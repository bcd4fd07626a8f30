import Formulary.Proofs.Source.Truncation

/-!
# Operators without operands

Only the end of a source may stand where an operand is expected. **An operator with a closing
parenthesis or a semicolon behind it is an error** (`parse_eq_error_of_missing`), wherever it stands
outside of texts, with one exception: plus signs that stand alone in an argument of a call leave no
trace (`Alone`), so the argument counts as empty.

This is read off the grammar, since what is accepted is a derived text up to dangling characters at its
end, and none of those is a closing one. Of a text with another text in front of it, `Sound` says that
no operator in it lacks its operand, that no literal is open behind it, and that it does not end in an
operator whose operand is still to come. Such texts can be put together; an operator makes a sound text
of what follows it if this begins as an operand does (`Sound.operator`).
-/

namespace Formulary.Parser

open Grammar

/-- The characters of operators and comparisons. -/
def operators : List Char := ['+', '-', '*', '/', '^', '<', '>', '=']

/-- What ends a bracket or an argument. -/
def closers : List Char := [')', ';']

/-- What comes behind these characters is outside of literals. -/
def Outside (s : List Char) : Prop := s.count '"' % 2 = 0

instance (s : List Char) : Decidable (Outside s) := inferInstanceAs (Decidable (_ = _))

/-- Behind `u` and outside of literals stands the operator `c`, and behind it are only blanks up to
the closing character `d`. -/
structure Missing (u : List Char) (c : Char) (b : List Char) (d : Char) : Prop where
  outside : Outside u
  operator : c ∈ operators
  blank : Blank b
  closer : d ∈ closers

/-- These characters end where an argument of a call begins. -/
inductive Opens : List Char → Prop
  | first {s name b : List Char} : Text.IsName name → Blank b →
      Opens (s ++ (name ++ (b ++ ['('])))
  | next {s : List Char} : Opens (s ++ [';'])

/-- Nothing but blanks and plus signs stands between the beginning of an argument and this place. -/
def Alone (u : List Char) : Prop :=
  ∃ s w, u = s ++ w ∧ Opens s ∧ ∀ c ∈ w, Text.isBlank c = true ∨ c = '+'

/-- The last of these characters outside of literals, but for blanks, is an operator. -/
def Pending (s : List Char) : Prop :=
  ∃ u c b, s = u ++ c :: b ∧ Outside u ∧ c ∈ operators ∧ Blank b

/-- Behind `before`, this text has all its operands. -/
structure Sound (before s : List Char) : Prop where
  outside : Outside s
  supplied : ∀ u c b d v, s = u ++ c :: (b ++ d :: v) → Missing u c b d →
    c = '+' ∧ Alone (before ++ u)
  complete : ¬ Pending s

section

variable {before s t u w b : List Char} {c d : Char}

/-! ## Characters -/

theorem not_blank_of_operator (hc : c ∈ operators) : Text.isBlank c = false := by
  have hall : operators.any Text.isBlank = false := by rfl
  exact Bool.eq_false_iff.2 (List.any_eq_false.1 hall c hc)

theorem not_blank_of_closer (hc : c ∈ closers) : Text.isBlank c = false := by
  have hall : closers.any Text.isBlank = false := by rfl
  exact Bool.eq_false_iff.2 (List.any_eq_false.1 hall c hc)

theorem not_mem_of_any {l l' : List Char} (h : l.any l'.contains = false) (hc : c ∈ l) :
    c ∉ l' :=
  fun hmem => List.any_eq_false.1 h c hc (List.contains_iff_mem.2 hmem)

theorem not_closer_of_operator (hc : c ∈ operators) : c ∉ closers :=
  not_mem_of_any rfl hc

theorem Begins.not_closer (h : Begins c) : c ∉ closers := by
  intro hc
  simp only [closers, List.mem_cons, List.not_mem_nil, or_false] at hc
  revert h
  rcases hc with rfl | rfl <;> (unfold Begins; decide)

/-- The text goes on with a character that is neither a blank nor a closing one. -/
def Starts (s : List Char) : Prop :=
  ∃ b c t, s = b ++ c :: t ∧ Blank b ∧ Text.isBlank c = false ∧ c ∉ closers

theorem starts_of_derives {n : Nat} {e : Expr} (hb : Blank b) (h : Derives n s e) :
    Starts (b ++ s) := by
  obtain ⟨c, t, rfl, hc⟩ := begins_of_derives h
  exact ⟨b, c, t, rfl, hb, hc.not_blank, hc.not_closer⟩

/-- The first character that is not a blank is the same however the text is split. -/
theorem eq_of_blank_append {b' s' : List Char} (hb : Blank b) (hb' : Blank b')
    (hc : Text.isBlank c = false) (hd : Text.isBlank d = false)
    (h : b ++ c :: s = b' ++ d :: s') : c = d := by
  induction b generalizing b' with
  | nil =>
    cases b' with
    | nil => exact (List.cons.inj h).1
    | cons x b' =>
      have hx := hb' x List.mem_cons_self
      rw [← (List.cons.inj h).1, hc] at hx
      cases hx
  | cons x b ih =>
    cases b' with
    | nil =>
      have hx := hb x List.mem_cons_self
      rw [(List.cons.inj h).1, hd] at hx
      cases hx
    | cons y b' =>
      exact ih (fun z hz => hb z (List.mem_cons_of_mem _ hz))
        (fun z hz => hb' z (List.mem_cons_of_mem _ hz)) (List.cons.inj h).2

/-- A character of two texts is one of the first or one of the second. -/
theorem split_append (h : s ++ t = u ++ c :: w) :
    (∃ w', s = u ++ c :: w' ∧ w = w' ++ t) ∨ ∃ u', u = s ++ u' ∧ t = u' ++ c :: w := by
  rcases List.append_eq_append_iff.1 h with ⟨u', rfl, ht⟩ | ⟨w', rfl, hw⟩
  · exact .inr ⟨u', rfl, ht⟩
  · cases w' with
    | nil => exact .inr ⟨[], by rw [List.append_nil, List.append_nil], hw.symm⟩
    | cons x w' =>
      obtain ⟨rfl, rfl⟩ := List.cons.inj hw
      exact .inl ⟨w', rfl, rfl⟩

theorem outside_append_iff (hs : Outside s) : Outside (s ++ t) ↔ Outside t := by
  unfold Outside at hs ⊢
  rw [List.count_append]
  omega

/-! ## Putting texts together -/

theorem Sound.append (hs : Sound before s) (ht : Sound (before ++ s) t) :
    Sound before (s ++ t) where
  outside := (outside_append_iff hs.outside).2 ht.outside
  supplied := by
    intro u c b d v h hmissing
    rcases split_append h with ⟨w', rfl, hw⟩ | ⟨u', rfl, rfl⟩
    · -- the operator is in the first text, and so is the closing character
      rcases split_append hw.symm with ⟨b', rfl, -⟩ | ⟨b', rfl, -⟩
      · exact hs.supplied u c _ d _ rfl hmissing
      · refine absurd ⟨u, c, w', rfl, hmissing.outside, hmissing.operator, ?_⟩ hs.complete
        exact fun x hx => hmissing.blank x (List.mem_append_left _ hx)
    · rw [← List.append_assoc]
      refine ht.supplied u' c b d v rfl ⟨?_, hmissing.operator, hmissing.blank, hmissing.closer⟩
      exact (outside_append_iff hs.outside).1 hmissing.outside
  complete := by
    rintro ⟨u, c, b, h, hu, hc, hb⟩
    rcases split_append h with ⟨w', rfl, rfl⟩ | ⟨u', rfl, rfl⟩
    · exact hs.complete ⟨u, c, w', rfl, hu, hc, fun x hx => hb x (List.mem_append_left _ hx)⟩
    · exact ht.complete ⟨u', c, b, rfl, (outside_append_iff hs.outside).1 hu, hc, hb⟩

/-- **An operator has its operand where one begins behind it.** -/
theorem Sound.operator (hc : c ∈ operators) (hs : Sound (before ++ [c]) s) (hstarts : Starts s) :
    Sound before (c :: s) := by
  obtain ⟨b', x, t, hs', hb', hx, hcloser⟩ := hstarts
  have hquote : c ≠ '"' := by
    rintro rfl
    revert hc
    decide
  have houtside (u : List Char) : Outside (c :: u) ↔ Outside u := by
    unfold Outside
    rw [List.count_cons_of_ne hquote]
  refine ⟨(houtside s).2 hs.outside, ?_, ?_⟩
  · intro u c' b d v h hmissing
    cases u with
    | nil =>
      obtain ⟨rfl, hrest⟩ := List.cons.inj h
      have hd := not_blank_of_closer hmissing.closer
      obtain rfl : x = d := eq_of_blank_append hb' hmissing.blank hx hd (hs'.symm.trans hrest)
      exact absurd hmissing.closer hcloser
    | cons y u =>
      obtain ⟨rfl, hrest⟩ := List.cons.inj h
      have hu := (houtside u).1 hmissing.outside
      have halone := hs.supplied u c' b d v hrest
        ⟨hu, hmissing.operator, hmissing.blank, hmissing.closer⟩
      rwa [List.append_assoc] at halone
  · rintro ⟨u, c', b, h, hu, hc', hb⟩
    cases u with
    | nil =>
      obtain ⟨rfl, rfl⟩ := List.cons.inj h
      have hblank := hb x (hs' ▸ List.mem_append_right _ List.mem_cons_self)
      rw [hx] at hblank
      cases hblank
    | cons y u =>
      obtain ⟨rfl, rfl⟩ := List.cons.inj h
      exact hs.complete ⟨u, c', b, rfl, (houtside u).1 hu, hc', hb⟩

/-- A text without operators has no need of operands. -/
theorem sound_of_no_operator (hs : Outside s)
    (h : ∀ u c w, s = u ++ c :: w → Outside u → c ∉ operators) : Sound before s where
  outside := hs
  supplied := fun u c _ _ _ hu hmissing => absurd hmissing.operator (h u c _ hu hmissing.outside)
  complete := fun ⟨u, c, b, hu, hout, hc, _⟩ => h u c b hu hout hc

theorem sound_of_forall (h : ∀ c ∈ s, c ∉ '"' :: operators) : Sound before s := by
  refine sound_of_no_operator ?_ ?_
  · have hcount : s.count '"' = 0 :=
      List.count_eq_zero_of_not_mem fun hq => h _ hq List.mem_cons_self
    rw [Outside, hcount]
  · rintro u c w rfl - hc
    exact h c (List.mem_append_right _ List.mem_cons_self) (List.mem_cons_of_mem _ hc)

/-- No operator and no quote is of this class, so texts of it are sound. -/
theorem sound_of_class {p : Char → Bool} (hp : ('"' :: operators).any p = false)
    (h : ∀ c ∈ s, p c = true) : Sound before s :=
  sound_of_forall fun c hc hmem => List.any_eq_false.1 hp c hmem (h c hc)

theorem sound_of_blank (h : Blank s) : Sound before s := sound_of_class rfl h

/-! ## Literals -/

theorem outside_literal (t : List Char) : Outside ('"' :: (Text.encode t ++ ['"'])) := by
  have hcount : (Text.encode t).count '"' = 2 * t.count '"' := by
    induction t with
    | nil => rfl
    | cons c t ih =>
      by_cases hc : c = '"'
      · rw [Text.encode, if_pos hc, hc]
        simp only [List.count_cons_self, ih]
        omega
      · rw [Text.encode, if_neg hc, List.count_cons_of_ne hc, List.count_cons_of_ne hc, ih]
  unfold Outside
  rw [List.count_cons_self, List.count_append, hcount]
  simp only [List.count_singleton_self]
  omega

/-- Behind an odd number of quotes inside a literal comes another one. -/
theorem eq_quote_of_encode {t u w : List Char} {c : Char}
    (h : Text.encode t ++ ['"'] = u ++ c :: w) (hu : ¬ Outside u) : c = '"' := by
  induction t generalizing u with
  | nil =>
    have hlength := congrArg List.length h
    simp only [Text.encode, List.nil_append, List.length_append, List.length_cons,
      List.length_nil] at hlength
    obtain rfl : u = [] := List.eq_nil_of_length_eq_zero (by omega)
    exact absurd rfl hu
  | cons x t ih =>
    cases u with
    | nil => exact absurd rfl hu
    | cons y u =>
      by_cases hx : x = '"'
      · -- the quote of the text is written twice
        rw [Text.encode, if_pos hx] at h
        obtain ⟨rfl, hrest⟩ := List.cons.inj h
        cases u with
        | nil => exact (List.cons.inj hrest).1.symm
        | cons z u =>
          obtain ⟨rfl, htail⟩ := List.cons.inj hrest
          refine ih htail fun hout => hu ?_
          unfold Outside at hout ⊢
          rw [List.count_cons_self, List.count_cons_self]
          omega
      · rw [Text.encode, if_neg hx] at h
        obtain ⟨rfl, hrest⟩ := List.cons.inj h
        refine ih hrest fun hout => hu ?_
        unfold Outside at hout ⊢
        rwa [List.count_cons_of_ne hx]

theorem sound_literal (t : List Char) : Sound before ('"' :: (Text.encode t ++ ['"'])) := by
  refine sound_of_no_operator (outside_literal t) ?_
  intro u c w h hu hc
  have hquote : c = '"' := by
    cases u with
    | nil => exact (List.cons.inj h).1.symm
    | cons x u =>
      obtain ⟨rfl, hrest⟩ := List.cons.inj h
      refine eq_quote_of_encode hrest fun hout => ?_
      unfold Outside at hu hout
      rw [List.count_cons_self] at hu
      omega
  rw [hquote] at hc
  revert hc
  decide

/-! ## Calls -/

/-- Plus signs and blanks may stand alone in an argument. -/
theorem sound_empty (hopens : Opens before) (hs : ∀ c ∈ s, Text.isBlank c = true ∨ c = '+')
    (hc : c ∈ closers) : Sound before (s ++ [c]) := by
  refine ⟨?_, ?_, ?_⟩
  · have hcount : (s ++ [c]).count '"' = 0 := by
      refine List.count_eq_zero_of_not_mem fun hq => ?_
      rcases List.mem_append.1 hq with hq | hq
      · exact absurd (hs _ hq) (by decide +kernel)
      · rw [← List.mem_singleton.1 hq] at hc
        revert hc
        decide
    rw [Outside, hcount]
  · intro u c' b d v h hmissing
    rcases split_append h with ⟨w', rfl, -⟩ | ⟨u', rfl, hrest⟩
    · have hplus : c' = '+' := by
        refine (hs c' (List.mem_append_right _ List.mem_cons_self)).resolve_left ?_
        rw [not_blank_of_operator hmissing.operator]
        exact nofun
      exact ⟨hplus, before, u, rfl, hopens, fun x hx => hs x (List.mem_append_left _ hx)⟩
    · have hlength := congrArg List.length hrest
      simp only [List.length_append, List.length_cons, List.length_nil] at hlength
      omega
  · rintro ⟨u, c', b, h, -, hc', hb⟩
    rcases split_append h with ⟨w', -, rfl⟩ | ⟨u', -, hrest⟩
    · have hblank := hb c (List.mem_append_right _ (List.mem_singleton_self c))
      rw [not_blank_of_closer hc] at hblank
      cases hblank
    · have hmem : c' ∈ [c] := hrest ▸ List.mem_append_right _ List.mem_cons_self
      rw [List.mem_singleton.1 hmem] at hc'
      exact not_closer_of_operator hc' hc

theorem blank_or_plus_of_pluses (h : Pluses s) : ∀ c ∈ s, Text.isBlank c = true ∨ c = '+' := by
  induction h with
  | nil => exact nofun
  | cons hb hs ih =>
    intro c hc
    rcases List.mem_cons.1 hc with rfl | hc
    · exact .inr rfl
    · rcases List.mem_append.1 hc with hc | hc
      · exact .inl (hb c hc)
      · exact ih c hc

theorem sound_closer (hc : c ∈ closers) : Sound before [c] := by
  refine sound_of_forall fun x hx hmem => ?_
  rw [List.mem_singleton.1 hx] at hmem
  exact not_mem_of_any rfl hc hmem

theorem sound_opening : Sound before ['('] := by
  refine sound_of_forall fun x hx hmem => ?_
  rw [List.mem_singleton.1 hx] at hmem
  revert hmem
  decide

/-- An argument with the character that ends it. -/
theorem sound_argument {a : Argument} (hopens : Opens before) (hlead : Blank a.lead)
    (hempty : a.tree? = none → Pluses a.content)
    (htree : ∀ e, a.tree? = some e → ∀ before, Sound before a.content) (hc : c ∈ closers) :
    Sound before (a.text ++ [c]) := by
  cases ha : a.tree? with
  | none =>
    refine sound_empty hopens (fun x hx => ?_) hc
    rcases List.mem_append.1 hx with hx | hx
    · exact .inl (hlead x hx)
    · exact blank_or_plus_of_pluses (hempty ha) x hx
  | some e =>
    have htext : Sound before a.text := (sound_of_blank hlead).append (htree e ha _)
    exact htext.append (sound_closer hc)

theorem sound_arguments {as : List Argument} (hopens : Opens before) (hne : as ≠ [])
    (hlead : ∀ a ∈ as, Blank a.lead) (hempty : ∀ a ∈ as, a.tree? = none → Pluses a.content)
    (htree : ∀ a ∈ as, ∀ e, a.tree? = some e → ∀ before, Sound before a.content) :
    Sound before (argumentsText as ++ [')']) := by
  induction as generalizing before with
  | nil => exact absurd rfl hne
  | cons a as ih =>
    rw [List.forall_mem_cons] at hlead hempty htree
    cases as with
    | nil => exact sound_argument hopens hlead.1 hempty.1 htree.1 (by decide)
    | cons a' as =>
      have hfirst : Sound before (a.text ++ [';']) :=
        sound_argument hopens hlead.1 hempty.1 htree.1 (by decide)
      have hnext : Opens (before ++ (a.text ++ [';'])) := by
        rw [← List.append_assoc]
        exact .next
      have hothers := ih hnext nofun hlead.2 hempty.2 htree.2
      have hall := hfirst.append hothers
      rw [List.append_assoc, List.singleton_append, ← List.cons_append, ← List.append_assoc] at hall
      exact hall

/-! ## Derived texts -/

theorem sound_comparison {op : CompareOp} (hs : ∀ before, Sound before s) (hstarts : Starts s) :
    Sound before (op.symbol.toList ++ s) := by
  have hequals (x : Char) (hx : x ∈ operators) : Starts (x :: s) :=
    ⟨[], x, s, rfl, blank_nil, not_blank_of_operator hx, not_closer_of_operator hx⟩
  cases op with
  | gt => exact .operator (by decide) (hs _) hstarts
  | lt => exact .operator (by decide) (hs _) hstarts
  | eq => exact .operator (by decide) (hs _) hstarts
  | ge => exact .operator (by decide) (.operator (by decide) (hs _) hstarts) (hequals _ (by decide))
  | le => exact .operator (by decide) (.operator (by decide) (hs _) hstarts) (hequals _ (by decide))
  | ne => exact .operator (by decide) (.operator (by decide) (hs _) hstarts) (hequals _ (by decide))

/-- **A derived text has all its operands**, whatever stands in front of it. -/
theorem sound_of_derives {n : Nat} {e : Expr} (h : Derives n s e) (before : List Char) :
    Sound before s := by
  induction h generalizing before with
  | number hs hx hb =>
    exact (sound_of_class rfl hs).append (sound_of_blank hb)
  | @text t b hb =>
    have hliteral : Sound before ('"' :: (Text.encode t.toList ++ ['"'])) := sound_literal _
    have hall := hliteral.append (sound_of_blank hb)
    rwa [List.cons_append, List.append_assoc, List.singleton_append] at hall
  | var hname hb =>
    exact (sound_of_class rfl (isNamePart_of_isName hname)).append (sound_of_blank hb)
  | @reference name b b' hb hname hb' =>
    have hrest (before : List Char) : Sound before (b ++ (name.toList ++ b')) :=
      (sound_of_blank hb).append ((sound_of_class rfl hname.2).append (sound_of_blank hb'))
    obtain ⟨c, cs, hcs⟩ := List.exists_cons_of_ne_nil hname.1
    have hc : c.isAlphanum = true := hname.2 c (hcs ▸ List.mem_cons_self)
    refine .operator (by decide) (hrest _) ⟨b, c, cs ++ b', ?_, hb, ?_, ?_⟩
    · rw [hcs, List.cons_append]
    · exact isBlank_eq_false_of_isAlphanum hc
    · have hall : closers.any Char.isAlphanum = false := by rfl
      exact fun hmem => List.any_eq_false.1 hall c hmem hc
  | @bracket b s b' e hb he hb' ih =>
    have hopen : Sound before ['('] := sound_opening
    have hclose (before : List Char) : Sound before [')'] := sound_closer (by decide)
    exact hopen.append ((sound_of_blank hb).append ((ih _).append
      ((hclose _).append (sound_of_blank hb'))))
  | @call name b b' as hname hb hne hlead hempty htree hb' ih =>
    have hopen : Sound before (name.toList ++ (b ++ ['('])) :=
      (sound_of_class rfl (isNamePart_of_isName hname)).append
        ((sound_of_blank hb).append sound_opening)
    have harguments : Sound (before ++ (name.toList ++ (b ++ ['('])))
        (argumentsText as ++ [')']) :=
      sound_arguments (.first hname hb) hne hlead hempty ih
    have hall := hopen.append (harguments.append (sound_of_blank hb'))
    simpa only [List.append_assoc, List.singleton_append] using hall
  | minus hb he ih =>
    exact .operator (by decide) ((sound_of_blank hb).append (ih _)) (starts_of_derives hb he)
  | plus hb he ih =>
    exact .operator (by decide) ((sound_of_blank hb).append (ih _)) (starts_of_derives hb he)
  | @arith s b t l r op hl hb hr ihl ihr =>
    have hop : op.symbol ∈ operators := by cases op <;> decide
    exact (ihl before).append
      (.operator hop ((sound_of_blank hb).append (ihr _)) (starts_of_derives hb hr))
  | compare hl hb hr hext ihl ihr =>
    exact (ihl before).append (sound_comparison
      (fun before => (sound_of_blank hb).append (ihr _)) (starts_of_derives hb hr))
  | loosen hn he ih => exact ih before

theorem sound_of_derivesFormula {e : Expr} (h : DerivesFormula s e) : Sound [] s := by
  cases h with
  | marked hlead hb he =>
    rw [List.append_assoc]
    exact (sound_of_blank hlead).append (.operator (by decide)
      ((sound_of_blank hb).append (sound_of_derives he _)) (starts_of_derives hb he))
  | unmarked hlead he _ => exact (sound_of_blank hlead).append (sound_of_derives he _)

/-- What stands alone follows a blank, another plus sign or the beginning of the argument. -/
theorem not_alone_concat (hb : Text.isBlank c = false) (hc : c ∉ ['+', '(', ';']) :
    ¬ Alone (s ++ [c]) := by
  rintro ⟨t, w, h, hopens, hw⟩
  rcases List.eq_nil_or_concat' w with rfl | ⟨w, x, rfl⟩
  · rw [List.append_nil] at h
    cases hopens with
    | @first t name b' hname hb' =>
      rw [← List.append_assoc, ← List.append_assoc] at h
      obtain rfl : c = '(' := List.singleton_inj.1 (List.append_inj' h rfl).2
      exact hc (by decide)
    | @next t =>
      obtain rfl : c = ';' := List.singleton_inj.1 (List.append_inj' h rfl).2
      exact hc (by decide)
  · rw [← List.append_assoc] at h
    obtain rfl : c = x := List.singleton_inj.1 (List.append_inj' h rfl).2
    rcases hw c (List.mem_append_right _ (List.mem_singleton_self c)) with hblank | rfl
    · rw [hb] at hblank
      cases hblank
    · exact hc List.mem_cons_self

end

/-! ## Sources -/

/-- No closing character dangles at the end of a source. -/
theorem not_closer_of_dangling {q : List Char} {c : Char} (hq : Dangling q) (hc : c ∈ q) :
    c ∉ closers := by
  intro hcloser
  rcases hq c hc with hblank | hopening
  · rw [not_blank_of_closer hcloser] at hblank
    cases hblank
  · exact not_mem_of_any rfl hcloser hopening

/-- **Where an operand is missing in front of a closing character, there is no formula**, but for plus
signs that stand alone in an argument. -/
theorem parse_eq_error_of_missing {source : String} {u b v : List Char} {c d : Char}
    (hsource : source.toList = u ++ c :: (b ++ d :: v)) (hmissing : Missing u c b d)
    (hplus : c = '+' → ¬ Alone u) : ∃ e, Expr.parse source = .error e := by
  cases hparse : Expr.parse source with
  | error e => exact ⟨e, rfl⟩
  | ok t =>
    obtain ⟨p, q, k, hpq, hq, hformula⟩ := derivesFormula_of_parse hparse
    have hsplit : p ++ q = (u ++ c :: b) ++ d :: v := by
      rw [← hpq, hsource, List.append_assoc, List.cons_append]
    rcases split_append hsplit with ⟨w, rfl, -⟩ | ⟨w, -, rfl⟩
    · have hsound := sound_of_derivesFormula hformula
      obtain ⟨hc, halone⟩ := hsound.supplied u c b d (w ++ List.replicate k ')')
        (by simp only [List.append_assoc, List.cons_append]) hmissing
      exact absurd halone (hplus hc)
    · exact absurd hmissing.closer
        (not_closer_of_dangling hq (List.mem_append_right _ List.mem_cons_self))

/-- A binary plus sign is not alone. -/
theorem parse_factor_missing_in_argument :
    "f(a+ ;b)".toList = ['f', '(', 'a'] ++ '+' :: ([' '] ++ ';' :: ['b', ')']) ∧
      Missing ['f', '(', 'a'] '+' [' '] ';' ∧ ¬ Alone ['f', '(', 'a'] ∧
      ∃ e, Expr.parse "f(a+ ;b)" = .error e := by
  have hsource : "f(a+ ;b)".toList = ['f', '(', 'a'] ++ '+' :: ([' '] ++ ';' :: ['b', ')']) := by
    rfl
  have hmissing : Missing ['f', '(', 'a'] '+' [' '] ';' :=
    ⟨by decide, by decide, blank_space, by decide⟩
  have halone : ¬ Alone (['f', '('] ++ ['a']) := not_alone_concat rfl (by decide)
  exact ⟨hsource, hmissing, halone, parse_eq_error_of_missing hsource hmissing fun _ => halone⟩

/-- A plus sign that stands alone in an argument lacks its operand, and this is no error. -/
theorem parse_lone_plus :
    "f(+)".toList = ['f', '('] ++ '+' :: ([] ++ ')' :: []) ∧ Missing ['f', '('] '+' [] ')' ∧
      Expr.parse "f(+)" = .ok (.call "f" []) := by
  have hformula : formula "f(+)".length ⟨.start "f(+)", []⟩ =
      .ok (.call "f" []) ⟨⟨[], 4⟩, []⟩ := by rfl
  refine ⟨by rfl, ⟨by decide, by decide, blank_nil, by decide⟩, ?_⟩
  exact Expr.parse_eq_ok_iff.2 ⟨_, _, hformula, Expr.regroup_eq_self (by decide)⟩

end Formulary.Parser
