import Formulary.Proofs.Source.Truncation

/-!
# The operands of a formula are the lexemes of its source

A source has *lexemes*: its text literals, and outside of them the longest runs of letters, digits,
dots and colons. `lexemes` finds them without a look at the grammar. **Reading a formula loses no
operand, makes up none and keeps their order**: the lexemes of an accepted source are those of the
leaves and of the calls in its tree, from left to right (`lexemes_of_parse`).

For a derived text this is a matter of its parts. Between two operands stands a sign, an operator or a
bracket, so no two of them run together into one lexeme (`Carries.join`). What dangles at the end of a
source and the brackets that it leaves open have no lexemes.
-/

namespace Formulary

/-! ## Lexemes -/

/-- What is written for an operand, or for the name of a function. -/
inductive Lexeme where
  | word (s : List Char)
  /-- A text literal, as it is written between its quotes. -/
  | literal (inside : List Char)
  /-- A quote with no closing one, which stands for no operand. -/
  | unclosed
  deriving DecidableEq, Repr

namespace Lexeme

/-- Letters, digits, dots and colons. -/
def isWordPart (c : Char) : Bool := c.isAlphanum || c == '.' || c == ':'

theorem isWordPart_of_isAlphanum {c : Char} (h : c.isAlphanum = true) : isWordPart c = true := by
  simp [isWordPart, h]

theorem isWordPart_of_isNumeral {c : Char} (h : Text.isNumeral c = true) : isWordPart c = true := by
  rw [Text.isNumeral, Bool.or_eq_true] at h
  rcases h with h | h <;> simp [isWordPart, Char.isAlphanum, h]

theorem isWordPart_of_isNamePart {c : Char} (h : Text.isNamePart c = true) :
    isWordPart c = true := by
  rw [Text.isNamePart, Bool.or_eq_true] at h
  rcases h with h | h <;> simp [isWordPart, h]

/-- What stands in front of a closing quote, and behind it. A double quote that is written twice
closes nothing. -/
def splitLiteral : List Char → Option (List Char × List Char)
  | [] => none
  | '"' :: '"' :: s => (splitLiteral s).map fun (inside, rest) => ('"' :: '"' :: inside, rest)
  | c :: s =>
    if c = '"' then some ([], s)
    else (splitLiteral s).map fun (inside, rest) => (c :: inside, rest)

theorem length_splitLiteral {s inside rest : List Char} (h : splitLiteral s = some (inside, rest)) :
    rest.length ≤ s.length := by
  fun_induction splitLiteral s generalizing inside rest with
  | case1 => cases h
  | case2 s ih =>
    obtain ⟨⟨i, r⟩, hs, ⟨⟩⟩ := Option.map_eq_some_iff.1 h
    exact Nat.le_trans (ih hs) (Nat.le_add_right _ 2)
  | case3 s =>
    cases h
    exact Nat.le_succ _
  | case4 c s _ hc ih =>
    obtain ⟨⟨i, r⟩, hs, ⟨⟩⟩ := Option.map_eq_some_iff.1 h
    exact Nat.le_succ_of_le (ih hs)

/-- The lexemes of a source. -/
def lexemes : List Char → List Lexeme
  | [] => []
  | c :: s =>
    if isWordPart c then
      .word (c :: s.takeWhile isWordPart) :: lexemes (s.dropWhile isWordPart)
    else if c = '"' then
      match _h : splitLiteral s with
      | some (inside, rest) => .literal inside :: lexemes rest
      | none => [.unclosed]
    else lexemes s
termination_by s => s.length
decreasing_by
  · exact Nat.lt_succ_of_le (List.dropWhile_suffix _).length_le
  · exact Nat.lt_succ_of_le (length_splitLiteral _h)
  · exact Nat.lt_succ_self _

/-- No part of a lexeme. -/
def Plain (s : List Char) : Prop := ∀ c ∈ s, isWordPart c = false ∧ c ≠ '"'

instance : DecidablePred Plain := fun s => List.decidableBAll _ s

/-- No part of a lexeme follows at once. -/
def Separated (s : List Char) : Prop := ∀ c ∈ s.head?, isWordPart c = false ∧ c ≠ '"'

variable {s t w rest : List Char}

theorem Plain.separated (h : Plain s) : Separated s := fun c hc => h c (List.mem_of_head? hc)

theorem plain_append : Plain (s ++ t) ↔ Plain s ∧ Plain t := List.forall_mem_append

theorem plain_cons {c : Char} :
    Plain (c :: s) ↔ (isWordPart c = false ∧ c ≠ '"') ∧ Plain s := List.forall_mem_cons

theorem lexemes_plain (h : Plain s) : lexemes (s ++ rest) = lexemes rest := by
  induction s with
  | nil => rfl
  | cons c s ih =>
    obtain ⟨⟨hword, hquote⟩, hs⟩ := plain_cons.1 h
    rw [List.cons_append, lexemes, if_neg (Bool.eq_false_iff.1 hword), if_neg hquote, ih hs]

theorem lexemes_word (hne : w ≠ []) (hw : ∀ c ∈ w, isWordPart c = true) (hr : Separated rest) :
    lexemes (w ++ rest) = .word w :: lexemes rest := by
  cases w with
  | nil => exact absurd rfl hne
  | cons c w =>
    have hnone : ∀ d ∈ rest.head?, isWordPart d = false := fun d hd => (hr d hd).1
    have hw' : ∀ d ∈ w, isWordPart d = true := fun d hd => hw d (List.mem_cons_of_mem _ hd)
    rw [List.cons_append, lexemes, if_pos (hw c List.mem_cons_self),
      Parser.takeWhile_append_stop hw' hnone, Parser.dropWhile_append_stop hw' hnone]

theorem splitLiteral_encode (t : List Char) (hr : rest.head? ≠ some '"') :
    splitLiteral (Text.encode t ++ '"' :: rest) = some (Text.encode t, rest) := by
  induction t with
  | nil =>
    cases rest with
    | nil => rfl
    | cons c s =>
      have hc : c ≠ '"' := by simpa using hr
      simp [Text.encode, splitLiteral, hc]
  | cons c t ih => by_cases hc : c = '"' <;> simp [Text.encode, splitLiteral, hc, ih]

theorem lexemes_closed {inside : List Char} (h : splitLiteral s = some (inside, rest)) :
    lexemes ('"' :: s) = .literal inside :: lexemes rest := by
  rw [lexemes, if_neg (by decide), if_pos rfl]
  split
  · rename_i h'
    rw [h] at h'
    cases h'
    rfl
  · rename_i h'
    rw [h] at h'
    cases h'

theorem lexemes_unclosed (h : splitLiteral s = none) : lexemes ('"' :: s) = [.unclosed] := by
  rw [lexemes, if_neg (by decide), if_pos rfl]
  split
  · rename_i h'
    rw [h] at h'
    cases h'
  · rfl

theorem lexemes_literal (t : List Char) (hr : rest.head? ≠ some '"') :
    lexemes ('"' :: (Text.encode t ++ '"' :: rest)) = .literal (Text.encode t) :: lexemes rest :=
  lexemes_closed (splitLiteral_encode t hr)

example : lexemes "=f(2;\"a \"\"b\"\"\")<r1:r4".toList =
    [.word ['f'], .word ['2'], .literal "a \"\"b\"\"".toList, .word ['r', '1', ':', 'r', '4']] := by
  cbv

theorem splitLiteral_append (ht : Plain t) :
    splitLiteral (s ++ t) = (splitLiteral s).map fun (inside, rest) => (inside, rest ++ t) := by
  have hquote : ∀ c ∈ t, c ≠ '"' := fun c hc => (ht c hc).2
  fun_induction splitLiteral s with
  | case1 =>
    show splitLiteral t = none
    clear ht
    induction t with
    | nil => rfl
    | cons c t ih =>
      obtain ⟨hc, ht⟩ := List.forall_mem_cons.1 hquote
      simp [splitLiteral, hc, ih ht]
  | case2 s ih => simp [splitLiteral, ih, Function.comp_def]
  | case3 s hs =>
    have hs' : ∀ u, s ++ t ≠ '"' :: u := by
      intro u hu
      cases s with
      | nil =>
        rw [List.nil_append] at hu
        exact hquote '"' (by rw [hu]; exact List.mem_cons_self) rfl
      | cons c s =>
        cases hu
        exact hs s rfl rfl
    simp [splitLiteral, hs']
  | case4 c s _ hc ih => simp [splitLiteral, hc, ih, Function.comp_def]

theorem wordPart_append (ht : Plain t) :
    (s ++ t).takeWhile isWordPart = s.takeWhile isWordPart ∧
      (s ++ t).dropWhile isWordPart = s.dropWhile isWordPart ++ t := by
  induction s with
  | nil =>
    cases t with
    | nil => exact ⟨rfl, rfl⟩
    | cons c t =>
      have hc := Bool.eq_false_iff.1 (ht c List.mem_cons_self).1
      exact ⟨List.takeWhile_cons_of_neg hc, List.dropWhile_cons_of_neg hc⟩
  | cons c s ih => by_cases hc : isWordPart c = true <;> simp [hc, ih]

/-- What is no part of a lexeme adds none at the end, nor does it close a literal. -/
theorem lexemes_append_plain (ht : Plain t) : lexemes (s ++ t) = lexemes s := by
  fun_induction lexemes s with
  | case1 =>
    have h : lexemes (t ++ []) = lexemes [] := lexemes_plain ht
    rwa [List.append_nil, lexemes] at h
  | case2 c s hword ih =>
    rw [List.cons_append, lexemes, if_pos hword, (wordPart_append ht).1, (wordPart_append ht).2, ih]
  | case3 s inside rest hsplit _ ih =>
    have happend := splitLiteral_append (s := s) ht
    rw [hsplit] at happend
    rw [List.cons_append, lexemes_closed happend, ih]
  | case4 s hsplit =>
    have happend := splitLiteral_append (s := s) ht
    rw [hsplit] at happend
    rw [List.cons_append, lexemes_unclosed happend]
  | case5 c s hword hquote ih =>
    rw [List.cons_append, lexemes, if_neg hword, if_neg hquote, ih]

end Lexeme

/-! ## What lexemes stand for -/

/-- The nodes that are written with a lexeme of their own, from left to right: numbers, texts,
variables, references, and calls, each in front of its arguments. -/
def Expr.bearers (e : Expr) : List Expr :=
  e.nodes.filter fun
    | .bracket _ | .minus _ | .arith .. | .compare .. => false
    | _ => true

/-- The node carries exactly what the lexeme says: the number that is read from it, the text that is
written so between quotes, or the name. -/
def Lexeme.Stands : Lexeme → Expr → Prop
  | .word w, .number x => (∀ c ∈ w, Text.isNumeral c = true) ∧ Binary64.ofNumeral? w = some x
  | .word w, .var name | .word w, .reference name | .word w, .call name _ => w = name.toList
  | .literal inside, .text t => inside = Text.encode t.toList
  | _, _ => False

namespace Expr

theorem bearers_arith {l r : Expr} {op : ArithOp} :
    (arith l op r).bearers = l.bearers ++ r.bearers := by
  simp [bearers, nodes]

theorem bearers_compare {l r : Expr} {op : CompareOp} :
    (compare l op r).bearers = l.bearers ++ r.bearers := by
  simp [bearers, nodes]

theorem bearers_call {name : String} {es : List Expr} :
    (call name es).bearers = call name es :: es.flatMap bearers := by
  simp only [bearers, nodes, nodesList_eq_flatMap, List.filter_cons, List.filter_flatMap, if_true]
  rfl

end Expr

/-! ## Derived texts -/

namespace Parser

open Grammar Lexeme

/-- In front of what is no part of a lexeme, the lexemes of the text stand for these nodes. -/
def Carries (s : List Char) (es : List Expr) : Prop :=
  ∃ ls, List.Forall₂ Stands ls es ∧ ∀ rest, Separated rest → lexemes (s ++ rest) = ls ++ lexemes rest

section

variable {n : Nat} {s t p : List Char} {e : Expr} {es es' : List Expr}

theorem carries_plain (h : Plain p) : Carries p [] := ⟨[], .nil, fun _ _ => lexemes_plain h⟩

theorem Carries.prepend (hp : Plain p) (h : Carries s es) : Carries (p ++ s) es := by
  obtain ⟨ls, hls, h⟩ := h
  refine ⟨ls, hls, fun rest hr => ?_⟩
  rw [List.append_assoc, lexemes_plain hp, h rest hr]

/-- What stands between two parts keeps their lexemes apart. -/
theorem Carries.join (hs : Carries s es) (hp : Plain p) (hne : p ≠ []) (ht : Carries t es') :
    Carries (s ++ (p ++ t)) (es ++ es') := by
  obtain ⟨ls, hls, hs⟩ := hs
  obtain ⟨ls', hls', ht⟩ := ht.prepend hp
  refine ⟨ls ++ ls', List.rel_append hls hls', fun rest hr => ?_⟩
  have hseparated : Separated (p ++ t ++ rest) := by
    cases p with
    | nil => exact absurd rfl hne
    | cons c p => exact hp.separated
  rw [List.append_assoc, hs _ hseparated, ht rest hr, List.append_assoc]

theorem Carries.append_plain (hs : Carries s es) (hp : Plain p) : Carries (s ++ p) es := by
  cases p with
  | nil => rwa [List.append_nil]
  | cons c p =>
    have h := hs.join hp nofun (carries_plain (fun _ h => nomatch h : Plain []))
    rwa [List.append_nil, List.append_nil] at h

theorem carries_word (hne : s ≠ []) (hs : ∀ c ∈ s, isWordPart c = true)
    (h : Stands (.word s) e) : Carries s [e] :=
  ⟨[.word s], .cons h .nil, fun _ hr => lexemes_word hne hs hr⟩

theorem carries_literal (t : String) :
    Carries ('"' :: (Text.encode t.toList ++ ['"'])) [.text t] := by
  refine ⟨[.literal (Text.encode t.toList)], .cons rfl .nil, fun rest hr => ?_⟩
  rw [List.cons_append, List.append_assoc]
  exact lexemes_literal t.toList fun hq => (hr '"' hq).2 rfl

theorem isBlank_eq_false_of_isWordPart {c : Char} (h : isWordPart c = true) :
    Text.isBlank c = false := by
  simp only [isWordPart, Bool.or_eq_true, beq_iff_eq] at h
  rcases h with (h | rfl) | rfl
  · exact isBlank_eq_false_of_isAlphanum h
  · rfl
  · rfl

theorem plain_of_blank {b : List Char} (hb : Blank b) : Plain b := by
  intro c hc
  have hblank := hb c hc
  refine ⟨Bool.eq_false_iff.2 fun hword => ?_, fun hquote => ?_⟩
  · rw [isBlank_eq_false_of_isWordPart hword] at hblank
    cases hblank
  · rw [hquote] at hblank
    cases hblank

theorem plain_of_pluses (h : Pluses s) : Plain s := by
  induction h with
  | nil => exact nofun
  | cons hb _ ih => exact plain_cons.2 ⟨by decide, plain_append.2 ⟨plain_of_blank hb, ih⟩⟩

theorem plain_token {c : Char} {b : List Char} (hc : isWordPart c = false ∧ c ≠ '"')
    (hb : Blank b) : Plain (c :: b) :=
  plain_cons.2 ⟨hc, plain_of_blank hb⟩

theorem plain_of_dangling (h : Dangling s) : Plain s := by
  have hopenings : Plain openings := by decide
  intro c hc
  rcases h c hc with hblank | hopening
  · exact plain_of_blank (List.forall_mem_singleton.2 hblank) c (List.mem_singleton_self c)
  · exact hopenings c hopening

theorem carries_name {name : String} (hname : Text.IsName name.toList)
    (h : Stands (.word name.toList) e) : Carries name.toList [e] := by
  have hne : name.toList ≠ [] := by
    intro hnil
    rw [hnil] at hname
    exact hname
  exact carries_word hne (fun c hc => isWordPart_of_isNamePart (isNamePart_of_isName hname c hc)) h

theorem carries_argument {a : Argument} (hlead : Blank a.lead)
    (hempty : a.tree? = none → Pluses a.content)
    (hcontent : ∀ e, a.tree? = some e → Carries a.content e.bearers) :
    Carries a.text ([a].filterMap Argument.tree? |>.flatMap Expr.bearers) := by
  refine Carries.prepend (plain_of_blank hlead) ?_
  cases htree : a.tree? with
  | none => simpa [htree] using carries_plain (plain_of_pluses (hempty htree))
  | some e => simpa [htree] using hcontent e htree

theorem carries_arguments {as : List Argument} (hne : as ≠ [])
    (h : ∀ a ∈ as, Carries a.text ([a].filterMap Argument.tree? |>.flatMap Expr.bearers)) :
    Carries (argumentsText as) ((as.filterMap Argument.tree?).flatMap Expr.bearers) := by
  induction as with
  | nil => exact absurd rfl hne
  | cons a as ih =>
    cases as with
    | nil => exact h a List.mem_cons_self
    | cons a' as =>
      have hrest := ih nofun fun x hx => h x (List.mem_cons_of_mem _ hx)
      have hjoin := (h a List.mem_cons_self).join (p := [';']) (by decide) nofun hrest
      rw [← List.flatMap_append, ← List.filterMap_append] at hjoin
      exact hjoin

/-- **A derived text has the lexemes of its tree.** -/
theorem carries_of_derives (h : Derives n s e) : Carries s e.bearers := by
  induction h with
  | @number s b x hs hx hb =>
    have hword : ∀ c ∈ s, isWordPart c = true := fun c hc => isWordPart_of_isNumeral (hs c hc)
    refine Carries.append_plain (carries_word ?_ hword ⟨hs, hx⟩) (plain_of_blank hb)
    rintro rfl
    cases hx
  | @text t b hb =>
    have h := (carries_literal t).append_plain (plain_of_blank hb)
    rwa [List.cons_append, List.append_assoc] at h
  | @var name b hname hb =>
    have hname : Carries name.toList [.var name] := carries_name hname rfl
    exact hname.append_plain (plain_of_blank hb)
  | @reference name b b' hb hname hb' =>
    have hword : ∀ c ∈ name.toList, isWordPart c = true := fun c hc =>
      isWordPart_of_isAlphanum (hname.2 c hc)
    have hcarries : Carries name.toList [.reference name] := carries_word hname.1 hword rfl
    exact (hcarries.append_plain (plain_of_blank hb')).prepend (plain_token (by decide) hb)
  | bracket hb he hb' ih =>
    exact (ih.append_plain (plain_token (by decide) hb')).prepend (plain_token (by decide) hb)
  | @call name b b' as hname hb has hlead hempty hcontent hb' ih =>
    rw [Expr.bearers_call]
    have harguments := carries_arguments has fun a ha =>
      carries_argument (hlead a ha) (hempty a ha) (ih a ha)
    have hinside := harguments.append_plain (plain_token (by decide : isWordPart ')' = false ∧ _) hb')
    have hopen : Plain (b ++ ['(']) := plain_append.2 ⟨plain_of_blank hb, by decide⟩
    have hname : Carries name.toList [.call name (as.filterMap Argument.tree?)] :=
      carries_name hname rfl
    have hcall := hname.join hopen (by simp) hinside
    rwa [List.append_assoc] at hcall
  | minus hb he ih => exact ih.prepend (plain_token (by decide) hb)
  | plus hb he ih => exact ih.prepend (plain_token (by decide) hb)
  | @arith s b t l r op hl hb hr ihl ihr =>
    rw [Expr.bearers_arith]
    exact ihl.join (plain_token (by cases op <;> decide) hb) (List.cons_ne_nil _ _) ihr
  | @compare s b t l r op hl hb hr hop ihl ihr =>
    rw [Expr.bearers_compare]
    have hsymbol : Plain (op.symbol.toList ++ b) :=
      plain_append.2 ⟨by cases op <;> decide, plain_of_blank hb⟩
    have hjoin := ihl.join hsymbol (by cases op <;> exact List.cons_ne_nil _ _) ihr
    rwa [List.append_assoc] at hjoin
  | loosen hn he ih => exact ih

theorem carries_of_derivesFormula (h : DerivesFormula s e) : Carries s e.bearers := by
  cases h with
  | @marked lead b s _ hlead hb hs =>
    have hmarker : Plain (lead ++ '=' :: b) :=
      plain_append.2 ⟨plain_of_blank hlead, plain_token (by decide) hb⟩
    exact (carries_of_derives hs).prepend hmarker
  | unmarked hlead hs _ => exact (carries_of_derives hs).prepend (plain_of_blank hlead)

/-- **The lexemes of an accepted source are those of its tree**, one for each leaf and each call, from
left to right. -/
theorem lexemes_of_parse {source : String} {t : Expr} (h : Expr.parse source = .ok t) :
    List.Forall₂ Stands (lexemes source.toList) t.bearers := by
  obtain ⟨p, q, k, hsource, hq, hformula⟩ := derivesFormula_of_parse h
  obtain ⟨ls, hls, hcarries⟩ := carries_of_derivesFormula hformula
  have hclosing : Plain (List.replicate k ')') := by
    intro c hc
    rw [List.eq_of_mem_replicate hc]
    decide
  have hlexemes := hcarries [] nofun
  rw [List.append_nil, lexemes_append_plain hclosing, lexemes, List.append_nil] at hlexemes
  rw [hsource, lexemes_append_plain (plain_of_dangling hq), hlexemes]
  exact hls

/-- A call is not closed, and a term is missing in its second argument. -/
theorem lexemes_of_cut_call :
    Expr.parse "=-(a1*b:c)<=f(d;=e+" =
        .ok (.compare (.minus (.bracket (.arith (.var "a1") .mul (.var "b:c")))) .le
          (.call "f" [.var "d", .reference "e"])) ∧
      List.Forall₂ Stands (lexemes "=-(a1*b:c)<=f(d;=e+".toList)
        (Expr.bearers (.compare (.minus (.bracket (.arith (.var "a1") .mul (.var "b:c")))) .le
          (.call "f" [.var "d", .reference "e"]))) := by
  have hformula : formula "=-(a1*b:c)<=f(d;=e+".length ⟨.start "=-(a1*b:c)<=f(d;=e+", []⟩ =
      .ok (.compare (.minus (.bracket (.arith (.var "a1") .mul (.var "b:c")))) .le
          (.call "f" [.var "d", .reference "e"])) ⟨⟨[], 19⟩, [some (.reference "e")]⟩ := by rfl
  have h := Expr.parse_eq_ok_iff.2 ⟨_, _, hformula, Expr.regroup_eq_self (by decide)⟩
  exact ⟨h, lexemes_of_parse h⟩

end

end Parser

end Formulary
