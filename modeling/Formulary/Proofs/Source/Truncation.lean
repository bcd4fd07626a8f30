import Formulary.Proofs.Source.Derivations

/-!
# Sources that end too early

A source may end after an operator, a sign or an opening bracket, and with brackets and calls still
open. **What it is read as is what its longest complete part stands for, with the brackets closed**
(`parse_of_complete_part`): behind this part there is nothing but blanks, signs, operators and opening
brackets.

`Completes s m t` says so of what was read between two places: where the source goes on behind it, it
is the text `t` itself, and at the end of the source it may be `t` without its closing parentheses,
with dangling characters instead. A parser at a level of the grammar reads a text that is completed to
a derived one (`Accounts`), or to plus signs alone where it finds no operand. Whichever level notices
that an operand is missing, it has only dangling characters to drop: all that was read since the part
it keeps.
-/

namespace Formulary.Parser

open Grammar

/-! ## Complete parts -/

/-- What an operand is missing behind: signs, the characters of operators, and the opening bracket. -/
def openings : List Char := ['+', '-', '*', '/', '^', '<', '>', '=', '(']

/-- What may be dropped at the end of a source. -/
def Dangling (s : List Char) : Prop := ∀ c ∈ s, Text.isBlank c = true ∨ c ∈ openings

/-- What was read between `s` and `m` is completed to `t`. -/
inductive Completes : (s m t : List Char) → Prop
  | whole (t m : List Char) : Completes (t ++ m) m t
  | cut (p : List Char) {q : List Char} (k : Nat) : Dangling q →
      Completes (p ++ q) [] (p ++ List.replicate k ')')

section

variable {s t u m m' q : List Char} {c : Char}

theorem dangling_nil : Dangling [] := nofun

theorem dangling_cons :
    Dangling (c :: s) ↔ (Text.isBlank c = true ∨ c ∈ openings) ∧ Dangling s :=
  List.forall_mem_cons

theorem dangling_append : Dangling (s ++ t) ↔ Dangling s ∧ Dangling t := List.forall_mem_append

theorem dangling_of_blank (h : Blank s) : Dangling s := fun c hc => .inl (h c hc)

theorem dangling_comparison (op : CompareOp) : Dangling op.symbol.toList := by
  have hmem : ∀ c ∈ op.symbol.toList, c ∈ openings := by
    cases op <;> simp [CompareOp.symbol, openings]
  exact fun c hc => .inr (hmem c hc)

theorem dangling_of_pluses (h : Pluses s) : Dangling s := by
  induction h with
  | nil => exact dangling_nil
  | cons hb hs ih =>
    exact dangling_cons.2 ⟨.inr (by decide), dangling_append.2 ⟨dangling_of_blank hb, ih⟩⟩

namespace Completes

theorem prepend (u : List Char) (h : Completes s m t) : Completes (u ++ s) m (u ++ t) := by
  cases h with
  | whole t m =>
    rw [← List.append_assoc]
    exact .whole _ _
  | cut p k hq =>
    rw [← List.append_assoc, ← List.append_assoc]
    exact .cut _ k hq

/-- Where the source goes on, nothing is left out. -/
theorem eq_append (h : Completes s m t) (hm : m ≠ []) : s = t ++ m := by
  cases h with
  | whole t m => rfl
  | cut => exact absurd rfl hm

theorem trans (h : Completes s m t) (hm : m ≠ []) (h' : Completes m m' u) :
    Completes s m' (t ++ u) := by
  rw [h.eq_append hm]
  exact h'.prepend t

/-- What dangles at the end is dropped. -/
theorem drop (h : Completes s m t) (hm : Dangling m) : Completes s [] t := by
  cases h with
  | whole t m =>
    have hcut := Completes.cut t 0 hm
    rwa [List.replicate_zero, List.append_nil] at hcut
  | cut p k hq => exact .cut p k hq

/-- The end of the source stands for a closing parenthesis. -/
theorem close (h : Completes s [] t) : Completes s [] (t ++ [')']) := by
  cases h with
  | whole => exact .cut t 1 dangling_nil
  | cut p k hq =>
    rw [List.append_assoc, ← List.replicate_succ']
    exact .cut p (k + 1) hq

/-- No operand has been read where plus signs are all that is left. -/
theorem dangling (h : Completes s [] t) (ht : Pluses t) : Dangling s := by
  have hall := dangling_of_pluses ht
  cases h with
  | whole => exact dangling_append.2 ⟨hall, dangling_nil⟩
  | cut p k hq => exact dangling_append.2 ⟨(dangling_append.1 hall).1, hq⟩

theorem head?_ne (h : Completes s m t) (hc : c ≠ ')') (hs : s.head? ≠ some c) :
    t.head? ≠ some c := by
  cases h with
  | whole t m =>
    cases t with
    | nil => exact nofun
    | cons d t => exact hs
  | cut p k hq =>
    cases p with
    | cons d p => exact hs
    | nil =>
      cases k with
      | zero => exact nofun
      | succ k =>
        rintro ⟨⟩
        exact hc rfl

theorem exists_part (h : Completes s [] t) :
    ∃ p q k, s = p ++ q ∧ Dangling q ∧ t = p ++ List.replicate k ')' := by
  cases h with
  | whole => exact ⟨t, [], 0, rfl, dangling_nil, (List.append_nil t).symm⟩
  | cut p k hq => exact ⟨p, _, k, rfl, hq, rfl⟩

end Completes

end

/-! ## What a parser gives -/

/-- What the parser gives in front of `m`, if it gives anything, and what it leaves. -/
def Yields {α : Type} (p : Parser α) (m : List Char) (P : α → List Char → Prop) : Prop :=
  ∀ position kept a s, p ⟨⟨m, position⟩, kept⟩ = .ok a s → P a s.cursor.rest

section

variable {α β : Type} {p : Parser α} {f : α → Parser β} {m : List Char} {a : α} {c : Char}
  {P : α → List Char → Prop} {Q : β → List Char → Prop}

theorem yields_pure (h : P a m) : Yields (pure a) m P := by
  intro position kept b s hs
  cases hs
  exact h

theorem Yields.mono {P' : α → List Char → Prop} (h : Yields p m P)
    (hP : ∀ a m', P a m' → P' a m') : Yields p m P' :=
  fun position kept a s hs => hP a _ (h position kept a s hs)

theorem yields_fault {cause : Nat → SyntaxError} : Yields (fault cause : Parser α) m P :=
  fun _ _ _ _ hs => nomatch hs

theorem Yields.bind (hp : Yields p m P) (hf : ∀ a m', P a m' → Yields (f a) m' Q) :
    Yields (p >>= f) m Q := by
  intro position kept b s hs
  change EStateM.bind p f _ = _ at hs
  rw [EStateM.bind] at hs
  split at hs
  · rename_i a t hat
    obtain ⟨⟨m', position'⟩, kept'⟩ := t
    exact hf a m' (hp position kept a _ hat) position' kept' b s hs
  · cases hs

theorem Yields.peek {f : Option Char → Parser β} (h : Yields (f m.head?) m Q) :
    Yields (Parser.peek >>= f) m Q := by
  intro position kept b s hs
  change f m[0]? _ = _ at hs
  rw [← List.head?_eq_getElem?] at hs
  exact h position kept b s hs

/-! ## Tokens -/

theorem exists_blank_skipBlanks (c : Cursor) : ∃ b, Blank b ∧ c.rest = b ++ c.skipBlanks.rest := by
  refine ⟨c.rest.takeWhile Text.isBlank, fun x hx => List.all_eq_true.1 List.all_takeWhile x hx, ?_⟩
  rw [Cursor.rest_skipBlanks, List.takeWhile_append_dropWhile]

theorem yields_skipBlanks :
    Yields (move Cursor.skipBlanks) m fun _ m' => ∃ b, Blank b ∧ m = b ++ m' := by
  intro position kept a s hs
  cases hs
  exact exists_blank_skipBlanks ⟨m, position⟩

theorem yields_shift : Yields shift (c :: m) fun _ m' => ∃ b, Blank b ∧ m = b ++ m' := by
  intro position kept a s hs
  cases hs
  exact exists_blank_skipBlanks ⟨m, position + 1⟩

/-- A lexeme of the source and the blanks behind it were read, and `R` says what the lexeme stands
for. -/
def Lexed {α : Type} (R : α → List Char → Prop) (m : List Char) (a : α) (m' : List Char) : Prop :=
  ∃ s b, R a s ∧ Blank b ∧ m = s ++ (b ++ m')

theorem yields_lexeme {read : Reader α} {R : α → List Char → Prop}
    (h : ∀ position a c, read ⟨m, position⟩ = (.ok a, c) → ∃ s, m = s ++ c.rest ∧ R a s) :
    Yields (lexeme read) m (Lexed R m) := by
  intro position kept a s hs
  unfold lexeme at hs
  split at hs
  · rename_i c hread
    cases hs
    obtain ⟨s, hm, hs⟩ := h position a c hread
    obtain ⟨b, hb, hrest⟩ := exists_blank_skipBlanks c
    exact ⟨s, b, hs, hb, by rw [← hrest]; exact hm⟩
  · cases hs

/-- What is known of the result alone is known of it here. -/
theorem Yields.and {P' : α → Prop} (h : Yields p m P) (h' : Emits p P') :
    Yields p m fun a m' => P' a ∧ P a m' :=
  fun position kept a s hs => ⟨h' _ a s hs, h position kept a s hs⟩

theorem yields_missingOperand {P : Option Expr → List Char → Prop} {e? : Option Expr}
    (h : m = [] → P e? []) : Yields (missingOperand e?) m P := by
  refine Yields.peek ?_
  cases m with
  | cons c m => exact yields_fault
  | nil =>
    intro position kept a s hs
    cases hs
    exact h rfl

/-- Behind a closing parenthesis, or at the end that stands for one. -/
theorem yields_closing {s t : List Char} {otherwise : Char → Nat → SyntaxError}
    (h : Completes s m t) :
    Yields (closing otherwise) m fun _ m' => ∃ b, Blank b ∧ Completes s m' (t ++ ')' :: b) := by
  refine Yields.peek ?_
  split
  · rename_i hc
    obtain ⟨m, rfl⟩ := List.head?_eq_some_iff.1 hc
    intro position kept a s hs
    obtain ⟨b, hb, rfl⟩ := yields_shift position kept a s hs
    exact ⟨b, hb, h.trans nofun (.whole (')' :: b) _)⟩
  · exact yields_fault
  · rename_i hc
    obtain rfl := List.head?_eq_none_iff.1 hc
    exact yields_pure ⟨[], blank_nil, h.close⟩

theorem yields_readNumber : Yields (lexeme Cursor.readNumber) m (Lexed (fun x s =>
    (∀ c ∈ s, Text.isNumeral c = true) ∧ Binary64.ofNumeral? s = some x) m) := by
  refine yields_lexeme fun position x c h => ?_
  simp only [Cursor.readNumber] at h
  split at h
  · rename_i y hy
    cases h
    refine ⟨m.takeWhile Text.isNumeral, ?_, fun x hx => List.all_eq_true.1 List.all_takeWhile x hx,
      hy⟩
    rw [Cursor.rest_skip_run, List.takeWhile_append_dropWhile]
  · cases h

theorem yields_readText : Yields (lexeme Cursor.readText) (c :: m) (Lexed (fun t s =>
    s = c :: (Text.encode t.toList ++ ['"'])) (c :: m)) := by
  refine yields_lexeme fun position t c' h => ?_
  simp only [Cursor.readText] at h
  split at h
  · rename_i t' rest hd
    cases h
    refine ⟨_, ?_, rfl⟩
    rw [String.toList_ofList, List.cons_append, List.append_assoc]
    exact congrArg (c :: ·) (Text.eq_encode_of_decode hd)
  · cases h

theorem yields_readName : Yields (lexeme Cursor.readName) m fun name m' =>
    Text.IsName name.toList ∧ Lexed (fun name s => s = name.toList) m name m' := by
  refine Yields.and (yields_lexeme fun position name c h => ?_) emits_readName
  unfold Cursor.readName at h
  split at h
  · cases h
    refine ⟨_, ?_, (String.toList_ofList).symm⟩
    rw [Cursor.rest_skip_run]
    exact List.takeWhile_append_dropWhile.symm
  · cases h

theorem yields_readFormulaName : Yields (lexeme Cursor.readFormulaName) m fun name m' =>
    Text.IsFormulaName name.toList ∧ Lexed (fun name s => s = name.toList) m name m' := by
  refine Yields.and (yields_lexeme fun position name c h => ?_) emits_readFormulaName
  simp only [Cursor.readFormulaName] at h
  split at h
  · cases h
  · cases h
    refine ⟨_, ?_, (String.toList_ofList).symm⟩
    rw [Cursor.rest_skip_run]
    exact List.takeWhile_append_dropWhile.symm

/-- A comparison that a further equals sign would make longer has none behind it. -/
theorem readComparison_some {c d : Cursor} {op : CompareOp} (h : c.readComparison = (some op, d)) :
    c.rest = op.symbol.toList ++ d.rest ∧ (Extensible op → d.rest.head? ≠ some '=') := by
  obtain ⟨rest, position⟩ := c
  unfold Cursor.readComparison at h
  split at h <;> cases h
  case h_3 =>
    rename_i s hle hne hrest
    obtain rfl : rest = _ := hrest
    refine ⟨rfl, fun _ heq => ?_⟩
    obtain ⟨s', rfl⟩ := List.head?_eq_some_iff.1 heq
    exact hle _ rfl
  case h_5 =>
    rename_i s hge hrest
    obtain rfl : rest = _ := hrest
    refine ⟨rfl, fun _ heq => ?_⟩
    obtain ⟨s', rfl⟩ := List.head?_eq_some_iff.1 heq
    exact hge _ rfl
  all_goals
    rename_i hrest
    obtain rfl : rest = _ := hrest
    exact ⟨rfl, False.elim⟩

theorem yields_comparison? : Yields comparison? m fun op? m' =>
    (op? = none → m' = m) ∧
      ∀ op, op? = some op → m = op.symbol.toList ++ m' ∧ (Extensible op → m'.head? ≠ some '=') := by
  intro position kept op? s hs
  cases hs
  refine ⟨fun hnone => ?_, fun op hsome => ?_⟩
  · exact congrArg Cursor.rest (Cursor.readComparison_none (c := ⟨m, position⟩) (Prod.ext hnone rfl))
  · exact readComparison_some (c := ⟨m, position⟩) (Prod.ext hsome rfl)

end

/-! ## Operands -/

/-- The text stands for the tree at this level, or, where there is none, is plus signs alone. -/
def StandsFor (n : Nat) (t : List Char) : Option Expr → Prop
  | some e => Derives n t e
  | none => Pluses t

/-- What was read between `s` and `m` is completed to a text for the tree. -/
def Accounts (n : Nat) (s : List Char) (e? : Option Expr) (m : List Char) : Prop :=
  ∃ t, Completes s m t ∧ StandsFor n t e?

/-- All that the parser reads is accounted for. -/
def Accountable (n : Nat) (p : Parser (Option Expr)) : Prop := ∀ m, Yields p m (Accounts n m)

section

variable {n k budget : Nat} {s t m lead : List Char} {c : Char} {e : Expr}
  {nested side : Parser (Option Expr)}

theorem accounts_whole (h : Derives n t e) : Accounts n (t ++ m) (some e) m := ⟨t, .whole t m, h⟩

theorem accounts_unread : Accounts n m none m := ⟨[], .whole [] m, .nil⟩

theorem accounts_dangling (h : Dangling s) : Accounts n s none [] :=
  ⟨[], (Completes.whole [] s).drop h, .nil⟩

theorem Accounts.dangling (h : Accounts n s none []) : Dangling s := by
  obtain ⟨t, hs, ht⟩ := h
  exact hs.dangling ht

theorem dangling_token {b : List Char} (hc : c ∈ openings) (hb : Blank b) (hs : Dangling s) :
    Dangling (c :: (b ++ s)) :=
  dangling_cons.2 ⟨.inr hc, dangling_append.2 ⟨dangling_of_blank hb, hs⟩⟩

/-- A sign or a bracket is dropped with what was read behind it. -/
theorem yields_nothing {b : List Char} (hc : c ∈ openings) (hb : Blank b)
    (h : Accounts k s none m) :
    Yields (missingOperand none) m (Accounts n (c :: (b ++ s))) := by
  refine yields_missingOperand fun hend => accounts_dangling ?_
  subst hend
  exact dangling_token hc hb h.dangling

theorem yields_bracket (hnested : Accountable 0 nested) :
    Yields (bracket nested) ('(' :: m) (Accounts 4 ('(' :: m)) := by
  refine yields_shift.bind fun _ m₁ ⟨b, hb, hm⟩ => (hnested m₁).bind fun e? m₂ h => ?_
  subst hm
  cases e? with
  | none => exact yields_nothing (by decide) hb h
  | some e =>
    obtain ⟨t, hs, ht⟩ := h
    refine (yields_closing hs).bind fun _ m₃ ⟨b', hb', hclosed⟩ => yields_pure ?_
    exact ⟨_, hclosed.prepend ('(' :: b), .bracket hb ht hb'⟩

/-! ## Calls -/

/-- What the grammar asks of an argument. -/
structure ArgumentStands (a : Argument) : Prop where
  lead : Blank a.lead
  content : StandsFor 0 a.content a.tree?

/-- The arguments in front of another one, each with the semicolon behind it. -/
def argumentsFront (as : List Argument) : List Char := as.flatMap fun a => a.text ++ [';']

theorem argumentsText_append (as : List Argument) (a : Argument) :
    argumentsText (as ++ [a]) = argumentsFront as ++ a.text := by
  induction as with
  | nil => rfl
  | cons a' as ih =>
    rw [argumentsFront, List.flatMap_cons, List.append_assoc, List.append_assoc]
    show _ = a'.text ++ ';' :: (argumentsFront as ++ a.text)
    rw [← ih]
    cases as <;> rfl

/-- What was read of a call behind its opening parenthesis is completed to the texts of the
arguments. -/
def AccountsArguments (s : List Char) (es : List Expr) (m : List Char) : Prop :=
  ∃ as, as ≠ [] ∧ (∀ a ∈ as, ArgumentStands a) ∧ es = as.filterMap Argument.tree? ∧
    Completes s m (argumentsText as)

theorem accountsArguments_append {front : List Argument} {last : Argument} {es : List Expr}
    (hfront : ∀ a ∈ front, ArgumentStands a) (hlast : ArgumentStands last)
    (hes : es = (front ++ [last]).filterMap Argument.tree?) (h : Completes s m last.text) :
    AccountsArguments (argumentsFront front ++ s) es m := by
  refine ⟨front ++ [last], by simp, ?_, hes, ?_⟩
  · exact List.forall_mem_append.2 ⟨hfront, List.forall_mem_singleton.2 hlast⟩
  · rw [argumentsText_append]
    exact h.prepend (argumentsFront front)

/-- The loop over arguments is in front of one of them, with those in `front` behind it. -/
theorem yields_arguments (hnested : Accountable 0 nested) {front : List Argument}
    {read : List Expr} (hfront : ∀ a ∈ front, ArgumentStands a)
    (hread : read.reverse = front.filterMap Argument.tree?) (hlead : Blank lead) :
    Yields (arguments nested budget read) m
      (AccountsArguments (argumentsFront front ++ (lead ++ m))) := by
  induction budget generalizing front read lead m with
  | zero =>
    have hlast : ArgumentStands ⟨lead, [], none⟩ := ⟨hlead, .nil⟩
    have hunread : Completes (lead ++ m) m (lead ++ []) := (Completes.whole [] m).prepend lead
    refine yields_pure (accountsArguments_append hfront hlast ?_ hunread)
    rw [hread, List.filterMap_append]
    exact (List.append_nil _).symm
  | succ budget ih =>
    refine (hnested m).bind fun e? m₁ ⟨t, h, ht⟩ => Yields.peek ?_
    let last : Argument := ⟨lead, t, e?⟩
    have hlast : ArgumentStands last := ⟨hlead, ht⟩
    have hread' : (e?.toList ++ read).reverse = (front ++ [last]).filterMap Argument.tree? := by
      rw [List.reverse_append, hread, List.filterMap_append]
      cases e? <;> rfl
    split
    · rename_i hc
      obtain ⟨m₁, rfl⟩ := List.head?_eq_some_iff.1 hc
      refine yields_shift.bind fun _ m₂ ⟨b, hb, hm⟩ => ?_
      subst hm
      -- a semicolon follows, so the argument is whole and stands in front of the next one
      have htext : argumentsFront front ++ (lead ++ m) =
          argumentsFront (front ++ [last]) ++ (b ++ m₂) := by
        rw [h.eq_append nofun]
        simp [argumentsFront, Argument.text, last]
      rw [htext]
      refine ih ?_ hread' hb
      exact List.forall_mem_append.2 ⟨hfront, List.forall_mem_singleton.2 hlast⟩
    · exact yields_pure (accountsArguments_append hfront hlast hread' (h.prepend lead))

theorem accountable_named (hnested : Accountable 0 nested) :
    Accountable 4 (named nested budget) := by
  intro m
  refine yields_readName.bind fun name m₁ ⟨hname, s, b, hs, hb, hm⟩ => Yields.peek ?_
  subst hs hm
  split
  · rename_i hc
    obtain ⟨m₁, rfl⟩ := List.head?_eq_some_iff.1 hc
    refine yields_shift.bind fun _ m₂ ⟨lead, hlead, hm⟩ => ?_
    subst hm
    have hfront : ∀ a ∈ ([] : List Argument), ArgumentStands a := nofun
    have harguments : Yields (arguments nested budget []) m₂ (AccountsArguments (lead ++ m₂)) :=
      yields_arguments hnested hfront rfl hlead
    refine harguments.bind fun es m₃ ⟨as, has, hstands, hes, hcompletes⟩ => ?_
    refine (yields_closing hcompletes).bind fun _ m₄ ⟨b', hb', hclosed⟩ => yields_pure ?_
    subst hes
    refine ⟨_, (hclosed.prepend ['(']).prepend b |>.prepend name.toList, ?_⟩
    refine .call hname hb has (fun a ha => (hstands a ha).lead) ?_ ?_ hb'
    · intro a ha hnone
      have h := (hstands a ha).content
      rwa [hnone] at h
    · intro a ha e hsome
      have h := (hstands a ha).content
      rwa [hsome] at h
  · refine yields_pure ?_
    rw [← List.append_assoc]
    exact accounts_whole (.var hname hb)

theorem yields_reference : Yields reference ('=' :: m) (Accounts 4 ('=' :: m)) := by
  refine yields_shift.bind fun _ m₁ ⟨b, hb, hm⟩ => ?_
  subst hm
  refine yields_readFormulaName.bind fun name m₂ ⟨hname, s, b', hs, hb', hm⟩ => yields_pure ?_
  subst hs hm
  have h : Accounts 4 _ _ m₂ := accounts_whole (.reference hb hname hb')
  simpa only [List.cons_append, List.append_assoc] using h

theorem accountable_operand (hnested : Accountable 0 nested) :
    Accountable 4 (operand nested budget) := by
  intro m
  refine Yields.peek ?_
  cases m with
  | nil => exact yields_pure accounts_unread
  | cons c m =>
    show Yields (if c = '(' then _ else if c = '"' then _ else if Text.isNumeral c then _ else
      if c.isAlpha then _ else if c = '=' then _ else _) _ _
    split_ifs with hopen hquote hnumeral halpha hequals
    · subst hopen
      exact yields_bracket hnested
    · subst hquote
      refine yields_readText.bind fun t m₁ ⟨s, b, hs, hb, hm⟩ => yields_pure ?_
      rw [hm, hs]
      have h : Accounts 4 _ _ m₁ := accounts_whole (.text (t := t) hb)
      simpa only [List.cons_append, List.append_assoc, List.nil_append] using h
    · refine yields_readNumber.bind fun x m₁ ⟨s, b, ⟨hs, hx⟩, hb, hm⟩ => yields_pure ?_
      rw [hm, ← List.append_assoc]
      exact accounts_whole (.number hs hx hb)
    · exact accountable_named hnested _
    · subst hequals
      exact yields_reference
    · exact yields_pure accounts_unread

/-! ## Operators -/

theorem accountable_signed (hside : Accountable 4 side) :
    Accountable 4 (signed side budget) := by
  induction budget with
  | zero => exact fun m => yields_pure accounts_unread
  | succ budget ih =>
    refine fun m => Yields.peek ?_
    split
    · rename_i hc
      obtain ⟨m, rfl⟩ := List.head?_eq_some_iff.1 hc
      refine yields_shift.bind fun _ m₁ ⟨b, hb, hm⟩ => (ih m₁).bind fun e? m₂ h => ?_
      subst hm
      cases e? with
      | none => exact yields_nothing (by decide) hb h
      | some e =>
        obtain ⟨t, hs, ht⟩ := h
        exact yields_pure ⟨_, hs.prepend ('-' :: b), .minus hb ht⟩
    · rename_i hc
      obtain ⟨m, rfl⟩ := List.head?_eq_some_iff.1 hc
      refine yields_shift.bind fun _ m₁ ⟨b, hb, hm⟩ => (ih m₁).mono fun e? m₂ ⟨t, h, ht⟩ => ?_
      subst hm
      refine ⟨_, h.prepend ('+' :: b), ?_⟩
      cases e? with
      | none => exact .cons hb ht
      | some e => exact .plus hb ht
    · exact hside m

theorem operatorOf_eq_some {op : ArithOp} (h : operatorOf k c = some op) :
    c = op.symbol ∧ op.strength = k := by
  obtain ⟨hop, hk⟩ := Option.filter_eq_some_iff.1 h
  exact ⟨(by simpa using List.find?_some hop : op.symbol = c).symm, by simpa using hk⟩

/-- In the loop of a chain, what was read since `s` is completed to a text for the tree on its
left. -/
theorem yields_chain (hside : Accountable (k + 1) side)
    (h : Completes s m t) (ht : Derives k t e) :
    Yields (chain k side budget e) m (Accounts k s) := by
  induction budget generalizing m t e with
  | zero => exact yields_pure ⟨t, h, ht⟩
  | succ budget ih =>
    refine Yields.peek ?_
    split
    · exact yields_pure ⟨t, h, ht⟩
    · rename_i op hop
      obtain ⟨c, hc, hop⟩ := Option.bind_eq_some_iff.1 hop
      obtain ⟨rfl, rfl⟩ := operatorOf_eq_some hop
      obtain ⟨m, rfl⟩ := List.head?_eq_some_iff.1 hc
      refine yields_shift.bind fun _ m₁ hm₁ => (hside m₁).bind fun r? m₂ h' => ?_
      obtain ⟨b, hb, rfl⟩ := hm₁
      cases r? with
      | none =>
        -- the operator is dropped with all that was read behind it
        refine yields_missingOperand fun hend => ⟨t, h.drop ?_, ht⟩
        subst hend
        refine dangling_token ?_ hb h'.dangling
        cases op <;> decide
      | some r =>
        obtain ⟨u, hu, hr⟩ := h'
        exact ih (h.trans (List.cons_ne_nil _ _) (hu.prepend (op.symbol :: b))) (.arith ht hb hr)

theorem accountable_operation (hk : k < 4) (hside : Accountable (k + 1) side) :
    Accountable k (operation k side budget) := by
  intro m
  refine (hside m).bind fun e? m₁ ⟨t, h, ht⟩ => ?_
  cases e? with
  | none => exact yields_pure ⟨t, h, ht⟩
  | some e => exact yields_chain hside h (.loosen hk ht)

theorem accountable_comparison (hside : Accountable 1 side) :
    Accountable 0 (comparison side) := by
  intro m
  refine (hside m).bind fun l? m₁ ⟨t, h, ht⟩ => ?_
  cases l? with
  | none => exact yields_pure ⟨t, h, ht⟩
  | some l =>
    refine yields_comparison?.bind fun op? m₂ ⟨hnone, hsome⟩ => ?_
    cases op? with
    | none =>
      obtain rfl := hnone rfl
      exact yields_pure ⟨t, h, .loosen (by decide) ht⟩
    | some op =>
      obtain ⟨rfl, hop⟩ := hsome op rfl
      refine yields_skipBlanks.bind fun _ m₃ ⟨b, hb, hm⟩ => (hside m₃).bind fun r? m₄ h' => ?_
      subst hm
      cases r? with
      | none =>
        refine yields_missingOperand fun hend => ⟨t, h.drop ?_, .loosen (by decide) ht⟩
        subst hend
        exact dangling_append.2
          ⟨dangling_comparison op, dangling_append.2 ⟨dangling_of_blank hb, h'.dangling⟩⟩
      | some r =>
        obtain ⟨u, hu, hr⟩ := h'
        refine yields_pure ⟨_, h.trans ?_ ((hu.prepend b).prepend op.symbol.toList), ?_⟩
        · cases op <;> nofun
        · refine .compare ht hb hr fun hext hnil => ?_
          subst hnil
          exact hu.head?_ne (by decide) (hop hext)

theorem accountable_expression (budget : Nat) : Accountable 0 (expression budget) := by
  induction budget with
  | zero => exact fun m => yields_pure accounts_unread
  | succ budget ih =>
    have hsigned : Accountable 4 (signedOperand budget (budget + 1)) :=
      accountable_signed (accountable_operand ih)
    have hpower : Accountable 3 (level budget 3) := accountable_operation (by decide) hsigned
    have hproduct : Accountable 2 (level budget 2) := accountable_operation (by decide) hpower
    exact accountable_comparison (accountable_operation (by decide) hproduct)

end

/-! ## Formulas -/

section

variable {budget : Nat} {m : List Char} {source : String} {e t : Expr}

theorem yields_marker : Yields marker m fun _ m' => ∃ u, m = u ++ m' ∧
    ((∃ lead b, Blank lead ∧ Blank b ∧ u = lead ++ '=' :: b) ∨
      Blank u ∧ m'.head? ≠ some '=') := by
  refine yields_skipBlanks.bind fun _ m₁ ⟨lead, hlead, hm⟩ => Yields.peek ?_
  subst hm
  split
  · rename_i hc
    obtain ⟨m₁, rfl⟩ := List.head?_eq_some_iff.1 hc
    refine yields_shift.mono fun _ m₂ ⟨b, hb, hm⟩ => ?_
    subst hm
    exact ⟨lead ++ '=' :: b, by simp, .inl ⟨lead, b, hlead, hb, rfl⟩⟩
  · rename_i hne
    exact yields_pure ⟨lead, rfl, .inr ⟨hlead, hne⟩⟩

theorem yields_formula : Yields (formula budget) m fun e m' =>
    m' = [] ∧ ∃ t, Completes m [] t ∧ DerivesFormula t e := by
  refine yields_marker.bind fun _ m₁ ⟨u, hm, hu⟩ => ?_
  subst hm
  refine (accountable_expression budget m₁).bind fun e? m₂ ⟨t, h, ht⟩ => Yields.peek ?_
  split
  · exact yields_fault
  · rename_i hend _
    obtain rfl := List.head?_eq_none_iff.1 hend
    refine yields_pure ⟨rfl, u ++ t, h.prepend u, ?_⟩
    rcases hu with ⟨lead, b, hlead, hb, rfl⟩ | ⟨hlead, hne⟩
    · exact .marked hlead hb ht
    · exact .unmarked hlead ht (h.head?_ne (by decide) hne)
  · exact fun _ _ _ _ hs => nomatch hs

theorem regroup_of_derivesFormula {s : List Char} (h : DerivesFormula s e) : e.regroup = e := by
  cases h with
  | marked _ _ hs => exact regroup_of_derives hs
  | unmarked _ hs _ => exact regroup_of_derives hs

/-- What is left of an accepted source without its dangling end is derived, with its brackets
closed. -/
theorem derivesFormula_of_parse (h : Expr.parse source = .ok t) : ∃ p q k,
    source.toList = p ++ q ∧ Dangling q ∧ DerivesFormula (p ++ List.replicate k ')') t := by
  obtain ⟨e, s, he, rfl⟩ := Expr.parse_eq_ok_iff.1 h
  obtain ⟨hend, u, hu, hformula⟩ := yields_formula 0 [] e s he
  obtain ⟨p, q, k, hsource, hq, rfl⟩ := hu.exists_part
  rw [regroup_of_derivesFormula hformula]
  exact ⟨p, q, k, hsource, hq, hformula⟩

/-- **A source that ends too early stands for its longest complete part**: with the brackets of this
part closed it is read as the same tree, and nothing is reported. -/
theorem parse_of_complete_part (h : Expr.parse source = .ok t) : ∃ p q k,
    source.toList = p ++ q ∧ Dangling q ∧
      Expr.parse (String.ofList (p ++ List.replicate k ')')) = .ok t ∧
      (Reading.ofSource (String.ofList (p ++ List.replicate k ')'))).log
        (String.ofList (p ++ List.replicate k ')')) = [] := by
  obtain ⟨p, q, k, hsource, hq, hformula⟩ := derivesFormula_of_parse h
  have hread := ofSource_of_derivesFormula hformula
  refine ⟨p, q, k, hsource, hq, ?_, ?_⟩
  · unfold Expr.parse
    rw [hread]
  · rw [hread]
    rfl

/-- A bracket and a call are open, and a factor with its sign is missing. -/
theorem parse_factor_missing :
    Expr.parse "=(a+f(b*-" = .ok (.bracket (.arith (.var "a") .add (.call "f" [.var "b"]))) ∧
      ∃ p q k, "=(a+f(b*-".toList = p ++ q ∧ Dangling q ∧
        Expr.parse (String.ofList (p ++ List.replicate k ')')) =
          .ok (.bracket (.arith (.var "a") .add (.call "f" [.var "b"]))) ∧
        (Reading.ofSource (String.ofList (p ++ List.replicate k ')'))).log
          (String.ofList (p ++ List.replicate k ')')) = [] := by
  have hformula : formula "=(a+f(b*-".length ⟨.start "=(a+f(b*-", []⟩ =
      .ok (.bracket (.arith (.var "a") .add (.call "f" [.var "b"])))
        ⟨⟨[], 9⟩, [some (.var "b"), none]⟩ := by rfl
  have h : Expr.parse "=(a+f(b*-" =
      .ok (.bracket (.arith (.var "a") .add (.call "f" [.var "b"]))) :=
    Expr.parse_eq_ok_iff.2 ⟨_, _, hformula, Expr.regroup_eq_self (by decide)⟩
  exact ⟨h, parse_of_complete_part h⟩

end

end Formulary.Parser
