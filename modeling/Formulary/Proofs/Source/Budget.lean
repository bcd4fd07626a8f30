import Formulary.Proofs.Source.Advance

/-!
# No source exhausts its budget

Expressions within expressions and the loops of the parsers are bounded by a budget. **Any budget that
covers what is left of a source is as good as any other** (`formula_eq_of_budget`): each step deeper
and each turn of a loop takes a character first, and what a parser does without a budget is what it
does at the end of a source (`Rests`).

So two parsers with different budgets are compared in front of few enough characters
(`SameWithin`), and the number of these characters is what the inductions are on
(`sameWithin_of_budget`).
-/

namespace Formulary.Parser

section

variable {α β : Type} {k : Nat} {p p' : Parser α} {f f' : α → Parser β} {s : ParserState}

/-- At the end of a source, the parser gives this and does nothing. -/
def Rests (p : Parser α) (a : α) : Prop := ∀ s, s.cursor.rest = [] → p s = .ok a s

/-- In front of this many characters or fewer, the two parsers do the same. -/
def SameWithin (k : Nat) (p p' : Parser α) : Prop :=
  ∀ s, s.cursor.rest.length ≤ k → p s = p' s

/-- The same where the next character is known to be `c`. -/
def SameWithinAt (k : Nat) (c : Char) (p p' : Parser α) : Prop :=
  ∀ s, s.cursor.peek 0 = some c → s.cursor.rest.length ≤ k → p s = p' s

theorem sameWithin_refl (p : Parser α) : SameWithin k p p := fun _ _ => rfl

theorem SameWithin.mono {m : Nat} (h : SameWithin k p p') (hm : m ≤ k) : SameWithin m p p' :=
  fun s hs => h s (Nat.le_trans hs hm)

theorem SameWithin.at {c : Char} (h : SameWithin k p p') : SameWithinAt k c p p' :=
  fun s _ => h s

theorem SameWithin.bind (h : SameWithin k p p') (hp : Advances p)
    (hf : ∀ a, SameWithin k (f a) (f' a)) : SameWithin k (p >>= f) (p' >>= f') := by
  intro s hs
  have hlands : Lands s.cursor (p s) := hp s
  have hsame := h s hs
  cases hr : p s with
  | ok a t =>
    rw [hr] at hlands hsame
    rw [bind_of_ok hr, bind_of_ok hsame.symm]
    exact hf a t (Nat.le_trans hlands.length_le hs)
  | error e t =>
    rw [hr] at hsame
    rw [bind_of_error hr, bind_of_error hsame.symm]

/-- After a look at the next character, it is known, or the source has come to its end. -/
theorem SameWithin.peek {f f' : Option Char → Parser β}
    (hend : ∀ s, s.cursor.rest = [] → f none s = f' none s)
    (hf : ∀ c, SameWithinAt k c (f (some c)) (f' (some c))) :
    SameWithin k (Parser.peek >>= f) (Parser.peek >>= f') := by
  intro s hs
  show f (s.cursor.peek 0) s = f' (s.cursor.peek 0) s
  cases hc : s.cursor.peek 0 with
  | some c => exact hf c s hc hs
  | none =>
    refine hend s (List.length_eq_zero_iff.1 (Nat.le_zero.1 ?_))
    exact List.getElem?_eq_none_iff.1 hc

/-- Behind a token of one character, fewer characters are left. -/
theorem SameWithin.shift {f f' : Unit → Parser β} {c : Char} (h : SameWithin k (f ()) (f' ())) :
    SameWithinAt (k + 1) c (Parser.shift >>= f) (Parser.shift >>= f') := by
  intro s _ hs
  refine h _ ?_
  have hle := (reaches_skipBlanks s.cursor.advance).length_le
  have hadvance : s.cursor.advance.rest.length = s.cursor.rest.length - 1 := List.length_drop
  show (s.cursor.advance.skipBlanks).rest.length ≤ k
  omega

/-- Parsers with budgets that do the same with one more if they do with what is left, do the same in
front of all sources that the budgets cover. -/
theorem sameWithin_of_budget {ι : Type} {m : Nat} (p p' : Nat → ι → Parser α)
    (hend : ∀ budget budget' i s, s.cursor.rest = [] → p budget i s = p' budget' i s)
    (hstep : ∀ {k budget budget' : Nat}, k < m → k ≤ budget → k ≤ budget' →
      (∀ i, SameWithin k (p budget i) (p' budget' i)) →
      ∀ i, SameWithin (k + 1) (p (budget + 1) i) (p' (budget' + 1) i))
    {budget budget' : Nat} (hm : m ≤ budget) (hm' : m ≤ budget') (i : ι) :
    SameWithin m (p budget i) (p' budget' i) := by
  have hall : ∀ k budget budget', k ≤ m → k ≤ budget → k ≤ budget' →
      ∀ i, SameWithin k (p budget i) (p' budget' i) := by
    intro k
    induction k with
    | zero =>
      intro budget budget' _ _ _ i s hs
      exact hend budget budget' i s (List.length_eq_zero_iff.1 (Nat.le_zero.1 hs))
    | succ k ih =>
      intro budget budget' hk hbudget hbudget'
      cases budget with
      | zero => exact absurd hbudget (Nat.not_succ_le_zero k)
      | succ budget =>
        cases budget' with
        | zero => exact absurd hbudget' (Nat.not_succ_le_zero k)
        | succ budget' =>
          have hless := Nat.le_of_succ_le_succ hbudget
          have hless' := Nat.le_of_succ_le_succ hbudget'
          exact hstep hk hless hless' (ih budget budget' (Nat.le_of_succ_le hk) hless hless')
  exact hall m budget budget' (Nat.le_refl m) hm hm' i

end

/-! ## The end of a source -/

section

variable {n budget : Nat} {nested side : Parser (Option Expr)}

theorem rests_operand : Rests (operand nested budget) none := by
  rintro ⟨⟨rest, position⟩, kept⟩ rfl
  rfl

theorem rests_signed (h : Rests side none) : Rests (signed side budget) none := by
  rintro ⟨⟨rest, position⟩, kept⟩ rfl
  cases budget with
  | zero => rfl
  | succ budget => exact h _ rfl

theorem rests_chain (left : Expr) : Rests (chain n side budget left) (some left) := by
  rintro ⟨⟨rest, position⟩, kept⟩ rfl
  cases budget <;> rfl

theorem Rests.bind_none {f : Option Expr → Parser (Option Expr)} (h : Rests side none)
    (hf : f none = pure none) : Rests (side >>= f) none := by
  intro s hs
  rw [bind_of_ok (h s hs), hf]
  rfl

theorem rests_operation (h : Rests side none) : Rests (operation n side budget) none :=
  h.bind_none rfl

theorem rests_expression : Rests (expression budget) none := by
  cases budget with
  | zero => exact fun _ _ => rfl
  | succ budget =>
    have hsum : Rests (arithmetic (expression budget) (budget + 1)) none :=
      rests_operation (rests_operation (rests_operation (rests_signed rests_operand)))
    exact hsum.bind_none rfl

theorem rests_arguments (h : Rests nested none) (read : List Expr) :
    Rests (arguments nested budget read) read.reverse := by
  rintro ⟨⟨rest, position⟩, kept⟩ rfl
  cases budget with
  | zero => rfl
  | succ budget =>
    rw [arguments, bind_of_ok (h _ rfl)]
    rfl

end

/-! ## Levels -/

section

variable {n k budget budget' : Nat} {nested nested' side side' : Parser (Option Expr)}

variable (h : SameWithin k nested nested') (hadv : Advances nested) (hrests : Rests nested none)
  (hrests' : Rests nested' none) (hk : k ≤ budget) (hk' : k ≤ budget')

include h hadv

theorem sameWithin_bracket {c : Char} :
    SameWithinAt (k + 1) c (bracket nested) (bracket nested') :=
  SameWithin.shift (h.bind hadv fun _ => sameWithin_refl _)

include hk hk'

theorem sameWithin_chain (left : Expr) :
    SameWithin k (chain n nested budget left) (chain n nested' budget' left) := by
  refine sameWithin_of_budget (chain n nested) (chain n nested') (fun b b' left s hs => ?_)
    (fun hlt _ _ ih left => ?_) hk hk' left
  · rw [rests_chain left s hs, rests_chain left s hs]
  · refine .peek (fun _ _ => rfl) fun c => ?_
    split
    · exact (sameWithin_refl _).at
    · refine SameWithin.shift ((h.mono (Nat.le_of_lt hlt)).bind hadv fun right? => ?_)
      cases right? with
      | none => exact sameWithin_refl _
      | some right => exact ih _

theorem sameWithin_operation :
    SameWithin k (operation n nested budget) (operation n nested' budget') := by
  refine h.bind hadv fun left? => ?_
  cases left? with
  | none => exact sameWithin_refl _
  | some left => exact sameWithin_chain h hadv hk hk' left

include hrests hrests'

theorem sameWithin_arguments (read : List Expr) :
    SameWithin k (arguments nested budget read) (arguments nested' budget' read) := by
  refine sameWithin_of_budget (arguments nested) (arguments nested') (fun b b' read s hs => ?_)
    (fun hlt _ _ ih read => ?_) hk hk' read
  · rw [rests_arguments hrests read s hs, rests_arguments hrests' read s hs]
  · refine (h.mono hlt).bind hadv fun e? => .peek (fun _ _ => rfl) fun c => ?_
    split
    · exact SameWithin.shift (ih _)
    · exact (sameWithin_refl _).at

theorem sameWithin_named :
    SameWithin (k + 1) (named nested budget) (named nested' budget') := by
  refine (sameWithin_refl _).bind advances_readName fun name => .peek (fun _ _ => rfl) fun c => ?_
  split
  · exact SameWithin.shift ((sameWithin_arguments h hadv hrests hrests' hk hk' []).bind
      (advances_arguments hadv []) fun _ => sameWithin_refl _)
  · exact (sameWithin_refl _).at

theorem sameWithin_operand :
    SameWithin (k + 1) (operand nested budget) (operand nested' budget') := by
  refine .peek (fun _ _ => rfl) fun c => ?_
  show SameWithinAt _ c (if c = '(' then _ else if c = '"' then _ else if Text.isNumeral c then _
    else if c.isAlpha then _ else if c = '=' then _ else _) (if c = '(' then _ else if c = '"' then _
    else if Text.isNumeral c then _ else if c.isAlpha then _ else if c = '=' then _ else _)
  split_ifs
  · exact sameWithin_bracket h hadv
  · exact (sameWithin_refl _).at
  · exact (sameWithin_refl _).at
  · exact (sameWithin_named h hadv hrests hrests' hk hk').at
  · exact (sameWithin_refl _).at
  · exact (sameWithin_refl _).at

theorem sameWithin_signed :
    SameWithin k (signed nested budget) (signed nested' budget') := by
  refine sameWithin_of_budget (fun b (_ : Unit) => signed nested b) (fun b _ => signed nested' b)
    (fun b b' _ s hs => ?_) (fun hlt _ _ ih _ => ?_) hk hk' ()
  · rw [rests_signed hrests s hs, rests_signed hrests' s hs]
  · refine .peek (fun s hs => (hrests s hs).trans (hrests' s hs).symm) fun c => ?_
    split
    · exact SameWithin.shift ((ih ()).bind (advances_signed hadv) fun _ => sameWithin_refl _)
    · exact SameWithin.shift (ih ())
    · exact (h.mono hlt).at

end

section

variable {k budget budget' : Nat} {side side' : Parser (Option Expr)}

theorem sameWithin_comparison (h : SameWithin k side side') (hadv : Advances side) :
    SameWithin k (comparison side) (comparison side') := by
  refine h.bind hadv fun left? => ?_
  cases left? with
  | none => exact sameWithin_refl _
  | some left =>
    refine (sameWithin_refl _).bind advances_comparison? fun op? => ?_
    cases op? with
    | none => exact sameWithin_refl _
    | some op =>
      refine (sameWithin_refl _).bind (advances_move reaches_skipBlanks) fun _ => ?_
      exact h.bind hadv fun _ => sameWithin_refl _

theorem sameWithin_expression (hk : k ≤ budget) (hk' : k ≤ budget') :
    SameWithin k (expression budget) (expression budget') := by
  refine sameWithin_of_budget (fun b (_ : Unit) => expression b) (fun b _ => expression b)
    (fun b b' _ s hs => ?_) (fun {k b b'} _ hb hb' ih _ => ?_) hk hk' ()
  · rw [rests_expression s hs, rests_expression s hs]
  · have hk := Nat.succ_le_succ hb
    have hk' := Nat.succ_le_succ hb'
    have hadv : Advances (operand (expression b) (b + 1)) :=
      advances_operand (advances_expression b)
    have hoperand := sameWithin_operand (ih ()) (advances_expression b) rests_expression
      rests_expression (Nat.le_succ_of_le hb) (Nat.le_succ_of_le hb')
    have hsigned := sameWithin_signed hoperand hadv rests_operand rests_operand hk hk'
    have hpower := sameWithin_operation (n := 3) hsigned (advances_signed hadv) hk hk'
    have hproduct := sameWithin_operation (n := 2) hpower
      (advances_operation (advances_signed hadv)) hk hk'
    have hsum := sameWithin_operation (n := 1) hproduct
      (advances_operation (advances_operation (advances_signed hadv))) hk hk'
    exact sameWithin_comparison hsum
      (advances_operation (advances_operation (advances_operation (advances_signed hadv))))

/-- **Any budget that covers what is left of a source is as good as any other.** -/
theorem formula_eq_of_budget {s : ParserState} (hk : s.cursor.rest.length ≤ budget)
    (hk' : s.cursor.rest.length ≤ budget') : formula budget s = formula budget' s := by
  have hsame : SameWithin s.cursor.rest.length (formula budget) (formula budget') :=
    (sameWithin_refl _).bind advances_marker fun _ =>
      (sameWithin_expression hk hk').bind (advances_expression budget) fun _ => sameWithin_refl _
  exact hsame s (Nat.le_refl _)

end

end Formulary.Parser
