import Formulary.Proofs.Source.Lookahead

/-!
# Where a source goes wrong

**A syntax error is reported at the first character that does not fit, and depends on nothing behind
it** (`parse_eq_error_of_misplaced`): every source that agrees up to and with this character is
rejected for the same cause, and the source that ends in front of it is no fault, or holds no operand.

Both halves are one statement about a `Fork` at this character. Each parser of the grammar, with a
budget for the one source, is followed by itself with a budget for the other (`follows_formula`):
the tolerance for the end of a source is granted at the very places where another character is an
error.
-/

namespace Formulary.Parser

section

variable {F : Fork} {k k' n budget budget' : Nat}
  {nested nested' side side' : Parser (Option Expr)} {c : Char}

/-! ## Faults -/

/-- A character at fault is at fault in both sources. -/
theorem followsAt_fault {α : Type} {cause : Nat → SyntaxError}
    (h : ∀ d : Cursor, d.peek 0 = some c → (cause d.position).FoundAt d) :
    FollowsAt F k k' c (fault cause : Parser α) (fault cause) := by
  refine ⟨fun s hc => advancesAt_fault (h _ hc), fun x position kept kept' _ hc' _ _ => ?_⟩
  refine .fails fun hnil => ?_
  rw [hnil] at hc'
  exact absurd hc' nofun

theorem follows_missingOperand (e? : Option Expr) :
    Follows F k k' (missingOperand e?) (missingOperand e?) := by
  have hend : Follows F k k'
      (modifyGet fun s : ParserState => (e?, { s with kept := e? :: s.kept }))
      (modifyGet fun s : ParserState => (e?, { s with kept := e? :: s.kept })) :=
    .of_lockstep (fun s => .refl s.cursor) (fun _ _ => rfl) fun x _ _ _ => .same (Nat.le_refl _)
  exact .peek hend fun c => followsAt_fault fun d hd => ⟨rfl, hd⟩

theorem follows_closing {otherwise : Char → Nat → SyntaxError}
    (h : ∀ x (d : Cursor), d.peek 0 = some x → (otherwise x d.position).FoundAt d) :
    Follows F k k' (closing otherwise) (closing otherwise) := by
  refine .peek (follows_pure ()) fun c => ?_
  split
  · exact followsAt_shift
  · rename_i hc
    cases hc
    exact followsAt_fault fun d hd => h _ d hd
  · exact (follows_pure ()).at

/-! ## Levels -/

theorem followsAt_bracket (h : Follows F k k' nested nested') :
    FollowsAt F (k + 1) (k' + 1) c (bracket nested) (bracket nested') := by
  refine Follows.shift (h.bind fun e? => ?_)
  cases e? with
  | none => exact follows_missingOperand none
  | some e =>
    have hclosing : Follows F k k' (closing fun _ => .unclosedBracket)
        (closing fun _ => .unclosedBracket) :=
      follows_closing fun x d hx => ⟨rfl, by rw [hx]; exact nofun⟩
    exact hclosing.bind fun _ => follows_pure _

/-- At the end of a source, no argument is at fault, nor is there a semicolon. -/
theorem quiet_arguments (hquiet : Quiet nested') (read : List Expr) :
    Quiet (arguments nested' budget' read) := by
  cases budget' with
  | zero => exact fun _ _ => rfl
  | succ budget' => exact fun position kept => (hquiet position kept).bind fun e? _ _ => rfl

theorem follows_arguments (h : Follows F k k' nested nested') (hk : k ≤ budget)
    (hk' : k' ≤ budget') (read : List Expr) :
    Follows F k k' (arguments nested budget read) (arguments nested' budget' read) := by
  refine follows_of_budget (arguments nested) (arguments nested')
    (fun _ => advances_arguments h.advances) (fun _ => quiet_arguments h.quiet)
    (fun hlt hlt' _ _ ih read => ?_) hk hk' read
  refine (h.mono hlt hlt').bind fun e? => .peek (follows_pure _) fun c => ?_
  split
  · exact Follows.shift (ih _)
  · exact (follows_pure _).at

theorem followsAt_named (h : Follows F k k' nested nested') (hk : k ≤ budget)
    (hk' : k' ≤ budget') :
    FollowsAt F (k + 1) (k' + 1) c (named nested budget) (named nested' budget') := by
  refine parts_readName.bind (fun s _ => advances_readName s) fun name => ?_
  refine .peek (follows_pure _) fun c => ?_
  split
  · have hclosing : Follows F k k' (closing .unclosedCall) (closing .unclosedCall) :=
      follows_closing fun x d hx => ⟨rfl, hx⟩
    exact Follows.shift ((follows_arguments h hk hk' []).bind fun es =>
      hclosing.bind fun _ => follows_pure _)
  · exact (follows_pure _).at

theorem followsAt_reference : FollowsAt F (k + 1) (k' + 1) c reference reference := by
  -- a reference without its name is a fault at the end of a source, too, so it follows as a lexeme
  refine .shift (advances_readFormulaName.bind fun _ => advances_pure _) ?_
  intro x position kept kept' _ _
  exact (parts_readFormulaName.lockstep x position kept kept').bind (fun _ => advances_pure _)
    fun _ _ _ _ _ hx => .lockstep (.same hx)

theorem follows_operand (h : Follows F k k' nested nested') (hk : k ≤ budget)
    (hk' : k' ≤ budget') :
    Follows F (k + 1) (k' + 1) (operand nested budget) (operand nested' budget') := by
  refine .peek (follows_pure none) fun c => ?_
  show FollowsAt F _ _ c (if c = '(' then _ else if c = '"' then _ else if Text.isNumeral c then _
    else if c.isAlpha then _ else if c = '=' then _ else _) (if c = '(' then _ else if c = '"' then _
    else if Text.isNumeral c then _ else if c.isAlpha then _ else if c = '=' then _ else _)
  split_ifs
  · exact followsAt_bracket h
  · exact parts_readText.bind (fun s hc => advancesAt_readText hc) fun _ => follows_pure _
  · exact parts_readNumber.bind (fun s _ => advances_readNumber s) fun _ => follows_pure _
  · exact followsAt_named h hk hk'
  · exact followsAt_reference
  · exact (follows_pure none).at

theorem quiet_signed (hquiet : Quiet side') : Quiet (signed side' budget') := by
  cases budget' with
  | zero => exact fun _ _ => rfl
  | succ budget' => exact hquiet

theorem follows_signed (h : Follows F k k' side side') (hk : k ≤ budget) (hk' : k' ≤ budget') :
    Follows F k k' (signed side budget) (signed side' budget') := by
  refine follows_of_budget (fun budget (_ : Unit) => signed side budget)
    (fun budget' (_ : Unit) => signed side' budget') (fun _ _ => advances_signed h.advances)
    (fun _ _ => quiet_signed h.quiet) (fun hlt hlt' _ _ ih _ => ?_) hk hk' ()
  have hside := h.mono hlt hlt'
  refine .peek hside fun c => ?_
  split
  · refine Follows.shift ((ih ()).bind fun e? => ?_)
    cases e? with
    | none => exact follows_missingOperand none
    | some e => exact follows_pure _
  · exact Follows.shift (ih ())
  · exact hside.at

theorem quiet_chain (e : Expr) : Quiet (chain n side' budget' e) := by
  cases budget' <;> exact fun _ _ => rfl

theorem follows_chain (h : Follows F k k' side side') (hk : k ≤ budget) (hk' : k' ≤ budget')
    (e : Expr) : Follows F k k' (chain n side budget e) (chain n side' budget' e) := by
  refine follows_of_budget (chain n side) (chain n side')
    (fun _ => advances_chain h.advances) (fun _ => quiet_chain)
    (fun hlt hlt' _ _ ih e => ?_) hk hk' e
  refine .peek (follows_pure _) fun c => ?_
  split
  · exact (follows_pure _).at
  · have hside := h.mono (Nat.le_of_lt hlt) (Nat.le_of_lt hlt')
    refine Follows.shift (hside.bind fun r? => ?_)
    cases r? with
    | none => exact follows_missingOperand (some e)
    | some r => exact ih _

theorem follows_operation (h : Follows F k k' side side') (hk : k ≤ budget) (hk' : k' ≤ budget') :
    Follows F k k' (operation n side budget) (operation n side' budget') := by
  refine h.bind fun e? => ?_
  cases e? with
  | none => exact follows_pure none
  | some e => exact follows_chain h hk hk' e

theorem follows_comparison (h : Follows F k k' side side') :
    Follows F k k' (comparison side) (comparison side') := by
  refine h.bind fun l? => ?_
  cases l? with
  | none => exact follows_pure none
  | some l =>
    refine follows_comparison?.bind fun op? => ?_
    cases op? with
    | none => exact follows_pure _
    | some op =>
      refine follows_skipBlanks.bind fun _ => h.bind fun r? => ?_
      cases r? with
      | none => exact follows_missingOperand (some l)
      | some r => exact follows_pure _

theorem quiet_expression (budget : Nat) : Quiet (expression budget) := by
  cases budget <;> exact fun _ _ => rfl

theorem follows_expression (budget budget' : Nat) :
    Follows F budget budget' (expression budget) (expression budget') := by
  refine follows_of_budget (fun budget (_ : Unit) => expression budget)
    (fun budget' (_ : Unit) => expression budget') (fun budget _ => advances_expression budget)
    (fun budget' _ => quiet_expression budget') (fun _ _ hk hk' ih _ => ?_) (Nat.le_refl _)
    (Nat.le_refl _) ()
  have hk := Nat.succ_le_succ hk
  have hk' := Nat.succ_le_succ hk'
  have hoperand := follows_operand (ih ()) (Nat.le_of_succ_le hk) (Nat.le_of_succ_le hk')
  have hpower := follows_operation (n := 3) (follows_signed hoperand hk hk') hk hk'
  have hproduct := follows_operation (n := 2) hpower hk hk'
  exact follows_comparison (follows_operation hproduct hk hk')

theorem follows_marker : Follows F k k' marker marker := by
  refine follows_skipBlanks.bind fun _ => .peek (follows_pure ()) fun c => ?_
  split
  · exact followsAt_shift
  · exact (follows_pure ()).at

/-- **Two sources are read alike up to where they part**, and one character further. -/
theorem follows_formula (budget budget' : Nat) :
    Follows F budget budget' (formula budget) (formula budget') := by
  refine follows_marker.bind fun _ => (follows_expression budget budget').bind fun e? => ?_
  refine .peek ?_ fun c => followsAt_fault fun d hd => ⟨rfl, hd⟩
  cases e? with
  | some e => exact follows_pure e
  | none =>
    -- that there is no operand is said of no one character
    exact .of_lockstep (fun s => ⟨.refl s.cursor, trivial⟩) (fun _ _ => rfl)
      fun _ _ _ _ => .strays (.inr id)

end

/-! ## Sources -/

section

variable {F : Fork} {u : List Char} {e : SyntaxError} {s : ParserState} {source : String}

/-- Reading all of a source, from its beginning. -/
abbrev readAll (s : List Char) : Outcome Expr := formula s.length ⟨⟨s, 0⟩, []⟩

theorem readAll_toList : readAll source.toList = formula source.length ⟨.start source, []⟩ := by
  unfold readAll
  rw [String.length_toList]
  rfl

theorem parse_of_tolerates (h : Tolerates (readAll source.toList)) :
    (∃ t, Expr.parse source = .ok t) ∨ Expr.parse source = .error .emptyFormula := by
  cases hparse : Expr.parse source with
  | ok t => exact .inl ⟨t, rfl⟩
  | error e =>
    obtain ⟨s, hs⟩ := Expr.parse_eq_error_iff.1 hparse
    rw [readAll_toList, hs] at h
    obtain rfl : e = .emptyFormula := h
    exact .inr rfl

/-- Where the character of a cause is found. -/
theorem rest_of_misplaced {c : Cursor} (he : e.Misplaced) (h : e.FoundAt c) :
    e.position? = some c.position ∧ ∃ x s, c.rest = x :: s := by
  have hrest : c.rest ≠ [] → ∃ x s, c.rest = x :: s := List.exists_cons_of_ne_nil
  cases e with
  | unexpected x p =>
    obtain ⟨rfl, hx⟩ := h
    exact ⟨rfl, hrest (Cursor.rest_ne_nil_of_peek hx)⟩
  | unclosedBracket p =>
    obtain ⟨rfl, hx⟩ := h
    exact ⟨rfl, hrest fun hnil => hx (by rw [Cursor.peek, hnil]; rfl)⟩
  | unclosedCall x p =>
    obtain ⟨rfl, hx⟩ := h
    exact ⟨rfl, hrest (Cursor.rest_ne_nil_of_peek hx)⟩
  | _ => exact he.elim

/-- The place of a character out of place is where reading stopped. -/
theorem split_of_misplaced {t : List Char} (h : readAll t = .error e s) (he : e.Misplaced) :
    ∃ u c far, t = u ++ c :: far ∧ s.cursor.rest = c :: far ∧ e.position? = some u.length := by
  have hlands : Lands ⟨t, 0⟩ (readAll t) := advances_formula t.length ⟨⟨t, 0⟩, []⟩
  rw [h] at hlands
  obtain ⟨⟨u, hu, hposition⟩, hfound⟩ := hlands
  obtain ⟨hp, c, far, hrest⟩ := rest_of_misplaced he hfound
  rw [hposition, Nat.zero_add] at hp
  exact ⟨u, c, far, hu.trans (by rw [hrest]), hrest, hp⟩

/-- A character out of place is so in every source that goes on with it, and where the source ends
instead, no fault is found. -/
theorem readAll_of_misplaced (he : e.Misplaced) (h : readAll (u ++ F.first) = .error e s)
    (hs : s.cursor.rest = F.first) :
    (F.other ≠ [] → ∃ s', readAll (u ++ F.other) = .error e s') ∧
      (F.other = [] → Tolerates (readAll (u ++ F.other))) := by
  have htracks : Tracks F u.length (readAll (u ++ F.first)) (readAll (u ++ F.other)) :=
    (follows_formula _ _).tracks u 0 [] [] (Nat.le_refl _) (Nat.le_refl _)
  generalize readAll (u ++ F.other) = r' at htracks ⊢
  rw [h] at htracks
  -- the first run has stopped at the fork, so it neither went past it nor stopped in front of it
  cases htracks with
  | lockstep hlock =>
    cases hlock with
    | strays hstrays =>
      rcases hstrays with hfar | hnot
      · rw [hs, Fork.first, List.length_cons] at hfar
        omega
      · exact absurd he hnot
  | @fails _ x _ _ _ hne =>
    obtain rfl : x = [] := List.append_left_eq_self.1 hs
    exact ⟨fun _ => ⟨_, rfl⟩, fun hnil => absurd hnil hne⟩
  | ends hnil _ htol => exact ⟨fun hne => absurd hnil hne, fun _ => htol⟩

/-- **A character out of place is the first one that does not fit.** Its position is reported, every
source that agrees up to and with this character is rejected for the same cause, and what stands in
front of it is a formula by itself, perhaps one that ends too early, or has no operand. -/
theorem parse_eq_error_of_misplaced (h : Expr.parse source = .error e) (he : e.Misplaced) :
    ∃ p, e.position? = some p ∧ p < source.length ∧
      (∀ source' : String, source'.toList.take (p + 1) = source.toList.take (p + 1) →
        Expr.parse source' = .error e) ∧
      ((∃ t, Expr.parse (String.ofList (source.toList.take p)) = .ok t) ∨
        Expr.parse (String.ofList (source.toList.take p)) = .error .emptyFormula) := by
  obtain ⟨s, hs⟩ := Expr.parse_eq_error_iff.1 h
  rw [← readAll_toList] at hs
  obtain ⟨u, c, far, hsource, hrest, hp⟩ := split_of_misplaced hs he
  rw [hsource] at hs
  refine ⟨u.length, hp, ?_, fun source' hsame => ?_, ?_⟩
  · rw [← String.length_toList, hsource, List.length_append, List.length_cons]
    omega
  · have htake : source'.toList.take (u.length + 1) = u ++ [c] := by
      rw [hsame, hsource, List.take_length_add_append]
      rfl
    have hsource' : source'.toList = u ++ c :: source'.toList.drop (u.length + 1) := by
      refine (List.take_append_drop (u.length + 1) source'.toList).symm.trans ?_
      rw [htake, List.append_assoc]
      rfl
    let F : Fork := ⟨c, far, c :: source'.toList.drop (u.length + 1), fun d hd => by cases hd; rfl⟩
    rw [Expr.parse_eq_error_iff, ← readAll_toList, hsource']
    exact (readAll_of_misplaced (F := F) he hs hrest).1 nofun
  · let F : Fork := ⟨c, far, [], nofun⟩
    apply parse_of_tolerates
    rw [String.toList_ofList, hsource, List.take_left, ← List.append_nil u]
    exact (readAll_of_misplaced (F := F) he hs hrest).2 rfl

/-- A factor is missing in front of the bracket that closes. -/
theorem parse_error_at_bracket :
    Expr.parse "=2*(a*)+b" = .error (.unexpected ')' 6) ∧
      ∃ p, (SyntaxError.unexpected ')' 6).position? = some p ∧ p < "=2*(a*)+b".length ∧
        (∀ source' : String, source'.toList.take (p + 1) = "=2*(a*)+b".toList.take (p + 1) →
          Expr.parse source' = .error (.unexpected ')' 6)) ∧
        ((∃ t, Expr.parse (String.ofList ("=2*(a*)+b".toList.take p)) = .ok t) ∨
          Expr.parse (String.ofList ("=2*(a*)+b".toList.take p)) = .error .emptyFormula) := by
  have h : Expr.parse "=2*(a*)+b" = .error (.unexpected ')' 6) := by rfl
  exact ⟨h, parse_eq_error_of_misplaced h trivial⟩

end

end Formulary.Parser
