import Formulary.Source.Parser
import Mathlib.Tactic.SplitIfs

/-!
# Reading moves forward

A parser takes characters from the front of what is left and counts them, so the place where it ends
is *reached* from the place where it began (`Cursor.Reaches`), whether it gives a result or fails.
`Advances p` says so of a parser. It says as well that a cause which is about a character was found
in front of that character, at the place where the parser ended.

A token is gone past only after a look at its first character. Going past it is no way forward at
the end of the source, so the statement is made for one state at a time (`AdvancesAt`).

Main result: `advances_formula`.
-/

namespace Formulary

/-! ## Places behind a place -/

namespace Cursor

variable {c d e : Cursor} {n : Nat}

/-- Reading some of what is left leads from one place to the other. -/
def Reaches (c d : Cursor) : Prop :=
  ∃ s, c.rest = s ++ d.rest ∧ d.position = c.position + s.length

theorem Reaches.refl (c : Cursor) : c.Reaches c := ⟨[], rfl, rfl⟩

theorem Reaches.trans (h : c.Reaches d) (h' : d.Reaches e) : c.Reaches e := by
  obtain ⟨s, hs, hp⟩ := h
  obtain ⟨t, ht, hq⟩ := h'
  refine ⟨s ++ t, ?_, ?_⟩
  · rw [hs, ht, List.append_assoc]
  · rw [hq, hp, List.length_append, Nat.add_assoc]

theorem Reaches.length_le (h : c.Reaches d) : d.rest.length ≤ c.rest.length := by
  obtain ⟨s, hs, -⟩ := h
  rw [hs, List.length_append]
  exact Nat.le_add_left _ _

theorem Reaches.position_le (h : c.Reaches d) : c.position ≤ d.position := by
  obtain ⟨s, -, hp⟩ := h
  rw [hp]
  exact Nat.le_add_right _ _

theorem reaches_skip (h : n ≤ c.rest.length) : c.Reaches (c.skip n) := by
  refine ⟨c.rest.take n, (List.take_append_drop n c.rest).symm, ?_⟩
  rw [List.length_take, Nat.min_eq_left h]
  rfl

theorem reaches_skip_run (c : Cursor) (p : Char → Bool) : c.Reaches (c.skip (c.run p).length) :=
  reaches_skip (List.takeWhile_sublist p).length_le

theorem reaches_advance (h : c.rest ≠ []) : c.Reaches c.advance :=
  reaches_skip (List.length_pos_iff.2 h)

theorem rest_ne_nil_of_peek {x : Char} (h : c.peek 0 = some x) : c.rest ≠ [] := by
  intro hnil
  rw [peek, hnil] at h
  exact absurd h nofun

theorem reaches_readNumber (c : Cursor) : c.Reaches (readNumber c).2 := by
  rw [readNumber_snd]
  exact reaches_skip_run c _

theorem advance_reaches_readText (c : Cursor) : c.advance.Reaches (readText c).2 := by
  generalize hd : Text.decode c.advance.rest = d
  obtain ⟨t, rest?⟩ := d
  simp only [readText, hd]
  cases rest? with
  | none =>
    refine ⟨Text.encode t, ?_, ?_⟩
    · rw [Text.eq_encode_of_unclosed hd, List.append_nil]
    · rw [Text.length_encode]
  | some rest =>
    refine ⟨Text.encode t ++ ['"'], ?_, ?_⟩
    · rw [Text.eq_encode_of_decode hd, List.append_assoc]
      rfl
    · rw [List.length_append, Text.length_encode]
      rfl

theorem reaches_readText (h : c.rest ≠ []) : c.Reaches (readText c).2 :=
  (reaches_advance h).trans (advance_reaches_readText c)

theorem reaches_readName (c : Cursor) : c.Reaches (readName c).2 := by
  unfold readName
  split_ifs
  · exact reaches_skip_run c _
  · exact .refl c

theorem reaches_readFormulaName (c : Cursor) : c.Reaches (readFormulaName c).2 := by
  unfold readFormulaName
  split
  · exact .refl c
  · exact reaches_skip_run c _

theorem reaches_readComparison (c : Cursor) : c.Reaches c.readComparison.2 := by
  unfold readComparison
  split
  case h_7 => exact .refl c
  all_goals
    rename_i hrest
    refine reaches_skip ?_
    rw [hrest]
    simp

end Cursor

/-- A cause that is about the character at a place names this place and this character. -/
def SyntaxError.FoundAt (c : Cursor) : SyntaxError → Prop
  | unexpected x p | unclosedCall x p => p = c.position ∧ c.peek 0 = some x
  | unclosedBracket p => p = c.position ∧ c.peek 0 ≠ none
  | _ => True

namespace Parser

/-! ## Results -/

section

variable {α β : Type} {c d : Cursor} {p : Parser α} {f : α → Parser β} {s : ParserState}

theorem bind_of_ok {a : α} {s' : ParserState} (h : p s = .ok a s') : (p >>= f) s = f a s' := by
  show EStateM.bind p f s = _
  rw [EStateM.bind, h]

theorem bind_of_error {e : SyntaxError} {s' : ParserState} (h : p s = .error e s') :
    (p >>= f) s = .error e s' := by
  show EStateM.bind p f s = _
  rw [EStateM.bind, h]

/-- The result is at a place that can be reached. -/
def Lands (c : Cursor) : EStateM.Result SyntaxError ParserState α → Prop
  | .ok _ s => c.Reaches s.cursor
  | .error e s => c.Reaches s.cursor ∧ e.FoundAt s.cursor

theorem Lands.of_reaches {r : EStateM.Result SyntaxError ParserState α} (h : Lands d r)
    (hd : c.Reaches d) : Lands c r := by
  cases r with
  | ok a s => exact hd.trans h
  | error e s => exact ⟨hd.trans h.1, h.2⟩

/-- In this state, the parser moves forward. -/
def AdvancesAt (p : Parser α) (s : ParserState) : Prop := Lands s.cursor (p s)

/-- The parser moves forward. -/
def Advances (p : Parser α) : Prop := ∀ s, AdvancesAt p s

theorem advances_pure (a : α) : Advances (pure a : Parser α) := fun s => .refl s.cursor

theorem AdvancesAt.bind (hp : AdvancesAt p s)
    (hf : ∀ a s', p s = .ok a s' → AdvancesAt (f a) s') : AdvancesAt (p >>= f) s := by
  unfold AdvancesAt at hp ⊢
  cases hr : p s with
  | ok a s' =>
    rw [hr] at hp
    rw [bind_of_ok hr]
    exact (hf a s' hr).of_reaches hp
  | error e s' =>
    rw [hr] at hp
    rw [bind_of_error hr]
    exact hp

theorem AdvancesAt.then (hp : AdvancesAt p s) (hf : ∀ a, Advances (f a)) :
    AdvancesAt (p >>= f) s :=
  hp.bind fun a s' _ => hf a s'

theorem Advances.bind (hp : Advances p) (hf : ∀ a, Advances (f a)) : Advances (p >>= f) :=
  fun s => (hp s).then hf

theorem AdvancesAt.peek {f : Option Char → Parser β}
    (hf : ∀ c?, s.cursor.peek 0 = c? → AdvancesAt (f c?) s) :
    AdvancesAt (Parser.peek >>= f) s :=
  hf _ rfl

end

/-! ## Tokens -/

section

variable {α : Type} {s : ParserState} {x : Char}

theorem advances_move {f : Cursor → Cursor} (hf : ∀ c : Cursor, c.Reaches (f c)) :
    Advances (move f) :=
  fun s => hf s.cursor

theorem reaches_skipBlanks (c : Cursor) : c.Reaches c.skipBlanks := Cursor.reaches_skip_run c _

theorem advancesAt_shift (h : s.cursor.peek 0 = some x) : AdvancesAt shift s :=
  (Cursor.reaches_advance (Cursor.rest_ne_nil_of_peek h)).trans (reaches_skipBlanks _)

theorem advancesAt_lexeme {read : Reader α} (h : s.cursor.Reaches (read s.cursor).2)
    (he : ∀ e c, read s.cursor = (.error e, c) → e.FoundAt c) : AdvancesAt (lexeme read) s := by
  unfold AdvancesAt lexeme
  split
  next a c hread =>
    rw [hread] at h
    exact h.trans (reaches_skipBlanks c)
  next e c hread =>
    rw [hread] at h
    exact ⟨h, he e c hread⟩

theorem advances_readNumber : Advances (lexeme Cursor.readNumber) := by
  intro s
  refine advancesAt_lexeme (Cursor.reaches_readNumber _) fun e c h => ?_
  simp only [Cursor.readNumber] at h
  split at h
  · cases h
  · cases h
    trivial

theorem advancesAt_readText (h : s.cursor.peek 0 = some x) :
    AdvancesAt (lexeme Cursor.readText) s := by
  refine advancesAt_lexeme (Cursor.reaches_readText (Cursor.rest_ne_nil_of_peek h)) fun e c h => ?_
  simp only [Cursor.readText] at h
  split at h
  · cases h
  · cases h
    trivial

theorem advances_readName : Advances (lexeme Cursor.readName) := by
  intro s
  refine advancesAt_lexeme (Cursor.reaches_readName _) fun e c h => ?_
  unfold Cursor.readName at h
  split_ifs at h
  · cases h
  · cases h
    trivial

theorem advances_readFormulaName : Advances (lexeme Cursor.readFormulaName) := by
  intro s
  refine advancesAt_lexeme (Cursor.reaches_readFormulaName _) fun e c h => ?_
  simp only [Cursor.readFormulaName] at h
  split at h
  · cases h
    trivial
  · cases h

theorem advancesAt_fault {cause : Nat → SyntaxError}
    (h : (cause s.cursor.position).FoundAt s.cursor) :
    AdvancesAt (fault cause : Parser α) s :=
  ⟨.refl s.cursor, h⟩

theorem advances_missingOperand (kept : Option Expr) : Advances (missingOperand kept) := by
  refine fun s => AdvancesAt.peek fun c? hc => ?_
  cases c? with
  | some c => exact advancesAt_fault ⟨rfl, hc⟩
  | none => exact .refl s.cursor

theorem advances_closing {otherwise : Char → Nat → SyntaxError}
    (h : ∀ x (c : Cursor), c.peek 0 = some x → (otherwise x c.position).FoundAt c) :
    Advances (closing otherwise) := by
  refine fun s => AdvancesAt.peek fun c? hc => ?_
  split
  · exact advancesAt_shift hc
  · exact advancesAt_fault (h _ _ hc)
  · exact advances_pure () s

theorem advances_comparison? : Advances comparison? :=
  fun s => Cursor.reaches_readComparison s.cursor

end

/-! ## Levels -/

section

variable {nested side : Parser (Option Expr)} {k budget : Nat} {s : ParserState} {x : Char}

theorem advancesAt_bracket (hnested : Advances nested) (h : s.cursor.peek 0 = some x) :
    AdvancesAt (bracket nested) s := by
  refine (advancesAt_shift h).then fun _ => hnested.bind fun e? => ?_
  cases e? with
  | none => exact advances_missingOperand none
  | some e =>
    have hclosing : Advances (closing fun _ => .unclosedBracket) :=
      advances_closing fun x c hx => ⟨rfl, by rw [hx]; exact nofun⟩
    exact hclosing.bind fun _ => advances_pure _

theorem advances_arguments (hnested : Advances nested) (read : List Expr) :
    Advances (arguments nested budget read) := by
  induction budget generalizing read with
  | zero => exact advances_pure _
  | succ budget ih =>
    refine hnested.bind fun e? => fun s => AdvancesAt.peek fun c? hc => ?_
    split
    · exact (advancesAt_shift hc).then fun _ => ih _
    · exact advances_pure _ s

theorem advances_named (hnested : Advances nested) : Advances (named nested budget) := by
  refine advances_readName.bind fun name => fun s => AdvancesAt.peek fun c? hc => ?_
  split
  · have hclosing : Advances (closing .unclosedCall) := advances_closing fun x c hx => ⟨rfl, hx⟩
    refine (advancesAt_shift hc).then fun _ => (advances_arguments hnested []).bind fun es => ?_
    exact hclosing.bind fun _ => advances_pure _
  · exact advances_pure _ s

theorem advancesAt_reference (h : s.cursor.peek 0 = some x) : AdvancesAt reference s :=
  (advancesAt_shift h).then fun _ => advances_readFormulaName.bind fun _ => advances_pure _

theorem advances_operand (hnested : Advances nested) : Advances (operand nested budget) := by
  refine fun s => AdvancesAt.peek fun c? hc => ?_
  cases c? with
  | none => exact advances_pure none s
  | some c =>
    show AdvancesAt (if c = '(' then _ else if c = '"' then _ else if Text.isNumeral c then _ else
      if c.isAlpha then _ else if c = '=' then _ else _) s
    split_ifs
    · exact advancesAt_bracket hnested hc
    · exact (advancesAt_readText hc).then fun _ => advances_pure _
    · exact (advances_readNumber s).then fun _ => advances_pure _
    · exact advances_named hnested s
    · exact advancesAt_reference hc
    · exact advances_pure none s

theorem advances_signed (hside : Advances side) : Advances (signed side budget) := by
  induction budget with
  | zero => exact advances_pure none
  | succ budget ih =>
    refine fun s => AdvancesAt.peek fun c? hc => ?_
    split
    · refine (advancesAt_shift hc).then fun _ => ih.bind fun e? => ?_
      cases e? with
      | none => exact advances_missingOperand none
      | some e => exact advances_pure _
    · exact (advancesAt_shift hc).then fun _ => ih
    · exact hside s

theorem advances_chain (hside : Advances side) (e : Expr) :
    Advances (chain k side budget e) := by
  induction budget generalizing e with
  | zero => exact advances_pure _
  | succ budget ih =>
    refine fun s => AdvancesAt.peek fun c? hc => ?_
    split
    · exact advances_pure _ s
    · rename_i op hop
      obtain ⟨c, hsome, -⟩ := Option.bind_eq_some_iff.1 hop
      refine (advancesAt_shift (hc.trans hsome)).then fun _ => hside.bind fun r? => ?_
      cases r? with
      | none => exact advances_missingOperand (some e)
      | some r => exact ih _

theorem advances_operation (hside : Advances side) : Advances (operation k side budget) := by
  refine hside.bind fun e? => ?_
  cases e? with
  | none => exact advances_pure none
  | some e => exact advances_chain hside e

theorem advances_comparison (hside : Advances side) : Advances (comparison side) := by
  refine hside.bind fun l? => ?_
  cases l? with
  | none => exact advances_pure none
  | some l =>
    refine advances_comparison?.bind fun op? => ?_
    cases op? with
    | none => exact advances_pure _
    | some op =>
      refine (advances_move reaches_skipBlanks).bind fun _ => hside.bind fun r? => ?_
      cases r? with
      | none => exact advances_missingOperand (some l)
      | some r => exact advances_pure _

theorem advances_expression (budget : Nat) : Advances (expression budget) := by
  induction budget with
  | zero => exact advances_pure none
  | succ budget ih =>
    exact advances_comparison (advances_operation (advances_operation (advances_operation
      (advances_signed (advances_operand ih)))))

theorem advances_marker : Advances marker := by
  refine (advances_move reaches_skipBlanks).bind fun _ => fun s => AdvancesAt.peek fun c? hc => ?_
  split
  · exact advancesAt_shift hc
  · exact advances_pure () s

/-- **Reading a formula moves forward**, and a cause that is about a character is found in front of
it. -/
theorem advances_formula (budget : Nat) : Advances (formula budget) := by
  refine advances_marker.bind fun _ => (advances_expression budget).bind fun e? => ?_
  refine fun s => AdvancesAt.peek fun c? hc => ?_
  split
  · exact advancesAt_fault ⟨rfl, hc⟩
  · exact advances_pure _ s
  · exact ⟨.refl s.cursor, trivial⟩

end

end Parser

end Formulary
