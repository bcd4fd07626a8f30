import Formulary.Proofs.Source.Advance
import Formulary.Proofs.Source.Output

/-!
# What a source is rejected for

A source is rejected for one of two reasons. **It holds no operand**: behind its mark there is nothing
but blanks, signs and opening brackets. Or there is **a cause with a place**, which lies within the
source, and at its very end only where the name of a formula is missing; a cause that quotes a
character quotes the one at its place, which is no blank (`parse_rejected`).

The parsers go from token to token: each of them begins and ends where no blank is left to skip, and
a cause that it fails with is at a place it can reach (`Blames`).

That there is no operand is noticed at the end of the source, by a parser that has found nothing at
all (`FindsNothing`). Each level of the grammar finds nothing exactly if the level below it does,
a sign or a bracket exactly if what is behind it does.
-/

namespace Formulary

namespace Cursor

variable {c d : Cursor}

/-- No blank is left to skip. -/
def AtToken (c : Cursor) : Prop := ∀ x, c.peek 0 = some x → Text.isBlank x = false

theorem rest_eq_nil_of_peek (h : c.peek 0 = none) : c.rest = [] := by
  rwa [peek, ← List.head?_eq_getElem?, List.head?_eq_none_iff] at h

theorem exists_rest_of_peek {x : Char} (h : c.peek 0 = some x) : ∃ r, c.rest = x :: r := by
  rwa [peek, ← List.head?_eq_getElem?, List.head?_eq_some_iff] at h

theorem atToken_skipBlanks (c : Cursor) : c.skipBlanks.AtToken := by
  intro x hx
  rw [peek, rest_skipBlanks, ← List.head?_eq_getElem?] at hx
  have hhead := List.head?_dropWhile_not Text.isBlank c.rest
  rw [hx] at hhead
  simpa using hhead

/-- What was read and what is left make up the source. -/
theorem Reaches.position_add (h : c.Reaches d) :
    d.position + d.rest.length = c.position + c.rest.length := by
  obtain ⟨s, hs, hp⟩ := h
  rw [hs, hp, List.length_append]
  omega

theorem Reaches.getElem? (h : c.Reaches d) (hc : c.position = 0) :
    c.rest[d.position]? = d.peek 0 := by
  obtain ⟨s, hs, hp⟩ := h
  rw [hs, hp, hc, Nat.zero_add, List.getElem?_append_right (Nat.le_refl _), Nat.sub_self]
  rfl

end Cursor

/-- The cause is at this place, which is the end of the source only if the name of a formula is
missing. A character that it quotes stands there, and is no blank. -/
structure SyntaxError.At (e : SyntaxError) (d : Cursor) : Prop where
  position : e.position? = some d.position
  atEnd : d.rest = [] → e = .missingFormulaName d.position
  quoted : ∀ x p, e = .unexpected x p ∨ e = .unclosedCall x p →
    d.peek 0 = some x ∧ Text.isBlank x = false

namespace Parser

/-! ## Results -/

section

variable {α β : Type} {c d : Cursor} {p : Parser α} {f : α → Parser β} {s : ParserState}

/-- The result is in front of a token, or a cause at a place that can be reached. -/
def Ends (c : Cursor) : EStateM.Result SyntaxError ParserState α → Prop
  | .ok _ s => c.Reaches s.cursor ∧ s.cursor.AtToken
  | .error e _ => ∃ d, c.Reaches d ∧ e.At d

theorem Ends.of_reaches {r : EStateM.Result SyntaxError ParserState α} (h : Ends d r)
    (hd : c.Reaches d) : Ends c r := by
  cases r with
  | ok a s => exact ⟨hd.trans h.1, h.2⟩
  | error e s =>
    obtain ⟨d', hd', he⟩ := h
    exact ⟨d', hd.trans hd', he⟩

/-- In this state, the parser goes on to a token or fails with a cause that has a place. -/
def BlamesAt (p : Parser α) (s : ParserState) : Prop := Ends s.cursor (p s)

/-- In front of a token, the parser goes on to a token or fails with a cause that has a place. -/
def Blames (p : Parser α) : Prop := ∀ s, s.cursor.AtToken → BlamesAt p s

theorem blames_pure (a : α) : Blames (pure a : Parser α) := fun s hs => ⟨.refl s.cursor, hs⟩

theorem BlamesAt.bind (hp : BlamesAt p s)
    (hf : ∀ a s', p s = .ok a s' → s'.cursor.AtToken → BlamesAt (f a) s') :
    BlamesAt (p >>= f) s := by
  unfold BlamesAt at hp ⊢
  cases hr : p s with
  | ok a s' =>
    rw [hr] at hp
    rw [bind_of_ok hr]
    exact (hf a s' hr hp.2).of_reaches hp.1
  | error e s' =>
    rw [hr] at hp
    rw [bind_of_error hr]
    exact hp

/-- The first parser need not come to a token. -/
theorem BlamesAt.of_ok {a : α} {s' : ParserState} (hp : p s = .ok a s')
    (hs : s.cursor.Reaches s'.cursor) (hf : BlamesAt (f a) s') : BlamesAt (p >>= f) s := by
  rw [BlamesAt, bind_of_ok hp]
  exact hf.of_reaches hs

theorem BlamesAt.then (hp : BlamesAt p s) (hf : ∀ a, Blames (f a)) : BlamesAt (p >>= f) s :=
  hp.bind fun a s' _ => hf a s'

theorem Blames.bind (hp : Blames p) (hf : ∀ a, Blames (f a)) : Blames (p >>= f) :=
  fun s hs => (hp s hs).then hf

theorem BlamesAt.peek {f : Option Char → Parser β}
    (hf : ∀ c?, s.cursor.peek 0 = c? → BlamesAt (f c?) s) : BlamesAt (Parser.peek >>= f) s :=
  hf _ rfl

end

/-! ## Tokens -/

section

variable {α : Type} {s : ParserState} {x : Char}

theorem blamesAt_skipBlanks (s : ParserState) : BlamesAt (move Cursor.skipBlanks) s :=
  ⟨reaches_skipBlanks s.cursor, Cursor.atToken_skipBlanks s.cursor⟩

theorem blamesAt_shift (h : s.cursor.peek 0 = some x) : BlamesAt shift s :=
  ⟨advancesAt_shift h, Cursor.atToken_skipBlanks _⟩

/-- A lexeme that cannot be read is so from its beginning. -/
theorem blamesAt_lexeme {read : Reader α} (h : s.cursor.Reaches (read s.cursor).2)
    (he : ∀ e c, read s.cursor = (.error e, c) → e.At s.cursor) : BlamesAt (lexeme read) s := by
  unfold BlamesAt lexeme
  split
  next a c hread =>
    rw [hread] at h
    exact ⟨h.trans (reaches_skipBlanks c), Cursor.atToken_skipBlanks c⟩
  next e c hread => exact ⟨s.cursor, .refl s.cursor, he e c hread⟩

theorem blamesAt_readNumber (h : s.cursor.peek 0 = some x) :
    BlamesAt (lexeme Cursor.readNumber) s := by
  refine blamesAt_lexeme (Cursor.reaches_readNumber _) fun e c he => ?_
  simp only [Cursor.readNumber] at he
  split at he
  · cases he
  · cases he
    exact ⟨rfl, fun hnil => absurd hnil (Cursor.rest_ne_nil_of_peek h), by simp⟩

theorem blamesAt_readText (h : s.cursor.peek 0 = some x) :
    BlamesAt (lexeme Cursor.readText) s := by
  have hne := Cursor.rest_ne_nil_of_peek h
  refine blamesAt_lexeme (Cursor.reaches_readText hne) fun e c he => ?_
  simp only [Cursor.readText] at he
  split at he
  · cases he
  · cases he
    exact ⟨rfl, fun hnil => absurd hnil hne, by simp⟩

theorem blamesAt_readName (h : s.cursor.peek 0 = some x) :
    BlamesAt (lexeme Cursor.readName) s := by
  refine blamesAt_lexeme (Cursor.reaches_readName _) fun e c he => ?_
  unfold Cursor.readName at he
  split at he
  · cases he
  · cases he
    exact ⟨rfl, fun hnil => absurd hnil (Cursor.rest_ne_nil_of_peek h), by simp⟩

theorem blames_readFormulaName : Blames (lexeme Cursor.readFormulaName) := by
  refine fun s _ => blamesAt_lexeme (Cursor.reaches_readFormulaName _) fun e c he => ?_
  simp only [Cursor.readFormulaName] at he
  split at he
  · cases he
    exact ⟨rfl, fun _ => rfl, by simp⟩
  · cases he

theorem blamesAt_fault {cause : Nat → SyntaxError}
    (h : (cause s.cursor.position).At s.cursor) : BlamesAt (fault cause : Parser α) s :=
  ⟨s.cursor, .refl s.cursor, h⟩

/-- A cause that quotes the character at the cursor, where there is one. -/
theorem at_of_peek {e : SyntaxError} {c : Cursor} (hc : c.AtToken) (hx : c.peek 0 = some x)
    (hposition : e.position? = some c.position)
    (hquoted : ∀ y p, e = .unexpected y p ∨ e = .unclosedCall y p → y = x) : e.At c := by
  refine ⟨hposition, fun hnil => absurd hnil (Cursor.rest_ne_nil_of_peek hx), fun y p he => ?_⟩
  obtain rfl := hquoted y p he
  exact ⟨hx, hc y hx⟩

theorem at_unexpected {c : Cursor} (hc : c.AtToken) (hx : c.peek 0 = some x) :
    (SyntaxError.unexpected x c.position).At c :=
  at_of_peek hc hx rfl fun y p he => by rcases he with he | he <;> cases he; rfl

theorem blames_missingOperand (kept : Option Expr) : Blames (missingOperand kept) := by
  refine fun s hs => BlamesAt.peek fun c? hc => ?_
  cases c? with
  | some c => exact blamesAt_fault (at_unexpected hs hc)
  | none => exact ⟨.refl s.cursor, hs⟩

theorem blames_closing {otherwise : Char → Nat → SyntaxError}
    (hposition : ∀ x p, (otherwise x p).position? = some p)
    (hquoted : ∀ x p y q, otherwise x p = .unexpected y q ∨ otherwise x p = .unclosedCall y q →
      y = x) : Blames (closing otherwise) := by
  refine fun s hs => BlamesAt.peek fun c? hc => ?_
  split
  · exact blamesAt_shift hc
  · exact blamesAt_fault (at_of_peek hs hc (hposition _ _) (hquoted _ _))
  · exact blames_pure () s hs

end

/-! ## Levels -/

section

variable {nested side : Parser (Option Expr)} {k budget : Nat} {s : ParserState} {x : Char}

theorem blamesAt_bracket (hnested : Blames nested) (h : s.cursor.peek 0 = some x) :
    BlamesAt (bracket nested) s := by
  refine (blamesAt_shift h).then fun _ => hnested.bind fun e? => ?_
  cases e? with
  | none => exact blames_missingOperand none
  | some e =>
    have hclosing : Blames (closing fun _ => .unclosedBracket) :=
      blames_closing (fun _ _ => rfl) fun _ _ _ _ he => by rcases he with he | he <;> cases he
    exact hclosing.bind fun _ => blames_pure _

theorem blames_arguments (hnested : Blames nested) (read : List Expr) :
    Blames (arguments nested budget read) := by
  induction budget generalizing read with
  | zero => exact blames_pure _
  | succ budget ih =>
    refine hnested.bind fun e? => fun s hs => BlamesAt.peek fun c? hc => ?_
    split
    · exact (blamesAt_shift hc).then fun _ => ih _
    · exact blames_pure _ s hs

theorem blamesAt_named (hnested : Blames nested) (h : s.cursor.peek 0 = some x) :
    BlamesAt (named nested budget) s := by
  refine (blamesAt_readName h).then fun name => fun s hs => BlamesAt.peek fun c? hc => ?_
  split
  · have hclosing : Blames (closing .unclosedCall) :=
      blames_closing (fun _ _ => rfl) fun _ _ _ _ he => by rcases he with he | he <;> cases he; rfl
    refine (blamesAt_shift hc).then fun _ => (blames_arguments hnested []).bind fun es => ?_
    exact hclosing.bind fun _ => blames_pure _
  · exact blames_pure _ s hs

theorem blamesAt_reference (h : s.cursor.peek 0 = some x) : BlamesAt reference s :=
  (blamesAt_shift h).then fun _ => blames_readFormulaName.bind fun _ => blames_pure _

theorem blames_operand (hnested : Blames nested) : Blames (operand nested budget) := by
  refine fun s hs => BlamesAt.peek fun c? hc => ?_
  cases c? with
  | none => exact blames_pure none s hs
  | some c =>
    show BlamesAt (if c = '(' then _ else if c = '"' then _ else if Text.isNumeral c then _ else
      if c.isAlpha then _ else if c = '=' then _ else _) s
    split_ifs
    · exact blamesAt_bracket hnested hc
    · exact (blamesAt_readText hc).then fun _ => blames_pure _
    · exact (blamesAt_readNumber hc).then fun _ => blames_pure _
    · exact blamesAt_named hnested hc
    · exact blamesAt_reference hc
    · exact blames_pure none s hs

theorem blames_signed (hside : Blames side) : Blames (signed side budget) := by
  induction budget with
  | zero => exact blames_pure none
  | succ budget ih =>
    refine fun s hs => BlamesAt.peek fun c? hc => ?_
    split
    · refine (blamesAt_shift hc).then fun _ => ih.bind fun e? => ?_
      cases e? with
      | none => exact blames_missingOperand none
      | some e => exact blames_pure _
    · exact (blamesAt_shift hc).then fun _ => ih
    · exact hside s hs

theorem blames_chain (hside : Blames side) (e : Expr) : Blames (chain k side budget e) := by
  induction budget generalizing e with
  | zero => exact blames_pure _
  | succ budget ih =>
    refine fun s hs => BlamesAt.peek fun c? hc => ?_
    split
    · exact blames_pure _ s hs
    · rename_i op hop
      obtain ⟨c, hsome, -⟩ := Option.bind_eq_some_iff.1 hop
      refine (blamesAt_shift (hc.trans hsome)).then fun _ => hside.bind fun r? => ?_
      cases r? with
      | none => exact blames_missingOperand (some e)
      | some r => exact ih _

theorem blames_operation (hside : Blames side) : Blames (operation k side budget) := by
  refine hside.bind fun e? => ?_
  cases e? with
  | none => exact blames_pure none
  | some e => exact blames_chain hside e

theorem blames_comparison (hside : Blames side) : Blames (comparison side) := by
  refine hside.bind fun l? => ?_
  cases l? with
  | none => exact blames_pure none
  | some l =>
    intro s hs
    have hcomparison : comparison? s = .ok s.cursor.readComparison.1
        { s with cursor := s.cursor.readComparison.2 } := rfl
    refine .of_ok hcomparison (Cursor.reaches_readComparison s.cursor) ?_
    generalize hread : s.cursor.readComparison = r
    obtain ⟨op?, c⟩ := r
    cases op? with
    | none =>
      obtain rfl := Cursor.readComparison_none hread
      exact blames_pure _ s hs
    | some op =>
      refine (blamesAt_skipBlanks _).then fun _ => hside.bind fun r? => ?_
      cases r? with
      | none => exact blames_missingOperand (some l)
      | some r => exact blames_pure _

theorem blames_expression (budget : Nat) : Blames (expression budget) := by
  induction budget with
  | zero => exact blames_pure none
  | succ budget ih =>
    exact blames_comparison (blames_operation (blames_operation (blames_operation
      (blames_signed (blames_operand ih)))))

end

/-! ## Sources without an operand -/

/-- Blanks, signs and opening brackets. -/
def Vacant (s : List Char) : Prop := ∀ c ∈ s, Text.isBlank c = true ∨ c = '(' ∨ c = '-' ∨ c = '+'

instance (s : List Char) : Decidable (Vacant s) :=
  List.decidableBAll (fun c => Text.isBlank c = true ∨ c = '(' ∨ c = '-' ∨ c = '+') s

/-- The parser finds no operand before the end of the source. -/
def FindsNothing (p : Parser (Option Expr)) (s : ParserState) : Prop :=
  ∃ t, p s = .ok none t ∧ t.cursor.rest = []

section

variable {p : Parser (Option Expr)} {f : Option Expr → Parser (Option Expr)} {s : ParserState}
  {c : Char} {r : List Char}

theorem vacant_nil : Vacant [] := List.forall_mem_nil _

theorem vacant_dropWhile : Vacant (r.dropWhile Text.isBlank) ↔ Vacant r := by
  conv_rhs => rw [← List.takeWhile_append_dropWhile (p := Text.isBlank) (l := r)]
  refine (List.forall_mem_append.trans (and_iff_right fun c hc => .inl ?_)).symm
  exact List.all_eq_true.1 List.all_takeWhile c hc

theorem vacant_cons (h : c = '(' ∨ c = '-' ∨ c = '+') : Vacant (c :: r) ↔ Vacant r :=
  List.forall_mem_cons.trans (and_iff_right (.inr h))

theorem not_vacant_cons (hc : Text.isBlank c = false) (h : c ≠ '(' ∧ c ≠ '-' ∧ c ≠ '+') :
    ¬ Vacant (c :: r) := by
  intro hvacant
  rcases hvacant c List.mem_cons_self with hb | heq
  · rw [hc] at hb
    cases hb
  · simp [h] at heq

theorem findsNothing_pure : FindsNothing (pure none) s ↔ s.cursor.rest = [] := by
  constructor
  · rintro ⟨t, ⟨⟩, h⟩
    exact h
  · exact fun h => ⟨s, rfl, h⟩

theorem findsNothing_missingOperand : FindsNothing (missingOperand none) s ↔ s.cursor.rest = [] := by
  obtain ⟨⟨rest, position⟩, kept⟩ := s
  cases rest with
  | nil => exact iff_of_true ⟨_, rfl, rfl⟩ rfl
  | cons c rest => exact iff_of_false (fun ⟨_, h, _⟩ => nomatch h) nofun

theorem findsNothing_peek {f : Option Char → Parser (Option Expr)} :
    FindsNothing (peek >>= f) s ↔ FindsNothing (f (s.cursor.peek 0)) s := Iff.rfl

theorem not_findsNothing (h : Emits p (·.isSome = true)) : ¬ FindsNothing p s := by
  rintro ⟨t, ht, -⟩
  exact nomatch h s none t ht

/-- Where only an operand that is missing leads to none, there is none to be found. -/
theorem findsNothing_bind (hnone : ∀ t, FindsNothing (f none) t ↔ t.cursor.rest = [])
    (hsome : ∀ e, Emits (f (some e)) (·.isSome = true)) :
    FindsNothing (p >>= f) s ↔ FindsNothing p s := by
  unfold FindsNothing
  cases hr : p s with
  | error e t => rw [bind_of_error hr]
  | ok e? t =>
    rw [bind_of_ok hr]
    cases e? with
    | none =>
      refine (hnone t).trans ⟨fun h => ⟨t, rfl, h⟩, ?_⟩
      rintro ⟨_, ⟨⟩, h⟩
      exact h
    | some e => exact iff_of_false (not_findsNothing (hsome e)) fun ⟨_, h, _⟩ => nomatch h

end

section

variable {nested side : Parser (Option Expr)} {k n budget : Nat} {s : ParserState} {c : Char}
  {r : List Char}

theorem emits_some_chain (left : Expr) :
    Emits (chain k side budget left) (·.isSome = true) := by
  induction budget generalizing left with
  | zero => exact emits_pure rfl
  | succ budget ih =>
    refine .after fun c? => ?_
    split
    · exact emits_pure rfl
    · refine .after fun _ => .after fun r? => ?_
      cases r? with
      | none => exact emits_missingOperand rfl
      | some r => exact ih _

theorem findsNothing_operation :
    FindsNothing (operation k side budget) s ↔ FindsNothing side s :=
  findsNothing_bind (fun _ => findsNothing_pure) emits_some_chain

theorem findsNothing_comparison : FindsNothing (comparison side) s ↔ FindsNothing side s := by
  refine findsNothing_bind (fun _ => findsNothing_pure) fun l => .after fun op? => ?_
  cases op? with
  | none => exact emits_pure rfl
  | some op =>
    refine .after fun _ => .after fun r? => ?_
    cases r? with
    | none => exact emits_missingOperand rfl
    | some r => exact emits_pure rfl

/-- Behind a token of one character. -/
def shifted (s : ParserState) : ParserState := { s with cursor := s.cursor.advance.skipBlanks }

theorem findsNothing_bracket :
    FindsNothing (bracket nested) s ↔ FindsNothing nested (shifted s) :=
  findsNothing_bind (p := nested) (s := shifted s) (fun _ => findsNothing_missingOperand)
    fun _ => .after fun _ => emits_pure rfl

theorem rest_shifted (hs : s.cursor.rest = c :: r) :
    (shifted s).cursor.rest = r.dropWhile Text.isBlank := by
  show (s.cursor.advance.skipBlanks).rest = _
  rw [Cursor.rest_skipBlanks]
  show (s.cursor.rest.drop 1).dropWhile _ = _
  rw [hs]
  rfl

/-- Behind a sign or an opening bracket nothing is there if there is nothing with it. -/
theorem vacant_shifted (hs : s.cursor.rest = c :: r) (hc : c = '(' ∨ c = '-' ∨ c = '+') :
    Vacant (shifted s).cursor.rest ↔ Vacant s.cursor.rest := by
  rw [rest_shifted hs, vacant_dropWhile, hs, vacant_cons hc]

theorem length_shifted (hs : s.cursor.rest = c :: r) (hk : s.cursor.rest.length ≤ k + 1) :
    (shifted s).cursor.rest.length ≤ k := by
  rw [hs, List.length_cons] at hk
  rw [rest_shifted hs]
  exact (List.dropWhile_sublist _).length_le.trans (Nat.le_of_succ_le_succ hk)

/-- In front of few enough characters, the parser finds nothing exactly if nothing is there. -/
def FindsVacancy (k : Nat) (p : Parser (Option Expr)) : Prop :=
  ∀ s, s.cursor.AtToken → s.cursor.rest.length ≤ k →
    (FindsNothing p s ↔ Vacant s.cursor.rest)

theorem FindsVacancy.shifted (h : FindsVacancy k nested) (hs : s.cursor.rest = c :: r)
    (hk : s.cursor.rest.length ≤ k + 1) (hc : c = '(' ∨ c = '-' ∨ c = '+') :
    FindsNothing nested (shifted s) ↔ Vacant s.cursor.rest :=
  (h _ (Cursor.atToken_skipBlanks _) (length_shifted hs hk)).trans (vacant_shifted hs hc)

/-- Where there is no sign, an operand is missing if a bracket holds none, and at the end. -/
theorem findsNothing_operand (h : FindsVacancy k nested) (hs : s.cursor.AtToken)
    (hk : s.cursor.rest.length ≤ k + 1) (hminus : s.cursor.peek 0 ≠ some '-')
    (hplus : s.cursor.peek 0 ≠ some '+') :
    FindsNothing (operand nested budget) s ↔ Vacant s.cursor.rest := by
  rw [operand, findsNothing_peek]
  cases hc : s.cursor.peek 0 with
  | none =>
    have hnil := Cursor.rest_eq_nil_of_peek hc
    rw [hnil]
    exact iff_of_true (findsNothing_pure.2 hnil) vacant_nil
  | some c =>
    obtain ⟨r, hr⟩ := Cursor.exists_rest_of_peek hc
    have hother (hopen : c ≠ '(') : ¬ Vacant s.cursor.rest := by
      rw [hr]
      refine not_vacant_cons (hs c hc) ⟨hopen, ?_, ?_⟩
      · rintro rfl
        exact hminus hc
      · rintro rfl
        exact hplus hc
    show FindsNothing (if c = '(' then _ else if c = '"' then _ else if Text.isNumeral c then _ else
      if c.isAlpha then _ else if c = '=' then _ else _) s ↔ _
    split_ifs with hopen
    · subst hopen
      exact findsNothing_bracket.trans (h.shifted hr hk (.inl rfl))
    · exact iff_of_false (not_findsNothing (.after fun _ => emits_pure rfl)) (hother hopen)
    · exact iff_of_false (not_findsNothing (.after fun _ => emits_pure rfl)) (hother hopen)
    · refine iff_of_false (not_findsNothing (.after fun _ => .after fun c? => ?_)) (hother hopen)
      split
      · exact .after fun _ => .after fun _ => .after fun _ => emits_pure rfl
      · exact emits_pure rfl
    · refine iff_of_false (not_findsNothing ?_) (hother hopen)
      exact .after fun _ => .after fun _ => emits_pure rfl
    · refine iff_of_false (fun hnothing => ?_) (hother hopen)
      rw [findsNothing_pure.1 hnothing] at hr
      cases hr

theorem findsVacancy_signed (h : FindsVacancy k nested) (hk : n ≤ k + 1) :
    FindsVacancy n (signed (operand nested budget) n) := by
  induction n with
  | zero =>
    intro s _ hn
    have hnil : s.cursor.rest = [] := List.length_eq_zero_iff.1 (Nat.le_zero.1 hn)
    rw [hnil]
    exact iff_of_true (findsNothing_pure.2 hnil) vacant_nil
  | succ n ih =>
    intro s hs hn
    have ih := ih (Nat.le_of_succ_le hk)
    rw [signed, findsNothing_peek]
    split
    · rename_i hc
      obtain ⟨r, hr⟩ := Cursor.exists_rest_of_peek hc
      refine Iff.trans ?_ (ih.shifted hr hn (.inr (.inl rfl)))
      exact findsNothing_bind (p := signed _ n) (s := shifted s)
        (fun _ => findsNothing_missingOperand) fun _ => emits_pure rfl
    · rename_i hc
      obtain ⟨r, hr⟩ := Cursor.exists_rest_of_peek hc
      exact ih.shifted hr hn (.inr (.inr rfl))
    · rename_i hminus hplus
      exact findsNothing_operand h hs (hn.trans hk) hminus hplus

/-- **An expression is missing exactly where nothing is there.** -/
theorem findsVacancy_expression (budget : Nat) : FindsVacancy budget (expression budget) := by
  induction budget with
  | zero =>
    intro s _ hn
    have hnil : s.cursor.rest = [] := List.length_eq_zero_iff.1 (Nat.le_zero.1 hn)
    rw [hnil]
    exact iff_of_true (findsNothing_pure.2 hnil) vacant_nil
  | succ budget ih =>
    intro s hs hn
    have hsigned : FindsVacancy (budget + 1)
        (signed (operand (expression budget) (budget + 1)) (budget + 1)) :=
      findsVacancy_signed ih (Nat.le_refl _)
    refine Iff.trans ?_ (hsigned s hs hn)
    exact findsNothing_comparison.trans (findsNothing_operation.trans
      (findsNothing_operation.trans findsNothing_operation))

end

/-! ## Formulas -/

/-- What is behind the mark of a formula, if there is one, and behind the blanks around it. -/
def unmarked (s : List Char) : List Char :=
  match s.dropWhile Text.isBlank with
  | '=' :: r => r.dropWhile Text.isBlank
  | r => r

section

variable {budget : Nat} {s : ParserState} {e : SyntaxError} {source : String}

theorem marker_eq (s : ParserState) : ∃ t, marker s = .ok () t ∧ s.cursor.Reaches t.cursor ∧
    t.cursor.AtToken ∧ t.cursor.rest = unmarked s.cursor.rest := by
  let t : ParserState := { s with cursor := s.cursor.skipBlanks }
  have hreaches : s.cursor.Reaches t.cursor := reaches_skipBlanks s.cursor
  have hmarker (f : Option Char → Parser Unit) :
      (move Cursor.skipBlanks >>= fun _ => peek >>= f) s = f (t.cursor.peek 0) t := rfl
  unfold unmarked
  rw [marker, hmarker, ← Cursor.rest_skipBlanks]
  by_cases hc : t.cursor.peek 0 = some '='
  · obtain ⟨r, hr⟩ := Cursor.exists_rest_of_peek hc
    rw [hc, show s.cursor.skipBlanks.rest = '=' :: r from hr]
    exact ⟨shifted t, rfl, hreaches.trans (advancesAt_shift hc), Cursor.atToken_skipBlanks _,
      rest_shifted hr⟩
  · refine ⟨t, ?_, hreaches, Cursor.atToken_skipBlanks _, ?_⟩
    · generalize t.cursor.peek 0 = c? at hc
      split
      · exact absurd rfl hc
      · rfl
    · split
      · rename_i r hr
        exact absurd (congrArg (·[0]?) hr) hc
      · rfl

/-- What is left to do behind the expression of a formula. -/
def conclude (e? : Option Expr) : Parser Expr := do
  match ← peek, e? with
  | some c, _ => fault (.unexpected c)
  | none, some e => return e
  | none, none => throw .emptyFormula

theorem conclude_of_peek {x : Char} (h : s.cursor.peek 0 = some x) (e? : Option Expr) :
    conclude e? s = .error (.unexpected x s.cursor.position) s := by
  show (match s.cursor.peek 0, e? with
    | some c, _ => _ | none, some e => _ | none, none => _ : Parser Expr) s = _
  rw [h]
  cases e? <;> rfl

theorem conclude_of_end (h : s.cursor.peek 0 = none) (e? : Option Expr) :
    conclude e? s = match e? with
      | some e => .ok e s
      | none => .error .emptyFormula s := by
  show (match s.cursor.peek 0, e? with
    | some c, _ => _ | none, some e => _ | none, none => _ : Parser Expr) s = _
  rw [h]
  cases e? <;> rfl

/-- Either nothing is there and reading says so, or it fails only with a cause that has a place. -/
theorem formula_cases (hbudget : s.cursor.rest.length ≤ budget) :
    (Vacant (unmarked s.cursor.rest) ∧ ∃ t, formula budget s = .error .emptyFormula t) ∨
      ¬ Vacant (unmarked s.cursor.rest) ∧
        ∀ e t, formula budget s = .error e t → ∃ d, s.cursor.Reaches d ∧ e.At d := by
  obtain ⟨t, hmarker, hreaches, htoken, hrest⟩ := marker_eq s
  have hvacancy := findsVacancy_expression budget t htoken (hreaches.length_le.trans hbudget)
  have hblames : Ends t.cursor (expression budget t) := blames_expression budget t htoken
  have hformula : formula budget s = (expression budget >>= conclude) t :=
    bind_of_ok (f := fun _ => expression budget >>= conclude) hmarker
  rw [← hrest, ← hvacancy, hformula, FindsNothing]
  cases hexpression : expression budget t with
  | error e t' =>
    rw [hexpression] at hblames
    rw [bind_of_error hexpression]
    obtain ⟨d, hd, he⟩ := hblames
    refine .inr ⟨fun ⟨_, h, _⟩ => (nomatch h), ?_⟩
    rintro e' t'' ⟨⟩
    exact ⟨d, hreaches.trans hd, he⟩
  | ok e? t' =>
    rw [hexpression] at hblames
    rw [bind_of_ok hexpression]
    obtain ⟨hd, htoken'⟩ := hblames
    cases hc : t'.cursor.peek 0 with
    | some c =>
      rw [conclude_of_peek hc]
      refine .inr ⟨?_, ?_⟩
      · rintro ⟨_, ⟨⟩, hnil⟩
        exact Cursor.rest_ne_nil_of_peek hc hnil
      · rintro e' t'' ⟨⟩
        exact ⟨_, hreaches.trans hd, at_unexpected htoken' hc⟩
    | none =>
      rw [conclude_of_end hc]
      cases e? with
      | some e => exact .inr ⟨fun ⟨_, h, _⟩ => (nomatch h), nofun⟩
      | none => exact .inl ⟨⟨t', rfl, Cursor.rest_eq_nil_of_peek hc⟩, t', rfl⟩

end

/-- **A source is rejected because it holds no operand, or for a cause that has a place.** This place
is within the source, and at its end only where the name of a formula is missing; a character that
is quoted stands there, and is no blank. -/
theorem parse_rejected (source : String) :
    (Expr.parse source = .error .emptyFormula ↔ Vacant (unmarked source.toList)) ∧
      ∀ e, Expr.parse source = .error e →
        (e = .emptyFormula ∧ e.position? = none) ∨
          ∃ p, e.position? = some p ∧ p ≤ source.length ∧
            (p = source.length → e = .missingFormulaName p) ∧
            ∀ c q, e = .unexpected c q ∨ e = .unclosedCall c q →
              source.toList[p]? = some c ∧ Text.isBlank c = false := by
  have hbudget : (Cursor.start source).rest.length ≤ source.length :=
    Nat.le_of_eq String.length_toList
  simp only [Expr.parse_eq_error_iff]
  rcases formula_cases (s := ⟨.start source, []⟩) hbudget with ⟨hvacant, t, ht⟩ | ⟨hnot, hplace⟩
  · refine ⟨iff_of_true ⟨t, ht⟩ hvacant, fun e ⟨s, hs⟩ => .inl ?_⟩
    rw [ht] at hs
    cases hs
    exact ⟨rfl, rfl⟩
  · refine ⟨iff_of_false (fun ⟨t, ht⟩ => ?_) hnot, fun e ⟨s, hs⟩ => .inr ?_⟩
    · obtain ⟨d, -, hd⟩ := hplace _ t ht
      exact nomatch hd.position
    · obtain ⟨d, hreaches, hd⟩ := hplace e s hs
      have hlength : d.position + d.rest.length = 0 + source.toList.length := hreaches.position_add
      rw [String.length_toList] at hlength
      refine ⟨d.position, hd.position, by omega, fun hend => hd.atEnd ?_, fun c q he => ?_⟩
      · exact List.length_eq_zero_iff.1 (by omega)
      · obtain ⟨hc, hblank⟩ := hd.quoted c q he
        exact ⟨(hreaches.getElem? rfl).trans hc, hblank⟩

/-- A source of signs and brackets, and a parenthesis where an operand is missing. -/
theorem parse_rejected_signs : Expr.parse " = (-" = .error .emptyFormula ∧
    ∃ p, (SyntaxError.unexpected ')' 4).position? = some p ∧ "=2* )".toList[p]? = some ')' := by
  refine ⟨(parse_rejected " = (-").1.2 (by decide), ?_⟩
  have hparse : Expr.parse "=2* )" = .error (.unexpected ')' 4) := rfl
  obtain ⟨p, hp, -, -, hquoted⟩ := ((parse_rejected "=2* )").2 _ hparse).resolve_left nofun
  exact ⟨p, hp, (hquoted ')' 4 (.inl rfl)).1⟩

end Parser

end Formulary
