import Formulary.Proofs.Source.Grammar
import Formulary.Source.Parser

/-!
# Reading a token

`Reads p s q rest` says that the parser `p` reads the text `s` in front of `rest` and then goes on as
`q` does, keeping nothing. Sequences of parsers read texts one after the other (`Reads.bind`).

A token is read to its end if what follows does not belong to it. The blanks behind it do, so what
follows is a delimiter or the end of the source; `Stops` says so, and says as well from which level
of the grammar on the delimiter does not continue what was read.
-/

namespace Formulary.Parser

open Grammar

/-- The parser reads a text in front of `rest`, and goes on from there as `q` does. -/
def Reads {α : Type} (p : Parser α) (s : List Char) (q : Parser α) (rest : List Char) : Prop :=
  ∀ position kept,
    p ⟨⟨s ++ rest, position⟩, kept⟩ = q ⟨⟨rest, position + s.length⟩, kept⟩

section

variable {α β : Type} {p : Parser α} {q : Parser β} {f : α → Parser β} {a : α}
  {s t rest : List Char} {c : Char}

theorem Reads.refl (p : Parser α) (rest : List Char) : Reads p [] p rest := fun _ _ => rfl

theorem Reads.trans {p q r : Parser α} (hp : Reads p s q (t ++ rest)) (hq : Reads q t r rest) :
    Reads p (s ++ t) r rest := by
  intro position kept
  rw [List.append_assoc, hp, hq, List.length_append, Nat.add_assoc]

theorem Reads.bind (hp : Reads p s (pure a) (t ++ rest)) (hf : Reads (f a) t q rest) :
    Reads (p >>= f) (s ++ t) q rest := by
  intro position kept
  have hp := hp position kept
  have hf := hf (position + s.length) kept
  rw [← List.append_assoc] at hp
  show EStateM.bind p f _ = _
  rw [EStateM.bind, hp, List.length_append, ← Nat.add_assoc]
  exact hf

theorem Reads.bind_refl (hp : Reads p s (pure a) rest) : Reads (p >>= f) s (f a) rest := by
  have h : Reads (p >>= f) (s ++ []) (f a) rest := Reads.bind hp (.refl (f a) rest)
  rwa [List.append_nil] at h

theorem Reads.peek {f : Option Char → Parser β} (h : Reads (f (s ++ rest).head?) s q rest) :
    Reads (Parser.peek >>= f) s q rest := by
  intro position kept
  rw [← h position kept]
  show f ((s ++ rest)[0]?) _ = _
  rw [List.head?_eq_getElem?]

end

/-! ## Characters -/

theorem isBlank_eq_false_of_isAlphanum {c : Char} (h : c.isAlphanum = true) :
    Text.isBlank c = false := by
  simp only [Char.isAlphanum, Char.isAlpha, Char.isUpper, Char.isLower, Char.isDigit,
    Bool.or_eq_true, Bool.and_eq_true, decide_eq_true_eq, ge_iff_le, UInt32.le_iff_toNat_le] at h
  have hc : c.toNat = c.val.toNat := rfl
  refine Text.isBlank_eq_false_of_ne ?_ ?_ <;> simp at h <;> omega

theorem isBlank_eq_false_of_isNamePart {c : Char} (h : Text.isNamePart c = true) :
    Text.isBlank c = false := by
  rw [Text.isNamePart, Bool.or_eq_true, beq_iff_eq] at h
  rcases h with h | rfl
  · exact isBlank_eq_false_of_isAlphanum h
  · rfl

theorem isAlphanum_of_isAlpha {c : Char} (h : c.isAlpha = true) : c.isAlphanum = true := by
  rw [Char.isAlphanum, h, Bool.true_or]

theorem isAlphanum_of_isDigit {c : Char} (h : c.isDigit = true) : c.isAlphanum = true := by
  rw [Char.isAlphanum, h, Bool.or_true]

theorem isNamePart_of_isName {s : List Char} (h : Text.IsName s) :
    ∀ c ∈ s, Text.isNamePart c = true := by
  cases s with
  | nil => exact h.elim
  | cons c s =>
    refine List.forall_mem_cons.2 ⟨?_, h.2⟩
    rw [Text.isNamePart, isAlphanum_of_isAlpha h.1, Bool.true_or]

/-- A character that a derived text may begin with. -/
def Begins (c : Char) : Prop :=
  c.isAlpha ∨ Text.isNumeral c ∨ c ∈ ['"', '=', '(', '-', '+']

theorem Begins.not_blank {c : Char} (h : Begins c) : Text.isBlank c = false := by
  rcases h with h | h | h
  · exact isBlank_eq_false_of_isAlphanum (isAlphanum_of_isAlpha h)
  · rw [Text.isNumeral, Bool.or_eq_true, beq_iff_eq] at h
    rcases h with h | rfl
    · exact isBlank_eq_false_of_isAlphanum (isAlphanum_of_isDigit h)
    · rfl
  · simp only [List.mem_cons, List.not_mem_nil, or_false] at h
    rcases h with rfl | rfl | rfl | rfl | rfl <;> rfl

theorem Begins.ne_greater {c : Char} (h : Begins c) : c ≠ '>' := by
  rintro rfl
  revert h
  unfold Begins
  decide

theorem begins_of_derives {n : Nat} {s : List Char} {e : Expr} (h : Derives n s e) :
    ∃ c t, s = c :: t ∧ Begins c := by
  induction h with
  | @number s b x hs hx hb =>
    cases s with
    | nil => exact absurd hx nofun
    | cons c s => exact ⟨c, s ++ b, rfl, .inr (.inl (hs c List.mem_cons_self))⟩
  | text hb => exact ⟨_, _, rfl, .inr (.inr (by decide))⟩
  | @var name b hname hb =>
    revert hname
    cases name.toList with
    | nil => exact False.elim
    | cons c cs => exact fun hname => ⟨c, cs ++ b, rfl, .inl hname.1⟩
  | reference hb hname hb' => exact ⟨_, _, rfl, .inr (.inr (by decide))⟩
  | bracket hb he hb' ih => exact ⟨_, _, rfl, .inr (.inr (by decide))⟩
  | @call name b b' as hname hb has hlead hempty hcontent hb' ih =>
    revert hname
    cases name.toList with
    | nil => exact False.elim
    | cons c cs => exact fun hname => ⟨c, _, rfl, .inl hname.1⟩
  | minus hb he ih => exact ⟨_, _, rfl, .inr (.inr (by decide))⟩
  | plus hb he ih => exact ⟨_, _, rfl, .inr (.inr (by decide))⟩
  | arith hl hb hr ihl ihr =>
    obtain ⟨c, t, rfl, hc⟩ := ihl
    exact ⟨c, _, rfl, hc⟩
  | compare hl hb hr hop ihl ihr =>
    obtain ⟨c, t, rfl, hc⟩ := ihl
    exact ⟨c, _, rfl, hc⟩
  | loosen hn h ih => exact ih

/-! ## What may follow -/

/-- The characters that may follow an operand and its blanks. -/
def delimiters : List Char := [')', ';', '+', '-', '*', '/', '^', '<', '=', '>']

/-- What is left neither goes on with a lexeme nor with a chain or a comparison at this level. -/
def Stops (level : Nat) (rest : List Char) : Prop :=
  ∀ c ∈ rest.head?, c ∈ delimiters ∧ (∀ op : ArithOp, op.symbol = c → op.strength < level) ∧
    (level = 0 → c ∉ ['<', '=', '>'])

section

variable {m n : Nat} {rest : List Char}

theorem stops_nil : Stops n [] := nofun

theorem stops_cons {c : Char} :
    Stops n (c :: rest) ↔ c ∈ delimiters ∧
      (∀ op : ArithOp, op.symbol = c → op.strength < n) ∧ (n = 0 → c ∉ ['<', '=', '>']) := by
  simp [Stops]

theorem Stops.mono (h : Stops m rest) (hmn : m ≤ n) : Stops n rest := by
  intro c hc
  obtain ⟨hmem, hop, hzero⟩ := h c hc
  exact ⟨hmem, fun op hs => Nat.lt_of_lt_of_le (hop op hs) hmn, fun hn => hzero (by omega)⟩

theorem stops_closing : Stops n (')' :: rest) := by
  refine stops_cons.2 ⟨by decide, fun op => ?_, fun _ => by decide⟩
  cases op <;> nofun

theorem stops_semicolon : Stops n (';' :: rest) := by
  refine stops_cons.2 ⟨by decide, fun op => ?_, fun _ => by decide⟩
  cases op <;> nofun

theorem stops_symbol {op : ArithOp} (h : op.strength < n) : Stops n (op.symbol :: rest) := by
  refine stops_cons.2 ⟨by cases op <;> decide, fun op' hs => ?_, fun hn => by omega⟩
  have h' := ArithOp.ofSymbol?_symbol op'
  rw [hs, ArithOp.ofSymbol?_symbol] at h'
  cases h'
  exact h

theorem stops_comparison (op : CompareOp) : Stops 1 (op.symbol.toList ++ rest) := by
  cases op <;> refine stops_cons.2 ⟨by decide, fun op => ?_, nofun⟩ <;> cases op <;> nofun

/-- No character class that a lexeme is made of, nor that of blanks, goes on. -/
theorem Stops.not_class (h : Stops n rest) {p : Char → Bool} (hp : delimiters.any p = false) :
    ∀ c ∈ rest.head?, p c = false := by
  intro c hc
  exact Bool.eq_false_iff.2 (List.any_eq_false.1 hp c (h c hc).1)

end

/-! ## Tokens -/

section

variable {s b rest : List Char} {c : Char} {p : Char → Bool}

theorem takeWhile_append_stop (hs : ∀ c ∈ s, p c = true) (hr : ∀ c ∈ rest.head?, p c = false) :
    (s ++ rest).takeWhile p = s := by
  rw [List.takeWhile_append_of_pos hs]
  cases rest with
  | nil => simp
  | cons c rest => simp [hr c rfl]

theorem dropWhile_append_stop (hs : ∀ c ∈ s, p c = true) (hr : ∀ c ∈ rest.head?, p c = false) :
    (s ++ rest).dropWhile p = rest := by
  rw [← Cursor.drop_length_takeWhile, takeWhile_append_stop hs hr, List.drop_left]

theorem exists_run (p : Char → Bool) (x : List Char) :
    ∃ y s, x = y ++ s ∧ (∀ c ∈ y, p c = true) ∧ ∀ c ∈ s.head?, p c = false := by
  refine ⟨x.takeWhile p, x.dropWhile p, List.takeWhile_append_dropWhile.symm,
    fun c hc => List.all_eq_true.1 List.all_takeWhile c hc, fun c hc => ?_⟩
  rw [← List.find?_not_eq_head?_dropWhile] at hc
  simpa using List.find?_some hc

/-- A class without blanks that does not go on behind the blanks does not go on in front of them. -/
theorem head?_append_blank (hb : Blank b) (hp : ∀ c, p c = true → Text.isBlank c = false)
    (hr : ∀ c ∈ rest.head?, p c = false) : ∀ c ∈ (b ++ rest).head?, p c = false := by
  cases b with
  | nil => exact hr
  | cons d b =>
    intro c hc
    cases hc
    by_cases hd : p d = true
    · have hblank := hb d List.mem_cons_self
      rw [hp d hd] at hblank
      exact absurd hblank nofun
    · exact Bool.eq_false_iff.2 hd

theorem skipBlanks_append (hb : Blank b) (hr : ∀ c ∈ rest.head?, Text.isBlank c = false)
    (position : Nat) : (⟨b ++ rest, position⟩ : Cursor).skipBlanks = ⟨rest, position + b.length⟩ := by
  unfold Cursor.skipBlanks Cursor.run Cursor.skip
  rw [takeWhile_append_stop hb hr, List.drop_left]

theorem reads_skipBlanks (hb : Blank b) (hr : ∀ c ∈ rest.head?, Text.isBlank c = false) :
    Reads (move Cursor.skipBlanks) b (pure ()) rest := by
  intro position kept
  show EStateM.Result.ok () (ParserState.mk (Cursor.skipBlanks ⟨b ++ rest, position⟩) kept) = _
  rw [skipBlanks_append hb hr]
  rfl

theorem reads_shift (hb : Blank b) (hr : ∀ c ∈ rest.head?, Text.isBlank c = false) :
    Reads shift (c :: b) (pure ()) rest := by
  intro position kept
  show EStateM.Result.ok () (ParserState.mk (Cursor.skipBlanks ⟨b ++ rest, position + 1⟩) kept) = _
  rw [skipBlanks_append hb hr, Nat.add_assoc, Nat.add_comm 1]
  rfl

theorem reads_lexeme {α : Type} {read : Reader α} {a : α}
    (h : ∀ position, read ⟨s ++ (b ++ rest), position⟩ =
      (.ok a, ⟨b ++ rest, position + s.length⟩))
    (hb : Blank b) (hr : ∀ c ∈ rest.head?, Text.isBlank c = false) :
    Reads (lexeme read) (s ++ b) (pure a) rest := by
  intro position kept
  unfold lexeme
  rw [List.append_assoc, h position]
  show EStateM.Result.ok a (ParserState.mk (Cursor.skipBlanks ⟨b ++ rest, _⟩) kept) = _
  rw [skipBlanks_append hb hr, List.length_append, Nat.add_assoc]
  rfl

theorem readNumber_append {x : Float} (hs : ∀ c ∈ s, Text.isNumeral c = true)
    (hx : Binary64.ofNumeral? s = some x) (hr : ∀ c ∈ rest.head?, Text.isNumeral c = false)
    (position : Nat) :
    Cursor.readNumber ⟨s ++ rest, position⟩ = (.ok x, ⟨rest, position + s.length⟩) := by
  unfold Cursor.readNumber Cursor.run Cursor.skip
  rw [takeWhile_append_stop hs hr]
  simp only [hx, List.drop_left]

theorem readText_append {t : String} (hr : rest.head? ≠ some '"') (position : Nat) :
    Cursor.readText ⟨'"' :: (Text.encode t.toList ++ '"' :: rest), position⟩ =
      (.ok t, ⟨rest, position + ('"' :: (Text.encode t.toList ++ ['"'])).length⟩) := by
  have hdecode := Text.decode_encode t.toList hr
  simp only [Cursor.readText, Cursor.advance, Cursor.skip, List.drop_succ_cons, List.drop_zero,
    hdecode, String.ofList_toList, List.length_cons, List.length_append, List.length_nil,
    Text.length_encode, Prod.mk.injEq, Cursor.mk.injEq, true_and]
  omega

theorem readName_append {name : String} (hname : Text.IsName name.toList)
    (hr : ∀ c ∈ rest.head?, Text.isNamePart c = false) (position : Nat) :
    Cursor.readName ⟨name.toList ++ rest, position⟩ =
      (.ok name, ⟨rest, position + name.toList.length⟩) := by
  have hfirst : ((name.toList ++ rest)[0]?).any Char.isAlpha = true := by
    revert hname
    cases name.toList with
    | nil => exact False.elim
    | cons c cs => exact fun hname => hname.1
  unfold Cursor.readName Cursor.peek Cursor.run Cursor.skip
  rw [if_pos hfirst, takeWhile_append_stop (isNamePart_of_isName hname) hr]
  simp only [String.ofList_toList, List.drop_left]

theorem readFormulaName_append {name : String} (hname : Text.IsFormulaName name.toList)
    (hr : ∀ c ∈ rest.head?, c.isAlphanum = false) (position : Nat) :
    Cursor.readFormulaName ⟨name.toList ++ rest, position⟩ =
      (.ok name, ⟨rest, position + name.toList.length⟩) := by
  unfold Cursor.readFormulaName Cursor.run Cursor.skip
  rw [takeWhile_append_stop hname.2 hr]
  split
  · rename_i hnil
    exact absurd hnil hname.1
  · simp only [String.ofList_toList, List.drop_left]

/-- The shorter comparison is read if nothing makes it a longer one. -/
theorem readComparison_append (op : CompareOp)
    (hop : Extensible op → ∀ c ∈ rest.head?, c ≠ '=' ∧ c ≠ '>') (position : Nat) :
    Cursor.readComparison ⟨op.symbol.toList ++ rest, position⟩ =
      (some op, ⟨rest, position + op.symbol.toList.length⟩) := by
  cases op with
  | lt =>
    cases rest with
    | nil => rfl
    | cons c rest =>
      obtain ⟨h, h'⟩ := hop trivial c rfl
      simp [Cursor.readComparison, CompareOp.symbol, Cursor.skip, h, h']
  | gt =>
    cases rest with
    | nil => rfl
    | cons c rest =>
      obtain ⟨h, -⟩ := hop trivial c rfl
      simp [Cursor.readComparison, CompareOp.symbol, Cursor.skip, h]
  | _ => rfl

theorem reads_comparison? (op : CompareOp)
    (hop : Extensible op → ∀ c ∈ rest.head?, c ≠ '=' ∧ c ≠ '>') :
    Reads comparison? op.symbol.toList (pure (some op)) rest := by
  intro position kept
  show EStateM.Result.ok (Cursor.readComparison ⟨op.symbol.toList ++ rest, position⟩).1
    (ParserState.mk (Cursor.readComparison ⟨op.symbol.toList ++ rest, position⟩).2 kept) = _
  rw [readComparison_append op hop]
  rfl

theorem reads_no_comparison (h : Stops 0 rest) :
    Reads comparison? [] (pure none) rest := by
  have hnone : ∀ position, Cursor.readComparison ⟨rest, position⟩ = (none, ⟨rest, position⟩) := by
    intro position
    cases rest with
    | nil => rfl
    | cons c rest =>
      obtain ⟨-, -, hc⟩ := stops_cons.1 h
      have hc := hc rfl
      simp only [List.mem_cons, List.not_mem_nil, or_false, not_or] at hc
      simp [Cursor.readComparison, hc]
  intro position kept
  show EStateM.Result.ok (Cursor.readComparison ⟨rest, position⟩).1
    (ParserState.mk (Cursor.readComparison ⟨rest, position⟩).2 kept) = _
  rw [hnone]
  rfl

end

end Formulary.Parser
