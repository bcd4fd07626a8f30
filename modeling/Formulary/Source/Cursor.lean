import Formulary.Expr.Basic
import Formulary.Number.Numeral
import Formulary.Source.Error
import Formulary.Text.Class
import Formulary.Text.Literal

/-!
# A place in a formula source

A `Cursor` holds what is left to read and how many characters were read. Lexemes (numbers, texts,
names) are read by functions from a cursor to a result and the cursor after it, which is there also
when reading fails.

Main statements: each reader takes a known part of what is left, for instance
`readNumber_snd` (exactly the digits and dots at the cursor).
-/

namespace Formulary

/-- A place in a source. -/
structure Cursor where
  /-- The characters not read yet. -/
  rest : List Char
  /-- The number of characters read. -/
  position : Nat
  deriving DecidableEq, Repr

/-- Reads something at a cursor. -/
abbrev Reader (α : Type) := Cursor → Except SyntaxError α × Cursor

namespace Cursor

/-- The beginning of a source. -/
def start (source : String) : Cursor := ⟨source.toList, 0⟩

/-- The character this far behind the cursor, if the source goes on so far. -/
def peek (c : Cursor) (offset : Nat) : Option Char := c.rest[offset]?

/-- Whether nothing is left. -/
def atEnd (c : Cursor) : Bool := c.rest.isEmpty

/-- The cursor `n` characters further on, even if the source ends before. -/
def skip (c : Cursor) (n : Nat) : Cursor := ⟨c.rest.drop n, c.position + n⟩

/-- The cursor one character further on. -/
def advance (c : Cursor) : Cursor := c.skip 1

/-- The longest run of characters of a class at the cursor. -/
def run (c : Cursor) (p : Char → Bool) : List Char := c.rest.takeWhile p

/-- The cursor behind the blanks. -/
def skipBlanks (c : Cursor) : Cursor := c.skip (c.run Text.isBlank).length

/-! ## Lexemes -/

/-- Reads the run of digits and dots at the cursor as a number. -/
def readNumber : Reader Float := fun c =>
  let numeral := c.run Text.isNumeral
  let next := c.skip numeral.length
  match Binary64.ofNumeral? numeral with
  | some x => (.ok x, next)
  | none => (.error (.invalidNumber c.position), next)

/-- Reads a text, whose opening quote is the character at the cursor, whatever it is. -/
def readText : Reader String := fun c =>
  let inside := c.advance
  match Text.decode inside.rest with
  | (t, some rest) => (.ok (String.ofList t), ⟨rest, inside.position + Text.encodedLength t + 1⟩)
  | (t, none) =>
    (.error (.unclosedText (String.ofList t) c.position),
      ⟨[], inside.position + Text.encodedLength t⟩)

/-- Reads the name of a variable or a function: a letter, then letters, digits and colons. -/
def readName : Reader String := fun c =>
  if (c.peek 0).any Char.isAlpha then
    let name := c.run Text.isNamePart
    (.ok (String.ofList name), c.skip name.length)
  else (.error (.missingName c.position), c)

/-- Reads the name of a formula: letters and digits. -/
def readFormulaName : Reader String := fun c =>
  match c.run Char.isAlphanum with
  | [] => (.error (.missingFormulaName c.position), c)
  | name => (.ok (String.ofList name), c.skip name.length)

/-- Reads a comparison, if there is one; the longer of two that fit. -/
def readComparison (c : Cursor) : Option CompareOp × Cursor :=
  match c.rest with
  | '<' :: '=' :: _ => (some .le, c.skip 2)
  | '<' :: '>' :: _ => (some .ne, c.skip 2)
  | '<' :: _ => (some .lt, c.skip 1)
  | '>' :: '=' :: _ => (some .ge, c.skip 2)
  | '>' :: _ => (some .gt, c.skip 1)
  | '=' :: _ => (some .eq, c.skip 1)
  | _ => (none, c)

/-! ## What readers leave -/

theorem drop_length_takeWhile (p : Char → Bool) (s : List Char) :
    s.drop (s.takeWhile p).length = s.dropWhile p := by
  induction s with
  | nil => rfl
  | cons a s ih => by_cases h : p a <;> simp [h, ih]

/-- What is left behind a run begins with no character of its class. -/
theorem rest_skip_run (c : Cursor) (p : Char → Bool) :
    (c.skip (c.run p).length).rest = c.rest.dropWhile p :=
  drop_length_takeWhile p c.rest

@[simp] theorem rest_skipBlanks (c : Cursor) :
    c.skipBlanks.rest = c.rest.dropWhile Text.isBlank :=
  rest_skip_run c _

/-- A number takes all digits and dots at the cursor, whether or not they make a number. -/
theorem readNumber_snd (c : Cursor) :
    (readNumber c).2 = c.skip (c.run Text.isNumeral).length := by
  simp only [readNumber]
  split <;> rfl

/-- Where there is no comparison, nothing is read. -/
theorem readComparison_none {c d : Cursor} (h : c.readComparison = (none, d)) : d = c := by
  unfold readComparison at h
  split at h <;> cases h
  rfl

end Cursor

end Formulary
