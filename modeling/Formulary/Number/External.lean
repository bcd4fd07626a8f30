import Formulary.Number.Numeral
import Formulary.Text.Class
import Formulary.Text.Digit

/-!
# Numbers from outside

Numbers that are not written in a formula come in a wider notation: with a sign, an exponent and
white space around them, single underscores between digits, and the digits of any script. Doubles
that are not finite come by name. `Binary64.ofText?` reads a double.

A text is first put into plain form (`plain`): digits of any script become those of ASCII, and the
white space around the number goes. What is left is read from left to right.
-/

namespace Formulary

/-! ## Plain form -/

/-- White space that may stand around a number: blanks, and line breaks and tabs. -/
def isMargin (c : Char) : Bool :=
  let n := c.toNat
  Text.isBlank c || (0x09 ≤ n && n ≤ 0x0d) || n == 0x85

/-- A text without the white space around it. -/
def trimMargins (s : List Char) : List Char :=
  ((s.dropWhile isMargin).reverse.dropWhile isMargin).reverse

/-- A number without white space around it and with ASCII digits. -/
def plain (s : String) : List Char := (trimMargins s.toList).map Text.asciiDigit

/-! ## Parts of a number -/

/-- The digits that begin `s` and what follows them. Single underscores may stand between
digits. -/
def digitRun (s : List Char) : List Char × List Char :=
  match s with
  | '_' :: c :: rest =>
    if c.isDigit then
      let (run, rest) := digitRun rest
      (c :: run, rest)
    else ([], s)
  | c :: rest =>
    if c.isDigit then
      let (run, rest) := digitRun rest
      (c :: run, rest)
    else ([], s)
  | [] => ([], [])

/-- The digits that begin `s`, the first without an underscore before it. -/
def leadingDigits (s : List Char) : List Char × List Char :=
  match s with
  | '_' :: _ => ([], s)
  | s => digitRun s

/-- A sign, if there is one, and whether it is a minus. -/
def sign (s : List Char) : Bool × List Char :=
  match s with
  | '-' :: rest => (true, rest)
  | '+' :: rest => (false, rest)
  | s => (false, s)

/-- An integer with an optional sign, and nothing behind it. -/
def integer? (s : List Char) : Option Int :=
  let (negative, body) := sign s
  match leadingDigits body with
  | ([], _) => none
  | (ds, []) => some (if negative then -(ofDigits ds : Int) else ofDigits ds)
  | _ => none

/-- The exponent that ends a number; zero if there is none. -/
def exponent? (s : List Char) : Option Int :=
  match s with
  | [] => some 0
  | c :: rest => if c = 'e' ∨ c = 'E' then integer? rest else none

/-- An exponent moved no further than matters: with `n` digits, the number is already infinite
at the upper bound and zero at the lower one. -/
def clampExponent (n : Nat) (e : Int) : Int := max (-(n + 400 : Int)) (min e (n + 400))

/-! ## Numbers -/

/-- The double of a finite number without sign. -/
def Binary64.magnitude? (s : List Char) : Option Float :=
  let (whole, rest) := leadingDigits s
  let (fraction, rest) := match rest with
    | '.' :: rest => leadingDigits rest
    | rest => ([], rest)
  if whole.isEmpty && fraction.isEmpty then none
  else
    (exponent? rest).map fun e =>
      let d := Decimal.ofParts whole fraction
      let n := whole.length + fraction.length
      (Decimal.mk d.significand (clampExponent n (d.exponent + e))).toFloat

/-- Reads a double: decimal or scientific, or `inf`, `infinity` and `nan` in letters of either
case, with an optional sign. -/
def Binary64.ofText? (s : String) : Option Float :=
  let (negative, body) := sign (plain s)
  let signed (x : Float) : Float := if negative then -x else x
  let name := String.ofList (body.map Char.toLower)
  if name = "inf" ∨ name = "infinity" then
    some (Binary64.toFloat negative Binary64.infinity)
  else if name = "nan" then some (Binary64.toFloat false (Binary64.infinity + Binary64.binade / 2))
  else (Binary64.magnitude? body).map signed

end Formulary
