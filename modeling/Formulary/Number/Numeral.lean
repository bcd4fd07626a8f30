import Formulary.Number.Decimal

/-!
# Numerals in formulas

A formula holds its numbers as digits with dots among them. Only the first dot counts, and a dot in
front of the first digit does not: `1.2.3` is 1.23, `.5` is 5 and `.1.5` is 15. There are no signs
and no exponents.
-/

namespace Formulary

/-- The value of a digit, or zero. -/
def digitValue (c : Char) : Nat := c.toNat - '0'.toNat

/-- The natural number written by a list of digits. -/
def ofDigits (ds : List Char) : Nat := ds.foldl (fun n c => 10 * n + digitValue c) 0

/-- The decimal with these digits before and after the point. -/
def Decimal.ofParts (whole fraction : List Char) : Decimal :=
  ⟨ofDigits (whole ++ fraction), -fraction.length⟩

namespace Binary64

/-- The digits of a numeral before and after its point. A dot in front is no point, and neither
is any dot after the first. -/
def numeralParts (s : List Char) : List Char × List Char :=
  match s with
  | '.' :: rest => (rest.filter (· != '.'), [])
  | s => (s.takeWhile (· != '.'), (s.dropWhile (· != '.')).filter (· != '.'))

/-- The number written by a run of digits and dots, if it has a digit. -/
def ofNumeral? (s : List Char) : Option Float :=
  match numeralParts s with
  | ([], []) => none
  | (whole, fraction) => some (Decimal.ofParts whole fraction).toFloat

end Binary64

end Formulary
