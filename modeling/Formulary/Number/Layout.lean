import Formulary.Number.Decimal

/-!
# Writing numbers

A number is written from its shortest decimal in one of two layouts: *positional*, with the point
among the digits and as many zeros as it takes, or *scientific*, with one digit before the point
and an exponent. Formulas know only the positional layout (`Binary64.positional`); messages, traces
and answers use the scientific one for very large and very small numbers (`Binary64.display`).

The digits are those of the significand; `Decimal.point` says how many of them stand before the
point, which may be none or more than there are.
-/

namespace Formulary

namespace Decimal

/-- The digits of the significand. -/
def digits (d : Decimal) : List Char := Nat.toDigits 10 d.significand

/-- The number of digits before the point; negative if zeros come between the point and the
first digit. -/
def point (d : Decimal) : Int := d.digits.length + d.exponent

/-- Written with the point in its place and at least one digit on either side of it. -/
def positional (d : Decimal) : List Char :=
  if 0 ≤ d.exponent then d.digits ++ List.replicate d.exponent.toNat '0' ++ ['.', '0']
  else if 0 < d.point then
    d.digits.take d.point.toNat ++ '.' :: d.digits.drop d.point.toNat
  else '0' :: '.' :: (List.replicate (-d.point).toNat '0' ++ d.digits)

/-- An exponent of ten: the sign always, and at least two digits. -/
def exponentText (e : Int) : List Char :=
  let digits := Nat.toDigits 10 e.natAbs
  'e' :: (if e < 0 then '-' else '+') :: (if digits.length < 2 then '0' :: digits else digits)

/-- Written with one digit before the point, and no point if there is no other digit. -/
def scientific (d : Decimal) : List Char :=
  let mantissa := match d.digits with
    | first :: second :: more => first :: '.' :: second :: more
    | digits => digits
  mantissa ++ exponentText (d.point - 1)

/-- From one ten-thousandth up to ten to the sixteenth a number is displayed positionally. -/
def display (d : Decimal) : List Char :=
  if -4 < d.point ∧ d.point ≤ 16 then d.positional else d.scientific

end Decimal

/-- The text of a double, given the layout of its decimal: a sign only before a negative number,
`-0.0` included. -/
def Binary64.write (layout : Decimal → List Char) (x : Float) : List Char :=
  let rank := Binary64.rank x
  if Binary64.infinity < rank then ['n', 'a', 'n']
  else
    let magnitude :=
      if rank = Binary64.infinity then ['i', 'n', 'f'] else layout (Decimal.shortest rank)
    if Binary64.isNegative x then '-' :: magnitude else magnitude

/-- A number as formulas write it, without exponents. -/
def Binary64.positional (x : Float) : List Char := write Decimal.positional x

/-- A number as messages and answers show it. -/
def Binary64.display (x : Float) : List Char := write Decimal.display x

end Formulary
