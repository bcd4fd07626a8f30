/-!
# The doubles, counted by magnitude

The finite doubles that are not negative, in ascending order, are numbered 0, 1, 2, …; this
*rank* is also their bit pattern. Infinity has the first rank after them. Every such double is a
whole number of *units* of 2⁻¹⁰⁷⁴, the least positive double, so that all questions about the exact
value of a double are questions about natural numbers.

* `units k` is the exact value of the double of rank `k`;
* `nearest n d` is the rank of the double nearest to the fraction `n / d`, of two equally near the
  one of even rank, and infinity beyond the largest finite double;
* `ofInt?` converts an integer, if it is not too large;
* `order` compares two doubles by their ranks.

Main statements: `roundDiv_mul` (a whole quotient is kept) and `nearest_le_infinity`.
-/

namespace Formulary.Binary64

/-- The number of doubles between one power of two and the next. -/
@[irreducible] def binade : Nat := Nat.pow 2 52

/-- The rank of infinity. -/
@[irreducible] def infinity : Nat := 2047 * binade

/-- The number of units of 2⁻¹⁰⁷⁴ in one. -/
@[irreducible] def one : Nat := Nat.pow 2 1074

/-- The exact value of the double of rank `k`, in units of 2⁻¹⁰⁷⁴. The first two binades are as
dense as the units; from there on the spacing doubles with each binade. -/
def units (k : Nat) : Nat :=
  if k < binade then k else (binade + k % binade) * Nat.pow 2 (k / binade - 1)

/-- The whole number nearest to `n / d`; a half goes to the even neighbour. -/
def roundDiv (n d : Nat) : Nat :=
  let q := n / d
  let twice := 2 * (n % d)
  if twice < d then q else if d < twice then q + 1 else q + q % 2

/-- The rank of the double nearest to `n / d`. With `e` binades skipped, the quotient in units
of 2ᵉ has at most 53 bits, and rounding it counts on from there: a carry runs into the next
binade by itself. -/
@[irreducible] def nearest (n d : Nat) : Nat :=
  let m := one * n
  let e := (m / d).log2 - 52
  min infinity (binade * e + roundDiv m (d * Nat.pow 2 e))

theorem roundDiv_mul (q : Nat) {d : Nat} (hd : 0 < d) : roundDiv (q * d) d = q := by
  simp [roundDiv, Nat.mul_div_cancel _ hd, hd]

/-- Rounding goes to one of the two whole numbers around the quotient. -/
theorem roundDiv_eq_or (n d : Nat) : roundDiv n d = n / d ∨ roundDiv n d = n / d + 1 := by
  simp only [roundDiv]
  have := Nat.mod_two_eq_zero_or_one (n / d)
  split
  · exact .inl rfl
  · split
    · exact .inr rfl
    · omega

theorem nearest_le_infinity (n d : Nat) : nearest n d ≤ infinity := by
  rw [nearest]; exact Nat.min_le_left _ _

/-! ## Doubles -/

/-- The double with this rank and sign. -/
def toFloat (negative : Bool) (rank : Nat) : Float :=
  Float.ofBits (UInt64.ofNat (if negative then Nat.pow 2 63 + rank else rank))

/-- The rank of a double's magnitude. Ranks beyond `infinity` are no numbers. -/
def rank (x : Float) : Nat := x.toBits.toNat % Nat.pow 2 63

/-- The sign bit of a double. -/
def isNegative (x : Float) : Bool := Nat.pow 2 63 ≤ x.toBits.toNat

/-- The double nearest to an integer, unless the integer is beyond them all. -/
def ofInt? (i : Int) : Option Float :=
  let k := nearest i.natAbs 1
  if k = infinity then none else some (toFloat (i < 0) k)

/-! ## Order -/

/-- Whether the double is no number. -/
def isNaN (x : Float) : Bool := infinity < rank x

/-- The rank with the sign of the double. Both zeros have 0. -/
def signedRank (x : Float) : Int := if isNegative x then -(rank x : Int) else rank x

/-- How two doubles compare. What is no number compares with nothing. -/
def order (x y : Float) : Option Ordering :=
  if isNaN x || isNaN y then none else some (compare (signedRank x) (signedRank y))

end Formulary.Binary64
