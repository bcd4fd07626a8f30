import Formulary.Number.Binary64

/-!
# Decimals and doubles

A decimal is a whole number of some power of ten. `Decimal.nearest` reads one as a double;
`Decimal.shortest` goes back: of the decimals that read as a given double, those with the fewest
digits, and of these the nearest.

A decimal with fewer digits is one on a coarser grid, so the search goes from coarse powers of ten
to fine ones. On each grid only the two points around the double can read back to it, because
reading is monotone. On the grid of 10⁻¹⁰⁷⁴ every double is a point, which ends the search.

Main statement: `nearest_shortestFrom`, that what the search returns reads back or is exact.
-/

namespace Formulary

/-- The number `significand · 10 ^ exponent`. -/
structure Decimal where
  significand : Nat
  exponent : Int
  deriving DecidableEq, Repr

namespace Decimal

/-- The decimal is the fraction `numerator / denominator`. -/
def numerator (d : Decimal) : Nat := d.significand * Nat.pow 10 d.exponent.toNat

/-- The power of ten below the fraction bar. -/
def denominator (d : Decimal) : Nat := Nat.pow 10 (-d.exponent).toNat

/-- The rank of the double nearest to the decimal. -/
def nearest (d : Decimal) : Nat := Binary64.nearest d.numerator d.denominator

/-- The double nearest to the decimal. -/
def toFloat (d : Decimal) : Float := Binary64.toFloat false d.nearest

/-! ## The shortest decimal of a double -/

/-- The exact value of the double of rank `k`, which has at most 1074 places. -/
@[irreducible] def exact (k : Nat) : Decimal := ⟨Binary64.units k * Nat.pow 5 1074, -1074⟩

/-- Of two neighbours, the one that reads as the double of rank `k`; if both do, the third. -/
def pick (k : Nat) (below above nearer : Decimal) : Option Decimal :=
  if below.nearest = k then if above.nearest = k then some nearer else some below
  else if above.nearest = k then some above else none

/-- Of the two multiples of `10 ^ e` around the double of rank `k`, the one that reads as that
double, if one does. If both do, it is the nearer one; a tie goes to the even one. -/
def onGrid? (k : Nat) (e : Int) : Option Decimal :=
  let n := Binary64.units k * Nat.pow 10 (-e).toNat
  let d := Binary64.one * Nat.pow 10 e.toNat
  pick k ⟨n / d, e⟩ ⟨n / d + 1, e⟩ ⟨Binary64.roundDiv n d, e⟩

/-- The first grid from `10 ^ e` downwards that has a decimal for the double of rank `k`, tried on
`steps` grids. -/
def shortestFrom (k : Nat) : (steps : Nat) → (e : Int) → Decimal
  | 0, _ => exact k
  | steps + 1, e =>
    match onGrid? k e with
    | some d => d
    | none => shortestFrom k steps (e - 1)

/-- A power of ten above the double of rank `k`, from the number of its bits; `30103 / 100000` is
just above the logarithm of two. -/
def coarsest (k : Nat) : Int := ((Binary64.units k).log2 - 1072) * 30103 / 100000 + 1

/-- The decimal with the fewest digits that reads as the double of rank `k`, and the nearest of
those. -/
def shortest (k : Nat) : Decimal :=
  if k = 0 then ⟨0, 0⟩ else shortestFrom k (coarsest k + 1075).toNat (coarsest k)

/-- What is picked reads back, if the third choice is one of the two neighbours. -/
theorem nearest_of_pick {k : Nat} {below above nearer d : Decimal}
    (h : pick k below above nearer = some d) (hn : nearer = below ∨ nearer = above) :
    d.nearest = k := by
  simp only [pick] at h
  split at h
  next hb =>
    split at h
    next ha =>
      cases h
      rcases hn with rfl | rfl
      · exact hb
      · exact ha
    next => cases h; exact hb
  next =>
    split at h
    next ha => cases h; exact ha
    next => cases h

/-- What is found on a grid reads back. -/
theorem nearest_of_onGrid? {k : Nat} {e : Int} {d : Decimal} (h : onGrid? k e = some d) :
    d.nearest = k :=
  nearest_of_pick h ((Binary64.roundDiv_eq_or _ _).imp (congrArg (mk · e)) (congrArg (mk · e)))

/-- The search returns a decimal that reads back, or the exact value. -/
theorem nearest_shortestFrom (k steps : Nat) (e : Int) :
    (shortestFrom k steps e).nearest = k ∨ shortestFrom k steps e = exact k := by
  induction steps generalizing e with
  | zero => exact .inr rfl
  | succ steps ih =>
    simp only [shortestFrom]
    split
    next d hd => exact .inl (nearest_of_onGrid? hd)
    next => exact ih (e - 1)

end Decimal

end Formulary
