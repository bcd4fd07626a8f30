import Formulary.Proofs.Number.Positional
import Formulary.Proofs.Number.Rounding

/-!
# Decimals are read as the nearest doubles

**A decimal is read as the double nearest to it** (`isReading_toFloat`), of two equally near ones as
the one with an even last bit, and as infinity from half-way between the greatest double and 2¹⁰²⁴
on. No other double is meant by that (`IsReading.unique`): if two were equally near and both even,
the one between them would be nearer.

Rounding is about a fraction of whole numbers, so a distance is compared after it was multiplied by
the denominator (`error_eq`). A double below zero is no nearer than the one of the same rank above
zero.
-/

namespace Formulary

namespace Binary64

/-! ## The nearest double -/

/-- How far a double is from a number, in units. -/
def error (q : ℚ) (x : Float) : ℚ := |q * one - value x|

/-- The double that a number without a sign is read as: the nearest one, of two equally near ones
the one with an even last bit, and infinity where the number lies in the middle between the greatest
double and 2¹⁰²⁴ or further out. -/
structure IsReading (q : ℚ) (x : Float) : Prop where
  sign : isNegative x = false
  infinite : ((2 ^ 1024 - 2 ^ 970 : Nat) : ℚ) ≤ q → rank x = infinity
  finite : q < ((2 ^ 1024 - 2 ^ 970 : Nat) : ℚ) → IsFinite x
  closest : IsFinite x → ∀ y, IsFinite y → error q x ≤ error q y
  even : IsFinite x → ∀ y, IsFinite y → error q y = error q x → value y ≠ value x →
    rank x % 2 = 0

section

variable {x y : Float} {n m : Nat} {q : ℚ}

theorem value_of_sign (hx : isNegative x = false) : value x = units (rank x) := by
  simp [value, hx]

theorem cast_dist (a b : Nat) : ((Nat.dist a b : Nat) : ℚ) = |(a : ℚ) - b| := by
  rcases Nat.le_total a b with h | h
  · rw [Nat.dist_eq_sub_of_le h, Nat.cast_sub h, abs_sub_comm, abs_of_nonneg]
    exact sub_nonneg.2 (Nat.cast_le.2 h)
  · rw [Nat.dist_eq_sub_of_le_right h, Nat.cast_sub h, abs_of_nonneg]
    exact sub_nonneg.2 (Nat.cast_le.2 h)

/-- The distance from a fraction, multiplied by the denominator: that of the magnitudes for a double
without a sign, and their sum for one with a sign. -/
theorem error_eq (hm : 0 < m) (y : Float) :
    error (n / m) y * m =
      ((if isNegative y then one * n + units (rank y) * m
        else Nat.dist (one * n) (units (rank y) * m) : Nat) : ℚ) := by
  have hpos : (0 : ℚ) < m := Nat.cast_pos.2 hm
  have hmul (v : ℚ) : |(n / m : ℚ) * one - v| * m = |(one : ℚ) * n - v * m| := by
    rw [← abs_of_pos hpos, ← abs_mul, abs_of_pos hpos, sub_mul, mul_right_comm,
      div_mul_cancel₀ _ hpos.ne', mul_comm (n : ℚ)]
  rw [error, hmul]
  cases hy : isNegative y with
  | false =>
    rw [value_of_sign hy, if_neg Bool.false_ne_true, cast_dist]
    push_cast
    rfl
  | true =>
    have hvalue : value y = -(units (rank y) : Int) := by simp [value, hy]
    rw [hvalue, if_pos rfl]
    push_cast
    rw [neg_mul, sub_neg_eq_add]
    exact abs_of_nonneg (by positivity)

theorem dist_le_error (hm : 0 < m) (y : Float) :
    (Nat.dist (one * n) (units (rank y) * m) : ℚ) ≤ error (n / m) y * m := by
  rw [error_eq hm, Nat.cast_le]
  split
  · simp only [Nat.dist]
    omega
  · exact Nat.le_refl _

theorem nearest_eq_infinity_iff_le (hm : 0 < m) :
    nearest n m = infinity ↔ ((2 ^ 1024 - 2 ^ 970 : Nat) : ℚ) ≤ n / m := by
  have hone : 0 < 2 * one := by
    obtain ⟨p, hp, -⟩ := Decimal.exact_eq
    rw [hp]
    exact Nat.mul_pos Nat.two_pos (Nat.two_pow_pos p)
  rw [le_div_iff₀ (Nat.cast_pos.2 hm), ← Nat.cast_mul, Nat.cast_le, nearest_eq_infinity_iff n hm,
    units_middle]
  generalize 2 ^ 1024 - 2 ^ 970 = k
  rw [Nat.mul_right_comm, ← Nat.mul_assoc 2, Nat.mul_comm (2 * one) n]
  exact Nat.mul_le_mul_right_iff hone

/-- **A fraction is rounded to the double that it is to be read as.** -/
theorem isReading_nearest (n : Nat) (hm : 0 < m) :
    IsReading (n / m) (toFloat false (nearest n m)) := by
  have hle := nearest_le_infinity n m
  have hrank : rank (toFloat false (nearest n m)) = nearest n m := rank_toFloat hle
  have hsign : isNegative (toFloat false (nearest n m)) = false := isNegative_toFloat hle
  have hpos : (0 : ℚ) < m := Nat.cast_pos.2 hm
  have hpreferred {k : Nat} (hk : k ≤ infinity) := preferred_nearest n hm hk
  have herror := error_eq (n := n) hm (toFloat false (nearest n m))
  rw [hrank, hsign, if_neg Bool.false_ne_true] at herror
  refine ⟨hsign, ?_, ?_, ?_, ?_⟩
  · rw [hrank]
    exact (nearest_eq_infinity_iff_le hm).2
  · rw [← not_le, ← nearest_eq_infinity_iff_le hm, IsFinite, hrank]
    omega
  · intro _ y hy
    refine le_of_mul_le_mul_right ?_ hpos
    rw [herror]
    exact (Nat.cast_le.2 (hpreferred (Nat.le_of_lt hy)).closest).trans (dist_le_error hm y)
  · intro _ y hy htie hvalue
    have hother := error_eq (n := n) hm y
    rw [htie, herror, Nat.cast_inj] at hother
    rw [value_of_sign hsign, hrank] at hvalue
    rw [hrank]
    by_cases hs : isNegative y = true
    · -- below zero a double is as near only if it is zero, so the zero without a sign is as near
      have hzero := hpreferred (Nat.zero_le infinity)
      have hclosest := hzero.closest
      rw [if_pos hs] at hother
      simp only [units_zero, Nat.zero_mul, Nat.dist_zero_right] at hclosest
      have hunits : units (rank y) = 0 :=
        (Nat.mul_eq_zero.1 (by omega)).resolve_right (Nat.ne_of_gt hm)
      refine hzero.even ?_ ?_
      · simp only [units_zero, Nat.zero_mul, Nat.dist_zero_right]
        omega
      · rintro hrank
        rw [← hrank, units_zero] at hvalue
        exact hvalue (by simp [value, hunits])
    · rw [if_neg hs] at hother
      rw [value_of_sign (Bool.eq_false_iff.2 hs)] at hvalue
      exact (hpreferred (Nat.le_of_lt hy)).even hother.symm fun hk => hvalue (by rw [hk])

/-- Two doubles that are equally near are both even, and one in the middle between them is nearer. -/
theorem IsReading.not_rank_lt (hx : IsReading q x) (hy : IsReading q y) (hxfin : IsFinite x)
    (hyfin : IsFinite y) : ¬ rank x < rank y := by
  intro hlt
  have hequal := le_antisymm (hx.closest hxfin y hyfin) (hy.closest hyfin x hxfin)
  have hvalue : value x ≠ value y := by
    rw [value_of_sign hx.sign, value_of_sign hy.sign]
    exact_mod_cast (units_strictMono hlt).ne
  have hxeven := hx.even hxfin y hyfin hequal.symm hvalue.symm
  have hyeven := hy.even hyfin x hxfin hequal hvalue
  have hfin : rank x + 1 < infinity := Nat.lt_trans (by omega) hyfin
  have hrank : rank (toFloat false (rank x + 1)) = rank x + 1 := rank_toFloat hfin.le
  have hsign : isNegative (toFloat false (rank x + 1)) = false := isNegative_toFloat hfin.le
  have hclosest := hx.closest hxfin (toFloat false (rank x + 1)) (by rwa [IsFinite, hrank])
  have hlow : (units (rank x) : ℚ) < units (rank x + 1) :=
    Nat.cast_lt.2 (units_strictMono (Nat.lt_succ_self _))
  have hhigh : (units (rank x + 1) : ℚ) < units (rank y) :=
    Nat.cast_lt.2 (units_strictMono (by omega))
  unfold error at hclosest hequal
  rw [value_of_sign hx.sign, value_of_sign hsign, hrank] at hclosest
  rw [value_of_sign hx.sign, value_of_sign hy.sign] at hequal
  simp only [Int.cast_natCast] at hclosest hequal
  rcases abs_eq_abs.1 hequal with h | h
  · linarith
  · rw [abs_of_nonneg (by linarith : 0 ≤ q * one - units (rank x))] at hclosest
    exact absurd (abs_lt.2 ⟨by linarith, by linarith⟩) (not_lt.2 hclosest)

/-- **No two doubles are meant by one number.** -/
theorem IsReading.unique (hx : IsReading q x) (hy : IsReading q y) : x = y := by
  suffices h : rank x = rank y by rw [← toFloat_rank hx.sign, h, toFloat_rank hy.sign]
  rcases le_or_gt ((2 ^ 1024 - 2 ^ 970 : Nat) : ℚ) q with hq | hq
  · rw [hx.infinite hq, hy.infinite hq]
  · have hxfin := hx.finite hq
    have hyfin := hy.finite hq
    exact Nat.le_antisymm (not_lt.1 (hy.not_rank_lt hx hyfin hxfin))
      (not_lt.1 (hx.not_rank_lt hy hxfin hyfin))

end

end Binary64

namespace Decimal

/-! ## Decimals -/

theorem value_eq_div (d : Decimal) : d.value = d.numerator / d.denominator := by
  obtain ⟨s, e⟩ := d
  obtain ⟨k, rfl | rfl⟩ := e.eq_nat_or_neg
  · simp [value, numerator, denominator]
  · simp [value, numerator, denominator, div_eq_mul_inv]

/-- **A decimal is read as the double nearest to it.** -/
theorem isReading_toFloat (d : Decimal) : Binary64.IsReading d.value d.toFloat := by
  rw [value_eq_div]
  refine Binary64.isReading_nearest d.numerator ?_
  rw [denominator, Nat.pow_eq]
  exact Nat.pow_pos (by decide)

end Decimal

end Formulary
