import Formulary.Number.Layout
import Formulary.Number.Numeral
import Formulary.Proofs.Number.Bits

/-!
# Written numbers are read back

A formula writes a finite number positionally, from the shortest decimal that reads as it. This
module closes the circle: the digits are read as the number they were written for.

* `nearest_mul_mul`: rounding a fraction depends on its value only;
* `nearest_shortest`: the shortest decimal of a finite double reads as that double, because the
  search for it ends at the latest with the exact value;
* `exists_parts_positional`: laying a decimal out and taking the digits apart again changes its
  significand and its exponent together, never its value.

**Theorem (`ofNumeral?_positional`).** The text of a finite double without a sign is a run of digits
with one dot inside, and it reads as that double.
-/

namespace Formulary

namespace Binary64

/-! ## Rounding a fraction -/

theorem roundDiv_mul_mul (n d : Nat) {c : Nat} (hc : 0 < c) :
    roundDiv (n * c) (d * c) = roundDiv n d := by
  have hq : n * c / (d * c) = n / d := Nat.mul_div_mul_right n d hc
  have hr : n * c % (d * c) = n % d * c := Nat.mul_mod_mul_right c n d
  have hlt : 2 * (n % d * c) < d * c ↔ 2 * (n % d) < d := by
    rw [← Nat.mul_assoc]
    exact Nat.mul_lt_mul_right hc
  have hgt : d * c < 2 * (n % d * c) ↔ d < 2 * (n % d) := by
    rw [← Nat.mul_assoc]
    exact Nat.mul_lt_mul_right hc
  simp only [roundDiv, hq, hr, hlt, hgt]

/-- **Rounding depends on the value of a fraction only**, not on how it is written. -/
theorem nearest_mul_mul (n d : Nat) {c : Nat} (hc : 0 < c) :
    nearest (n * c) (d * c) = nearest n d := by
  have hq : one * (n * c) / (d * c) = one * n / d := by
    rw [← Nat.mul_assoc]
    exact Nat.mul_div_mul_right _ d hc
  have hr (e : Nat) : roundDiv (one * (n * c)) (d * c * e) = roundDiv (one * n) (d * e) := by
    rw [← Nat.mul_assoc, Nat.mul_right_comm d c e]
    exact roundDiv_mul_mul _ _ hc
  simp only [nearest, hq, hr]

/-- A fraction that is a whole number of units is rounded as that number of units. -/
theorem nearest_of_units {n d u : Nat} (hd : 0 < d) (h : one * n = u * d) :
    nearest n d =
      min infinity (binade * (u.log2 - 52) + roundDiv u (2 ^ (u.log2 - 52))) := by
  have hr (e : Nat) : roundDiv (u * d) (d * e) = roundDiv u e := by
    rw [Nat.mul_comm d e]
    exact roundDiv_mul_mul u e hd
  simp only [nearest, h, Nat.mul_div_cancel u hd, hr, Nat.pow_eq]

theorem binade_eq : binade = 2 ^ 52 := by rw [binade, Nat.pow_eq]

theorem log2_units {k : Nat} (hk : binade ≤ k) : (units k).log2 = 52 + (k / binade - 1) := by
  have hb := binade_eq
  have hmod : k % binade < binade := Nat.mod_lt k (by omega)
  have hu : units k = (binade + k % binade) * 2 ^ (k / binade - 1) := by
    rw [units, if_neg (by omega), Nat.pow_eq]
  generalize k / binade - 1 = j at hu ⊢
  have hpos : 0 < 2 ^ j := Nat.two_pow_pos j
  have hlow : 2 ^ 52 * 2 ^ j ≤ (binade + k % binade) * 2 ^ j :=
    Nat.mul_le_mul_right _ (by omega)
  have hhigh : (binade + k % binade) * 2 ^ j < 2 ^ 53 * 2 ^ j :=
    Nat.mul_lt_mul_of_pos_right (by omega) hpos
  have hne : (binade + k % binade) * 2 ^ j ≠ 0 := by omega
  rw [hu, Nat.log2_eq_iff hne, show 52 + j + 1 = 53 + j by omega, Nat.pow_add, Nat.pow_add]
  exact ⟨hlow, hhigh⟩

/-- **A whole number of units that is a double rounds to that double.** -/
theorem nearest_units {n d k : Nat} (hd : 0 < d) (hk : k < infinity) (h : one * n = units k * d) :
    nearest n d = k := by
  have hb := binade_eq
  have hdiv := Nat.div_add_mod k binade
  rw [nearest_of_units hd h]
  by_cases hs : k < binade
  · have hu : units k = k := by rw [units, if_pos hs]
    have hlog : k.log2 - 52 = 0 := by
      by_cases h0 : k = 0
      · rw [h0]
        rfl
      · have : k.log2 < 52 := (Nat.log2_lt h0).2 (by omega)
        omega
    have hr : roundDiv k 1 = k := by simpa using roundDiv_mul k Nat.one_pos
    rw [hu, hlog, Nat.pow_zero, hr, Nat.mul_zero, Nat.zero_add]
    omega
  · have hq : 1 ≤ k / binade := (Nat.one_le_div_iff (by omega)).2 (by omega)
    have hr : roundDiv (units k) (2 ^ (k / binade - 1)) = binade + k % binade := by
      rw [units, if_neg hs, Nat.pow_eq]
      exact roundDiv_mul _ (Nat.two_pow_pos _)
    have hsum : binade * (k / binade - 1) + (binade + k % binade) = k := by
      rw [Nat.mul_sub_one]
      have : binade ≤ binade * (k / binade) := Nat.le_mul_of_pos_right _ hq
      omega
    rw [log2_units (by omega), Nat.add_sub_cancel_left, hr, hsum]
    omega

end Binary64

namespace Decimal

/-! ## The shortest decimal reads back -/

/-- The exact value of a double has as many places as the unit has. -/
theorem exact_eq : ∃ p : Nat, Binary64.one = 2 ^ p ∧
    ∀ k, exact k = ⟨Binary64.units k * 5 ^ p, -(p : Int)⟩ := by
  -- named, so that no power of it is computed
  obtain ⟨p, hp⟩ : ∃ p : Nat, 1074 = p := ⟨_, rfl⟩
  refine ⟨p, ?_, fun k => ?_⟩
  · unfold Binary64.one
    rw [hp, Nat.pow_eq]
  · have hexponent : (-1074 : Int) = -(p : Int) := by omega
    unfold exact
    rw [hp, Nat.pow_eq, hexponent]

theorem nearest_exact {k : Nat} (hk : k < Binary64.infinity) : (exact k).nearest = k := by
  obtain ⟨p, hone, hexact⟩ := exact_eq
  have hnum : (exact k).numerator = Binary64.units k * 5 ^ p := by
    rw [numerator, hexact]
    simp
  have hden : (exact k).denominator = (2 * 5) ^ p := by
    rw [denominator, hexact]
    simp
  refine Binary64.nearest_units ?_ hk ?_
  · rw [hden]
    exact Nat.pow_pos (by omega)
  · rw [hone, hnum, hden, Nat.mul_pow, Nat.mul_left_comm]

/-- **The shortest decimal of a finite double reads as that double.** -/
theorem nearest_shortest {k : Nat} (hk : k < Binary64.infinity) : (shortest k).nearest = k := by
  rw [shortest]
  split
  next h0 =>
    subst h0
    refine Binary64.nearest_units (by decide) hk ?_
    simp [numerator, Binary64.units, Binary64.binade_eq]
  next =>
    rcases nearest_shortestFrom k (coarsest k + 1075).toNat (coarsest k) with h | h
    · exact h
    · rw [h]
      exact nearest_exact hk

/-! ## Layout keeps the value -/

theorem ofDigits_eq (ds : List Char) : ofDigits ds = Nat.ofDigitChars 10 ds 0 := rfl

theorem ofDigits_digits (d : Decimal) : ofDigits d.digits = d.significand := by
  rw [ofDigits_eq, digits, Nat.ofDigitChars_ten_toDigits]

theorem ofDigits_append_zeros (ds : List Char) (n : Nat) :
    ofDigits (ds ++ List.replicate n '0') = ofDigits ds * 10 ^ n := by
  rw [ofDigits_eq, Nat.ofDigitChars_append, Nat.ofDigitChars_replicate_zero, Nat.mul_comm]
  rfl

theorem ofDigits_zeros_append (n : Nat) (ds : List Char) :
    ofDigits (List.replicate n '0' ++ ds) = ofDigits ds := by
  rw [ofDigits_eq, Nat.ofDigitChars_append, Nat.ofDigitChars_replicate_zero, Nat.mul_zero]
  rfl

/-- Digits before and after a point. -/
structure Parts (s whole fraction : List Char) : Prop where
  text : s = whole ++ '.' :: fraction
  whole_ne_nil : whole ≠ []
  fraction_ne_nil : fraction ≠ []
  isDigit_whole : ∀ c ∈ whole, c.isDigit
  isDigit_fraction : ∀ c ∈ fraction, c.isDigit

theorem isDigit_digits (d : Decimal) : ∀ c ∈ d.digits, c.isDigit := fun _ hc =>
  Nat.isDigit_of_mem_toDigits (by decide) (by decide) hc

theorem isDigit_replicate_zero (n : Nat) : ∀ c ∈ List.replicate n '0', c.isDigit := by
  intro c hc
  rw [List.eq_of_mem_replicate hc]
  rfl

theorem length_digits_pos (d : Decimal) : 0 < d.digits.length := Nat.length_toDigits_pos

/-- The same number with `n` more places. -/
def refined (d : Decimal) (n : Nat) : Decimal := ⟨d.significand * 10 ^ n, d.exponent - n⟩

theorem refined_zero (d : Decimal) : d.refined 0 = d := by simp [refined]

theorem nearest_refined (d : Decimal) (n : Nat) : (d.refined n).nearest = d.nearest := by
  -- the power of ten by which the fraction is extended
  let m := (-(d.exponent - n)).toNat - (-d.exponent).toNat
  have hnumerator : (d.refined n).numerator = d.numerator * 10 ^ m := by
    have hpow : n + (d.exponent - n).toNat = d.exponent.toNat + m := by omega
    simp only [numerator, refined, Nat.pow_eq]
    rw [Nat.mul_assoc, Nat.mul_assoc, ← Nat.pow_add, ← Nat.pow_add, hpow]
  have hdenominator : (d.refined n).denominator = d.denominator * 10 ^ m := by
    have hpow : (-(d.exponent - n)).toNat = (-d.exponent).toNat + m := by omega
    simp only [denominator, refined, Nat.pow_eq]
    rw [← Nat.pow_add, hpow]
  rw [nearest, hnumerator, hdenominator, Binary64.nearest_mul_mul _ _ (Nat.pow_pos (by decide))]
  rfl

/-- **A decimal is laid out positionally with its own digits**, and as many zeros as it takes. -/
theorem exists_parts_positional (d : Decimal) : ∃ whole fraction n,
    Parts d.positional whole fraction ∧ ofParts whole fraction = d.refined n := by
  have hd := isDigit_digits d
  have hlen := length_digits_pos d
  rw [positional]
  split_ifs with he hp
  · -- The digits and the zeros of the exponent stand before the point, one more zero after it.
    refine ⟨d.digits ++ List.replicate d.exponent.toNat '0', ['0'], d.exponent.toNat + 1, ?_, ?_⟩
    · refine ⟨rfl, ?_, by simp, ?_, isDigit_replicate_zero 1⟩
      · intro h
        rw [List.append_eq_nil_iff] at h
        rw [h.1] at hlen
        exact absurd hlen (by decide)
      · intro c hc
        rcases List.mem_append.1 hc with hc | hc
        · exact hd c hc
        · exact isDigit_replicate_zero _ c hc
    · have hexp : -((['0'] : List Char).length : Int) =
          d.exponent - ((d.exponent.toNat + 1 : Nat) : Int) := by
        rw [List.length_singleton]
        omega
      rw [ofParts, refined, hexp, show ['0'] = List.replicate 1 '0' from rfl,
        ofDigits_append_zeros, ofDigits_append_zeros, ofDigits_digits, Nat.mul_assoc,
        ← Nat.pow_add]
  · -- The point stands among the digits.
    have hpoint : d.point = d.digits.length + d.exponent := rfl
    refine ⟨d.digits.take d.point.toNat, d.digits.drop d.point.toNat, 0, ?_, ?_⟩
    · refine ⟨rfl, ?_, ?_, fun c hc => hd c (List.mem_of_mem_take hc),
        fun c hc => hd c (List.mem_of_mem_drop hc)⟩
      · intro h
        have := congrArg List.length h
        rw [List.length_take, List.length_nil] at this
        omega
      · intro h
        have := congrArg List.length h
        rw [List.length_drop, List.length_nil] at this
        omega
    · have hexp : -((d.digits.drop d.point.toNat).length : Int) = d.exponent := by
        rw [List.length_drop]
        omega
      rw [ofParts, List.take_append_drop, ofDigits_digits, hexp, refined_zero]
  · -- Zeros stand between the point and the digits.
    have hpoint : d.point = d.digits.length + d.exponent := rfl
    refine ⟨['0'], List.replicate (-d.point).toNat '0' ++ d.digits, 0, ?_, ?_⟩
    · refine ⟨rfl, by simp, ?_, isDigit_replicate_zero 1, ?_⟩
      · intro h
        rw [List.append_eq_nil_iff] at h
        rw [h.2] at hlen
        exact absurd hlen (by decide)
      · intro c hc
        rcases List.mem_append.1 hc with hc | hc
        · exact isDigit_replicate_zero _ c hc
        · exact hd c hc
    · have hexp : -((List.replicate (-d.point).toNat '0' ++ d.digits).length : Int) =
          d.exponent := by
        rw [List.length_append, List.length_replicate]
        omega
      rw [ofParts, hexp, show ['0'] = List.replicate 1 '0' from rfl, ofDigits_zeros_append,
        ofDigits_zeros_append, ofDigits_digits, refined_zero]

end Decimal

namespace Binary64

/-! ## Numbers are read back -/

theorem takeWhile_append_dot {whole : List Char} (h : ∀ c ∈ whole, c.isDigit)
    (fraction : List Char) :
    (whole ++ '.' :: fraction).takeWhile (· != '.') = whole ∧
      (whole ++ '.' :: fraction).dropWhile (· != '.') = '.' :: fraction := by
  have hne : ∀ c ∈ whole, (c != '.') = true := by
    intro c hc
    have := h c hc
    simp only [bne_iff_ne]
    intro heq
    subst heq
    exact absurd this (by decide)
  constructor
  · rw [List.takeWhile_append_of_pos hne]
    simp
  · rw [List.dropWhile_append_of_pos hne]
    simp

theorem numeralParts_of_parts {s whole fraction : List Char}
    (h : Decimal.Parts s whole fraction) : numeralParts s = (whole, fraction) := by
  obtain ⟨hw, hd⟩ := takeWhile_append_dot h.isDigit_whole fraction
  have hf : fraction.filter (· != '.') = fraction := by
    rw [List.filter_eq_self]
    intro c hc
    have := h.isDigit_fraction c hc
    simp only [bne_iff_ne]
    intro heq
    subst heq
    exact absurd this (by decide)
  rw [h.text, numeralParts]
  · rw [hw, hd, List.filter_cons_of_neg (by decide), hf]
  · -- The first character is a digit, so it is no point.
    intro rest heq
    obtain ⟨c, cs, rfl⟩ := List.exists_cons_of_ne_nil h.whole_ne_nil
    rw [List.cons_append] at heq
    have hc := h.isDigit_whole c List.mem_cons_self
    rw [(List.cons.inj heq).1] at hc
    exact absurd hc (by decide)

/-- A double that is a number, and not an infinity. -/
def IsFinite (x : Float) : Prop := rank x < infinity

instance (x : Float) : Decidable (IsFinite x) := inferInstanceAs (Decidable (_ < _))

/-- A finite number is written with the digits of its shortest decimal, behind its sign. -/
theorem write_of_isFinite {x : Float} (hx : IsFinite x) (layout : Decimal → List Char) :
    write layout x =
      (if isNegative x then ['-'] else []) ++ layout (Decimal.shortest (rank x)) := by
  have hle : ¬ infinity < rank x := Nat.lt_asymm hx
  have hne : rank x ≠ infinity := Nat.ne_of_lt hx
  simp only [write, if_neg hle, if_neg hne]
  split_ifs <;> rfl

/-- **A finite number without a sign is read back** from its text, which is digits with one dot
among them. -/
theorem ofNumeral?_positional {x : Float} (hx : IsFinite x) (hs : isNegative x = false) :
    ofNumeral? (positional x) = some x ∧
      ∃ whole fraction, Decimal.Parts (positional x) whole fraction := by
  have htext : positional x = (Decimal.shortest (rank x)).positional := by
    rw [positional, write_of_isFinite hx, hs]
    rfl
  obtain ⟨whole, fraction, n, hparts, hvalue⟩ :=
    Decimal.exists_parts_positional (Decimal.shortest (rank x))
  have hnearest : (Decimal.ofParts whole fraction).nearest = rank x := by
    rw [hvalue, Decimal.nearest_refined, Decimal.nearest_shortest hx]
  refine ⟨?_, whole, fraction, htext ▸ hparts⟩
  rw [htext, ofNumeral?, numeralParts_of_parts hparts]
  split
  next heq => exact absurd (Prod.mk.inj heq).1 hparts.whole_ne_nil
  next heq =>
    obtain ⟨rfl, rfl⟩ := Prod.mk.inj heq
    rw [Decimal.toFloat, hnearest, toFloat_rank hs]

/-- What is read from a numeral has no sign, and is a number or infinity. -/
theorem rank_of_ofNumeral? {s : List Char} {x : Float} (h : ofNumeral? s = some x) :
    rank x ≤ infinity ∧ isNegative x = false := by
  rw [ofNumeral?] at h
  split at h
  · cases h
  · cases h
    have hle (d : Decimal) : d.nearest ≤ infinity := nearest_le_infinity _ _
    rw [Decimal.toFloat, rank_toFloat (hle _)]
    exact ⟨hle _, isNegative_toFloat (hle _)⟩

end Binary64

end Formulary
