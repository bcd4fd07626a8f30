import Formulary.Proofs.Number.ReadBack
import Formulary.Value.Arithmetic

/-!
# Rounding goes to the nearest double

`Binary64.nearest` counts binades and rounds a quotient. **The double that it comes to is the one
nearest to the fraction, and of two equally near ones the one of even rank**
(`preferred_nearest`). In this comparison infinity stands for 2¹⁰²⁴, where the next double would
be. So a fraction is rounded to infinity from half-way between the greatest double and 2¹⁰²⁴ on
(`nearest_eq_infinity_iff`).

For an integer, both facts together say what its conversion to a double gives and when it fails
(`Number.toFloat_integer`).

Ranks order the doubles as their exact values do, on both sides of zero (`value_lt_value_iff`).

The quotient is rounded among the multiples of a power of two, which from the lower end of the
binade on are all the doubles and more. Any double below is further away than that end is.
-/

namespace Formulary.Binary64

/-! ## Exact values -/

theorem infinity_eq : infinity = 2047 * binade := by rw [infinity]

/-- The doubles of a binade are evenly spaced, up to the first one of the next binade. -/
theorem units_binade_add (j : Nat) {r : Nat} (hr : r ≤ binade) :
    units (binade * (j + 1) + r) = (binade + r) * 2 ^ j := by
  have hb := binade_eq
  have hpos : 0 < binade := by omega
  have hle : ¬ binade * (j + 1) + r < binade := by
    rw [Nat.mul_succ]
    omega
  rw [units, if_neg hle, Nat.pow_eq]
  rcases Nat.lt_or_eq_of_le hr with hlt | rfl
  · rw [Nat.mul_add_div hpos, Nat.div_eq_of_lt hlt, Nat.mul_add_mod, Nat.mod_eq_of_lt hlt,
      Nat.add_zero, Nat.add_sub_cancel]
  · rw [← Nat.mul_succ, Nat.mul_mod_right, Nat.mul_div_cancel_left _ hpos]
    show (binade + 0) * 2 ^ (j + 1) = _
    rw [Nat.add_zero, Nat.pow_succ, Nat.mul_comm (2 ^ j), ← Nat.mul_assoc, Nat.mul_two]

/-- The place of a rank in its binade. -/
theorem exists_binade {k : Nat} (hk : binade ≤ k) :
    ∃ j r, r < binade ∧ k = binade * (j + 1) + r := by
  have hb := binade_eq
  have hq : 1 ≤ k / binade := (Nat.one_le_div_iff (by omega)).2 hk
  refine ⟨k / binade - 1, k % binade, Nat.mod_lt k (by omega), ?_⟩
  rw [Nat.sub_add_cancel hq, Nat.div_add_mod]

theorem units_of_le {k : Nat} (hk : k ≤ 2 * binade) : units k = k := by
  by_cases hlt : k < binade
  · rw [units, if_pos hlt]
  · have h := units_binade_add 0 (r := k - binade) (by omega)
    rw [Nat.zero_add, Nat.mul_one, Nat.pow_zero, Nat.mul_one, Nat.add_sub_cancel' (by omega)] at h
    exact h

/-- A rank that is counted on from a binade has the value of what is counted there. -/
theorem units_count {e q : Nat} (hq : q ≤ 2 * binade) (h : e = 0 ∨ binade ≤ q) :
    units (binade * e + q) = q * 2 ^ e := by
  rcases h with rfl | h
  · rw [Nat.mul_zero, Nat.zero_add, Nat.pow_zero, Nat.mul_one, units_of_le hq]
  · have hu := units_binade_add e (r := q - binade) (by omega)
    have hk : binade * (e + 1) + (q - binade) = binade * e + q := by
      rw [Nat.mul_succ]
      omega
    rwa [hk, Nat.add_sub_cancel' h] at hu

theorem units_strictMono : StrictMono units := by
  refine strictMono_nat_of_lt_succ fun k => ?_
  by_cases hk : k < binade
  · rw [units_of_le (by omega), units_of_le (by omega)]
    exact Nat.lt_succ_self k
  · obtain ⟨j, r, hr, rfl⟩ := exists_binade (Nat.le_of_not_lt hk)
    rw [Nat.add_assoc, units_binade_add j (by omega), units_binade_add j (by omega)]
    exact Nat.mul_lt_mul_of_pos_right (by omega) (Nat.two_pow_pos j)

/-- From the lower end of a binade on, all doubles are multiples of its spacing. -/
theorem dvd_units {e k : Nat} (h : binade * 2 ^ e ≤ units k) : 2 ^ e ∣ units k := by
  have hpos : 0 < 2 ^ e := Nat.two_pow_pos e
  by_cases hk : k < binade
  · rw [units_of_le (by omega)] at h
    exact absurd (Nat.le_trans (Nat.le_mul_of_pos_right _ hpos) h) (by omega)
  · obtain ⟨j, r, hr, rfl⟩ := exists_binade (Nat.le_of_not_lt hk)
    rw [units_binade_add j (by omega)] at h ⊢
    have hlt : binade * 2 ^ e < binade * 2 ^ (j + 1) := by
      refine Nat.lt_of_le_of_lt h ?_
      rw [Nat.pow_succ, Nat.mul_comm _ 2, ← Nat.mul_assoc]
      exact Nat.mul_lt_mul_of_pos_right (by omega) (Nat.two_pow_pos j)
    have he : e < j + 1 := (Nat.pow_lt_pow_iff_right (by decide)).1 (Nat.lt_of_mul_lt_mul_left hlt)
    exact Nat.dvd_mul_left_of_dvd (Nat.pow_dvd_pow 2 (by omega)) _

/-! ## The nearest of some values -/

/-- Of the values of `u`, that of `r` is at least as near to `m` as that of `k`; and if they are
equally near and not the same, then `r` is even. -/
structure Preferred (u : Nat → Nat) (m r k : Nat) : Prop where
  closest : Nat.dist m (u r) ≤ Nat.dist m (u k)
  even : Nat.dist m (u k) = Nat.dist m (u r) → k ≠ r → r % 2 = 0

theorem preferred_roundDiv (n : Nat) {d : Nat} (hd : 0 < d) (j : Nat) :
    Preferred (· * d) n (roundDiv n d) j := by
  have hn : d * (n / d) + n % d = n := Nat.div_add_mod n d
  have hr : n % d < d := Nat.mod_lt n hd
  rw [Nat.mul_comm] at hn
  -- the other multiple lies at or below the quotient, or at or above the next one
  have hj : j * d ≤ n / d * d ∨ (n / d + 1) * d ≤ j * d := by
    rcases Nat.lt_or_ge (n / d) j with h | h
    · exact .inr (Nat.mul_le_mul_right d h)
    · exact .inl (Nat.mul_le_mul_right d h)
  have hsucc : (n / d + 1) * d = n / d * d + d := Nat.succ_mul _ _
  have hinj (i : Nat) (h : j * d = i * d) : j = i := Nat.eq_of_mul_eq_mul_right hd h
  have hq := hinj (n / d)
  have hq' := hinj (n / d + 1)
  constructor
  · simp only [roundDiv, Nat.dist]
    split
    · omega
    · split
      · omega
      · rcases Nat.mod_two_eq_zero_or_one (n / d) with h | h
        · rw [h, Nat.add_zero]
          omega
        · rw [h]
          omega
  · simp only [roundDiv, Nat.dist]
    split
    · omega
    · split <;> omega

/-! ## Fractions -/

section

variable {n m d e k : Nat}

/-- A quotient of more than 53 bits is rounded as one of 53 bits, in larger steps. -/
theorem count_bounds (m : Nat) (hd : 0 < d) (he : e = (m / d).log2 - 52) :
    roundDiv m (d * 2 ^ e) ≤ 2 * binade ∧
      (e = 0 ∨ binade ≤ roundDiv m (d * 2 ^ e) ∧ binade * (d * 2 ^ e) ≤ m) := by
  have hb := binade_eq
  have hhigh : m / (d * 2 ^ e) < 2 * binade := by
    rw [← Nat.div_div_eq_div_mul]
    refine Nat.div_lt_of_lt_mul ?_
    rw [hb, ← Nat.pow_succ', ← Nat.pow_add]
    exact Nat.lt_of_lt_of_le Nat.lt_log2_self (Nat.pow_le_pow_right (by decide) (by omega))
  have hlow : e ≠ 0 → binade ≤ m / (d * 2 ^ e) := by
    intro h0
    have hne : m / d ≠ 0 := by
      intro h
      rw [h] at he
      exact h0 he
    rw [← Nat.div_div_eq_div_mul, Nat.le_div_iff_mul_le (Nat.two_pow_pos e), hb, ← Nat.pow_add,
      show 52 + e = (m / d).log2 by omega]
    exact Nat.log2_self_le hne
  constructor
  · rcases roundDiv_eq_or m (d * 2 ^ e) with h | h <;> omega
  · refine or_iff_not_imp_left.2 fun h0 => ⟨?_, ?_⟩
    · rcases roundDiv_eq_or m (d * 2 ^ e) with h | h <;> have := hlow h0 <;> omega
    · exact (Nat.le_div_iff_mul_le (Nat.mul_pos hd (Nat.two_pow_pos e))).1 (hlow h0)

/-- Counting on from a binade by the rounded quotient comes to a rank that is preferred to all
others. -/
theorem preferred_count (hd : 0 < d) (hq : roundDiv m (d * 2 ^ e) ≤ 2 * binade)
    (hlow : e = 0 ∨ binade ≤ roundDiv m (d * 2 ^ e) ∧ binade * (d * 2 ^ e) ≤ m) (k : Nat) :
    Preferred (fun k => units k * d) m (binade * e + roundDiv m (d * 2 ^ e)) k := by
  have hround (j : Nat) := preferred_roundDiv m (Nat.mul_pos hd (Nat.two_pow_pos e)) j
  generalize roundDiv m (d * 2 ^ e) = q at hround hq hlow ⊢
  have hunits := units_count hq (hlow.imp_right And.left)
  have hvalue : units (binade * e + q) * d = q * (d * 2 ^ e) := by
    rw [hunits, Nat.mul_assoc, Nat.mul_comm (2 ^ e)]
  by_cases hdvd : 2 ^ e ∣ units k
  · -- another multiple of the step
    obtain ⟨j, hj⟩ := hdvd
    have hother : units k * d = j * (d * 2 ^ e) := by
      rw [hj, Nat.mul_comm (2 ^ e), Nat.mul_assoc, Nat.mul_comm (2 ^ e)]
    refine ⟨?_, ?_⟩
    · show Nat.dist m (units (binade * e + q) * d) ≤ Nat.dist m (units k * d)
      rw [hvalue, hother]
      exact (hround j).closest
    · show Nat.dist m (units k * d) = Nat.dist m (units (binade * e + q) * d) → _
      rw [hvalue, hother]
      intro htie hk
      have hne : j ≠ q := by
        rintro rfl
        refine hk (units_strictMono.injective ?_)
        rw [hunits, hj, Nat.mul_comm]
      have heven := (hround j).even htie hne
      have hbinade : binade * e = 2 * (2 ^ 51 * e) := by
        rw [binade_eq, ← Nat.mul_assoc, ← Nat.pow_succ']
      omega
  · -- a double below the binade, further away than its lower end
    have hbelow : units k < binade * 2 ^ e := Nat.lt_of_not_le fun h => hdvd (dvd_units h)
    have hend : binade * (d * 2 ^ e) ≤ m := by
      refine (hlow.resolve_left ?_).2
      rintro rfl
      exact hdvd ⟨units k, by rw [Nat.pow_zero, Nat.one_mul]⟩
    have hlt : units k * d < binade * (d * 2 ^ e) := by
      rw [Nat.mul_left_comm, Nat.mul_comm d]
      exact Nat.mul_lt_mul_of_pos_right hbelow hd
    have hcloser : Nat.dist m (units (binade * e + q) * d) < Nat.dist m (units k * d) := by
      have h : Nat.dist m (q * (d * 2 ^ e)) ≤ Nat.dist m (binade * (d * 2 ^ e)) :=
        (hround binade).closest
      rw [hvalue]
      simp only [Nat.dist] at h ⊢
      omega
    exact ⟨hcloser.le, fun htie => absurd htie hcloser.ne'⟩

theorem infinity_pos : 0 < infinity := by
  have h := infinity_eq
  rw [binade_eq] at h
  omega

theorem infinity_even : infinity % 2 = 0 := by
  have h := infinity_eq
  rw [binade_eq] at h
  omega

/-- **Rounding goes to the nearest double**, and of two equally near ones to the one of even rank.
Infinity stands for 2¹⁰²⁴. -/
theorem preferred_nearest (n : Nat) (hd : 0 < d) (hk : k ≤ infinity) :
    Preferred (fun k => units k * d) (one * n) (nearest n d) k := by
  obtain ⟨hq, hlow⟩ := count_bounds (one * n) hd rfl
  have hcount := preferred_count hd hq hlow
  rw [nearest]
  simp only [Nat.pow_eq]
  generalize binade * _ + roundDiv _ _ = r at hcount ⊢
  rcases Nat.le_total r infinity with hr | hr
  · rw [Nat.min_eq_right hr]
    exact hcount k
  · -- the fraction is beyond infinity, and all doubles are further away
    rw [Nat.min_eq_left hr]
    have hmono (i j : Nat) (h : i ≤ j) : units i * d ≤ units j * d :=
      Nat.mul_le_mul_right d (units_strictMono.monotone h)
    have hle := hmono k infinity hk
    have hle' := hmono infinity r hr
    have hclosest : Nat.dist (one * n) (units r * d) ≤ Nat.dist (one * n) (units infinity * d) :=
      (hcount infinity).closest
    refine ⟨?_, fun _ _ => infinity_even⟩
    show Nat.dist _ (units infinity * d) ≤ Nat.dist _ (units k * d)
    simp only [Nat.dist] at hclosest ⊢
    rcases Nat.eq_or_lt_of_le hle' with heq | hlt
    · have hk := (hcount k).closest
      simp only [Nat.dist] at hk
      omega
    · omega

/-- **Rounded to infinity is what lies at or beyond the middle** between the greatest double and
2¹⁰²⁴. -/
theorem nearest_eq_infinity_iff (n : Nat) (hd : 0 < d) :
    nearest n d = infinity ↔ (units (infinity - 1) + units infinity) * d ≤ 2 * (one * n) := by
  have hpos := infinity_pos
  have heven := infinity_even
  have hpreferred {k : Nat} (hk : k ≤ infinity) := preferred_nearest n hd hk
  have hlt : units (infinity - 1) * d < units infinity * d :=
    Nat.mul_lt_mul_of_pos_right (units_strictMono (by omega)) hd
  rw [Nat.add_mul]
  constructor
  · intro h
    have hclosest := (hpreferred (Nat.sub_le infinity 1)).closest
    rw [h] at hclosest
    simp only [Nat.dist] at hclosest
    omega
  · intro h
    by_contra hne
    have hle : nearest n d ≤ infinity - 1 := by
      have := nearest_le_infinity n d
      omega
    have hmono : units (nearest n d) * d ≤ units (infinity - 1) * d :=
      Nat.mul_le_mul_right d (units_strictMono.monotone hle)
    obtain ⟨hclosest, htie⟩ := hpreferred (Nat.le_refl infinity)
    simp only [Nat.dist] at hclosest htie
    -- the greatest double is as near as infinity, but its rank is odd
    have hlast : units (nearest n d) * d = units (infinity - 1) * d := by omega
    have hrank : nearest n d = infinity - 1 :=
      units_strictMono.injective (Nat.eq_of_mul_eq_mul_right hd hlast)
    have hodd := htie (by omega) (Ne.symm hne)
    omega

end

/-! ## Integers -/

/-- The exact value of a double, in units. -/
def value (x : Float) : Int := if isNegative x then -(units (rank x) : Int) else units (rank x)

theorem units_zero : units 0 = 0 := units_of_le (Nat.zero_le _)

/-- Values grow with ranks, on both sides of zero. -/
theorem value_lt_value_iff {x y : Float} : value x < value y ↔ signedRank x < signedRank y := by
  have hunits (j k : Nat) : units j < units k ↔ j < k := units_strictMono.lt_iff_lt
  have hpos (k : Nat) := hunits 0 k
  rw [units_zero] at hpos
  have hxy := hunits (rank x) (rank y)
  have hyx := hunits (rank y) (rank x)
  have hx := hpos (rank x)
  have hy := hpos (rank y)
  unfold value signedRank
  split <;> split <;> omega

/-- How far a double is from an integer, in units. -/
def gap (i : Int) (x : Float) : Nat := (i * one - value x).natAbs

/-- The double nearest to an integer, of two equally near ones the one with an even last bit. A
zero has no sign. -/
structure IsNearest (i : Int) (x : Float) : Prop where
  isFinite : IsFinite x
  sign : isNegative x = decide (i < 0)
  closest : ∀ y, IsFinite y → gap i x ≤ gap i y
  even : ∀ y, IsFinite y → gap i y = gap i x → value y ≠ value x → rank x % 2 = 0

/-- The integer is beyond all doubles: it lies in the middle between the greatest one and 2¹⁰²⁴, or
further out. -/
def TooLarge (i : Int) : Prop := 2 ^ 1024 - 2 ^ 970 ≤ i.natAbs

section

variable {i : Int} {x : Float}

/-- Twice the middle between the greatest double and 2¹⁰²⁴, in units. -/
theorem units_middle :
    units (infinity - 1) + units infinity = (2 ^ 1024 - 2 ^ 970) * (2 * one) := by
  -- named, so that no large power is computed
  obtain ⟨b, hb⟩ : ∃ b : Nat, 970 = b := ⟨_, rfl⟩
  obtain ⟨p, hp⟩ : ∃ p : Nat, 1074 = p := ⟨_, rfl⟩
  have hmiddle : binade + (binade - 1) + (binade + binade) = 2 ^ 54 - 1 := by
    rw [binade_eq]
    norm_num
  have hend : infinity = binade * 2046 + binade := by
    rw [infinity_eq, Nat.mul_comm, ← Nat.mul_succ]
  have hlast : infinity - 1 = binade * 2046 + (binade - 1) := by
    have hpos : 0 < binade := by rw [binade_eq]; exact Nat.two_pow_pos 52
    omega
  have hpower : 2 ^ 1024 - 2 ^ 970 = (2 ^ 54 - 1) * 2 ^ b := by
    rw [show 1024 = 54 + b by omega, hb, Nat.pow_add 2 54 b, Nat.sub_mul, Nat.one_mul]
  have hone : 2 * one = 2 ^ (p + 1) := by
    unfold one
    rw [hp, Nat.pow_eq, Nat.pow_succ']
  rw [hlast, hend, show 2046 = b + (p + 1) + 1 by omega, units_binade_add _ (Nat.sub_le _ _),
    units_binade_add _ (Nat.le_refl _), ← Nat.add_mul, hmiddle, hpower, hone, Nat.mul_assoc,
    ← Nat.pow_add]

theorem nearest_eq_infinity_iff_tooLarge : nearest i.natAbs 1 = infinity ↔ TooLarge i := by
  have hone : 0 < 2 * one := by
    obtain ⟨p, hp, -⟩ := Decimal.exact_eq
    rw [hp]
    exact Nat.mul_pos Nat.two_pos (Nat.two_pow_pos p)
  rw [nearest_eq_infinity_iff i.natAbs Nat.one_pos, units_middle, Nat.mul_one, TooLarge,
    ← Nat.mul_assoc 2, Nat.mul_comm (2 * one)]
  exact Nat.mul_le_mul_right_iff hone

/-- **An integer is converted to a double unless it is beyond them all.** -/
theorem ofInt?_eq_none_iff : ofInt? i = none ↔ TooLarge i := by
  rw [← nearest_eq_infinity_iff_tooLarge, ofInt?]
  split <;> simp [*]

/-- The gap to a double is that of the magnitudes if the signs are the same, and their sum if they
are not. -/
theorem gap_eq (i : Int) (y : Float) :
    gap i y = if isNegative y = decide (i < 0) then Nat.dist (one * i.natAbs) (units (rank y))
      else one * i.natAbs + units (rank y) := by
  have hi : i * one =
      if i < 0 then -((one * i.natAbs : Nat) : Int) else (one * i.natAbs : Nat) := by
    rw [Nat.cast_mul, Int.mul_comm]
    split
    · rw [← Int.mul_neg]
      congr 1
      omega
    · congr 1
      omega
  unfold gap value
  rw [hi]
  generalize one * i.natAbs = m
  generalize units (rank y) = u
  simp only [Nat.dist]
  by_cases h : i < 0 <;> cases isNegative y <;> simp [h] <;> omega

theorem dist_le_gap (i : Int) (y : Float) :
    Nat.dist (one * i.natAbs) (units (rank y)) ≤ gap i y := by
  rw [gap_eq]
  split
  · exact Nat.le_refl _
  · simp only [Nat.dist]
    omega

/-- What is nearest by magnitude, and has the sign of the integer, is nearest. -/
theorem isNearest_of_preferred (hfinite : IsFinite x) (hsign : isNegative x = decide (i < 0))
    (hpreferred : ∀ k ≤ infinity, Preferred units (one * i.natAbs) (rank x) k) : IsNearest i x := by
  have hgap : gap i x = Nat.dist (one * i.natAbs) (units (rank x)) := by rw [gap_eq, if_pos hsign]
  refine ⟨hfinite, hsign, ?_, ?_⟩
  · intro y hy
    rw [hgap]
    exact (hpreferred _ (Nat.le_of_lt hy)).closest.trans (dist_le_gap i y)
  · intro y hy htie hvalue
    have hpref := hpreferred _ (Nat.le_of_lt hy)
    have hclosest := hpref.closest
    have hdist := dist_le_gap i y
    refine hpref.even (by omega) fun hk => hvalue ?_
    by_cases hs : isNegative y = isNegative x
    · rw [value, value, hs, hk]
    · -- on the other side of zero, the same rank is as near only if both are zero
      have hzero := (hpreferred 0 (Nat.zero_le _)).closest
      rw [units_zero] at hzero
      rw [hsign] at hs
      rw [gap_eq, if_neg hs, hgap, hk] at htie
      have hunits : units (rank x) = 0 := by
        simp only [Nat.dist] at htie hzero
        omega
      simp [value, hk, hunits]

/-- **An integer is converted to the nearest double.** -/
theorem isNearest_of_ofInt? (h : ofInt? i = some x) : IsNearest i x := by
  rw [ofInt?] at h
  split at h
  · cases h
  · rename_i hne
    obtain rfl := Option.some.inj h
    have hle := nearest_le_infinity i.natAbs 1
    have hrank : rank (toFloat (i < 0) (nearest i.natAbs 1)) = nearest i.natAbs 1 :=
      rank_toFloat hle
    refine isNearest_of_preferred ?_ (isNegative_toFloat hle) ?_
    · rw [IsFinite, hrank]
      omega
    · intro k hk
      have hpreferred := preferred_nearest i.natAbs Nat.one_pos hk
      simp only [Nat.mul_one] at hpreferred
      rwa [hrank]

end

end Formulary.Binary64

namespace Formulary.Number

open Binary64

/-- **As a double, an integer is the nearest one**, unless it is beyond them all. -/
theorem toFloat_integer (i : Int) :
    (TooLarge i ∧ (integer i).toFloat = .error .integerTooLarge) ∨
      ¬ TooLarge i ∧ ∃ x, (integer i).toFloat = .ok x ∧ IsNearest i x := by
  rw [toFloat, ← ofInt?_eq_none_iff]
  cases h : ofInt? i with
  | none => exact .inl ⟨rfl, rfl⟩
  | some x => exact .inr ⟨Option.some_ne_none x, x, rfl, isNearest_of_ofInt? h⟩

end Formulary.Number
