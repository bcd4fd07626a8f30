import Formulary.Number.Decimal
import Mathlib

/-!
# Doubles and their bit patterns

`Binary64` names a double by its sign and its rank, which is the rest of its bit pattern. This
module shows that nothing is lost on the way: a finite double is given back by its sign and rank,
and a rank up to that of infinity is the rank of the double made from it. Negation changes the sign
and nothing else (`neg_eq`).

The logical model of a double keeps its bit pattern *unpacked and packed again*, which puts one
pattern in the place of all that are no number. Hence the work: `pack_unpack` says that packing
gives back the pattern, case by case over the exponent field.
-/

namespace Formulary.Binary64

open Float.Model Float.Model.UnpackedFloat

/-! ## Packing gives back what was unpacked -/

theorem toBitVec_ofBitVec (b : BitVec 1) : (Sign.ofBitVec b).toBitVec = b := by
  rcases BitVec.eq_zero_or_eq_one b with rfl | rfl <;> rfl

/-- A bit pattern is made of its sign, its exponent and its mantissa. -/
theorem packComponents_fields (b : BitVec 64) :
    packComponents .binary64 (Sign.ofBitVec (@unpackSign .binary64 b))
      (@unpackExponent .binary64 b) (@unpackMantissa .binary64 b) = b := by
  rw [packComponents, toBitVec_ofBitVec]
  apply BitVec.eq_of_toNat_eq
  have hb := b.isLt
  simp only [unpackMantissa, unpackExponent, unpackSign, BitVec.toNat_append, BitVec.toNat_cast,
    BitVec.extractLsb_toNat, Nat.shiftRight_eq_div_pow]
  rw [← Nat.shiftLeft_add_eq_or_of_lt (by omega), ← Nat.shiftLeft_add_eq_or_of_lt (by omega)]
  simp only [Nat.shiftLeft_eq]
  omega

theorem pack_subnormal (s : Sign) (m : BitVec 52) (hm : 0 < m.toNat) :
    UnpackedFloat.pack .binary64 (.finite s m.toNat (-1074) hm) =
      packComponents .binary64 s 0 m := by
  have hlog : m.toNat.log2 < 52 := (Nat.log2_lt (Nat.ne_of_gt hm)).2 m.isLt
  rw [UnpackedFloat.pack, if_neg (by decide), if_neg, BitVec.ofNat_toNat]
  · simp
  · show ¬m.toNat.log2 + 1 = 53
    omega

theorem pack_normal (s : Sign) (e : BitVec 11) (m : BitVec 52) (he : e ≠ -1#11)
    (hm : 0 < (1#1 ++ m).toNat) :
    UnpackedFloat.pack .binary64 (.finite s (1#1 ++ m).toNat ((e.toNat : Int) - 1075) hm) =
      packComponents .binary64 s e m := by
  have hlt := m.isLt
  have hadd : (1#1 ++ m).toNat = 2 ^ 52 + m.toNat := by
    rw [BitVec.toNat_append, ← Nat.shiftLeft_add_eq_or_of_lt hlt]
    rfl
  have hlog : (2 ^ 52 + m.toNat).log2 = 52 := by
    rw [Nat.log2_eq_iff (by omega)]
    omega
  have hexp : ((e.toNat : Int) - 1075 + Format.binary64.exponentBias +
      ((52 : Nat) : Int)).toNat = e.toNat := by
    simp only [Format.exponentBias]
    omega
  have hmax : e.toNat ≠ 2047 := fun h => he (BitVec.eq_of_toNat_eq (by simpa using h))
  rw [UnpackedFloat.pack]
  simp only [hadd, hexp]
  rw [if_neg, if_pos]
  · congr 1
    · simp
    · apply BitVec.eq_of_toNat_eq
      rw [BitVec.toNat_ofNat]
      omega
  · rw [hlog]
    rfl
  · have := e.isLt
    simp only [Nat.reducePow]
    omega

/-- **Packing gives back the bit pattern**, as long as no number has only the one pattern that
packing gives it. -/
theorem pack_unpack (b : BitVec 64) (hb : Format.binary64.Valid b) :
    UnpackedFloat.pack .binary64 (UnpackedFloat.unpack .binary64 b) = b := by
  have hd := packComponents_fields b
  unfold UnpackedFloat.unpack
  extract_lets m e exponent s sign
  have hd : packComponents .binary64 sign e m = b := hd
  split
  next he =>
    split
    next hm =>
      rw [he, hm] at hd
      exact hd
    next hm => exact (hb.eq_packedNaN he hm).symm
  next he =>
    split
    next he0 =>
      split
      next hm =>
        rw [he0, hm] at hd
        exact hd
      next hm =>
        have hx : exponent + 1 = -1074 := by
          simp [exponent, he0, Format.exponentBias]
        simp only [hx]
        rw [he0] at hd
        refine Eq.trans ?_ hd
        exact pack_subnormal sign m _
    next => exact (pack_normal sign e m he _).trans hd

/-! ## Sign and rank -/

theorem ofBits_toBits (x : Float) : Float.ofBits x.toBits = x := by
  have h := pack_unpack x.toModel.toBits.toBitVec x.toModel.valid
  have hb : (Float.Model.ofBits x.toModel.toBits).toBits = x.toModel.toBits := by
    show UInt64.ofBitVec _ = _
    rw [h]
  have hm : Float.Model.ofBits x.toModel.toBits = x.toModel := by
    cases hx : x.toModel with
    | mk bits valid =>
      rw [hx] at hb
      cases hy : Float.Model.ofBits bits with
      | mk bits' valid' =>
        rw [hy] at hb
        cases hb
        rfl
  show Float.ofModel (Float.Model.ofBits x.toModel.toBits) = x
  rw [hm]

/-- The bit pattern of a sign and a rank. -/
def pattern (negative : Bool) (k : Nat) : Nat := if negative then Nat.pow 2 63 + k else k

theorem toNat_pattern (negative : Bool) {k : Nat} (hk : k ≤ infinity) :
    k ≤ 2047 * 2 ^ 52 ∧ (BitVec.ofNat 64 (pattern negative k)).toNat = pattern negative k := by
  have hk' : k ≤ 2047 * 2 ^ 52 := by
    simpa only [infinity, binade, Nat.pow_eq] using hk
  refine ⟨hk', ?_⟩
  rw [BitVec.toNat_ofNat, pattern, Nat.pow_eq]
  split <;> omega

/-- The pattern of a rank is that of infinity, or it has room in its exponent: in neither case
does it belong to what is no number. -/
theorem valid_pattern (negative : Bool) {k : Nat} (hk : k ≤ infinity) :
    Format.binary64.Valid (BitVec.ofNat 64 (pattern negative k)) := by
  obtain ⟨hk', hb⟩ := toNat_pattern negative hk
  generalize BitVec.ofNat 64 (pattern negative k) = b at hb
  rw [pattern, Nat.pow_eq] at hb
  refine ⟨fun he hm => absurd ?_ hm⟩
  have he : b.toNat / 2 ^ 52 % 2 ^ 11 = 2047 := by
    have := congrArg BitVec.toNat he
    rw [unpackExponent, BitVec.toNat_cast, BitVec.extractLsb_toNat,
      Nat.shiftRight_eq_div_pow] at this
    exact this
  apply BitVec.eq_of_toNat_eq
  rw [unpackMantissa, BitVec.toNat_cast, BitVec.extractLsb_toNat, Nat.shiftRight_eq_div_pow]
  show b.toNat / 2 ^ 0 % 2 ^ 52 = 0
  split at hb <;> omega

theorem toNat_toBits_toFloat (negative : Bool) {k : Nat} (hk : k ≤ infinity) :
    (toFloat negative k).toBits.toNat = pattern negative k := by
  have h := pack_unpack _ (valid_pattern negative hk)
  show (UnpackedFloat.pack .binary64 (UnpackedFloat.unpack .binary64
    (BitVec.ofNat 64 (pattern negative k)))).toNat = pattern negative k
  rw [h]
  exact (toNat_pattern negative hk).2

/-- **A rank up to infinity is kept** by the double made from it. -/
theorem rank_toFloat {negative : Bool} {k : Nat} (hk : k ≤ infinity) :
    rank (toFloat negative k) = k := by
  have := (toNat_pattern negative hk).1
  rw [rank, toNat_toBits_toFloat negative hk, pattern, Nat.pow_eq]
  split <;> omega

/-- So is its sign. -/
theorem isNegative_toFloat {negative : Bool} {k : Nat} (hk : k ≤ infinity) :
    isNegative (toFloat negative k) = negative := by
  have := (toNat_pattern negative hk).1
  rw [isNegative, toNat_toBits_toFloat negative hk, pattern, Nat.pow_eq]
  cases negative with
  | false =>
    simp only [Bool.false_eq_true, if_false, decide_eq_false_iff_not]
    omega
  | true =>
    simp only [if_true, decide_eq_true_eq]
    omega

/-- **A double without a sign is given back by its rank.** -/
theorem toFloat_rank {x : Float} (hx : isNegative x = false) : toFloat false (rank x) = x := by
  have hlt : x.toBits.toNat < 2 ^ 63 := by simpa [isNegative] using hx
  rw [toFloat, rank, Nat.pow_eq, Nat.mod_eq_of_lt hlt]
  simp only [Bool.false_eq_true, if_false, UInt64.ofNat_toNat]
  exact ofBits_toBits x

/-! ## Changing the sign -/

theorem ofBitVec_unpackSign (b : BitVec 64) :
    Sign.ofBitVec (@unpackSign .binary64 b) = if b.toNat < 2 ^ 63 then .positive else .negative := by
  have hsign : (@unpackSign .binary64 b).toNat = b.toNat / 2 ^ 63 := by
    have := b.isLt
    rw [unpackSign, BitVec.toNat_cast, BitVec.extractLsb_toNat, Nat.shiftRight_eq_div_pow]
    show b.toNat / 2 ^ 63 % 2 ^ 1 = _
    omega
  have hiff : @unpackSign .binary64 b = 0#1 ↔ b.toNat < 2 ^ 63 := by
    rw [← BitVec.toNat_inj, hsign]
    show b.toNat / 2 ^ 63 = 0 ↔ _
    omega
  simp only [Sign.ofBitVec, hiff]

/-- Two patterns that differ in their sign alone are unpacked to negations of each other. -/
theorem unpack_eq_neg {b b' : BitVec 64}
    (h : b'.toNat = if b.toNat < 2 ^ 63 then 2 ^ 63 + b.toNat else b.toNat - 2 ^ 63) :
    UnpackedFloat.unpack .binary64 b' = (UnpackedFloat.unpack .binary64 b).neg := by
  have := b.isLt
  have hsign : Sign.ofBitVec (@unpackSign .binary64 b') =
      -Sign.ofBitVec (@unpackSign .binary64 b) := by
    rw [ofBitVec_unpackSign, ofBitVec_unpackSign, h]
    split
    · rw [if_neg (by omega)]
      rfl
    · rw [if_pos (by omega)]
      rfl
  have hexponent : @unpackExponent .binary64 b' = @unpackExponent .binary64 b := by
    apply BitVec.eq_of_toNat_eq
    simp only [unpackExponent, BitVec.toNat_cast, BitVec.extractLsb_toNat,
      Nat.shiftRight_eq_div_pow, h]
    show _ / 2 ^ 52 % 2 ^ 11 = _ / 2 ^ 52 % 2 ^ 11
    split <;> omega
  have hmantissa : @unpackMantissa .binary64 b' = @unpackMantissa .binary64 b := by
    apply BitVec.eq_of_toNat_eq
    simp only [unpackMantissa, BitVec.toNat_cast, BitVec.extractLsb_toNat,
      Nat.shiftRight_eq_div_pow, h]
    show _ / 2 ^ 0 % 2 ^ 52 = _ / 2 ^ 0 % 2 ^ 52
    split <;> omega
  simp only [UnpackedFloat.unpack, hsign, hexponent, hmantissa]
  split
  · split <;> rfl
  · split
    · split <;> rfl
    · rfl

theorem rank_le_infinity {x : Float} (hx : isNaN x = false) : rank x ≤ infinity := by
  simpa [isNaN] using hx

/-- **A double is negated by changing its sign**, unless it is no number. -/
theorem neg_eq {x : Float} (hx : isNaN x = false) : -x = toFloat (!isNegative x) (rank x) := by
  have hrank := rank_le_infinity hx
  let b : BitVec 64 := x.toBits.toBitVec
  let b' : BitVec 64 := BitVec.ofNat 64 (pattern (!isNegative x) (rank x))
  have hb' : b'.toNat = if b.toNat < 2 ^ 63 then 2 ^ 63 + b.toNat else b.toNat - 2 ^ 63 := by
    have := b.isLt
    rw [(toNat_pattern (!isNegative x) hrank).2, pattern, isNegative, rank, Nat.pow_eq,
      show x.toBits.toNat = b.toNat from rfl]
    simp only [Bool.not_eq_true', decide_eq_false_iff_not, Nat.not_le]
    split <;> omega
  show Float.ofModel (Float.Model.pack (UnpackedFloat.unpack .binary64 b).neg) =
    Float.ofModel (Float.Model.pack (UnpackedFloat.unpack .binary64 b'))
  rw [unpack_eq_neg hb']

theorem signedRank_neg {x : Float} (hx : isNaN x = false) : signedRank (-x) = -signedRank x := by
  have hrank := rank_le_infinity hx
  rw [neg_eq hx, signedRank, signedRank, isNegative_toFloat hrank, rank_toFloat hrank]
  cases isNegative x <;> simp

end Formulary.Binary64
