import Formulary.Proofs.Number.ReadBack
import Formulary.Proofs.Source.Tokens
import Mathlib.Algebra.Field.Rat
import Mathlib.Algebra.GroupWithZero.Basic
import Mathlib.Tactic.NormNum

/-!
# What a written number stands for

The text of a number stands for a rational number (`Decimal.valueOfText`): its digits make a whole
number, the point in it divides by a power of ten, an exponent at the end multiplies by one, and a
minus in front changes the sign.

**A formula writes a finite number without an exponent, and exactly**: with digits on both sides of
a point, for the very number that the shortest text stands for, be it of the scientific layout or
not (`positional_exact`). Hence a number without a sign is read back from its text, and nothing of
the text is left.
-/

namespace Formulary

namespace Decimal

/-! ## The value of a text -/

/-- The number that a decimal is. -/
def value (d : Decimal) : ℚ := d.significand * 10 ^ d.exponent

/-- The exponent of ten that ends a text; zero if there is none. -/
def exponentOf : List Char → Int
  | 'e' :: '-' :: ds => -(ofDigits ds : Int)
  | 'e' :: '+' :: ds => ofDigits ds
  | _ => 0

/-- The digits behind a point, if there is one, and what comes after them. -/
def fractionOf : List Char → List Char × List Char
  | '.' :: s => (s.takeWhile Char.isDigit, s.dropWhile Char.isDigit)
  | s => ([], s)

/-- The decimal that a text without a sign stands for. -/
def ofText (s : List Char) : Decimal :=
  let (fraction, rest) := fractionOf (s.dropWhile Char.isDigit)
  let d := ofParts (s.takeWhile Char.isDigit) fraction
  ⟨d.significand, d.exponent + exponentOf rest⟩

/-- The number that a text stands for. -/
def valueOfText : List Char → ℚ
  | '-' :: s => -(ofText s).value
  | s => (ofText s).value

section

variable {d : Decimal} {s whole fraction rest : List Char}

theorem value_refined (d : Decimal) (n : Nat) : (d.refined n).value = d.value := by
  have hten : (10 : ℚ) ≠ 0 := by norm_num
  rw [value, refined, zpow_sub₀ hten, zpow_natCast, Nat.cast_mul, Nat.cast_pow, Nat.cast_ofNat,
    mul_assoc, mul_div_cancel₀ _ (pow_ne_zero n hten)]
  rfl

theorem exponentOf_exponentText (e : Int) : exponentOf (exponentText e) = e := by
  have hdigits : ofDigits (Nat.toDigits 10 e.natAbs) = e.natAbs := by
    rw [ofDigits_eq, Nat.ofDigitChars_ten_toDigits]
  have hpadded (ds : List Char) :
      ofDigits (if ds.length < 2 then '0' :: ds else ds) = ofDigits ds := by
    split_ifs
    · exact ofDigits_zeros_append 1 ds
    · rfl
  unfold exponentText
  by_cases he : e < 0
  · rw [if_pos he]
    show -(ofDigits _ : Int) = e
    rw [hpadded, hdigits]
    omega
  · rw [if_neg he]
    show (ofDigits _ : Int) = e
    rw [hpadded, hdigits]
    omega

theorem span_digits (hwhole : ∀ c ∈ whole, c.isDigit = true)
    (hrest : ∀ c ∈ rest.head?, c.isDigit = false) :
    (whole ++ rest).takeWhile Char.isDigit = whole ∧
      (whole ++ rest).dropWhile Char.isDigit = rest :=
  ⟨Parser.takeWhile_append_stop hwhole hrest, Parser.dropWhile_append_stop hwhole hrest⟩

/-- A text with digits on both sides of a point. -/
theorem ofText_append (hwhole : ∀ c ∈ whole, c.isDigit = true)
    (hfraction : ∀ c ∈ fraction, c.isDigit = true) (hrest : ∀ c ∈ rest.head?, c.isDigit = false) :
    ofText (whole ++ '.' :: (fraction ++ rest)) =
      ⟨ofDigits (whole ++ fraction), exponentOf rest - fraction.length⟩ := by
  have hpoint : ∀ c ∈ ('.' :: (fraction ++ rest)).head?, c.isDigit = false := by simp
  obtain ⟨hw, hbehind⟩ := span_digits hwhole hpoint
  obtain ⟨hf, hend⟩ := span_digits hfraction hrest
  unfold ofText
  rw [hbehind, hw]
  simp only [fractionOf, hf, hend, ofParts]
  rw [Int.add_comm]
  rfl

theorem ofText_of_parts (h : Parts s whole fraction) : ofText s = ofParts whole fraction := by
  have hnil : ∀ c ∈ ([] : List Char).head?, c.isDigit = false := by simp
  have happend := ofText_append h.isDigit_whole h.isDigit_fraction hnil
  rw [List.append_nil, ← h.text] at happend
  rw [happend, exponentOf, Int.zero_sub]
  · rfl
  · exact nofun
  · exact nofun

/-- A text without a point. -/
theorem ofText_whole (hwhole : ∀ c ∈ whole, c.isDigit = true)
    (hrest : ∀ c ∈ rest.head?, c.isDigit = false) (hpoint : rest.head? ≠ some '.') :
    ofText (whole ++ rest) = ⟨ofDigits whole, exponentOf rest⟩ := by
  obtain ⟨hw, hbehind⟩ := span_digits hwhole hrest
  have hnone : fractionOf rest = ([], rest) := by
    unfold fractionOf
    split
    · exact absurd rfl hpoint
    · rfl
  unfold ofText
  rw [hbehind, hw, hnone]
  simp [ofParts]

/-- The exponent of the scientific layout makes up for the place of its point. -/
theorem ofText_scientific (d : Decimal) : ofText d.scientific = d := by
  have hpoint : d.point = d.digits.length + d.exponent := rfl
  have hsignificand := ofDigits_digits d
  have hdigit := isDigit_digits d
  have hlength := length_digits_pos d
  have hrest : ∀ c ∈ (exponentText (d.point - 1)).head?, c.isDigit = false := by
    rintro c ⟨⟩
    rfl
  unfold scientific
  generalize d.digits = ds at hpoint hsignificand hdigit hlength
  match ds with
  | [] => exact absurd hlength (Nat.lt_irrefl 0)
  | [digit] =>
    have hexponent : d.point - 1 = d.exponent := by
      rw [hpoint, List.length_singleton]
      omega
    show ofText ([digit] ++ exponentText _) = d
    rw [ofText_whole hdigit hrest (by simp [exponentText]), exponentOf_exponentText, hsignificand,
      hexponent]
  | first :: second :: more =>
    obtain ⟨hfirst, hmore⟩ := List.forall_mem_cons.1 hdigit
    have hexponent : d.point - 1 - ((second :: more).length : Int) = d.exponent := by
      rw [hpoint, List.length_cons]
      omega
    show ofText ([first] ++ '.' :: ((second :: more) ++ exponentText _)) = d
    rw [ofText_append (by simpa using hfirst) hmore hrest, exponentOf_exponentText, hexponent]
    show Decimal.mk (ofDigits (first :: second :: more)) _ = d
    rw [hsignificand]

example : ofText ['1', '.', '5', 'e', '-', '0', '7'] = ⟨15, -8⟩ := by decide

theorem value_ofText_positional (d : Decimal) : (ofText d.positional).value = d.value := by
  obtain ⟨whole, fraction, n, hparts, hvalue⟩ := exists_parts_positional d
  rw [ofText_of_parts hparts, hvalue, value_refined]

theorem value_ofText_display (d : Decimal) : (ofText d.display).value = d.value := by
  unfold display
  split_ifs
  · exact value_ofText_positional d
  · rw [ofText_scientific]

theorem head?_positional (d : Decimal) : d.positional.head? ≠ some '-' := by
  obtain ⟨whole, fraction, n, hparts, -⟩ := exists_parts_positional d
  obtain ⟨c, cs, rfl⟩ := List.exists_cons_of_ne_nil hparts.whole_ne_nil
  rw [hparts.text]
  rintro ⟨⟩
  exact absurd (hparts.isDigit_whole '-' List.mem_cons_self) (by decide)

theorem head?_display (d : Decimal) : d.display.head? ≠ some '-' := by
  have hdigit := isDigit_digits d
  have hlength := length_digits_pos d
  unfold display
  split_ifs
  · exact head?_positional d
  · unfold scientific
    generalize d.digits = ds at hdigit hlength
    match ds with
    | [] => exact absurd hlength (Nat.lt_irrefl 0)
    | [digit] | digit :: second :: more =>
      rintro ⟨⟩
      exact absurd (hdigit '-' List.mem_cons_self) (by decide)

end

end Decimal

namespace Binary64

variable {x : Float}

/-- With its sign, a number is written for its shortest decimal if it is without. -/
theorem valueOfText_write (hx : IsFinite x) {layout : Decimal → List Char}
    (hvalue : ∀ d, (Decimal.ofText (layout d)).value = d.value)
    (hhead : ∀ d, (layout d).head? ≠ some '-') :
    Decimal.valueOfText (write layout x) =
      if isNegative x then -(Decimal.shortest (rank x)).value
      else (Decimal.shortest (rank x)).value := by
  rw [write_of_isFinite hx]
  split_ifs
  · show -(Decimal.ofText (layout _)).value = _
    rw [hvalue]
  · have hsign : ∀ s : List Char, s.head? ≠ some '-' →
        Decimal.valueOfText s = (Decimal.ofText s).value := by
      intro s hs
      unfold Decimal.valueOfText
      split
      · exact absurd rfl hs
      · rfl
    rw [List.nil_append, hsign _ (hhead _), hvalue]

/-- **A formula writes a finite number without an exponent, and exactly**: a minus if the sign bit
is set, as it is for `-0.0`, and digits on both sides of a point. Its text stands for the same
number as the shortest text of the double, in whichever layout that one is. Where the sign bit is
clear, the double is read back from its text, and nothing of the text is left. -/
theorem positional_exact (hx : IsFinite x) :
    (∃ whole fraction,
      positional x = (if isNegative x then ['-'] else []) ++ (whole ++ '.' :: fraction) ∧
        whole ≠ [] ∧ fraction ≠ [] ∧ ∀ c ∈ whole ++ fraction, c.isDigit) ∧
      Decimal.valueOfText (positional x) = Decimal.valueOfText (display x) ∧
      (isNegative x = false → ∀ position,
        Cursor.readNumber ⟨positional x, position⟩ =
          (.ok x, ⟨[], position + (positional x).length⟩)) := by
  refine ⟨?_, ?_, fun hs position => ?_⟩
  · obtain ⟨whole, fraction, n, hparts, -⟩ :=
      Decimal.exists_parts_positional (Decimal.shortest (rank x))
    refine ⟨whole, fraction, ?_, hparts.whole_ne_nil, hparts.fraction_ne_nil, ?_⟩
    · rw [positional, write_of_isFinite hx, hparts.text]
    · exact List.forall_mem_append.2 ⟨hparts.isDigit_whole, hparts.isDigit_fraction⟩
  · rw [positional, display, valueOfText_write hx Decimal.value_ofText_positional
      Decimal.head?_positional, valueOfText_write hx Decimal.value_ofText_display
      Decimal.head?_display]
  · obtain ⟨hread, whole, fraction, hparts⟩ := ofNumeral?_positional hx hs
    have hend : ∀ c ∈ ([] : List Char).head?, Text.isNumeral c = false := by simp
    have h := Parser.readNumber_append (Grammar.isNumeral_of_parts hparts) hread hend position
    rwa [List.append_nil] at h

/-- The greatest double, whose text has 309 digits before the point. -/
theorem positional_exact_greatest : IsFinite (toFloat false (infinity - 1)) ∧
    Cursor.readNumber ⟨positional (toFloat false (infinity - 1)), 0⟩ =
      (.ok (toFloat false (infinity - 1)),
        ⟨[], 0 + (positional (toFloat false (infinity - 1))).length⟩) := by
  have hle : infinity - 1 ≤ infinity := Nat.sub_le _ _
  have hpos : 0 < infinity := by
    rw [infinity, binade_eq]
    norm_num
  have hfinite : IsFinite (toFloat false (infinity - 1)) := by
    rw [IsFinite, rank_toFloat hle]
    exact Nat.sub_lt hpos Nat.one_pos
  exact ⟨hfinite, (positional_exact hfinite).2.2 (isNegative_toFloat hle) 0⟩

end Binary64

end Formulary
