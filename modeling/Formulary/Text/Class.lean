/-!
# Character classes of formula source

A formula is read by looking at one character at a time, and every decision is about a class of
characters: blanks stand between tokens, digits and dots make numbers, letters begin names.

Blanks are the space characters of Unicode (the space, line and paragraph separators). A tab or a
line break is *not* a blank. Letters and digits are those of ASCII alone, so the core predicates
`Char.isAlpha` and `Char.isDigit` serve unchanged.

Main statement: `isBlank_eq_false_of_ne`, that the classes which begin a token hold no blank.
-/

namespace Formulary.Text

/-- A space, line or paragraph separator. -/
def isBlank (c : Char) : Bool :=
  let n := c.toNat
  n == 0x20 || n == 0xa0 || n == 0x1680 || (0x2000 ≤ n && n ≤ 0x200a) ||
    n == 0x2028 || n == 0x2029 || n == 0x202f || n == 0x205f || n == 0x3000

/-- A digit or a dot: the characters that a written number is made of. -/
def isNumeral (c : Char) : Bool := c.isDigit || c == '.'

/-- A letter, a digit or a colon: what may follow the first letter of a variable's name. The colon
makes a range such as `r1:r4` one name. -/
def isNamePart (c : Char) : Bool := c.isAlphanum || c == ':'

/-- A blank other than the space lies outside ASCII. -/
theorem eq_space_or_le_of_isBlank {c : Char} (h : isBlank c = true) :
    c.toNat = 0x20 ∨ 0xa0 ≤ c.toNat := by
  simp only [isBlank, Bool.or_eq_true, beq_iff_eq, Bool.and_eq_true, decide_eq_true_eq] at h
  omega

/-- No other ASCII character is a blank, so no operator, bracket, letter or digit is. -/
theorem isBlank_eq_false_of_ne {c : Char} (h : c.toNat < 0xa0) (hc : c.toNat ≠ 0x20) :
    isBlank c = false :=
  Bool.eq_false_iff.2 fun hb => by
    have := eq_space_or_le_of_isBlank hb
    omega

end Formulary.Text
