/-!
# Why a source is no formula

Every cause but one has a position: the number of characters before the place where reading
stopped. A source that holds no operand at all is an empty formula, which is no fault at any one
place.
-/

namespace Formulary

/-- Why a source cannot be read as a formula. -/
inductive SyntaxError where
  /-- There is no operand before the end of the source. -/
  | emptyFormula
  /-- A character where an operand, an operator or the end was expected. -/
  | unexpected (c : Char) (position : Nat)
  /-- Something other than a closing parenthesis after the inside of a bracket. -/
  | unclosedBracket (position : Nat)
  /-- Something other than a semicolon or a closing parenthesis after an argument. -/
  | unclosedCall (found : Char) (position : Nat)
  /-- A text that began at `position`, never closed; `inside` is what was read of it. -/
  | unclosedText (inside : String) (position : Nat)
  /-- Dots without a digit. -/
  | invalidNumber (position : Nat)
  /-- Something other than a letter where a name must begin. -/
  | missingName (position : Nat)
  /-- Something other than a letter or a digit after the sign of a reference. -/
  | missingFormulaName (position : Nat)
  deriving DecidableEq, Repr

namespace SyntaxError

/-- Where reading stopped. -/
def position? : SyntaxError → Option Nat
  | emptyFormula => none
  | unexpected _ p | unclosedBracket p | unclosedCall _ p | unclosedText _ p | invalidNumber p
  | missingName p | missingFormulaName p => some p

/-- What is wrong, without the position. -/
def description : SyntaxError → String
  | emptyFormula => "Empty formula"
  | unexpected c _ => "Unexpected character '" ++ c.toString ++ "'"
  | unclosedBracket _ => "Expected closing parenthesis ')'"
  | unclosedCall c _ => "Expected ';' or ')' in function call, got '" ++ c.toString ++ "'"
  | unclosedText s _ => "Unterminated string literal '" ++ s ++ "'"
  | invalidNumber _ => "Invalid number ''"
  | missingName _ => "Expected a name"
  | missingFormulaName _ => "Expected formula name after '='"

/-- What is wrong and where. -/
def message (e : SyntaxError) : String :=
  match e.position? with
  | none => e.description
  | some p => e.description ++ " at position " ++ Nat.repr p

end SyntaxError

end Formulary
