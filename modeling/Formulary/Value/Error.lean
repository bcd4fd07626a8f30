import Formulary.Expr.Basic
import Formulary.Value.Basic

/-!
# Why an operation has no result

Operators and functions refuse some operands, and say which. An operand that cannot be shown is
itself the reason then (`showing`). A function given by its user may also fail for reasons of its
own.
-/

namespace Formulary

/-- Why an operator or a function has no result. The values that messages speak of are kept as they
are shown. -/
inductive OperationError where
  /-- A minus in front of something that is no number. -/
  | cannotNegate (type : ValueType) (shown : String)
  /-- A comparison of values that do not compare. -/
  | cannotCompare (leftType : ValueType) (left : String) (op : CompareOp) (rightType : ValueType)
    (right : String)
  /-- An integer beyond all doubles, where a double is needed. -/
  | integerTooLarge
  /-- A value that has to be shown, with an integer in it that has too many digits. -/
  | tooManyDigits
  /-- A function with the wrong number of arguments. -/
  | wrongArity (function : String) (expected given : Nat)
  /-- A function that needs a number. -/
  | numberExpected (function : String) (given : String)
  /-- A function that needs a condition. -/
  | conditionExpected (function : String) (given : String)
  /-- A failure of a function's own. -/
  | failed (reason : String)

namespace OperationError

/-- An error that shows a value, if the value can be shown. -/
def showing (v : Value) (error : (shown : String) → OperationError) : OperationError :=
  match v.display? with
  | some shown => error shown
  | none => .tooManyDigits

/-- What is wrong. -/
def message : OperationError → String
  | cannotNegate type shown => "Cannot negate " ++ type.name ++ " value " ++ shown
  | cannotCompare leftType left op rightType right =>
    "Cannot compare " ++ leftType.name ++ " " ++ left ++ " with " ++ rightType.name ++ " " ++
      right ++ " using '" ++ op.symbol ++ "'"
  | integerTooLarge => "int too large to convert to float"
  | tooManyDigits =>
    "Exceeds the limit (" ++ Nat.repr digitLimit ++ " digits) for integer string conversion; " ++
      "use sys.set_int_max_str_digits() to increase the limit"
  | wrongArity f expected given =>
    f ++ "() takes " ++ Nat.repr expected ++ (if expected = 1 then " argument" else " arguments") ++
      ", got " ++ Nat.repr given
  | numberExpected f given => f ++ "() expects a number, got " ++ given
  | conditionExpected f given => f ++ "() expects a boolean condition, got " ++ given
  | failed reason => reason

theorem showing_of_tooLong {v : Value} (h : v.TooLong) (error : String → OperationError) :
    showing v error = .tooManyDigits := by
  rw [showing, Value.display?_eq_none_iff.2 h]

end OperationError

end Formulary
