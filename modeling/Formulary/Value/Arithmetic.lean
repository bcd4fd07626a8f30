import Formulary.Value.Error

/-!
# Arithmetic on values

Operators compute with doubles, so that nothing fails but an integer too large for a double:
division by zero and overflow give infinities or no number. An operand that is no number makes the
result empty. Only the minus sign is stricter: it refuses what is neither number nor empty.

Main statements: `arith_empty_left`, `arith_empty_right` and `negate_empty`, that nothing comes of
nothing.
-/

namespace Formulary

/-- The operator on doubles. -/
def ArithOp.apply : ArithOp → Float → Float → Float
  | add, x, y => x + y
  | sub, x, y => x - y
  | mul, x, y => x * y
  | div, x, y => x / y
  | pow, x, y => Float.pow x y

namespace Number

/-- The double nearest to a number. -/
def toFloat : Number → Except OperationError Float
  | integer i =>
    match Binary64.ofInt? i with
    | some x => .ok x
    | none => .error .integerTooLarge
  | float x => .ok x

/-- The sum of two numbers: exact for integers, a double as soon as one of them is. -/
def add : Number → Number → Except OperationError Number
  | integer i, integer j => .ok (.integer (i + j))
  | m, n => do return .float ((← m.toFloat) + (← n.toFloat))

/-- The sum of numbers from left to right, as a double. -/
def sum (ns : List Number) : Except OperationError Float := do
  (← ns.foldlM add (.integer 0)).toFloat

end Number

namespace Value

/-- A double as a value. -/
def ofFloat (x : Float) : Value := .number (.float x)

/-- An arithmetic operator on values. -/
def arith (op : ArithOp) : Value → Value → Except OperationError Value
  | .number m, .number n => do return ofFloat (op.apply (← m.toFloat) (← n.toFloat))
  | _, _ => .ok .empty

/-- A value with a minus in front. -/
def negate : Value → Except OperationError Value
  | .empty => .ok .empty
  | .number n => do return ofFloat (-(← n.toFloat))
  | v => .error (.showing v (.cannotNegate v.type))

theorem arith_empty_left (op : ArithOp) (v : Value) : arith op .empty v = .ok .empty := rfl

theorem arith_empty_right (op : ArithOp) (v : Value) : arith op v .empty = .ok .empty := by
  cases v <;> rfl

theorem negate_empty : negate .empty = .ok .empty := rfl

end Value

end Formulary
