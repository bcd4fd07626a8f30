import Formulary.Table
import Formulary.Value.Comparison

/-!
# Functions

A function takes the values of its arguments, in order, to a value. A range of variables is one
argument, a sequence.

The *standard* functions are those that every environment has unless it says otherwise: `sqrt`,
`sum`, `when`, `und` (and) and `oder` (or).
-/

namespace Formulary

/-- What a call does with the values of its arguments. -/
abbrev Function := List Value → Except OperationError Value

namespace Function

/-- The square root of a number. A negative number has none, which is a double too. -/
def sqrt : Function
  | [.number n] => do return .ofFloat (← n.toFloat).sqrt
  | [v] => .error (.showing v (.numberExpected "sqrt"))
  | vs => .error (.wrongArity "sqrt" 1 vs.length)

/-- The sum of all numbers in the arguments, those in sequences included. All else is skipped. -/
def sum : Function := fun vs => do
  return .ofFloat (← Number.sum ((Value.flattenList vs).filterMap Value.number?))

/-- The second argument if the first one is true, the third one if it is false. -/
def choose : Function
  | [.boolean condition, yes, no] => .ok (if condition then yes else no)
  | [v, _, _] => .error (.showing v (.conditionExpected "when"))
  | vs => .error (.wrongArity "when" 3 vs.length)

/-- Whether all arguments are true. -/
def conjunction : Function := fun vs => .ok (.boolean (vs.all Value.isTrue))

/-- Whether an argument is true. -/
def disjunction : Function := fun vs => .ok (.boolean (vs.any Value.isTrue))

/-- The standard functions under their names. -/
def standard : Table Function :=
  .ofList [("sqrt", sqrt), ("sum", sum), ("when", choose), ("und", conjunction),
    ("oder", disjunction)]

end Function

end Formulary
