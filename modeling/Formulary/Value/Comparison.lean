import Formulary.Value.Arithmetic

/-!
# Comparing values

Two values compare as numbers (by their doubles), as texts (by code points) or as booleans (false
before true). Every comparison is then read off one ordering; what is no number has none, and only
`<>` holds of it.

Nothing compares with an empty value: the result is empty. A sequence compares with nothing at all.
Values of two different types are merely different: `<>` holds of them, and the other comparisons
refuse them.

Main statements: `compare_empty_left` and `compare_empty_right`.
-/

namespace Formulary

/-- Whether a comparison holds of two things with this ordering. -/
def CompareOp.holds : CompareOp → Option Ordering → Bool
  | gt, o => o == some .gt
  | ge, o => o == some .gt || o == some .eq
  | eq, o => o == some .eq
  | lt, o => o == some .lt
  | le, o => o == some .lt || o == some .eq
  | ne, o => o != some .eq

namespace Value

/-- The order of texts by code points. -/
def textOrder (s t : String) : Ordering :=
  if s < t then .lt else if s = t then .eq else .gt

/-- False before true. -/
def booleanOrder : Bool → Bool → Ordering
  | false, true => .lt
  | true, false => .gt
  | _, _ => .eq

/-- The refusal to compare two values. -/
def incomparable (left : Value) (op : CompareOp) (right : Value) : OperationError :=
  .showing left fun l => .showing right fun r => .cannotCompare left.type l op right.type r

/-- A comparison of two values. -/
def compare (op : CompareOp) (left right : Value) : Except OperationError Value :=
  match left, right with
  | .empty, _ | _, .empty => .ok .empty
  | .sequence _, _ | _, .sequence _ => .error (incomparable left op right)
  | .number m, .number n => do
    return .boolean (op.holds (Binary64.order (← m.toFloat) (← n.toFloat)))
  | .text s, .text t => .ok (.boolean (op.holds (some (textOrder s t))))
  | .boolean a, .boolean b => .ok (.boolean (op.holds (some (booleanOrder a b))))
  | _, _ => if op = .ne then .ok (.boolean true) else .error (incomparable left op right)

theorem compare_empty_left (op : CompareOp) (v : Value) : compare op .empty v = .ok .empty := rfl

theorem compare_empty_right (op : CompareOp) (v : Value) : compare op v .empty = .ok .empty := by
  cases v <;> rfl

end Value

end Formulary
