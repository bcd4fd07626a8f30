import Formulary.Expr.Basic
import Formulary.Function

/-!
# What the names in a formula mean

An environment has a table of variables, one of functions and one of formulas. A variable without
a binding is no error: it is empty.

The name of a variable may be a *range*, `first:last`. A range stands for the values of all
variables whose names lie between its ends, in the order of their names. Of a name with several
colons the ends are what stands before the first and behind the last.
-/

namespace Formulary

/-- Names and what they stand for. -/
structure Environment where
  vars : Table Value
  functions : Table Function
  formulas : Table Expr

namespace Environment

/-- An environment with the standard functions only. -/
def standard : Environment := ⟨.empty, Function.standard, .empty⟩

instance : Inhabited Environment := ⟨standard⟩

/-- The ends of a range, if the name has a colon. -/
def rangeEnds? (name : String) : Option (String × String) :=
  let cs := name.toList
  if cs.contains ':' then
    some (String.ofList (cs.takeWhile (· != ':')),
      String.ofList (cs.reverse.takeWhile (· != ':')).reverse)
  else none

/-- The entries of a table, in the order of their names. -/
def sortedEntries {α : Type} (t : Table α) : List (String × α) :=
  t.entries.mergeSort fun a b => a.1 ≤ b.1

/-- The values of the variables whose names lie between two names, in the order of their names. -/
def rangeValues (vars : Table Value) (first last : String) : List Value :=
  ((sortedEntries vars).filter fun (k, _) => first ≤ k && k ≤ last).map (·.2)

/-- What a variable or a range stands for. -/
def valueOf (vars : Table Value) (name : String) : Value :=
  match rangeEnds? name with
  | some (first, last) => .sequence (rangeValues vars first last)
  | none => (vars.find? name).getD .empty

end Environment

end Formulary
