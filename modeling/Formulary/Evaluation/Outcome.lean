import Formulary.Expr.Text
import Formulary.Name.Closest
import Formulary.Value.Error

/-!
# Outcomes of an evaluation

Evaluating a tree gives a value or the reason why there is none, and a trace: a line for each node
whose evaluation was begun. A line shows its node, how deep it lies, and the value that the node
turned out to have; a node that was not finished is shown empty.

Not every value can be shown. The line of a node with a value that cannot is left blank, and in a
trace such a node has no value after all (`displayed`).

Outcomes are composed by `bind`: the second part is not begun if the first one failed, and its lines
come behind those of the first.
-/

namespace Formulary

/-- Why a formula has no value. -/
inductive EvaluationError where
  /-- An operator or a function has no result. -/
  | operation (cause : OperationError)
  | functionNotFound (name : String) (suggestions : List String)
  | formulaNotFound (name : String) (suggestions : List String)
  /-- A formula refers to itself; `path` leads from the outermost reference to the one that closes
  the cycle. -/
  | cycle (path : List String)
  /-- References go on for ever, and nobody watches for cycles. -/
  | unbounded

namespace EvaluationError

/-- An unknown name and what may have been meant. -/
def notFound (kind name : String) (suggestions : List String) : String :=
  "Undefined " ++ kind ++ ": " ++ name ++
    (if suggestions.isEmpty then ""
      else " (did you mean " ++ ", ".intercalate suggestions ++ "?)")

/-- What is wrong. -/
def message : EvaluationError → String
  | operation cause => cause.message
  | functionNotFound name suggestions => notFound "function" name suggestions
  | formulaNotFound name suggestions => notFound "formula" name suggestions
  | cycle path => "Detected cycle: " ++ " -> ".intercalate path
  | unbounded => "References without end"

end EvaluationError

/-- A line of a trace. -/
structure TraceLine where
  depth : Nat
  node : Expr
  /-- The value of the node; empty if its evaluation did not end. -/
  shown : Value

namespace TraceLine

/-- What stands in front of a line, one column for each level. -/
def indentation : Nat → String
  | 0 => ""
  | depth + 1 => String.join (List.replicate depth "│  ") ++ "└─ "

/-- The text of a line, if its value can be shown. -/
def text? (line : TraceLine) : Option String :=
  line.shown.display?.map fun shown =>
    indentation line.depth ++ line.node.kind ++ ": " ++ line.node.toText ++ " --> " ++ shown

/-- A line as it stands in the trace: blank if its value cannot be shown. -/
def text (line : TraceLine) : String := line.text?.getD ""

end TraceLine

/-- What evaluating something gives. -/
structure Outcome (α : Type) where
  result : Except EvaluationError α
  /-- The lines of the trace, each node before its operands. -/
  lines : List TraceLine

namespace Outcome

variable {α β : Type}

/-- Success without a trace. -/
def pure (a : α) : Outcome α := ⟨.ok a, []⟩

/-- Failure without a trace. -/
def fail (e : EvaluationError) : Outcome α := ⟨.error e, []⟩

/-- One evaluation after another. -/
def bind (o : Outcome α) (f : α → Outcome β) : Outcome β :=
  match o.result with
  | .error e => ⟨.error e, o.lines⟩
  | .ok a =>
    let next := f a
    ⟨next.result, o.lines ++ next.lines⟩

/-- The result of an operator or a function. -/
def ofOperation (r : Except OperationError α) : Outcome α := ⟨r.mapError .operation, []⟩

end Outcome

/-- What a line shows of a result. -/
def shownValue : Except EvaluationError Value → Value
  | .ok v => v
  | .error _ => .empty

/-- The result of a node, which a trace has to show if one is kept. -/
def displayed (traced : Bool) : Except EvaluationError Value → Except EvaluationError Value
  | .ok v => if traced && v.display?.isNone then .error (.operation .tooManyDigits) else .ok v
  | .error e => .error e

theorem displayed_of_shown {traced : Bool} {v : Value} (h : v.display? ≠ none) :
    displayed traced (.ok v) = .ok v := by
  simp [displayed, h]

theorem displayed_empty (traced : Bool) : displayed traced (.ok .empty) = .ok .empty :=
  displayed_of_shown (Option.some_ne_none _)

theorem displayed_of_hidden {v : Value} (h : v.display? = none) :
    displayed true (.ok v) = .error (.operation .tooManyDigits) := by
  simp [displayed, h]

@[simp] theorem displayed_false (result : Except EvaluationError Value) :
    displayed false result = result := by
  cases result <;> rfl

theorem displayed_eq_or (traced : Bool) (result : Except EvaluationError Value) :
    displayed traced result = result ∨
      displayed traced result = .error (.operation .tooManyDigits) := by
  cases result with
  | error e => exact .inl rfl
  | ok v =>
    by_cases h : v.display? = none
    · cases traced with
      | false => exact .inl rfl
      | true => exact .inr (displayed_of_hidden h)
    · exact .inl (displayed_of_shown h)

/-- What was displayed can be displayed again. -/
@[simp] theorem displayed_displayed (traced : Bool) (result : Except EvaluationError Value) :
    displayed traced (displayed traced result) = displayed traced result := by
  rcases displayed_eq_or traced result with h | h <;> simp only [h]
  rfl

end Formulary
