import Formulary.Environment
import Formulary.Evaluation.Outcome
import Formulary.Value.Comparison

/-!
# Evaluating a tree

Operands are evaluated from left to right, and the first failure ends the evaluation. What a
reference to a formula means is left to the `Scope`; see `Formulary.Evaluation.Reference`.

**Chains.** A sum of a thousand terms is a tree a thousand levels deep. Its operators lie on the left
spine, so the evaluator walks down the spine, remembering each operation as a `Link`, evaluates what
it finds at the bottom, and climbs back up through the links with the value so far. On the way up
it collects the lines of the operations themselves separately from those of their operands: in the
trace the operations come first, the outermost one in front. A loop that keeps its trace in place
reserves these lines on the way down and fills them in later, by their indexes; that it comes to the
same lines is shown in `Formulary.Proofs.Evaluation.Spine` and `Formulary.Proofs.Evaluation.Recursion`.

Main statements: `evaluateOnto_eq_resume`, that links only wait for the value below them, and
`evaluate_arith`, that the walk along the spine does what evaluating the operands one after the
other does, line for line.
-/

namespace Formulary

/-- All that the evaluation of one tree depends on. -/
structure Scope where
  vars : Table Value
  functions : Table Function
  /-- The evaluation of the formula with this name, its tree lying at this depth. -/
  formula : (name : String) → (depth : Nat) → Outcome Value
  /-- Whether a trace is kept. -/
  traced : Bool

/-- An operation on the left spine of a tree, whose left operand is still being evaluated. -/
structure Link where
  depth : Nat
  /-- The operation itself. -/
  node : Expr
  op : ArithOp
  /-- The evaluation of the right operand, lying at this depth. -/
  right : (depth : Nat) → Outcome Value

namespace Scope

/-- The line of a node, if a trace is kept. -/
def line (scope : Scope) (depth : Nat) (node : Expr) (result : Except EvaluationError Value) :
    List TraceLine :=
  if scope.traced then [⟨depth, node, shownValue result⟩] else []

/-- Puts the line of a node in front of those of its operands. -/
def close (scope : Scope) (depth : Nat) (node : Expr) (o : Outcome Value) : Outcome Value :=
  ⟨displayed scope.traced o.result, scope.line depth node o.result ++ o.lines⟩

/-- Applies the operations in `links`, the innermost one first, to the value of their left
operand. `above` holds the lines of the operations done, the outermost one first, and `below` those
of their operands, in pieces, the last piece first. -/
def climb (scope : Scope) :
    (links : List Link) → (left : Except EvaluationError Value) →
    (above : List TraceLine) → (below : List (List TraceLine)) → Outcome Value
  | [], value, above, below => ⟨value, above ++ below.reverse.flatten⟩
  | link :: links, .error e, above, below =>
    climb scope links (.error e) (scope.line link.depth link.node (.error e) ++ above) below
  | link :: links, .ok left, above, below =>
    let right := link.right (link.depth + 1)
    let result := right.result.bind fun right => (left.arith link.op right).mapError .operation
    climb scope links (displayed scope.traced result)
      (scope.line link.depth link.node result ++ above) (right.lines :: below)

/-- Goes on with the operations in `links` after their innermost left operand. -/
def resume (scope : Scope) (links : List Link) (o : Outcome Value) : Outcome Value :=
  scope.climb links o.result [] [o.lines]

/-- The value of a call. The function is looked up after its arguments have values. -/
def apply (scope : Scope) (name : String) (arguments : List Value) : Outcome Value :=
  match scope.functions.find? name with
  | some f => .ofOperation (f arguments)
  | none => .fail (.functionNotFound name (suggestions name scope.functions.keys))

mutual

/-- Evaluates a tree lying at a depth, and then the operations in `links` that wait for it. -/
def evaluateOnto (scope : Scope) : Expr → (links : List Link) → (depth : Nat) → Outcome Value
  | .arith l op r, links, depth =>
    let link : Link := ⟨depth, .arith l op r, op, evaluateOnto scope r []⟩
    evaluateOnto scope l (link :: links) (depth + 1)
  | .number x, links, depth =>
    scope.resume links <| scope.close depth (.number x) (.pure (.ofFloat x))
  | .text s, links, depth =>
    scope.resume links <| scope.close depth (.text s) (.pure (.text s))
  | .var name, links, depth =>
    scope.resume links <| scope.close depth (.var name) <|
      .pure (Environment.valueOf scope.vars name)
  | .reference name, links, depth =>
    scope.resume links <| scope.close depth (.reference name) (scope.formula name (depth + 1))
  | .bracket e, links, depth =>
    scope.resume links <| scope.close depth (.bracket e) (evaluateOnto scope e [] (depth + 1))
  | .minus e, links, depth =>
    scope.resume links <| scope.close depth (.minus e) <|
      (evaluateOnto scope e [] (depth + 1)).bind fun v => .ofOperation v.negate
  | .compare l op r, links, depth =>
    scope.resume links <| scope.close depth (.compare l op r) <|
      (evaluateOnto scope l [] (depth + 1)).bind fun left =>
        (evaluateOnto scope r [] (depth + 1)).bind fun right => .ofOperation (left.compare op right)
  | .call name es, links, depth =>
    scope.resume links <| scope.close depth (.call name es) <|
      (evaluateList scope es (depth + 1)).bind fun vs => scope.apply name vs

/-- Evaluates the arguments of a call, all lying at one depth. -/
def evaluateList (scope : Scope) : List Expr → (depth : Nat) → Outcome (List Value)
  | [], _ => .pure []
  | e :: es, depth =>
    (evaluateOnto scope e [] depth).bind fun v =>
      (evaluateList scope es depth).bind fun vs => .pure (v :: vs)

end

/-- Evaluates a tree lying at a depth. -/
def evaluate (scope : Scope) (e : Expr) (depth : Nat) : Outcome Value :=
  scope.evaluateOnto e [] depth

/-! ## Chains are evaluated operand by operand -/

/-- Only the order of the lines collected so far matters, not how they were collected. -/
theorem climb_eq_climb_nil (scope : Scope) (links : List Link)
    (left : Except EvaluationError Value) (above : List TraceLine)
    (below : List (List TraceLine)) :
    scope.climb links left above below =
      scope.climb links left [] [above ++ below.reverse.flatten] := by
  induction links generalizing left above below with
  | nil => simp [climb]
  | cons link links ih =>
    cases left with
    | error e => rw [climb, ih, climb, ih _ (_ ++ [])]; simp
    | ok left => rw [climb, ih, climb, ih _ (_ ++ [])]; simp

theorem resume_nil (scope : Scope) (o : Outcome Value) : scope.resume [] o = o := by
  simp [resume, climb]

/-- Links wait one after the other. -/
theorem resume_cons (scope : Scope) (link : Link) (links : List Link) (o : Outcome Value) :
    scope.resume (link :: links) o = scope.resume links (scope.resume [link] o) := by
  cases h : o.result with
  | error e => simp only [resume, h, climb]; rw [climb_eq_climb_nil]
  | ok left => simp only [resume, h, climb]; rw [climb_eq_climb_nil]

/-- **A tree is evaluated by itself**, and what waits for it goes on with the outcome. -/
theorem evaluateOnto_eq_resume (scope : Scope) (e : Expr) (links : List Link) (depth : Nat) :
    scope.evaluateOnto e links depth = scope.resume links (scope.evaluate e depth) := by
  induction e generalizing links depth with
  | arith l op r hl hr =>
    simp only [evaluate, evaluateOnto]
    rw [hl, resume_cons, ← hl]
  | _ => simp only [evaluate, evaluateOnto, resume_nil]

/-- **Arithmetic is evaluated operand by operand**, from left to right. -/
theorem evaluate_arith (scope : Scope) (l : Expr) (op : ArithOp) (r : Expr) (depth : Nat) :
    scope.evaluate (.arith l op r) depth =
      scope.close depth (.arith l op r)
        ((scope.evaluate l (depth + 1)).bind fun left =>
          (scope.evaluate r (depth + 1)).bind fun right => .ofOperation (left.arith op right)) := by
  have hr : scope.evaluateOnto r [] = scope.evaluate r := rfl
  rw [evaluate, evaluateOnto, evaluateOnto_eq_resume, hr]
  generalize scope.evaluate l (depth + 1) = left
  cases hl : left.result with
  | error e => simp [resume, climb, close, displayed, Outcome.bind, hl]
  | ok a =>
    cases hr : (scope.evaluate r (depth + 1)).result <;>
      simp [resume, climb, close, Outcome.bind, Outcome.ofOperation, hl, hr, Except.bind]

end Scope

end Formulary
