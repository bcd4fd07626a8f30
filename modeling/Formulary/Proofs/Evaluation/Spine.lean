import Formulary.Evaluation.Reference
import Mathlib.Data.List.Induction

/-!
# Chains by recursion and in a loop

A tree can be evaluated by calling oneself for each operand, however deep that goes, and for each
formula that is referred to, whether or not this ever ends; `none` stands for a run that does not.
A `State` is carried along and changed in place: an empty line is put at the end of the trace when a
node is begun and filled in when the node is left, with a value or without, and the name of a
formula is on a stack while its tree is evaluated. A name on the stack closes a cycle. Without a
stack nobody watches.

There are two ways to evaluate an operation (`Chains`). `nested` is to call oneself for its left
operand, too. `spine` is to walk down the left spine in a loop, and to *reserve* the lines of all
operations on it. Back on the way up the indexes of these lines say where to fill them in, and a
counter says which of them are still empty, so that they can be filled in at the end if an operand
fails.

**Both do the same** (`run_eq_nested`), from any state and to the last line, also where they do not
return. What the loop does at the levels of a spine below its outermost operation, it does for the
left operand alone (`climb_cons`); so one turn of the recursion takes one level off the spine
(`looped_eq_nested`), and two recursions that satisfy each other's equations are the same.
-/

namespace Formulary

/-- An operation on the left spine of a tree. -/
structure Operation where
  node : Expr
  op : ArithOp
  right : Expr

namespace Expr

/-- The operations on the left spine of a tree, the outermost one first. -/
def spine : Expr → List Operation
  | .arith l op r => ⟨.arith l op r, op, r⟩ :: spine l
  | _ => []

/-- What lies below the operations on the left spine. -/
def bottom : Expr → Expr
  | .arith l _ _ => bottom l
  | e => e

end Expr

namespace Recursion

/-! ## States -/

/-- What a run carries along. -/
structure State where
  /-- The names of the formulas being evaluated, the outermost one first, if cycles are watched
  for. -/
  stack : Option (List String)
  /-- The lines of the trace, if one is kept. -/
  trace : Option (List String)

/-- What a run gives: a value or an error, and the state it is left with. -/
abbrev Result (α : Type) := Except EvaluationError α × State

namespace State

/-- Puts an empty line at the end. -/
def opened (s : State) : State := { s with trace := s.trace.map (· ++ [""]) }

/-- Where the next line will stand. -/
def next (s : State) : Nat := (s.trace.getD []).length

/-- Puts several empty lines at the end, if a trace is kept, and says where they stand. -/
def reserve (s : State) : (count : Nat) → List Nat × State
  | 0 => ([], s)
  | count + 1 =>
    if s.trace.isSome then
      let (indexes, s') := s.opened.reserve count
      (s.next :: indexes, s')
    else ([], s)

def filled (s : State) (index : Nat) (text : String) : State :=
  { s with trace := s.trace.map (·.set index text) }

/-- Fills a line in. That fails, and leaves the line as it is, if its value cannot be shown. -/
def close (s : State) (index : Nat) (line : TraceLine) : Except EvaluationError State :=
  match s.trace, line.text? with
  | some _, none => .error (.operation .tooManyDigits)
  | _, _ => .ok (s.filled index line.text)

/-- Fills in the line of a node that is left with this result. -/
def leave (s : State) (index depth : Nat) (node : Expr) (result : Except EvaluationError Value) :
    Result Value :=
  match s.close index ⟨depth, node, shownValue result⟩ with
  | .ok s' => (result, s')
  | .error cause => (.error cause, s)

/-- Fills in the line of an operation at a level of the spine, if one was reserved for it, and says
how many of the reserved lines are still empty. -/
def finish (s : State) (indexes : List Nat) (depth : Nat) (operation : Operation)
    (level unfinished : Nat) (value : Value) : Except EvaluationError (State × Nat) :=
  match level with
  | 0 => .ok (s, unfinished)
  | above + 1 =>
    match indexes[above]? with
    | none => .ok (s, unfinished)
    | some index =>
      (s.close index ⟨depth + (above + 1), operation.node, value⟩).map fun s' => (s', above)

/-- Fills in the line that was reserved for the operation below a level of the spine, which has no
value. -/
def abandonBelow (spine : List Operation) (indexes : List Nat) (depth : Nat) (s : State)
    (above : Nat) : State :=
  match indexes[above]?, spine[above + 1]? with
  | some index, some operation =>
    s.filled index (TraceLine.text ⟨depth + (above + 1), operation.node, .empty⟩)
  | _, _ => s

/-- Fills in the reserved lines that are still empty: those of the levels up to `unfinished`. -/
def abandon (s : State) (spine : List Operation) (indexes : List Nat) (depth unfinished : Nat) :
    State :=
  (List.range unfinished).foldl (abandonBelow spine indexes depth) s

def pushed (s : State) (name : String) : State := { s with stack := s.stack.map (· ++ [name]) }

def popped (s : State) : State := { s with stack := s.stack.map List.dropLast }

end State

/-! ## Runs -/

/-- How operations are evaluated. -/
inductive Chains where
  | nested
  | spine

mutual

/-- Evaluates a tree lying at a depth. -/
def State.run (env : Environment) (chains : Chains) (e : Expr) (depth : Nat) (s : State) :
    Option (Result Value) :=
  match s.trace with
  | none => s |>.node env chains e depth
  | some _ => do
    let (result, s') ← s.opened |>.node env chains e depth
    return s'.leave s.next depth e result
partial_fixpoint

/-- Evaluates a tree whose line was opened. -/
def State.node (env : Environment) (chains : Chains) (e : Expr) (depth : Nat) (s : State) :
    Option (Result Value) :=
  match e with
  | .number x => return (.ok (.ofFloat x), s)
  | .text t => return (.ok (.text t), s)
  | .var name => return (.ok (Environment.valueOf env.vars name), s)
  | .reference name =>
    match env.formulas.find? name with
    | none => return (.error (env.unknownFormula name), s)
    | some f =>
      match s.stack with
      | none => s |>.run env chains f (depth + 1)
      | some path =>
        if name ∈ path then return (.error (.cycle (path ++ [name])), s)
        else do
          match ← s.pushed name |>.run env chains f (depth + 1) with
          | (.error cause, s) => return (.error cause, s)
          | (.ok v, s) => return (.ok v, s.popped)
  | .bracket e => s |>.run env chains e (depth + 1)
  | .minus e => do
    match ← s |>.run env chains e (depth + 1) with
    | (.error cause, s) => return (.error cause, s)
    | (.ok v, s) => return (v.negate.mapError .operation, s)
  | .arith l op r =>
    match chains with
    | .nested => s |>.nested env chains l op r depth
    | .spine => s |>.looped env chains (.arith l op r) depth
  | .compare l op r => do
    match ← s |>.run env chains l (depth + 1) with
    | (.error cause, s) => return (.error cause, s)
    | (.ok left, s) =>
      match ← s |>.run env chains r (depth + 1) with
      | (.error cause, s) => return (.error cause, s)
      | (.ok right, s) => return ((left.compare op right).mapError .operation, s)
  | .call name es => do
    match ← s |>.runList env chains es (depth + 1) with
    | (.error cause, s) => return (.error cause, s)
    | (.ok vs, s) =>
      match env.functions.find? name with
      | none => return (.error (.functionNotFound name (suggestions name env.functions.keys)), s)
      | some f => return ((f vs).mapError .operation, s)
partial_fixpoint

/-- Evaluates the arguments of a call. -/
def State.runList (env : Environment) (chains : Chains) (es : List Expr) (depth : Nat) (s : State) :
    Option (Result (List Value)) :=
  match es with
  | [] => return (.ok [], s)
  | e :: es => do
    match ← s |>.run env chains e depth with
    | (.error cause, s) => return (.error cause, s)
    | (.ok v, s) =>
      match ← s |>.runList env chains es depth with
      | (.error cause, s) => return (.error cause, s)
      | (.ok vs, s) => return (.ok (v :: vs), s)
partial_fixpoint

/-- Evaluates an operation, whose own line was opened, in a loop along its left spine. -/
def State.looped (env : Environment) (chains : Chains) (e : Expr) (depth : Nat) (s : State) :
    Option (Result Value) := do
  let (indexes, s) := s.reserve (e.spine.length - 1)
  match ← s |>.run env chains e.bottom (depth + e.spine.length) with
  | (.error cause, s) =>
    return (.error cause, s.abandon e.spine indexes depth (e.spine.length - 1))
  | (.ok value, s) =>
    let ((result, s), unfinished) ← s |>.climb env chains indexes depth e.spine.zipIdx.reverse
      (e.spine.length - 1) value
    return (result, s.abandon e.spine indexes depth unfinished)
partial_fixpoint

/-- Does the operations at these levels of a spine, the innermost one first, on the value of what lies
below them. The counter of the lines that are still empty comes back with the result. -/
def State.climb (env : Environment) (chains : Chains) (indexes : List Nat) (depth : Nat)
    (levels : List (Operation × Nat)) (unfinished : Nat) (value : Value) (s : State) :
    Option (Result Value × Nat) :=
  match levels with
  | [] => return ((.ok value, s), unfinished)
  | (operation, level) :: levels => do
    match ← s |>.run env chains operation.right (depth + level + 1) with
    | (.error cause, s) => return ((.error cause, s), unfinished)
    | (.ok right, s) =>
      match value.arith operation.op right with
      | .error cause => return ((.error (.operation cause), s), unfinished)
      | .ok value =>
        match s.finish indexes depth operation level unfinished value with
        | .error cause => return ((.error cause, s), unfinished)
        | .ok (s, unfinished) => s |>.climb env chains indexes depth levels unfinished value
partial_fixpoint

/-- Evaluates an operation operand by operand. -/
def State.nested (env : Environment) (chains : Chains) (l : Expr) (op : ArithOp) (r : Expr)
    (depth : Nat) (s : State) : Option (Result Value) := do
  match ← s |>.run env chains l (depth + 1) with
  | (.error cause, s) => return (.error cause, s)
  | (.ok left, s) =>
    match ← s |>.run env chains r (depth + 1) with
    | (.error cause, s) => return (.error cause, s)
    | (.ok right, s) => return ((left.arith op right).mapError .operation, s)
partial_fixpoint

end

open State

/-! ## Lines -/

section

variable {s : State} {indexes : List Nat} {x y : Operation} {ys : List Operation} {depth : Nat}

theorem filled_comm {i j : Nat} (h : i ≠ j) (s : State) (a b : String) :
    (s.filled i a).filled j b = (s.filled j b).filled i a := by
  obtain ⟨stack, trace⟩ := s
  cases trace with
  | none => rfl
  | some lines =>
    unfold filled
    simp only [Option.map_some, List.set_comm _ _ h]

theorem close_of_shown {line : TraceLine} (h : line.shown.display? ≠ none) (s : State)
    (index : Nat) : s.close index line = .ok (s.filled index line.text) := by
  obtain ⟨text, htext⟩ : ∃ text, line.text? = some text := by
    rw [← Option.ne_none_iff_exists', TraceLine.text?, Ne, Option.map_eq_none_iff]
    exact h
  unfold close
  rw [htext]
  cases s.trace <;> rfl

theorem leave_error (s : State) (index depth : Nat) (node : Expr) (cause : EvaluationError) :
    s.leave index depth node (.error cause) =
      (.error cause, s.filled index (TraceLine.text ⟨depth, node, .empty⟩)) := by
  have hempty : (TraceLine.mk depth node .empty).shown.display? ≠ none := by simp [Value.display?]
  unfold leave
  rw [shownValue, close_of_shown hempty]

theorem leave_of_shown {v : Value} (h : v.display? ≠ none) (s : State) (index depth : Nat)
    (node : Expr) :
    s.leave index depth node (.ok v) =
      (.ok v, s.filled index (TraceLine.text ⟨depth, node, v⟩)) := by
  unfold leave
  rw [shownValue, close_of_shown h]

theorem abandon_nil (s : State) (spine : List Operation) (depth unfinished : Nat) :
    s.abandon spine [] depth unfinished = s := by
  unfold abandon
  induction List.range unfinished with
  | nil => rfl
  | cons above levels ih => exact ih

theorem abandon_filled {i : Nat} (h : i ∉ indexes) (s : State) (a : String)
    (spine : List Operation) (depth unfinished : Nat) :
    (s.filled i a).abandon spine indexes depth unfinished =
      (s.abandon spine indexes depth unfinished).filled i a := by
  refine List.foldl_hom (f := fun s : State => s.filled i a) fun s above => ?_
  unfold abandonBelow
  cases hindex : indexes[above]? with
  | none => rfl
  | some index =>
    have hne : i ≠ index := fun heq => h (heq ▸ List.mem_of_getElem? hindex)
    cases spine[above + 1]? with
    | none => rfl
    | some operation => exact filled_comm hne s a _

/-- The lines that are left empty on a spine are those left empty below its outermost operation, and
the one of the operation there. -/
theorem abandon_cons {i : Nat} (h : i ∉ indexes) (s : State) (x y : Operation)
    (ys : List Operation) (depth unfinished : Nat) :
    s.abandon (x :: y :: ys) (i :: indexes) depth (unfinished + 1) =
      (s.abandon (y :: ys) indexes (depth + 1) unfinished).filled i
        (TraceLine.text ⟨depth + 1, y.node, .empty⟩) := by
  have hbelow : (fun s above => abandonBelow (x :: y :: ys) (i :: indexes) depth s (above + 1)) =
      abandonBelow (y :: ys) indexes (depth + 1) := by
    funext s above
    have hdepth : depth + (above + 1 + 1) = depth + 1 + (above + 1) := by omega
    simp only [abandonBelow, List.getElem?_cons_succ, hdepth]
  rw [← abandon_filled h, abandon, List.range_succ_eq_map, List.foldl_cons, List.foldl_map, hbelow]
  rfl

theorem reserve_of_none (h : s.trace = none) (count : Nat) : s.reserve count = ([], s) := by
  cases count with
  | zero => rfl
  | succ count => simp [reserve, h]

theorem reserve_succ_of_some (h : s.trace.isSome) (count : Nat) :
    s.reserve (count + 1) =
      (s.next :: (s.opened.reserve count).1, (s.opened.reserve count).2) := by
  rw [reserve, if_pos h]

theorem isSome_trace_opened (s : State) : s.opened.trace.isSome = s.trace.isSome :=
  Option.isSome_map

theorem next_opened (h : s.trace.isSome) : s.opened.next = s.next + 1 := by
  obtain ⟨lines, hlines⟩ := Option.isSome_iff_exists.1 h
  simp [next, opened, hlines]

/-- The lines that are reserved stand one behind the other. -/
theorem reserve_indexes (h : s.trace.isSome) (count : Nat) :
    (s.reserve count).1 = List.range' s.next count := by
  induction count generalizing s with
  | zero => rfl
  | succ count ih =>
    rw [reserve_succ_of_some h, ih ((isSome_trace_opened s).trans h), next_opened h]
    rfl

/-- A level further down the spine is a level further up below its outermost operation. -/
theorem finish_succ (s : State) (indexes : List Nat) (depth : Nat) (operation : Operation)
    (above unfinished : Nat) (v : Value) :
    s.finish indexes depth operation (above + 2) (unfinished + 1) v =
      (s.finish indexes.tail (depth + 1) operation (above + 1) unfinished v).map
        fun (s', unfinished) => (s', unfinished + 1) := by
  have hdepth : depth + (above + 1 + 1) = depth + 1 + (above + 1) := by omega
  unfold finish
  simp only [List.getElem?_tail, hdepth]
  cases indexes[above + 1]? with
  | none => rfl
  | some index =>
    dsimp only
    cases s.close index ⟨depth + 1 + (above + 1), operation.node, v⟩ <;> rfl

theorem finish_of_shown {v : Value} (h : v.display? ≠ none) (s : State) (i : Nat)
    (indexes : List Nat) (depth : Nat) (operation : Operation) (unfinished : Nat) :
    s.finish (i :: indexes) depth operation 1 unfinished v =
      .ok (s.filled i (TraceLine.text ⟨depth + 1, operation.node, v⟩), 0) := by
  have hline : (TraceLine.mk (depth + 1) operation.node v).shown.display? ≠ none := h
  show (s.close i ⟨depth + 1, operation.node, v⟩).map _ = _
  rw [close_of_shown hline]
  rfl

end

/-! ## The way up a spine -/

/-- The operations of a spine with their levels, the innermost one first. -/
theorem levels_concat (ys : List Operation) (z : Operation) :
    (ys ++ [z]).zipIdx.reverse = (z, ys.length) :: ys.zipIdx.reverse := by
  rw [List.zipIdx_append, List.reverse_append]
  simp

/-- A double can be shown, and so can nothing. -/
theorem arith_shown {op : ArithOp} {left right v : Value} (h : left.arith op right = .ok v) :
    v.display? ≠ none := by
  have hcases : v = .empty ∨ ∃ x, v = .ofFloat x := by
    cases left with
    | number m =>
      cases right with
      | number n =>
        cases hm : m.toFloat with
        | error cause =>
          rw [Value.arith, hm] at h
          cases h
        | ok x =>
          cases hn : n.toFloat with
          | error cause =>
            rw [Value.arith, hm, hn] at h
            cases h
          | ok y =>
            rw [Value.arith, hm, hn] at h
            exact .inr ⟨_, (Except.ok.inj h).symm⟩
      | _ => exact .inl (Except.ok.inj h).symm
    | _ => exact .inl (Except.ok.inj h).symm
  rcases hcases with rfl | ⟨x, rfl⟩
  · exact Option.some_ne_none _
  · exact Option.some_ne_none _

section

variable {env : Environment} {chains : Chains}

/-- Goes on with the outermost operation of a spine, when those below it are done. -/
def climbOutermost (env : Environment) (chains : Chains) (x y : Operation) (indexes : List Nat)
    (depth : Nat) : Result Value × Nat → Option (Result Value × Nat)
  | ((.error cause, s), unfinished) => some ((.error cause, s), unfinished + 1)
  | ((.ok left, s), unfinished) =>
    match s.finish indexes depth y 1 (unfinished + 1) left with
    | .error cause => some ((.error cause, s), unfinished + 1)
    | .ok (s, unfinished) => s |>.climb env chains indexes depth [(x, 0)] unfinished left

/-- What is done on a spine is done below its outermost operation first, with lines and levels of
its own; then the line of that operation is filled in. -/
theorem climb_cons (x y : Operation) (ys : List Operation) (indexes : List Nat) (depth : Nat)
    (unfinished : Nat) (value : Value) (s : State) :
    climb env chains indexes depth (x :: y :: ys).zipIdx.reverse (unfinished + 1) value s =
      climb env chains indexes.tail (depth + 1) (y :: ys).zipIdx.reverse unfinished value s >>=
        climbOutermost env chains x y indexes depth := by
  -- the innermost level comes first, and is the same level on both sides
  induction ys using List.reverseRecOn generalizing unfinished value s with
  | nil =>
    have houter : [x, y].zipIdx.reverse = [(y, 1), (x, 0)] := rfl
    have hinner : [y].zipIdx.reverse = [(y, 0)] := rfl
    rw [houter, hinner, climb, climb, Nat.add_zero]
    rcases run env chains y.right (depth + 1 + 1) s with _ | ⟨cause | right, s⟩
    · rfl
    · rfl
    · simp only [Option.bind_eq_bind, Option.bind_some]
      cases value.arith y.op right with
      | error cause => rfl
      | ok v =>
        have hend : climb env chains indexes.tail (depth + 1) [] unfinished v s =
            some ((.ok v, s), unfinished) := by rw [climb]; rfl
        show _ = Option.bind (climb env chains indexes.tail (depth + 1) [] unfinished v s) _
        rw [hend]
        rfl
  | append_singleton ys z ih =>
    rw [← List.cons_append, ← List.cons_append, levels_concat, levels_concat, climb, climb]
    have hdepth : depth + (x :: y :: ys).length + 1 = depth + 1 + (y :: ys).length + 1 := by
      rw [List.length_cons]
      omega
    rw [hdepth]
    rcases run env chains z.right (depth + 1 + (y :: ys).length + 1) s with _ | ⟨cause | right, s⟩
    · rfl
    · rfl
    · simp only [Option.bind_eq_bind, Option.bind_some]
      cases value.arith z.op right with
      | error cause => rfl
      | ok v =>
        simp only [List.length_cons, finish_succ]
        cases s.finish indexes.tail (depth + 1) z (ys.length + 1) unfinished v with
        | error cause => rfl
        | ok next => exact ih next.2 v next.1

/-- A turn that leads to a value has a value that can be shown, and fills in its line. -/
theorem climb_turn {operation : Operation} {level : Nat} {levels : List (Operation × Nat)}
    {indexes : List Nat} {depth unfinished unfinished' : Nat} {value v : Value} {s s' : State}
    (h : climb env chains indexes depth ((operation, level) :: levels) unfinished value s =
      some ((.ok v, s'), unfinished')) :
    ∃ w next left, w.display? ≠ none ∧
      finish next indexes depth operation level unfinished w = .ok left ∧
      climb env chains indexes depth levels left.2 w left.1 = some ((.ok v, s'), unfinished') := by
  rw [climb] at h
  rcases hr : run env chains operation.right (depth + level + 1) s with _ | ⟨cause | right, next⟩
  · rw [hr] at h
    cases h
  · rw [hr] at h
    cases h
  · rw [hr] at h
    simp only [Option.bind_eq_bind, Option.bind_some] at h
    cases ha : value.arith operation.op right with
    | error cause =>
      rw [ha] at h
      cases h
    | ok w =>
      rw [ha] at h
      dsimp only at h
      cases hf : next.finish indexes depth operation level unfinished w with
      | error cause =>
        rw [hf] at h
        cases h
      | ok left =>
        rw [hf] at h
        exact ⟨w, next, left, arith_shown ha, hf, h⟩

/-- If the way up comes to its end, no line is empty any more, and the value can be shown. -/
theorem climb_ok {y : Operation} {ys : List Operation} {indexes : List Nat} {depth : Nat}
    (hindexes : ys.length ≤ indexes.length) {unfinished : Nat} {value v : Value} {s s' : State}
    (h : climb env chains indexes depth (y :: ys).zipIdx.reverse ys.length value s =
      some ((.ok v, s'), unfinished)) :
    unfinished = 0 ∧ v.display? ≠ none := by
  induction ys using List.reverseRecOn generalizing value s with
  | nil =>
    obtain ⟨w, next, left, hw, hf, h⟩ := climb_turn h
    cases hf
    rw [climb] at h
    cases h
    exact ⟨rfl, hw⟩
  | append_singleton ys z ih =>
    rw [← List.cons_append, levels_concat] at h
    obtain ⟨w, next, left, hw, hf, h⟩ := climb_turn h
    rw [List.length_append, List.length_singleton] at hindexes
    have hlt : ys.length < indexes.length := by omega
    simp only [List.length_cons, finish, List.getElem?_eq_getElem hlt] at hf
    rw [close_of_shown hw] at hf
    cases hf
    exact ih (by omega) h

/-! ## One level of the spine -/

/-- Goes on with the right operand of an operation. -/
def rightOperand (env : Environment) (chains : Chains) (op : ArithOp) (r : Expr) (depth : Nat) :
    Result Value → Option (Result Value)
  | (.error cause, s) => some (.error cause, s)
  | (.ok left, s) => do
    match ← s |>.run env chains r (depth + 1) with
    | (.error cause, s) => return (.error cause, s)
    | (.ok right, s) => return ((left.arith op right).mapError .operation, s)

/-- Ends a loop: the lines that are still empty are filled in. -/
def ended (spine : List Operation) (indexes : List Nat) (depth : Nat) :
    Result Value × Nat → Option (Result Value)
  | ((result, s), unfinished) => some (result, s.abandon spine indexes depth unfinished)

/-- Goes on with the operations of a spine. -/
def upward (env : Environment) (chains : Chains) (spine : List Operation) (indexes : List Nat)
    (depth : Nat) : Result Value → Option (Result Value)
  | (.error cause, s) => some (.error cause, s.abandon spine indexes depth (spine.length - 1))
  | (.ok value, s) =>
    climb env chains indexes depth spine.zipIdx.reverse (spine.length - 1) value s >>=
      ended spine indexes depth

theorem run_of_none {s : State} (h : s.trace = none) (e : Expr) (depth : Nat) :
    run env chains e depth s = node env chains e depth s := by
  rw [run, h]

theorem run_of_isSome {s : State} (h : s.trace.isSome) (e : Expr) (depth : Nat) :
    run env chains e depth s =
      node env chains e depth s.opened >>= fun r => some (r.2.leave s.next depth e r.1) := by
  obtain ⟨lines, hlines⟩ := Option.isSome_iff_exists.1 h
  rw [run, hlines]
  rfl

theorem nested_eq (l : Expr) (op : ArithOp) (r : Expr) (depth : Nat) (s : State) :
    nested env chains l op r depth s =
      run env chains l (depth + 1) s >>= rightOperand env chains op r depth := by
  rw [nested]
  rfl

theorem looped_eq (e : Expr) (depth : Nat) (s : State) :
    looped env chains e depth s =
      run env chains e.bottom (depth + e.spine.length) (s.reserve (e.spine.length - 1)).2 >>=
        upward env chains e.spine (s.reserve (e.spine.length - 1)).1 depth := by
  rw [looped]
  rfl

/-- The outermost operation has no line among those reserved. -/
theorem climb_outermost {x : Operation} {spine : List Operation} {indexes : List Nat}
    {depth unfinished : Nat} (h : ∀ s, abandon s spine indexes depth unfinished = s) (left : Value)
    (s : State) :
    climb env chains indexes depth [(x, 0)] unfinished left s >>= ended spine indexes depth =
      rightOperand env chains x.op x.right depth (.ok left, s) := by
  rw [climb, rightOperand, Nat.add_zero]
  rcases run env chains x.right (depth + 1) s with _ | ⟨cause | right, s⟩
  · rfl
  · show some (_, s.abandon spine indexes depth unfinished) = _
    rw [h]
    rfl
  · simp only [Option.bind_eq_bind, Option.bind_some]
    cases left.arith x.op right with
    | error cause =>
      show some (_, s.abandon spine indexes depth unfinished) = _
      rw [h]
      rfl
    | ok v =>
      simp only [finish, climb]
      show some (_, s.abandon spine indexes depth unfinished) = _
      rw [h]
      rfl

variable {x y : Operation} {ys : List Operation} {depth : Nat}

/-- Without a trace there are no lines. -/
theorem upward_untraced (result : Result Value) :
    upward env chains (x :: y :: ys) [] depth result =
      upward env chains (y :: ys) [] (depth + 1) result >>=
        rightOperand env chains x.op x.right depth := by
  obtain ⟨cause | value, s⟩ := result
  · simp only [upward, abandon_nil]
    rfl
  · show climb env chains [] depth (x :: y :: ys).zipIdx.reverse (ys.length + 1) value s >>= _ =
      (climb env chains [] (depth + 1) (y :: ys).zipIdx.reverse ys.length value s >>= _) >>= _
    rw [climb_cons, List.tail_nil]
    rcases climb env chains [] (depth + 1) (y :: ys).zipIdx.reverse ys.length value s with
      _ | ⟨⟨cause | left, s⟩, unfinished⟩
    · rfl
    · simp only [Option.bind_eq_bind, Option.bind_some, climbOutermost, ended, abandon_nil]
      rfl
    · show climb env chains [] depth [(x, 0)] (unfinished + 1) left s >>= _ = some _ >>= _
      rw [climb_outermost fun s => abandon_nil s _ _ _, abandon_nil]
      rfl

/-- In a trace, the line of the left operand is the first one reserved. -/
theorem upward_traced {i : Nat} {indexes : List Nat} (hi : i ∉ indexes)
    (hlength : indexes.length = ys.length) (result : Result Value) :
    upward env chains (x :: y :: ys) (i :: indexes) depth result =
      (upward env chains (y :: ys) indexes (depth + 1) result >>= fun r =>
        some (r.2.leave i (depth + 1) y.node r.1)) >>=
          rightOperand env chains x.op x.right depth := by
  have hstop (s : State) (unfinished : Nat) (cause : EvaluationError) :
      some (.error cause, s.abandon (x :: y :: ys) (i :: indexes) depth (unfinished + 1)) =
        rightOperand env chains x.op x.right depth
          ((s.abandon (y :: ys) indexes (depth + 1) unfinished).leave i (depth + 1) y.node
            (.error cause)) := by
    rw [leave_error, abandon_cons hi]
    rfl
  obtain ⟨cause | value, s⟩ := result
  · exact hstop s ys.length cause
  · show climb env chains (i :: indexes) depth (x :: y :: ys).zipIdx.reverse (ys.length + 1) value s
        >>= _ =
      ((climb env chains indexes (depth + 1) (y :: ys).zipIdx.reverse ys.length value s >>= _)
        >>= _) >>= _
    rw [climb_cons, List.tail_cons]
    rcases h : climb env chains indexes (depth + 1) (y :: ys).zipIdx.reverse ys.length value s with
      _ | ⟨⟨cause | left, s⟩, unfinished⟩
    · rfl
    · exact hstop s unfinished cause
    · obtain ⟨rfl, hleft⟩ := climb_ok (Nat.le_of_eq hlength.symm) h
      simp only [Option.bind_eq_bind, Option.bind_some, climbOutermost, finish_of_shown hleft, ended]
      show climb env chains (i :: indexes) depth [(x, 0)] 0 left _ >>= _ = _
      rw [climb_outermost fun _ => rfl]
      show _ = rightOperand _ _ _ _ _ (s.leave i (depth + 1) y.node (.ok left))
      rw [leave_of_shown hleft]

/-- **A turn of the recursion takes one level off the spine.** -/
theorem looped_of_arith {l : Expr} (hspine : l.spine = y :: ys) (hy : y.node = l)
    (hl : ∀ depth s, node env chains l depth s = looped env chains l depth s) (op : ArithOp)
    (r : Expr) (depth : Nat) (s : State) :
    looped env chains (.arith l op r) depth s = nested env chains l op r depth s := by
  have houter : (Expr.arith l op r).spine = ⟨.arith l op r, op, r⟩ :: y :: ys := by
    rw [Expr.spine, hspine]
  have hbottom : (Expr.arith l op r).bottom = l.bottom := rfl
  have hdepth : depth + (ys.length + 1 + 1) = depth + 1 + (ys.length + 1) := by omega
  rw [looped_eq, nested_eq, houter, hbottom]
  simp only [List.length_cons, Nat.add_sub_cancel, hdepth]
  cases htrace : s.trace with
  | none =>
    rw [run_of_none htrace, hl, looped_eq, hspine, reserve_of_none htrace, reserve_of_none htrace,
      bind_assoc]
    exact congrArg _ (funext upward_untraced)
  | some lines =>
    have htraced : s.trace.isSome := by rw [htrace]; rfl
    have hindexes : (s.opened.reserve ys.length).1 = List.range' (s.next + 1) ys.length := by
      rw [reserve_indexes ((isSome_trace_opened s).trans htraced), next_opened htraced]
    have hi : s.next ∉ (s.opened.reserve ys.length).1 := by
      rw [hindexes, List.mem_range'_1]
      omega
    have hlength : (s.opened.reserve ys.length).1.length = ys.length := by
      rw [hindexes, List.length_range']
    rw [run_of_isSome htraced, hl, looped_eq, hspine, reserve_succ_of_some htraced, bind_assoc,
      bind_assoc]
    refine congrArg _ (funext fun result => ?_)
    rw [upward_traced hi hlength, hy, bind_assoc]
    rfl

/-- Where the spine ends there is nothing to reserve. -/
theorem looped_of_bottom {l : Expr} (hspine : l.spine = []) (hbottom : l.bottom = l) (op : ArithOp)
    (r : Expr) (depth : Nat) (s : State) :
    looped env chains (.arith l op r) depth s = nested env chains l op r depth s := by
  have houter : (Expr.arith l op r).spine = [⟨.arith l op r, op, r⟩] := by
    rw [Expr.spine, hspine]
  have hbottom' : (Expr.arith l op r).bottom = l := hbottom
  rw [looped_eq, nested_eq, houter, hbottom']
  refine congrArg _ (funext fun result => ?_)
  obtain ⟨cause | left, s⟩ := result
  · rfl
  · exact climb_outermost (fun _ => rfl) left s

/-- **The loop evaluates an operation operand by operand.** -/
theorem looped_eq_nested (l : Expr) (op : ArithOp) (r : Expr) (depth : Nat) (s : State) :
    looped env chains (.arith l op r) depth s = nested env chains l op r depth s := by
  induction l generalizing op r depth s with
  | arith l' op' r' ih _ =>
    have hspine : (Expr.arith l' op' r').spine = ⟨.arith l' op' r', op', r'⟩ :: l'.spine := rfl
    refine looped_of_arith hspine rfl (fun depth s => ?_) op r depth s
    cases chains with
    | nested =>
      rw [node]
      exact (ih op' r' depth s).symm
    | spine => rw [node]
  | _ => exact looped_of_bottom rfl rfl op r depth s

theorem node_arith (l : Expr) (op : ArithOp) (r : Expr) (depth : Nat) (s : State) :
    node env chains (.arith l op r) depth s = nested env chains l op r depth s := by
  cases chains with
  | nested => rw [node]
  | spine =>
    rw [node]
    exact looped_eq_nested l op r depth s

end

/-! ## Two recursions with the same equations -/

/-- If the first run returns, the second one gives the same. -/
def Refines {α : Type} (x y : Option α) : Prop := ∀ a, x = some a → y = some a

theorem Refines.bind {α β : Type} {x y : Option α} {k k' : α → Option β} (h : Refines x y)
    (hk : ∀ a, Refines (k a) (k' a)) : Refines (x >>= k) (y >>= k') := by
  intro b hb
  cases hx : x with
  | none =>
    rw [hx] at hb
    cases hb
  | some a =>
    rw [hx] at hb
    rw [h a hx]
    exact hk a b hb

theorem refines_refl {α : Type} (x : Option α) : Refines x x := fun _ => id

theorem run_refines (env : Environment) (chains chains' : Chains) (e : Expr) (depth : Nat)
    (s : State) : Refines (run env chains e depth s) (run env chains' e depth s) := by
  -- on how the first run returns, with one case for each function of the recursion
  refine run.partial_correctness env chains
    (fun e depth s r => run env chains' e depth s = some r)
    (fun e depth s r => node env chains' e depth s = some r)
    (fun es depth s r => runList env chains' es depth s = some r)
    (fun e depth s r => looped env chains' e depth s = some r)
    (fun indexes depth levels unfinished value s r =>
      climb env chains' indexes depth levels unfinished value s = some r)
    (fun l op r depth s result => nested env chains' l op r depth s = some result)
    ?_ ?_ ?_ ?_ ?_ ?_ e depth s
  · intro node hnode e depth s result h
    rw [run]
    cases htrace : s.trace with
    | none =>
      rw [htrace] at h
      exact hnode e depth s result h
    | some lines =>
      rw [htrace] at h
      exact Refines.bind (hnode e depth s.opened) (fun _ => refines_refl _) result h
  · intro run runList looped nested hrun hrunList hlooped hnested e depth s result h
    cases e with
    | reference name =>
      rw [node]
      cases hf : env.formulas.find? name with
      | none =>
        simp only [hf] at h
        exact h
      | some f =>
        simp only [hf] at h
        cases hstack : s.stack with
        | none =>
          simp only [hstack] at h
          exact hrun f (depth + 1) s result h
        | some path =>
          simp only [hstack] at h
          by_cases hn : name ∈ path
          · rw [if_pos hn] at h
            exact (if_pos hn).trans h
          · rw [if_neg hn] at h
            refine (if_neg hn).trans ?_
            exact Refines.bind (hrun f (depth + 1) (s.pushed name)) (fun _ => refines_refl _)
              result h
    | bracket e =>
      rw [node]
      exact hrun e (depth + 1) s result h
    | minus e =>
      rw [node]
      exact Refines.bind (hrun e (depth + 1) s) (fun _ => refines_refl _) result h
    | arith l op r =>
      rw [node_arith]
      cases chains with
      | nested => exact hnested l op r depth s result h
      | spine =>
        rw [← looped_eq_nested]
        exact hlooped (.arith l op r) depth s result h
    | compare l op r =>
      rw [node]
      refine Refines.bind (hrun l (depth + 1) s) ?_ result h
      rintro ⟨cause | left, s⟩
      · exact refines_refl _
      · exact Refines.bind (hrun r (depth + 1) s) fun _ => refines_refl _
    | call name es =>
      rw [node]
      exact Refines.bind (hrunList es (depth + 1) s) (fun _ => refines_refl _) result h
    | _ =>
      rw [node]
      exact h
  · intro run runList hrun hrunList es depth s result h
    cases es with
    | nil =>
      rw [State.runList]
      exact h
    | cons e es =>
      rw [State.runList]
      refine Refines.bind (hrun e depth s) ?_ result h
      rintro ⟨cause | v, s⟩
      · exact refines_refl _
      · exact Refines.bind (hrunList es depth s) fun _ => refines_refl _
  · intro run climb hrun hclimb e depth s result h
    rw [looped_eq]
    refine Refines.bind (hrun e.bottom _ _) ?_ result h
    rintro ⟨cause | value, s⟩
    · exact refines_refl _
    · exact Refines.bind (hclimb _ depth _ _ value s) fun _ => refines_refl _
  · intro run climb hrun hclimb indexes depth levels unfinished value s result h
    cases levels with
    | nil =>
      rw [State.climb]
      exact h
    | cons level levels =>
      obtain ⟨operation, level⟩ := level
      rw [State.climb]
      refine Refines.bind (hrun operation.right _ s) ?_ result h
      rintro ⟨cause | right, s⟩
      · exact refines_refl _
      · dsimp only
        cases value.arith operation.op right with
        | error cause => exact refines_refl _
        | ok v =>
          dsimp only
          cases s.finish indexes depth operation level unfinished v with
          | error cause => exact refines_refl _
          | ok left => exact hclimb indexes depth levels left.2 v left.1
  · intro run hrun l op r depth s result h
    rw [State.nested]
    refine Refines.bind (hrun l (depth + 1) s) ?_ result h
    rintro ⟨cause | left, s⟩
    · exact refines_refl _
    · exact Refines.bind (hrun r (depth + 1) s) fun _ => refines_refl _

/-- **It makes no difference whether chains are evaluated in a loop or by recursion**, for no state in
which a run begins. -/
theorem run_eq_nested (env : Environment) (chains : Chains) (e : Expr) (depth : Nat) (s : State) :
    run env chains e depth s = run env .nested e depth s := by
  refine Option.ext fun result => ?_
  constructor
  · exact run_refines env chains .nested e depth s result
  · exact run_refines env .nested chains e depth s result

end Recursion

end Formulary
