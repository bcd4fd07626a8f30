import Formulary.Proofs.Evaluation.Cycles
import Formulary.Proofs.Evaluation.Spine

/-!
# The evaluator against the recursion

`run` evaluates a tree in place, by recursion or with a loop along its chains, and may never return.
The evaluator goes through the links of a chain and puts finished lines together.

**The evaluator does what the recursion does** (`run_eq_evaluate`): from any stack and any trace,
at any depth, it has the same result, and its lines are those that the trace is extended by.
It reports that references are without end exactly where the recursion does not return.

One direction follows each step of the evaluator in the recursion (`Simulates`). The other concerns
runs that return without a stack, and is an induction on how they do (`Settles`): such a run
enters finitely many formulas, so some budget is enough for it.
-/

namespace Formulary.Recursion

open State

/-! ## What the evaluator does, the recursion does -/

/-- From this stack and any trace, the run has the result of the outcome, puts its lines behind the
trace and leaves the stack as it was if it has a value. Nothing is said if the outcome is that
references have no end. -/
def Simulates {α : Type} (stack : Option (List String)) (traced : Bool)
    (x : State → Option (Result α)) (o : Outcome α) : Prop :=
  ¬ o.Fails EvaluationError.IsUnbounded → ∀ trace : Option (List String), trace.isSome = traced →
    ∃ stack', x ⟨stack, trace⟩ =
        some (o.result, ⟨stack', trace.map (· ++ o.lines.map TraceLine.text)⟩) ∧
      ∀ a, o.result = .ok a → stack' = stack

section

variable {α β : Type} {stack : Option (List String)} {traced : Bool}
  {x : State → Option (Result α)} {o : Outcome α} {g : α → Outcome β}

theorem map_append_nil (trace : Option (List String)) : trace.map (· ++ []) = trace := by
  cases trace with
  | none => rfl
  | some lines => rw [Option.map_some, List.append_nil]

theorem simulates_silent (r : Except EvaluationError α) :
    Simulates stack traced (fun s => some (r, s)) ⟨r, []⟩ := by
  intro _ trace _
  refine ⟨stack, ?_, fun _ _ => rfl⟩
  rw [List.map_nil, map_append_nil]

theorem Simulates.bind {k : Result α → Option (Result β)} (hx : Simulates stack traced x o)
    (herror : ∀ cause s, k (.error cause, s) = some (.error cause, s))
    (hok : ∀ a, Simulates stack traced (fun s => k (.ok a, s)) (g a)) :
    Simulates stack traced (fun s => x s >>= k) (o.bind g) := by
  intro hb trace htrace
  have ho : ¬ o.Fails EvaluationError.IsUnbounded := fun h => hb h.bind
  obtain ⟨stack', hrun, hstack⟩ := hx ho trace htrace
  cases hr : o.result with
  | error cause =>
    rw [hr] at hrun
    rw [Outcome.bind_of_error hr]
    refine ⟨stack', ?_, nofun⟩
    show x ⟨stack, trace⟩ >>= k = _
    rw [hrun]
    exact herror cause _
  | ok a =>
    rw [hr] at hrun
    rw [Outcome.bind_of_ok hr] at hb ⊢
    obtain rfl : stack' = stack := hstack a hr
    obtain ⟨stack'', hrun', hstack'⟩ := hok a hb (trace.map (· ++ o.lines.map TraceLine.text))
      (by rw [Option.isSome_map, htrace])
    refine ⟨stack'', ?_, hstack'⟩
    show x ⟨stack', trace⟩ >>= k = _
    rw [hrun]
    refine hrun'.trans ?_
    rw [Option.map_map, List.map_append]
    cases trace with
    | none => rfl
    | some lines =>
      simp only [Option.map_some, Function.comp_apply, List.append_assoc]

end

section

variable {env : Environment} {chains : Chains} {stack : Option (List String)} {traced : Bool}
  {formula : String → Nat → Outcome Value}

/-- A node whose line was opened at the end of these lines is left. -/
theorem leave_eq (stack : Option (List String)) (lines below : List String) (depth : Nat) (e : Expr)
    (result : Except EvaluationError Value) :
    leave ⟨stack, some (lines ++ "" :: below)⟩ lines.length depth e result =
      (displayed true result,
        ⟨stack, some (lines ++ TraceLine.text ⟨depth, e, shownValue result⟩ :: below)⟩) := by
  by_cases h : (shownValue result).display? = none
  · -- the line stays as it was opened
    obtain ⟨v, rfl⟩ : ∃ v, result = .ok v := by
      cases result with
      | error cause => simp [shownValue, Value.display?] at h
      | ok v => exact ⟨v, rfl⟩
    have hv : v.display? = none := h
    have htext : TraceLine.text? ⟨depth, e, v⟩ = none := Option.map_eq_none_iff.2 hv
    rw [displayed_of_hidden hv, leave, close, shownValue, htext, TraceLine.text, htext]
    rfl
  · have hline : (TraceLine.mk depth e (shownValue result)).shown.display? ≠ none := h
    have hresult : displayed true result = result := by
      cases result with
      | error cause => rfl
      | ok v => exact displayed_of_shown h
    rw [leave, close_of_shown hline, hresult]
    unfold filled
    simp only [Option.map_some, List.set_append_right _ _ (Nat.le_refl _), Nat.sub_self,
      List.set_cons_zero]

/-- The line of a node is opened before those of its operands and filled in after them. -/
theorem simulates_run {scope : Scope} (htraced : scope.traced = traced) {e : Expr} {depth : Nat}
    (h : Simulates stack traced (fun s => node env chains e depth s) (scope.inner e depth)) :
    Simulates stack traced (run env chains e depth) (scope.evaluate e depth) := by
  have h : Simulates stack traced (node env chains e depth) (scope.inner e depth) := h
  rw [Scope.evaluate_eq_close]
  intro hb trace htrace
  have hb := fun hf => hb (Outcome.Fails.close hf)
  unfold Scope.close Scope.line
  rw [htraced, ← htrace]
  cases trace with
  | none =>
    obtain ⟨stack', hrun, hstack⟩ := h hb none htrace
    refine ⟨stack', ?_, ?_⟩
    · rw [run_of_none rfl, hrun, Option.isSome_none, displayed_false]
      rfl
    · rw [Option.isSome_none, displayed_false]
      exact hstack
  | some lines =>
    obtain ⟨stack', hrun, hstack⟩ := h hb (some (lines ++ [""])) htrace
    refine ⟨stack', ?_, ?_⟩
    · rw [run_of_isSome rfl]
      show node env chains e depth ⟨stack, some (lines ++ [""])⟩ >>= _ = _
      rw [hrun]
      show some (leave ⟨stack', some (lines ++ [""] ++ _)⟩ lines.length depth e _) = _
      rw [List.append_assoc, List.singleton_append, leave_eq]
      rfl
    · intro v hv
      rcases displayed_eq_or true (scope.inner e depth).result with hd | hd
      · exact hstack v (hd.symm.trans hv)
      · cases hd.symm.trans hv

theorem simulates_evaluateList {scope : Scope} {es : List Expr}
    (h : ∀ e ∈ es, ∀ depth, Simulates stack traced (run env chains e depth) (scope.evaluate e depth))
    (depth : Nat) :
    Simulates stack traced (fun s => runList env chains es depth s) (scope.evaluateList es depth) := by
  induction es with
  | nil =>
    simp only [runList]
    exact simulates_silent _
  | cons e es ih =>
    have hrest := ih fun e he => h e (List.mem_cons_of_mem _ he)
    simp only [runList]
    exact (h e List.mem_cons_self depth).bind (fun _ _ => rfl) fun v =>
      hrest.bind (fun _ _ => rfl) fun vs => simulates_silent _

/-- **If plain recursion follows references as a scope does, then it evaluates trees as the scope
does.** -/
theorem simulates_evaluate
    (h : ∀ name depth, Simulates stack traced (node env chains (.reference name) depth)
      (formula name (depth + 1))) (e : Expr) (depth : Nat) :
    Simulates stack traced (run env chains e depth)
      (Scope.evaluate ⟨env.vars, env.functions, formula, traced⟩ e depth) := by
  induction e generalizing depth with
  | number x =>
    refine simulates_run rfl ?_
    simp only [node]
    exact simulates_silent _
  | text t =>
    refine simulates_run rfl ?_
    simp only [node]
    exact simulates_silent _
  | var name =>
    refine simulates_run rfl ?_
    simp only [node]
    exact simulates_silent _
  | reference name =>
    exact simulates_run rfl (h name depth)
  | bracket e ih =>
    refine simulates_run rfl ?_
    simp only [node]
    exact ih (depth + 1)
  | minus e ih =>
    refine simulates_run rfl ?_
    simp only [node]
    exact (ih (depth + 1)).bind (fun _ _ => rfl) fun v => simulates_silent _
  | arith l op r hl hr =>
    refine simulates_run rfl ?_
    simp only [node_arith, nested]
    exact (hl (depth + 1)).bind (fun _ _ => rfl) fun left =>
      (hr (depth + 1)).bind (fun _ _ => rfl) fun right => simulates_silent _
  | compare l op r hl hr =>
    refine simulates_run rfl ?_
    simp only [node]
    exact (hl (depth + 1)).bind (fun _ _ => rfl) fun left =>
      (hr (depth + 1)).bind (fun _ _ => rfl) fun right => simulates_silent _
  | call name es ih =>
    refine simulates_run rfl ?_
    simp only [node]
    refine (simulates_evaluateList ih (depth + 1)).bind (fun _ _ => rfl) fun vs => ?_
    unfold Scope.apply
    dsimp only
    cases env.functions.find? name with
    | none => exact simulates_silent _
    | some f => exact simulates_silent _

end

section

variable {env : Environment} {chains : Chains} {traced : Bool} {name : String} {f : Expr}

theorem node_unknown (h : env.formulas.find? name = none) (depth : Nat) :
    node env chains (.reference name) depth = fun s => some (.error (env.unknownFormula name), s) := by
  funext s
  rw [node, h]
  rfl

theorem node_unwatched (h : env.formulas.find? name = some f) (depth : Nat)
    (trace : Option (List String)) :
    node env chains (.reference name) depth ⟨none, trace⟩ = run env chains f (depth + 1) ⟨none, trace⟩ := by
  rw [node, h]

theorem node_cycle {path : List String} (h : env.formulas.find? name = some f) (hn : name ∈ path)
    (depth : Nat) (trace : Option (List String)) :
    node env chains (.reference name) depth ⟨some path, trace⟩ =
      some (.error (.cycle (path ++ [name])), ⟨some path, trace⟩) := by
  rw [node, h]
  exact if_pos hn

theorem node_enter {path : List String} (h : env.formulas.find? name = some f) (hn : name ∉ path)
    (depth : Nat) (trace : Option (List String)) :
    node env chains (.reference name) depth ⟨some path, trace⟩ =
      (run env chains f (depth + 1) ⟨some (path ++ [name]), trace⟩).map fun (result, s) =>
        (result, if result.isOk then s.popped else s) := by
  rw [node, h]
  show (if name ∈ path then _ else _) = _
  rw [if_neg hn]
  show run env chains f (depth + 1) ⟨some (path ++ [name]), trace⟩ >>= _ = _
  rcases run env chains f (depth + 1) ⟨some (path ++ [name]), trace⟩ with _ | ⟨cause | v, s⟩ <;> rfl

theorem simulates_guarded (path : List String) (name : String) :
    ∀ depth, Simulates (some path) traced (node env chains (.reference name) depth)
      (env.guardedFormula traced path name (depth + 1)) := by
  induction path, name using Environment.guarded_induction env with
  | unknown path name h =>
    intro depth
    rw [node_unknown h, Environment.guardedFormula_unknown h]
    exact simulates_silent _
  | cycle path name f h hn =>
    intro depth _ trace _
    rw [node_cycle h hn, Environment.guardedFormula_cycle h hn]
    refine ⟨some path, ?_, nofun⟩
    rw [Outcome.fail, List.map_nil, map_append_nil]
  | enter path name f h hn ih =>
    intro depth hb trace htrace
    have hsim : Simulates (some (path ++ [name])) traced (run env chains f (depth + 1))
        ((env.within traced (path ++ [name])).evaluate f (depth + 1)) :=
      simulates_evaluate ih f (depth + 1)
    rw [Environment.guardedFormula_enter h hn] at hb ⊢
    generalize (env.within traced (path ++ [name])).evaluate f (depth + 1) = o at hb hsim ⊢
    obtain ⟨stack', hrun, hstack⟩ := hsim hb trace htrace
    rw [node_enter h hn, hrun]
    -- the name is taken off the stack again if the formula has a value
    cases hr : o.result with
    | error cause => exact ⟨stack', rfl, nofun⟩
    | ok v =>
      rw [hstack v hr]
      refine ⟨some path, ?_, fun _ _ => rfl⟩
      show some (Except.ok v, State.mk (some (path ++ [name]).dropLast) _) = _
      rw [List.dropLast_concat]

theorem simulates_unguarded (budget : Nat) (name : String) (depth : Nat) :
    Simulates none traced (node env chains (.reference name) depth)
      (env.unguardedFormula traced budget name (depth + 1)) := by
  induction budget generalizing name depth with
  | zero =>
    cases h : env.formulas.find? name with
    | none =>
      rw [node_unknown h, Environment.unguardedFormula_unknown h]
      exact simulates_silent _
    | some f =>
      intro hb
      rw [Environment.unguardedFormula_zero h] at hb
      exact absurd ⟨_, rfl, trivial⟩ hb
  | succ budget ih =>
    cases h : env.formulas.find? name with
    | none =>
      rw [node_unknown h, Environment.unguardedFormula_unknown h]
      exact simulates_silent _
    | some f =>
      intro hb trace htrace
      rw [Environment.unguardedFormula_enter h] at hb ⊢
      rw [node_unwatched h]
      exact simulates_evaluate ih f (depth + 1) hb trace htrace

end

/-! ## What the recursion does without a stack, some budget allows -/

/-- There is no stack, and whether there is a trace is known. -/
structure State.Unwatched (traced : Bool) (s : State) : Prop where
  stack : s.stack = none
  trace : s.trace.isSome = traced

theorem leave_state (s : State) (index depth : Nat) (e : Expr)
    (result : Except EvaluationError Value) :
    (s.leave index depth e result).2 = s ∨
      ∃ text, (s.leave index depth e result).2 = s.filled index text := by
  unfold leave close
  cases s.trace with
  | none => exact .inr ⟨_, rfl⟩
  | some lines =>
    cases TraceLine.text? ⟨depth, e, shownValue result⟩ with
    | none => exact .inl rfl
    | some text => exact .inr ⟨_, rfl⟩

theorem stack_leave (s : State) (index depth : Nat) (e : Expr)
    (result : Except EvaluationError Value) :
    (s.leave index depth e result).2.stack = s.stack := by
  rcases leave_state s index depth e result with h | ⟨text, h⟩
  · rw [h]
  · rw [h]
    rfl

theorem isSome_trace_leave (s : State) (index depth : Nat) (e : Expr)
    (result : Except EvaluationError Value) :
    (s.leave index depth e result).2.trace.isSome = s.trace.isSome := by
  rcases leave_state s index depth e result with h | ⟨text, h⟩
  · rw [h]
  · rw [h]
    exact Option.isSome_map

/-- A trace is kept of a node that is left, which it may not be able to show. -/
theorem leave_result {s : State} (h : s.trace.isSome) (index depth : Nat) (e : Expr)
    (result : Except EvaluationError Value) :
    (s.leave index depth e result).1 = displayed true result := by
  obtain ⟨lines, hlines⟩ := Option.isSome_iff_exists.1 h
  unfold leave close
  rw [hlines]
  cases result with
  | error cause => rfl
  | ok v =>
    cases hv : v.display? with
    | none => simp [TraceLine.text?, shownValue, displayed, hv]
    | some text => simp [TraceLine.text?, shownValue, displayed, hv]

/-- A run from this state that gave `r` had no stack at its end either, and there is a budget with
which, and with any larger one, the evaluator has the same result. -/
def Settled {α : Type} (traced : Bool) (s : State) (o : (budget : Nat) → Outcome α)
    (r : Result α) : Prop :=
  s.Unwatched traced → r.2.Unwatched traced ∧
    (∀ cause, r.1 = .error cause → ¬ cause.IsUnbounded) ∧
    ∃ enough, ∀ budget, enough ≤ budget → (o budget).result = r.1

def Settles {α : Type} (traced : Bool) (x : State → Option (Result α))
    (o : (budget : Nat) → Outcome α) : Prop :=
  ∀ s r, x s = some r → Settled traced s o r

section

variable {α β : Type} {traced : Bool} {x : State → Option (Result α)} {o : Nat → Outcome α}
  {g : Nat → α → Outcome β}

theorem settles_value (a : α) (ho : ∀ budget, (o budget).result = .ok a) :
    Settles traced (fun s => some (.ok a, s)) o := by
  intro s _ h hs
  cases h
  exact ⟨hs, nofun, 0, fun budget _ => ho budget⟩

theorem settles_error {cause : EvaluationError} (hc : ¬ cause.IsUnbounded)
    (ho : ∀ budget, (o budget).result = .error cause) :
    Settles traced (fun s => some (.error cause, s)) o := by
  intro s _ h hs
  cases h
  refine ⟨hs, ?_, 0, fun budget _ => ho budget⟩
  intro _ h
  cases h
  exact hc

theorem settles_operation (r : Except OperationError α) :
    Settles traced (fun s => some (r.mapError .operation, s)) fun _ => .ofOperation r := by
  cases r with
  | error cause => exact settles_error id fun _ => rfl
  | ok a => exact settles_value a fun _ => rfl

theorem Settles.bind {k : Result α → Option (Result β)} (hx : Settles traced x o)
    (herror : ∀ cause s, k (.error cause, s) = some (.error cause, s))
    (hok : ∀ a, Settles traced (fun s => k (.ok a, s)) fun budget => g budget a) :
    Settles traced (fun s => x s >>= k) fun budget => (o budget).bind (g budget) := by
  intro s r h hs
  have h : x s >>= k = some r := h
  rcases hxs : x s with _ | ⟨cause | a, s'⟩
  · rw [hxs] at h
    cases h
  · rw [hxs] at h
    cases (herror cause s').symm.trans h
    obtain ⟨hs', hcause, enough, hresult⟩ := hx s _ hxs hs
    refine ⟨hs', ?_, enough, ?_⟩
    · intro _ h
      cases h
      exact hcause cause rfl
    · intro budget hb
      show ((o budget).bind (g budget)).result = _
      rw [Outcome.bind_of_error (hresult budget hb)]
  · rw [hxs] at h
    obtain ⟨hs', -, enough, hresult⟩ := hx s _ hxs hs
    obtain ⟨hs'', hcause, enough', hresult'⟩ := hok a s' r h hs'
    refine ⟨hs'', hcause, max enough enough', ?_⟩
    intro budget hb
    show ((o budget).bind (g budget)).result = _
    rw [Outcome.bind_of_ok (hresult budget (by omega))]
    exact hresult' budget (by omega)

end

section

variable {env : Environment} {traced : Bool}

/-- Entering a formula takes a level of nesting. What is done where cycles are watched for does not
matter. -/
theorem settled_reference {run : Expr → Nat → State → Option (Result Value)}
    {name : String} {depth : Nat} {s : State} {r : Result Value} {y : Option (Result Value)}
    (hrun : ∀ e depth, Settles traced (run e depth) fun budget =>
      (env.bounded traced budget).evaluate e depth)
    (hunknown : env.formulas.find? name = none → y = some (.error (env.unknownFormula name), s))
    (henter : ∀ f, env.formulas.find? name = some f → s.stack = none → y = run f (depth + 1) s)
    (h : y = some r) :
    Settled traced s (fun budget => env.unguardedFormula traced budget name (depth + 1)) r := by
  intro hs
  cases hf : env.formulas.find? name with
  | none =>
    refine settles_error id ?_ s r ((hunknown hf).symm.trans h) hs
    intro budget
    rw [Environment.unguardedFormula_unknown hf]
    rfl
  | some f =>
    have h := (henter f hf hs.stack).symm.trans h
    obtain ⟨hs', hcause, enough, hresult⟩ := hrun f (depth + 1) s r h hs
    refine ⟨hs', hcause, enough + 1, ?_⟩
    intro budget hb
    obtain ⟨budget, rfl⟩ : ∃ b, budget = b + 1 := ⟨budget - 1, by omega⟩
    show (env.unguardedFormula traced (budget + 1) name (depth + 1)).result = _
    rw [Environment.unguardedFormula_enter hf]
    exact hresult budget (by omega)

variable (env traced)

/-- **A run without a stack that returns needs no more than some budget.** -/
theorem settles_run (e : Expr) (depth : Nat) :
    Settles traced (run env .nested e depth) fun budget =>
      (env.bounded traced budget).evaluate e depth := by
  intro s r h
  -- on how the run returns: that of a tree, of a node without its line, of the arguments of a
  -- call, of an operation; there is no loop
  refine run.partial_correctness env .nested
    (fun e depth s => Settled traced s fun budget => (env.bounded traced budget).evaluate e depth)
    (fun e depth s => Settled traced s fun budget => (env.bounded traced budget).inner e depth)
    (fun es depth s =>
      Settled traced s fun budget => (env.bounded traced budget).evaluateList es depth)
    (fun _ _ _ _ => True) (fun _ _ _ _ _ _ _ => True)
    (fun l op r depth s =>
      Settled traced s fun budget => (env.bounded traced budget).inner (.arith l op r) depth)
    ?_ ?_ ?_ (fun _ _ _ _ _ _ _ _ _ => trivial) (fun _ _ _ _ _ _ _ _ _ _ _ _ => trivial) ?_
    e depth s r h
  · intro node hnode e depth s r h hs
    have heval (budget : Nat) : ((env.bounded traced budget).evaluate e depth).result =
        displayed traced ((env.bounded traced budget).inner e depth).result := by
      rw [Scope.evaluate_eq_close]
      rfl
    cases htrace : s.trace with
    | none =>
      rw [htrace] at h
      obtain ⟨hs', hcause, enough, hresult⟩ := hnode e depth s r h hs
      have hfalse : traced = false := hs.trace.symm.trans (by rw [htrace]; rfl)
      refine ⟨hs', hcause, enough, fun budget hb => ?_⟩
      rw [heval, hresult budget hb, hfalse, displayed_false]
    | some lines =>
      rw [htrace] at h
      have htrue : traced = true := hs.trace.symm.trans (by rw [htrace]; rfl)
      rcases hx : node e depth s.opened with _ | ⟨result, s'⟩
      · rw [hx] at h
        cases h
      · rw [hx] at h
        cases h
        have hopened : s.opened.Unwatched traced :=
          ⟨hs.stack, (isSome_trace_opened s).trans hs.trace⟩
        obtain ⟨hs', hcause, enough, hresult⟩ := hnode e depth s.opened _ hx hopened
        have hleave := leave_result (hs'.trace.trans htrue) s.next depth e result
        refine ⟨⟨(stack_leave ..).trans hs'.stack, (isSome_trace_leave ..).trans hs'.trace⟩,
          fun cause h => ?_, enough, fun budget hb => ?_⟩
        · rcases displayed_eq_or true result with hd | hd
          · exact hcause cause (hd.symm.trans (hleave.symm.trans h))
          · cases hd.symm.trans (hleave.symm.trans h)
            exact id
        · rw [heval, hresult budget hb, hleave, htrue]
  · intro run runList looped nested hrun hrunList _ hnested e depth s r h
    have hrun : ∀ e depth, Settles traced (run e depth) fun budget =>
        (env.bounded traced budget).evaluate e depth := hrun
    have hrunList : ∀ es depth, Settles traced (runList es depth) fun budget =>
        (env.bounded traced budget).evaluateList es depth := hrunList
    cases e with
    | number x => exact settles_value (.ofFloat x) (fun _ => rfl) s r h
    | text t => exact settles_value (.text t) (fun _ => rfl) s r h
    | var name => exact settles_value (Environment.valueOf env.vars name) (fun _ => rfl) s r h
    | reference name =>
      dsimp only at h
      refine settled_reference hrun ?_ ?_ h
      · intro hf
        rw [hf]
        rfl
      · intro f hf hstack
        rw [hf, hstack]
    | bracket e => exact hrun e (depth + 1) s r h
    | minus e =>
      refine Settles.bind (hrun e (depth + 1)) ?_ ?_ s r h
      · exact fun _ _ => rfl
      · exact fun v => settles_operation v.negate
    | arith l op r' => exact hnested l op r' depth s r h
    | compare l op r' =>
      refine Settles.bind (hrun l (depth + 1)) ?_ ?_ s r h
      · exact fun _ _ => rfl
      · intro left
        refine Settles.bind (hrun r' (depth + 1)) ?_ ?_
        · exact fun _ _ => rfl
        · exact fun right => settles_operation (left.compare op right)
    | call name es =>
      refine Settles.bind (hrunList es (depth + 1)) ?_ ?_ s r h
      · exact fun _ _ => rfl
      · intro vs
        have hfunctions : ∀ budget, (env.bounded traced budget).functions = env.functions :=
          fun _ => rfl
        simp only [Scope.apply, hfunctions]
        cases env.functions.find? name with
        | none => exact settles_error id fun _ => rfl
        | some f => exact settles_operation (f vs)
  · intro run runList hrun hrunList es depth s r h
    have hrun : ∀ e depth, Settles traced (run e depth) fun budget =>
        (env.bounded traced budget).evaluate e depth := hrun
    have hrunList : ∀ es depth, Settles traced (runList es depth) fun budget =>
        (env.bounded traced budget).evaluateList es depth := hrunList
    cases es with
    | nil => exact settles_value [] (fun _ => rfl) s r h
    | cons e es =>
      refine Settles.bind (hrun e depth) ?_ ?_ s r h
      · exact fun _ _ => rfl
      · intro v
        refine Settles.bind (hrunList es depth) ?_ ?_
        · exact fun _ _ => rfl
        · exact fun vs => settles_value (v :: vs) fun _ => rfl
  · intro run hrun l op r' depth s r h
    have hrun : ∀ e depth, Settles traced (run e depth) fun budget =>
        (env.bounded traced budget).evaluate e depth := hrun
    refine Settles.bind (hrun l (depth + 1)) ?_ ?_ s r h
    · exact fun _ _ => rfl
    · intro left
      refine Settles.bind (hrun r' (depth + 1)) ?_ ?_
      · exact fun _ _ => rfl
      · exact fun right => settles_operation (left.arith op right)

end

/-! ## The evaluator against the recursion -/

/-- The scope of a tree that is evaluated within the formulas on a stack, or without a stack. -/
def scopeFrom (env : Environment) (stack : Option (List String)) (traced : Bool) : Scope :=
  match stack with
  | some path => env.within traced path
  | none => env.bounded traced env.formulas.size

/-- What is seen of an outcome from outside: its result, and a trace with its lines. Nothing is seen
if references have no end. -/
def returned (trace : Option (List String)) (o : Outcome Value) :
    Option (Except EvaluationError Value × Option (List String)) :=
  match o.result with
  | .error .unbounded => none
  | result => some (result, trace.map (· ++ o.lines.map TraceLine.text))

/-- The state in which the evaluation of a whole formula begins. -/
def State.start (mode : Environment.Mode) : State :=
  ⟨if mode.guarded then some [] else none, if mode.traced then some [] else none⟩

section

variable {env : Environment} {chains : Chains} {traced : Bool} {e : Expr} {depth : Nat}

theorem returned_of_unbounded {trace : Option (List String)} {o : Outcome Value}
    (h : o.Fails EvaluationError.IsUnbounded) : returned trace o = none := by
  unfold returned
  rw [Outcome.fails_isUnbounded_iff.1 h]

theorem returned_of_not_unbounded {trace : Option (List String)} {o : Outcome Value}
    (h : ¬ o.Fails EvaluationError.IsUnbounded) :
    returned trace o = some (o.result, trace.map (· ++ o.lines.map TraceLine.text)) := by
  unfold returned
  split
  · rename_i hresult
    exact absurd (Outcome.fails_isUnbounded_iff.2 hresult) h
  · rfl

theorem simulates_scopeFrom (stack : Option (List String)) (e : Expr) (depth : Nat) :
    Simulates stack traced (run env chains e depth) ((scopeFrom env stack traced).evaluate e depth) := by
  cases stack with
  | none =>
    exact simulates_evaluate (fun name d => simulates_unguarded env.formulas.size name d) e depth
  | some path => exact simulates_evaluate (fun name d => simulates_guarded path name d) e depth

/-- Where references have no end, no run without a stack returns. -/
theorem run_eq_none
    (h : ((env.bounded traced env.formulas.size).evaluate e depth).Fails
      EvaluationError.IsUnbounded)
    {trace : Option (List String)} (htrace : trace.isSome = traced) :
    run env chains e depth ⟨none, trace⟩ = none := by
  rw [run_eq_nested]
  have hcycle : ((env.within traced []).evaluate e depth).Fails EvaluationError.IsCycle := by
    by_cases hc : ((env.within traced []).evaluate e depth).Fails EvaluationError.IsCycle
    · exact hc
    · rw [Environment.bounded_eq_within (Nat.le_refl _) hc] at h
      exact absurd h (Environment.not_isUnbounded_within [] e depth)
  cases hr : run env .nested e depth ⟨none, trace⟩ with
  | none => rfl
  | some r =>
    -- some budget is enough for this run, and none is enough for the cycle
    obtain ⟨-, hcause, enough, hresult⟩ := settles_run env traced e depth _ r hr ⟨rfl, htrace⟩
    obtain ⟨cause, herror, hunbounded⟩ := Environment.bounded_unbounded hcycle enough
    rw [hresult enough (Nat.le_refl _)] at herror
    exact absurd hunbounded (hcause cause herror)

end

/-- **The walk along the spine of chains agrees with plain recursion**: with a stack or without one,
from any depth and any trace, the loop that reserves the lines of a chain and fills them in on the
way up does what the recursion does. Both return, if they do, what the evaluator gives. -/
theorem run_eq_evaluate (env : Environment) (e : Expr) (depth : Nat)
    (stack trace : Option (List String)) :
    run env .spine e depth ⟨stack, trace⟩ = run env .nested e depth ⟨stack, trace⟩ ∧
    (run env .spine e depth ⟨stack, trace⟩).map (fun (result, s) => (result, s.trace)) =
      returned trace ((scopeFrom env stack trace.isSome).evaluate e depth) := by
  refine ⟨run_eq_nested env .spine e depth _, ?_⟩
  by_cases h : ((scopeFrom env stack trace.isSome).evaluate e depth).Fails
      EvaluationError.IsUnbounded
  · cases stack with
    | none => rw [run_eq_none h rfl, returned_of_unbounded h, Option.map_none]
    | some path => exact absurd h (Environment.not_isUnbounded_within path e depth)
  · obtain ⟨stack', hrun, -⟩ := simulates_scopeFrom stack e depth h trace rfl
    rw [hrun, returned_of_not_unbounded h, Option.map_some]

/-- **The guard against cycles is exact.** With it every evaluation returns; it reports a cycle
exactly where the recursion without a stack does not return, which is where the evaluator without
it finds that references have no end; and otherwise it makes no difference. -/
theorem evaluate_guarded_exact (env : Environment) (chains : Chains) (traced : Bool) (e : Expr) :
    (∃ s, run env chains e 0 (.start ⟨true, traced⟩) =
      some ((env.evaluate ⟨true, traced⟩ e).result, s)) ∧
    ((∃ path, (env.evaluate ⟨true, traced⟩ e).result = .error (.cycle path)) ↔
      run env chains e 0 (.start ⟨false, traced⟩) = none) ∧
    ((∃ path, (env.evaluate ⟨true, traced⟩ e).result = .error (.cycle path)) ↔
      (env.evaluate ⟨false, traced⟩ e).result = .error .unbounded) ∧
    ((∃ path, (env.evaluate ⟨true, traced⟩ e).result = .error (.cycle path)) ∨
      env.evaluate ⟨false, traced⟩ e = env.evaluate ⟨true, traced⟩ e) := by
  have hguarded : env.evaluate ⟨true, traced⟩ e = (env.within traced []).evaluate e 0 := rfl
  have hunguarded : env.evaluate ⟨false, traced⟩ e =
      (env.bounded traced env.formulas.size).evaluate e 0 := rfl
  rw [hguarded, hunguarded, ← Outcome.fails_isCycle_iff, ← Outcome.fails_isUnbounded_iff]
  have htrace (guarded : Bool) : (State.start ⟨guarded, traced⟩).trace.isSome = traced := by
    cases traced <;> rfl
  have hnot : ¬ ((env.within traced []).evaluate e 0).Fails EvaluationError.IsUnbounded :=
    Environment.not_isUnbounded_within [] e 0
  refine ⟨?_, ?_⟩
  · obtain ⟨stack', hrun, -⟩ := simulates_scopeFrom (some []) e 0 hnot _ (htrace true)
    exact ⟨_, hrun⟩
  · by_cases hc : ((env.within traced []).evaluate e 0).Fails EvaluationError.IsCycle
    · have hunbounded := Environment.bounded_unbounded hc env.formulas.size
      exact ⟨iff_of_true hc (run_eq_none hunbounded (htrace false)), iff_of_true hc hunbounded,
        .inl hc⟩
    · have heq := Environment.bounded_eq_within (Nat.le_refl _) hc
      obtain ⟨stack', hrun, -⟩ := simulates_scopeFrom none e 0
        (fun h => hnot (heq ▸ h)) _ (htrace false)
      refine ⟨iff_of_false hc ?_, iff_of_false hc ?_, .inr heq⟩
      · intro hnone
        cases hnone.symm.trans hrun
      · rw [heq]
        exact hnot

end Formulary.Recursion
