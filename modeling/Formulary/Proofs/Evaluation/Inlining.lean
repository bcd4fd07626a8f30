import Formulary.Proofs.Evaluation.Recursion

/-!
# References and the formulas they stand for

**A reference to a formula means the tree of the formula in brackets** (`evaluate_inlined`). The two
can be exchanged at any places of a tree, and nobody who sees only the result can tell.

The two differ in what the guard against cycles has seen. Behind a reference the name of its
formula counts as visited; in brackets it does not, so that a cycle is noticed later and on another
path. Whether there is one does not depend on this: a tree without a cycle is evaluated alike
whatever was visited, and one with a cycle goes on for ever without the guard. So results agree but
for the paths of cycles (`Outcome.Alike`), which is a relation that evaluation keeps.
-/

namespace Formulary

/-- Some of the references to a formula were replaced by its tree in brackets. -/
def Expr.Inlines (t : Expr) (name : String) (f t' : Expr) : Prop :=
  t.Replaces (fun e e' => e = e' ∨ e = .reference name ∧ e' = .bracket f) t'

/-! ## The same but for the paths of cycles -/

namespace Outcome

/-- The results are the same, or both are cycles. -/
def Alike {α : Type} (o o' : Outcome α) : Prop :=
  o.result = o'.result ∨ o.Fails EvaluationError.IsCycle ∧ o'.Fails EvaluationError.IsCycle

theorem congruence_alike : Congruence Alike where
  pure _ := .inl rfl
  operation _ := .inl rfl
  unknown _ _ := .inl rfl
  bind {α β o o' f f'} h hf := by
    rcases h with h | ⟨h, h'⟩
    · cases hr : o.result with
      | error e =>
        rw [bind_of_error hr, bind_of_error (h.symm.trans hr)]
        exact .inl rfl
      | ok a =>
        rw [bind_of_ok hr, bind_of_ok (h.symm.trans hr)]
        exact hf a
    · exact .inr ⟨h.bind, h'.bind⟩

theorem Alike.close {scope : Scope} {d d' : Nat} {e e' : Expr} {o o' : Outcome Value}
    (h : Alike o o') : (scope.close d e o).Alike (scope.close d' e' o') :=
  h.imp (result_close_congr rfl) fun ⟨h, h'⟩ => ⟨h.close, h'.close⟩

theorem Alike.fails_iff {α : Type} {o o' : Outcome α} (h : Alike o o') :
    o.Fails EvaluationError.IsCycle ↔ o'.Fails EvaluationError.IsCycle := by
  rcases h with h | ⟨h, h'⟩
  · unfold Fails
    rw [h]
  · exact iff_of_true h h'

/-- Where there is no cycle, nothing differs. -/
theorem Alike.result_eq {α : Type} {o o' : Outcome α} (h : Alike o o')
    (hc : ¬ o.Fails EvaluationError.IsCycle) : o.result = o'.result :=
  h.resolve_right fun hcycle => hc hcycle.1

end Outcome

namespace Environment

open Outcome

variable {env : Environment} {traced : Bool} {name : String} {f t t' : Expr}

theorem result_reference (path : List String) (name : String) (d : Nat) :
    ((env.within traced path).evaluate (.reference name) d).result =
      (env.guardedFormula traced path name (d + 1)).result := by
  rw [Scope.evaluate_eq_close]
  exact displayed_guardedFormula path name (d + 1)

theorem result_bracket (path : List String) (e : Expr) (d : Nat) :
    ((env.within traced path).evaluate (.bracket e) d).result =
      ((env.within traced path).evaluate e (d + 1)).result := by
  rw [Scope.evaluate_eq_close]
  exact Scope.displayed_evaluate _ e (d + 1)

/-- **A reference is as good as its formula in brackets.** -/
theorem alike_bracket (hf : env.formulas.find? name = some f) (d d' : Nat) :
    Alike ((env.within traced []).evaluate (.reference name) d)
      ((env.within traced []).evaluate (.bracket f) d') := by
  have hreference : ((env.within traced []).evaluate (.reference name) d).result =
      ((env.within traced [name]).evaluate f (d' + 1)).result := by
    rw [result_reference, result_guardedFormula_eq [] name (d + 1) (d' + 1),
      guardedFormula_enter hf List.not_mem_nil]
    rfl
  by_cases hc : ((env.within traced [name]).evaluate f (d' + 1)).Fails EvaluationError.IsCycle
  · -- the name was entered on the way to the cycle, so it is found behind the brackets, too
    have hguarded : (env.guardedFormula traced [] name (d' + 1)).Fails
        EvaluationError.IsCycle := by
      rw [guardedFormula_enter hf List.not_mem_nil]
      exact hc
    have hhot : Hot env traced ([] ++ [name]) := hot_nil.concat (cycle_of_cycle hguarded)
    have hcycle := hhot.cycle_within_nil hc
    unfold Alike Fails
    rw [hreference, result_bracket]
    exact .inr ⟨hc, hcycle⟩
  · refine .inl ?_
    rw [hreference, result_bracket, within_nil_eq hc]

theorem alike_of_inlines (hf : env.formulas.find? name = some f) (h : t.Inlines name f t')
    (d : Nat) :
    Alike ((env.within traced []).evaluate t d) ((env.within traced []).evaluate t' d) := by
  refine Scope.evaluate_related (D := fun _ _ => True) (s := env.within traced [])
    congruence_alike (Scope.apply_related congruence_alike rfl) (fun _ _ _ => trivial)
    (fun _ _ _ _ _ _ _ _ ho => ho.close) ?_ h d d trivial
  rintro e e' d d' (rfl | ⟨rfl, rfl⟩) -
  · exact .inl (result_within_eq [] e d d')
  · exact alike_bracket hf d d'

/-- Without the guard, cycles have no paths that could differ. -/
theorem result_bounded_eq {budget d : Nat} (hbudget : env.formulas.size ≤ budget)
    (h : Alike ((env.within traced []).evaluate t d) ((env.within traced []).evaluate t' d)) :
    ((env.bounded traced budget).evaluate t d).result =
      ((env.bounded traced budget).evaluate t' d).result := by
  by_cases hc : ((env.within traced []).evaluate t d).Fails EvaluationError.IsCycle
  · have hunbounded := bounded_unbounded hc budget
    have hunbounded' := bounded_unbounded (h.fails_iff.1 hc) budget
    rw [fails_isUnbounded_iff] at hunbounded hunbounded'
    rw [hunbounded, hunbounded']
  · have hc' := fun hc' => hc (h.fails_iff.2 hc')
    rw [bounded_eq_within hbudget hc, bounded_eq_within hbudget hc']
    exact h.result_eq hc

end Environment

/-! ## Inlining -/

namespace Recursion

variable {env : Environment} {name : String} {f t t' : Expr}

/-- The result of a run without a stack is that of the evaluator, and it is missing where references
have no end. -/
theorem map_fst_run (env : Environment) (chains : Chains) (e : Expr)
    (trace : Option (List String)) :
    (State.run env chains e 0 ⟨none, trace⟩).map Prod.fst =
      match ((env.bounded trace.isSome env.formulas.size).evaluate e 0).result with
      | .error .unbounded => none
      | result => some result := by
  by_cases h : ((env.bounded trace.isSome env.formulas.size).evaluate e 0).Fails
      EvaluationError.IsUnbounded
  · rw [run_eq_none h rfl, Outcome.fails_isUnbounded_iff.1 h]
    rfl
  · obtain ⟨stack', hrun, -⟩ := simulates_scopeFrom none e 0 h trace rfl
    rw [hrun]
    split
    · rename_i hresult
      exact absurd (Outcome.fails_isUnbounded_iff.2 hresult) h
    · rfl

/-- **A reference means the tree of its formula in brackets.** Replacing some references by it changes
no value and no error, but for the path of a cycle; and if nobody watches for cycles, the one
evaluation goes on for ever exactly if the other one does. -/
theorem evaluate_inlined (hf : env.formulas.find? name = some f) (h : t.Inlines name f t')
    (chains : Chains) (traced : Bool) :
    (env.evaluate ⟨true, traced⟩ t).Alike (env.evaluate ⟨true, traced⟩ t') ∧
    (env.evaluate ⟨false, traced⟩ t).result = (env.evaluate ⟨false, traced⟩ t').result ∧
    (State.run env chains t 0 (.start ⟨false, traced⟩)).map Prod.fst =
      (State.run env chains t' 0 (.start ⟨false, traced⟩)).map Prod.fst := by
  have halike : Outcome.Alike ((env.within traced []).evaluate t 0)
      ((env.within traced []).evaluate t' 0) := Environment.alike_of_inlines hf h 0
  have hbounded := Environment.result_bounded_eq (Nat.le_refl _) halike
  refine ⟨halike, hbounded, ?_⟩
  have htrace : (State.start ⟨false, traced⟩).trace.isSome = traced := by
    cases traced <;> rfl
  have hstart : State.start ⟨false, traced⟩ = ⟨none, (State.start ⟨false, traced⟩).trace⟩ := rfl
  rw [hstart, map_fst_run, map_fst_run, htrace, hbounded]

/-- Two formulas refer to each other, and one of two references is replaced. The paths of the cycles
differ. -/
theorem evaluate_inlined_cycle :
    let env : Environment :=
      ⟨.empty, .empty, .ofList [("f", .reference "g"), ("g", .minus (.reference "f"))]⟩
    let t : Expr := .arith (.reference "f") .add (.reference "f")
    let t' : Expr := .arith (.bracket (.reference "g")) .add (.reference "f")
    env.formulas.find? "f" = some (.reference "g") ∧ t.Inlines "f" (.reference "g") t' ∧
      (env.evaluate ⟨true, true⟩ t).Alike (env.evaluate ⟨true, true⟩ t') ∧
      (env.evaluate ⟨false, true⟩ t).result = (env.evaluate ⟨false, true⟩ t').result ∧
      (State.run env .spine t 0 (.start ⟨false, true⟩)).map Prod.fst =
        (State.run env .spine t' 0 (.start ⟨false, true⟩)).map Prod.fst := by
  intro env t t'
  have hf : env.formulas.find? "f" = some (.reference "g") := by rfl
  have h : t.Inlines "f" (.reference "g") t' :=
    .arith (.here (.inr ⟨rfl, rfl⟩)) (.here (.inl rfl))
  exact ⟨hf, h, evaluate_inlined hf h .spine true⟩

end Recursion

end Formulary
