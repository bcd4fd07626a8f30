import Formulary.Proofs.Evaluation.Agreement

/-!
# What the guard against cycles finds

A guarded evaluation that meets no cycle is, reference by reference, an unguarded one that needs no
more levels of nesting than there are formulas not visited yet (`agrees_unguarded`).

One that does meet a cycle has followed references from a name back to itself. **An unguarded
evaluation follows them again and again** (`unguarded_unbounded`). The path says why: it is *hot*, that
is, each name on it was entered on the way to the cycle, so that entering any of them with only
the names before it visited ends in a cycle. When the guard stops at a name on the path, the
unguarded evaluation enters it again as if it were there for the first time, and the path in front
of it is hot too. Each entry takes a level of nesting, so no budget suffices.
-/

namespace Formulary.Environment

open Outcome

variable {env : Environment} {traced : Bool} {path : List String} {name : String} {e : Expr}

/-! ## Scopes -/

/-- The scope of trees within the formulas of a path. -/
def within (env : Environment) (traced : Bool) (path : List String) : Scope :=
  ⟨env.vars, env.functions, env.guardedFormula traced path, traced⟩

/-- The scope of trees below which references may be nested up to a budget. -/
def bounded (env : Environment) (traced : Bool) (budget : Nat) : Scope :=
  ⟨env.vars, env.functions, env.unguardedFormula traced budget, traced⟩

theorem guardedFormula_unknown (h : env.formulas.find? name = none) (depth : Nat) :
    env.guardedFormula traced path name depth = .fail (env.unknownFormula name) := by
  rw [guardedFormula]
  split
  · rfl
  · rename_i e he
    cases h.symm.trans he

theorem guardedFormula_cycle (h : env.formulas.find? name = some e) (hn : name ∈ path)
    (depth : Nat) :
    env.guardedFormula traced path name depth = .fail (.cycle (path ++ [name])) := by
  rw [guardedFormula]
  split
  · rename_i he
    cases h.symm.trans he
  · rw [dif_pos hn]

theorem guardedFormula_enter (h : env.formulas.find? name = some e) (hn : name ∉ path)
    (depth : Nat) :
    env.guardedFormula traced path name depth =
      (env.within traced (path ++ [name])).evaluate e depth := by
  rw [guardedFormula]
  split
  · rename_i he
    cases h.symm.trans he
  · rename_i e' he
    cases h.symm.trans he
    rw [dif_neg hn]
    rfl

theorem unguardedFormula_unknown (h : env.formulas.find? name = none) (budget depth : Nat) :
    env.unguardedFormula traced budget name depth = .fail (env.unknownFormula name) := by
  unfold unguardedFormula
  rw [h]

theorem unguardedFormula_zero (h : env.formulas.find? name = some e) (depth : Nat) :
    env.unguardedFormula traced 0 name depth = .fail .unbounded := by
  unfold unguardedFormula
  rw [h]

theorem unguardedFormula_enter (h : env.formulas.find? name = some e) (budget depth : Nat) :
    env.unguardedFormula traced (budget + 1) name depth =
      (env.bounded traced budget).evaluate e depth := by
  unfold unguardedFormula
  rw [h]
  rfl

/-- What holds of references that are not followed, and of those that are if it holds of all that
are nested in them, holds of all references. -/
theorem guarded_induction (env : Environment) {motive : List String → String → Prop}
    (unknown : ∀ path name, env.formulas.find? name = none → motive path name)
    (cycle : ∀ path name e, env.formulas.find? name = some e → name ∈ path → motive path name)
    (enter : ∀ path name e, env.formulas.find? name = some e → name ∉ path →
      (∀ name', motive (path ++ [name]) name') → motive path name)
    (path : List String) (name : String) : motive path name := by
  cases h : env.formulas.find? name with
  | none => exact unknown path name h
  | some e =>
    by_cases hn : name ∈ path
    · exact cycle path name e h hn
    · have := unvisited_lt h hn
      exact enter path name e h hn fun name' =>
        guarded_induction env unknown cycle enter (path ++ [name]) name'
termination_by env.unvisited path

/-- The same without the guard, where the budget ends what the path does not. -/
theorem unguarded_induction (env : Environment) {motive : Nat → String → Prop}
    (unknown : ∀ budget name, env.formulas.find? name = none → motive budget name)
    (spent : ∀ name e, env.formulas.find? name = some e → motive 0 name)
    (enter : ∀ budget name e, env.formulas.find? name = some e →
      (∀ name', motive budget name') → motive (budget + 1) name)
    (budget : Nat) (name : String) : motive budget name := by
  induction budget generalizing name with
  | zero =>
    cases h : env.formulas.find? name with
    | none => exact unknown 0 name h
    | some e => exact spent name e h
  | succ budget ih =>
    cases h : env.formulas.find? name with
    | none => exact unknown (budget + 1) name h
    | some e => exact enter budget name e h ih

theorem not_isUnbounded_guarded (path : List String) (name : String) :
    ∀ depth, ¬ (env.guardedFormula traced path name depth).Fails EvaluationError.IsUnbounded := by
  induction path, name using guarded_induction env with
  | unknown path name h =>
    intro depth
    rw [guardedFormula_unknown h]
    exact not_fails_fail id
  | cycle path name e h hn =>
    intro depth
    rw [guardedFormula_cycle h hn]
    exact not_fails_fail id
  | enter path name e h hn ih =>
    intro depth
    rw [guardedFormula_enter h hn]
    exact Scope.not_fails_evaluate (fun _ => id) (fun _ _ => id) ih e depth

/-- How deep a reference lies does not matter for its result. -/
theorem result_guardedFormula_eq (path : List String) (name : String) :
    ∀ d d', (env.guardedFormula traced path name d).result =
      (env.guardedFormula traced path name d').result := by
  induction path, name using guarded_induction env with
  | unknown path name h =>
    intro d d'
    rw [guardedFormula_unknown h, guardedFormula_unknown h]
  | cycle path name e h hn =>
    intro d d'
    rw [guardedFormula_cycle h hn, guardedFormula_cycle h hn]
  | enter path name e h hn ih =>
    intro d d'
    rw [guardedFormula_enter h hn, guardedFormula_enter h hn]
    exact Scope.result_evaluate_eq (env.within traced _) (env.within traced _) rfl rfl rfl ih e d d'

theorem displayed_guardedFormula (path : List String) (name : String) (d : Nat) :
    displayed traced (env.guardedFormula traced path name d).result =
      (env.guardedFormula traced path name d).result := by
  cases h : env.formulas.find? name with
  | none =>
    rw [guardedFormula_unknown h]
    rfl
  | some e =>
    by_cases hn : name ∈ path
    · rw [guardedFormula_cycle h hn]
      rfl
    · rw [guardedFormula_enter h hn]
      exact Scope.displayed_evaluate _ e d

theorem cycle_of_cycle {d : Nat}
    (h : (env.guardedFormula traced path name d).Fails EvaluationError.IsCycle) (d' : Nat) :
    (env.guardedFormula traced path name d').Fails EvaluationError.IsCycle := by
  obtain ⟨err, herr, hc⟩ := h
  exact ⟨err, (result_guardedFormula_eq path name d' d).trans herr, hc⟩

theorem find?_of_cycle {d : Nat}
    (h : (env.guardedFormula traced path name d).Fails EvaluationError.IsCycle) :
    ∃ e, env.formulas.find? name = some e := by
  cases hf : env.formulas.find? name with
  | some e => exact ⟨e, rfl⟩
  | none =>
    rw [guardedFormula_unknown hf] at h
    exact absurd h (not_fails_fail id)

/-! ## Without a cycle -/

/-- **Where the guard finds no cycle it changes nothing**, if the budget covers the formulas that
were not visited; a smaller budget may be used up. -/
theorem agrees_unguarded {q : EvaluationError → Prop} {budget : Nat}
    (hq : budget < env.unvisited path → q .unbounded) (depth : Nat) :
    Agrees EvaluationError.IsCycle q (env.guardedFormula traced path name depth)
      (env.unguardedFormula traced budget name depth) := by
  induction budget, name using unguarded_induction env generalizing path depth with
  | unknown budget name h =>
    rw [guardedFormula_unknown h, unguardedFormula_unknown h]
    exact .both rfl (not_fails_fail id)
  | spent name e h =>
    by_cases hn : name ∈ path
    · rw [guardedFormula_cycle h hn]
      exact .left ⟨_, rfl, trivial⟩
    · rw [unguardedFormula_zero h]
      exact .right ⟨_, rfl, hq (Nat.zero_lt_of_lt (unvisited_lt h hn))⟩
  | enter budget name e h ih =>
    by_cases hn : name ∈ path
    · rw [guardedFormula_cycle h hn]
      exact .left ⟨_, rfl, trivial⟩
    · have hlt := unvisited_lt h hn
      rw [guardedFormula_enter h hn, unguardedFormula_enter h]
      exact Scope.evaluate_agrees (fun name' d => ih name' (fun hb => hq (by omega)) d) e depth

/-! ## With a cycle -/

/-- Entering any name of the path, with the names before it visited, ends in a cycle. -/
def Hot (env : Environment) (traced : Bool) (path : List String) : Prop :=
  ∀ before name, before ++ [name] <+: path →
    ∀ depth, (env.guardedFormula traced before name depth).Fails EvaluationError.IsCycle

theorem hot_nil : Hot env traced [] := by
  intro before name h
  cases before <;> simp at h

theorem Hot.concat (h : Hot env traced path)
    (hname : ∀ depth, (env.guardedFormula traced path name depth).Fails EvaluationError.IsCycle) :
    Hot env traced (path ++ [name]) := by
  intro before name' hp
  rcases List.prefix_concat_iff.1 hp with heq | hp
  · obtain ⟨rfl, hlast⟩ := List.append_inj' heq rfl
    obtain rfl : name' = name := List.cons.inj hlast |>.1
    exact hname
  · exact h before name' hp

/-- A name on a hot path was entered for the first time behind a hot path as well. -/
theorem Hot.first (h : Hot env traced path) (hn : name ∈ path) :
    ∃ before, Hot env traced before ∧ name ∉ before ∧
      ∀ depth, (env.guardedFormula traced before name depth).Fails EvaluationError.IsCycle := by
  obtain ⟨before, behind, rfl, hnot⟩ := List.eq_append_cons_of_mem hn
  refine ⟨before, ?_, hnot, ?_⟩
  · intro before' name' hp
    exact h before' name' (hp.trans (List.prefix_append before (name :: behind)))
  · refine h before name ⟨behind, ?_⟩
    rw [List.append_assoc, List.singleton_append]

/-- A tree whose evaluation meets a cycle uses up a budget that each such reference uses up. -/
theorem fails_bounded_evaluate {budget : Nat}
    (h : ∀ name depth, (env.guardedFormula traced path name depth).Fails EvaluationError.IsCycle →
      (env.unguardedFormula traced budget name depth).Fails EvaluationError.IsUnbounded)
    {depth : Nat} (hc : ((env.within traced path).evaluate e depth).Fails EvaluationError.IsCycle) :
    ((env.bounded traced budget).evaluate e depth).Fails EvaluationError.IsUnbounded := by
  have hagrees : ∀ name depth, Agrees (fun _ => False) EvaluationError.IsUnbounded
      (env.guardedFormula traced path name depth)
      (env.unguardedFormula traced budget name depth) := by
    intro name depth
    have hall : Agrees EvaluationError.IsCycle EvaluationError.IsUnbounded
        (env.guardedFormula traced path name depth)
        (env.unguardedFormula traced budget name depth) :=
      agrees_unguarded (fun _ => trivial) depth
    cases hall with
    | left hc => exact .right (h name depth hc)
    | right hu => exact .right hu
    | both heq hnc => exact .both heq hnc
  cases Scope.evaluate_agrees (s := env.within traced path) hagrees e depth with
  | left hf => exact hf.elim fun _ hf => hf.2.elim
  | right hu => exact hu
  | both heq hnc => exact absurd hc hnc

/-- **Where the guard finds a cycle, no budget suffices** to follow references without it. -/
theorem unguarded_unbounded (hhot : Hot env traced path) {depth : Nat}
    (hc : (env.guardedFormula traced path name depth).Fails EvaluationError.IsCycle)
    (budget depth' : Nat) :
    (env.unguardedFormula traced budget name depth').Fails EvaluationError.IsUnbounded := by
  induction budget generalizing path name depth depth' with
  | zero =>
    obtain ⟨e, h⟩ := find?_of_cycle hc
    rw [unguardedFormula_zero h]
    exact ⟨_, rfl, trivial⟩
  | succ budget ih =>
    obtain ⟨e, h⟩ := find?_of_cycle hc
    -- a name on the path is entered again as it was the first time
    obtain ⟨before, hbefore, hnot, hfirst⟩ : ∃ before, Hot env traced before ∧ name ∉ before ∧
        ∀ d, (env.guardedFormula traced before name d).Fails EvaluationError.IsCycle := by
      by_cases hn : name ∈ path
      · exact hhot.first hn
      · exact ⟨path, hhot, hn, cycle_of_cycle hc⟩
    have hentered := hfirst depth'
    rw [guardedFormula_enter h hnot] at hentered
    rw [unguardedFormula_enter h]
    refine fails_bounded_evaluate (fun name' d hc' => ?_) hentered
    exact ih (hbefore.concat hfirst) hc' d

/-! ## Trees -/

theorem unvisited_le (env : Environment) (path : List String) :
    env.unvisited path ≤ env.formulas.size := by
  unfold unvisited
  rw [← Table.length_keys]
  exact List.countP_le_length

/-- A tree on a hot path in which the guard finds a cycle uses up any budget. -/
theorem bounded_unbounded_of_hot (hhot : Hot env traced path) {depth : Nat}
    (hc : ((env.within traced path).evaluate e depth).Fails EvaluationError.IsCycle)
    (budget : Nat) :
    ((env.bounded traced budget).evaluate e depth).Fails EvaluationError.IsUnbounded :=
  fails_bounded_evaluate (fun _ d hname => unguarded_unbounded hhot hname budget d) hc

theorem bounded_unbounded {depth : Nat}
    (hc : ((env.within traced []).evaluate e depth).Fails EvaluationError.IsCycle)
    (budget : Nat) :
    ((env.bounded traced budget).evaluate e depth).Fails EvaluationError.IsUnbounded :=
  bounded_unbounded_of_hot hot_nil hc budget

/-- A tree in which it finds none is evaluated alike without it. -/
theorem bounded_eq_within {budget depth : Nat} (hbudget : env.formulas.size ≤ budget)
    (hc : ¬ ((env.within traced path).evaluate e depth).Fails EvaluationError.IsCycle) :
    (env.bounded traced budget).evaluate e depth = (env.within traced path).evaluate e depth := by
  have hle := Nat.le_trans (unvisited_le env path) hbudget
  have hagrees : ∀ name d, Agrees EvaluationError.IsCycle (fun _ => False)
      (env.guardedFormula traced path name d) (env.unguardedFormula traced budget name d) :=
    fun name d => agrees_unguarded (fun hlt => absurd hlt (Nat.not_lt.2 hle)) d
  cases Scope.evaluate_agrees (s := env.within traced path) hagrees e depth with
  | left h => exact absurd h hc
  | right h => exact h.elim fun _ h => h.2.elim
  | both heq _ => exact heq

theorem not_isUnbounded_within (path : List String) (e : Expr) (depth : Nat) :
    ¬ ((env.within traced path).evaluate e depth).Fails EvaluationError.IsUnbounded :=
  Scope.not_fails_evaluate (fun _ => id) (fun _ _ => id)
    (fun name d => not_isUnbounded_guarded path name d) e depth

/-- **A tree without a cycle is evaluated alike by itself**, whatever formulas it lies in. -/
theorem within_nil_eq {depth : Nat}
    (hc : ¬ ((env.within traced path).evaluate e depth).Fails EvaluationError.IsCycle) :
    (env.within traced []).evaluate e depth = (env.within traced path).evaluate e depth := by
  have hbounded := bounded_eq_within (Nat.le_refl _) hc
  have hc' : ¬ ((env.within traced []).evaluate e depth).Fails EvaluationError.IsCycle := by
    intro hcycle
    have hunbounded := bounded_unbounded hcycle env.formulas.size
    rw [hbounded] at hunbounded
    exact not_isUnbounded_within path e depth hunbounded
  rw [← hbounded, bounded_eq_within (Nat.le_refl _) hc']

/-- On a hot path, a tree with a cycle has one by itself, too. -/
theorem Hot.cycle_within_nil (hhot : Hot env traced path) {depth : Nat}
    (hc : ((env.within traced path).evaluate e depth).Fails EvaluationError.IsCycle) :
    ((env.within traced []).evaluate e depth).Fails EvaluationError.IsCycle := by
  refine Classical.byContradiction fun hnot => ?_
  have hunbounded := bounded_unbounded_of_hot hhot hc env.formulas.size
  rw [bounded_eq_within (Nat.le_refl _) hnot] at hunbounded
  exact not_isUnbounded_within [] e depth hunbounded

theorem result_within_eq (path : List String) (e : Expr) (d d' : Nat) :
    ((env.within traced path).evaluate e d).result =
      ((env.within traced path).evaluate e d').result :=
  Scope.result_evaluate_eq (env.within traced path) (env.within traced path) rfl rfl rfl
    (result_guardedFormula_eq path) e d d'

end Formulary.Environment
