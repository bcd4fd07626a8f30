import Formulary.Proofs.Evaluation.Cycles
import Formulary.Proofs.Evaluation.Ranges

/-!
# What an evaluation reads

Evaluating a tree reads the variables and ranges in it and follows its references to other trees, where
it goes on in the same way. **Nothing else in an environment matters** (`evaluate_of_not_reached`):
what cannot be reached from the tree may be bound to something else, or not at all. Nor does it matter
in which order anything was bound (`evaluate_of_sameEntries`).

References may go round in circles, so what can be reached is the least set of trees closed under
following them (`Reachable`). Environments are `Similar` if they have the same in every place that is
read from there. Two things are no such place, and yet they have an influence. The suggestions for an
unknown name come from all names of a table, so outcomes are compared up to what is to be forgotten of
an error (`Outcome.SameUpTo`). And without the guard against cycles, the nesting of references is
bounded by the number of formulas: where they go on for ever, another number of formulas cuts them off
at another place.
-/

namespace Formulary

namespace EvaluationError

/-- The error without suggestions for a formula. -/
def forgetFormulas : EvaluationError → EvaluationError
  | formulaNotFound name _ => formulaNotFound name []
  | e => e

/-- The error without any suggestions. -/
def forgetNames : EvaluationError → EvaluationError
  | functionNotFound name _ => functionNotFound name []
  | e => e.forgetFormulas

end EvaluationError

/-! ## The same but for a part of the error -/

namespace Outcome

variable {α : Type} {f : EvaluationError → EvaluationError} {o o' : Outcome α}

/-- The same lines, and the same result but for what `f` forgets of an error. -/
structure SameUpTo (f : EvaluationError → EvaluationError) (o o' : Outcome α) : Prop where
  result : o.result.mapError f = o'.result.mapError f
  lines : o.lines = o'.lines

theorem SameUpTo.refl (o : Outcome α) : o.SameUpTo f o := ⟨rfl, rfl⟩

/-- Both have this value, or errors of which the same is left. -/
theorem SameUpTo.cases (h : o.SameUpTo f o') :
    (∃ a, o.result = .ok a ∧ o'.result = .ok a) ∨
      ∃ e e', o.result = .error e ∧ o'.result = .error e' ∧ f e = f e' := by
  have hresult := h.result
  cases hr : o.result with
  | ok a =>
    cases hr' : o'.result with
    | ok a' =>
      rw [hr, hr'] at hresult
      cases hresult
      exact .inl ⟨a, rfl, rfl⟩
    | error e' =>
      rw [hr, hr'] at hresult
      cases hresult
  | error e =>
    cases hr' : o'.result with
    | ok a' =>
      rw [hr, hr'] at hresult
      cases hresult
    | error e' =>
      rw [hr, hr'] at hresult
      exact .inr ⟨e, e', rfl, rfl, Except.error.inj hresult⟩

theorem SameUpTo.eq (h : o.SameUpTo id o') : o = o' := by
  obtain ⟨result, lines⟩ := o
  obtain ⟨result', lines'⟩ := o'
  obtain rfl : lines = lines' := h.lines
  rcases h.cases with ⟨a, hr, hr'⟩ | ⟨e, e', hr, hr', he⟩
  · obtain rfl : result = _ := hr
    obtain rfl : result' = _ := hr'
    rfl
  · obtain rfl : result = _ := hr
    obtain rfl : result' = _ := hr'
    rw [show e = e' from he]

theorem SameUpTo.bind {β : Type} {g g' : α → Outcome β} (h : o.SameUpTo f o')
    (hg : ∀ a, (g a).SameUpTo f (g' a)) : (o.bind g).SameUpTo f (o'.bind g') := by
  rcases h.cases with ⟨a, hr, hr'⟩ | ⟨e, e', hr, hr', he⟩
  · rw [bind_of_ok hr, bind_of_ok hr']
    exact ⟨(hg a).result, congrArg₂ _ h.lines (hg a).lines⟩
  · rw [bind_of_error hr, bind_of_error hr']
    exact ⟨congrArg Except.error he, h.lines⟩

theorem SameUpTo.fails_iff {p : EvaluationError → Prop} (h : o.SameUpTo f o')
    (hf : ∀ e, p (f e) ↔ p e) : o.Fails p ↔ o'.Fails p := by
  unfold Fails
  rcases h.cases with ⟨a, hr, hr'⟩ | ⟨e, e', hr, hr', he⟩
  · rw [hr, hr']
  · have hp : p e ↔ p e' := by rw [← hf e, he, hf e']
    rw [hr, hr']
    simp only [Except.error.injEq, exists_eq_left', hp]

theorem congruence_sameUpTo : Congruence (SameUpTo f) where
  pure _ := .refl _
  operation _ := .refl _
  unknown _ _ := .refl _
  bind h hg := h.bind hg

/-- A line shows nothing of an error. -/
theorem SameUpTo.close {s s' : Scope} {o o' : Outcome Value} (h : o.SameUpTo f o')
    (htraced : s'.traced = s.traced) (depth : Nat) (e : Expr) :
    (s.close depth e o).SameUpTo f (s'.close depth e o') := by
  unfold Scope.close Scope.line
  rw [htraced, h.lines]
  rcases h.cases with ⟨a, hr, hr'⟩ | ⟨e, e', hr, hr', he⟩
  · rw [hr, hr']
    exact .refl _
  · rw [hr, hr']
    exact ⟨congrArg Except.error he, rfl⟩

end Outcome

namespace Environment

open Outcome

/-! ## What can be reached -/

/-- The trees that evaluating `t` may come to. -/
inductive Reachable (env : Environment) (t : Expr) : Expr → Prop
  | self : Reachable env t t
  | formula {e f : Expr} {name : String} : Reachable env t e → .reference name ∈ e.nodes →
      env.formulas.find? name = some f → Reachable env t f

/-- One of these trees has a reference of this name. -/
def Refers (env : Environment) (t : Expr) (name : String) : Prop :=
  ∃ e, env.Reachable t e ∧ .reference name ∈ e.nodes

/-- One of these trees has this variable, or a range that it lies in. -/
def Reads (env : Environment) (t : Expr) (x : String) : Prop :=
  ∃ e name, env.Reachable t e ∧ .var name ∈ e.nodes ∧ Covers name x

/-- The environments have the same in all places that evaluating `t` reads. Of the suggestions, which
depend on all names, no more is the same than `f` leaves. -/
structure Similar (f : EvaluationError → EvaluationError) (env env' : Environment) (t : Expr) :
    Prop where
  vars : ∀ x, env.Reads t x → env'.vars.find? x = env.vars.find? x
  formulas : ∀ name, env.Refers t name → env'.formulas.find? name = env.formulas.find? name
  functions : ∀ name, env'.functions.find? name = env.functions.find? name
  unknownFunction : ∀ name, f (.functionNotFound name (suggestions name env.functions.keys)) =
    f (.functionNotFound name (suggestions name env'.functions.keys))
  unknownFormula : ∀ name, f (env.unknownFormula name) = f (env'.unknownFormula name)

namespace Similar

variable {f : EvaluationError → EvaluationError} {env env' : Environment} {t e : Expr}
  {traced : Bool} {name : String}

/-- **A reachable tree has the same outcome if its references have.** -/
theorem evaluate_scope (h : Similar f env env' t) {formula formula' : String → Nat → Outcome Value}
    (hformula : ∀ name, env.Refers t name → ∀ depth,
      (formula name depth).SameUpTo f (formula' name depth)) (he : env.Reachable t e)
    (depth : Nat) :
    (Scope.evaluate ⟨env.vars, env.functions, formula, traced⟩ e depth).SameUpTo f
      (Scope.evaluate ⟨env'.vars, env'.functions, formula', traced⟩ e depth) := by
  refine Scope.evaluate_related_self (D := Eq) congruence_sameUpTo ?_ ?_ ?_ ?_ ?_ depth depth rfl
  · intro name vs
    unfold Scope.apply
    rw [h.functions name]
    cases env.functions.find? name with
    | none => exact ⟨congrArg Except.error (h.unknownFunction name), rfl⟩
    | some g => exact .refl _
  · rintro d _ rfl
    rfl
  · rintro d _ e o o' rfl ho
    exact ho.close rfl d e
  · intro name hname
    exact valueOf_congr fun x hx => h.vars x ⟨e, name, he, hname, hx⟩
  · rintro name d _ hname rfl
    exact hformula name ⟨e, he, hname⟩ d

theorem guardedFormula (h : Similar f env env' t) (path : List String) (name : String) :
    env.Refers t name → ∀ depth, (env.guardedFormula traced path name depth).SameUpTo f
      (env'.guardedFormula traced path name depth) := by
  -- the other environment has the same formula, so the induction follows it as well
  induction path, name using guarded_induction env with
  | unknown path name hf =>
    intro hname depth
    have hf' := (h.formulas name hname).trans hf
    rw [guardedFormula_unknown hf, guardedFormula_unknown hf']
    exact ⟨congrArg Except.error (h.unknownFormula name), rfl⟩
  | cycle path name e hf hn =>
    intro hname depth
    have hf' := (h.formulas name hname).trans hf
    rw [guardedFormula_cycle hf hn, guardedFormula_cycle hf' hn]
    exact .refl _
  | enter path name e hf hn ih =>
    intro hname depth
    have hf' := (h.formulas name hname).trans hf
    obtain ⟨e', he', hmem⟩ := hname
    rw [guardedFormula_enter hf hn, guardedFormula_enter hf' hn]
    exact h.evaluate_scope ih (.formula he' hmem hf) depth

theorem unguardedFormula (h : Similar f env env' t) (budget : Nat) (name : String) :
    env.Refers t name → ∀ depth, (env.unguardedFormula traced budget name depth).SameUpTo f
      (env'.unguardedFormula traced budget name depth) := by
  induction budget, name using unguarded_induction env with
  | unknown budget name hf =>
    intro hname depth
    have hf' := (h.formulas name hname).trans hf
    rw [unguardedFormula_unknown hf, unguardedFormula_unknown hf']
    exact ⟨congrArg Except.error (h.unknownFormula name), rfl⟩
  | spent name e hf =>
    intro hname depth
    have hf' := (h.formulas name hname).trans hf
    rw [unguardedFormula_zero hf, unguardedFormula_zero hf']
    exact .refl _
  | enter budget name e hf ih =>
    intro hname depth
    have hf' := (h.formulas name hname).trans hf
    obtain ⟨e', he', hmem⟩ := hname
    rw [unguardedFormula_enter hf, unguardedFormula_enter hf']
    exact h.evaluate_scope ih (.formula he' hmem hf) depth

theorem within (h : Similar f env env' t) (path : List String) (depth : Nat) :
    ((env.within traced path).evaluate t depth).SameUpTo f
      ((env'.within traced path).evaluate t depth) :=
  h.evaluate_scope (h.guardedFormula path) .self depth

theorem bounded (h : Similar f env env' t) (budget depth : Nat) :
    ((env.bounded traced budget).evaluate t depth).SameUpTo f
      ((env'.bounded traced budget).evaluate t depth) :=
  h.evaluate_scope (h.unguardedFormula budget) .self depth

/-- **Similar environments give the same outcome**, if the nesting of references is bounded alike. -/
theorem evaluate (h : Similar f env env' t) (hsize : env'.formulas.size = env.formulas.size)
    (mode : Mode) : (env.evaluate mode t).SameUpTo f (env'.evaluate mode t) := by
  obtain ⟨_ | _, traced⟩ := mode
  · show ((env.bounded traced env.formulas.size).evaluate t 0).SameUpTo f
      ((env'.bounded traced env'.formulas.size).evaluate t 0)
    rw [hsize]
    exact h.bounded env.formulas.size 0
  · exact h.within [] 0

/-- Without the guard and with another bound on the nesting, the outcome is the same unless references
go on for ever. -/
theorem evaluate_unguarded (h : Similar f env env' t)
    (hf : ∀ e, (f e).IsCycle ↔ e.IsCycle) (traced : Bool) :
    (env.evaluate ⟨false, traced⟩ t).SameUpTo f (env'.evaluate ⟨false, traced⟩ t) ∨
      (env.evaluate ⟨false, traced⟩ t).result = .error .unbounded ∧
        (env'.evaluate ⟨false, traced⟩ t).result = .error .unbounded := by
  have hwithin : ((env.within traced []).evaluate t 0).SameUpTo f
      ((env'.within traced []).evaluate t 0) := h.within [] 0
  by_cases hc : ((env.within traced []).evaluate t 0).Fails EvaluationError.IsCycle
  · have hc' := (hwithin.fails_iff hf).1 hc
    exact .inr ⟨fails_isUnbounded_iff.1 (bounded_unbounded hc _),
      fails_isUnbounded_iff.1 (bounded_unbounded hc' _)⟩
  · have hc' := mt (hwithin.fails_iff hf).2 hc
    have heq : env.evaluate ⟨false, traced⟩ t = (env.within traced []).evaluate t 0 :=
      bounded_eq_within (Nat.le_refl _) hc
    have heq' : env'.evaluate ⟨false, traced⟩ t = (env'.within traced []).evaluate t 0 :=
      bounded_eq_within (Nat.le_refl _) hc'
    rw [heq, heq']
    exact .inl hwithin

end Similar

/-! ## What cannot be reached -/

/-- In the second environment, the tree has the same outcome but for the suggestions for a formula. If
references go on for ever and nobody watches for cycles, they do so in both environments, and whatever
the budget for nesting them is, it leads equally far. -/
structure Unaffected (env env' : Environment) (t : Expr) : Prop where
  guarded : ∀ traced, (env.evaluate ⟨true, traced⟩ t).SameUpTo EvaluationError.forgetFormulas
    (env'.evaluate ⟨true, traced⟩ t)
  unguarded : ∀ traced,
    (env.evaluate ⟨false, traced⟩ t).SameUpTo EvaluationError.forgetFormulas
        (env'.evaluate ⟨false, traced⟩ t) ∨
      (env.evaluate ⟨false, traced⟩ t).result = .error .unbounded ∧
        (env'.evaluate ⟨false, traced⟩ t).result = .error .unbounded
  bounded : ∀ traced budget,
    ((env.bounded traced budget).evaluate t 0).SameUpTo EvaluationError.forgetFormulas
      ((env'.bounded traced budget).evaluate t 0)

section

variable {env env' : Environment} {t : Expr} {x : String}

theorem evaluate_of_vars {vars : Table Value} (hx : ¬ env.Reads t x)
    (h : ∀ y, x ≠ y → vars.find? y = env.vars.find? y) (mode : Mode) :
    evaluate { env with vars } mode t = env.evaluate mode t := by
  have hsimilar : Similar id env { env with vars } t := by
    refine ⟨fun y hy => h y ?_, fun _ _ => rfl, fun _ => rfl, fun _ => rfl, fun _ => rfl⟩
    rintro rfl
    exact hx hy
  exact (hsimilar.evaluate rfl mode).eq.symm

theorem unaffected_of_formulas {formulas : Table Expr} (hx : ¬ env.Refers t x)
    (h : ∀ name, x ≠ name → formulas.find? name = env.formulas.find? name) :
    env.Unaffected { env with formulas } t := by
  have hsimilar : Similar EvaluationError.forgetFormulas env { env with formulas } t := by
    refine ⟨fun _ _ => rfl, fun name hname => h name ?_, fun _ => rfl, fun _ => rfl, fun _ => rfl⟩
    rintro rfl
    exact hx hname
  have hcycle (e : EvaluationError) : e.forgetFormulas.IsCycle ↔ e.IsCycle := by
    cases e <;> exact Iff.rfl
  exact ⟨fun _ => hsimilar.within [] 0, hsimilar.evaluate_unguarded hcycle,
    fun _ budget => hsimilar.bounded budget 0⟩

/-- **Evaluation reads only what the tree can reach.** A variable that is read nowhere may be set,
changed or removed, and so may a formula that nothing refers to. -/
theorem evaluate_of_not_reached (env : Environment) (t : Expr) (x : String) :
    (¬ env.Reads t x → ∀ mode : Mode,
      (∀ v, evaluate { env with vars := env.vars.insert x v } mode t = env.evaluate mode t) ∧
        evaluate { env with vars := env.vars.erase x } mode t = env.evaluate mode t) ∧
    (¬ env.Refers t x →
      (∀ f, env.Unaffected { env with formulas := env.formulas.insert x f } t) ∧
        env.Unaffected { env with formulas := env.formulas.erase x } t) := by
  have hinsert {α : Type} (table : Table α) (a : α) (y : String) (hy : x ≠ y) :
      (table.insert x a).find? y = table.find? y := by
    rw [Table.find?_insert, if_neg hy]
  have herase {α : Type} (table : Table α) (y : String) (hy : x ≠ y) :
      (table.erase x).find? y = table.find? y := by
    rw [Table.find?_erase, if_neg hy]
  refine ⟨fun hx mode => ⟨fun v => ?_, ?_⟩, fun hx => ⟨fun f => ?_, ?_⟩⟩
  · exact evaluate_of_vars hx (hinsert env.vars v) mode
  · exact evaluate_of_vars hx (herase env.vars) mode
  · exact unaffected_of_formulas hx (hinsert env.formulas f)
  · exact unaffected_of_formulas hx (herase env.formulas)

/-- Two formulas refer to each other, and one of them has a range that ends before `r5`. -/
theorem evaluate_of_not_reached_cycle :
    let e : Expr := .arith (.var "r1:r4") .add (.reference "g")
    let e' : Expr := .minus (.reference "f")
    let env : Environment :=
      ⟨.ofList [("r1", .text "a"), ("r4", .empty)], .empty, .ofList [("f", e), ("g", e')]⟩
    let t : Expr := .bracket (.reference "f")
    ¬ env.Reads t "r5" ∧ ¬ env.Refers t "r5" ∧
      (∀ mode v, evaluate { env with vars := env.vars.insert "r5" v } mode t =
        env.evaluate mode t) ∧
      env.Unaffected { env with formulas := env.formulas.insert "r5" t } t := by
  intro e e' env t
  have hfind : env.formulas.find? "f" = some e := by rfl
  have hfind' : env.formulas.find? "g" = some e' := by rfl
  have hreach : ∀ e₀, env.Reachable t e₀ → e₀ = t ∨ e₀ = e ∨ e₀ = e' := by
    intro e₀ h
    induction h with
    | self => exact .inl rfl
    | formula _ hname hf ih =>
      rcases ih with rfl | rfl | rfl
      · obtain rfl : _ = "f" := by simpa [t, Expr.nodes] using hname
        exact .inr (.inl (Option.some.inj (hf.symm.trans hfind)))
      · obtain rfl : _ = "g" := by simpa [e, Expr.nodes] using hname
        exact .inr (.inr (Option.some.inj (hf.symm.trans hfind')))
      · obtain rfl : _ = "f" := by simpa [e', Expr.nodes] using hname
        exact .inr (.inl (Option.some.inj (hf.symm.trans hfind)))
  have hreads : ¬ env.Reads t "r5" := by
    rintro ⟨e₀, name, he₀, hname, hcovers⟩
    have hrange : name = "r1:r4" := by
      rcases hreach e₀ he₀ with rfl | rfl | rfl
      · simp [t, Expr.nodes] at hname
      · simpa [e, Expr.nodes] using hname
      · simp [e', Expr.nodes] at hname
    have hends : rangeEnds? "r1:r4" = some ("r1", "r4") := by rfl
    rw [hrange, Covers, hends] at hcovers
    exact absurd hcovers.2 (by decide)
  have hrefers : ¬ env.Refers t "r5" := by
    rintro ⟨e₀, he₀, hname⟩
    rcases hreach e₀ he₀ with rfl | rfl | rfl
    · simp [t, Expr.nodes] at hname
    · simp [e, Expr.nodes] at hname
    · simp [e', Expr.nodes] at hname
  obtain ⟨hvars, hformulas⟩ := evaluate_of_not_reached env t "r5"
  exact ⟨hreads, hrefers, fun mode v => (hvars hreads mode).1 v, (hformulas hrefers).1 t⟩

/-! ## The order of tables -/

/-- **The order in which anything was bound does not matter** for results and traces, but for the order
and choice of suggestions. -/
theorem evaluate_of_sameEntries (hvars : env.vars.SameEntries env'.vars)
    (hfunctions : env.functions.SameEntries env'.functions)
    (hformulas : env.formulas.SameEntries env'.formulas) (mode : Mode) (t : Expr) :
    (env.evaluate mode t).SameUpTo EvaluationError.forgetNames (env'.evaluate mode t) := by
  have hsimilar : Similar EvaluationError.forgetNames env env' t :=
    ⟨fun x _ => hvars.find?_eq x, fun name _ => hformulas.find?_eq name, hfunctions.find?_eq,
      fun _ => rfl, fun _ => rfl⟩
  exact hsimilar.evaluate hformulas.size_eq mode

/-- A range and an unknown name, which has its suggestions in another order. -/
theorem evaluate_of_sameEntries_swapped :
    let env : Environment := ⟨.ofList [("a", .empty), ("b", .text "")],
      .ofList [("und", Function.conjunction), ("sum", Function.sum)],
      .ofList [("rate1", .text ""), ("rate2", .var "a")]⟩
    let env' : Environment := ⟨.ofList [("b", .text ""), ("a", .empty)],
      .ofList [("sum", Function.sum), ("und", Function.conjunction)],
      .ofList [("rate2", .var "a"), ("rate1", .text "")]⟩
    let t : Expr := .call "und" [.var "a:b", .reference "rate"]
    env.vars.SameEntries env'.vars ∧ env.functions.SameEntries env'.functions ∧
      env.formulas.SameEntries env'.formulas ∧
      (env.evaluate {} t).SameUpTo EvaluationError.forgetNames (env'.evaluate {} t) := by
  intro env env' t
  have hvars : env.vars.SameEntries env'.vars := List.Perm.swap _ _ _
  have hfunctions : env.functions.SameEntries env'.functions := List.Perm.swap _ _ _
  have hformulas : env.formulas.SameEntries env'.formulas := List.Perm.swap _ _ _
  exact ⟨hvars, hfunctions, hformulas, evaluate_of_sameEntries hvars hfunctions hformulas {} t⟩

end

end Environment

end Formulary
