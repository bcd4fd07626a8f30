import Formulary.Proofs.Evaluation.Ranges
import Formulary.Proofs.Evaluation.Recursion
import Formulary.Proofs.Evaluation.Unfolding

/-!
# What a trace records

The nodes of an evaluation form a tree of their own: that of the formula, with the tree of another
formula below each reference to it (`Environment.operands`). **A trace is this tree in preorder**,
with one line for each node that was begun, at the depth of the node.

* If there is a value, all nodes were begun, and each one shows the value that it has when it is
  evaluated by itself (`Finished`).
* If not, the evaluation stopped at a node that has no value though its operands have theirs, or at
  a reference that closes a cycle (`Unfinished`). This node and those above it show nothing. The
  trees that lie to the left of them were finished, and those to the right were not begun.

A trace has to show every value on the way, and an integer with too many digits cannot be shown.
**A node with such a value ends the evaluation, and its line stays blank**, where without a trace it
would have gone on. This is the only way in which a trace changes a result (`Hides`).

A value of a node does not depend on where the node lies, since nodes that have one are not on the
way to a cycle (`within_nil_eq`). So only one node has to be looked at (`records_node`): it puts
its line in front of those of its operands, and adds no other. All trees follow by induction on
the tree of their evaluation (`within_induction`).

Main result: `evaluate_traced`.
-/

namespace Formulary

/-! ## Blank lines -/

theorem TraceLine.text_eq_empty_iff {line : TraceLine} : line.text = "" ↔ line.shown.TooLong := by
  rw [← Value.display?_eq_none_iff, text, text?]
  cases line.shown.display? with
  | none => exact iff_of_true rfl rfl
  | some shown =>
    refine iff_of_false (fun h => ?_) (Option.some_ne_none _)
    have hlist := congrArg String.toList h
    simp at hlist

namespace Outcome

variable {α β : Type}

/-- The result is the same, or there is none, and a line was left blank. -/
def Hides (o o' : Outcome α) : Prop :=
  o.result = o'.result ∨
    o.result = .error (.operation .tooManyDigits) ∧ ∃ line ∈ o.lines, line.text = ""

theorem Hides.of_ok {o o' : Outcome α} (h : o.Hides o') {a : α} (ha : o.result = .ok a) :
    o'.result = .ok a := by
  rcases h with h | ⟨h, -⟩
  · exact h.symm.trans ha
  · cases h.symm.trans ha

theorem congruence_hides : Congruence Hides where
  pure _ := .inl rfl
  operation _ := .inl rfl
  unknown _ _ := .inl rfl
  bind {α β o o' f f'} h hf := by
    rcases h with h | ⟨h, line, hline, hblank⟩
    · cases hr : o.result with
      | error cause =>
        rw [bind_of_error hr, bind_of_error (h.symm.trans hr)]
        exact .inl rfl
      | ok a =>
        rw [bind_of_ok hr, bind_of_ok (h.symm.trans hr)]
        rcases hf a with h | ⟨h, line, hline, hblank⟩
        · exact .inl h
        · exact .inr ⟨h, line, List.mem_append_right _ hline, hblank⟩
    · rw [bind_of_error h]
      exact .inr ⟨rfl, line, hline, hblank⟩

/-- A node that is not shown has a blank line. -/
theorem Hides.close {s s' : Scope} (htraced : s.traced = true) (htraced' : s'.traced = false)
    {o o' : Outcome Value} (h : o.Hides o') (d d' : Nat) (e : Expr) :
    (s.close d e o).Hides (s'.close d' e o') := by
  have hline : ⟨d, e, shownValue o.result⟩ ∈ (s.close d e o).lines := by
    unfold Scope.close Scope.line
    rw [htraced]
    exact List.mem_cons_self
  have hresult' : (s'.close d' e o').result = o'.result := by
    unfold Scope.close
    rw [htraced', displayed_false]
  rcases h with h | ⟨h, line, hmem, hblank⟩
  · cases hr : o.result with
    | error cause =>
      refine .inl ?_
      rw [hresult', ← h]
      show displayed s.traced o.result = o.result
      rw [hr]
      rfl
    | ok v =>
      by_cases hv : v.display? = none
      · refine .inr ⟨?_, _, hline, ?_⟩
        · show displayed s.traced o.result = _
          rw [hr, htraced, displayed_of_hidden hv]
        · rw [TraceLine.text_eq_empty_iff, hr]
          exact Value.display?_eq_none_iff.1 hv
      · refine .inl ?_
        rw [hresult', ← h]
        show displayed s.traced o.result = o.result
        rw [hr, displayed_of_shown hv]
  · refine .inr ⟨?_, line, List.mem_append_right _ hmem, hblank⟩
    show displayed s.traced o.result = _
    rw [h]
    rfl

end Outcome

namespace Environment

/-! ## With a trace and without -/

section

open Outcome

variable {env : Environment}

theorem evaluate_hides (s s' : Scope) (hvars : s'.vars = s.vars)
    (hfunctions : s'.functions = s.functions) (htraced : s.traced = true)
    (htraced' : s'.traced = false)
    (h : ∀ name d d', (s.formula name d).Hides (s'.formula name d')) (e : Expr) (d d' : Nat) :
    (s.evaluate e d).Hides (s'.evaluate e d') :=
  Scope.evaluate_related_self (D := fun _ _ => True) congruence_hides
    (Scope.apply_related congruence_hides hfunctions) (fun _ _ _ => trivial)
    (fun d d' e _ _ _ ho => ho.close htraced htraced' d d' e) (fun _ _ => by rw [hvars])
    (fun name d d' _ _ => h name d d') d d' trivial

theorem guardedFormula_hides (path : List String) (name : String) :
    ∀ d d', (env.guardedFormula true path name d).Hides
      (env.guardedFormula false path name d') := by
  induction path, name using guarded_induction env with
  | unknown path name h =>
    intro d d'
    rw [guardedFormula_unknown h, guardedFormula_unknown h]
    exact .inl rfl
  | cycle path name f h hn =>
    intro d d'
    rw [guardedFormula_cycle h hn, guardedFormula_cycle h hn]
    exact .inl rfl
  | enter path name f h hn ih =>
    intro d d'
    rw [guardedFormula_enter h hn, guardedFormula_enter h hn]
    exact evaluate_hides (env.within true _) (env.within false _) rfl rfl rfl rfl ih f d d'

theorem unguardedFormula_hides (budget : Nat) (name : String) :
    ∀ d d', (env.unguardedFormula true budget name d).Hides
      (env.unguardedFormula false budget name d') := by
  induction budget, name using unguarded_induction env with
  | unknown budget name h =>
    intro d d'
    rw [unguardedFormula_unknown h, unguardedFormula_unknown h]
    exact .inl rfl
  | spent name f h =>
    intro d d'
    rw [unguardedFormula_zero h, unguardedFormula_zero h]
    exact .inl rfl
  | enter budget name f h ih =>
    intro d d'
    rw [unguardedFormula_enter h, unguardedFormula_enter h]
    exact evaluate_hides (env.bounded true budget) (env.bounded false budget) rfl rfl rfl rfl ih
      f d d'

theorem within_hides (path : List String) (e : Expr) (d d' : Nat) :
    ((env.within true path).evaluate e d).Hides ((env.within false path).evaluate e d') :=
  evaluate_hides (env.within true path) (env.within false path) rfl rfl rfl rfl
    (guardedFormula_hides path) e d d'

theorem evaluateList_hides (path : List String) (es : List Expr) (d : Nat) :
    ((env.within true path).evaluateList es d).Hides
      ((env.within false path).evaluateList es d) := by
  induction es with
  | nil => exact .inl rfl
  | cons e es ih =>
    exact congruence_hides.bind (within_hides path e d d) fun v =>
      congruence_hides.bind ih fun vs => .inl rfl

/-- **A trace changes a result only where it has a blank line.** -/
theorem evaluate_traced_hides (env : Environment) (guarded : Bool) (e : Expr) :
    (env.evaluate ⟨guarded, true⟩ e).Hides (env.evaluate ⟨guarded, false⟩ e) := by
  cases guarded with
  | true => exact within_hides [] e 0 0
  | false =>
    exact evaluate_hides (env.bounded true _) (env.bounded false _) rfl rfl rfl rfl
      (unguardedFormula_hides _) e 0 0

end

/-! ## Traces -/

section

variable (env : Environment) (guarded : Bool)

/-- The lines of trees that lie side by side, at a depth, and have values. -/
inductive Finished : List Expr → (depth : Nat) → List TraceLine → Prop
  | nil {depth : Nat} : Finished [] depth []
  | cons {e : Expr} {es : List Expr} {v : Value} {depth : Nat} {below behind : List TraceLine} :
    (env.evaluate ⟨guarded, false⟩ e).result = .ok v → ¬ v.TooLong →
    Finished (env.operands e) (depth + 1) below → Finished es depth behind →
    Finished (e :: es) depth (⟨depth, e, v⟩ :: below ++ behind)

/-- The lines of trees that lie side by side, at a depth and within the formulas of a path, one of
which failed. -/
inductive Unfinished (cause : EvaluationError) :
    (path : List String) → List Expr → (depth : Nat) → List TraceLine → Prop
  /-- The first tree has a value, and one behind it failed. -/
  | later {path : List String} {e : Expr} {es : List Expr} {v : Value} {depth : Nat}
    {below behind : List TraceLine} :
    (env.evaluate ⟨guarded, false⟩ e).result = .ok v → ¬ v.TooLong →
    Finished env guarded (env.operands e) (depth + 1) below →
    Unfinished cause path es depth behind →
    Unfinished cause path (e :: es) depth (⟨depth, e, v⟩ :: below ++ behind)
  /-- One of the operands of the first tree failed. -/
  | inside {path : List String} {e : Expr} {es : List Expr} {depth : Nat}
    {below : List TraceLine} :
    Unfinished cause (pathBelow path e) (env.operands e) (depth + 1) below →
    Unfinished cause path (e :: es) depth (⟨depth, e, .empty⟩ :: below)
  /-- The operands of the first tree have values, and it has none. -/
  | here {path : List String} {e : Expr} {es : List Expr} {depth : Nat} {below : List TraceLine} :
    (env.evaluate ⟨guarded, false⟩ e).result = .error cause →
    Finished env guarded (env.operands e) (depth + 1) below →
    Unfinished cause path (e :: es) depth (⟨depth, e, .empty⟩ :: below)
  /-- The operands of the first tree have values, and it has one that cannot be shown. -/
  | hidden {path : List String} {e : Expr} {es : List Expr} {v : Value} {depth : Nat}
    {below : List TraceLine} :
    (env.evaluate ⟨guarded, false⟩ e).result = .ok v → v.TooLong →
    cause = .operation .tooManyDigits →
    Finished env guarded (env.operands e) (depth + 1) below →
    Unfinished cause path (e :: es) depth (⟨depth, e, v⟩ :: below)
  /-- The first tree closes a cycle. -/
  | cycle {path : List String} {name : String} {es : List Expr} {depth : Nat} :
    name ∈ path → cause = .cycle (path ++ [name]) →
    Unfinished cause path (.reference name :: es) depth [⟨depth, .reference name, .empty⟩]

/-- The lines of an outcome are those of these trees. -/
def Records {α : Type} (path : List String) (es : List Expr) (depth : Nat) (o : Outcome α) : Prop :=
  match o.result with
  | .ok _ => env.Finished guarded es depth o.lines
  | .error cause => env.Unfinished guarded cause path es depth o.lines

end

/-! ## One node -/

section

open Outcome

variable {env : Environment} {guarded : Bool} {path : List String} {e : Expr} {depth : Nat}

/-- A tree that is not on the way to a cycle has the same result when it is evaluated by itself. -/
theorem result_evaluate_alone (guarded : Bool)
    (hc : ¬ ((env.within false path).evaluate e depth).Fails EvaluationError.IsCycle) :
    (env.evaluate ⟨guarded, false⟩ e).result =
      ((env.within false path).evaluate e depth).result := by
  have halone : ((env.within false []).evaluate e 0).result =
      ((env.within false path).evaluate e depth).result := by
    rw [result_within_eq [] e 0 depth, within_nil_eq hc]
  cases guarded with
  | true => exact halone
  | false =>
    have hc' : ¬ ((env.within false []).evaluate e 0).Fails EvaluationError.IsCycle := by
      unfold Fails at hc ⊢
      rwa [halone]
    show ((env.bounded false env.formulas.size).evaluate e 0).result = _
    rw [bounded_eq_within (Nat.le_refl _) hc', halone]

/-- By itself, a node has the value that it makes of those of the trees below it. -/
theorem result_evaluate_combine (hopen : env.Opens path e) {vs : List Value}
    (hbelow : ((env.within true (pathBelow path e)).evaluateList (env.operands e)
      (depth + 1)).result = .ok vs) :
    (env.evaluate ⟨guarded, false⟩ e).result = env.combine e vs := by
  have hplain := (evaluateList_hides _ _ _).of_ok hbelow
  have hresult : ((env.within false path).evaluate e depth).result = env.combine e vs := by
    rw [Scope.evaluate_eq_close, inner_eq_combine hopen, bind_of_ok hplain]
    exact displayed_false _
  rw [← hresult]
  refine result_evaluate_alone guarded fun hc => ?_
  obtain ⟨path', hpath⟩ := fails_isCycle_iff.1 hc
  exact combine_ne_cycle e vs path' (hresult.symm.trans hpath)

theorem evaluate_within (path : List String) (e : Expr) (depth : Nat) :
    (env.within true path).evaluate e depth =
      ⟨displayed true ((env.within true path).inner e depth).result,
        ⟨depth, e, shownValue ((env.within true path).inner e depth).result⟩ ::
          ((env.within true path).inner e depth).lines⟩ := by
  rw [Scope.evaluate_eq_close]
  rfl

/-- **What is recorded of the trees below a node is recorded of the node**, in a line in front of
theirs. -/
theorem records_node (hopen : env.Opens path e)
    (h : env.Records guarded (pathBelow path e) (env.operands e) (depth + 1)
      ((env.within true (pathBelow path e)).evaluateList (env.operands e) (depth + 1))) :
    env.Records guarded path [e] depth ((env.within true path).evaluate e depth) := by
  have halone (vs : List Value) (hbelow : ((env.within true (pathBelow path e)).evaluateList
      (env.operands e) (depth + 1)).result = .ok vs) :
      (env.evaluate ⟨guarded, false⟩ e).result = env.combine e vs :=
    result_evaluate_combine hopen hbelow
  rw [evaluate_within, inner_eq_combine hopen]
  generalize (env.within true (pathBelow path e)).evaluateList (env.operands e) (depth + 1) = below
    at h halone
  cases hbelow : below.result with
  | error cause =>
    unfold Records at h
    rw [hbelow] at h
    rw [bind_of_error hbelow]
    exact .inside h
  | ok vs =>
    have halone := halone vs hbelow
    unfold Records at h
    rw [hbelow] at h
    rw [bind_of_ok hbelow, List.append_nil]
    cases hv : env.combine e vs with
    | error cause => exact .here (halone.trans hv) h
    | ok v =>
      by_cases hshown : v.display? = none
      · have hlong := Value.display?_eq_none_iff.1 hshown
        rw [displayed_of_hidden hshown]
        exact .hidden (halone.trans hv) hlong rfl h
      · have hlong : ¬ v.TooLong := fun hlong => hshown (Value.display?_eq_none_iff.2 hlong)
        have hnil : env.Finished guarded [] depth [] := .nil
        have hfinished := Finished.cons (halone.trans hv) hlong h hnil
        rw [List.append_nil] at hfinished
        rw [displayed_of_shown hshown]
        exact hfinished

end

/-! ## Trees -/

section

variable {env : Environment} {guarded : Bool} {path : List String} {e : Expr} {es : List Expr}
  {depth : Nat} {lines behind : List TraceLine} {cause : EvaluationError}

theorem Finished.append (h : env.Finished guarded [e] depth lines)
    (hbehind : env.Finished guarded es depth behind) :
    env.Finished guarded (e :: es) depth (lines ++ behind) := by
  cases h with
  | cons hv hshown hbelow hnil =>
    cases hnil
    rw [List.append_nil]
    exact .cons hv hshown hbelow hbehind

theorem Unfinished.append (h : env.Finished guarded [e] depth lines)
    (hbehind : env.Unfinished guarded cause path es depth behind) :
    env.Unfinished guarded cause path (e :: es) depth (lines ++ behind) := by
  cases h with
  | cons hv hshown hbelow hnil =>
    cases hnil
    rw [List.append_nil]
    exact .later hv hshown hbelow hbehind

/-- Trees behind the one that failed do not matter. -/
theorem Unfinished.extend (h : env.Unfinished guarded cause path [e] depth lines) (es : List Expr) :
    env.Unfinished guarded cause path (e :: es) depth lines := by
  cases h with
  | later _ _ _ h => cases h
  | inside h => exact .inside h
  | here hv hbelow => exact .here hv hbelow
  | hidden hv hlong hcause hbelow => exact .hidden hv hlong hcause hbelow
  | cycle hn hcause => exact .cycle hn hcause

theorem records_list
    (h : ∀ e ∈ es, env.Records guarded path [e] depth ((env.within true path).evaluate e depth)) :
    env.Records guarded path es depth ((env.within true path).evaluateList es depth) := by
  induction es with
  | nil => exact .nil
  | cons e es ih =>
    have hhead := h e List.mem_cons_self
    have htail := ih fun e he => h e (List.mem_cons_of_mem _ he)
    show env.Records guarded path (e :: es) depth
      (((env.within true path).evaluate e depth).bind fun v =>
        ((env.within true path).evaluateList es depth).bind fun vs => .pure (v :: vs))
    generalize (env.within true path).evaluate e depth = first at hhead
    generalize (env.within true path).evaluateList es depth = others at htail
    unfold Records at hhead htail
    cases hfirst : first.result with
    | error cause =>
      rw [hfirst] at hhead
      rw [Outcome.bind_of_error hfirst]
      exact hhead.extend es
    | ok v =>
      rw [hfirst] at hhead
      rw [Outcome.bind_of_ok hfirst]
      cases hothers : others.result with
      | error cause =>
        rw [hothers] at htail
        rw [Outcome.bind_of_error hothers]
        exact .append hhead htail
      | ok vs =>
        rw [hothers] at htail
        rw [Outcome.bind_of_ok hothers]
        refine Finished.append hhead ?_
        show env.Finished guarded es depth (others.lines ++ [])
        rw [List.append_nil]
        exact htail

variable (env guarded)

/-- A trace records a tree, whatever formulas it lies in. -/
theorem records_within (path : List String) (e : Expr) :
    ∀ depth, env.Records guarded path [e] depth ((env.within true path).evaluate e depth) := by
  induction path, e using within_induction env with
  | closes path name f hf hn =>
    intro depth
    have hinner : (env.within true path).inner (.reference name) depth =
        .fail (.cycle (path ++ [name])) := guardedFormula_cycle hf hn (depth + 1)
    rw [evaluate_within, hinner]
    exact .cycle hn rfl
  | opens path e hopen ih =>
    intro depth
    exact records_node hopen (records_list fun e' he' => ih e' he' (depth + 1))

end

/-! ## Blank lines of traces -/

section

variable {env : Environment} {guarded : Bool} {path : List String} {es : List Expr} {depth : Nat}
  {lines : List TraceLine} {cause : EvaluationError}

theorem text_ne_empty_of_not_tooLong {e : Expr} {v : Value} (h : ¬ v.TooLong) :
    TraceLine.text ⟨depth, e, v⟩ ≠ "" :=
  fun hblank => h (TraceLine.text_eq_empty_iff.1 hblank)

theorem not_tooLong_empty : ¬ Value.TooLong .empty :=
  fun h => Option.some_ne_none _ (Value.display?_eq_none_iff.2 h)

theorem Finished.text_ne_empty (h : env.Finished guarded es depth lines) :
    ∀ line ∈ lines, line.text ≠ "" := by
  induction h with
  | nil => exact List.forall_mem_nil _
  | cons _ hshown _ _ ihbelow ihbehind =>
    exact List.forall_mem_cons.2 ⟨text_ne_empty_of_not_tooLong hshown,
      List.forall_mem_append.2 ⟨ihbelow, ihbehind⟩⟩

/-- One line is blank, that of a value which cannot be shown. -/
def OneBlank (lines : List TraceLine) : Prop :=
  ∃ before line behind, lines = before ++ line :: behind ∧ line.shown.TooLong ∧ line.text = "" ∧
    ∀ other ∈ before ++ behind, other.text ≠ ""

theorem OneBlank.append (h : OneBlank lines) {above : List TraceLine}
    (habove : ∀ line ∈ above, line.text ≠ "") : OneBlank (above ++ lines) := by
  obtain ⟨before, line, behind, rfl, hlong, hblank, hothers⟩ := h
  refine ⟨above ++ before, line, behind, (List.append_assoc ..).symm, hlong, hblank, ?_⟩
  rw [List.append_assoc]
  exact List.forall_mem_append.2 ⟨habove, hothers⟩

/-- A trace that ends with a failure has a blank line at most where a value could not be shown. -/
theorem Unfinished.blank (h : env.Unfinished guarded cause path es depth lines) :
    (∀ line ∈ lines, line.text ≠ "") ∨
      cause = .operation .tooManyDigits ∧ OneBlank lines := by
  induction h with
  | @later _ e _ v depth below _ _ hshown hbelow _ ih =>
    have habove : ∀ line ∈ ⟨depth, e, v⟩ :: below, line.text ≠ "" :=
      List.forall_mem_cons.2 ⟨text_ne_empty_of_not_tooLong hshown, hbelow.text_ne_empty⟩
    rcases ih with ih | ⟨hcause, ih⟩
    · exact .inl (List.forall_mem_append.2 ⟨habove, ih⟩)
    · exact .inr ⟨hcause, ih.append habove⟩
  | @inside _ e _ depth _ _ ih =>
    have hnode : TraceLine.text ⟨depth, e, .empty⟩ ≠ "" :=
      text_ne_empty_of_not_tooLong not_tooLong_empty
    rcases ih with ih | ⟨hcause, ih⟩
    · exact .inl (List.forall_mem_cons.2 ⟨hnode, ih⟩)
    · exact .inr ⟨hcause, ih.append (List.forall_mem_singleton.2 hnode)⟩
  | here _ hbelow =>
    exact .inl (List.forall_mem_cons.2
      ⟨text_ne_empty_of_not_tooLong not_tooLong_empty, hbelow.text_ne_empty⟩)
  | hidden _ hlong hcause hbelow =>
    exact .inr ⟨hcause, [], _, _, rfl, hlong, TraceLine.text_eq_empty_iff.2 hlong,
      hbelow.text_ne_empty⟩
  | cycle _ _ =>
    exact .inl (List.forall_mem_singleton.2 (text_ne_empty_of_not_tooLong not_tooLong_empty))

end

end Environment

/-! ## Traces of whole evaluations -/

namespace Recursion

open Environment State

variable {env : Environment} {guarded : Bool} {e : Expr}

/-- The scope in which a tree is evaluated that is no formula of the table itself. -/
theorem evaluate_eq_scopeFrom (env : Environment) (guarded traced : Bool) (e : Expr) :
    env.evaluate ⟨guarded, traced⟩ e =
      (scopeFrom env (if guarded then some [] else none) traced).evaluate e 0 := by
  cases guarded <;> rfl

/-- The lines of an evaluation are those of its tree. -/
theorem records_outcome
    (h : ¬ (env.evaluate ⟨guarded, true⟩ e).Fails EvaluationError.IsUnbounded) :
    env.Records guarded [] [e] 0 (env.evaluate ⟨guarded, true⟩ e) := by
  cases guarded with
  | true => exact records_within env true [] e 0
  | false =>
    have hc : ¬ ((env.within true []).evaluate e 0).Fails EvaluationError.IsCycle :=
      fun hc => h (bounded_unbounded hc env.formulas.size)
    have heq : env.evaluate ⟨false, true⟩ e = (env.within true []).evaluate e 0 :=
      bounded_eq_within (Nat.le_refl _) hc
    rw [heq]
    exact records_within env false [] e 0

/-- Either no line is blank and the result is that without a trace, or one line is and there is no
result. -/
theorem result_or_oneBlank
    (h : ¬ (env.evaluate ⟨guarded, true⟩ e).Fails EvaluationError.IsUnbounded) :
    (∀ line ∈ (env.evaluate ⟨guarded, true⟩ e).lines, line.text ≠ "") ∧
        (env.evaluate ⟨guarded, true⟩ e).result = (env.evaluate ⟨guarded, false⟩ e).result ∨
      (env.evaluate ⟨guarded, true⟩ e).result = .error (.operation .tooManyDigits) ∧
        OneBlank (env.evaluate ⟨guarded, true⟩ e).lines := by
  have hhides := evaluate_traced_hides env guarded e
  have hrecords := records_outcome h
  generalize env.evaluate ⟨guarded, true⟩ e = outcome at hhides hrecords
  have hblank : (∀ line ∈ outcome.lines, line.text ≠ "") ∨
      outcome.result = .error (.operation .tooManyDigits) ∧ OneBlank outcome.lines := by
    unfold Records at hrecords
    cases hr : outcome.result with
    | ok v =>
      rw [hr] at hrecords
      exact .inl hrecords.text_ne_empty
    | error cause =>
      rw [hr] at hrecords
      exact hrecords.blank.imp_right fun ⟨hcause, hone⟩ => ⟨congrArg Except.error hcause, hone⟩
  rcases hblank with hblank | hone
  · refine .inl ⟨hblank, hhides.resolve_right ?_⟩
    rintro ⟨-, line, hline, hempty⟩
    exact hblank line hline hempty
  · exact .inr hone

/-- **A trace is a complete record, and where it can show all values it changes nothing.** Behind the
lines that were there before, which stay as they are, it has one line for each node that was begun,
in preorder of the tree with formulas unfolded below the references to them. None of these lines is
left blank, and the result is that without a trace, unless a node has a value that cannot be shown:
then there is no result, and of all lines just that of the node is blank. -/
theorem evaluate_traced (env : Environment) (guarded : Bool) (e : Expr) (earlier : List String) :
    let stack := if guarded then some [] else none
    let plain := env.evaluate ⟨guarded, false⟩ e
    let outcome := env.evaluate ⟨guarded, true⟩ e
    (guarded = false ∧ outcome.result = .error .unbounded ∧ plain.result = .error .unbounded ∧
        run env .spine e 0 ⟨stack, none⟩ = none ∧
        run env .spine e 0 ⟨stack, some earlier⟩ = none) ∨
      env.Records guarded [] [e] 0 outcome ∧
        (run env .spine e 0 ⟨stack, some earlier⟩).map (fun (result, s) => (result, s.trace)) =
          some (outcome.result, some (earlier ++ outcome.lines.map TraceLine.text)) ∧
        ((∀ line ∈ outcome.lines, line.text ≠ "") ∧ outcome.result = plain.result ∧
            (run env .spine e 0 ⟨stack, none⟩).map Prod.fst = some plain.result ∨
          outcome.result = .error (.operation .tooManyDigits) ∧ OneBlank outcome.lines) := by
  intro stack plain outcome
  have hscope (traced : Bool) := evaluate_eq_scopeFrom env guarded traced e
  by_cases h : outcome.Fails EvaluationError.IsUnbounded
  · cases guarded with
    | true => exact absurd h (not_isUnbounded_within [] e 0)
    | false =>
      have hplain : outcome.result = plain.result := by
        refine (evaluate_traced_hides env false e).resolve_right ?_
        rintro ⟨hr, -⟩
        cases hr.symm.trans (Outcome.fails_isUnbounded_iff.1 h)
      have hunbounded := Outcome.fails_isUnbounded_iff.1 h
      have h' : plain.Fails EvaluationError.IsUnbounded :=
        Outcome.fails_isUnbounded_iff.2 (hplain.symm.trans hunbounded)
      exact .inl ⟨rfl, hunbounded, hplain.symm.trans hunbounded, run_eq_none h' rfl,
        run_eq_none h rfl⟩
  · refine .inr ⟨records_outcome h, ?_, (result_or_oneBlank h).imp_left ?_⟩
    · have houtcome : outcome = (scopeFrom env stack true).evaluate e 0 := hscope true
      rw [houtcome] at h ⊢
      obtain ⟨_, hrun, -⟩ := simulates_scopeFrom stack e 0 h (some earlier) rfl
      rw [hrun]
      rfl
    · rintro ⟨hblank, hresult⟩
      have h' : ¬ plain.Fails EvaluationError.IsUnbounded := by
        unfold Outcome.Fails at h ⊢
        rwa [← hresult]
      refine ⟨hblank, hresult, ?_⟩
      have hplain : plain = (scopeFrom env stack false).evaluate e 0 := hscope false
      rw [hplain] at h' ⊢
      obtain ⟨_, hrun, -⟩ := simulates_scopeFrom stack e 0 h' none rfl
      rw [hrun]
      rfl

/-- A variable is bound to an integer with one digit too many. It has a value without a trace and
none with a trace, which is left with a blank line. -/
theorem evaluate_traced_hidden :
    let large : Value := .number (.integer (Nat.pow 10 digitLimit))
    let env : Environment := ⟨.ofList [("x", large)], .empty, .empty⟩
    (env.evaluate ⟨true, false⟩ (.var "x")).result = .ok large ∧
      (env.evaluate ⟨true, true⟩ (.var "x")).result = .error (.operation .tooManyDigits) ∧
      (run env .spine (.var "x") 0 ⟨some [], some []⟩).map (fun (_, s) => s.trace) =
        some (some [""]) := by
  intro large env
  have hlong : large.TooLong := Value.tooLong_of_le (Nat.le_refl _)
  have hhidden : large.display? = none := Value.display?_eq_none_iff.2 hlong
  have hvalue : valueOf env.vars "x" = large := by rfl
  have hplain : (env.evaluate ⟨true, false⟩ (.var "x")).result = .ok large := by
    rw [result_evaluate_var, hvalue]
    rfl
  have htraced : (env.evaluate ⟨true, true⟩ (.var "x")).result =
      .error (.operation .tooManyDigits) := by
    rw [result_evaluate_var, hvalue]
    exact displayed_of_hidden hhidden
  refine ⟨hplain, htraced, ?_⟩
  have hblank : TraceLine.text ⟨0, .var "x", large⟩ = "" := TraceLine.text_eq_empty_iff.2 hlong
  have hleave := leave_eq (some []) [] [] 0 (.var "x") (.ok large)
  rw [run_of_isSome rfl, node, hvalue]
  show (some (leave ⟨some [], some [""]⟩ 0 0 (.var "x") (.ok large))).map _ = _
  rw [show leave ⟨some [], some [""]⟩ 0 0 (.var "x") (.ok large) = _ from hleave]
  show some (some [TraceLine.text ⟨0, .var "x", large⟩]) = _
  rw [hblank]

end Recursion

end Formulary
