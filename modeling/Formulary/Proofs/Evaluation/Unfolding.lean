import Formulary.Proofs.Evaluation.Cycles

/-!
# The tree of an evaluation

The nodes of an evaluation form a tree of their own: that of the formula, with the tree of another
formula below each reference to it (`Environment.operands`). A guarded evaluation evaluates the
trees below a node from left to right and makes a value of theirs (`inner_eq_combine`), and so it
goes on until a reference closes a cycle. **What holds of such references, and of a node if it holds
of the trees below it, holds of all trees** (`within_induction`).
-/

namespace Formulary

namespace Outcome

variable {α β γ : Type}

theorem bind_pure (o : Outcome α) : o.bind pure = o := by
  obtain ⟨_ | a, lines⟩ := o
  · rfl
  · simp only [bind, pure, List.append_nil]

theorem bind_assoc (o : Outcome α) (f : α → Outcome β) (g : β → Outcome γ) :
    (o.bind f).bind g = o.bind fun a => (f a).bind g := by
  obtain ⟨_ | a, lines⟩ := o
  · rfl
  · cases h : (f a).result <;> simp only [bind, h, List.append_assoc]

end Outcome

namespace Environment

/-! ## The tree of an evaluation -/

section

variable (env : Environment)

/-- The trees that lie right below a node, from left to right: its operands, or the tree of the
formula it refers to. -/
def operands : Expr → List Expr
  | .number _ | .text _ | .var _ => []
  | .reference name => (env.formulas.find? name).toList
  | .bracket e | .minus e => [e]
  | .arith l _ r | .compare l _ r => [l, r]
  | .call _ es => es

/-- What a node makes of the values of the trees below it. -/
def combine : Expr → List Value → Except EvaluationError Value
  | .number x, _ => .ok (.ofFloat x)
  | .text s, _ => .ok (.text s)
  | .var name, _ => .ok (valueOf env.vars name)
  | .reference _, [v] | .bracket _, [v] => .ok v
  | .reference name, _ => .error (env.unknownFormula name)
  | .minus _, [v] => v.negate.mapError .operation
  | .arith _ op _, [left, right] => (left.arith op right).mapError .operation
  | .compare _ op _, [left, right] => (left.compare op right).mapError .operation
  | .call name _, vs =>
    match env.functions.find? name with
    | some f => (f vs).mapError .operation
    | none => .error (.functionNotFound name (suggestions name env.functions.keys))
  | .bracket _, _ | .minus _, _ | .arith .., _ | .compare .., _ => .ok .empty

end

/-- The formulas that lie around the operands of a node within those of a path. -/
def pathBelow (path : List String) : Expr → List String
  | .reference name => path ++ [name]
  | _ => path

/-- Within the formulas of the path, the node closes no cycle. -/
def Opens (env : Environment) (path : List String) : Expr → Prop
  | .reference name => env.formulas.find? name ≠ none → name ∉ path
  | _ => True

instance (env : Environment) (path : List String) : DecidablePred (env.Opens path)
  | .reference _ => inferInstanceAs (Decidable (_ → _))
  | .number _ | .text _ | .var _ | .bracket _ | .minus _ | .arith .. | .compare ..
  | .call .. => .isTrue trivial

/-- What holds of a reference that closes a cycle, and of a node that closes none if it holds of the
trees below it, holds of all trees, whatever formulas they lie in. -/
theorem within_induction (env : Environment) {motive : List String → Expr → Prop}
    (closes : ∀ path name f, env.formulas.find? name = some f → name ∈ path →
      motive path (.reference name))
    (opens : ∀ path e, env.Opens path e → (∀ e' ∈ env.operands e, motive (pathBelow path e) e') →
      motive path e)
    (path : List String) (e : Expr) : motive path e := by
  have htree {path : List String} (h : ∀ name, motive path (.reference name)) (e : Expr) :
      motive path e := by
    induction e with
    | reference name => exact h name
    | bracket e ih => exact opens path _ trivial (List.forall_mem_singleton.2 ih)
    | minus e ih => exact opens path _ trivial (List.forall_mem_singleton.2 ih)
    | arith l op r hl hr =>
      exact opens path _ trivial (List.forall_mem_cons.2 ⟨hl, List.forall_mem_singleton.2 hr⟩)
    | compare l op r hl hr =>
      exact opens path _ trivial (List.forall_mem_cons.2 ⟨hl, List.forall_mem_singleton.2 hr⟩)
    | call name es ih => exact opens path _ trivial ih
    | _ => exact opens path _ trivial (List.forall_mem_nil _)
  refine htree (fun name => ?_) e
  induction path, name using guarded_induction env with
  | unknown path name h =>
    refine opens path _ (fun hf => absurd h hf) ?_
    rw [operands, h]
    exact List.forall_mem_nil _
  | cycle path name f h hn => exact closes path name f h hn
  | enter path name f h hn ih =>
    refine opens path _ (fun _ => hn) ?_
    rw [operands, h]
    exact List.forall_mem_singleton.2 (htree ih f)

/-! ## One node -/

section

open Outcome

variable {env : Environment} {traced : Bool} {path : List String} {e : Expr} {depth : Nat}

theorem mapError_ne_cycle {α : Type} (r : Except OperationError α) (path : List String) :
    r.mapError EvaluationError.operation ≠ .error (.cycle path) := by
  cases r with
  | error cause => exact nofun
  | ok a => exact nofun

/-- No node but a reference closes a cycle. -/
theorem combine_ne_cycle (e : Expr) (vs : List Value) (path : List String) :
    env.combine e vs ≠ .error (.cycle path) := by
  unfold combine
  split
  case h_7 => exact mapError_ne_cycle _ path
  case h_8 => exact mapError_ne_cycle _ path
  case h_9 => exact mapError_ne_cycle _ path
  case h_10 name es =>
    cases env.functions.find? name with
    | none => exact nofun
    | some f => exact mapError_ne_cycle _ path
  all_goals exact nofun

/-- **A node is evaluated by evaluating the trees below it** from left to right and combining their
values, unless it closes a cycle. -/
theorem inner_eq_combine (hopen : env.Opens path e) :
    (env.within traced path).inner e depth =
      ((env.within traced (pathBelow path e)).evaluateList (env.operands e) (depth + 1)).bind
        fun vs => ⟨env.combine e vs, []⟩ := by
  cases e with
  | number x => rfl
  | text s => rfl
  | var name => rfl
  | reference name =>
    show env.guardedFormula traced path name (depth + 1) = _
    cases hf : env.formulas.find? name with
    | none =>
      rw [guardedFormula_unknown hf, operands, hf]
      rfl
    | some f =>
      have hn : name ∉ path := hopen (by rw [hf]; exact Option.some_ne_none f)
      rw [guardedFormula_enter hf hn, operands, hf]
      show _ = Outcome.bind (Outcome.bind _ fun _ => _) _
      rw [bind_assoc]
      exact (bind_pure _).symm
  | bracket e =>
    show (env.within traced path).evaluate e (depth + 1) = Outcome.bind (Outcome.bind _ _) _
    rw [bind_assoc]
    exact (bind_pure _).symm
  | minus e =>
    show _ = Outcome.bind (Outcome.bind _ _) _
    rw [bind_assoc]
    rfl
  | arith l op r =>
    show _ = Outcome.bind (Outcome.bind _ fun _ => Outcome.bind (Outcome.bind _ _) _) _
    simp only [bind_assoc]
    rfl
  | compare l op r =>
    show _ = Outcome.bind (Outcome.bind _ fun _ => Outcome.bind (Outcome.bind _ _) _) _
    simp only [bind_assoc]
    rfl
  | call name es =>
    have happly (vs : List Value) : (env.within traced path).apply name vs =
        ⟨env.combine (.call name es) vs, []⟩ := by
      have hfunctions : (env.within traced path).functions = env.functions := rfl
      rw [Scope.apply, combine, hfunctions]
      cases env.functions.find? name <;> rfl
    exact congrArg (Outcome.bind _) (funext happly)

end

end Environment

end Formulary
