import Formulary.Evaluation.Evaluator

/-!
# Following references

A reference is evaluated by evaluating the tree of its formula, one level deeper, in the environment
as it is now. Formulas may be shared freely, but a formula that refers to itself, directly or
through others, has no value. There are two ways to follow references.

**Guarded** (`guardedFormula`). The names of the formulas being evaluated are kept, and a reference to
one of them is a cycle. These names are different and all of them are in the table, so that
nesting ends: the number of names not among them falls with each reference (`unvisited_lt`).

**Unguarded** (`unguardedFormula`). Nothing is kept, so an evaluation may go on for ever. It is
modelled by a budget for the nesting of references, and `unbounded` says that the budget did not
suffice. As many levels as there are formulas are enough: beyond them some name is nested in itself,
and what led from the outer to the inner one will happen again and again.
-/

namespace Formulary

namespace Environment

/-- The number of formulas whose names are not in `path`. -/
def unvisited (env : Environment) (path : List String) : Nat :=
  env.formulas.keys.countP fun k => decide (k ∉ path)

/-- One more name that has a formula and was not visited leaves fewer of them. -/
theorem unvisited_lt {env : Environment} {path : List String} {name : String} {e : Expr}
    (h : env.formulas.find? name = some e) (hn : name ∉ path) :
    env.unvisited (path ++ [name]) < env.unvisited path := by
  have hmem : name ∈ env.formulas.keys := Table.mem_keys_iff.2 ⟨e, h⟩
  obtain ⟨before, behind, hk⟩ := List.append_of_mem hmem
  have hle (ks : List String) : ks.countP (fun k => decide (k ∉ path ++ [name])) ≤
      ks.countP fun k => decide (k ∉ path) :=
    List.countP_mono_left fun k _ hk => by simp_all
  have hb := hle before
  have hl := hle behind
  have hname : decide (name ∉ path ++ [name]) = false := by simp
  have hname' : decide (name ∉ path) = true := by simpa using hn
  simp only [unvisited, hk, List.countP_append, List.countP_cons, hname, hname',
    Bool.false_eq_true, if_false, if_true]
  omega

/-- A reference to a name that no formula has. -/
def unknownFormula (env : Environment) (name : String) : EvaluationError :=
  .formulaNotFound name (suggestions name env.formulas.keys)

/-- Follows a reference from within the formulas named in `path`, the outermost one first. -/
def guardedFormula (env : Environment) (traced : Bool) (path : List String) (name : String)
    (depth : Nat) : Outcome Value :=
  match h : env.formulas.find? name with
  | none => .fail (env.unknownFormula name)
  | some e =>
    if hn : name ∈ path then .fail (.cycle (path ++ [name]))
    else
      have := unvisited_lt h hn
      let scope : Scope :=
        ⟨env.vars, env.functions, guardedFormula env traced (path ++ [name]), traced⟩
      scope.evaluate e depth
termination_by env.unvisited path
decreasing_by assumption

/-- Follows a reference with references nested up to `budget` levels in it. -/
def unguardedFormula (env : Environment) (traced : Bool) :
    (budget : Nat) → (name : String) → (depth : Nat) → Outcome Value
  | budget, name, depth =>
    match env.formulas.find? name, budget with
    | none, _ => .fail (env.unknownFormula name)
    | some _, 0 => .fail .unbounded
    | some e, budget + 1 =>
      let scope : Scope :=
        ⟨env.vars, env.functions, unguardedFormula env traced budget, traced⟩
      scope.evaluate e depth

/-- How to evaluate. -/
structure Mode where
  /-- Whether a formula that refers to itself is reported as a cycle. -/
  guarded : Bool := true
  /-- Whether a trace is kept. -/
  traced : Bool := false

/-- The scope of a tree that is no formula of the table itself. -/
def scope (env : Environment) (mode : Mode) : Scope :=
  ⟨env.vars, env.functions,
    if mode.guarded then env.guardedFormula mode.traced []
    else env.unguardedFormula mode.traced env.formulas.size,
    mode.traced⟩

/-- Evaluates a tree. -/
def evaluate (env : Environment) (mode : Mode) (e : Expr) : Outcome Value :=
  (env.scope mode).evaluate e 0

end Environment

end Formulary
