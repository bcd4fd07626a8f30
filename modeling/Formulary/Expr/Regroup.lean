import Formulary.Expr.Basic

/-!
# Grouping arithmetic to the left

In `a op (b op' c)` the inner operator may bind no tighter than the outer one. Read aloud, such a
tree means `(a op b) op' c`, and `regroup` turns it into that, everywhere below its argument.
Brackets are never looked through: they are nodes, so what stands in them is no arithmetic operand.

A rotation moves `b` out of a right operand. The total size of all right operands
(`rightWeight`) therefore falls with each rotation, while regrouping what is already in a tree
never raises it; that is why `regroup` ends, although it regroups its own results.

Main statements: `regroup_arith`, the rule for one operator, and `size_regroup` and
`rightWeight_regroup_le`, what regrouping keeps.
-/

namespace Formulary.Expr

/-! ## Two measures -/

mutual

/-- The number of nodes. -/
def size : Expr → Nat
  | .number _ | .text _ | .var _ | .reference _ => 1
  | .bracket e | .minus e => size e + 1
  | .arith l _ r | .compare l _ r => size l + size r + 1
  | .call _ es => sizeList es + 1

/-- The number of nodes of several trees. -/
def sizeList : List Expr → Nat
  | [] => 0
  | e :: es => size e + sizeList es

end

mutual

/-- The total size of all right operands of arithmetic operators. -/
def rightWeight : Expr → Nat
  | .number _ | .text _ | .var _ | .reference _ => 0
  | .bracket e | .minus e => rightWeight e
  | .arith l _ r => rightWeight l + rightWeight r + size r
  | .compare l _ r => rightWeight l + rightWeight r
  | .call _ es => rightWeightList es

/-- The total size of all right operands in several trees. -/
def rightWeightList : List Expr → Nat
  | [] => 0
  | e :: es => rightWeight e + rightWeightList es

end

/-! ## Regrouping -/

/-- The two operands and the operator of a right operand that binds no tighter than the operator
`op` before it. -/
def looser? (op : ArithOp) : Expr → Option (Expr × ArithOp × Expr)
  | .arith a op' b => if op'.strength ≤ op.strength then some (a, op', b) else none
  | _ => none

theorem looser?_eq_some {op op' : ArithOp} {r a b : Expr} (h : looser? op r = some (a, op', b)) :
    r = .arith a op' b ∧ op'.strength ≤ op.strength := by
  cases r with
  | arith a₀ op₀ b₀ =>
    simp only [looser?, Option.ite_none_right_eq_some, Option.some.injEq, Prod.mk.injEq] at h
    obtain ⟨hs, rfl, rfl, rfl⟩ := h
    exact ⟨rfl, hs⟩
  | _ => simp [looser?] at h

mutual

/-- `regroup`, together with what makes it end: the number of nodes is kept, and the weight of the
right operands does not rise. -/
def regroupSized (e : Expr) :
    { f : Expr // f.size = e.size ∧ f.rightWeight ≤ e.rightWeight } :=
  match e with
  | .arith l op r =>
    match h : looser? op r with
    | some (a, op', b) =>
      have hr := (looser?_eq_some h).1
      let ⟨left, hl⟩ := regroupSized (.arith l op a)
      let ⟨right, hb⟩ := regroupSized b
      let ⟨result, ht⟩ := regroupSized (.arith left op' right)
      ⟨result, by subst hr; simp only [size, rightWeight] at hl hb ht ⊢; omega⟩
    | none =>
      let ⟨left, hl⟩ := regroupSized l
      let ⟨right, hr⟩ := regroupSized r
      ⟨.arith left op right, by simp only [size, rightWeight]; omega⟩
  | .compare l op r =>
    let ⟨left, hl⟩ := regroupSized l
    let ⟨right, hr⟩ := regroupSized r
    ⟨.compare left op right, by simp only [size, rightWeight]; omega⟩
  | .bracket e =>
    let ⟨inner, h⟩ := regroupSized e
    ⟨.bracket inner, by simp only [size, rightWeight]; omega⟩
  | .minus e =>
    let ⟨operand, h⟩ := regroupSized e
    ⟨.minus operand, by simp only [size, rightWeight]; omega⟩
  | .call name es =>
    let ⟨arguments, h⟩ := regroupSizedList es
    ⟨.call name arguments, by simp only [size, rightWeight]; omega⟩
  | .number x => ⟨.number x, rfl, Nat.le_refl _⟩
  | .text s => ⟨.text s, rfl, Nat.le_refl _⟩
  | .var name => ⟨.var name, rfl, Nat.le_refl _⟩
  | .reference name => ⟨.reference name, rfl, Nat.le_refl _⟩
termination_by (e.rightWeight, e.size, 0)
decreasing_by
  · subst hr; simp only [Prod.lex_def, size, rightWeight]; omega
  · subst hr; simp only [Prod.lex_def, size, rightWeight]; omega
  · subst hr; simp only [Prod.lex_def, size, rightWeight] at hl hb ⊢; omega
  all_goals simp only [Prod.lex_def, size, rightWeight, true_and]; omega

/-- The list of regrouped trees. -/
def regroupSizedList (es : List Expr) :
    { fs : List Expr // sizeList fs = sizeList es ∧ rightWeightList fs ≤ rightWeightList es } :=
  match es with
  | [] => ⟨[], rfl, Nat.le_refl _⟩
  | e :: es =>
    let ⟨first, hf⟩ := regroupSized e
    let ⟨others, ho⟩ := regroupSizedList es
    ⟨first :: others, by simp only [sizeList, rightWeightList]; omega⟩
termination_by (rightWeightList es, sizeList es, es.length)
decreasing_by
  all_goals simp only [Prod.lex_def, sizeList, rightWeightList, List.length_cons]
  all_goals omega

end

/-- Groups arithmetic to the left as far as the operators allow. -/
def regroup (e : Expr) : Expr := (regroupSized e).1

/-- Regroups each of several trees. -/
def regroupList (es : List Expr) : List Expr := (regroupSizedList es).1

theorem size_regroup (e : Expr) : (regroup e).size = e.size := (regroupSized e).2.1

theorem rightWeight_regroup_le (e : Expr) : (regroup e).rightWeight ≤ e.rightWeight :=
  (regroupSized e).2.2

/-- **The rule for one operator.** A right operand that binds no tighter is taken apart: its left
part joins the left operand, and the result is regrouped once more. -/
theorem regroup_arith (l : Expr) (op : ArithOp) (r : Expr) :
    regroup (.arith l op r) =
      match looser? op r with
      | some (a, op', b) => regroup (.arith (regroup (.arith l op a)) op' (regroup b))
      | none => .arith (regroup l) op (regroup r) := by
  rw [regroup, regroupSized]
  split
  next a op' b h => simp only [h]; rfl
  next h => simp only [h]; rfl

@[simp] theorem regroup_number (x : Float) : regroup (.number x) = .number x := by
  rw [regroup, regroupSized]

@[simp] theorem regroup_text (s : String) : regroup (.text s) = .text s := by
  rw [regroup, regroupSized]

@[simp] theorem regroup_var (name : String) : regroup (.var name) = .var name := by
  rw [regroup, regroupSized]

@[simp] theorem regroup_reference (name : String) :
    regroup (.reference name) = .reference name := by
  rw [regroup, regroupSized]

@[simp] theorem regroup_bracket (e : Expr) : regroup (.bracket e) = .bracket (regroup e) := by
  rw [regroup, regroupSized]; rfl

@[simp] theorem regroup_minus (e : Expr) : regroup (.minus e) = .minus (regroup e) := by
  rw [regroup, regroupSized]; rfl

@[simp] theorem regroup_compare (l : Expr) (op : CompareOp) (r : Expr) :
    regroup (.compare l op r) = .compare (regroup l) op (regroup r) := by
  rw [regroup, regroupSized]; rfl

theorem regroupList_eq_map (es : List Expr) : regroupList es = es.map regroup := by
  induction es with
  | nil => rw [regroupList, regroupSizedList]; rfl
  | cons e es ih => rw [regroupList, regroupSizedList, List.map_cons, ← ih]; rfl

@[simp] theorem regroup_call (name : String) (es : List Expr) :
    regroup (.call name es) = .call name (es.map regroup) := by
  rw [regroup, regroupSized, ← regroupList_eq_map]; rfl

end Formulary.Expr
