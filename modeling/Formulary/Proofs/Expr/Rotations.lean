import Formulary.Proofs.Expr.Regrouping
import Mathlib.Logic.Relation

/-!
# Rotations

A *rotation* takes one right operand apart: `a op (b op' c)` becomes `(a op b) op' c`, where `op'`
binds no tighter than `op` (`Rotates`). Where no rotation is possible, every right operand of an
operator binds more tightly than the operator (`rotationFree_iff`).

**Regrouping does nothing but rotate** (`rotations_regroup`). A rotation takes the left part of a
right operand out of it, so it makes the right operands lighter (`Rotates.rightWeight_lt`). The
trees that regrouping leaves alone are therefore exactly those without a rotation
(`regroup_eq_self_iff`), and all others become lighter (`rightWeight_regroup_lt_iff`).
-/

namespace Formulary.Expr

open Relation (ReflTransGen)

/-! ## One rotation -/

/-- Somewhere in the first tree, one right operand was taken apart; this gave the second one. -/
inductive Rotates : Expr → Expr → Prop
  | here {l a b : Expr} {op op' : ArithOp} : op'.strength ≤ op.strength →
      Rotates (.arith l op (.arith a op' b)) (.arith (.arith l op a) op' b)
  | bracket {e e' : Expr} : Rotates e e' → Rotates (.bracket e) (.bracket e')
  | minus {e e' : Expr} : Rotates e e' → Rotates (.minus e) (.minus e')
  | arithLeft {l l' r : Expr} {op : ArithOp} : Rotates l l' →
      Rotates (.arith l op r) (.arith l' op r)
  | arithRight {l r r' : Expr} {op : ArithOp} : Rotates r r' →
      Rotates (.arith l op r) (.arith l op r')
  | compareLeft {l l' r : Expr} {op : CompareOp} : Rotates l l' →
      Rotates (.compare l op r) (.compare l' op r)
  | compareRight {l r r' : Expr} {op : CompareOp} : Rotates r r' →
      Rotates (.compare l op r) (.compare l op r')
  | call {name : String} {before behind : List Expr} {e e' : Expr} : Rotates e e' →
      Rotates (.call name (before ++ e :: behind)) (.call name (before ++ e' :: behind))

theorem sizeList_eq_sum (es : List Expr) : sizeList es = (es.map size).sum := by
  induction es with
  | nil => rfl
  | cons e es ih => rw [sizeList, ih, List.map_cons, List.sum_cons]

theorem rightWeightList_eq_sum (es : List Expr) :
    rightWeightList es = (es.map rightWeight).sum := by
  induction es with
  | nil => rfl
  | cons e es ih => rw [rightWeightList, ih, List.map_cons, List.sum_cons]

theorem Rotates.size_eq {e f : Expr} (h : e.Rotates f) : f.size = e.size := by
  induction h with
  | call _ ih => simp only [size, sizeList_eq_sum, List.map_append, List.map_cons, ih]
  | _ => simp only [size] at *; omega

/-- **A rotation makes the right operands lighter**: the left part of one of them leaves it. -/
theorem Rotates.rightWeight_lt {e f : Expr} (h : e.Rotates f) : f.rightWeight < e.rightWeight := by
  induction h with
  | here _ => simp only [rightWeight, size]; omega
  | arithRight hr ih =>
    have := hr.size_eq
    simp only [rightWeight]
    omega
  | call _ ih =>
    simp only [rightWeight, rightWeightList_eq_sum, List.map_append, List.map_cons,
      List.sum_append, List.sum_cons]
    omega
  | _ => simp only [rightWeight] at *; omega

theorem rightWeight_le_of_rotations {e f : Expr} (h : ReflTransGen Rotates e f) :
    f.rightWeight ≤ e.rightWeight := by
  induction h with
  | refl => exact Nat.le_refl _
  | tail _ hstep ih => exact Nat.le_trans (Nat.le_of_lt hstep.rightWeight_lt) ih

/-! ## Where no rotation is possible -/

/-- The right operand binds more tightly than the operator, so that it is kept together. -/
def KeptNode : Expr → Prop
  | .arith _ op r => op.strength < r.tightness
  | _ => True

instance : DecidablePred KeptNode
  | .arith .. => inferInstanceAs (Decidable (_ < _))
  | .number _ | .text _ | .var _ | .reference _ | .bracket _ | .minus _ | .compare ..
  | .call .. => .isTrue trivial

/-- No operator has a right operand that is an operator and binds no tighter. -/
def RotationFree (e : Expr) : Prop := e.Everywhere KeptNode

instance : DecidablePred RotationFree := fun e => inferInstanceAs (Decidable (e.Everywhere _))

theorem GroupedNode.kept {e : Expr} (h : e.GroupedNode) : e.KeptNode := by
  cases e with
  | arith l op r => exact h.2
  | _ => trivial

theorem RotationFree.arith {l r : Expr} {op : ArithOp} (hl : l.RotationFree)
    (hr : r.RotationFree) (h : op.strength < r.tightness) : (Expr.arith l op r).RotationFree :=
  everywhere_arith.2 ⟨h, hl, hr⟩

theorem Rotates.not_rotationFree {e f : Expr} (h : e.Rotates f) : ¬ e.RotationFree := by
  intro hfree
  induction h with
  | here hop => exact absurd (everywhere_arith.1 hfree).1 (Nat.not_lt.2 hop)
  | bracket _ ih => exact ih (everywhere_bracket.1 hfree).2
  | minus _ ih => exact ih (everywhere_minus.1 hfree).2
  | arithLeft _ ih => exact ih (everywhere_arith.1 hfree).2.1
  | arithRight _ ih => exact ih (everywhere_arith.1 hfree).2.2
  | compareLeft _ ih => exact ih (everywhere_compare.1 hfree).2.1
  | compareRight _ ih => exact ih (everywhere_compare.1 hfree).2.2
  | call _ ih => exact ih ((everywhere_call.1 hfree).2 _ (by simp))

theorem rotationFree_of_not_rotates {e : Expr} (hnone : ∀ f, ¬ e.Rotates f) :
    e.RotationFree := by
  induction e with
  | arith l op r hl hr =>
    refine RotationFree.arith (hl fun f hf => hnone _ (.arithLeft hf))
      (hr fun f hf => hnone _ (.arithRight hf)) (looser?_eq_none_iff.1 ?_)
    cases hlooser : looser? op r with
    | none => rfl
    | some p =>
      obtain ⟨a, op', b⟩ := p
      obtain ⟨rfl, hop⟩ := looser?_eq_some hlooser
      exact absurd (.here hop) (hnone _)
  | bracket e ih => exact everywhere_bracket.2 ⟨trivial, ih fun f hf => hnone _ (.bracket hf)⟩
  | minus e ih => exact everywhere_minus.2 ⟨trivial, ih fun f hf => hnone _ (.minus hf)⟩
  | compare l op r hl hr =>
    exact everywhere_compare.2 ⟨trivial, hl fun f hf => hnone _ (.compareLeft hf),
      hr fun f hf => hnone _ (.compareRight hf)⟩
  | call name es ih =>
    refine everywhere_call.2 ⟨trivial, fun e he => ih e he fun f hf => ?_⟩
    obtain ⟨before, behind, rfl⟩ := List.append_of_mem he
    exact hnone _ (.call hf)
  | _ => simp [RotationFree, KeptNode]

/-- **Without a rotation, every right operand binds more tightly**, and the other way round. -/
theorem rotationFree_iff {e : Expr} : e.RotationFree ↔ ∀ f, ¬ e.Rotates f :=
  ⟨fun hfree _ h => h.not_rotationFree hfree, rotationFree_of_not_rotates⟩

/-! ## Regrouping is rotating -/

theorem rotations_arith {l l' r r' : Expr} (op : ArithOp) (hl : ReflTransGen Rotates l l')
    (hr : ReflTransGen Rotates r r') :
    ReflTransGen Rotates (.arith l op r) (.arith l' op r') :=
  (hl.lift (Expr.arith · op r) fun _ _ => .arithLeft).trans
    (hr.lift (Expr.arith l' op) fun _ _ => .arithRight)

theorem rotations_call {g : Expr → Expr} (name : String) (before : List Expr) {es : List Expr}
    (h : ∀ e ∈ es, ReflTransGen Rotates e (g e)) :
    ReflTransGen Rotates (.call name (before ++ es)) (.call name (before ++ es.map g)) := by
  induction es generalizing before with
  | nil => exact .refl
  | cons e es ih =>
    have hfirst := (h e List.mem_cons_self).lift
      (fun e => Expr.call name (before ++ e :: es)) fun _ _ => Rotates.call
    have hothers := ih (before ++ [g e]) fun e he => h e (List.mem_cons_of_mem _ he)
    rw [List.append_assoc, List.append_assoc] at hothers
    exact hfirst.trans hothers

/-- **Regrouping does nothing but rotate.** -/
theorem rotations_regroup (e : Expr) : ReflTransGen Rotates e (regroup e) := by
  induction e using regroup_induction with
  | rotate l op a op' b hop hl hb ht =>
    rw [regroup_rotate hop]
    exact .head (.here hop) ((rotations_arith op' hl hb).trans ht)
  | keep l op r h hl hr =>
    rw [regroup_keep h]
    exact rotations_arith op hl hr
  | bracket e ih =>
    rw [regroup_bracket]
    exact ih.lift Expr.bracket fun _ _ => .bracket
  | minus e ih =>
    rw [regroup_minus]
    exact ih.lift Expr.minus fun _ _ => .minus
  | compare l op r hl hr =>
    rw [regroup_compare]
    exact (hl.lift (Expr.compare · op r) fun _ _ => .compareLeft).trans
      (hr.lift (Expr.compare (regroup l) op) fun _ _ => .compareRight)
  | call name es ih =>
    rw [regroup_call]
    exact rotations_call name [] ih
  | number x => rw [regroup_number]
  | text s => rw [regroup_text]
  | var name => rw [regroup_var]
  | reference name => rw [regroup_reference]

/-- **Regrouping only regroups**: the text stays as it is, and so do the operands and operators in
reading order, each operand with what stands inside it. All that happens are rotations. -/
theorem regroup_only_regroups (e : Expr) :
    (regroup e).toText = e.toText ∧ (regroup e).items = e.items ∧
      ReflTransGen Rotates e (regroup e) :=
  ⟨congrArg String.ofList (write_regroup e []), items_regroup e, rotations_regroup e⟩

/-! ## What regrouping leaves alone -/

/-- Where there is a rotation, regrouping makes at least one. -/
theorem rotationFree_of_regroup_eq {e : Expr} (h : regroup e = e) : e.RotationFree := by
  induction e using regroup_induction with
  | rotate l op a op' b hop hl hb ht =>
    -- the tree would have to weigh less than itself
    have hrotated := Rotates.rightWeight_lt (.here hop : Rotates (.arith l op (.arith a op' b)) _)
    have hparts := rightWeight_le_of_rotations
      (rotations_arith op' (rotations_regroup (.arith l op a)) (rotations_regroup b))
    have hwhole := rightWeight_regroup_le (.arith (regroup (.arith l op a)) op' (regroup b))
    rw [← regroup_rotate hop, h] at hwhole
    omega
  | keep l op r hk hl hr =>
    rw [regroup_keep hk, Expr.arith.injEq] at h
    exact .arith (hl h.1) (hr h.2.2) (looser?_eq_none_iff.1 hk)
  | bracket e ih =>
    rw [regroup_bracket, Expr.bracket.injEq] at h
    exact everywhere_bracket.2 ⟨trivial, ih h⟩
  | minus e ih =>
    rw [regroup_minus, Expr.minus.injEq] at h
    exact everywhere_minus.2 ⟨trivial, ih h⟩
  | compare l op r hl hr =>
    rw [regroup_compare, Expr.compare.injEq] at h
    exact everywhere_compare.2 ⟨trivial, hl h.1, hr h.2.2⟩
  | call name es ih =>
    rw [regroup_call, Expr.call.injEq] at h
    have hes : es.map regroup = es.map id := h.2.trans (List.map_id es).symm
    exact everywhere_call.2 ⟨trivial, fun e he => ih e he (List.map_inj_left.1 hes e he)⟩
  | _ => simp [RotationFree, KeptNode]

/-- **Regrouping leaves a tree alone exactly if no rotation is possible in it.** -/
theorem regroup_eq_self_iff {e : Expr} : regroup e = e ↔ e.RotationFree := by
  refine ⟨rotationFree_of_regroup_eq, fun hfree => ?_⟩
  rcases (rotations_regroup e).cases_head with heq | ⟨f, hf, -⟩
  · exact heq.symm
  · exact absurd hfree hf.not_rotationFree

/-- A grouped tree stays as it is. -/
theorem regroup_eq_self {e : Expr} (h : e.Everywhere GroupedNode) : regroup e = e :=
  regroup_eq_self_iff.2 (h.mono fun _ => GroupedNode.kept)

/-- **All other trees become lighter.** -/
theorem rightWeight_regroup_lt_iff {e : Expr} :
    (regroup e).rightWeight < e.rightWeight ↔ ¬ e.RotationFree := by
  refine ⟨fun hlt hfree => ?_, fun hfree => ?_⟩
  · rw [regroup_eq_self_iff.2 hfree] at hlt
    exact Nat.lt_irrefl _ hlt
  · rcases (rotations_regroup e).cases_head with heq | ⟨f, hf, hrest⟩
    · exact absurd (regroup_eq_self_iff.1 heq.symm) hfree
    · exact Nat.lt_of_le_of_lt (rightWeight_le_of_rotations hrest) hf.rightWeight_lt

end Formulary.Expr
