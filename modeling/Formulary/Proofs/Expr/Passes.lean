import Formulary.Proofs.Expr.Rotations
import Mathlib.Logic.Function.Iterate

/-!
# How often a tree must be regrouped

Regrouping calls itself on its own results, so that it is not plain that it ends. `regroupWalk` is
this recursion without anything that would make it end: it walks down the left spine of a chain with
a loop, takes the first right operand that is too loose apart, regroups the three trees that this
takes, and comes back up the spine. `none` stands for a run that does not return. **Every run
returns, and returns the regrouped tree** (`returns`).

One pass may leave rotations behind. An operator whose right operand binds more tightly is kept, and
then its right operand is regrouped, whose root may afterwards be looser. How loose it will be can
be told beforehand: a rotation keeps the loosest operator on the right edge of a tree
(`edge_regroup`), and in a tree without rotations this one stands at the root.

* **One pass is enough for a tree and all trees in it exactly if no operator is kept before a right
  operand with an edge as loose as itself** (`regroup_exhaustive_iff`).
* **Three passes are enough for any tree** (`rotationFree_regroup_regroup_regroup`). Only an
  operator with a tighter one behind it can be kept wrongly, so after one pass nothing is wrong at
  the tightest operators, and each further pass puts the next weaker ones right.
-/

namespace Formulary.Expr

/-! ## The recursion along spines -/

/-- Walks down the left spine, to the first operator whose right operand has to be taken apart or to
the end. Puts the operators that were passed, each with its right operand, in front of `links`. -/
def descend : Expr → (links : List (ArithOp × Expr)) → Expr × List (ArithOp × Expr)
  | .arith l op r, links =>
    match looser? op r with
    | some _ => (.arith l op r, links)
    | none => descend l ((op, r) :: links)
  | e, links => (e, links)

mutual

/-- Regroups a tree. -/
def regroupWalk (e : Expr) : Option Expr :=
  match e with
  | .arith l op r => do
    let (base, links) := descend (.arith l op r) []
    let result ← base |>.regroupBase
    result |>.regroupLinks links
  | .compare l op r => do
    let left ← l |>.regroupWalk
    let right ← r |>.regroupWalk
    return .compare left op right
  | .bracket e => do
    let inner ← e |>.regroupWalk
    return .bracket inner
  | .minus e => do
    let operand ← e |>.regroupWalk
    return .minus operand
  | .call name es => do
    let arguments ← es.mapM fun e => e |>.regroupWalk
    return .call name arguments
  | .number x => return .number x
  | .text s => return .text s
  | .var name => return .var name
  | .reference name => return .reference name
partial_fixpoint

/-- Regroups what the walk down a spine has come to. -/
def regroupBase (base : Expr) : Option Expr :=
  match base with
  | .arith l op (.arith a op' b) => do
    let left ← Expr.arith l op a |>.regroupWalk
    let right ← b |>.regroupWalk
    -- the new root may have to be taken apart as well
    Expr.arith left op' right |>.regroupWalk
  | e => e |>.regroupWalk
partial_fixpoint

/-- Comes back up a spine, regrouping the right operands. -/
def regroupLinks (left : Expr) (links : List (ArithOp × Expr)) : Option Expr :=
  match links with
  | [] => return left
  | (op, r) :: links => do
    let right ← r |>.regroupWalk
    Expr.arith left op right |>.regroupLinks links
partial_fixpoint

end

/-- What the walk does from some place on the spine of a chain, with `links` behind it. -/
def regroupFrom (e : Expr) (links : List (ArithOp × Expr)) : Option Expr := do
  let (base, links) := descend e links
  let result ← regroupBase base
  regroupLinks result links

theorem regroupFrom_keep {l r : Expr} {op : ArithOp} (h : looser? op r = none)
    (links : List (ArithOp × Expr)) :
    regroupFrom (.arith l op r) links = regroupFrom l ((op, r) :: links) := by
  rw [regroupFrom, descend, h, regroupFrom]

/-- The run for this tree returns what `regroup` gives, and so does a walk that begins here, once it
has come back up through what is behind it. -/
def Returns (e : Expr) : Prop :=
  regroupWalk e = some (regroup e) ∧
    ∀ links, regroupFrom e links = regroupLinks (regroup e) links

theorem returns_arith {l r : Expr} {op : ArithOp}
    (h : ∀ links, regroupFrom (.arith l op r) links =
      regroupLinks (regroup (.arith l op r)) links) : (Expr.arith l op r).Returns := by
  refine ⟨?_, h⟩
  rw [regroupWalk]
  show regroupFrom (.arith l op r) [] = _
  rw [h, regroupLinks]
  rfl

/-- A walk down a spine ends where there is no operator. -/
theorem returns_of_ne_arith {e : Expr} (he : ∀ l op r, e ≠ .arith l op r)
    (h : regroupWalk e = some (regroup e)) : e.Returns := by
  refine ⟨h, fun links => ?_⟩
  have hdescend : descend e links = (e, links) := by
    cases e with
    | arith l op r => exact absurd rfl (he l op r)
    | _ => rfl
  have hbase : regroupBase e = regroupWalk e := by
    rw [regroupBase]
    rintro l op a op' b rfl
    exact he l op (.arith a op' b) rfl
  rw [regroupFrom, hdescend]
  show regroupBase e >>= _ = _
  rw [hbase, h]
  rfl

theorem mapM_regroupWalk_eq {es : List Expr} (h : ∀ e ∈ es, regroupWalk e = some (regroup e)) :
    es.mapM regroupWalk = some (es.map regroup) := by
  induction es with
  | nil => rfl
  | cons e es ih =>
    rw [List.mapM_cons, h e List.mem_cons_self, ih fun e he => h e (List.mem_cons_of_mem _ he)]
    rfl

/-- **Every run returns**, and returns the regrouped tree. -/
theorem returns (e : Expr) : e.Returns := by
  induction e using regroup_induction with
  | rotate l op a op' b hop hl hb ht =>
    refine returns_arith fun links => ?_
    rw [regroupFrom, descend, looser?_arith hop, regroup_rotate hop]
    show regroupBase (.arith l op (.arith a op' b)) >>= _ = _
    rw [regroupBase, hl.1]
    show (regroupWalk b >>= _) >>= _ = _
    rw [hb.1]
    show regroupWalk (.arith (regroup (.arith l op a)) op' (regroup b)) >>= _ = _
    rw [ht.1]
    rfl
  | keep l op r h hl hr =>
    refine returns_arith fun links => ?_
    rw [regroupFrom_keep h, hl.2, regroupLinks, hr.1, regroup_keep h]
    rfl
  | compare l op r hl hr =>
    refine returns_of_ne_arith nofun ?_
    rw [regroupWalk, hl.1, hr.1, regroup_compare]
    rfl
  | bracket e ih =>
    refine returns_of_ne_arith nofun ?_
    rw [regroupWalk, ih.1, regroup_bracket]
    rfl
  | minus e ih =>
    refine returns_of_ne_arith nofun ?_
    rw [regroupWalk, ih.1, regroup_minus]
    rfl
  | call name es ih =>
    refine returns_of_ne_arith nofun ?_
    rw [regroupWalk, mapM_regroupWalk_eq fun e he => (ih e he).1, regroup_call]
    rfl
  | number x =>
    refine returns_of_ne_arith nofun ?_
    rw [regroupWalk, regroup_number]
    rfl
  | text s =>
    refine returns_of_ne_arith nofun ?_
    rw [regroupWalk, regroup_text]
    rfl
  | var name =>
    refine returns_of_ne_arith nofun ?_
    rw [regroupWalk, regroup_var]
    rfl
  | reference name =>
    refine returns_of_ne_arith nofun ?_
    rw [regroupWalk, regroup_reference]
    rfl

/-! ## Three passes are enough -/

/-- An operator that is at least as strong as `s` has a right operand that binds more tightly. -/
def KeptFrom (s : Nat) : Expr → Prop
  | .arith _ op r => s ≤ op.strength → op.strength < r.tightness
  | _ => True

theorem everywhere_keptFrom_four (e : Expr) : e.Everywhere (KeptFrom 4) := by
  intro n _
  cases n with
  | arith l op r =>
    intro hop
    have := strength_le_three op
    omega
  | _ => trivial

theorem KeptFrom.succ {s : Nat} {e : Expr} (h : e.KeptFrom s) : e.KeptFrom (s + 1) := by
  cases e with
  | arith l op r => exact fun hop => h (Nat.le_of_succ_le hop)
  | _ => trivial

theorem RotationFree.of_keptFrom_one {e : Expr} (h : e.Everywhere (KeptFrom 1)) :
    e.RotationFree := by
  refine h.mono fun n hn => ?_
  cases n with
  | arith l op r => exact hn (strength_pos op)
  | _ => trivial

/-- A right operand that is kept stays tight, if its own right operand is kept as well. -/
theorem tightness_regroup_of_kept {e : Expr} (h : e.KeptNode) :
    (regroup e).tightness = e.tightness := by
  cases e with
  | arith l op r =>
    rw [regroup_keep (looser?_eq_none_iff.2 h)]
    rfl
  | _ => simp [tightness]

/-- **A pass puts the next weaker operators right.** -/
theorem keptFrom_regroup {s : Nat} {e : Expr} (h : e.Everywhere (KeptFrom (s + 1))) :
    (regroup e).Everywhere (KeptFrom s) := by
  induction e using regroup_induction with
  | rotate l op a op' b hop hl hb ht =>
    obtain ⟨hroot, hle, -, hae, hbe⟩ := by simpa only [everywhere_arith] using h
    -- an operator with a looser one behind it is not among those that are right already
    have hweak : op.strength ≤ s := by
      refine Nat.le_of_not_lt fun hlt => ?_
      exact absurd (hroot hlt) (Nat.not_lt.2 hop)
    have hleft := hl (everywhere_arith.2 ⟨fun hlt => absurd hlt (by omega), hle, hae⟩)
    rw [regroup_rotate hop]
    exact ht (everywhere_arith.2 ⟨fun hlt => absurd hlt (by omega),
      hleft.mono fun _ => KeptFrom.succ, (hb hbe).mono fun _ => KeptFrom.succ⟩)
  | keep l op r hk hl hr =>
    obtain ⟨-, hle, hre⟩ := everywhere_arith.1 h
    rw [regroup_keep hk]
    refine everywhere_arith.2 ⟨fun hop => ?_, hl hle, hr hre⟩
    have hkept := looser?_eq_none_iff.1 hk
    have hright : r.KeptNode := by
      cases r with
      | arith a op' b => exact (everywhere_arith.1 hre).1 (Nat.lt_of_le_of_lt hop hkept)
      | _ => trivial
    rw [tightness_regroup_of_kept hright]
    exact hkept
  | bracket e ih =>
    rw [regroup_bracket]
    exact everywhere_bracket.2 ⟨trivial, ih (everywhere_bracket.1 h).2⟩
  | minus e ih =>
    rw [regroup_minus]
    exact everywhere_minus.2 ⟨trivial, ih (everywhere_minus.1 h).2⟩
  | compare l op r hl hr =>
    obtain ⟨-, hle, hre⟩ := everywhere_compare.1 h
    rw [regroup_compare]
    exact everywhere_compare.2 ⟨trivial, hl hle, hr hre⟩
  | call name es ih =>
    obtain ⟨-, hes⟩ := everywhere_call.1 h
    rw [regroup_call]
    exact everywhere_call.2 ⟨trivial, List.forall_mem_map.2 fun e he => ih e he (hes e he)⟩
  | _ => simp [KeptFrom]

/-- **Three passes are enough for any tree.** -/
theorem rotationFree_regroup_regroup_regroup (e : Expr) :
    (regroup (regroup (regroup e))).RotationFree :=
  .of_keptFrom_one (keptFrom_regroup (keptFrom_regroup (keptFrom_regroup
    (everywhere_keptFrom_four e))))

/-- **Regrouping ends on every tree**, and what it leaves alone are the trees without a rotation.
All others become lighter, and after three passes there is nothing left to rotate. -/
theorem regroup_ends (e : Expr) :
    regroupWalk e = some (regroup e) ∧ (regroup e = e ↔ e.RotationFree) ∧
      ((regroup e).rightWeight < e.rightWeight ↔ ¬ e.RotationFree) ∧
      ∃ n ≤ 3, (regroup^[n] e).RotationFree :=
  ⟨(returns e).1, regroup_eq_self_iff, rightWeight_regroup_lt_iff,
    3, Nat.le_refl 3, rotationFree_regroup_regroup_regroup e⟩

/-! ## When one pass is enough -/

/-- How tightly the right edge of a tree holds together: as its loosest operator. -/
def edge : Expr → Nat
  | .arith _ op r => min op.strength (edge r)
  | _ => 4

/-- **Regrouping keeps the loosest operator on the right edge.** -/
theorem edge_regroup (e : Expr) : (regroup e).edge = e.edge := by
  induction e using regroup_induction with
  | rotate l op a op' b hop hl hb ht =>
    rw [regroup_rotate hop, ht, edge, edge, edge, hb]
    omega
  | keep l op r h hl hr => rw [regroup_keep h, edge, edge, hr]
  | _ => simp [edge]

/-- Without rotations, the operators on the right edge become stronger from the root on. -/
theorem RotationFree.tightness_eq_edge {e : Expr} (h : e.RotationFree) : e.tightness = e.edge := by
  induction e with
  | arith l op r hl hr =>
    obtain ⟨hkept, -, hre⟩ := everywhere_arith.1 h
    have hkept : op.strength < r.tightness := hkept
    rw [hr hre] at hkept
    rw [tightness, edge, Nat.min_eq_left (Nat.le_of_lt hkept)]
  | _ => rfl

/-- A right operand that binds more tightly than the operator holds together on its whole edge. -/
def SteadyNode : Expr → Prop
  | .arith _ op r => op.strength < r.tightness → op.strength < r.edge
  | _ => True

instance : DecidablePred SteadyNode
  | .arith .. => inferInstanceAs (Decidable (_ → _))
  | .number _ | .text _ | .var _ | .reference _ | .bracket _ | .minus _ | .compare ..
  | .call .. => .isTrue trivial

/-- One pass is enough for this tree. -/
def Exhausted (e : Expr) : Prop := (regroup e).RotationFree

theorem SteadyNode.of_exhausted {e : Expr} (h : e.Exhausted) : e.SteadyNode := by
  cases e with
  | arith l op r =>
    intro hkept
    rw [Exhausted, regroup_keep (looser?_eq_none_iff.2 hkept)] at h
    obtain ⟨hroot, -, hr⟩ := everywhere_arith.1 h
    have hroot : op.strength < (regroup r).tightness := hroot
    rwa [RotationFree.tightness_eq_edge hr, edge_regroup] at hroot
  | _ => trivial

theorem RotationFree.exhausted {e : Expr} (h : e.RotationFree) : e.Exhausted := by
  rw [Exhausted, regroup_eq_self_iff.2 h]
  exact h

/-- An operator that is kept needs no second pass if its operands need none and the right one is
still tight enough after the first. -/
theorem exhausted_keep {l r : Expr} {op : ArithOp} (hl : l.Exhausted) (hr : r.Exhausted)
    (hkept : op.strength < r.tightness) (h : op.strength < (regroup r).tightness) :
    (arith l op r).Exhausted := by
  rw [Exhausted, regroup_keep (looser?_eq_none_iff.2 hkept)]
  exact .arith hl hr h

theorem exhausted_keep_free {l r : Expr} {op : ArithOp} (hl : l.Exhausted) (hr : r.RotationFree)
    (hkept : op.strength < r.tightness) : (arith l op r).Exhausted :=
  exhausted_keep hl hr.exhausted hkept (by rwa [regroup_eq_self_iff.2 hr])

/-- **One pass is enough for an operator** if it is enough for the left operand, and the right
operand needs none. -/
theorem exhausted_arith {l r : Expr} (op : ArithOp) (hl : l.Exhausted) (hr : r.RotationFree) :
    (arith l op r).Exhausted := by
  induction r with
  | arith a op' b iha _ =>
    obtain ⟨hroot, ha, hb⟩ := everywhere_arith.1 hr
    rcases Nat.lt_or_ge op.strength op'.strength with hlt | hop
    · exact exhausted_keep_free hl hr hlt
    · -- the rotated tree has no rotation left in its operands, and none at its root
      have hleft : (arith l op a).Exhausted := iha ha
      rw [Exhausted, regroup_rotate hop, regroup_eq_self_iff.2 hb]
      exact exhausted_keep_free (RotationFree.exhausted hleft) hb hroot
  | _ =>
    refine exhausted_keep_free hl hr ?_
    exact Nat.lt_succ_of_le (strength_le_three op)

/-- **Two passes are enough for an operator** if one is enough for its left operand and for all
trees in its right operand. -/
theorem exhausted_regroup_arith {l r : Expr} (op : ArithOp) (hl : l.Exhausted)
    (hr : r.Everywhere Exhausted) : (regroup (arith l op r)).Exhausted := by
  have hkeep {r : Expr} (hr : r.Exhausted) (h : looser? op r = none) :
      (regroup (arith l op r)).Exhausted := by
    rw [regroup_keep h]
    exact exhausted_arith op (RotationFree.exhausted hl) hr
  induction r with
  | arith a op' b iha _ =>
    obtain ⟨hroot, ha, hb⟩ := everywhere_arith.1 hr
    rcases Nat.lt_or_ge op.strength op'.strength with hlt | hop
    · exact hkeep hroot (looser?_eq_none_iff.2 hlt)
    · rw [regroup_rotate hop]
      exact RotationFree.exhausted (exhausted_arith op' (iha ha) hb.root)
  | _ => exact hkeep hr.root rfl

theorem everywhere_exhausted {e : Expr} (h : e.Everywhere SteadyNode) :
    e.Everywhere Exhausted := by
  induction e with
  | arith l op r hl hr =>
    obtain ⟨hsteady, hle, hre⟩ := everywhere_arith.1 h
    have hl := hl hle
    have hr := hr hre
    refine everywhere_arith.2 ⟨?_, hl, hr⟩
    cases hlooser : looser? op r with
    | none =>
      have hkept := looser?_eq_none_iff.1 hlooser
      refine exhausted_keep hl.root hr.root hkept ?_
      rw [RotationFree.tightness_eq_edge hr.root, edge_regroup]
      exact hsteady hkept
    | some p =>
      obtain ⟨a, op', b⟩ := p
      obtain ⟨rfl, hop⟩ := looser?_eq_some hlooser
      obtain ⟨-, ha, hb⟩ := everywhere_arith.1 hr
      rw [Exhausted, regroup_rotate hop]
      exact exhausted_arith op' (exhausted_regroup_arith op hl.root ha) hb.root
  | bracket e ih =>
    have he := ih (everywhere_bracket.1 h).2
    refine everywhere_bracket.2 ⟨?_, he⟩
    rw [Exhausted, regroup_bracket]
    exact everywhere_bracket.2 ⟨trivial, he.root⟩
  | minus e ih =>
    have he := ih (everywhere_minus.1 h).2
    refine everywhere_minus.2 ⟨?_, he⟩
    rw [Exhausted, regroup_minus]
    exact everywhere_minus.2 ⟨trivial, he.root⟩
  | compare l op r hl hr =>
    obtain ⟨-, hle, hre⟩ := everywhere_compare.1 h
    refine everywhere_compare.2 ⟨?_, hl hle, hr hre⟩
    rw [Exhausted, regroup_compare]
    exact everywhere_compare.2 ⟨trivial, (hl hle).root, (hr hre).root⟩
  | call name es ih =>
    have hes (e : Expr) (he : e ∈ es) := ih e he ((everywhere_call.1 h).2 e he)
    refine everywhere_call.2 ⟨?_, hes⟩
    rw [Exhausted, regroup_call]
    exact everywhere_call.2 ⟨trivial, List.forall_mem_map.2 fun e he => (hes e he).root⟩
  | _ => simp [Exhausted, RotationFree, KeptNode]

/-- **One pass is enough for a tree and all trees in it**, so that a second one changes nothing,
exactly if all its nodes are steady. -/
theorem regroup_exhaustive_iff (e : Expr) :
    (e.Everywhere fun n => (regroup n).RotationFree ∧ regroup (regroup n) = regroup n) ↔
      e.Everywhere SteadyNode := by
  refine ⟨fun h => h.mono fun n hn => .of_exhausted hn.1, fun h => ?_⟩
  exact (everywhere_exhausted h).mono fun n hn => ⟨hn, regroup_eq_self_iff.2 hn⟩

/-- The power of a difference is looser after the first pass than before it, and the product in
front of it was kept. -/
theorem not_regroup_exhaustive :
    let e : Expr := .arith (.number 1) .mul
      (.arith (.number 2) .pow (.arith (.number 3) .sub (.number 4)))
    ¬ (regroup e).RotationFree ∧ regroup (regroup e) ≠ regroup e := by
  intro e
  have he : regroup e = .arith (.number 1) .mul
      (.arith (.arith (.number 2) .pow (.number 3)) .sub (.number 4)) := by
    simp [e, regroup_arith, looser?, ArithOp.strength]
  have hfree : ¬ (regroup e).RotationFree := by
    rw [he]
    decide
  exact ⟨hfree, mt regroup_eq_self_iff.1 hfree⟩

end Formulary.Expr
