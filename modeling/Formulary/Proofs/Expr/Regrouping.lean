import Formulary.Expr.Regroup
import Formulary.Expr.Text
import Formulary.Proofs.Expr.Items

/-!
# What regrouping does to a tree

`regroup` takes right operands apart and regroups its own results, so its recursion is not that of
the tree. `regroup_induction` is the induction that fits it: what holds of a rotated tree may be
shown from what holds of the three trees that are regrouped on the way.

* `items_regroup` and `write_regroup`: operands, operators and text stay as they are;
* `everywhere_lexical_regroup` and `everywhere_layered_regroup`: so do the names and numbers, and
  what stands where;
* `grouped_regroup`: **one pass is enough** for a tree whose operators have only operators of at
  least their strength below them.
-/

namespace Formulary.Expr

/-! ## Induction along regrouping -/

theorem measure_le_of_mem {e : Expr} {es : List Expr} (h : e ∈ es) :
    e.rightWeight ≤ rightWeightList es ∧ e.size ≤ sizeList es := by
  induction es with
  | nil => cases h
  | cons f es ih =>
    rw [rightWeightList, sizeList]
    rcases List.mem_cons.1 h with rfl | h
    · omega
    · have := ih h
      omega

/-- **Induction along regrouping.** A rotation regroups the left part of the right operand behind
the left one, then what is left of it, and then the tree made of the two results. -/
theorem regroup_induction {motive : Expr → Prop}
    (rotate : ∀ l op a op' b, op'.strength ≤ op.strength → motive (.arith l op a) → motive b →
      motive (.arith (regroup (.arith l op a)) op' (regroup b)) →
      motive (.arith l op (.arith a op' b)))
    (keep : ∀ l op r, looser? op r = none → motive l → motive r → motive (.arith l op r))
    (number : ∀ x, motive (.number x)) (text : ∀ s, motive (.text s))
    (var : ∀ name, motive (.var name)) (reference : ∀ name, motive (.reference name))
    (bracket : ∀ e, motive e → motive (.bracket e)) (minus : ∀ e, motive e → motive (.minus e))
    (compare : ∀ l op r, motive l → motive r → motive (.compare l op r))
    (call : ∀ name es, (∀ e ∈ es, motive e) → motive (.call name es)) (e : Expr) : motive e := by
  have h (w s : Nat) : ∀ e : Expr, e.rightWeight = w → e.size = s → motive e := by
    induction w using Nat.strongRecOn generalizing s with
    | ind w ihw =>
      induction s using Nat.strongRecOn with
      | ind s ihs =>
        intro e hw hs
        -- A tree that weighs less, or that weighs no more and is smaller.
        have ih (f : Expr) (hf : f.rightWeight < w ∨ f.rightWeight ≤ w ∧ f.size < s) :
            motive f := by
          rcases Nat.lt_or_ge f.rightWeight w with hlt | hge
          · exact ihw f.rightWeight hlt f.size f rfl rfl
          · exact ihs f.size (by omega) f (by omega) rfl
        cases e with
        | number x => exact number x
        | text t => exact text t
        | var name => exact var name
        | reference name => exact reference name
        | bracket e =>
          rw [rightWeight] at hw
          rw [size] at hs
          exact bracket e (ih e (by omega))
        | minus e =>
          rw [rightWeight] at hw
          rw [size] at hs
          exact minus e (ih e (by omega))
        | compare l op r =>
          rw [rightWeight] at hw
          rw [size] at hs
          exact compare l op r (ih l (by omega)) (ih r (by omega))
        | call name es =>
          rw [rightWeight] at hw
          rw [size] at hs
          refine call name es fun e he => ih e ?_
          have := measure_le_of_mem he
          omega
        | arith l op r =>
          cases hl : looser? op r with
          | none =>
            rw [rightWeight] at hw
            rw [size] at hs
            exact keep l op r hl (ih l (by omega)) (ih r (by omega))
          | some p =>
            obtain ⟨a, op', b⟩ := p
            obtain ⟨rfl, hop⟩ := looser?_eq_some hl
            have hwl := rightWeight_regroup_le (.arith l op a)
            have hwb := rightWeight_regroup_le b
            have hsb := size_regroup b
            simp only [rightWeight, size] at hw hs hwl
            refine rotate l op a op' b hop (ih _ ?_) (ih b (by omega)) (ih _ ?_)
            · simp only [rightWeight]
              omega
            · simp only [rightWeight]
              omega
  exact h e.rightWeight e.size e rfl rfl

theorem looser?_arith {op op' : ArithOp} {a b : Expr} (h : op'.strength ≤ op.strength) :
    looser? op (.arith a op' b) = some (a, op', b) := by
  rw [looser?, if_pos h]

theorem regroup_rotate {l a b : Expr} {op op' : ArithOp} (h : op'.strength ≤ op.strength) :
    regroup (.arith l op (.arith a op' b)) =
      regroup (.arith (regroup (.arith l op a)) op' (regroup b)) := by
  rw [regroup_arith, looser?_arith h]

theorem regroup_keep {l r : Expr} {op : ArithOp} (h : looser? op r = none) :
    regroup (.arith l op r) = .arith (regroup l) op (regroup r) := by
  rw [regroup_arith, h]

/-- Nothing is taken apart exactly where the right operand binds more tightly. -/
theorem looser?_eq_none_iff {op : ArithOp} {r : Expr} :
    looser? op r = none ↔ op.strength < r.tightness := by
  have := strength_le_three op
  cases r with
  | arith a op' b =>
    rw [looser?, tightness]
    split_ifs with h
    · exact iff_of_false id (Nat.not_lt.2 h)
    · exact iff_of_true rfl (Nat.lt_of_not_le h)
  | _ =>
    simp only [looser?, tightness, true_iff]
    omega

/-! ## What is kept -/

/-- **Regrouping changes no operand and no operator, nor their order.** -/
theorem items_regroup (e : Expr) : (regroup e).items = e.items := by
  induction e using regroup_induction with
  | rotate l op a op' b hop hl hb ht =>
    rw [regroup_rotate hop, ht, items, hl, hb, items, items, items, List.append_assoc]
    rfl
  | keep l op r h hl hr => rw [regroup_keep h, items, hl, hr, items]
  | bracket e ih => rw [regroup_bracket, items, ih, items]
  | minus e ih => rw [regroup_minus, items, ih, items]
  | compare l op r hl hr => rw [regroup_compare, items, hl, hr, items]
  | call name es ih =>
    have hmap : es.map (items ∘ regroup) = es.map items := List.map_congr_left ih
    rw [regroup_call, items, items, itemsList_eq_map, itemsList_eq_map, List.map_map, hmap]
  | _ => simp

theorem writeArguments_map {f : Expr → Expr} {es : List Expr}
    (h : ∀ e ∈ es, ∀ rest, (f e).write rest = e.write rest) (rest : List Char) :
    writeArguments (es.map f) rest = writeArguments es rest := by
  induction es with
  | nil => rfl
  | cons e es ih =>
    have he := h e List.mem_cons_self
    have hes := ih fun e' h' => h e' (List.mem_cons_of_mem _ h')
    cases es with
    | nil => exact he rest
    | cons e' es =>
      rw [List.map_cons] at hes
      rw [List.map_cons, List.map_cons, writeArguments, hes, he, writeArguments]

/-- **Regrouping does not change the text.** -/
theorem write_regroup (e : Expr) (rest : List Char) : (regroup e).write rest = e.write rest := by
  induction e using regroup_induction generalizing rest with
  | rotate l op a op' b hop hl hb ht =>
    rw [regroup_rotate hop, ht, write, hl, hb, ← write_arith_assoc, write]
    rfl
  | keep l op r h hl hr => rw [regroup_keep h, write, hl, hr, write]
  | bracket e ih => rw [regroup_bracket, write, ih, write]
  | minus e ih => rw [regroup_minus, write, ih, write]
  | compare l op r hl hr => rw [regroup_compare, write, hl, hr, write]
  | call name es ih => rw [regroup_call, write, writeArguments_map ih, write]
  | _ => simp

theorem everywhere_lexical_regroup {number : Float → Prop} {e : Expr}
    (h : e.Everywhere (LexicalNode number)) : (regroup e).Everywhere (LexicalNode number) := by
  induction e using regroup_induction with
  | rotate l op a op' b hop hl hb ht =>
    obtain ⟨-, hle, -, hae, hbe⟩ := by simpa only [everywhere_arith] using h
    rw [regroup_rotate hop]
    exact ht (everywhere_arith.2
      ⟨trivial, hl (everywhere_arith.2 ⟨trivial, hle, hae⟩), hb hbe⟩)
  | keep l op r hk hl hr =>
    obtain ⟨-, hle, hre⟩ := everywhere_arith.1 h
    rw [regroup_keep hk]
    exact everywhere_arith.2 ⟨trivial, hl hle, hr hre⟩
  | bracket e ih =>
    rw [regroup_bracket]
    exact everywhere_bracket.2 ⟨trivial, ih (everywhere_bracket.1 h).2⟩
  | minus e ih =>
    rw [regroup_minus]
    exact everywhere_minus.2 ⟨trivial, ih (everywhere_minus.1 h).2⟩
  | compare l op r hl hr =>
    obtain ⟨-, hle, hre⟩ := everywhere_compare.1 h
    rw [regroup_compare]
    exact everywhere_compare.2 ⟨trivial, hl hle, hr hre⟩
  | call name es ih =>
    obtain ⟨hname, hes⟩ := everywhere_call.1 h
    rw [regroup_call]
    exact everywhere_call.2 ⟨hname, List.forall_mem_map.2 fun e he => ih e he (hes e he)⟩
  | _ => simpa using h

/-- An operator stays an operator at the root. -/
theorem regroup_arith_eq (l : Expr) (op : ArithOp) (r : Expr) :
    ∃ l' op' r', regroup (.arith l op r) = .arith l' op' r' := by
  generalize he : Expr.arith l op r = e
  induction e using regroup_induction generalizing l op r with
  | rotate l op a op' b hop hl hb ht =>
    obtain ⟨l', op'', r', h⟩ := ht _ _ _ rfl
    exact ⟨l', op'', r', by rw [regroup_rotate hop, h]⟩
  | keep l op r h => exact ⟨_, _, _, regroup_keep h⟩
  | _ => cases he

theorem binding_regroup_pos {e : Expr} (h : 0 < e.binding) : 0 < (regroup e).binding := by
  cases e with
  | arith l op r =>
    obtain ⟨l', op', r', heq⟩ := regroup_arith_eq l op r
    rw [heq]
    exact strength_pos op'
  | compare l op r => exact absurd h (by simp [binding])
  | _ => simp [binding, tightness]

theorem binding_regroup_of_eq_four {e : Expr} (h : e.binding = 4) : (regroup e).binding = 4 := by
  cases e with
  | arith l op r =>
    have hop : op.strength = 4 := h
    have := strength_le_three op
    omega
  | compare l op r => exact absurd h (by simp [binding])
  | _ => simp [binding, tightness]

theorem everywhere_layered_regroup {e : Expr} (h : e.Everywhere LayeredNode) :
    (regroup e).Everywhere LayeredNode := by
  induction e using regroup_induction with
  | rotate l op a op' b hop hl hb ht =>
    obtain ⟨⟨hlp, -⟩, hle, ⟨hap, hbp⟩, hae, hbe⟩ := by simpa only [everywhere_arith] using h
    rw [regroup_rotate hop]
    obtain ⟨l', op'', r', heq⟩ := regroup_arith_eq l op a
    refine ht (everywhere_arith.2 ⟨⟨?_, binding_regroup_pos hbp⟩, ?_, hb hbe⟩)
    · rw [heq]
      exact strength_pos op''
    · exact hl (everywhere_arith.2 ⟨⟨hlp, hap⟩, hle, hae⟩)
  | keep l op r hk hl hr =>
    obtain ⟨⟨hlp, hrp⟩, hle, hre⟩ := everywhere_arith.1 h
    rw [regroup_keep hk]
    exact everywhere_arith.2
      ⟨⟨binding_regroup_pos hlp, binding_regroup_pos hrp⟩, hl hle, hr hre⟩
  | bracket e ih =>
    rw [regroup_bracket]
    exact everywhere_bracket.2 ⟨trivial, ih (everywhere_bracket.1 h).2⟩
  | minus e ih =>
    obtain ⟨hp, he⟩ := everywhere_minus.1 h
    rw [regroup_minus]
    exact everywhere_minus.2 ⟨binding_regroup_of_eq_four hp, ih he⟩
  | compare l op r hl hr =>
    obtain ⟨⟨hlp, hrp⟩, hle, hre⟩ := everywhere_compare.1 h
    rw [regroup_compare]
    exact everywhere_compare.2
      ⟨⟨binding_regroup_pos hlp, binding_regroup_pos hrp⟩, hl hle, hr hre⟩
  | call name es ih =>
    obtain ⟨-, hes⟩ := everywhere_call.1 h
    rw [regroup_call]
    exact everywhere_call.2 ⟨trivial, List.forall_mem_map.2 fun e he => ih e he (hes e he)⟩
  | _ => simpa using h

/-! ## What is gained -/

/-- **One pass is enough** for a loose tree: the result is grouped to the left, and its root binds
as tightly as before. -/
theorem grouped_regroup {e : Expr} (h : e.Everywhere LooseNode) :
    (regroup e).Everywhere GroupedNode ∧ (regroup e).tightness = e.tightness := by
  induction e using regroup_induction with
  | rotate l op a op' b hop hl hb ht =>
    obtain ⟨⟨hlo, hro⟩, hle, ⟨hao, hbo⟩, hae, hbe⟩ := by simpa only [everywhere_arith] using h
    -- The right operand binds no tighter, and being loose no less tightly either.
    have heq : op.strength = op'.strength := Nat.le_antisymm hro hop
    obtain ⟨hgl, htl⟩ := hl (everywhere_arith.2 ⟨⟨hlo, heq ▸ hao⟩, hle, hae⟩)
    obtain ⟨hgb, htb⟩ := hb hbe
    rw [regroup_rotate hop]
    have hloose : (Expr.arith (regroup (.arith l op a)) op' (regroup b)).Everywhere LooseNode := by
      refine everywhere_arith.2 ⟨⟨?_, ?_⟩, hgl.mono fun n => GroupedNode.loose,
        hgb.mono fun n => GroupedNode.loose⟩
      · rw [htl]
        exact Nat.le_of_eq heq.symm
      · rw [htb]
        exact hbo
    obtain ⟨hg, htt⟩ := ht hloose
    exact ⟨hg, htt.trans heq.symm⟩
  | keep l op r hk hl hr =>
    obtain ⟨⟨hlo, -⟩, hle, hre⟩ := everywhere_arith.1 h
    obtain ⟨hgl, htl⟩ := hl hle
    obtain ⟨hgr, htr⟩ := hr hre
    rw [regroup_keep hk]
    refine ⟨everywhere_arith.2 ⟨⟨?_, ?_⟩, hgl, hgr⟩, rfl⟩
    · rw [htl]
      exact hlo
    · rw [htr]
      exact looser?_eq_none_iff.1 hk
  | bracket e ih =>
    rw [regroup_bracket]
    exact ⟨everywhere_bracket.2 ⟨trivial, (ih (everywhere_bracket.1 h).2).1⟩, rfl⟩
  | minus e ih =>
    rw [regroup_minus]
    exact ⟨everywhere_minus.2 ⟨trivial, (ih (everywhere_minus.1 h).2).1⟩, rfl⟩
  | compare l op r hl hr =>
    obtain ⟨-, hle, hre⟩ := everywhere_compare.1 h
    rw [regroup_compare]
    exact ⟨everywhere_compare.2 ⟨trivial, (hl hle).1, (hr hre).1⟩, rfl⟩
  | call name es ih =>
    obtain ⟨-, hes⟩ := everywhere_call.1 h
    rw [regroup_call]
    exact ⟨everywhere_call.2
      ⟨trivial, List.forall_mem_map.2 fun e he => (ih e he (hes e he)).1⟩, rfl⟩
  | _ => simp [GroupedNode]

end Formulary.Expr
