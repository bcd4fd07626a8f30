import Formulary.Proofs.Expr.Nodes

/-!
# What a formula says, and in which order

The text of arithmetic does not show how it is grouped. `items` is a tree without this grouping: the
operands and operators of each chain in reading order, and each operand with the items inside it.

**Theorem (`eq_of_items_eq`).** A tree that is grouped to the left is known by its items.

An operator at the root of such a tree is the last one of the least strength: all operators to its
left are at least as strong and all to its right are stronger (`strength_of_mem_items`). Two trees
with the same items therefore have the same root and split at the same place.
-/

namespace Formulary

/-- An operator, or an operand with what stands inside it. -/
inductive Item where
  | number (value : Float)
  | text (value : String)
  | var (name : String)
  | reference (name : String)
  | op (op : ArithOp)
  | bracket (inner : List Item)
  | minus (operand : List Item)
  | compare (left : List Item) (op : CompareOp) (right : List Item)
  | call (name : String) (arguments : List (List Item))

namespace Expr

mutual

/-- The operands and operators of a tree in reading order. -/
def items : Expr → List Item
  | .number x => [.number x]
  | .text s => [.text s]
  | .var name => [.var name]
  | .reference name => [.reference name]
  | .bracket e => [.bracket (items e)]
  | .minus e => [.minus (items e)]
  | .arith l op r => items l ++ .op op :: items r
  | .compare l op r => [.compare (items l) op (items r)]
  | .call name es => [.call name (itemsList es)]

def itemsList : List Expr → List (List Item)
  | [] => []
  | e :: es => items e :: itemsList es

end

theorem itemsList_eq_map (es : List Expr) : itemsList es = es.map items := by
  induction es with
  | nil => rfl
  | cons e es ih => rw [itemsList, ih, List.map_cons]

theorem items_ne_nil (e : Expr) : e.items ≠ [] := by
  cases e <;> simp [items]

/-! ## Where the root operator stands -/

/-- All operators of a grouped tree are at least as strong as its root. -/
theorem strength_of_mem_items {e : Expr} (he : e.Everywhere GroupedNode) {op : ArithOp}
    (h : .op op ∈ e.items) : e.tightness ≤ op.strength := by
  induction e with
  | arith l op' r hl hr =>
    obtain ⟨⟨hlo, hro⟩, hle, hre⟩ := everywhere_arith.1 he
    rw [items, List.mem_append, List.mem_cons] at h
    rcases h with h | h | h
    · exact Nat.le_trans hlo (hl hle h)
    · cases h
      exact Nat.le_refl _
    · exact Nat.le_trans (Nat.le_of_lt hro) (hr hre h)
  | _ => simp [items] at h

/-- An operator that is the last one of the least strength in a list can be found in it. -/
theorem append_op_inj {A A' B B' : List Item} {op op' : ArithOp}
    (h : A ++ .op op :: B = A' ++ .op op' :: B')
    (hA : ∀ p, .op p ∈ A → op.strength ≤ p.strength)
    (hB : ∀ p, .op p ∈ B → op.strength < p.strength)
    (hA' : ∀ p, .op p ∈ A' → op'.strength ≤ p.strength)
    (hB' : ∀ p, .op p ∈ B' → op'.strength < p.strength) : A = A' ∧ op = op' ∧ B = B' := by
  rcases List.append_eq_append_iff.1 h with ⟨C, rfl, hC⟩ | ⟨C, rfl, hC⟩
  · cases C with
    | nil =>
      cases hC
      exact ⟨(List.append_nil A).symm, rfl, rfl⟩
    | cons c C =>
      -- The second operator stands behind the first one, so it is stronger; and the first one
      -- stands before it, so it is no weaker.
      cases hC
      have h₁ := hB op' (List.mem_append_right C List.mem_cons_self)
      have h₂ := hA' op (List.mem_append_right A List.mem_cons_self)
      omega
  · cases C with
    | nil =>
      cases hC
      exact ⟨List.append_nil A', rfl, rfl⟩
    | cons c C =>
      cases hC
      have h₁ := hB' op (List.mem_append_right C List.mem_cons_self)
      have h₂ := hA op' (List.mem_append_right A' List.mem_cons_self)
      omega

/-- What is no operator is one item, and that item is no operator. -/
theorem items_arith_ne {l r f : Expr} {op : ArithOp} (hf : ∀ l op r, f ≠ arith l op r) :
    (arith l op r).items ≠ f.items := by
  intro h
  have hlen := congrArg List.length h
  have hl := List.length_pos_iff.2 (items_ne_nil l)
  have hr := List.length_pos_iff.2 (items_ne_nil r)
  rw [items, List.length_append, List.length_cons] at hlen
  cases f with
  | arith l op r => exact hf l op r rfl
  | _ =>
    simp only [items, List.length_cons, List.length_nil] at hlen
    omega

/-! ## Grouped trees are known by their items -/

theorem eq_of_map_items_eq {es fs : List Expr} (h : es.map items = fs.map items)
    (ih : ∀ e ∈ es, ∀ f ∈ fs, e.items = f.items → e = f) : es = fs := by
  induction es generalizing fs with
  | nil => exact (List.map_eq_nil_iff.1 h.symm).symm
  | cons e es ihs =>
    cases fs with
    | nil => cases h
    | cons f fs =>
      obtain ⟨hh, ht⟩ := List.cons.inj h
      have he := ih e List.mem_cons_self f List.mem_cons_self hh
      have hes := ihs ht fun e he f hf =>
        ih e (List.mem_cons_of_mem _ he) f (List.mem_cons_of_mem _ hf)
      rw [he, hes]

/-- **A grouped tree is known by its items.** -/
theorem eq_of_items_eq {e f : Expr} (he : e.Everywhere GroupedNode)
    (hf : f.Everywhere GroupedNode) (h : e.items = f.items) : e = f := by
  induction e generalizing f with
  | arith l op r hl hr =>
    cases f with
    | arith l' op' r' =>
      obtain ⟨⟨hlo, hro⟩, hle, hre⟩ := everywhere_arith.1 he
      obtain ⟨⟨hlo', hro'⟩, hle', hre'⟩ := everywhere_arith.1 hf
      obtain ⟨hli, rfl, hri⟩ := append_op_inj h
        (fun p hp => Nat.le_trans hlo (strength_of_mem_items hle hp))
        (fun p hp => Nat.lt_of_lt_of_le hro (strength_of_mem_items hre hp))
        (fun p hp => Nat.le_trans hlo' (strength_of_mem_items hle' hp))
        (fun p hp => Nat.lt_of_lt_of_le hro' (strength_of_mem_items hre' hp))
      rw [hl hle hle' hli, hr hre hre' hri]
    | _ => exact absurd h (items_arith_ne fun l op r => nofun)
  | bracket e ih =>
    cases f with
    | arith l op r => exact absurd h.symm (items_arith_ne fun l op r => nofun)
    | bracket f =>
      simp only [items, List.cons.injEq, Item.bracket.injEq, and_true] at h
      rw [ih (everywhere_bracket.1 he).2 (everywhere_bracket.1 hf).2 h]
    | _ => simp [items] at h
  | minus e ih =>
    cases f with
    | arith l op r => exact absurd h.symm (items_arith_ne fun l op r => nofun)
    | minus f =>
      simp only [items, List.cons.injEq, Item.minus.injEq, and_true] at h
      rw [ih (everywhere_minus.1 he).2 (everywhere_minus.1 hf).2 h]
    | _ => simp [items] at h
  | compare l op r hl hr =>
    cases f with
    | arith l op r => exact absurd h.symm (items_arith_ne fun l op r => nofun)
    | compare l' op' r' =>
      obtain ⟨-, hle, hre⟩ := everywhere_compare.1 he
      obtain ⟨-, hle', hre'⟩ := everywhere_compare.1 hf
      simp only [items, List.cons.injEq, Item.compare.injEq, and_true] at h
      obtain ⟨hli, rfl, hri⟩ := h
      rw [hl hle hle' hli, hr hre hre' hri]
    | _ => simp [items] at h
  | call name es ih =>
    cases f with
    | arith l op r => exact absurd h.symm (items_arith_ne fun l op r => nofun)
    | call name' fs =>
      obtain ⟨-, hes⟩ := everywhere_call.1 he
      obtain ⟨-, hfs⟩ := everywhere_call.1 hf
      simp only [items, itemsList_eq_map, List.cons.injEq, Item.call.injEq, and_true] at h
      obtain ⟨rfl, hmap⟩ := h
      rw [eq_of_map_items_eq hmap fun e he f hf => ih e he (hes e he) (hfs f hf)]
    | _ => simp [items] at h
  | _ =>
    cases f with
    | arith l op r => exact absurd h.symm (items_arith_ne fun l op r => nofun)
    | _ => simp_all [items]

end Expr

end Formulary
