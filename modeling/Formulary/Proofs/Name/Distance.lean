import Formulary.Name.Subsequence
import Mathlib.Data.List.Basic

/-!
# How far two names are apart

Two lists are `n` edits apart if `n` elements have to be inserted or deleted to get from one to the
other, and no fewer do (`Distance`). What is not touched on the way is a common subsequence, so that
the distance is told by a longest one.

* **What is computed row by row is the length of a longest common subsequence**
  (`longestCommon_commonLength`): a common subsequence has this length, and none is longer.
* **The elements outside of a longest common subsequence are the ones to edit**
  (`LongestCommon.distance`): all of the first list are deleted and all of the second inserted, and
  `n` edits leave enough of both lists to show that there is no shorter way (`Edits.common`).
-/

namespace Formulary

/-! ## Common subsequences -/

section

variable {α : Type} {x y : α} {xs ys : List α} {m n : Nat}

/-- A common subsequence has this length, and none is longer. -/
structure LongestCommon (xs ys : List α) (n : Nat) : Prop where
  attained : ∃ zs : List α, zs.Sublist xs ∧ zs.Sublist ys ∧ zs.length = n
  longest : ∀ zs : List α, zs.Sublist xs → zs.Sublist ys → zs.length ≤ n

theorem LongestCommon.unique (h : LongestCommon xs ys m) (h' : LongestCommon xs ys n) : m = n := by
  obtain ⟨zs, hx, hy, rfl⟩ := h.attained
  obtain ⟨ws, hx', hy', rfl⟩ := h'.attained
  exact Nat.le_antisymm (h'.longest zs hx hy) (h.longest ws hx' hy')

theorem longestCommon_nil_left (ys : List α) : LongestCommon [] ys 0 := by
  refine ⟨⟨[], List.nil_sublist _, List.nil_sublist _, rfl⟩, fun zs hx _ => ?_⟩
  rw [List.sublist_nil.1 hx]
  exact Nat.le_refl 0

theorem LongestCommon.symm (h : LongestCommon xs ys n) : LongestCommon ys xs n := by
  obtain ⟨zs, hx, hy, hlen⟩ := h.attained
  exact ⟨⟨zs, hy, hx, hlen⟩, fun zs hy hx => h.longest zs hx hy⟩

/-- Equal heads are worth taking. -/
theorem LongestCommon.cons_same (h : LongestCommon xs ys n) :
    LongestCommon (x :: xs) (x :: ys) (n + 1) := by
  obtain ⟨zs, hx, hy, hlen⟩ := h.attained
  refine ⟨⟨x :: zs, hx.cons_cons x, hy.cons_cons x, by rw [List.length_cons, hlen]⟩, ?_⟩
  intro zs hx hy
  have htail := h.longest zs.tail hx.tail hy.tail
  rw [List.length_tail] at htail
  omega

/-- Of two different heads, a common subsequence leaves one out. -/
theorem LongestCommon.cons_ne (hne : x ≠ y) (hl : LongestCommon xs (y :: ys) m)
    (hr : LongestCommon (x :: xs) ys n) : LongestCommon (x :: xs) (y :: ys) (max m n) := by
  constructor
  · rcases Nat.le_total m n with hle | hle
    · obtain ⟨zs, hx, hy, hlen⟩ := hr.attained
      exact ⟨zs, hx, hy.cons y, by rw [hlen, Nat.max_eq_right hle]⟩
    · obtain ⟨zs, hx, hy, hlen⟩ := hl.attained
      exact ⟨zs, hx.cons x, hy, by rw [hlen, Nat.max_eq_left hle]⟩
  · intro zs hx hy
    rcases List.sublist_cons_iff.1 hx with hx' | ⟨zs', rfl, -⟩
    · exact Nat.le_trans (hl.longest zs hx' hy) (Nat.le_max_left m n)
    · rcases List.sublist_cons_iff.1 hy with hy' | ⟨_, heq, -⟩
      · exact Nat.le_trans (hr.longest _ hx hy') (Nat.le_max_right m n)
      · exact absurd (List.cons.inj heq).1 hne

end

section

variable {α : Type} [DecidableEq α]

/-- A row holds the row of each suffix. -/
theorem tail_commonLengths (xs : List α) (y : α) (ys : List α) :
    (commonLengths xs (y :: ys)).tail = commonLengths xs ys := by
  induction xs with
  | nil => rfl
  | cons x xs ih =>
    show commonRow x ys (commonLengths xs (y :: ys)).tail = _
    rw [ih]
    rfl

theorem commonLength_nil_right (xs : List α) : commonLength xs ([] : List α) = 0 := by
  cases xs <;> rfl

theorem commonLength_cons_cons (x y : α) (xs ys : List α) :
    commonLength (x :: xs) (y :: ys) =
      if x = y then commonLength xs ys + 1
      else max (commonLength xs (y :: ys)) (commonLength (x :: xs) ys) := by
  have htail := tail_commonLengths xs y ys
  unfold commonLength
  rw [← htail, ← tail_commonLengths (x :: xs) y ys]
  rfl

/-- **The rows compute the length of a longest common subsequence.** -/
theorem longestCommon_commonLength (xs ys : List α) :
    LongestCommon xs ys (commonLength xs ys) := by
  induction xs generalizing ys with
  | nil => exact longestCommon_nil_left ys
  | cons x xs ihx =>
    induction ys with
    | nil =>
      rw [commonLength_nil_right]
      exact (longestCommon_nil_left _).symm
    | cons y ys ihy =>
      rw [commonLength_cons_cons]
      split
      next h =>
        subst h
        exact (ihx ys).cons_same
      next h => exact .cons_ne h (ihx (y :: ys)) ihy

end

/-! ## Edits -/

section

variable {α : Type} {xs ys zs : List α} {m n : Nat}

/-- An element is inserted or deleted somewhere. -/
inductive Edit : List α → List α → Prop
  | insert (xs : List α) (x : α) (ys : List α) : Edit (xs ++ ys) (xs ++ x :: ys)
  | delete (xs : List α) (x : α) (ys : List α) : Edit (xs ++ x :: ys) (xs ++ ys)

/-- Several edits, one after the other. -/
inductive Edits : Nat → List α → List α → Prop
  | refl (xs : List α) : Edits 0 xs xs
  | step {n : Nat} {xs ys zs : List α} : Edit xs ys → Edits n ys zs → Edits (n + 1) xs zs

/-- So many edits lead from one list to the other, and no fewer do. -/
structure Distance (xs ys : List α) (n : Nat) : Prop where
  attained : Edits n xs ys
  least : ∀ k, Edits k xs ys → n ≤ k

theorem Distance.unique (h : Distance xs ys m) (h' : Distance xs ys n) : m = n :=
  Nat.le_antisymm (h.least n h'.attained) (h'.least m h.attained)

theorem Edit.cons (x : α) (h : Edit xs ys) : Edit (x :: xs) (x :: ys) := by
  cases h with
  | insert xs y ys => exact .insert (x :: xs) y ys
  | delete xs y ys => exact .delete (x :: xs) y ys

theorem Edits.cons (x : α) (h : Edits n xs ys) : Edits n (x :: xs) (x :: ys) := by
  induction h with
  | refl xs => exact .refl _
  | step h _ ih => exact .step (h.cons x) ih

theorem Edits.trans (h : Edits m xs ys) (h' : Edits n ys zs) : Edits (m + n) xs zs := by
  induction h with
  | refl xs => rwa [Nat.zero_add]
  | step h _ ih =>
    rw [Nat.succ_add_eq_add_succ]
    exact .step h (ih h')

/-- A subsequence is reached by deleting the rest. -/
theorem edits_sublist (h : zs.Sublist xs) : Edits (xs.length - zs.length) xs zs := by
  induction h with
  | slnil => exact .refl []
  | @cons zs xs x h ih =>
    have hlen : (x :: xs).length - zs.length = xs.length - zs.length + 1 := by
      have := h.length_le
      rw [List.length_cons]
      omega
    rw [hlen]
    exact .step (.delete [] x xs) ih
  | @cons_cons zs xs x h ih =>
    rw [List.length_cons, List.length_cons, Nat.add_sub_add_right]
    exact ih.cons x

/-- From a subsequence, the list is reached by inserting the rest. -/
theorem edits_of_sublist (h : zs.Sublist ys) : Edits (ys.length - zs.length) zs ys := by
  induction h with
  | slnil => exact .refl []
  | @cons zs ys y h ih =>
    have hlen : (y :: ys).length - zs.length = ys.length - zs.length + 1 := by
      have := h.length_le
      rw [List.length_cons]
      omega
    rw [hlen]
    exact ih.trans (.step (.insert [] y ys) (.refl _))
  | @cons_cons zs ys y h ih =>
    rw [List.length_cons, List.length_cons, Nat.add_sub_add_right]
    exact ih.cons y

/-- Without one element of the list, a subsequence loses one element at most. -/
theorem exists_sublist_of_insert {x : α} (h : zs.Sublist (xs ++ x :: ys)) :
    ∃ ws : List α, ws.Sublist zs ∧ ws.Sublist (xs ++ ys) ∧ zs.length ≤ ws.length + 1 := by
  obtain ⟨us, vs, rfl, hu, hv⟩ := List.sublist_append_iff.1 h
  rcases List.sublist_cons_iff.1 hv with hv' | ⟨vs', rfl, hv'⟩
  · exact ⟨us ++ vs, .refl _, hu.append hv', Nat.le_succ _⟩
  · refine ⟨us ++ vs', (List.sublist_cons_self x vs').append_left us, hu.append hv', ?_⟩
    simp only [List.length_append, List.length_cons]
    omega

/-- **Edits leave a common subsequence**: each touches one element of one of the lists. -/
theorem Edits.common (h : Edits n xs ys) : ∃ zs : List α, zs.Sublist xs ∧ zs.Sublist ys ∧
    xs.length + ys.length ≤ 2 * zs.length + n := by
  induction h with
  | refl xs => exact ⟨xs, .refl xs, .refl xs, by omega⟩
  | @step n _ _ ys h _ ih =>
    obtain ⟨zs, hx, hy, hlen⟩ := ih
    cases h with
    | insert us x vs =>
      obtain ⟨ws, hz, hw, hlen'⟩ := exists_sublist_of_insert hx
      refine ⟨ws, hw, hz.trans hy, ?_⟩
      simp only [List.length_append, List.length_cons] at hlen ⊢
      omega
    | delete us x vs =>
      refine ⟨zs, hx.trans ((List.sublist_cons_self x vs).append_left us), hy, ?_⟩
      simp only [List.length_append, List.length_cons] at hlen ⊢
      omega

/-- **What is outside of a longest common subsequence has to be edited, and nothing else.** -/
theorem LongestCommon.distance (h : LongestCommon xs ys n) :
    Distance xs ys (xs.length + ys.length - 2 * n) := by
  constructor
  · obtain ⟨zs, hx, hy, rfl⟩ := h.attained
    have hlen : xs.length + ys.length - 2 * zs.length =
        (xs.length - zs.length) + (ys.length - zs.length) := by
      have := hx.length_le
      have := hy.length_le
      omega
    rw [hlen]
    exact (edits_sublist hx).trans (edits_of_sublist hy)
  · intro k hk
    obtain ⟨zs, hx, hy, hlen⟩ := hk.common
    have := h.longest zs hx hy
    omega

end

end Formulary
