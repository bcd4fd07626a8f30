import Formulary.Function
import Formulary.Proofs.Number.Rounding

/-!
# What a sum depends on

**A sum depends only on the numbers in its arguments, in their order** (`Function.sum_numbers`):
not on the sequences that they lie in, and not on what else lies there. Of integers alone, even
the order does not matter, as they are added exactly and only their total is rounded; that the sum
of some of them is too large for a double is not noticed.

Arguments are searched to any depth. That nothing is lost or repeated on the way is a matter of
*places*: a place is the list of the indices on the way down to a value. From left to right, the
places of the values that are no sequences go up (`pairwise_places`), and flattening gives what lies
at them (`listsLeaves_flattenList`).
-/

namespace Formulary

/-! ## Places -/

namespace Value

variable {v w : Value} {vs : List Value} {p : List Nat}

/-- The value at a place. -/
def at? : Value → List Nat → Option Value
  | v, [] => some v
  | .sequence vs, i :: p => vs[i]?.bind fun v => v.at? p
  | _, _ :: _ => none

mutual

/-- The places of the values in a value that are no sequences, from left to right. -/
def places : Value → List (List Nat)
  | .sequence vs => placesFrom 0 vs
  | _ => [[]]

/-- The places in values that are in a sequence from index `i` on. -/
def placesFrom (i : Nat) : List Value → List (List Nat)
  | [] => []
  | v :: vs => v.places.map (i :: ·) ++ placesFrom (i + 1) vs

end

theorem places_leaf (h : v.type ≠ .sequence) : v.places = [[]] := by
  cases v with
  | sequence vs => exact absurd rfl h
  | _ => rfl

theorem flatten_leaf (h : v.type ≠ .sequence) : v.flatten = [v] := by
  cases v with
  | sequence vs => exact absurd rfl h
  | _ => rfl

theorem mem_placesFrom {i : Nat} :
    p ∈ placesFrom i vs ↔ ∃ j v q, vs[j]? = some v ∧ q ∈ v.places ∧ p = (i + j) :: q := by
  induction vs generalizing i with
  | nil => simp [placesFrom]
  | cons v vs ih =>
    rw [placesFrom, List.mem_append, ih, List.mem_map]
    constructor
    · rintro (⟨q, hq, rfl⟩ | ⟨j, w, q, hw, hq, rfl⟩)
      · exact ⟨0, v, q, rfl, hq, rfl⟩
      · refine ⟨j + 1, w, q, hw, hq, ?_⟩
        rw [Nat.add_right_comm, Nat.add_assoc]
    · rintro ⟨_ | j, w, q, hw, hq, rfl⟩
      · cases hw
        exact .inl ⟨q, hq, rfl⟩
      · refine .inr ⟨j, w, q, hw, hq, ?_⟩
        rw [Nat.add_right_comm, Nat.add_assoc]

/-- The places are all those where something lies that is no sequence. -/
theorem mem_places : p ∈ v.places ↔ ∃ w, v.at? p = some w ∧ w.type ≠ .sequence := by
  induction p generalizing v with
  | nil =>
    cases v with
    | sequence vs => simp [places, mem_placesFrom, at?, type]
    | _ => simp [places, at?, type]
  | cons i p ih =>
    cases v with
    | sequence vs => cases h : vs[i]? <;> simp [places, mem_placesFrom, at?, ih, h]
    | _ => simp [places, at?]

/-- From left to right, places go up. -/
theorem pairwise_places (v : Value) : v.places.Pairwise (· < ·) := by
  induction v with
  | leaf v h => rw [places_leaf h]; exact List.pairwise_singleton _ _
  | sequence vs ih =>
    rw [places]
    generalize 0 = i
    induction vs generalizing i with
    | nil => exact .nil
    | cons v vs ih' =>
      rw [placesFrom, List.pairwise_append]
      obtain ⟨hv, hvs⟩ := List.forall_mem_cons.1 ih
      refine ⟨?_, ih' hvs (i + 1), ?_⟩
      · rw [List.pairwise_map]
        exact hv.imp fun h => List.cons_lt_cons_iff.2 (.inr ⟨rfl, h⟩)
      · intro p hp q hq
        obtain ⟨p, -, rfl⟩ := List.mem_map.1 hp
        obtain ⟨j, w, q, -, -, rfl⟩ := mem_placesFrom.1 hq
        exact List.cons_lt_cons_iff.2 (.inl (by omega))

/-- Flattening gives the values at all places, in order. -/
theorem map_at?_places (v : Value) : v.places.map v.at? = v.flatten.map some := by
  induction v with
  | leaf v h => rw [places_leaf h, flatten_leaf h]; rfl
  | sequence vs ih =>
    suffices h : ∀ us, (placesFrom us.length vs).map (sequence (us ++ vs)).at? =
        (flattenList vs).map some from h []
    induction vs with
    | nil => intro us; rfl
    | cons v vs ih' =>
      obtain ⟨hv, hvs⟩ := List.forall_mem_cons.1 ih
      intro us
      have hrest := ih' hvs (us ++ [v])
      rw [List.length_append, List.append_assoc] at hrest
      rw [placesFrom, List.map_append, flattenList, List.map_append, List.map_map, ← hv]
      congr 1
      refine List.map_congr_left fun p _ => ?_
      show (((us ++ v :: vs)[us.length]?).bind fun v => v.at? p) = v.at? p
      simp

/-- The values are the leaves of these arguments: what lies at all places where there is no
sequence, from left to right. -/
def ListsLeaves (vs leaves : List Value) : Prop :=
  ∃ ps : List (List Nat), ps.Pairwise (· < ·) ∧
    (∀ p, p ∈ ps ↔ ∃ w, (sequence vs).at? p = some w ∧ w.type ≠ .sequence) ∧
    ps.map (sequence vs).at? = leaves.map some

/-- **Flattening lists the leaves**, from left to right, and none is lost or repeated. -/
theorem listsLeaves_flattenList (vs : List Value) : ListsLeaves vs (flattenList vs) :=
  ⟨(sequence vs).places, pairwise_places _, fun _ => mem_places, map_at?_places (sequence vs)⟩

/-- The numbers among the leaves of arguments. -/
def numbers (vs : List Value) : List Number := (flattenList vs).filterMap number?

end Value

/-! ## Sums -/

namespace Number

theorem foldlM_add_integer (is : List Int) (i : Int) :
    (is.map integer).foldlM add (integer i) = .ok (integer (i + is.sum)) := by
  induction is generalizing i with
  | nil => simp [pure, Except.pure]
  | cons j is ih =>
    rw [List.map_cons, List.foldlM_cons, List.sum_cons, ← Int.add_assoc]
    exact ih (i + j)

/-- Integers are added exactly, and their total is rounded. -/
theorem sum_integers (is : List Int) : sum (is.map integer) = (integer is.sum).toFloat := by
  rw [sum, foldlM_add_integer, Int.zero_add]
  rfl

end Number

namespace Function

open Value

variable {vs ws : List Value} {is js : List Int}

theorem sum_eq (vs : List Value) : sum vs = (Number.sum (numbers vs)).map .ofFloat := rfl

/-- Only the numbers in arguments count. -/
theorem sum_congr (h : numbers ws = numbers vs) : sum ws = sum vs := by
  rw [sum_eq, sum_eq, h]

theorem sum_of_integers (h : numbers vs = is.map .integer) :
    sum vs = (Number.integer is.sum).toFloat.map .ofFloat := by
  rw [sum_eq, h, Number.sum_integers]

/-- **A sum depends only on the numbers in its arguments, in their order.** If they are integers,
it is the double nearest to their exact total, in whatever order they come, unless the total is
too large. -/
theorem sum_numbers (vs : List Value) :
    ListsLeaves vs (flattenList vs) ∧
    (∀ ws, numbers ws = numbers vs → sum ws = sum vs) ∧
    ∀ is : List Int, numbers vs = is.map .integer →
      ((Binary64.TooLarge is.sum ∧ sum vs = .error .integerTooLarge) ∨
        ¬ Binary64.TooLarge is.sum ∧
          ∃ x, sum vs = .ok (.ofFloat x) ∧ Binary64.IsNearest is.sum x) ∧
      ∀ ws (js : List Int), numbers ws = js.map .integer → js.Perm is → sum ws = sum vs := by
  refine ⟨listsLeaves_flattenList vs, fun ws => sum_congr, fun is h => ⟨?_, ?_⟩⟩
  · rw [sum_of_integers h]
    rcases Number.toFloat_integer is.sum with ⟨hlarge, herror⟩ | ⟨hlarge, x, hx, hnearest⟩
    · exact .inl ⟨hlarge, by rw [herror]; rfl⟩
    · exact .inr ⟨hlarge, x, by rw [hx]; rfl, hnearest⟩
  · intro ws js hws hperm
    rw [sum_of_integers h, sum_of_integers hws, hperm.sum_eq]

/-- A total may be small though a number in it is not. -/
theorem sum_numbers_large :
    ∃ x, sum [.text "a", .sequence [.number (.integer (10 ^ 400)), .boolean true],
        .sequence [.empty, .sequence [.number (.integer 3)], .number (.integer (-10 ^ 400))]] =
      .ok (.ofFloat x) ∧ Binary64.IsNearest 3 x := by
  have htotal : [10 ^ 400, 3, -10 ^ 400].sum = (3 : Int) := by
    rw [List.sum_cons, List.sum_cons, List.sum_singleton]
    generalize (10 : Int) ^ 400 = n
    omega
  have hsmall : ¬ Binary64.TooLarge 3 := by
    rw [Binary64.TooLarge]
    decide +kernel
  have h {vs : List Value} (hvs : numbers vs = [10 ^ 400, 3, -10 ^ 400].map .integer) :
      ∃ x, sum vs = .ok (.ofFloat x) ∧ Binary64.IsNearest 3 x := by
    have hsum := ((sum_numbers vs).2.2 _ hvs).1
    rw [htotal] at hsum
    exact (hsum.resolve_left fun h => hsmall h.1).2
  exact h rfl

end Function

end Formulary
