import Formulary.Proofs.Number.Rounding
import Formulary.Value.Comparison

/-!
# The comparisons are one family

The six comparisons of two values look at their types in different orders, and `<>` goes its own
way where types differ. Yet **they are six views of one relation** (`compare_family`): they are
empty, refused or too large together, and where they answer, the answers fit each other as those
of an order do, also when the operands are exchanged. A refusal shows both values; where one of
them cannot be shown, that is the error instead (`compare_family_hidden`).

Values that compare are related by one `Ordering` (`Value.Ordered`), from which every answer is
read off: numbers by the exact values of their doubles (`order_eq_compare_value`), texts by code
points, booleans with false first. Each of these is a linear order. A NaN has no ordering with
anything.
-/

namespace Formulary

/-! ## Answers -/

namespace CompareOp

/-- The comparison that says the same with its operands exchanged. -/
def swap : CompareOp → CompareOp
  | gt => lt
  | ge => le
  | eq => eq
  | lt => gt
  | le => ge
  | ne => ne

theorem holds_swap (op : CompareOp) (o : Option Ordering) :
    op.swap.holds (o.map .swap) = op.holds o := by
  rcases o with _ | _ | _ | _ <;> cases op <;> rfl

/-- Of what has no ordering, only `<>` holds. -/
theorem holds_none (op : CompareOp) : op.holds none = decide (op = .ne) := by
  cases op <;> rfl

/-- The answers of all comparisons, and those for exchanged operands, are the answers of one
order, or of two things that are only different. -/
structure Coherent (answer exchanged : CompareOp → Bool) (unordered : Prop) : Prop where
  gt_eq : answer .gt = exchanged .lt
  ge_eq : answer .ge = exchanged .le
  ne_eq : answer .ne = !answer .eq
  exactlyOne : ¬ unordered → [answer .lt, answer .eq, answer .gt].count true = 1
  le_eq_or : ¬ unordered → answer .le = (answer .lt || answer .eq)
  ge_eq_or : ¬ unordered → answer .ge = (answer .gt || answer .eq)
  of_unordered : unordered → ∀ op, answer op = decide (op = .ne)

theorem coherent_holds (o : Option Ordering) :
    Coherent (fun op => op.holds o) (fun op => op.holds (o.map .swap)) (o = none) where
  gt_eq := (holds_swap .gt o).symm
  ge_eq := (holds_swap .ge o).symm
  ne_eq := rfl
  exactlyOne h := by
    obtain ⟨o, rfl⟩ := Option.ne_none_iff_exists'.1 h
    cases o <;> rfl
  le_eq_or _ := rfl
  ge_eq_or _ := rfl
  of_unordered h op := by rw [h, holds_none]

section

variable {α : Type} [LinearOrder α] {x y z : α}

theorem holds_lt_compare : lt.holds (some (compare x y)) = true ↔ x < y := by
  rw [← compare_lt_iff_lt]
  cases compare x y <;> decide

theorem holds_le_compare : le.holds (some (compare x y)) = true ↔ x ≤ y := by
  rw [← compare_le_iff_le]
  cases compare x y <;> decide

theorem holds_compare_trans {op : CompareOp} (hop : op = lt ∨ op = le)
    (h : op.holds (some (compare x y)) = true) (h' : op.holds (some (compare y z)) = true) :
    op.holds (some (compare x z)) = true := by
  rcases hop with rfl | rfl
  · rw [holds_lt_compare] at h h' ⊢
    exact h.trans h'
  · rw [holds_le_compare] at h h' ⊢
    exact h.trans h'

end

end CompareOp

/-! ## Doubles -/

namespace Binary64

variable {i : Int} {x y z : Float}

theorem IsNearest.isNaN_eq (h : IsNearest i x) : isNaN x = false := by
  have hfinite : rank x < infinity := h.isFinite
  rw [isNaN, decide_eq_false_iff_not]
  omega

/-- **Doubles compare as their exact values**, unless one is no number. -/
theorem order_eq_compare_value (x y : Float) :
    order x y = if isNaN x || isNaN y then none else some (compare (value x) (value y)) := by
  have h : compare (signedRank x) (signedRank y) = compare (value x) (value y) := by
    rcases lt_trichotomy (signedRank x) (signedRank y) with hlt | heq | hgt
    · rw [compare_lt_iff_lt.2 hlt, compare_lt_iff_lt.2 (value_lt_value_iff.2 hlt)]
    · have hx := value_lt_value_iff (x := x) (y := y)
      have hy := value_lt_value_iff (x := y) (y := x)
      rw [compare_eq_iff_eq.2 heq, compare_eq_iff_eq.2 (by omega)]
    · rw [compare_gt_iff_gt.2 hgt, compare_gt_iff_gt.2 (value_lt_value_iff.2 hgt)]
  rw [order, h]

theorem order_swap (x y : Float) : order y x = (order x y).map .swap := by
  rw [order, order, Bool.or_comm]
  split
  · rfl
  · rw [Option.map_some, ← Std.OrientedOrd.eq_swap]

theorem order_eq_none_iff : order x y = none ↔ isNaN x = true ∨ isNaN y = true := by
  rw [order, ← Bool.or_eq_true]
  split <;> simp [*]

theorem holds_order_trans {op : CompareOp} (hop : op = .lt ∨ op = .le)
    (h : op.holds (order x y) = true) (h' : op.holds (order y z) = true) :
    op.holds (order x z) = true := by
  have hordered {x y : Float} (h : op.holds (order x y) = true) :
      ¬ (isNaN x = true ∨ isNaN y = true) := by
    rw [← order_eq_none_iff]
    intro hnone
    rw [hnone, CompareOp.holds_none, decide_eq_true_eq] at h
    rcases hop with rfl | rfl <;> cases h
  have hxy := hordered h
  have hyz := hordered h'
  have hxz : ¬ (isNaN x = true ∨ isNaN z = true) := fun h =>
    h.elim (fun hx => hxy (.inl hx)) fun hz => hyz (.inr hz)
  rw [← Bool.or_eq_true] at hxy hyz hxz
  rw [order_eq_compare_value, if_neg hxy] at h
  rw [order_eq_compare_value, if_neg hyz] at h'
  rw [order_eq_compare_value, if_neg hxz]
  exact CompareOp.holds_compare_trans hop h h'

end Binary64

/-! ## Numbers -/

namespace Number

variable {n : Number} {x : Float}

/-- An integer beyond all doubles. -/
def TooLarge : Number → Prop
  | integer i => Binary64.TooLarge i
  | float _ => False

/-- A double that is no number. -/
def IsNaN : Number → Prop
  | integer _ => False
  | float x => Binary64.isNaN x = true

theorem toFloat_cases (n : Number) :
    (n.TooLarge ∧ n.toFloat = .error .integerTooLarge) ∨
      ¬ n.TooLarge ∧ ∃ x, n.toFloat = .ok x ∧ (Binary64.isNaN x = true ↔ n.IsNaN) := by
  cases n with
  | integer i =>
    refine (toFloat_integer i).imp_right (And.imp_right ?_)
    rintro ⟨x, hx, hnearest⟩
    refine ⟨x, hx, ?_⟩
    rw [hnearest.isNaN_eq]
    exact ⟨Bool.noConfusion, False.elim⟩
  | float x => exact .inr ⟨id, x, rfl, Iff.rfl⟩

end Number

/-! ## Values -/

namespace Value

variable {a b c : Value} {o o' : Option Ordering} {op : CompareOp}

/-- A value that is there and is no sequence. -/
def IsScalar (v : Value) : Prop := v.type ≠ .empty ∧ v.type ≠ .sequence

theorem IsScalar.cases (h : a.IsScalar) :
    (∃ n, a = .number n) ∨ (∃ s, a = .text s) ∨ ∃ p, a = .boolean p := by
  cases a with
  | empty => exact absurd rfl h.1
  | number n => exact .inl ⟨n, rfl⟩
  | text s => exact .inr (.inl ⟨s, rfl⟩)
  | boolean p => exact .inr (.inr ⟨p, rfl⟩)
  | sequence vs => exact absurd rfl h.2

/-- An integer beyond all doubles. -/
def TooLarge : Value → Prop
  | .number n => n.TooLarge
  | _ => False

/-- A double that is no number. -/
def IsNaN : Value → Prop
  | .number n => n.IsNaN
  | _ => False

/-- Two values of one type have this ordering, none if one is no number. -/
inductive Ordered : Value → Value → Option Ordering → Prop
  | number {m n : Number} {x y : Float} : m.toFloat = .ok x → n.toFloat = .ok y →
      Ordered (.number m) (.number n) (Binary64.order x y)
  | text (s t : String) : Ordered (.text s) (.text t) (some (Ord.compare s t))
  | boolean (p q : Bool) : Ordered (.boolean p) (.boolean q) (some (Ord.compare p q))

namespace Ordered

/-- All comparisons are read off the ordering. -/
theorem compare_eq (h : Ordered a b o) (op : CompareOp) :
    a.compare op b = .ok (.boolean (op.holds o)) := by
  cases h with
  | number hx hy => rw [Value.compare, hx, hy]; rfl
  | text s t => rfl
  | boolean p q => cases p <;> cases q <;> rfl

theorem swap (h : Ordered a b o) : Ordered b a (o.map .swap) := by
  cases h with
  | number hx hy =>
    rw [← Binary64.order_swap]
    exact .number hy hx
  | text s t =>
    rw [Option.map_some, ← Std.OrientedOrd.eq_swap]
    exact .text t s
  | boolean p q =>
    rw [Option.map_some, ← Std.OrientedOrd.eq_swap]
    exact .boolean q p

theorem eq_none_iff (h : Ordered a b o) : o = none ↔ a.IsNaN ∨ b.IsNaN := by
  cases h with
  | @number m n x y hx hy =>
    have hnan {n : Number} {x : Float} (h : n.toFloat = .ok x) :
        Binary64.isNaN x = true ↔ n.IsNaN := by
      rcases n.toFloat_cases with ⟨-, herror⟩ | ⟨-, y, hy, hiff⟩
      · rw [herror] at h; cases h
      · rw [hy] at h; cases h; exact hiff
    rw [Binary64.order_eq_none_iff, hnan hx, hnan hy]
    exact Iff.rfl
  | text s t => simp [IsNaN]
  | boolean p q => simp [IsNaN]

end Ordered

/-! ### Refusals -/

/-- How the comparisons refuse two values: by types and values, if the values can be shown. -/
inductive Refusal (a b : Value) : (CompareOp → OperationError) → Prop
  | shown {s t : String} : a.display? = some s → b.display? = some t →
      Refusal a b fun op => .cannotCompare a.type s op b.type t
  | hidden : a.TooLong ∨ b.TooLong → Refusal a b fun _ => .tooManyDigits

theorem refusal_incomparable (a b : Value) : Refusal a b fun op => incomparable a op b := by
  unfold incomparable OperationError.showing
  cases hs : a.display? with
  | none => exact .hidden (.inl (display?_eq_none_iff.1 hs))
  | some s =>
    cases ht : b.display? with
    | none => exact .hidden (.inr (display?_eq_none_iff.1 ht))
    | some t => exact .shown hs ht

/-! ### By types -/

theorem compare_of_empty (h : a.type = .empty ∨ b.type = .empty) (op : CompareOp) :
    a.compare op b = .ok .empty := by
  rcases h with h | h
  · cases a <;> cases h
    exact compare_empty_left op b
  · cases b <;> cases h
    exact compare_empty_right op a

theorem compare_of_sequence (ha : a.type ≠ .empty) (hb : b.type ≠ .empty)
    (h : a.type = .sequence ∨ b.type = .sequence) (op : CompareOp) :
    a.compare op b = .error (incomparable a op b) := by
  cases a <;> cases b <;> first | rfl | exact absurd rfl ha | exact absurd rfl hb | simp [type] at h

theorem compare_of_type_ne (ha : a.IsScalar) (hb : b.IsScalar) (h : a.type ≠ b.type)
    (op : CompareOp) :
    a.compare op b = if op = .ne then .ok (.boolean true) else .error (incomparable a op b) := by
  obtain ⟨m, rfl⟩ | ⟨s, rfl⟩ | ⟨p, rfl⟩ := ha.cases <;>
    obtain ⟨n, rfl⟩ | ⟨t, rfl⟩ | ⟨q, rfl⟩ := hb.cases <;> first | rfl | exact absurd rfl h

/-- Two scalars of one type are ordered, unless an integer is too large. -/
theorem ordered_of_type_eq (ha : a.IsScalar) (h : a.type = b.type) :
    ((a.TooLarge ∨ b.TooLarge) ∧ ∀ op, a.compare op b = .error .integerTooLarge) ∨
      ¬ (a.TooLarge ∨ b.TooLarge) ∧ ∃ o, Ordered a b o := by
  obtain ⟨m, rfl⟩ | ⟨s, rfl⟩ | ⟨p, rfl⟩ := ha.cases
  · cases b with
    | number n =>
      rcases m.toFloat_cases with ⟨hm, hx⟩ | ⟨hm, x, hx, -⟩
      · exact .inl ⟨.inl hm, fun op => by rw [Value.compare, hx]; rfl⟩
      · rcases n.toFloat_cases with ⟨hn, hy⟩ | ⟨hn, y, hy, -⟩
        · exact .inl ⟨.inr hn, fun op => by rw [Value.compare, hx, hy]; rfl⟩
        · exact .inr ⟨Or.rec hm hn, _, .number hx hy⟩
    | _ => cases h
  · cases b with
    | text t => exact .inr ⟨Or.rec id id, _, .text s t⟩
    | _ => cases h
  · cases b with
    | boolean q => exact .inr ⟨Or.rec id id, _, .boolean p q⟩
    | _ => cases h

/-- A comparison other than `<>` holds of ordered values only. -/
theorem exists_ordered (hop : op ≠ .ne) (h : a.compare op b = .ok (.boolean true)) :
    ∃ o, Ordered a b o ∧ op.holds o = true := by
  by_cases hempty : a.type = .empty ∨ b.type = .empty
  · rw [compare_of_empty hempty] at h
    cases h
  obtain ⟨ha, hb⟩ := not_or.1 hempty
  by_cases hsequence : a.type = .sequence ∨ b.type = .sequence
  · rw [compare_of_sequence ha hb hsequence] at h
    cases h
  obtain ⟨ha', hb'⟩ := not_or.1 hsequence
  by_cases htype : a.type = b.type
  · rcases ordered_of_type_eq ⟨ha, ha'⟩ htype with ⟨-, herror⟩ | ⟨-, o, ho⟩
    · rw [herror] at h
      cases h
    · rw [ho.compare_eq] at h
      injection h with h
      injection h with h
      exact ⟨o, ho, h⟩
  · rw [compare_of_type_ne ⟨ha, ha'⟩ ⟨hb, hb'⟩ htype, if_neg hop] at h
    cases h

/-- **Less, and less or equal, are transitive**, whatever the values are. -/
theorem compare_trans (hop : op = .lt ∨ op = .le) (h : a.compare op b = .ok (.boolean true))
    (h' : b.compare op c = .ok (.boolean true)) : a.compare op c = .ok (.boolean true) := by
  have hne : op ≠ .ne := by
    rintro rfl
    rcases hop with h | h <;> cases h
  obtain ⟨o, ho, hab⟩ := exists_ordered hne h
  obtain ⟨o', ho', hbc⟩ := exists_ordered hne h'
  suffices hac : ∃ o, Ordered a c o ∧ op.holds o = true by
    obtain ⟨o, ho, hac⟩ := hac
    rw [ho.compare_eq, hac]
  cases ho with
  | number hx hy =>
    cases ho' with
    | number hy' hz =>
      cases hy.symm.trans hy'
      exact ⟨_, .number hx hz, Binary64.holds_order_trans hop hab hbc⟩
  | text s t =>
    cases ho' with
    | text _ u => exact ⟨_, .text s u, CompareOp.holds_compare_trans hop hab hbc⟩
  | boolean p q =>
    cases ho' with
    | boolean _ r => exact ⟨_, .boolean p r, CompareOp.holds_compare_trans hop hab hbc⟩

/-- **The six comparisons are one family.** Whether they are empty, refused or too large depends
on the values and not on the comparison, but for `<>` on different types. Otherwise their answers
are those of one order. -/
theorem compare_family (a b : Value) :
    (a.type = .empty ∨ b.type = .empty → ∀ op, a.compare op b = .ok .empty) ∧
    (∃ refusal, Refusal a b refusal ∧
      (a.type ≠ .empty → b.type ≠ .empty → a.type = .sequence ∨ b.type = .sequence →
        ∀ op, a.compare op b = .error (refusal op)) ∧
      (a.IsScalar → b.IsScalar → a.type ≠ b.type → ∀ op, a.compare op b =
        if op = .ne then .ok (.boolean true) else .error (refusal op))) ∧
    (a.IsScalar → b.IsScalar → a.type = b.type →
      ((a.TooLarge ∨ b.TooLarge) ∧ ∀ op, a.compare op b = .error .integerTooLarge) ∨
      ¬ (a.TooLarge ∨ b.TooLarge) ∧ ∃ answer exchanged : CompareOp → Bool,
        (∀ op, a.compare op b = .ok (.boolean (answer op))) ∧
        (∀ op, b.compare op a = .ok (.boolean (exchanged op))) ∧
        CompareOp.Coherent answer exchanged (a.IsNaN ∨ b.IsNaN)) ∧
    ∀ c op, op = .lt ∨ op = .le → a.compare op b = .ok (.boolean true) →
      b.compare op c = .ok (.boolean true) → a.compare op c = .ok (.boolean true) := by
  refine ⟨compare_of_empty,
    ⟨_, refusal_incomparable a b, compare_of_sequence, compare_of_type_ne⟩,
    fun ha hb htype => ?_, fun c op => compare_trans⟩
  refine (ordered_of_type_eq ha htype).imp_right (And.imp_right ?_)
  rintro ⟨o, ho⟩
  refine ⟨fun op => op.holds o, fun op => op.holds (o.map .swap), ho.compare_eq,
    ho.swap.compare_eq, ?_⟩
  have hcoherent := CompareOp.coherent_holds o
  rwa [propext ho.eq_none_iff] at hcoherent

/-- A text is different from a boolean, and before a text that begins with a greater character. -/
theorem compare_family_text :
    (∀ op, (text "10").compare op (boolean true) = if op = .ne then .ok (.boolean true)
      else .error (.cannotCompare .text "'10'" op .boolean "True")) ∧
    (text "10").compare .lt (text "9") = .ok (.boolean true) ∧
    (text "9").compare .lt (text "a") = .ok (.boolean true) ∧
    (text "10").compare .lt (text "a") = .ok (.boolean true) := by
  have hless : (text "10").compare .lt (text "9") = .ok (.boolean true) := by rfl
  have hless' : (text "9").compare .lt (text "a") = .ok (.boolean true) := by rfl
  have htext : (text "10").display? = some "'10'" := by cbv
  have hboolean : (boolean true).display? = some "True" := by rfl
  obtain ⟨-, ⟨refusal, hrefusal, -, hdifferent⟩, -, -⟩ := compare_family (text "10") (boolean true)
  obtain ⟨-, -, -, htrans⟩ := compare_family (text "10") (text "9")
  refine ⟨?_, hless, hless', htrans (text "a") .lt (.inl rfl) hless hless'⟩
  cases hrefusal with
  | shown hs ht =>
    cases hs.symm.trans htext
    cases ht.symm.trans hboolean
    exact hdifferent ⟨by decide, by decide⟩ ⟨by decide, by decide⟩ (by decide)
  | hidden h =>
    rw [← display?_eq_none_iff, ← display?_eq_none_iff, htext, hboolean] at h
    rcases h with h | h <;> cases h

/-- An integer with one digit too many is no text, yet whether it is greater than a text is not
refused for their types. -/
theorem compare_family_hidden :
    let large : Value := .number (.integer (Nat.pow 10 digitLimit))
    large.IsScalar ∧ (text "x").IsScalar ∧ large.type ≠ (text "x").type ∧
      large.compare .gt (text "x") = .error .tooManyDigits := by
  intro large
  have hlong : large.TooLong := tooLong_of_le (Nat.le_refl _)
  have hnumber : large.type = .number := rfl
  have hlarge : large.IsScalar := by rw [IsScalar, hnumber]; decide
  have htext : (text "x").IsScalar := by rw [IsScalar]; decide
  have htype : large.type ≠ (text "x").type := by rw [hnumber]; decide
  refine ⟨hlarge, htext, htype, ?_⟩
  rw [compare_of_type_ne hlarge htext htype, if_neg (by decide), incomparable,
    OperationError.showing_of_tooLong hlong]

end Value

end Formulary
