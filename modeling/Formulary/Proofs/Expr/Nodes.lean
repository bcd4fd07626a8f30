import Formulary.Expr.Basic
import Formulary.Proofs.Number.ReadBack
import Formulary.Text.Class

/-!
# The nodes of a tree, and trees that have a text

A tree is a text of its own only if its nodes fit together. What is asked of a node concerns the node
and the roots of its operands, so it is stated for one node and then asked *everywhere*:

* `LexicalNode`: names can be read as names, and numbers are written with digits;
* `LayeredNode`: a sign stands before a single operand, and no comparison is an operand of an
  operator or of another comparison;
* `GroupedNode`: operators of one strength group to the left, and tighter ones come first;
* `LooseNode` is `GroupedNode` without a side: an operator may have operators of its own strength
  on either side of it.
-/

namespace Formulary

/-! ## Names -/

/-- A letter, and behind it letters, digits and colons. -/
def Text.IsName : List Char → Prop
  | [] => False
  | c :: cs => c.isAlpha ∧ ∀ d ∈ cs, isNamePart d

/-- Letters and digits, and at least one of them. -/
def Text.IsFormulaName (s : List Char) : Prop := s ≠ [] ∧ ∀ c ∈ s, c.isAlphanum

instance : DecidablePred Text.IsName
  | [] => .isFalse id
  | _ :: cs =>
    have : Decidable (∀ d ∈ cs, Text.isNamePart d) := List.decidableBAll _ cs
    inferInstanceAs (Decidable (_ ∧ _))

instance : DecidablePred Text.IsFormulaName := fun s =>
  have : Decidable (∀ c ∈ s, c.isAlphanum) := List.decidableBAll _ s
  inferInstanceAs (Decidable (_ ∧ _))

namespace Expr

/-! ## Nodes -/

mutual

/-- All nodes of a tree, each before its operands. -/
def nodes : Expr → List Expr
  | .number x => [.number x]
  | .text s => [.text s]
  | .var name => [.var name]
  | .reference name => [.reference name]
  | .bracket e => .bracket e :: nodes e
  | .minus e => .minus e :: nodes e
  | .arith l op r => .arith l op r :: (nodes l ++ nodes r)
  | .compare l op r => .compare l op r :: (nodes l ++ nodes r)
  | .call name es => .call name es :: nodesList es

def nodesList : List Expr → List Expr
  | [] => []
  | e :: es => nodes e ++ nodesList es

end

theorem nodesList_eq_flatMap (es : List Expr) : nodesList es = es.flatMap nodes := by
  induction es with
  | nil => rfl
  | cons e es ih => rw [nodesList, ih, List.flatMap_cons]

/-- A property of all nodes. -/
def Everywhere (P : Expr → Prop) (e : Expr) : Prop := ∀ n ∈ e.nodes, P n

instance (P : Expr → Prop) [DecidablePred P] (e : Expr) : Decidable (e.Everywhere P) :=
  inferInstanceAs (Decidable (∀ n ∈ e.nodes, P n))

section

variable {P Q : Expr → Prop} {l r e : Expr} {op : ArithOp} {cop : CompareOp} {name : String}
  {es : List Expr}

@[simp] theorem everywhere_number {x : Float} :
    (number x).Everywhere P ↔ P (number x) := by
  simp [Everywhere, nodes]

@[simp] theorem everywhere_text {s : String} : (text s).Everywhere P ↔ P (text s) := by
  simp [Everywhere, nodes]

@[simp] theorem everywhere_var : (var name).Everywhere P ↔ P (var name) := by
  simp [Everywhere, nodes]

@[simp] theorem everywhere_reference :
    (reference name).Everywhere P ↔ P (reference name) := by
  simp [Everywhere, nodes]

@[simp] theorem everywhere_bracket :
    (bracket e).Everywhere P ↔ P (bracket e) ∧ e.Everywhere P := by
  simp [Everywhere, nodes]

@[simp] theorem everywhere_minus : (minus e).Everywhere P ↔ P (minus e) ∧ e.Everywhere P := by
  simp [Everywhere, nodes]

@[simp] theorem everywhere_arith :
    (arith l op r).Everywhere P ↔ P (arith l op r) ∧ l.Everywhere P ∧ r.Everywhere P := by
  simp [Everywhere, nodes, or_imp, forall_and]

@[simp] theorem everywhere_compare :
    (compare l cop r).Everywhere P ↔ P (compare l cop r) ∧ l.Everywhere P ∧ r.Everywhere P := by
  simp [Everywhere, nodes, or_imp, forall_and]

@[simp] theorem everywhere_call :
    (call name es).Everywhere P ↔ P (call name es) ∧ ∀ e ∈ es, e.Everywhere P := by
  simp only [Everywhere, nodes, nodesList_eq_flatMap, List.mem_cons, List.mem_flatMap]
  constructor
  · intro h
    exact ⟨h _ (.inl rfl), fun e he n hn => h n (.inr ⟨e, he, hn⟩)⟩
  · rintro ⟨h, hes⟩ n (rfl | ⟨e, he, hn⟩)
    · exact h
    · exact hes e he n hn

theorem Everywhere.mono (h : e.Everywhere P) (hPQ : ∀ n, P n → Q n) : e.Everywhere Q :=
  fun n hn => hPQ n (h n hn)

theorem Everywhere.and (h : e.Everywhere P) (h' : e.Everywhere Q) :
    e.Everywhere fun n => P n ∧ Q n :=
  fun n hn => ⟨h n hn, h' n hn⟩

/-- The first node is the tree itself. -/
theorem Everywhere.root (h : e.Everywhere P) : P e := by
  refine h e ?_
  cases e <;> exact List.mem_cons_self

end

/-! ## How tightly a root binds -/

/-- How tightly a tree holds together as an operand of arithmetic: an operator by its strength, and
everything else more tightly than any operator. -/
def tightness : Expr → Nat
  | .arith _ op _ => op.strength
  | _ => 4

/-- How tightly a tree holds together as an operand: a comparison less than any operator. -/
def binding : Expr → Nat
  | .compare .. => 0
  | e => e.tightness

theorem strength_pos (op : ArithOp) : 0 < op.strength := by cases op <;> decide

theorem strength_le_three (op : ArithOp) : op.strength ≤ 3 := by cases op <;> decide

theorem binding_le_four (e : Expr) : e.binding ≤ 4 := by
  cases e with
  | arith l op r => exact Nat.le_trans (strength_le_three op) (by decide)
  | _ => simp [binding, tightness]

/-- Only comparisons tell the two measures apart. -/
theorem tightness_eq_binding {e : Expr} (h : 0 < e.binding) : e.tightness = e.binding := by
  cases e with
  | compare l op r => exact absurd h (by simp [binding])
  | _ => rfl

/-! ## What is asked of a node -/

/-- Names are names, and numbers are of the kind `number`. -/
def LexicalNode (number : Float → Prop) : Expr → Prop
  | .number x => number x
  | .var name | .call name _ => Text.IsName name.toList
  | .reference name => Text.IsFormulaName name.toList
  | _ => True

/-- The operand of a sign is no operator and no comparison; those of an operator or a comparison
are no comparisons. -/
def LayeredNode : Expr → Prop
  | .minus e => e.binding = 4
  | .arith l _ r | .compare l _ r => 0 < l.binding ∧ 0 < r.binding
  | _ => True

/-- An operator on the left binds at least as tightly, one on the right more tightly. -/
def GroupedNode : Expr → Prop
  | .arith l op r => op.strength ≤ l.tightness ∧ op.strength < r.tightness
  | _ => True

/-- An operator on either side binds at least as tightly. -/
def LooseNode : Expr → Prop
  | .arith l op r => op.strength ≤ l.tightness ∧ op.strength ≤ r.tightness
  | _ => True

instance {number : Float → Prop} [DecidablePred number] : DecidablePred (LexicalNode number)
  | .number _ => inferInstanceAs (Decidable (number _))
  | .var _ | .call _ _ => inferInstanceAs (Decidable (Text.IsName _))
  | .reference _ => inferInstanceAs (Decidable (Text.IsFormulaName _))
  | .text _ | .bracket _ | .minus _ | .arith .. | .compare .. => .isTrue trivial

instance : DecidablePred LayeredNode
  | .minus _ => inferInstanceAs (Decidable (_ = _))
  | .arith .. | .compare .. => inferInstanceAs (Decidable (_ ∧ _))
  | .number _ | .text _ | .var _ | .reference _ | .bracket _ | .call .. => .isTrue trivial

instance : DecidablePred GroupedNode
  | .arith .. => inferInstanceAs (Decidable (_ ∧ _))
  | .number _ | .text _ | .var _ | .reference _ | .bracket _ | .minus _ | .compare ..
  | .call .. => .isTrue trivial

instance : DecidablePred LooseNode
  | .arith .. => inferInstanceAs (Decidable (_ ∧ _))
  | .number _ | .text _ | .var _ | .reference _ | .bracket _ | .minus _ | .compare ..
  | .call .. => .isTrue trivial

theorem GroupedNode.loose {e : Expr} (h : e.GroupedNode) : e.LooseNode := by
  cases e with
  | arith l op r => exact ⟨h.1, Nat.le_of_lt h.2⟩
  | _ => trivial

/-- A number that is written with digits: it is finite, and it has no sign. -/
def Written (x : Float) : Prop := Binary64.IsFinite x ∧ Binary64.isNegative x = false

instance : DecidablePred Written := fun _ => inferInstanceAs (Decidable (_ ∧ _))

/-- A tree that is written by its text and no other: names and numbers can be read, signs and
comparisons stand where the grammar has them, and operators are grouped to the left. -/
def WellFormed (e : Expr) : Prop :=
  e.Everywhere fun n => n.LexicalNode Written ∧ n.LayeredNode ∧ n.GroupedNode

/-- A tree that is well-formed but for the grouping of operators of one strength, which may lean to
either side. -/
def LooselyFormed (e : Expr) : Prop :=
  e.Everywhere fun n => n.LexicalNode Written ∧ n.LayeredNode ∧ n.LooseNode

instance : DecidablePred WellFormed := fun _ => inferInstanceAs (Decidable (Everywhere _ _))

instance : DecidablePred LooselyFormed := fun _ => inferInstanceAs (Decidable (Everywhere _ _))

end Expr

end Formulary
