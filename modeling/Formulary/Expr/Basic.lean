/-!
# Formulas as trees

`Expr` is the tree of a formula. Its leaves are numbers, texts, variables and references to other
formulas; the arithmetic operators are binary and group as the tree says. A bracket is a node of
its own, so that a tree says which brackets its formula has.

Numbers are doubles. Equality of trees is structural, and for numbers it is equality of the double
itself: it tells `0.0` from `-0.0`, and holds of a number that is not one.
-/

namespace Formulary

/-- The arithmetic operators. -/
inductive ArithOp where
  | add | sub | mul | div | pow
  deriving DecidableEq, Repr

/-- The comparisons. -/
inductive CompareOp where
  | gt | ge | eq | lt | le | ne
  deriving DecidableEq, Repr

namespace ArithOp

def symbol : ArithOp → Char
  | add => '+'
  | sub => '-'
  | mul => '*'
  | div => '/'
  | pow => '^'

/-- How tightly the operator binds. -/
def strength : ArithOp → Nat
  | add | sub => 1
  | mul | div => 2
  | pow => 3

/-- All arithmetic operators. -/
def all : List ArithOp := [add, sub, mul, div, pow]

/-- The operator with this symbol. -/
def ofSymbol? (c : Char) : Option ArithOp := all.find? (·.symbol == c)

theorem ofSymbol?_symbol (op : ArithOp) : ofSymbol? op.symbol = some op := by
  cases op <;> rfl

end ArithOp

namespace CompareOp

def symbol : CompareOp → String
  | gt => ">"
  | ge => ">="
  | eq => "="
  | lt => "<"
  | le => "<="
  | ne => "<>"

/-- All comparisons. -/
def all : List CompareOp := [gt, ge, eq, lt, le, ne]

/-- The comparison with this symbol. -/
def ofSymbol? (s : String) : Option CompareOp := all.find? (·.symbol == s)

end CompareOp

/-- The tree of a formula. -/
inductive Expr where
  | number (value : Float)
  | text (value : String)
  /-- A variable, or a range of variables if the name has a colon. -/
  | var (name : String)
  /-- A reference to the formula with this name. -/
  | reference (name : String)
  | bracket (inner : Expr)
  | minus (operand : Expr)
  | arith (left : Expr) (op : ArithOp) (right : Expr)
  | compare (left : Expr) (op : CompareOp) (right : Expr)
  | call (name : String) (arguments : List Expr)

namespace Expr

instance : Inhabited Expr := ⟨.number 0⟩

/-- Induction on trees: what holds of a call may be shown from what holds of its arguments. -/
@[induction_eliminator]
theorem induction {motive : Expr → Prop} (number : ∀ x, motive (.number x))
    (text : ∀ s, motive (.text s)) (var : ∀ name, motive (.var name))
    (reference : ∀ name, motive (.reference name))
    (bracket : ∀ e, motive e → motive (.bracket e)) (minus : ∀ e, motive e → motive (.minus e))
    (arith : ∀ l op r, motive l → motive r → motive (.arith l op r))
    (compare : ∀ l op r, motive l → motive r → motive (.compare l op r))
    (call : ∀ name es, (∀ e ∈ es, motive e) → motive (.call name es)) (e : Expr) : motive e :=
  Expr.rec (motive_2 := fun es => ∀ e ∈ es, motive e) number text var reference bracket
    minus arith compare call (fun _ h => nomatch h)
    (fun _ _ he hes _ h => (List.mem_cons.1 h).elim (fun h => h ▸ he) (hes _)) e

/-! ## Equality -/

mutual

/-- Whether two trees are the same. -/
def beq : Expr → Expr → Bool
  | .number x, .number y => x = y
  | .text s, .text t => s = t
  | .var a, .var b => a = b
  | .reference a, .reference b => a = b
  | .bracket e, .bracket f => beq e f
  | .minus e, .minus f => beq e f
  | .arith l op r, .arith l' op' r' => beq l l' && op = op' && beq r r'
  | .compare l op r, .compare l' op' r' => beq l l' && op = op' && beq r r'
  | .call a es, .call b fs => a = b && beqList es fs
  | _, _ => false

/-- Whether two lists of trees are the same. -/
def beqList : List Expr → List Expr → Bool
  | [], [] => true
  | e :: es, f :: fs => beq e f && beqList es fs
  | _, _ => false

end

mutual

theorem beq_iff (e f : Expr) : beq e f = true ↔ e = f := by
  cases e with
  | bracket e => cases f <;> simp [beq, beq_iff e]
  | minus e => cases f <;> simp [beq, beq_iff e]
  | arith l op r => cases f <;> simp [beq, beq_iff l, beq_iff r, and_assoc]
  | compare l op r => cases f <;> simp [beq, beq_iff l, beq_iff r, and_assoc]
  | call a es => cases f <;> simp [beq, beqList_iff es]
  | _ => cases f <;> simp [beq]

theorem beqList_iff (es fs : List Expr) : beqList es fs = true ↔ es = fs := by
  cases es with
  | nil => cases fs <;> simp [beqList]
  | cons e es => cases fs <;> simp [beqList, beq_iff e, beqList_iff es]

end

instance : DecidableEq Expr := fun e f => decidable_of_iff _ (beq_iff e f)

/-! ## Chains of operators -/

/-- The name of the kind of node, as traces show it. -/
def kind : Expr → String
  | .number _ => "Number"
  | .text _ => "Text"
  | .var _ => "Variable"
  | .reference _ => "FormulaReference"
  | .bracket _ => "Bracket"
  | .minus _ => "Minus"
  | .arith .. => "MathOperation"
  | .compare .. => "BoolOperation"
  | .call .. => "Function"

/-- The tree `base op₁ e₁ op₂ e₂ …`, grouped to the left. -/
def ofChain (base : Expr) (links : List (ArithOp × Expr)) : Expr :=
  links.foldl (fun left (op, right) => .arith left op right) base

/-- The operators and right operands on the left spine of a tree, in front of `links`. -/
def chainOnto : Expr → List (ArithOp × Expr) → Expr × List (ArithOp × Expr)
  | .arith l op r, links => chainOnto l ((op, r) :: links)
  | e, links => (e, links)

/-- A tree as a chain: what its left spine starts from, and the operators with their right operands
from there upwards. -/
def toChain (e : Expr) : Expr × List (ArithOp × Expr) := chainOnto e []

theorem ofChain_chainOnto (e : Expr) (links : List (ArithOp × Expr)) :
    ofChain (chainOnto e links).1 (chainOnto e links).2 = ofChain e links := by
  fun_induction chainOnto e links with
  | case1 l op r links ih => simpa [ofChain] using ih
  | case2 => rfl

/-- Nothing is lost by taking a tree for a chain. -/
theorem ofChain_toChain (e : Expr) : ofChain e.toChain.1 e.toChain.2 = e :=
  ofChain_chainOnto e []

end Expr

end Formulary
