import Formulary.Number.Layout
import Formulary.Text.Quoted

/-!
# Values

What a formula evaluates to. A value can be absent (`empty`): a variable that is not set has no
value, and arithmetic on nothing gives nothing. Numbers are exact integers or doubles; formulas
compute with doubles only, and integers come from outside, through variables and functions. A
sequence is what a range of variables gives.

Messages and traces show values. An integer with more than `digitLimit` digits cannot be shown, and
neither can a sequence with such an integer somewhere in it.

Main statements: `flattenList_append`, that flattening goes through a list piece by piece, and
`display?_eq_none_iff`, which values cannot be shown.
-/

namespace Formulary

/-- A number: exact, or a double. -/
inductive Number where
  | integer (i : Int)
  | float (x : Float)
  deriving DecidableEq

/-- A value. -/
inductive Value where
  | empty
  | number (n : Number)
  | text (s : String)
  | boolean (b : Bool)
  | sequence (vs : List Value)

/-- The types of values. -/
inductive ValueType where
  | empty | number | text | boolean | sequence
  deriving DecidableEq, Repr

namespace ValueType

/-- The name of a type in messages. -/
def name : ValueType → String
  | empty => "empty"
  | number => "number"
  | text => "text"
  | boolean => "boolean"
  | sequence => "sequence"

end ValueType

/-- The greatest number of digits that an integer may be written with. -/
def digitLimit : Nat := 4300

/-- A number as messages show it, unless it is an integer with too many digits. -/
def Number.display? : Number → Option String
  | integer i => if i.natAbs < Nat.pow 10 digitLimit then some (toString i) else none
  | float x => some (String.ofList (Binary64.display x))

namespace Value

instance : Inhabited Value := ⟨.empty⟩

def type : Value → ValueType
  | empty => .empty
  | number _ => .number
  | text _ => .text
  | boolean _ => .boolean
  | sequence _ => .sequence

/-- Induction on values: what holds of a sequence may be shown from what holds of its values. -/
@[induction_eliminator]
theorem induction {motive : Value → Prop} (leaf : ∀ v, v.type ≠ .sequence → motive v)
    (sequence : ∀ vs, (∀ v ∈ vs, motive v) → motive (.sequence vs)) (v : Value) : motive v :=
  @Value.rec motive (fun vs => ∀ v ∈ vs, motive v) (leaf _ nofun) (fun _ => leaf _ nofun)
    (fun _ => leaf _ nofun) (fun _ => leaf _ nofun) sequence (fun _ h => nomatch h)
    (fun _ _ hv hvs _ h => (List.mem_cons.1 h).elim (fun h => h ▸ hv) (hvs _)) v

/-- The number that a value is, if it is one. Booleans are not. -/
def number? : Value → Option Number
  | number n => some n
  | _ => none

/-- Whether a value is the boolean true. -/
def isTrue : Value → Bool
  | boolean b => b
  | _ => false

mutual

/-- A value as messages and traces show it, if it can be shown. -/
def display? : Value → Option String
  | empty => some "None"
  | number n => n.display?
  | text s => some (Text.quoted s)
  | boolean true => some "True"
  | boolean false => some "False"
  | sequence vs =>
    (displayList? vs).map fun shown => "[" ++ ", ".intercalate shown ++ "]"

/-- The values of a sequence as they are shown. -/
def displayList? : List Value → Option (List String)
  | [] => some []
  | v :: vs => do return (← display? v) :: (← displayList? vs)

end

mutual

/-- The values in a value that are not sequences, from left to right. -/
def flatten : Value → List Value
  | sequence vs => flattenList vs
  | v => [v]

/-- The values in a list of values that are not sequences, from left to right. -/
def flattenList : List Value → List Value
  | [] => []
  | v :: vs => flatten v ++ flattenList vs

end

theorem flattenList_eq_flatMap (vs : List Value) : flattenList vs = vs.flatMap flatten := by
  induction vs with
  | nil => rfl
  | cons v vs ih => simp [flattenList, ih]

theorem flattenList_append (vs ws : List Value) :
    flattenList (vs ++ ws) = flattenList vs ++ flattenList ws := by
  simp [flattenList_eq_flatMap]

/-! ## Values that cannot be shown -/

/-- Somewhere in the value there is an integer with more digits than can be written. -/
def TooLong (v : Value) : Prop :=
  ∃ i : Int, .number (.integer i) ∈ v.flatten ∧ Nat.pow 10 digitLimit ≤ i.natAbs

theorem tooLong_of_le {n : Nat} (h : Nat.pow 10 digitLimit ≤ n) :
    TooLong (.number (.integer n)) :=
  ⟨n, List.mem_singleton_self _, h⟩

theorem tooLong_sequence_iff {vs : List Value} :
    TooLong (.sequence vs) ↔ ∃ v ∈ vs, v.TooLong := by
  simp only [TooLong, flatten, flattenList_eq_flatMap, List.mem_flatMap]
  constructor
  · rintro ⟨i, ⟨v, hv, hi⟩, hlong⟩
    exact ⟨v, hv, i, hi, hlong⟩
  · rintro ⟨v, hv, i, hi, hlong⟩
    exact ⟨i, ⟨v, hv, hi⟩, hlong⟩

theorem displayList?_eq_none_iff {vs : List Value} :
    displayList? vs = none ↔ ∃ v ∈ vs, v.display? = none := by
  induction vs with
  | nil => simp [displayList?]
  | cons v vs ih =>
    have hcons : (∃ w ∈ v :: vs, w.display? = none) ↔
        v.display? = none ∨ displayList? vs = none := by simp [ih]
    rw [hcons, displayList?]
    cases v.display? <;> cases displayList? vs <;> simp

/-- **What cannot be shown are integers with too many digits**, by themselves or in sequences. -/
theorem display?_eq_none_iff {v : Value} : v.display? = none ↔ v.TooLong := by
  induction v with
  | leaf v hv =>
    cases v with
    | number n =>
      cases n with
      | integer i => simp [display?, Number.display?, TooLong, flatten]
      | float x => simp [display?, Number.display?, TooLong, flatten]
    | boolean b => cases b <;> simp [display?, TooLong, flatten]
    | sequence vs => exact absurd rfl hv
    | _ => simp [display?, TooLong, flatten]
  | sequence vs ih =>
    simp only [display?, Option.map_eq_none_iff, displayList?_eq_none_iff, tooLong_sequence_iff]
    constructor
    · rintro ⟨v, hv, hnone⟩
      exact ⟨v, hv, (ih v hv).1 hnone⟩
    · rintro ⟨v, hv, hlong⟩
      exact ⟨v, hv, (ih v hv).2 hlong⟩

end Value

end Formulary
