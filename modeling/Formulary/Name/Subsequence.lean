/-!
# Longest common subsequences

`commonLength xs ys` is the length of a longest common subsequence of two lists. It is computed row
by row: a row holds the answers for one suffix of `xs` and every suffix of `ys`, the longest first.
-/

namespace Formulary

variable {α : Type} [DecidableEq α]

/-- The row of `x :: xs` over `ys`, from the row of `xs`. Equal heads are worth taking; otherwise one
of the two is left out. -/
def commonRow (x : α) : (ys : List α) → (row : List Nat) → List Nat
  | [], _ => [0]
  | y :: ys, row =>
    let next := commonRow x ys row.tail
    let best := if x = y then row.tail.headD 0 + 1 else max (row.headD 0) (next.headD 0)
    best :: next

/-- The lengths of the longest common subsequences of `xs` and each suffix of `ys`. -/
def commonLengths (xs ys : List α) : List Nat :=
  xs.foldr (fun x row => commonRow x ys row) (List.replicate (ys.length + 1) 0)

/-- The length of a longest common subsequence. -/
def commonLength (xs ys : List α) : Nat := (commonLengths xs ys).headD 0

end Formulary
