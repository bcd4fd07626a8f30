import Formulary.Name.Subsequence
import Formulary.Number.Binary64

/-!
# Names that resemble a name

Where a name is unknown, those that come close to it are suggested (`closestNames`). Finding the best
matches among the candidates is left to an extractor from outside, so that this is a parameter;
what it finds is put into the order of the scores once more.

`extractByRatio` is an extractor to run with. It scores two names by how few characters have to be
inserted and deleted to get from one to the other: for names of lengths `m` and `n`, these are
`m + n - 2 L` characters, where `L` is the length of a longest common subsequence.
-/

namespace Formulary

/-- A candidate that resembles a name. -/
structure Match where
  /-- The candidate. -/
  name : String
  /-- How similar it is to the name, in percent. -/
  score : Float
  /-- Where it stands among the candidates. -/
  place : Nat

/-- A way to find the best matches for a name: up to `limit` of those candidates that score at least
`cutoff`, all of them without a limit. -/
def Extract : Type :=
  (name : String) → (candidates : List String) → (limit : Option Nat) → (cutoff : Float) → List Match

/-- The candidates that resemble a name, the best match first. -/
def closestNames (extract : Extract) (name : String) (candidates : List String) (limit : Nat)
    (similarity : Float) : List String :=
  let matched := extract name candidates (some limit) (similarity * 100)
  -- from small to large by the negated score, and what has the same one as it stands
  let sorted := matched.mergeSort fun a b => Binary64.order (-b.score) (-a.score) != some .lt
  sorted.map (·.name)

/-! ## Extracting by ratio -/

/-- The part of two names that stays, in percent, if they have `total` characters in all and are
`distance` insertions and deletions apart. Two empty names are as similar as can be. -/
def ratio (total distance : Nat) : Float :=
  if total = 0 then 100 else (1 - Float.ofNat distance / Float.ofNat total) * 100

/-- The score of a candidate for a name. -/
def nameRatio (a b : String) : Float :=
  ratio (a.length + b.length) (a.length + b.length - 2 * commonLength a.toList b.toList)

/-- Whether `x` is at least `y`. -/
def atLeast (x y : Float) : Bool := (Binary64.order x y).any (·.isGE)

/-- Scores all candidates, and sorts those that score enough. -/
def extractByRatio : Extract := fun name candidates limit cutoff =>
  let scored := candidates.mapIdx fun i c => (⟨c, nameRatio name c, i⟩ : Match)
  let close := scored.filter fun m => atLeast m.score cutoff
  let sorted := close.mergeSort fun a b => atLeast a.score b.score
  limit.elim sorted sorted.take

/-- The suggestions for an unknown name: up to three that are similar to it by three fifths. -/
def suggestions (name : String) (candidates : List String) : List String :=
  closestNames extractByRatio name candidates 3 0.6

end Formulary
