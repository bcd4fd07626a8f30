import Formulary.Name.Closest
import Formulary.Proofs.Name.Distance
import Formulary.Proofs.Number.Bits
import Mathlib.Data.List.FinRange

/-!
# The most similar names

What resembles a name is found by an extractor from outside, of which this much is relied on
(`Extract.RanksByRatio`): candidates score by the least number of insertions and deletions that lead
to them, those that score enough are found, the best first and ties as they stand, and a limit cuts
off the rest. This module says what is suggested then, in terms of places among the candidates, since
a candidate may stand there twice.

* **Sorting by score keeps the order of what scores the same** (`pairwise_mergeSort_stable`).
* **There is one list of matches to find** (`RanksByRatio.matches_eq`), and `extractByRatio` finds it
  (`extractByRatio_ranks`).
* **The suggestions are the best matches** (`closestNames_best`): as many of the candidates that are
  similar enough as the limit allows, in the order of their ranking, and no other candidate is
  ranked before one of them. The scores are told by longest common subsequences.

A score that is no number is not similar enough, so among the candidates that are, scores are
ordered as whole numbers are.
-/

namespace Formulary

/-! ## Scores -/

section

variable {x y bound : Float} {i j : Nat}

theorem atLeast_iff : atLeast x y = true ↔
    Binary64.isNaN x = false ∧ Binary64.isNaN y = false ∧
      Binary64.signedRank y ≤ Binary64.signedRank x := by
  unfold atLeast Binary64.order
  cases Binary64.isNaN x <;> cases Binary64.isNaN y <;> simp [Std.isGE_compare]

theorem order_eq_gt_iff : Binary64.order x y = some .gt ↔
    Binary64.isNaN x = false ∧ Binary64.isNaN y = false ∧
      Binary64.signedRank y < Binary64.signedRank x := by
  unfold Binary64.order
  cases Binary64.isNaN x <;> cases Binary64.isNaN y <;> simp [compare_gt_iff_gt]

theorem order_eq_lt_iff : Binary64.order x y = some .lt ↔
    Binary64.isNaN x = false ∧ Binary64.isNaN y = false ∧
      Binary64.signedRank x < Binary64.signedRank y := by
  unfold Binary64.order
  cases Binary64.isNaN x <;> cases Binary64.isNaN y <;> simp [compare_lt_iff_lt]

theorem order_eq_eq_iff : Binary64.order x y = some .eq ↔
    Binary64.isNaN x = false ∧ Binary64.isNaN y = false ∧
      Binary64.signedRank x = Binary64.signedRank y := by
  unfold Binary64.order
  cases Binary64.isNaN x <;> cases Binary64.isNaN y <;> simp

/-- Of two things with scores and places, the first scores higher, or the same and stands in front
of the second. -/
def Precedes (x : Float) (i : Nat) (y : Float) (j : Nat) : Prop :=
  Binary64.order x y = some .gt ∨ Binary64.order x y = some .eq ∧ i < j

instance (x : Float) (i : Nat) (y : Float) (j : Nat) : Decidable (Precedes x i y j) :=
  inferInstanceAs (Decidable (_ ∨ _ ∧ _))

theorem precedes_iff : Precedes x i y j ↔
    Binary64.isNaN x = false ∧ Binary64.isNaN y = false ∧
      (Binary64.signedRank y < Binary64.signedRank x ∨
        Binary64.signedRank x = Binary64.signedRank y ∧ i < j) := by
  rw [Precedes, order_eq_gt_iff, order_eq_eq_iff]
  tauto

theorem Precedes.asymm (h : Precedes x i y j) : ¬ Precedes y j x i := by
  rw [precedes_iff] at h ⊢
  omega

/-- What precedes a score that is high enough is high enough. -/
theorem Precedes.atLeast (h : Precedes x i y j) (hy : atLeast y bound = true) :
    atLeast x bound = true := by
  obtain ⟨hx, -, hle⟩ := precedes_iff.1 h
  obtain ⟨-, hbound, hle'⟩ := atLeast_iff.1 hy
  exact atLeast_iff.2 ⟨hx, hbound, by omega⟩

/-- Negated, scores are the other way round. -/
theorem Precedes.order_neg_ne (h : Precedes x i y j) :
    (Binary64.order (-y) (-x) != some .lt) = true := by
  obtain ⟨hx, hy, hle⟩ := precedes_iff.1 h
  rw [bne_iff_ne, Ne, order_eq_lt_iff, Binary64.signedRank_neg hx, Binary64.signedRank_neg hy]
  omega

end

/-! ## Extractors -/

/-- The score of a candidate for a name: by how many insertions and deletions lead to it. -/
def IsRatio (name candidate : String) (score : Float) : Prop :=
  ∃ distance, Distance name.toList candidate.toList distance ∧
    score = ratio (name.length + candidate.length) distance

/-- The first of two matches scores higher, or the same and stands in front of the second. -/
def Match.Before (a b : Match) : Prop := Precedes a.score a.place b.score b.place

/-- What is relied on of an extractor. -/
structure Extract.RanksByRatio (extract : Extract) : Prop where
  /-- Without a limit, the matches are the candidates that score enough, with their scores. -/
  mem_iff : ∀ (name : String) (candidates : List String) (cutoff : Float) (m : Match),
    m ∈ extract name candidates none cutoff ↔ candidates[m.place]? = some m.name ∧
      IsRatio name m.name m.score ∧ atLeast m.score cutoff = true
  /-- They are found in the order of their scores, and with the same score as they stand. -/
  sorted : ∀ (name : String) (candidates : List String) (cutoff : Float),
    (extract name candidates none cutoff).Pairwise Match.Before
  /-- With a limit, only the first of them are found. -/
  limited : ∀ (name : String) (candidates : List String) (limit : Nat) (cutoff : Float),
    extract name candidates (some limit) cutoff =
      (extract name candidates none cutoff).take limit

/-- **The score is told by a longest common subsequence.** -/
theorem isRatio_iff {name candidate : String} {score : Float} :
    IsRatio name candidate score ↔ score = nameRatio name candidate := by
  have hdistance : Distance name.toList candidate.toList (name.length + candidate.length -
      2 * commonLength name.toList candidate.toList) :=
    (longestCommon_commonLength name.toList candidate.toList).distance
  constructor
  · rintro ⟨distance, h, rfl⟩
    rw [h.unique hdistance, nameRatio]
  · rintro rfl
    exact ⟨_, hdistance, rfl⟩

/-! ## Sorting -/

section

variable {α : Type} {le : α → α → Bool} {R : α → α → Prop}

/-- **What was in order stays in order where sorting has no reason to change it.** -/
theorem pairwise_mergeSort_stable (htrans : ∀ a b c, le a b → le b c → le a c)
    (htotal : ∀ a b, le a b || le b a) {l : List α} (hl : l.Pairwise R) :
    (l.mergeSort le).Pairwise fun a b => le a b ∧ (le b a → R a b) := by
  induction l with
  | nil =>
    rw [List.mergeSort_nil]
    exact .nil
  | cons a l ih =>
    obtain ⟨hhead, htail⟩ := List.pairwise_cons.1 hl
    obtain ⟨l₁, l₂, hcons, hrest, hnot⟩ := List.mergeSort_cons htrans htotal a l
    have hsorted := List.pairwise_mergeSort htrans htotal (a :: l)
    have hmem : ∀ b ∈ l₂, b ∈ l := fun b hb =>
      List.mem_mergeSort.1 (hrest ▸ List.mem_append_right l₁ hb)
    have ih := ih htail
    rw [hrest, List.pairwise_append] at ih
    rw [hcons, List.pairwise_append, List.pairwise_cons] at hsorted
    rw [hcons, List.pairwise_append, List.pairwise_cons]
    refine ⟨ih.1, ⟨fun b hb => ⟨hsorted.2.1.1 b hb, fun _ => hhead b (hmem b hb)⟩, ih.2.1⟩, ?_⟩
    intro b hb c hc
    rcases List.mem_cons.1 hc with rfl | hc
    · -- what is sorted before the new element is strictly smaller
      have hlt : le c b = false := by simpa using hnot b hb
      exact ⟨by simpa [hlt] using htotal b c, fun h => by simp [hlt] at h⟩
    · exact ih.2.2 b hb c hc

end

/-! ## The ranking -/

section

variable {n : Nat} {score : Fin n → Float} {bound : Float} {i j : Fin n}

/-- The first of two places is ranked before the second. -/
def RankedBefore (score : Fin n → Float) (i j : Fin n) : Prop := Precedes (score i) i (score j) j

instance (score : Fin n → Float) (i j : Fin n) : Decidable (RankedBefore score i j) :=
  inferInstanceAs (Decidable (Precedes _ _ _ _))

/-- The places with a score that is high enough, in the order of their ranking. -/
def ranking (score : Fin n → Float) (bound : Float) : List (Fin n) :=
  ((List.finRange n).filter fun i => atLeast (score i) bound).mergeSort fun i j =>
    atLeast (score i) (score j)

theorem mem_ranking : i ∈ ranking score bound ↔ atLeast (score i) bound = true := by
  simp [ranking]

/-- **What is sorted by score, with ties as they stood, is in the order of its ranking.** -/
theorem pairwise_ranking (score : Fin n → Float) (bound : Float) :
    (ranking score bound).Pairwise (RankedBefore score) := by
  let close : List (Fin n) := (List.finRange n).filter fun i => atLeast (score i) bound
  let le (i j : Fin n) : Bool := Binary64.signedRank (score j) ≤ Binary64.signedRank (score i)
  have hnumber : ∀ i ∈ close, Binary64.isNaN (score i) = false := fun i hi =>
    (atLeast_iff.1 (List.mem_filter.1 hi).2).1
  -- all these scores are numbers, so that whole numbers may be compared instead
  have hsort : ranking score bound = close.mergeSort le := by
    have hmap := List.map_mergeSort (f := id) (r := fun i j => atLeast (score i) (score j))
      (s := le) (l := close) fun i hi j hj => by
        rw [Bool.eq_iff_iff, atLeast_iff]
        simp [le, hnumber i hi, hnumber j hj]
    rwa [List.map_id, List.map_id] at hmap
  have hstable : (close.mergeSort le).Pairwise fun i j => le i j ∧ (le j i → i < j) := by
    refine pairwise_mergeSort_stable ?_ ?_ ((List.pairwise_lt_finRange n).filter _)
    · intro i j k hij hjk
      simp only [le, decide_eq_true_eq] at hij hjk ⊢
      omega
    · intro i j
      simp only [le, Bool.or_eq_true, decide_eq_true_eq]
      omega
  rw [hsort]
  refine hstable.imp_of_mem fun {i j} hi hj ⟨hij, htie⟩ => ?_
  have hi := hnumber i (List.mem_mergeSort.1 hi)
  have hj := hnumber j (List.mem_mergeSort.1 hj)
  simp only [le, decide_eq_true_eq] at hij htie
  rcases Int.lt_or_eq_of_le hij with hlt | heq
  · exact precedes_iff.2 ⟨hi, hj, .inl hlt⟩
  · exact precedes_iff.2 ⟨hi, hj, .inr ⟨heq.symm, htie (Int.le_of_eq heq.symm)⟩⟩

/-- What is left out of the first places of the ranking is not ranked before any of them. -/
theorem not_rankedBefore_of_mem_take {limit : Nat} (hi : i ∈ (ranking score bound).take limit)
    (hj : j ∉ (ranking score bound).take limit) : ¬ RankedBefore score j i := by
  intro hbefore
  have hclose : atLeast (score j) bound = true :=
    Precedes.atLeast hbefore (mem_ranking.1 (List.mem_of_mem_take hi))
  have hmem : j ∈ (ranking score bound).take limit ++ (ranking score bound).drop limit := by
    rw [List.take_append_drop]
    exact mem_ranking.2 hclose
  have hdrop : j ∈ (ranking score bound).drop limit := (List.mem_append.1 hmem).resolve_left hj
  have hpairwise := pairwise_ranking score bound
  rw [← List.take_append_drop limit (ranking score bound), List.pairwise_append] at hpairwise
  exact Precedes.asymm (hpairwise.2.2 i hi j hdrop) hbefore

end

/-! ## The matches of a name -/

/-- How similar the candidates are to a name, by their places. -/
def scores (name : String) (candidates : List String) (i : Fin candidates.length) : Float :=
  nameRatio name candidates[i]

/-- A candidate as a match. -/
def matchAt (name : String) (candidates : List String) (i : Fin candidates.length) : Match :=
  ⟨candidates[i], scores name candidates i, i⟩

section

variable (name : String) (candidates : List String) (cutoff : Float)

/-- The matches of a name, in the order of their ranking. -/
def rankedMatches : List Match :=
  (ranking (scores name candidates) cutoff).map (matchAt name candidates)

variable {name candidates cutoff}

theorem mem_rankedMatches {m : Match} : m ∈ rankedMatches name candidates cutoff ↔
    candidates[m.place]? = some m.name ∧ IsRatio name m.name m.score ∧
      atLeast m.score cutoff = true := by
  rw [rankedMatches, List.mem_map, isRatio_iff]
  constructor
  · rintro ⟨i, hi, rfl⟩
    exact ⟨List.getElem?_eq_getElem i.isLt, rfl, mem_ranking.1 hi⟩
  · rintro ⟨hplace, hscore, hclose⟩
    obtain ⟨hlt, hname⟩ := List.getElem?_eq_some_iff.1 hplace
    have hm : matchAt name candidates ⟨m.place, hlt⟩ = m := by
      cases m with
      | mk c score place =>
        dsimp only at hlt hname hscore
        subst hname hscore
        rfl
    exact ⟨⟨m.place, hlt⟩, mem_ranking.2 (by rwa [← hm] at hclose), hm⟩

variable (name candidates cutoff) in
theorem pairwise_rankedMatches : (rankedMatches name candidates cutoff).Pairwise Match.Before :=
  List.pairwise_map.2 (pairwise_ranking _ _)

end

theorem nodup_of_pairwise_before {ms : List Match} (h : ms.Pairwise Match.Before) : ms.Nodup := by
  refine h.imp ?_
  rintro a _ hab rfl
  exact Precedes.asymm hab hab

/-- **There is one list of matches to find.** -/
theorem Extract.RanksByRatio.matches_eq {extract : Extract} (h : extract.RanksByRatio)
    (name : String) (candidates : List String) (cutoff : Float) :
    extract name candidates none cutoff = rankedMatches name candidates cutoff := by
  have hsorted := h.sorted name candidates cutoff
  have hranked := pairwise_rankedMatches name candidates cutoff
  have hperm : (extract name candidates none cutoff).Perm (rankedMatches name candidates cutoff) :=
    (List.perm_ext_iff_of_nodup (nodup_of_pairwise_before hsorted)
      (nodup_of_pairwise_before hranked)).2 fun m => by rw [h.mem_iff, mem_rankedMatches]
  exact hperm.eq_of_pairwise (fun _ _ _ _ hab hba => absurd hba (Precedes.asymm hab)) hsorted hranked

theorem extractByRatio_none (name : String) (candidates : List String) (cutoff : Float) :
    extractByRatio name candidates none cutoff = rankedMatches name candidates cutoff := by
  have hscored : candidates.mapIdx (fun i c => (⟨c, nameRatio name c, i⟩ : Match)) =
      (List.finRange candidates.length).map (matchAt name candidates) := by
    rw [List.mapIdx_eq_ofFn, List.ofFn_eq_map]
    rfl
  dsimp only [extractByRatio, Option.elim, rankedMatches, ranking]
  rw [hscored, List.filter_map]
  symm
  apply List.map_mergeSort
  intro i _ j _
  rfl

/-- **What is relied on holds of `extractByRatio`.** -/
theorem extractByRatio_ranks : extractByRatio.RanksByRatio where
  mem_iff name candidates cutoff m := by rw [extractByRatio_none, mem_rankedMatches]
  sorted name candidates cutoff := by
    rw [extractByRatio_none]
    exact pairwise_rankedMatches name candidates cutoff
  limited name candidates limit cutoff := rfl

/-! ## The suggestions -/

/-- What is suggested are the candidates in the first places of the ranking. -/
theorem closestNames_eq {extract : Extract} (h : extract.RanksByRatio) (name : String)
    (candidates : List String) (limit : Nat) (similarity : Float) :
    closestNames extract name candidates limit similarity =
      ((ranking (scores name candidates) (similarity * 100)).take limit).map (candidates[·]) := by
  have hsorted : ((rankedMatches name candidates (similarity * 100)).take limit).Pairwise
      fun a b => (Binary64.order (-b.score) (-a.score) != some .lt) = true :=
    (pairwise_rankedMatches name candidates (similarity * 100)).take.imp Precedes.order_neg_ne
  dsimp only [closestNames]
  rw [h.limited, h.matches_eq, List.mergeSort_of_pairwise hsorted, rankedMatches, ← List.map_take,
    List.map_map]
  rfl

/-- **The suggestions are the best matches.** -/
theorem closestNames_best {extract : Extract} (h : extract.RanksByRatio) (name : String)
    (candidates : List String) (limit : Nat) (similarity : Float) :
    ∃ score : Fin candidates.length → Float,
      (∀ i, ∃ common, LongestCommon name.toList candidates[i].toList common ∧
        score i = ratio (name.length + candidates[i].length)
          (name.length + candidates[i].length - 2 * common)) ∧
      ∃ picked : List (Fin candidates.length),
        closestNames extract name candidates limit similarity = picked.map (candidates[·]) ∧
        picked.length = min limit ((List.finRange candidates.length).countP fun i =>
          atLeast (score i) (similarity * 100)) ∧
        (∀ i ∈ picked, atLeast (score i) (similarity * 100) = true) ∧
        picked.Pairwise (RankedBefore score) ∧
        ∀ i ∈ picked, ∀ j ∉ picked, ¬ RankedBefore score j i := by
  refine ⟨scores name candidates, fun i => ⟨_, longestCommon_commonLength _ _, rfl⟩, ?_⟩
  refine ⟨_, closestNames_eq h name candidates limit similarity, ?_, ?_, ?_, ?_⟩
  · rw [List.length_take, ranking, List.length_mergeSort, ← List.countP_eq_length_filter]
  · exact fun i hi => mem_ranking.1 (List.mem_of_mem_take hi)
  · exact (pairwise_ranking _ _).take
  · exact fun i hi j hj => not_rankedBefore_of_mem_take hi hj

/-- Two candidates are equally close, and there is room for one of them only. -/
theorem closestNames_best_sum :
    extractByRatio.RanksByRatio ∧
      closestNames extractByRatio "sum" ["sim", "mul", "sums", "mum"] 2 0.6 = ["sums", "sim"] := by
  let candidates : List String := ["sim", "mul", "sums", "mum"]
  -- with two places to fill, the conditions leave one choice
  have hplaces : ∀ i j : Fin candidates.length, RankedBefore (scores "sum" candidates) i j →
      (∀ k, k ∉ [i, j] → ¬ RankedBefore (scores "sum" candidates) k j) →
      [i, j].map (candidates[·]) = ["sums", "sim"] := by decide +kernel
  refine ⟨extractByRatio_ranks, ?_⟩
  obtain ⟨score, hscore, picked, hpicked, hlength, -, hsorted, hbest⟩ :=
    closestNames_best extractByRatio_ranks "sum" candidates 2 0.6
  have hscores : score = scores "sum" candidates := by
    funext i
    obtain ⟨common, hcommon, hi⟩ := hscore i
    rw [hi, hcommon.unique (longestCommon_commonLength _ _)]
    rfl
  subst hscores
  have hcount : ((List.finRange candidates.length).countP fun i =>
      atLeast (scores "sum" candidates i) (0.6 * 100)) = 3 := by decide +kernel
  rw [hcount] at hlength
  obtain ⟨i, j, rfl⟩ := List.length_eq_two.1 hlength
  have hij : RankedBefore (scores "sum" candidates) i j := by simpa using hsorted
  have hj := hbest j (by simp)
  rw [hpicked, hplaces i j hij hj]

end Formulary
