import Formulary.Proofs.Evaluation.Agreement
import Mathlib.Data.List.Sort
import Mathlib.Data.String.Basic

/-!
# What variables and ranges depend on

A range walks over the whole table of variables, yet **it depends only on what the names between
its ends are bound to**, and not on the order of the table (`valueOf_congr`): its entries are
those names with their values (`mem_rangeEntries`), each once and in the order of the names
(`pairwise_rangeEntries`), and no two lists are like this (`eq_of_mem_iff`).

**The value of a range is what lies in its interval** (`evaluate_range`), once each and in order.
So a range may be cut in two at any name between its ends that is not bound itself.
-/

namespace Formulary

namespace Table

variable {α : Type} {t t' : Table α}

/-- The tables hold the same entries, in any order. -/
def SameEntries (t t' : Table α) : Prop := t.entries.Perm t'.entries

theorem SameEntries.find?_eq (h : t.SameEntries t') (k : String) : t'.find? k = t.find? k := by
  ext a
  rw [← mem_entries_iff, ← mem_entries_iff]
  exact h.mem_iff.symm

theorem SameEntries.size_eq (h : t.SameEntries t') : t'.size = t.size := h.length_eq.symm

end Table

namespace Environment

variable {vars vars' : Table Value} {first last name x : String} {v : Value}

/-- The entries of a table are sorted by their names, of which no two are the same. -/
theorem pairwise_sortedEntries {α : Type} (t : Table α) :
    (sortedEntries t).Pairwise fun a b => a.1 < b.1 := by
  have hperm : (sortedEntries t).Perm t.entries := List.mergeSort_perm _ _
  have hnodup : (sortedEntries t).Pairwise fun a b => a.1 ≠ b.1 :=
    List.pairwise_map.1 ((hperm.map _).nodup_iff.2 t.nodup_keys)
  have hsorted : (sortedEntries t).Pairwise fun a b => a.1 ≤ b.1 := by
    refine (List.pairwise_mergeSort ?_ ?_ t.entries).imp of_decide_eq_true
    · intro a b c hab hbc
      exact decide_eq_true (le_trans (of_decide_eq_true hab) (of_decide_eq_true hbc))
    · intro a b
      rw [Bool.or_eq_true, decide_eq_true_eq, decide_eq_true_eq]
      exact le_total a.1 b.1
  exact hsorted.imp₂ (fun _ _ => lt_of_le_of_ne) hnodup

/-- The variables whose names lie between two names, in the order of their names. -/
def rangeEntries (vars : Table Value) (first last : String) : List (String × Value) :=
  (sortedEntries vars).filter fun (k, _) => first ≤ k && k ≤ last

theorem rangeValues_eq_map (vars : Table Value) (first last : String) :
    rangeValues vars first last = (rangeEntries vars first last).map (·.2) := rfl

theorem mem_rangeEntries :
    (x, v) ∈ rangeEntries vars first last ↔ vars.find? x = some v ∧ first ≤ x ∧ x ≤ last := by
  have hperm : (sortedEntries vars).Perm vars.entries := List.mergeSort_perm _ _
  rw [rangeEntries, List.mem_filter, hperm.mem_iff, Table.mem_entries_iff, Bool.and_eq_true,
    decide_eq_true_eq, decide_eq_true_eq]

theorem pairwise_rangeEntries (vars : Table Value) (first last : String) :
    (rangeEntries vars first last).Pairwise fun a b => a.1 < b.1 :=
  (pairwise_sortedEntries vars).filter _

/-- Two lists of the same entries, both in the order of their names, are the same. -/
theorem eq_of_mem_iff {es es' : List (String × Value)} (hes : es.Pairwise fun a b => a.1 < b.1)
    (hes' : es'.Pairwise fun a b => a.1 < b.1) (h : ∀ e, e ∈ es ↔ e ∈ es') : es = es' := by
  have hnodup {es : List (String × Value)} (hes : es.Pairwise fun a b => a.1 < b.1) : es.Nodup :=
    hes.imp fun hlt heq => absurd (congrArg Prod.fst heq) hlt.ne
  have hperm := (List.perm_ext_iff_of_nodup (hnodup hes) (hnodup hes')).2 h
  exact hperm.eq_of_pairwise (fun _ _ _ _ hlt hgt => absurd hlt hgt.asymm) hes hes'

/-- **A range depends on the names between its ends alone.** -/
theorem rangeEntries_congr (h : ∀ x, first ≤ x → x ≤ last → vars'.find? x = vars.find? x) :
    rangeEntries vars' first last = rangeEntries vars first last := by
  refine eq_of_mem_iff (pairwise_rangeEntries _ _ _) (pairwise_rangeEntries _ _ _) ?_
  rintro ⟨x, v⟩
  rw [mem_rangeEntries, mem_rangeEntries]
  refine and_congr_left fun ⟨hfirst, hlast⟩ => ?_
  rw [h x hfirst hlast]

/-- The value of a variable of this name depends on the variable `x`. -/
def Covers (name x : String) : Prop :=
  match rangeEnds? name with
  | some (first, last) => first ≤ x ∧ x ≤ last
  | none => x = name

/-- **What a variable or a range stands for depends on the names that it covers.** -/
theorem valueOf_congr (h : ∀ x, Covers name x → vars'.find? x = vars.find? x) :
    valueOf vars' name = valueOf vars name := by
  unfold valueOf
  unfold Covers at h
  split
  · rename_i first last hends
    rw [hends] at h
    rw [rangeValues_eq_map, rangeValues_eq_map,
      rangeEntries_congr fun x hfirst hlast => h x ⟨hfirst, hlast⟩]
  · rename_i hends
    rw [hends] at h
    rw [h name rfl]

/-! ## Intervals -/

/-- A range is cut in two at a name that is not bound. -/
theorem rangeEntries_append {middle : String} (hfirst : first ≤ middle) (hlast : middle ≤ last)
    (hmiddle : vars.find? middle = none) :
    rangeEntries vars first middle ++ rangeEntries vars middle last =
      rangeEntries vars first last := by
  have hne {x : String} {v : Value} (h : vars.find? x = some v) : x ≠ middle := by
    rintro rfl
    cases hmiddle.symm.trans h
  refine eq_of_mem_iff (List.pairwise_append.2 ⟨pairwise_rangeEntries _ _ _,
    pairwise_rangeEntries _ _ _, ?_⟩) (pairwise_rangeEntries _ _ _) ?_
  · rintro ⟨x, v⟩ hx ⟨y, w⟩ hy
    obtain ⟨hbound, -, hle⟩ := mem_rangeEntries.1 hx
    obtain ⟨-, hge, -⟩ := mem_rangeEntries.1 hy
    exact (lt_of_le_of_ne hle (hne hbound)).trans_le hge
  · rintro ⟨x, v⟩
    rw [List.mem_append, mem_rangeEntries, mem_rangeEntries, mem_rangeEntries]
    constructor
    · rintro (⟨hbound, hge, hle⟩ | ⟨hbound, hge, hle⟩)
      · exact ⟨hbound, hge, hle.trans hlast⟩
      · exact ⟨hbound, hfirst.trans hge, hle⟩
    · rintro ⟨hbound, hge, hle⟩
      rcases le_total x middle with hx | hx
      · exact .inl ⟨hbound, hge, hx⟩
      · exact .inr ⟨hbound, hx, hle⟩

/-- What stands before the first of some characters. -/
theorem takeWhile_before {c : Char} {before behind : List Char} (h : c ∉ before) :
    (before ++ c :: behind).takeWhile (· != c) = before := by
  have hpos : ∀ a ∈ before, (a != c) = true := by
    rintro a ha
    rw [bne_iff_ne]
    rintro rfl
    exact h ha
  rw [List.takeWhile_append_of_pos hpos, List.takeWhile_cons_of_neg (by simp), List.append_nil]

/-- **The ends of a range** are what stands before its first colon and behind its last one. -/
theorem rangeEnds?_eq_some {before behind : String} (hfirst : name = first ++ ":" ++ behind)
    (hno_first : ':' ∉ first.toList) (hlast : name = before ++ ":" ++ last)
    (hno_last : ':' ∉ last.toList) : rangeEnds? name = some (first, last) := by
  have hleft : name.toList = first.toList ++ ':' :: behind.toList := by
    rw [hfirst]
    simp
  have hright : name.toList.reverse = last.toList.reverse ++ ':' :: before.toList.reverse := by
    rw [hlast]
    simp
  have hcolon : name.toList.contains ':' = true := by
    rw [hleft]
    simp
  have hno_last' : ':' ∉ last.toList.reverse := by
    rwa [List.mem_reverse]
  unfold rangeEnds?
  dsimp only
  rw [if_pos hcolon, hright, hleft, takeWhile_before hno_first, takeWhile_before hno_last',
    List.reverse_reverse, String.ofList_toList, String.ofList_toList]

/-- A name with a colon has such ends. -/
theorem exists_ends (h : ':' ∈ name.toList) : ∃ first behind before last : String,
    name = first ++ ":" ++ behind ∧ ':' ∉ first.toList ∧
      name = before ++ ":" ++ last ∧ ':' ∉ last.toList := by
  obtain ⟨first, behind, hleft, hfirst⟩ := List.eq_append_cons_of_mem h
  obtain ⟨last, before, hright, hlast⟩ := List.eq_append_cons_of_mem (List.mem_reverse.2 h)
  have hright : name.toList = before.reverse ++ ':' :: last.reverse := by
    rw [← List.reverse_reverse name.toList, hright]
    simp
  refine ⟨.ofList first, .ofList behind, .ofList before.reverse, .ofList last.reverse, ?_, ?_, ?_,
    ?_⟩
  · rw [← String.toList_inj, hleft]
    simp
  · simpa using hfirst
  · rw [← String.toList_inj, hright]
    simp
  · simpa using hlast

/-- A variable has its value, if a trace can show it. -/
theorem result_evaluate_var (env : Environment) (mode : Mode) (name : String) :
    (env.evaluate mode (.var name)).result =
      displayed mode.traced (.ok (valueOf env.vars name)) := by
  show ((env.scope mode).evaluate (.var name) 0).result = _
  rw [Scope.evaluate_eq_close]
  rfl

theorem result_evaluate_range (env : Environment) (mode : Mode)
    (h : rangeEnds? name = some (first, last)) :
    (env.evaluate mode (.var name)).result =
      displayed mode.traced (.ok (.sequence ((rangeEntries env.vars first last).map (·.2)))) := by
  rw [result_evaluate_var, valueOf, h]
  rfl

/-- **A range collects exactly its interval**: what the names from what stands before its first
colon to what stands behind its last one are bound to, each once and in the order of the names. So
a name in between that is not bound itself cuts it in two. A trace, if one is kept, has to show the
values; without one, `displayed` changes nothing. -/
theorem evaluate_range (env : Environment) (mode : Mode) :
    (∀ name, ':' ∈ name.toList → ∃ first behind before last : String,
      (name = first ++ ":" ++ behind ∧ ':' ∉ first.toList) ∧
      (name = before ++ ":" ++ last ∧ ':' ∉ last.toList) ∧
      ∃ entries : List (String × Value),
        (env.evaluate mode (.var name)).result =
          displayed mode.traced (.ok (.sequence (entries.map (·.2)))) ∧
        (entries.Pairwise fun a b => a.1 < b.1) ∧
        ∀ k v, (k, v) ∈ entries ↔ env.vars.find? k = some v ∧ first ≤ k ∧ k ≤ last) ∧
    ∀ first middle last : String, ':' ∉ first.toList → ':' ∉ middle.toList → ':' ∉ last.toList →
      first ≤ middle → middle ≤ last → env.vars.find? middle = none → ∃ vs ws : List Value,
        (env.evaluate mode (.var (first ++ ":" ++ middle))).result =
          displayed mode.traced (.ok (.sequence vs)) ∧
        (env.evaluate mode (.var (middle ++ ":" ++ last))).result =
          displayed mode.traced (.ok (.sequence ws)) ∧
        (env.evaluate mode (.var (first ++ ":" ++ last))).result =
          displayed mode.traced (.ok (.sequence (vs ++ ws))) := by
  constructor
  · intro name hname
    obtain ⟨first, behind, before, last, hleft, hfirst, hright, hlast⟩ := exists_ends hname
    exact ⟨first, behind, before, last, ⟨hleft, hfirst⟩, ⟨hright, hlast⟩,
      rangeEntries env.vars first last,
      result_evaluate_range env mode (rangeEnds?_eq_some hleft hfirst hright hlast),
      pairwise_rangeEntries _ _ _, fun _ _ => mem_rangeEntries⟩
  · intro first middle last hfirst hmiddle hlast hle hle' hunbound
    have hends {a b : String} (ha : ':' ∉ a.toList) (hb : ':' ∉ b.toList) :=
      result_evaluate_range env mode (rangeEnds?_eq_some rfl ha rfl hb)
    refine ⟨_, _, hends hfirst hmiddle, hends hmiddle hlast, ?_⟩
    rw [hends hfirst hlast, ← rangeEntries_append hle hle' hunbound, List.map_append]

/-- Names are between others by their characters: `r10` is before `r15`, and `r2` behind it. -/
theorem evaluate_range_cut :
    let env : Environment := ⟨.ofList [("r2", .text "d"), ("r1:x", .text "c"), ("é", .text "e"),
      ("r10", .text "b"), ("r1", .text "a")], .empty, .empty⟩
    ∃ vs ws : List Value,
      (env.evaluate {} (.var "r1:r15")).result = .ok (.sequence vs) ∧
      (env.evaluate {} (.var "r15:r2")).result = .ok (.sequence ws) ∧
      (env.evaluate {} (.var "r1:r2")).result = .ok (.sequence (vs ++ ws)) := by
  intro env
  have hunbound : env.vars.find? "r15" = none := by rfl
  exact (evaluate_range env {}).2 "r1" "r15" "r2" (by decide) (by decide) (by decide) (by decide)
    (by decide) hunbound

end Environment

end Formulary
