import Formulary.Proofs.Source.Output
import Formulary.Proofs.Source.Reading

/-!
# Every derivation is read

**A text that the grammar derives is read as the tree of its derivation**
(`parse_of_derivesFormula`), and nothing is reported about it.

Reading ends by regrouping the tree. What is derived at a level of the grammar is what a parser at
this level may emit (`emitted_of_derives`): an operator has its operands from the levels that bind as
tightly on its left and more tightly on its right. The tree is grouped to the left already, so
regrouping leaves it as it is.
-/

namespace Formulary.Parser

open Grammar

variable {n : Nat} {s : List Char} {e : Expr}

theorem emitted_of_derives (h : Derives n s e) : Emitted n e := by
  induction h with
  | number hs hx hb =>
    exact ⟨Expr.everywhere_number.2 ⟨Binary64.rank_of_ofNumeral? hx, trivial, trivial⟩,
      Nat.le_refl 4⟩
  | text hb => exact ⟨Expr.everywhere_text.2 ⟨trivial, trivial, trivial⟩, Nat.le_refl 4⟩
  | var hname hb => exact ⟨Expr.everywhere_var.2 ⟨hname, trivial, trivial⟩, Nat.le_refl 4⟩
  | reference hb hname hb' =>
    exact ⟨Expr.everywhere_reference.2 ⟨hname, trivial, trivial⟩, Nat.le_refl 4⟩
  | bracket hb he hb' ih =>
    exact ⟨Expr.everywhere_bracket.2 ⟨⟨trivial, trivial, trivial⟩, ih.everywhere⟩, Nat.le_refl 4⟩
  | call hname hb has hlead hempty hcontent hb' ih =>
    refine ⟨Expr.everywhere_call.2 ⟨⟨hname, trivial, trivial⟩, ?_⟩, Nat.le_refl 4⟩
    intro e he
    obtain ⟨a, ha, htree⟩ := List.mem_filterMap.1 he
    exact (ih a ha e htree).everywhere
  | @minus b s e hb he ih =>
    have hfour : e.binding = 4 := Nat.le_antisymm (Expr.binding_le_four e) ih.binding
    exact ⟨Expr.everywhere_minus.2 ⟨⟨trivial, hfour, trivial⟩, ih.everywhere⟩, Nat.le_refl 4⟩
  | plus hb he ih => exact ih
  | arith hl hb hr ihl ihr => exact emitted_arith ihl ihr
  | compare hl hb hr hop ihl ihr => exact emitted_compare ihl ihr
  | loosen hn he ih => exact ih.mono (Nat.le_succ _)

theorem regroup_of_derives (h : Derives n s e) : e.regroup = e :=
  Expr.regroup_eq_self ((emitted_of_derives h).everywhere.mono fun _ hn => hn.2.2)

theorem ofSource_of_derivesFormula (h : DerivesFormula s e) :
    Reading.ofSource (String.ofList s) = ⟨.ok e, []⟩ := by
  cases h with
  | marked hlead hb hs => rw [ofSource_marked hlead hb hs, regroup_of_derives hs]
  | unmarked hlead hs heq => rw [ofSource_unmarked hlead hs heq, regroup_of_derives hs]

/-- **Every derivation is read**: the formula is accepted, its tree is the one derived, and nothing
is reported. -/
theorem parse_of_derivesFormula {source : String} (h : DerivesFormula source.toList e) :
    Expr.parse source = .ok e ∧ (Reading.ofSource source).log source = [] := by
  have hread := ofSource_of_derivesFormula h
  rw [String.ofList_toList] at hread
  unfold Expr.parse Reading.log
  rw [hread]
  exact ⟨rfl, rfl⟩

/-- A sign, a product in a difference, an empty argument, and a blank that keeps a comparison from a
reference. -/
theorem parse_difference_compared :
    Expr.parse "=-a*b-f(;\"q\") < =c" =
        .ok (.compare (.arith (.arith (.minus (.var "a")) .mul (.var "b")) .sub
          (.call "f" [.text "q"])) .lt (.reference "c")) ∧
      (Reading.ofSource "=-a*b-f(;\"q\") < =c").log "=-a*b-f(;\"q\") < =c" = [] := by
  have ha : Derives 4 ['-', 'a'] (.minus (.var "a")) :=
    .minus blank_nil (@Derives.var "a" [] (by decide) blank_nil)
  have hb : Derives 4 ['b'] (.var "b") := @Derives.var "b" [] (by decide) blank_nil
  have hq : Derives 4 ['"', 'q', '"'] (.text "q") := @Derives.text "q" [] blank_nil
  have hf : Derives 4 ['f', '(', ';', '"', 'q', '"', ')', ' '] (.call "f" [.text "q"]) := by
    refine @Derives.call "f" [] [' '] [⟨[], [], none⟩, ⟨[], ['"', 'q', '"'], some (.text "q")⟩]
      (by decide) blank_nil nofun ?_ ?_ ?_ blank_space
    · simp [blank_nil]
    · simp [Pluses.nil]
    · simp [hq.mono (by decide) (Nat.zero_le 4)]
  have hc : Derives 4 ['=', 'c'] (.reference "c") :=
    @Derives.reference "c" [] [] blank_nil (by decide) blank_nil
  have hab : Derives 2 _ _ := @Derives.arith _ [] _ _ _ .mul (ha.mono (by decide) (by decide))
    blank_nil (hb.mono (by decide) (by decide))
  have hleft : Derives 1 _ _ := @Derives.arith _ [] _ _ _ .sub (hab.mono (by decide) (by decide))
    blank_nil (hf.mono (by decide) (by decide))
  have hwhole : Derives 0 _ _ := @Derives.compare _ [' '] _ _ _ .lt hleft blank_space
    (hc.mono (by decide) (by decide)) fun _ hnil => nomatch hnil
  exact parse_of_derivesFormula (@DerivesFormula.marked [] [] _ _ blank_nil blank_nil hwhole)

end Formulary.Parser
