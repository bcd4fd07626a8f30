import Formulary.Proofs.Evaluation.Agreement
import Formulary.Proofs.Source.RoundTrip

/-!
# Evaluating what was written and read back

The source of a tree that was read can always be read again, and what is read is the tree itself or
one that differs from it in one respect: **an infinite number comes back as the variable `inf`**
(`spelled`). No numeral of the grammar stands for infinity in so many words, but every numeral that
is large enough does.

So a tree without infinite numbers means the same when it is written and read back, in every
environment; and one with infinite numbers does so where the variable is bound to infinity. Elsewhere
the meaning may change (`evaluate_reprinted_overflow`).

Main result: `evaluate_reprinted`.
-/

namespace Formulary

/-- The infinite double without a sign. -/
def Binary64.inf : Float := toFloat false infinity

namespace Expr

open Grammar

/-! ## Infinite numbers in trees -/

/-- A number is not infinite. -/
def FiniteNode : Expr → Prop
  | .number x => Binary64.IsFinite x
  | _ => True

theorem spelled_eq_self_iff (e : Expr) : e.spelled = e ↔ e.Everywhere FiniteNode := by
  induction e with
  | number x =>
    rw [everywhere_number, spelled]
    show _ ↔ Binary64.IsFinite x
    split_ifs with hx
    · exact iff_of_true rfl hx
    · refine iff_of_false (fun h => ?_) hx
      cases h
  | text s => exact iff_of_true rfl (everywhere_text.2 trivial)
  | var name => exact iff_of_true rfl (everywhere_var.2 trivial)
  | reference name => exact iff_of_true rfl (everywhere_reference.2 trivial)
  | bracket e ih =>
    rw [spelled, bracket.injEq, ih, everywhere_bracket]
    exact (and_iff_right trivial).symm
  | minus e ih =>
    rw [spelled, minus.injEq, ih, everywhere_minus]
    exact (and_iff_right trivial).symm
  | arith l op r hl hr =>
    rw [spelled, arith.injEq, hl, hr, everywhere_arith]
    simp only [true_and]
    exact (and_iff_right trivial).symm
  | compare l op r hl hr =>
    rw [spelled, compare.injEq, hl, hr, everywhere_compare]
    simp only [true_and]
    exact (and_iff_right trivial).symm
  | call name es ih =>
    have hes : es.map spelled = es ↔ ∀ e ∈ es, e.spelled = e := by
      conv_lhs => rhs; rw [← List.map_id es]
      exact List.map_inj_left
    rw [spelled, call.injEq, spelledList_eq_map, hes, everywhere_call]
    simp only [true_and]
    exact (forall₂_congr ih).trans (and_iff_right trivial).symm

theorem not_isFinite_inf : ¬ Binary64.IsFinite Binary64.inf := by
  rw [Binary64.IsFinite, Binary64.inf, Binary64.rank_toFloat (Nat.le_refl _)]
  exact Nat.lt_irrefl _

theorem eq_inf {x : Float} (hx : Parser.ReadNumber x) (h : ¬ Binary64.IsFinite x) :
    x = Binary64.inf := by
  have hrank : Binary64.rank x = Binary64.infinity :=
    Nat.le_antisymm hx.1 (Nat.le_of_not_lt h)
  rw [← Binary64.toFloat_rank hx.2, hrank, Binary64.inf]

/-- **Writing and reading back replaces infinity by the variable**, and nothing else. -/
theorem replaces_spelled {e : Expr} (h : e.Everywhere (LexicalNode Parser.ReadNumber)) :
    e.Replaces (fun e e' => e.SameLeaf e' ∨ e = .number Binary64.inf ∧ e' = .var "inf")
      e.spelled := by
  induction e with
  | number x =>
    refine .here ?_
    rw [spelled]
    split_ifs with hx
    · exact .inl (.number x)
    · rw [eq_inf (everywhere_number.1 h) hx]
      exact .inr ⟨rfl, rfl⟩
  | text s => exact .here (.inl (.text s))
  | var name => exact .here (.inl (.var name))
  | reference name => exact .here (.inl (.reference name))
  | bracket e ih => exact .bracket (ih (everywhere_bracket.1 h).2)
  | minus e ih => exact .minus (ih (everywhere_minus.1 h).2)
  | arith l op r hl hr =>
    obtain ⟨-, hle, hre⟩ := everywhere_arith.1 h
    exact .arith (hl hle) (hr hre)
  | compare l op r hl hr =>
    obtain ⟨-, hle, hre⟩ := everywhere_compare.1 h
    exact .compare (hl hle) (hr hre)
  | call name es ih =>
    have hes := (everywhere_call.1 h).2
    rw [spelled, spelledList_eq_map]
    exact replaces_call_map fun e he => ih e he (hes e he)

/-! ## Numbers -/

/-- **A number is read back from its text exactly if it is finite.** -/
theorem readNumber_positional_iff {x : Float} (hx : Parser.ReadNumber x) :
    (Cursor.readNumber ⟨Binary64.positional x, 0⟩).1 = .ok x ↔ Binary64.IsFinite x := by
  by_cases hfin : Binary64.IsFinite x
  · refine iff_of_true ?_ hfin
    obtain ⟨hread, whole, fraction, hparts⟩ := Binary64.ofNumeral?_positional hfin hx.2
    have hend : ∀ c ∈ ([] : List Char).head?, Text.isNumeral c = false := nofun
    have h := Parser.readNumber_append (isNumeral_of_parts hparts) hread hend 0
    rw [List.append_nil] at h
    rw [h]
  · refine iff_of_false ?_ hfin
    rw [positional_infinite hx hfin]
    exact nofun

/-! ## Trees -/

theorem parse_source_spelled {source : String} {t : Expr} (h : parse source = .ok t) :
    parse t.source = .ok t.spelled := by
  have hread := Parser.everywhere_of_parse h
  have hsource : t.spelled.source = t.source := by
    unfold Expr.source
    rw [write_spelled (hread.mono fun n hn => hn.1)]
  rw [← hsource]
  exact (wellFormed_spelled hread).parse_source

end Expr

namespace Environment

variable {env : Environment} {mode : Mode} {t : Expr}

theorem valueOf_inf (h : env.vars.find? "inf" = some (.ofFloat Binary64.inf)) :
    valueOf env.vars "inf" = .ofFloat Binary64.inf := by
  have hends : rangeEnds? "inf" = none := by rfl
  rw [valueOf, hends, h]
  rfl

theorem result_evaluate_spelled (ht : t.Everywhere (Expr.LexicalNode Parser.ReadNumber))
    (h : env.vars.find? "inf" = some (.ofFloat Binary64.inf)) :
    (env.evaluate mode t).result = (env.evaluate mode t.spelled).result := by
  refine Scope.evaluate_related (D := Eq) (s := env.scope mode) Outcome.congruence_result
    (Scope.apply_related Outcome.congruence_result rfl) ?_ ?_ ?_ (Expr.replaces_spelled ht) 0 0 rfl
  · rintro d _ rfl
    rfl
  · exact fun _ _ _ _ _ _ _ _ ho => Outcome.result_close_congr rfl ho
  · rintro e e' d _ (hleaf | ⟨rfl, rfl⟩) rfl
    · rw [hleaf.eq]
    · rw [Scope.evaluate_eq_close, Scope.evaluate_eq_close]
      exact Outcome.result_close_congr rfl (congrArg Except.ok (valueOf_inf h).symm)

end Environment

namespace Expr

open Grammar

/-- **A tree that was read can be written and read back, and it means the same as before** unless
it has infinite numbers, which are read back as the variable `inf`: then it means the same where
this variable is bound to infinity. -/
theorem evaluate_reprinted {source : String} {t : Expr} (h : parse source = .ok t) :
    parse t.source = .ok t.spelled ∧
    (t.spelled = t ↔ t.Everywhere FiniteNode) ∧
    (∀ x, .number x ∈ t.nodes →
      ((Cursor.readNumber ⟨Binary64.positional x, 0⟩).1 = .ok x ↔ Binary64.IsFinite x)) ∧
    ∀ env : Environment, ∀ mode : Environment.Mode,
      t.Everywhere FiniteNode ∨ env.vars.find? "inf" = some (.ofFloat Binary64.inf) →
      (env.evaluate mode t).result = (env.evaluate mode t.spelled).result := by
  have hlexical : t.Everywhere (LexicalNode Parser.ReadNumber) :=
    (Parser.everywhere_of_parse h).mono fun n hn => hn.1
  refine ⟨parse_source_spelled h, spelled_eq_self_iff t, ?_, ?_⟩
  · intro x hx
    exact readNumber_positional_iff (hlexical _ hx)
  · rintro env mode (hfinite | hinf)
    · rw [(spelled_eq_self_iff t).2 hfinite]
    · exact Environment.result_evaluate_spelled hlexical hinf

/-- A numeral is a formula by itself. -/
theorem parse_numeral {s : List Char} {x : Float} (hs : ∀ c ∈ s, Text.isNumeral c = true)
    (hx : Binary64.ofNumeral? s = some x) : parse (String.ofList s) = .ok (.number x) := by
  have hderives : Derives 0 (s ++ []) (.number x) :=
    (Derives.number hs hx blank_nil).mono (Nat.le_refl 4) (Nat.zero_le 4)
  rw [List.append_nil] at hderives
  have hmarker : s.head? ≠ some '=' := fun h => nomatch hs '=' (List.mem_of_mem_head? h)
  have hself : regroup (.number x) = .number x := regroup_eq_self (everywhere_number.2 trivial)
  have hread := Parser.ofSource_unmarked blank_nil hderives hmarker
  rw [hself] at hread
  exact congrArg Reading.outcome hread

/-! ## A numeral that is too large -/

/-- One and 309 zeros, which is more than the largest double. -/
def overflow : List Char := '1' :: List.replicate 309 '0'

theorem ofNumeral?_overflow : Binary64.ofNumeral? overflow = some Binary64.inf := by
  have hparts : Binary64.numeralParts overflow = (overflow, []) := by decide +kernel
  have hdigits : ofDigits overflow = 10 ^ 309 := by decide +kernel
  have hnearest : (Decimal.ofParts overflow []).nearest = Binary64.infinity := by
    rw [Decimal.ofParts, List.append_nil, hdigits]
    decide +kernel
  rw [Binary64.ofNumeral?, hparts]
  exact congrArg (fun n => some (Binary64.toFloat false n)) hnearest

theorem parse_overflow : parse (String.ofList overflow) = .ok (.number Binary64.inf) := by
  refine parse_numeral (fun c hc => ?_) ofNumeral?_overflow
  rcases List.mem_cons.1 hc with rfl | hc
  · rfl
  · rw [List.eq_of_mem_replicate hc]
    rfl

/-- The numeral that is too large keeps its meaning where the variable is infinite. -/
theorem evaluate_reprinted_overflow :
    let env : Environment := ⟨.ofList [("inf", .ofFloat Binary64.inf)], .empty, .empty⟩
    parse (String.ofList overflow) = .ok (.number Binary64.inf) ∧
      env.vars.find? "inf" = some (.ofFloat Binary64.inf) ∧
      (env.evaluate {} (.number Binary64.inf)).result =
        (env.evaluate {} (spelled (.number Binary64.inf))).result := by
  intro env
  have hinf : env.vars.find? "inf" = some (.ofFloat Binary64.inf) := by rfl
  exact ⟨parse_overflow, hinf, (evaluate_reprinted parse_overflow).2.2.2 env {} (.inr hinf)⟩

/-- Where the variable has no value, it does not: what had been infinity is empty. -/
theorem not_evaluate_reprinted :
    let env : Environment := ⟨.empty, .empty, .empty⟩
    parse (String.ofList overflow) = .ok (.number Binary64.inf) ∧
      parse (source (.number Binary64.inf)) = .ok (.var "inf") ∧
      (env.evaluate {} (.number Binary64.inf)).result ≠ (env.evaluate {} (.var "inf")).result := by
  intro env
  have hspelled : spelled (.number Binary64.inf) = .var "inf" := by
    rw [spelled, if_neg not_isFinite_inf]
  refine ⟨parse_overflow, hspelled ▸ parse_source_spelled parse_overflow, fun h => ?_⟩
  cases h

end Expr

end Formulary
