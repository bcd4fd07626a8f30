import Formulary.Proofs.Source.Output
import Formulary.Proofs.Source.Reading

/-!
# Writing a tree and reading it back

Well-formed trees are exactly those that are read back from their source
(`parse_source_eq_ok_iff`). That they are is `derives_write` and `ofSource_marked`. The converse says
what reading never gives: **a tree that was read is well-formed, but for infinite numbers**. A numeral
can be too large for a double, and then it is read as infinity, which is written as `inf` and so would
be read back as a variable. `spelled` puts this variable in place of the number: it has the same
source, and it is well-formed.

The source of a tree does not show how its operators are grouped, and reading groups them to the
left. **Reading the source of a tree regroups it** (`parse_source_eq_regroup`): descending through
the levels of the grammar and rotating the tree are two ways to the one tree that has these items and
is grouped.
-/

namespace Formulary.Expr

open Grammar

/-! ## Infinite numbers -/

mutual

/-- The tree with the variable `inf` in place of each number that is not finite. -/
def spelled : Expr → Expr
  | .number x => if Binary64.IsFinite x then .number x else .var "inf"
  | .bracket e => .bracket (spelled e)
  | .minus e => .minus (spelled e)
  | .arith l op r => .arith (spelled l) op (spelled r)
  | .compare l op r => .compare (spelled l) op (spelled r)
  | .call name es => .call name (spelledList es)
  | e => e

def spelledList : List Expr → List Expr
  | [] => []
  | e :: es => spelled e :: spelledList es

end

theorem spelledList_eq_map (es : List Expr) : spelledList es = es.map spelled := by
  induction es with
  | nil => rfl
  | cons e es ih => rw [spelledList, ih, List.map_cons]

theorem binding_spelled (e : Expr) : e.spelled.binding = e.binding := by
  cases e with
  | number x =>
    unfold spelled
    split_ifs <;> rfl
  | _ => rfl

theorem tightness_spelled (e : Expr) : e.spelled.tightness = e.tightness := by
  cases e with
  | number x =>
    unfold spelled
    split_ifs <;> rfl
  | _ => rfl

theorem positional_infinite {x : Float} (hx : Parser.ReadNumber x) (h : ¬ Binary64.IsFinite x) :
    Binary64.positional x = "inf".toList := by
  have hrank : Binary64.rank x = Binary64.infinity :=
    Nat.le_antisymm hx.1 (Nat.le_of_not_lt h)
  unfold Binary64.positional Binary64.write
  simp only [hrank, Nat.lt_irrefl, if_false, if_true, hx.2, Bool.false_eq_true]
  rfl

theorem write_spelled {e : Expr} (h : e.Everywhere (LexicalNode Parser.ReadNumber))
    (rest : List Char) : e.spelled.write rest = e.write rest := by
  induction e generalizing rest with
  | number x =>
    unfold spelled
    split_ifs with hx
    · rfl
    · rw [write, write, positional_infinite (everywhere_number.1 h) hx]
  | text s => rfl
  | var name => rfl
  | reference name => rfl
  | bracket e ih =>
    rw [spelled, write, write, ih (everywhere_bracket.1 h).2]
  | minus e ih =>
    rw [spelled, write, write, ih (everywhere_minus.1 h).2]
  | arith l op r hl hr =>
    obtain ⟨-, hle, hre⟩ := everywhere_arith.1 h
    rw [spelled, write, write, hr hre, hl hle]
  | compare l op r hl hr =>
    obtain ⟨-, hle, hre⟩ := everywhere_compare.1 h
    rw [spelled, write, write, hr hre, hl hle]
  | call name es ih =>
    have hes := (everywhere_call.1 h).2
    rw [spelled, write, write, spelledList_eq_map,
      writeArguments_map fun e he rest => ih e he (hes e he) rest]

/-- Only the numbers keep a tree that was read from being well-formed. -/
theorem wellFormed_spelled {e : Expr} (h : e.Everywhere fun n =>
    n.LexicalNode Parser.ReadNumber ∧ n.LayeredNode ∧ n.GroupedNode) : e.spelled.WellFormed := by
  unfold WellFormed
  induction e with
  | number x =>
    have hx := (everywhere_number.1 h).1
    unfold spelled
    split_ifs with hfin
    · exact everywhere_number.2 ⟨⟨hfin, hx.2⟩, trivial, trivial⟩
    · have hname : Text.IsName "inf".toList := by decide
      exact everywhere_var.2 ⟨hname, trivial, trivial⟩
  | text s => exact everywhere_text.2 ⟨trivial, trivial, trivial⟩
  | var name => exact everywhere_var.2 (everywhere_var.1 h)
  | reference name => exact everywhere_reference.2 (everywhere_reference.1 h)
  | bracket e ih =>
    obtain ⟨-, he⟩ := everywhere_bracket.1 h
    exact everywhere_bracket.2 ⟨⟨trivial, trivial, trivial⟩, ih he⟩
  | minus e ih =>
    obtain ⟨⟨-, hfour, -⟩, he⟩ := everywhere_minus.1 h
    refine everywhere_minus.2 ⟨⟨trivial, ?_, trivial⟩, ih he⟩
    exact (binding_spelled e).trans hfour
  | arith l op r hl hr =>
    obtain ⟨⟨-, hlayer, hgroup⟩, hle, hre⟩ := everywhere_arith.1 h
    refine everywhere_arith.2 ⟨⟨trivial, ?_, ?_⟩, hl hle, hr hre⟩
    · show 0 < l.spelled.binding ∧ 0 < r.spelled.binding
      rw [binding_spelled, binding_spelled]
      exact hlayer
    · show op.strength ≤ l.spelled.tightness ∧ op.strength < r.spelled.tightness
      rw [tightness_spelled, tightness_spelled]
      exact hgroup
  | compare l op r hl hr =>
    obtain ⟨⟨-, hlayer, -⟩, hle, hre⟩ := everywhere_compare.1 h
    refine everywhere_compare.2 ⟨⟨trivial, ?_, trivial⟩, hl hle, hr hre⟩
    show 0 < l.spelled.binding ∧ 0 < r.spelled.binding
    rw [binding_spelled, binding_spelled]
    exact hlayer
  | call name es ih =>
    obtain ⟨⟨hname, -⟩, hes⟩ := everywhere_call.1 h
    rw [spelled, spelledList_eq_map]
    refine everywhere_call.2 ⟨⟨hname, trivial, trivial⟩, ?_⟩
    intro e he
    obtain ⟨e', he', rfl⟩ := List.mem_map.1 he
    exact ih e' he' (hes e' he')

/-! ## Round trips -/

theorem WellFormed.parse_source {e : Expr} (h : e.WellFormed) : parse e.source = .ok e := by
  have hread := Parser.ofSource_marked blank_nil blank_nil
    (derives_write h (Nat.zero_le _) blank_nil)
  have hself : regroup e = e := regroup_eq_self (h.mono fun n hn => hn.2.2)
  rw [hself] at hread
  exact congrArg Reading.outcome hread

/-- **A tree is read back from its source exactly if it is well-formed.** -/
theorem parse_source_eq_ok_iff (t : Expr) : parse t.source = .ok t ↔ t.WellFormed := by
  constructor
  · intro h
    have hread := Parser.everywhere_of_parse h
    have hspelled := wellFormed_spelled hread
    -- the spelled tree has the same source, so it is what was read
    have hsource : t.spelled.source = t.source := by
      unfold source
      rw [write_spelled (hread.mono fun n hn => hn.1)]
    have hparse := hspelled.parse_source
    rw [hsource, h] at hparse
    rw [Except.ok.inj hparse]
    exact hspelled
  · exact WellFormed.parse_source

theorem LooselyFormed.wellFormed_regroup {e : Expr} (h : e.LooselyFormed) :
    (regroup e).WellFormed := by
  have hlexical := everywhere_lexical_regroup (h.mono fun n hn => hn.1)
  have hlayered := everywhere_layered_regroup (h.mono fun n hn => hn.2.1)
  have hgrouped := (grouped_regroup (h.mono fun n hn => hn.2.2)).1
  exact hlexical.and (hlayered.and hgrouped)

/-- **Reading the source of a tree regroups it**, and what comes out is the one tree that has the
same items in the same order and is grouped to the left. -/
theorem parse_source_eq_regroup {e : Expr} (h : e.LooselyFormed) :
    parse e.source = .ok e.regroup ∧ e.regroup.items = e.items ∧
      e.regroup.Everywhere GroupedNode ∧
      ∀ f : Expr, f.items = e.items → f.Everywhere GroupedNode → f = e.regroup := by
  have hwell := h.wellFormed_regroup
  have hgrouped : e.regroup.Everywhere GroupedNode := hwell.mono fun n hn => hn.2.2
  refine ⟨?_, items_regroup e, hgrouped, ?_⟩
  · have hsource : e.regroup.source = e.source := by
      unfold source
      rw [write_regroup]
    rw [← hsource]
    exact hwell.parse_source
  · intro f hitems hf
    refine eq_of_items_eq hf hgrouped ?_
    rw [hitems, items_regroup]

/-- A difference in a difference comes apart, and the product in it does not. -/
theorem parse_source_sub_sub :
    parse (arith (var "a") .sub (arith (arith (var "b") .mul (var "c")) .sub (var "d"))).source =
      .ok (arith (arith (var "a") .sub (arith (var "b") .mul (var "c"))) .sub (var "d")) := by
  have hloose : (arith (var "a") .sub
      (arith (arith (var "b") .mul (var "c")) .sub (var "d"))).LooselyFormed := by
    decide
  have hsub : regroup (arith (var "a") .sub (arith (arith (var "b") .mul (var "c")) .sub
      (var "d"))) =
      arith (arith (var "a") .sub (arith (var "b") .mul (var "c"))) .sub (var "d") :=
    ((parse_source_eq_regroup hloose).2.2.2 _ (by rfl) (by decide)).symm
  rw [(parse_source_eq_regroup hloose).1, hsub]

end Formulary.Expr
