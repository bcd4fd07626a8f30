import Formulary.Proofs.Expr.Rotations
import Formulary.Source.Parser

/-!
# What reading a source gives

`Emits p P` says that whatever the parser `p` gives, where it gives anything, has the property `P`.
It is a property of the result alone, so it passes through sequences and loops without a word about
the source, the cursor or what was kept. It holds as well of the partial trees that are kept where a
source ends too early.

A parser at a level of the grammar emits trees that bind at least as tightly, so an operator finds
its operands grouped already (`Emitted`). **The tree of a formula is grouped to the left, layered,
and has only names and numbers that were read** (`everywhere_of_parse`), so regrouping it once more
leaves it as it is (`formula_grouped`).
-/

namespace Formulary.Parser

/-- Whatever the parser gives has the property. -/
def Emits {α : Type} (p : Parser α) (P : α → Prop) : Prop := ∀ s a s', p s = .ok a s' → P a

section

variable {α β : Type} {p : Parser α} {f : α → Parser β} {P : α → Prop} {Q : β → Prop} {a : α}

theorem emits_pure (h : P a) : Emits (pure a) P := by
  intro s b s' hs
  cases hs
  exact h

theorem emits_fault {cause : Nat → SyntaxError} : Emits (fault cause : Parser α) P :=
  fun _ _ _ hs => nomatch hs

theorem Emits.bind (hp : Emits p P) (hf : ∀ a, P a → Emits (f a) Q) : Emits (p >>= f) Q := by
  intro s b s' hs
  change EStateM.bind p f s = _ at hs
  rw [EStateM.bind] at hs
  split at hs
  · rename_i a t hat
    exact hf a (hp s a t hat) t b s' hs
  · cases hs

/-- Nothing need be known of the result of the first parser. -/
theorem Emits.after (hf : ∀ a, Emits (f a) Q) : Emits (p >>= f) Q :=
  Emits.bind (P := fun _ => True) (fun _ _ _ _ => trivial) fun a _ => hf a

end

theorem emits_missingOperand {P : Option Expr → Prop} {kept : Option Expr} (h : P kept) :
    Emits (missingOperand kept) P := by
  refine Emits.after fun c? => ?_
  split
  · exact emits_fault
  · intro s a s' hs
    cases hs
    exact h

theorem emits_lexeme {α : Type} {read : Reader α} {P : α → Prop}
    (h : ∀ c a c', read c = (.ok a, c') → P a) : Emits (lexeme read) P := by
  intro s a s' hs
  unfold lexeme at hs
  split at hs
  · rename_i b c hread
    cases hs
    exact h _ _ _ hread
  · cases hs

/-! ## Lexemes -/

/-- What a numeral can stand for. -/
def ReadNumber (x : Float) : Prop :=
  Binary64.rank x ≤ Binary64.infinity ∧ Binary64.isNegative x = false

theorem emits_readNumber : Emits (lexeme Cursor.readNumber) ReadNumber := by
  refine emits_lexeme fun c x c' h => ?_
  simp only [Cursor.readNumber] at h
  split at h
  · rename_i y hy
    cases h
    exact Binary64.rank_of_ofNumeral? hy
  · cases h

theorem emits_readName : Emits (lexeme Cursor.readName) fun name => Text.IsName name.toList := by
  refine emits_lexeme fun c name c' h => ?_
  unfold Cursor.readName at h
  by_cases hfirst : (c.peek 0).any Char.isAlpha = true
  · rw [if_pos hfirst] at h
    cases h
    obtain ⟨rest, position⟩ := c
    show Text.IsName (String.ofList (rest.takeWhile Text.isNamePart)).toList
    rw [String.toList_ofList]
    cases rest with
    | nil => cases hfirst
    | cons d rest =>
      have hd : d.isAlpha = true := hfirst
      have hpart : Text.isNamePart d = true := by
        rw [Text.isNamePart, Char.isAlphanum, hd, Bool.true_or, Bool.true_or]
      rw [List.takeWhile_cons_of_pos hpart]
      exact ⟨hd, fun x hx => List.all_eq_true.1 List.all_takeWhile x hx⟩
  · rw [if_neg hfirst] at h
    cases h

theorem emits_readFormulaName :
    Emits (lexeme Cursor.readFormulaName) fun name => Text.IsFormulaName name.toList := by
  refine emits_lexeme fun c name c' h => ?_
  simp only [Cursor.readFormulaName, Cursor.run] at h
  split at h
  · cases h
  · rename_i hne
    cases h
    rw [String.toList_ofList]
    exact ⟨hne, fun x hx => List.all_eq_true.1 List.all_takeWhile x hx⟩

/-! ## Levels -/

/-- A tree that a parser at this level of the grammar may emit. -/
structure Emitted (level : Nat) (e : Expr) : Prop where
  everywhere : e.Everywhere fun n =>
    n.LexicalNode ReadNumber ∧ n.LayeredNode ∧ n.GroupedNode
  binding : level ≤ e.binding

theorem Emitted.mono {m n : Nat} {e : Expr} (h : Emitted n e) (hmn : m ≤ n) : Emitted m e :=
  ⟨h.everywhere, Nat.le_trans hmn h.binding⟩

/-- The tree, if there is one, may be emitted at this level. -/
def EmittedAt (level : Nat) (e? : Option Expr) : Prop := ∀ e ∈ e?, Emitted level e

section

variable {n k budget : Nat} {nested side : Parser (Option Expr)} {e l r : Expr}

theorem emittedAt_none : EmittedAt n none := nofun

theorem emittedAt_some (h : Emitted n e) : EmittedAt n (some e) := by
  intro _ h
  cases h
  exact h

theorem EmittedAt.mono {m : Nat} {e? : Option Expr} (h : EmittedAt n e?) (hmn : m ≤ n) :
    EmittedAt m e? :=
  fun e he => (h e he).mono hmn

theorem emitted_arith {op : ArithOp} (hl : Emitted op.strength l)
    (hr : Emitted (op.strength + 1) r) : Emitted op.strength (.arith l op r) := by
  have hlp : 0 < l.binding := Nat.lt_of_lt_of_le (Expr.strength_pos op) hl.binding
  have hrp : 0 < r.binding := Nat.lt_of_lt_of_le (Nat.succ_pos _) hr.binding
  refine ⟨Expr.everywhere_arith.2 ⟨⟨trivial, ⟨hlp, hrp⟩, ?_⟩, hl.everywhere, hr.everywhere⟩,
    Nat.le_refl _⟩
  constructor
  · rw [Expr.tightness_eq_binding hlp]
    exact hl.binding
  · rw [Expr.tightness_eq_binding hrp]
    exact hr.binding

theorem emitted_compare {op : CompareOp} (hl : Emitted 1 l) (hr : Emitted 1 r) :
    Emitted 0 (.compare l op r) :=
  ⟨Expr.everywhere_compare.2 ⟨⟨trivial, ⟨hl.binding, hr.binding⟩, trivial⟩, hl.everywhere,
    hr.everywhere⟩, Nat.zero_le _⟩

theorem emits_bracket (hnested : Emits nested (EmittedAt 0)) :
    Emits (bracket nested) (EmittedAt 4) := by
  refine Emits.after fun _ => Emits.bind hnested fun e? he => ?_
  cases e? with
  | none => exact emits_missingOperand emittedAt_none
  | some e =>
    have he := he e rfl
    refine Emits.after fun _ => emits_pure (emittedAt_some ⟨?_, Nat.le_refl 4⟩)
    exact Expr.everywhere_bracket.2 ⟨⟨trivial, trivial, trivial⟩, he.everywhere⟩

theorem emits_arguments (hnested : Emits nested (EmittedAt 0)) {read : List Expr}
    (hread : ∀ e ∈ read, Emitted 0 e) :
    Emits (arguments nested budget read) fun es => ∀ e ∈ es, Emitted 0 e := by
  induction budget generalizing read with
  | zero => exact emits_pure fun e he => hread e (List.mem_reverse.1 he)
  | succ budget ih =>
    refine Emits.bind hnested fun e? he => Emits.after fun c? => ?_
    have hread' : ∀ e ∈ e?.toList ++ read, Emitted 0 e := by
      intro e hmem
      rcases List.mem_append.1 hmem with hmem | hmem
      · exact he e (Option.mem_toList.1 hmem)
      · exact hread e hmem
    split
    · exact Emits.after fun _ => ih hread'
    · exact emits_pure fun e he => hread' e (List.mem_reverse.1 he)

theorem emits_named (hnested : Emits nested (EmittedAt 0)) :
    Emits (named nested budget) (EmittedAt 4) := by
  refine Emits.bind emits_readName fun name hname => Emits.after fun c? => ?_
  split
  · refine Emits.after fun _ => Emits.bind (emits_arguments hnested nofun) fun es hes => ?_
    refine Emits.after fun _ => emits_pure (emittedAt_some ⟨?_, Nat.le_refl 4⟩)
    exact Expr.everywhere_call.2 ⟨⟨hname, trivial, trivial⟩, fun e he => (hes e he).everywhere⟩
  · exact emits_pure (emittedAt_some
      ⟨Expr.everywhere_var.2 ⟨hname, trivial, trivial⟩, Nat.le_refl 4⟩)

theorem emits_reference : Emits reference (EmittedAt 4) := by
  refine Emits.after fun _ => Emits.bind emits_readFormulaName fun name hname => ?_
  exact emits_pure (emittedAt_some
    ⟨Expr.everywhere_reference.2 ⟨hname, trivial, trivial⟩, Nat.le_refl 4⟩)

theorem emits_operand (hnested : Emits nested (EmittedAt 0)) :
    Emits (operand nested budget) (EmittedAt 4) := by
  refine Emits.after fun c? => ?_
  cases c? with
  | none => exact emits_pure emittedAt_none
  | some c =>
    show Emits (if c = '(' then _ else if c = '"' then _ else if Text.isNumeral c then _ else
      if c.isAlpha then _ else if c = '=' then _ else _) _
    split_ifs
    · exact emits_bracket hnested
    · refine Emits.after fun t => emits_pure (emittedAt_some ⟨?_, Nat.le_refl 4⟩)
      exact Expr.everywhere_text.2 ⟨trivial, trivial, trivial⟩
    · refine Emits.bind emits_readNumber fun x hx => ?_
      exact emits_pure (emittedAt_some
        ⟨Expr.everywhere_number.2 ⟨hx, trivial, trivial⟩, Nat.le_refl 4⟩)
    · exact emits_named hnested
    · exact emits_reference
    · exact emits_pure emittedAt_none

theorem emits_signed (hside : Emits side (EmittedAt 4)) :
    Emits (signed side budget) (EmittedAt 4) := by
  induction budget with
  | zero => exact emits_pure emittedAt_none
  | succ budget ih =>
    refine Emits.after fun c? => ?_
    split
    · refine Emits.after fun _ => Emits.bind ih fun e? he => ?_
      cases e? with
      | none => exact emits_missingOperand emittedAt_none
      | some e =>
        have he := he e rfl
        refine emits_pure (emittedAt_some ⟨?_, Nat.le_refl 4⟩)
        have hfour : e.binding = 4 := Nat.le_antisymm (Expr.binding_le_four e) he.binding
        exact Expr.everywhere_minus.2 ⟨⟨trivial, hfour, trivial⟩, he.everywhere⟩
    · exact Emits.after fun _ => ih
    · exact hside

/-- In a loop, the tree on the left may have operators of the loop's own strength, and the operand
on the right may not. -/
theorem emits_chain (hside : Emits side (EmittedAt (k + 1))) (he : Emitted k e) :
    Emits (chain k side budget e) (EmittedAt k) := by
  induction budget generalizing e with
  | zero => exact emits_pure (emittedAt_some he)
  | succ budget ih =>
    refine Emits.after fun c? => ?_
    split
    · exact emits_pure (emittedAt_some he)
    · rename_i op hop
      have hk : op.strength = k := by
        obtain ⟨c, -, hc⟩ := Option.bind_eq_some_iff.1 hop
        simpa using (Option.filter_eq_some_iff.1 hc).2
      subst hk
      refine Emits.after fun _ => Emits.bind hside fun r? hr => ?_
      cases r? with
      | none => exact emits_missingOperand (emittedAt_some he)
      | some r => exact ih (emitted_arith he (hr r rfl))

theorem emits_operation (hside : Emits side (EmittedAt (k + 1))) :
    Emits (operation k side budget) (EmittedAt k) := by
  refine Emits.bind hside fun e? he => ?_
  cases e? with
  | none => exact emits_pure emittedAt_none
  | some e => exact emits_chain hside ((he e rfl).mono (Nat.le_succ k))

theorem emits_comparison (hside : Emits side (EmittedAt 1)) :
    Emits (comparison side) (EmittedAt 0) := by
  refine Emits.bind hside fun l? hl => ?_
  cases l? with
  | none => exact emits_pure emittedAt_none
  | some l =>
    have hl := hl l rfl
    refine Emits.after fun op? => ?_
    cases op? with
    | none => exact emits_pure (emittedAt_some (hl.mono (Nat.zero_le 1)))
    | some op =>
      refine Emits.after fun _ => Emits.bind hside fun r? hr => ?_
      cases r? with
      | none => exact emits_missingOperand (emittedAt_some (hl.mono (Nat.zero_le 1)))
      | some r => exact emits_pure (emittedAt_some (emitted_compare hl (hr r rfl)))

theorem emits_expression : Emits (expression budget) (EmittedAt 0) := by
  induction budget with
  | zero => exact emits_pure emittedAt_none
  | succ budget ih =>
    exact emits_comparison (emits_operation (emits_operation (emits_operation
      (emits_signed (emits_operand ih)))))

theorem emits_formula : Emits (formula budget) (Emitted 0) := by
  refine Emits.after fun _ => Emits.bind emits_expression fun e? he => Emits.after fun c? => ?_
  split
  · exact emits_fault
  · exact emits_pure (he _ rfl)
  · exact fun _ _ _ hs => nomatch hs

end

/-- **A formula is grouped while it is read**, whether or not its source ended too early: at every
depth of the tree, operators group to the left, no operator and no comparison stands right below a
sign, and no comparison right below an operator or a comparison. Regrouping has nothing to do, and
the tree is what reading the source gives. -/
theorem formula_grouped {source : String} {e : Expr} {s : ParserState}
    (h : formula source.length ⟨.start source, []⟩ = .ok e s) :
    e.Everywhere (fun n => n.LayeredNode ∧ n.GroupedNode) ∧ e.regroup = e ∧
      Expr.parse source = .ok e := by
  have hall := (emits_formula _ _ _ h).everywhere
  have hself : e.regroup = e := Expr.regroup_eq_self (hall.mono fun n hn => hn.2.2)
  exact ⟨hall.mono fun n hn => hn.2, hself, Expr.parse_eq_ok_iff.2 ⟨e, s, h, hself⟩⟩

/-- Chains of all strengths with signs, a comparison in a call, and the last product cut off. -/
theorem formula_cut_product_grouped :
    let e : Expr := .compare
      (.arith (.arith (.var "a") .sub (.minus (.bracket (.arith (.var "b") .add (.var "c"))))) .sub
        (.arith (.arith (.var "d") .pow (.var "e")) .pow (.var "f"))) .lt
      (.call "g" [.compare (.var "h") .ne (.arith (.var "i") .add (.var "j"))])
    let s : ParserState := ⟨⟨[], 31⟩, [some (.var "j")]⟩
    formula "=a--(b+c)-d^e^f<g(;h<>+i + j * ".length
        ⟨.start "=a--(b+c)-d^e^f<g(;h<>+i + j * ", []⟩ = .ok e s ∧
      e.Everywhere (fun n => n.LayeredNode ∧ n.GroupedNode) ∧ e.regroup = e ∧
      Expr.parse "=a--(b+c)-d^e^f<g(;h<>+i + j * " = .ok e := by
  intro e s
  have h : formula "=a--(b+c)-d^e^f<g(;h<>+i + j * ".length
      ⟨.start "=a--(b+c)-d^e^f<g(;h<>+i + j * ", []⟩ = .ok e s := by cbv
  exact ⟨h, formula_grouped h⟩

/-- **The tree of a formula** is grouped and layered, and its names and numbers are such as can be
read. -/
theorem everywhere_of_parse {source : String} {t : Expr} (h : Expr.parse source = .ok t) :
    t.Everywhere fun n => n.LexicalNode ReadNumber ∧ n.LayeredNode ∧ n.GroupedNode := by
  unfold Expr.parse Reading.ofSource at h
  split at h
  · rename_i e s he
    cases h
    have hall := (emits_formula _ _ _ he).everywhere
    rwa [Expr.regroup_eq_self (hall.mono fun n hn => hn.2.2)]
  · cases h

end Formulary.Parser
