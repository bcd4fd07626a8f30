import Formulary.Expr.Text
import Formulary.Proofs.Expr.Nodes

/-!
# The grammar of formulas

`Derives n s e` says that the text `s` stands for the tree `e` at level `n` of the grammar: at level
0 it is an expression, at levels 1 to 3 a chain of operators of at least that strength, and at level
4 a single operand with its signs. Each token is followed by any run of blanks, so a text that is
derived has no blanks in front, and may have some behind it. `DerivesFormula s e` adds what may stand
in front of an expression: blanks, and the equals sign that marks a formula.

An argument of a call may be empty. A plus sign leaves no trace, with or without an operand behind it,
so plus signs alone are an empty argument, too.

The levels are those of `binding`: **the text of a well-formed tree is derived at every level up to
the one its root binds at** (`derives_write`).
-/

namespace Formulary.Grammar

/-- A run of blanks. -/
def Blank (s : List Char) : Prop := ∀ c ∈ s, Text.isBlank c = true

/-- Plus signs, each with the blanks behind it. -/
inductive Pluses : List Char → Prop
  | nil : Pluses []
  | cons {b s : List Char} : Blank b → Pluses s → Pluses ('+' :: (b ++ s))

/-- An argument of a call: the blanks in front of it, what stands behind them, and the tree that this
stands for, if it is not empty. -/
structure Argument where
  lead : List Char
  content : List Char
  tree? : Option Expr

def Argument.text (a : Argument) : List Char := a.lead ++ a.content

/-- The texts of arguments with semicolons between them. -/
def argumentsText : List Argument → List Char
  | [] => []
  | [a] => a.text
  | a :: a' :: as => a.text ++ ';' :: argumentsText (a' :: as)

/-- A comparison that would be longer with an equals sign behind it. -/
def Extensible : CompareOp → Prop
  | .lt | .gt => True
  | _ => False

/-- The text stands for the tree at this level of the grammar. -/
inductive Derives : (level : Nat) → List Char → Expr → Prop
  | number {s b : List Char} {x : Float} : (∀ c ∈ s, Text.isNumeral c = true) →
      Binary64.ofNumeral? s = some x → Blank b → Derives 4 (s ++ b) (.number x)
  | text {t : String} {b : List Char} : Blank b →
      Derives 4 ('"' :: (Text.encode t.toList ++ '"' :: b)) (.text t)
  | var {name : String} {b : List Char} : Text.IsName name.toList → Blank b →
      Derives 4 (name.toList ++ b) (.var name)
  | reference {name : String} {b b' : List Char} : Blank b → Text.IsFormulaName name.toList →
      Blank b' → Derives 4 ('=' :: (b ++ (name.toList ++ b'))) (.reference name)
  | bracket {b s b' : List Char} {e : Expr} : Blank b → Derives 0 s e → Blank b' →
      Derives 4 ('(' :: (b ++ (s ++ ')' :: b'))) (.bracket e)
  | call {name : String} {b b' : List Char} {as : List Argument} : Text.IsName name.toList →
      Blank b → as ≠ [] → (∀ a ∈ as, Blank a.lead) →
      (∀ a ∈ as, a.tree? = none → Pluses a.content) →
      (∀ a ∈ as, ∀ e, a.tree? = some e → Derives 0 a.content e) → Blank b' →
      Derives 4 (name.toList ++ (b ++ '(' :: (argumentsText as ++ ')' :: b')))
        (.call name (as.filterMap Argument.tree?))
  | minus {b s : List Char} {e : Expr} : Blank b → Derives 4 s e →
      Derives 4 ('-' :: (b ++ s)) (.minus e)
  | plus {b s : List Char} {e : Expr} : Blank b → Derives 4 s e → Derives 4 ('+' :: (b ++ s)) e
  | arith {s b t : List Char} {l r : Expr} {op : ArithOp} : Derives op.strength s l → Blank b →
      Derives (op.strength + 1) t r →
      Derives op.strength (s ++ op.symbol :: (b ++ t)) (.arith l op r)
  | compare {s b t : List Char} {l r : Expr} {op : CompareOp} : Derives 1 s l → Blank b →
      Derives 1 t r → (Extensible op → b = [] → t.head? ≠ some '=') →
      Derives 0 (s ++ (op.symbol.toList ++ (b ++ t))) (.compare l op r)
  | loosen {n : Nat} {s : List Char} {e : Expr} : n < 4 → Derives (n + 1) s e → Derives n s e

/-- The text is a formula that stands for the tree. The marker may be left out where the expression
does not begin with an equals sign itself. -/
inductive DerivesFormula : List Char → Expr → Prop
  | marked {lead b s : List Char} {e : Expr} : Blank lead → Blank b → Derives 0 s e →
      DerivesFormula (lead ++ '=' :: b ++ s) e
  | unmarked {lead s : List Char} {e : Expr} : Blank lead → Derives 0 s e →
      s.head? ≠ some '=' → DerivesFormula (lead ++ s) e

theorem Derives.mono {m n : Nat} {s : List Char} {e : Expr} (h : Derives n s e) (hn : n ≤ 4)
    (hm : m ≤ n) : Derives m s e := by
  induction n with
  | zero =>
    obtain rfl : m = 0 := by omega
    exact h
  | succ n ih =>
    rcases Nat.lt_or_ge n m with hlt | hge
    · obtain rfl : m = n + 1 := by omega
      exact h
    · exact ih (.loosen (by omega) h) (by omega) hge

theorem blank_nil : Blank [] := fun _ h => nomatch h

theorem blank_space : Blank [' '] := by
  intro c hc
  rw [List.mem_singleton.1 hc]
  rfl

/-! ## Well-formed trees are derived from their texts -/

theorem isNumeral_of_parts {s whole fraction : List Char} (h : Decimal.Parts s whole fraction) :
    ∀ c ∈ s, Text.isNumeral c = true := by
  intro c hc
  rw [h.text, List.mem_append, List.mem_cons] at hc
  rw [Text.isNumeral, Bool.or_eq_true]
  rcases hc with hc | rfl | hc
  · exact .inl (h.isDigit_whole c hc)
  · exact .inr rfl
  · exact .inl (h.isDigit_fraction c hc)

/-- The arguments of a call as they are written. -/
def writtenArguments : List Expr → List Argument
  | [] => [⟨[], [], none⟩]
  | e :: es => (e :: es).map fun e => ⟨[], e.write [], some e⟩

theorem argumentsText_written (es : List Expr) :
    argumentsText (writtenArguments es) = Expr.writeArguments es [] := by
  induction es with
  | nil => rfl
  | cons e es ih =>
    cases es with
    | nil => rfl
    | cons e' es =>
      have hcons := Expr.write_append e [] (';' :: Expr.writeArguments (e' :: es) [])
      rw [List.nil_append] at hcons
      rw [Expr.writeArguments, hcons, ← ih]
      rfl

theorem filterMap_written (es : List Expr) :
    (writtenArguments es).filterMap Argument.tree? = es := by
  cases es with
  | nil => rfl
  | cons e es =>
    rw [writtenArguments, List.filterMap_map]
    exact List.filterMap_some

theorem written_of_mem {es : List Expr} {a : Argument} (h : a ∈ writtenArguments es) :
    a.lead = [] ∧ (a.tree? = none → a.content = []) ∧
      ∀ e, a.tree? = some e → e ∈ es ∧ a.content = e.write [] := by
  cases es with
  | nil =>
    rw [writtenArguments, List.mem_singleton] at h
    rw [h]
    refine ⟨rfl, fun _ => rfl, fun e hc => ?_⟩
    cases hc
  | cons e es =>
    obtain ⟨e', he', rfl⟩ := List.mem_map.1 h
    refine ⟨rfl, fun hc => ?_, fun e hc => ?_⟩
    · cases hc
    · cases hc
      exact ⟨he', rfl⟩

/-- **The text of a well-formed tree is derived**, with any blanks behind it, at every level up to
the one its root binds at. -/
theorem derives_write {n : Nat} {e : Expr} {b : List Char} (h : e.WellFormed)
    (hn : n ≤ e.binding) (hb : Blank b) : Derives n (e.write b) e := by
  refine Derives.mono ?_ (Expr.binding_le_four e) hn
  clear hn
  induction e generalizing b with
  | number x =>
    obtain ⟨⟨hx, hs⟩, -⟩ := Expr.everywhere_number.1 h
    obtain ⟨hread, whole, fraction, hparts⟩ := Binary64.ofNumeral?_positional hx hs
    exact .number (isNumeral_of_parts hparts) hread hb
  | text s => exact .text hb
  | var name =>
    obtain ⟨hname, -⟩ := Expr.everywhere_var.1 h
    exact .var hname hb
  | reference name =>
    obtain ⟨hname, -⟩ := Expr.everywhere_reference.1 h
    exact .reference blank_nil hname hb
  | bracket e ih =>
    obtain ⟨-, he⟩ := Expr.everywhere_bracket.1 h
    have hcons := Expr.write_append e [] (')' :: b)
    rw [List.nil_append] at hcons
    rw [Expr.write, hcons]
    exact .bracket blank_nil ((ih he blank_nil).mono (Expr.binding_le_four e) (Nat.zero_le _)) hb
  | minus e ih =>
    obtain ⟨⟨-, hfour, -⟩, he⟩ := Expr.everywhere_minus.1 h
    have hfour : e.binding = 4 := hfour
    rw [Expr.write]
    exact .minus blank_nil (hfour ▸ ih he hb)
  | arith l op r hl hr =>
    obtain ⟨⟨-, hlayer, hgroup⟩, hle, hre⟩ := Expr.everywhere_arith.1 h
    have hlt : op.strength ≤ l.binding := Expr.tightness_eq_binding hlayer.1 ▸ hgroup.1
    have hrt : op.strength + 1 ≤ r.binding := Expr.tightness_eq_binding hlayer.2 ▸ hgroup.2
    have hcons := Expr.write_append l [] (op.symbol :: r.write b)
    rw [List.nil_append] at hcons
    rw [Expr.write, hcons]
    exact .arith ((hl hle blank_nil).mono (Expr.binding_le_four l) hlt) blank_nil
      ((hr hre hb).mono (Expr.binding_le_four r) hrt)
  | compare l op r hl hr =>
    obtain ⟨⟨-, hlayer, -⟩, hle, hre⟩ := Expr.everywhere_compare.1 h
    have hcons := Expr.write_append l [' '] (op.symbol.toList ++ ' ' :: r.write b)
    rw [List.singleton_append] at hcons
    rw [Expr.write, hcons]
    exact .compare ((hl hle blank_space).mono (Expr.binding_le_four l) hlayer.1) blank_space
      ((hr hre hb).mono (Expr.binding_le_four r) hlayer.2) (fun _ hnil => nomatch hnil)
  | call name es ih =>
    obtain ⟨⟨hname, -⟩, hes⟩ := Expr.everywhere_call.1 h
    have hcons := Expr.writeArguments_append es [] (')' :: b)
    rw [List.nil_append, ← argumentsText_written] at hcons
    have hnil : writtenArguments es ≠ [] := by cases es <;> nofun
    have hlead : ∀ a ∈ writtenArguments es, Blank a.lead :=
      fun a ha => (written_of_mem ha).1 ▸ blank_nil
    have hempty : ∀ a ∈ writtenArguments es, a.tree? = none → Pluses a.content :=
      fun a ha hnone => (written_of_mem ha).2.1 hnone ▸ .nil
    have hcontent : ∀ a ∈ writtenArguments es, ∀ e, a.tree? = some e →
        Derives 0 a.content e := by
      intro a ha e hsome
      obtain ⟨he, hwrite⟩ := (written_of_mem ha).2.2 e hsome
      rw [hwrite]
      exact (ih e he (hes e he) blank_nil).mono (Expr.binding_le_four e) (Nat.zero_le _)
    have hcall := Derives.call hname blank_nil hnil hlead hempty hcontent hb
    rw [filterMap_written] at hcall
    rw [Expr.write, hcons]
    exact hcall

end Formulary.Grammar
