import Formulary.Proofs.Source.Tokens

/-!
# Reading what the grammar derives

**A text that is derived is read as its tree** (`understood_of_derives`), at the level at which it is
derived, before anything that does not go on at this level. A chain of operators is read from left to
right, so at its levels the statement is not that all of the text is read at once: the parser reads
it and is then in the middle of its loop, with the tree so far on its left (`Understood`).

The length of what is left bounds every loop and every nesting, so the budgets of the parsers are
never used up before the text is.

Main results: `ofSource_marked` and `ofSource_unmarked`, that a derived expression is a formula, with
the marker in front of it and without, and the formula is its tree regrouped.
-/

namespace Formulary.Parser

open Grammar

/-! ## Operands -/

section

variable {nested : Parser (Option Expr)} {budget : Nat} {s b b' rest : List Char} {c : Char}
  {e : Expr} {q : Parser (Option Expr)}

theorem Stops.not_blank {n : Nat} (h : Stops n rest) :
    ∀ c ∈ rest.head?, Text.isBlank c = false :=
  h.not_class rfl

theorem not_blank_of_derives {n : Nat} (h : Derives n s e) :
    ∀ c ∈ (s ++ rest).head?, Text.isBlank c = false := by
  obtain ⟨c, t, rfl, hc⟩ := begins_of_derives h
  rintro d ⟨⟩
  exact hc.not_blank

theorem reads_number {x : Float} (hs : ∀ c ∈ s, Text.isNumeral c = true)
    (hx : Binary64.ofNumeral? s = some x) (hb : Blank b) (hr : Stops 4 rest) :
    Reads (operand nested budget) (s ++ b) (pure (some (.number x))) rest := by
  have hlex : Reads (lexeme Cursor.readNumber) (s ++ b) (pure x) rest := by
    refine reads_lexeme (fun position => readNumber_append hs hx ?_ position) hb hr.not_blank
    exact head?_append_blank hb (fun c hc => Begins.not_blank (.inr (.inl hc))) (hr.not_class rfl)
  cases s with
  | nil => exact absurd hx nofun
  | cons c s =>
    have hc : Text.isNumeral c = true := hs c List.mem_cons_self
    have hopen : c ≠ '(' := by
      intro heq
      subst heq
      exact absurd hc (by decide)
    have hquote : c ≠ '"' := by
      intro heq
      subst heq
      exact absurd hc (by decide)
    refine Reads.peek ?_
    show Reads (if c = '(' then _ else if c = '"' then _ else if Text.isNumeral c then _ else _) _ _ _
    rw [if_neg hopen, if_neg hquote, if_pos hc]
    exact hlex.bind_refl

theorem reads_text {t : String} (hb : Blank b) (hr : Stops 4 rest) :
    Reads (operand nested budget) ('"' :: (Text.encode t.toList ++ '"' :: b))
      (pure (some (.text t))) rest := by
  have hlex : Reads (lexeme Cursor.readText) (('"' :: (Text.encode t.toList ++ ['"'])) ++ b)
      (pure t) rest := by
    refine reads_lexeme (fun position => ?_) hb hr.not_blank
    rw [List.cons_append, List.append_assoc]
    refine readText_append (fun hq => ?_) position
    have hblank : ∀ c, (c == '"') = true → Text.isBlank c = false := by
      intro c hc
      rw [beq_iff_eq.1 hc]
      rfl
    have hquote := head?_append_blank hb hblank (hr.not_class rfl) '"' hq
    exact absurd hquote (by decide)
  rw [List.cons_append, List.append_assoc] at hlex
  exact Reads.peek hlex.bind_refl

theorem reads_reference {name : String} (hb : Blank b) (hname : Text.IsFormulaName name.toList)
    (hb' : Blank b') (hr : Stops 4 rest) :
    Reads (operand nested budget) ('=' :: (b ++ (name.toList ++ b')))
      (pure (some (.reference name))) rest := by
  have hlex : Reads (lexeme Cursor.readFormulaName) (name.toList ++ b') (pure name) rest := by
    refine reads_lexeme (fun position => readFormulaName_append hname ?_ position) hb'
      hr.not_blank
    exact head?_append_blank hb' (fun c hc => isBlank_eq_false_of_isAlphanum hc)
      (hr.not_class rfl)
  have hfirst : ∀ c ∈ (name.toList ++ b' ++ rest).head?, Text.isBlank c = false := by
    obtain ⟨hnil, hall⟩ := hname
    revert hnil hall
    cases name.toList with
    | nil => exact fun hnil _ => absurd rfl hnil
    | cons c cs =>
      rintro - hall d ⟨⟩
      exact isBlank_eq_false_of_isAlphanum (hall _ List.mem_cons_self)
  exact Reads.peek (Reads.bind (s := '=' :: b) (reads_shift hb hfirst) hlex.bind_refl)

theorem reads_closing {otherwise : Char → Nat → SyntaxError} (hb : Blank b)
    (hr : ∀ c ∈ rest.head?, Text.isBlank c = false) :
    Reads (closing otherwise) (')' :: b) (pure ()) rest :=
  Reads.peek (reads_shift hb hr)

theorem reads_bracket (hb : Blank b) (hs : ∀ c ∈ (s ++ ')' :: (b' ++ rest)).head?, Text.isBlank c = false)
    (hinner : Reads nested s (pure (some e)) (')' :: (b' ++ rest))) (hb' : Blank b')
    (hr : Stops 4 rest) :
    Reads (operand nested budget) ('(' :: (b ++ (s ++ ')' :: b'))) (pure (some (.bracket e)))
      rest := by
  refine Reads.peek ?_
  show Reads (bracket nested) (('(' :: b) ++ (s ++ ')' :: b')) _ _
  refine Reads.bind (reads_shift hb ?_) (Reads.bind hinner ?_)
  · rwa [List.append_assoc]
  · exact (reads_closing hb' hr.not_blank).bind_refl

theorem operand_of_isAlpha (hc : c.isAlpha = true)
    (h : Reads (named nested budget) (c :: s) q rest) :
    Reads (operand nested budget) (c :: s) q rest := by
  have hopen : c ≠ '(' := by
    intro heq
    subst heq
    exact absurd hc (by decide)
  have hquote : c ≠ '"' := by
    intro heq
    subst heq
    exact absurd hc (by decide)
  have hnumeral : ¬ Text.isNumeral c = true := by
    rw [Text.isNumeral, Bool.or_eq_true, beq_iff_eq]
    rintro (hd | rfl)
    · simp only [Char.isAlpha, Char.isUpper, Char.isLower, Char.isDigit, Bool.or_eq_true,
        Bool.and_eq_true, decide_eq_true_eq, ge_iff_le, UInt32.le_iff_toNat_le] at hc hd
      simp at hc hd
      omega
    · exact absurd hc (by decide)
  refine Reads.peek ?_
  show Reads (if c = '(' then _ else if c = '"' then _ else if Text.isNumeral c then _ else
    if c.isAlpha then _ else _) _ _ _
  rw [if_neg hopen, if_neg hquote, if_neg hnumeral, if_pos hc]
  exact h

theorem operand_of_isName {name : String} (hname : Text.IsName name.toList)
    (h : Reads (named nested budget) (name.toList ++ s) q rest) :
    Reads (operand nested budget) (name.toList ++ s) q rest := by
  revert hname h
  cases name.toList with
  | nil => exact fun hname => hname.elim
  | cons c cs => exact fun hname h => operand_of_isAlpha hname.1 h

theorem reads_name {name : String} (hname : Text.IsName name.toList) (hb : Blank b)
    (hblank : ∀ c ∈ rest.head?, Text.isBlank c = false)
    (hpart : ∀ c ∈ rest.head?, Text.isNamePart c = false) :
    Reads (lexeme Cursor.readName) (name.toList ++ b) (pure name) rest := by
  refine reads_lexeme (fun position => readName_append hname ?_ position) hb hblank
  exact head?_append_blank hb (fun c hc => isBlank_eq_false_of_isNamePart hc) hpart

theorem reads_var {name : String} (hname : Text.IsName name.toList) (hb : Blank b)
    (hr : Stops 4 rest) :
    Reads (operand nested budget) (name.toList ++ b) (pure (some (.var name))) rest := by
  refine operand_of_isName hname ?_
  have hlex := reads_name hname hb hr.not_blank (hr.not_class rfl)
  rw [← List.append_nil (name.toList ++ b)]
  refine Reads.bind hlex (Reads.peek ?_)
  cases rest with
  | nil => exact .refl _ _
  | cons c rest =>
    have hc : c ≠ '(' := by
      intro heq
      subst heq
      exact absurd (stops_cons.1 hr).1 (by decide)
    split
    · rename_i h
      exact absurd (Option.some.inj h) hc
    · exact .refl _ _

end

/-! ## Calls -/

section

variable {argument : Parser (Option Expr)} {rest : List Char}

/-- What stands in front of the closing parenthesis, behind the blanks of the first argument. -/
def argumentsCore (a : Argument) : List Argument → List Char
  | [] => a.content
  | a' :: as => a.content ++ ';' :: (a'.lead ++ argumentsCore a' as)

theorem argumentsText_cons (a : Argument) (as : List Argument) :
    argumentsText (a :: as) = a.lead ++ argumentsCore a as := by
  induction as generalizing a with
  | nil => rfl
  | cons a' as ih =>
    rw [argumentsText, ih, Argument.text, argumentsCore, List.append_assoc]

theorem Pluses.not_blank {s : List Char} (h : Pluses s)
    (hr : ∀ c ∈ rest.head?, Text.isBlank c = false) :
    ∀ c ∈ (s ++ rest).head?, Text.isBlank c = false := by
  cases h with
  | nil => exact hr
  | cons hb hs =>
    rintro c ⟨⟩
    rfl

theorem argumentsCore_not_blank {a : Argument} {as : List Argument}
    (hempty : a.tree? = none → Pluses a.content)
    (hcontent : ∀ e, a.tree? = some e → Derives 0 a.content e) :
    ∀ c ∈ (argumentsCore a as ++ ')' :: rest).head?, Text.isBlank c = false := by
  have hfirst : ∀ c s, Text.isBlank c = false →
      ∀ d ∈ (a.content ++ c :: s).head?, Text.isBlank d = false := by
    intro c s hc
    cases ht : a.tree? with
    | none =>
      refine Pluses.not_blank (hempty ht) ?_
      rintro d ⟨⟩
      exact hc
    | some e => exact not_blank_of_derives (hcontent e ht)
  cases as with
  | nil => exact hfirst ')' rest rfl
  | cons a' as =>
    rw [argumentsCore, List.append_assoc]
    exact hfirst ';' _ rfl

/-- A loop over arguments reads them if the parser of a single one does. -/
theorem reads_arguments {budget bound : Nat} {a : Argument} {as : List Argument}
    {read : List Expr} (hlead : ∀ a' ∈ as, Blank a'.lead)
    (hempty : ∀ a' ∈ a :: as, a'.tree? = none → Pluses a'.content)
    (hcontent : ∀ a' ∈ a :: as, ∀ e, a'.tree? = some e → Derives 0 a'.content e)
    (hargument : ∀ a' ∈ a :: as, ∀ r, Stops 0 r → (a'.content ++ r).length ≤ bound →
      Reads argument a'.content (pure a'.tree?) r)
    (hbudget : (argumentsCore a as ++ ')' :: rest).length ≤ budget)
    (hbound : (argumentsCore a as ++ ')' :: rest).length ≤ bound) :
    Reads (arguments argument budget read) (argumentsCore a as)
      (pure (read.reverse ++ (a :: as).filterMap Argument.tree?)) (')' :: rest) := by
  induction as generalizing a budget read with
  | nil =>
    cases budget with
    | zero => simp at hbudget
    | succ budget =>
      have h := hargument a List.mem_cons_self (')' :: rest) stops_closing hbound
      have hread : (a.tree?.toList ++ read).reverse =
          read.reverse ++ [a].filterMap Argument.tree? := by
        cases ht : a.tree? <;> simp [ht]
      rw [← hread]
      rw [argumentsCore, ← List.append_nil a.content]
      exact Reads.bind h (Reads.peek (.refl _ _))
  | cons a' as ih =>
    cases budget with
    | zero => simp at hbudget
    | succ budget =>
      rw [argumentsCore, List.append_assoc, List.length_append] at hbudget hbound
      simp only [List.cons_append, List.append_assoc, List.length_cons, List.length_append]
        at hbudget hbound
      have h := hargument a List.mem_cons_self
        (';' :: (a'.lead ++ argumentsCore a' as) ++ ')' :: rest) stops_semicolon
        (by simp only [List.cons_append, List.append_assoc, List.length_cons, List.length_append]
            omega)
      have hlen : (argumentsCore a' as ++ ')' :: rest).length ≤ budget ∧
          (argumentsCore a' as ++ ')' :: rest).length ≤ bound := by
        simp only [List.length_cons, List.length_append]
        omega
      have hrest : Reads (arguments argument budget (a.tree?.toList ++ read))
          (argumentsCore a' as) (pure ((a.tree?.toList ++ read).reverse ++
            (a' :: as).filterMap Argument.tree?)) (')' :: rest) :=
        ih (fun x hx => hlead x (List.mem_cons_of_mem _ hx))
          (fun x hx => hempty x (List.mem_cons_of_mem _ hx))
          (fun x hx => hcontent x (List.mem_cons_of_mem _ hx))
          (fun x hx => hargument x (List.mem_cons_of_mem _ hx)) hlen.1 hlen.2
      have hread : (a.tree?.toList ++ read).reverse ++ (a' :: as).filterMap Argument.tree? =
          read.reverse ++ (a :: a' :: as).filterMap Argument.tree? := by
        cases ht : a.tree? <;> simp [ht]
      rw [hread] at hrest
      rw [argumentsCore]
      refine Reads.bind h (Reads.peek ?_)
      refine Reads.bind (s := ';' :: a'.lead) (reads_shift (hlead a' List.mem_cons_self) ?_) hrest
      have ha' : a' ∈ a :: a' :: as := List.mem_cons_of_mem _ List.mem_cons_self
      exact argumentsCore_not_blank (hempty a' ha') (hcontent a' ha')

theorem reads_call {nested : Parser (Option Expr)} {name : String} {b b' : List Char} {a : Argument}
    {as : List Argument} {budget : Nat} (hname : Text.IsName name.toList) (hb : Blank b)
    (hlead : ∀ a' ∈ a :: as, Blank a'.lead)
    (hempty : ∀ a' ∈ a :: as, a'.tree? = none → Pluses a'.content)
    (hcontent : ∀ a' ∈ a :: as, ∀ e, a'.tree? = some e → Derives 0 a'.content e)
    (harguments : Reads (arguments nested budget []) (argumentsCore a as)
      (pure ((a :: as).filterMap Argument.tree?)) (')' :: (b' ++ rest)))
    (hb' : Blank b') (hr : Stops 4 rest) :
    Reads (operand nested budget)
      (name.toList ++ (b ++ '(' :: (argumentsText (a :: as) ++ ')' :: b')))
      (pure (some (.call name ((a :: as).filterMap Argument.tree?)))) rest := by
  refine operand_of_isName hname ?_
  have hlex : Reads (lexeme Cursor.readName) (name.toList ++ b) (pure name)
      ('(' :: (argumentsText (a :: as) ++ ')' :: b') ++ rest) := by
    refine reads_name hname hb ?_ ?_ <;> rintro c ⟨⟩ <;> rfl
  rw [← List.append_assoc]
  refine Reads.bind hlex (Reads.peek ?_)
  rw [argumentsText_cons, List.append_assoc]
  refine Reads.bind (s := '(' :: a.lead) (reads_shift (hlead a List.mem_cons_self) ?_)
    (Reads.bind harguments ?_)
  · rw [List.append_assoc]
    exact argumentsCore_not_blank (hempty a List.mem_cons_self) (hcontent a List.mem_cons_self)
  · exact (reads_closing hb' hr.not_blank).bind_refl

end

/-! ## Operators -/

section

variable {nested side : Parser (Option Expr)} {k budget : Nat} {s t b rest : List Char} {c : Char}
  {e l r : Expr} {q : Parser (Option Expr)}

theorem operatorOf_symbol (op : ArithOp) : operatorOf op.strength op.symbol = some op := by
  cases op <;> rfl

theorem operatorOf_eq_none (h : ∀ op : ArithOp, op.symbol = c → op.strength < k) :
    operatorOf k c = none := by
  unfold operatorOf
  rw [Option.filter_eq_none_iff]
  intro op hop
  have hs : op.symbol = c := by simpa using List.find?_some hop
  have hlt := h op hs
  simp only [decide_eq_true_eq]
  omega

theorem chain_stops (h : Stops k rest) : Reads (chain k side budget e) [] (pure (some e)) rest := by
  cases budget with
  | zero => exact .refl _ _
  | succ budget =>
    refine Reads.peek ?_
    have hnone : (rest.head?).bind (operatorOf k) = none := by
      cases rest with
      | nil => rfl
      | cons c rest => exact operatorOf_eq_none (stops_cons.1 h).2.1
    rw [List.nil_append, hnone]
    exact .refl _ _

theorem chain_step {op : ArithOp} (hb : Blank b) (ht : ∀ c ∈ (t ++ rest).head?, Text.isBlank c = false)
    (hside : Reads side t (pure (some r)) rest) :
    Reads (chain op.strength side (budget + 1) l) (op.symbol :: (b ++ t))
      (chain op.strength side budget (.arith l op r)) rest := by
  refine Reads.peek ?_
  dsimp only [List.cons_append, List.head?_cons, Option.bind_some]
  rw [operatorOf_symbol]
  exact Reads.bind (s := op.symbol :: b) (reads_shift hb ht) hside.bind_refl

theorem operation_start (hside : Reads side s (pure (some e)) rest) :
    Reads (operation k side budget) s (chain k side budget e) rest :=
  hside.bind_refl

theorem operation_nothing (hside : Reads side s (pure none) rest) :
    Reads (operation k side budget) s (pure none) rest :=
  hside.bind_refl

theorem signed_of_ne (hminus : c ≠ '-') (hplus : c ≠ '+')
    (h : Reads side (c :: s) q rest) : Reads (signed side (budget + 1)) (c :: s) q rest := by
  refine Reads.peek ?_
  dsimp only [List.cons_append, List.head?_cons]
  split
  · rename_i hc
    exact absurd (Option.some.inj hc) hminus
  · rename_i hc
    exact absurd (Option.some.inj hc) hplus
  · exact h

theorem signed_minus (hb : Blank b) (hs : ∀ c ∈ (s ++ rest).head?, Text.isBlank c = false)
    (h : Reads (signed side budget) s (pure (some e)) rest) :
    Reads (signed side (budget + 1)) ('-' :: (b ++ s)) (pure (some (.minus e))) rest :=
  Reads.peek (Reads.bind (s := '-' :: b) (reads_shift hb hs) h.bind_refl)

theorem signed_plus (hb : Blank b) (hs : ∀ c ∈ (s ++ rest).head?, Text.isBlank c = false)
    (h : Reads (signed side budget) s (pure (some e)) rest) :
    Reads (signed side (budget + 1)) ('+' :: (b ++ s)) (pure (some e)) rest :=
  Reads.peek (Reads.bind (s := '+' :: b) (reads_shift hb hs) h)

theorem comparison_nothing (hside : Reads side s (pure none) rest) :
    Reads (comparison side) s (pure none) rest :=
  hside.bind_refl

theorem comparison_none (hside : Reads side s (pure (some e)) rest) (h : Stops 0 rest) :
    Reads (comparison side) s (pure (some e)) rest := by
  rw [← List.append_nil s]
  exact Reads.bind hside (reads_no_comparison h).bind_refl

theorem comparison_some {op : CompareOp}
    (hl : Reads side s (pure (some l)) (op.symbol.toList ++ (b ++ t) ++ rest)) (hb : Blank b)
    (hop : Extensible op → ∀ c ∈ (b ++ t ++ rest).head?, c ≠ '=' ∧ c ≠ '>')
    (ht : ∀ c ∈ (t ++ rest).head?, Text.isBlank c = false)
    (hr : Reads side t (pure (some r)) rest) :
    Reads (comparison side) (s ++ (op.symbol.toList ++ (b ++ t))) (pure (some (.compare l op r)))
      rest :=
  Reads.bind hl (Reads.bind (reads_comparison? op hop)
    (Reads.bind (reads_skipBlanks hb ht) hr.bind_refl))

theorem eq_of_stops_zero (h : Stops 0 (c :: rest)) : c = ')' ∨ c = ';' := by
  obtain ⟨hmem, hop, hzero⟩ := stops_cons.1 h
  have hzero := hzero rfl
  simp only [delimiters, List.mem_cons, List.not_mem_nil, or_false] at hmem hzero
  have hadd : c ≠ '+' := fun hc => absurd (hop .add hc.symm) nofun
  have hsub : c ≠ '-' := fun hc => absurd (hop .sub hc.symm) nofun
  have hmul : c ≠ '*' := fun hc => absurd (hop .mul hc.symm) nofun
  have hdiv : c ≠ '/' := fun hc => absurd (hop .div hc.symm) nofun
  have hpow : c ≠ '^' := fun hc => absurd (hop .pow hc.symm) nofun
  simpa [hadd, hsub, hmul, hdiv, hpow, hzero] using hmem

theorem operand_nothing (h : Stops 0 rest) : Reads (operand nested budget) [] (pure none) rest := by
  intro position kept
  cases rest with
  | nil => rfl
  | cons c rest => rcases eq_of_stops_zero h with rfl | rfl <;> rfl

theorem signed_nothing (h : Stops 0 rest) (hside : Reads side [] (pure none) rest) :
    Reads (signed side budget) [] (pure none) rest := by
  cases budget with
  | zero => exact .refl _ _
  | succ budget =>
    refine Reads.peek ?_
    cases rest with
    | nil => exact hside
    | cons c rest => rcases eq_of_stops_zero h with rfl | rfl <;> exact hside

/-- Plus signs with no operand behind them are read, and leave nothing. -/
theorem signed_pluses (hs : Pluses s) (h : Stops 0 rest) (hside : Reads side [] (pure none) rest)
    (hlen : (s ++ rest).length ≤ budget) : Reads (signed side budget) s (pure none) rest := by
  induction hs generalizing budget with
  | nil => exact signed_nothing h hside
  | @cons b s hb hs ih =>
    cases budget with
    | zero => simp at hlen
    | succ budget =>
      simp only [List.cons_append, List.append_assoc, List.length_cons, List.length_append] at hlen
      have hblank := Pluses.not_blank hs (Stops.not_blank h)
      refine Reads.peek (Reads.bind (s := '+' :: b) (reads_shift hb hblank) (ih ?_))
      rw [List.length_append]
      omega

theorem expression_pluses (hs : Pluses s) (h : Stops 0 rest) (hlen : (s ++ rest).length ≤ budget) :
    Reads (expression budget) s (pure none) rest := by
  cases budget with
  | zero =>
    cases hs with
    | nil => exact .refl _ _
    | cons => simp at hlen
  | succ budget =>
    have hsigned : Reads (signed (operand (expression budget) (budget + 1)) (budget + 1)) s
        (pure none) rest := signed_pluses hs h (operand_nothing h) hlen
    exact comparison_nothing (operation_nothing (operation_nothing (operation_nothing hsigned)))

end

/-! ## Derived texts -/

/-- An operand with its signs, within an expression of this budget. -/
abbrev signedOperand (budget turns : Nat) : Parser (Option Expr) :=
  signed (operand (expression budget) (budget + 1)) turns

/-- The parser at a level of the grammar. -/
def level (budget : Nat) : Nat → Parser (Option Expr)
  | 0 => expression (budget + 1)
  | 1 => arithmetic (expression budget) (budget + 1)
  | 2 => operation 2 (operation 3 (signedOperand budget (budget + 1)) (budget + 1)) (budget + 1)
  | 3 => operation 3 (signedOperand budget (budget + 1)) (budget + 1)
  | _ => signedOperand budget (budget + 1)

theorem level_eq_operation (budget : Nat) {k : Nat} (hpos : 0 < k) (hlt : k < 4) :
    level budget k = operation k (level budget (k + 1)) (budget + 1) := by
  obtain rfl | rfl | rfl : k = 1 ∨ k = 2 ∨ k = 3 := by omega
  all_goals rfl

/-- What reading a text at a level amounts to. A chain is left in the middle of its loop, with
enough of its budget for what follows. -/
structure Understood (budget n : Nat) (s : List Char) (e : Expr) (rest : List Char) : Prop where
  expression : n = 0 → Stops 0 rest → Reads (level budget 0) s (pure (some e)) rest
  chain : 0 < n → n < 4 → Stops (n + 1) rest → ∃ turns, rest.length ≤ turns ∧
    Reads (level budget n) s (chain n (level budget (n + 1)) turns e) rest
  operand : n = 4 → Stops 4 rest → ∀ turns, (s ++ rest).length ≤ turns →
    Reads (signedOperand budget turns) s (pure (some e)) rest

section

variable {budget n : Nat} {s rest : List Char} {e : Expr}

/-- Above the comparisons, a text before which the loop stops is read to its end. -/
theorem Understood.reads (h : Understood budget n s e rest) (hpos : 0 < n) (hn : n ≤ 4)
    (hlen : (s ++ rest).length ≤ budget + 1) (hr : Stops n rest) :
    Reads (level budget n) s (pure (some e)) rest := by
  rcases Nat.lt_or_ge n 4 with hlt | hge
  · obtain ⟨turns, -, hchain⟩ := h.chain hpos hlt (hr.mono (Nat.le_succ n))
    intro position kept
    rw [hchain position kept]
    exact chain_stops hr _ _
  · obtain rfl : n = 4 := by omega
    exact h.operand rfl hr _ hlen

/-- A text at the next level starts a chain, or a comparison, of its own. -/
theorem Understood.loosen (h : Understood budget (n + 1) s e rest) (hn : n < 4)
    (hlen : (s ++ rest).length ≤ budget + 1) : Understood budget n s e rest where
  expression := by
    rintro rfl hr
    exact comparison_none (h.reads (by omega) (by omega) hlen (hr.mono (Nat.zero_le 1))) hr
  chain hpos hlt hr := by
    refine ⟨budget + 1, ?_, ?_⟩
    · rw [List.length_append] at hlen
      omega
    · rw [level_eq_operation budget hpos hlt]
      exact operation_start (h.reads (by omega) (by omega) hlen hr)
  operand hfour := by omega

theorem understood_operand (hs : ∃ c t, s = c :: t ∧ c ≠ '-' ∧ c ≠ '+')
    (h : Stops 4 rest →
      Reads (Parser.operand (Parser.expression budget) (budget + 1)) s (pure (some e)) rest) :
    Understood budget 4 s e rest where
  expression := nofun
  chain _ hlt := by omega
  operand _ hr turns hturns := by
    obtain ⟨c, t, rfl, hminus, hplus⟩ := hs
    cases turns with
    | zero => simp at hturns
    | succ turns => exact signed_of_ne hminus hplus (h hr)

theorem not_sign_of_isAlpha {c : Char} (hc : c.isAlpha = true) : c ≠ '-' ∧ c ≠ '+' := by
  constructor <;> rintro rfl <;> exact absurd hc (by decide)

theorem not_sign_of_isName {name t : List Char} (hname : Text.IsName name) :
    ∃ c t', name ++ t = c :: t' ∧ c ≠ '-' ∧ c ≠ '+' := by
  cases name with
  | nil => exact hname.elim
  | cons c cs => exact ⟨c, cs ++ t, rfl, not_sign_of_isAlpha hname.1⟩

/-- A sign takes one turn, and what stands behind it is read with the turns that are left. -/
theorem understood_sign {b : List Char} {c : Char} {e' : Expr}
    (h : Understood budget 4 s e rest)
    (hstep : ∀ turns, Reads (signedOperand budget turns) s (pure (some e)) rest →
      Reads (signedOperand budget (turns + 1)) (c :: (b ++ s)) (pure (some e')) rest) :
    Understood budget 4 (c :: (b ++ s)) e' rest where
  expression := nofun
  chain _ hlt := by omega
  operand _ hr turns hturns := by
    cases turns with
    | zero => simp at hturns
    | succ turns =>
      refine hstep turns (h.operand rfl hr turns ?_)
      simp only [List.cons_append, List.append_assoc, List.length_cons, List.length_append]
        at hturns ⊢
      omega

theorem understood_arith {b t : List Char} {l r : Expr} {op : ArithOp}
    (hl : Understood budget op.strength s l (op.symbol :: (b ++ t) ++ rest)) (hb : Blank b)
    (ht : Derives (op.strength + 1) t r) (hr : Understood budget (op.strength + 1) t r rest)
    (hlen : (s ++ op.symbol :: (b ++ t) ++ rest).length ≤ budget + 1) :
    Understood budget op.strength (s ++ op.symbol :: (b ++ t)) (.arith l op r) rest where
  expression hzero := absurd hzero (Nat.ne_of_gt (Expr.strength_pos op))
  chain hpos hlt hstops := by
    obtain ⟨turns, hturns, hchain⟩ := hl.chain hpos hlt (stops_symbol (Nat.lt_succ_self _))
    simp only [List.cons_append, List.append_assoc, List.length_cons, List.length_append]
      at hturns hlen
    cases turns with
    | zero => omega
    | succ turns =>
      refine ⟨turns, by omega, hchain.trans (chain_step hb (not_blank_of_derives ht) ?_)⟩
      refine hr.reads (Nat.succ_pos _) hlt ?_ hstops
      rw [List.length_append]
      omega
  operand hfour := absurd hfour (Nat.ne_of_lt (Nat.lt_succ_of_le (Expr.strength_le_three op)))

theorem understood_compare {b t : List Char} {l r : Expr} {op : CompareOp}
    (hl : Understood budget 1 s l (op.symbol.toList ++ (b ++ t) ++ rest)) (hb : Blank b)
    (ht : Derives 1 t r) (hr : Understood budget 1 t r rest)
    (hop : Extensible op → b = [] → t.head? ≠ some '=')
    (hlen : (s ++ (op.symbol.toList ++ (b ++ t)) ++ rest).length ≤ budget + 1) :
    Understood budget 0 (s ++ (op.symbol.toList ++ (b ++ t))) (.compare l op r) rest where
  expression _ hstops := by
    have hl := hl.reads (Nat.zero_lt_one) (by decide) (by rwa [← List.append_assoc])
      (by rw [List.append_assoc]; exact stops_comparison op)
    have hr := hr.reads (Nat.zero_lt_one) (by decide)
      (by simp only [List.append_assoc, List.length_append] at hlen ⊢; omega)
      (hstops.mono (Nat.zero_le 1))
    refine comparison_some hl hb (fun hext c hc => ?_) (not_blank_of_derives ht) hr
    -- behind a comparison that an equals sign would make longer stands a blank or an operand
    cases b with
    | nil =>
      obtain ⟨d, t', rfl, hd⟩ := begins_of_derives ht
      cases hc
      exact ⟨fun heq => hop hext rfl (by rw [heq]; rfl), hd.ne_greater⟩
    | cons d b =>
      cases hc
      have hblank := hb c List.mem_cons_self
      constructor <;> rintro rfl <;> exact absurd hblank (by decide)
  chain hpos := absurd hpos (Nat.lt_irrefl 0)
  operand := nofun

theorem understood_call {name : String} {b b' : List Char} {as : List Argument}
    (hname : Text.IsName name.toList) (hb : Blank b) (has : as ≠ [])
    (hlead : ∀ a ∈ as, Blank a.lead) (hempty : ∀ a ∈ as, a.tree? = none → Pluses a.content)
    (hcontent : ∀ a ∈ as, ∀ e, a.tree? = some e → Derives 0 a.content e) (hb' : Blank b')
    (h : ∀ a ∈ as, ∀ e, a.tree? = some e → ∀ budget rest,
      (a.content ++ rest).length ≤ budget + 1 → Understood budget 0 a.content e rest)
    (hlen : (name.toList ++ (b ++ '(' :: (argumentsText as ++ ')' :: b')) ++ rest).length
      ≤ budget + 1) :
    Understood budget 4 (name.toList ++ (b ++ '(' :: (argumentsText as ++ ')' :: b')))
      (.call name (as.filterMap Argument.tree?)) rest := by
  refine understood_operand (not_sign_of_isName hname) fun hr => ?_
  cases as with
  | nil => exact absurd rfl has
  | cons a as =>
    rw [argumentsText_cons] at hlen
    simp only [List.cons_append, List.append_assoc, List.length_cons, List.length_append] at hlen
    have hinner : (argumentsCore a as ++ ')' :: (b' ++ rest)).length ≤ budget := by
      simp only [List.length_cons, List.length_append]
      omega
    refine reads_call hname hb hlead hempty hcontent ?_ hb' hr
    refine reads_arguments (fun x hx => hlead x (List.mem_cons_of_mem _ hx)) hempty hcontent ?_
      (Nat.le_succ_of_le hinner) hinner
    intro a' ha r hstops hbound
    cases ht : a'.tree? with
    | none => exact expression_pluses (hempty a' ha ht) hstops hbound
    | some e =>
      cases budget with
      | zero => omega
      | succ budget => exact (h a' ha e ht budget r hbound).expression rfl hstops

theorem understood_bracket {b b' : List Char} (hb : Blank b) (hs : Derives 0 s e)
    (h : ∀ budget rest, (s ++ rest).length ≤ budget + 1 → Understood budget 0 s e rest)
    (hb' : Blank b') (hlen : ('(' :: (b ++ (s ++ ')' :: b')) ++ rest).length ≤ budget + 1) :
    Understood budget 4 ('(' :: (b ++ (s ++ ')' :: b'))) (.bracket e) rest := by
  refine understood_operand ⟨_, _, rfl, by decide, by decide⟩ fun hr => ?_
  simp only [List.cons_append, List.append_assoc, List.length_cons, List.length_append] at hlen
  cases budget with
  | zero => omega
  | succ budget =>
    refine reads_bracket hb (not_blank_of_derives hs) ?_ hb' hr
    refine (h budget (')' :: (b' ++ rest)) ?_).expression rfl stops_closing
    simp only [List.length_cons, List.length_append]
    omega

/-- **A text that is derived is read as its tree**, whatever follows that the budget covers. -/
theorem understood_of_derives (h : Derives n s e) :
    ∀ budget rest, (s ++ rest).length ≤ budget + 1 → Understood budget n s e rest := by
  induction h with
  | @number s b x hs hx hb =>
    intro budget rest _
    refine understood_operand ?_ fun hr => reads_number hs hx hb hr
    cases s with
    | nil => exact absurd hx nofun
    | cons c s =>
      have hc := hs c List.mem_cons_self
      refine ⟨c, s ++ b, rfl, ?_, ?_⟩ <;> rintro rfl <;> exact absurd hc (by decide)
  | text hb =>
    intro budget rest _
    exact understood_operand ⟨_, _, rfl, by decide, by decide⟩ fun hr => reads_text hb hr
  | var hname hb =>
    intro budget rest _
    exact understood_operand (not_sign_of_isName hname) fun hr => reads_var hname hb hr
  | reference hb hname hb' =>
    intro budget rest _
    exact understood_operand ⟨_, _, rfl, by decide, by decide⟩
      fun hr => reads_reference hb hname hb' hr
  | bracket hb he hb' ih => exact fun budget rest hlen => understood_bracket hb he ih hb' hlen
  | call hname hb has hlead hempty hcontent hb' ih =>
    exact fun budget rest hlen => understood_call hname hb has hlead hempty hcontent hb' ih hlen
  | minus hb he ih =>
    intro budget rest hlen
    refine understood_sign (ih budget rest ?_) fun _ => signed_minus hb (not_blank_of_derives he)
    simp only [List.cons_append, List.append_assoc, List.length_cons, List.length_append]
      at hlen ⊢
    omega
  | plus hb he ih =>
    intro budget rest hlen
    refine understood_sign (ih budget rest ?_) fun _ => signed_plus hb (not_blank_of_derives he)
    simp only [List.cons_append, List.append_assoc, List.length_cons, List.length_append]
      at hlen ⊢
    omega
  | arith hl hb hr ihl ihr =>
    intro budget rest hlen
    refine understood_arith (ihl budget _ (by rwa [← List.append_assoc])) hb hr
      (ihr budget rest ?_) hlen
    simp only [List.cons_append, List.append_assoc, List.length_cons, List.length_append]
      at hlen ⊢
    omega
  | compare hl hb hr hop ihl ihr =>
    intro budget rest hlen
    refine understood_compare (ihl budget _ (by rwa [← List.append_assoc])) hb hr
      (ihr budget rest ?_) hop hlen
    simp only [List.append_assoc, List.length_append] at hlen ⊢
    omega
  | loosen hn he ih => exact fun budget rest hlen => (ih budget rest hlen).loosen hn hlen

end

/-! ## Formulas -/

section

variable {lead b s rest : List Char} {e : Expr}

theorem reads_marker (hlead : Blank lead) (hb : Blank b)
    (hr : ∀ c ∈ rest.head?, Text.isBlank c = false) :
    Reads marker (lead ++ '=' :: b) (pure ()) rest := by
  refine Reads.bind (reads_skipBlanks hlead ?_) (Reads.peek (reads_shift hb hr))
  intro c hc
  cases hc
  rfl

theorem reads_no_marker (hlead : Blank lead) (hr : ∀ c ∈ rest.head?, Text.isBlank c = false)
    (heq : rest.head? ≠ some '=') : Reads marker lead (pure ()) rest := by
  rw [← List.append_nil lead]
  refine Reads.bind (reads_skipBlanks hlead hr) (Reads.peek ?_)
  rw [List.nil_append]
  split
  · rename_i h
    exact absurd h heq
  · exact .refl _ _

/-- Behind its marker, or behind blanks alone, a formula is an expression. -/
theorem reads_formula {m : List Char} {budget : Nat} (hm : Reads marker m (pure ()) s)
    (hs : Derives 0 s e) (hlen : s.length ≤ budget) :
    Reads (formula budget) (m ++ s) (pure e) [] := by
  obtain ⟨c, t, rfl, -⟩ := begins_of_derives hs
  cases budget with
  | zero => simp at hlen
  | succ budget =>
    refine Reads.bind (by rwa [List.append_nil]) ?_
    have h := understood_of_derives hs budget [] (by rwa [List.append_nil])
    rw [← List.append_nil (c :: t)]
    exact Reads.bind (h.expression rfl stops_nil) (Reads.peek (.refl _ _))

theorem ofSource_of_reads (h : Reads (formula s.length) s (pure e) []) :
    Reading.ofSource (String.ofList s) = ⟨.ok e.regroup, []⟩ := by
  have h := h 0 []
  rw [List.append_nil] at h
  unfold Reading.ofSource Cursor.start
  rw [String.length_ofList, String.toList_ofList, h]
  rfl

/-- **A derived expression behind the marker is read as a formula**, whole, and the formula is its
tree regrouped. -/
theorem ofSource_marked (hlead : Blank lead) (hb : Blank b) (hs : Derives 0 s e) :
    Reading.ofSource (String.ofList (lead ++ '=' :: b ++ s)) = ⟨.ok e.regroup, []⟩ := by
  have hfirst : ∀ c ∈ s.head?, Text.isBlank c = false := by
    rw [← List.append_nil s]
    exact not_blank_of_derives hs
  refine ofSource_of_reads (reads_formula (reads_marker hlead hb hfirst) hs ?_)
  rw [List.length_append]
  omega

/-- The marker may be left out in front of anything but an equals sign. -/
theorem ofSource_unmarked (hlead : Blank lead) (hs : Derives 0 s e) (heq : s.head? ≠ some '=') :
    Reading.ofSource (String.ofList (lead ++ s)) = ⟨.ok e.regroup, []⟩ := by
  have hfirst : ∀ c ∈ s.head?, Text.isBlank c = false := by
    rw [← List.append_nil s]
    exact not_blank_of_derives hs
  refine ofSource_of_reads (reads_formula (reads_no_marker hlead hfirst heq) hs ?_)
  rw [List.length_append]
  omega

end

end Formulary.Parser
