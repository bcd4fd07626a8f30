import Formulary.Proofs.Expr.Passes
import Formulary.Proofs.Source.Budget
import Formulary.Proofs.Source.Causes

/-!
# Reading ends

The parsers of the grammar call each other in a circle, and a turn of a loop may find nothing to
read. `parse` is this recursion without a budget; `none` is for a run that never returns. After
every step, and whenever a part of the grammar is begun, a run takes a `Snapshot`: where the cursor
is, and which parts are around it, with the places where they were begun.

**Every run returns**, and returns what is read with a budget. From one snapshot to the next the
cursor does not go back, nor does it go beyond the end of the source; and where a part has led back
to itself, something was read in between (`parse_ends`).

Before anything is read, a part only leads to parts of a higher *rank* (`Part.rank`). So a part can
begin if all parts around it that have no lower rank were begun before the cursor (`Fits`), and once
the cursor has moved, any part can begin again (`Fits.of_lt`). Each level of the recursion is set
beside the parser of this level, which has a budget (`Carries`). The budgets are greater than the
number of characters left, and the inductions are on them.
-/

namespace Formulary.Parser.Descent

/-! ## The recursion -/

/-- What can lead back to itself while a source is read. -/
inductive Part where
  | expression
  /-- An operand with the signs in front of it. -/
  | signed
  /-- The loop for the operators of one strength, in front of a turn. -/
  | operators (strength : Nat)
  /-- The loop for the arguments of a call, in front of a turn. -/
  | arguments

/-- A part of the grammar, begun at a position. -/
structure Call where
  part : Part
  position : Nat

/-- The parts around some place, the innermost one first. A turn of a loop is within the turns
before it. -/
abbrev Calls := List Call

/-- What is going on at some time. -/
structure Snapshot where
  calls : Calls
  cursor : Cursor

/-- How far a run has come. -/
structure Progress where
  state : ParserState
  /-- The snapshots so far, in the order in which they were taken. -/
  seen : List Snapshot

/-- A run, which gives a result, a cause or nothing at all. -/
abbrev Run := ExceptT SyntaxError (StateT Progress Option)

/-- What a parser gives, and the state it leaves. -/
def outcome {α : Type} :
    EStateM.Result SyntaxError ParserState α → Except SyntaxError α × ParserState
  | .ok a s => (.ok a, s)
  | .error e s => (.error e, s)

/-- Does what a parser does that leads to no other part. -/
def step {α : Type} (calls : Calls) (p : Parser α) : Run α := fun now =>
  let (result, s) := outcome (p now.state)
  some (result, ⟨s, now.seen ++ [⟨calls, s.cursor⟩]⟩)

/-- Begins a part at the cursor. Gives the parts that are around it then. -/
def enter (part : Part) (calls : Calls) : Run Calls := fun now =>
  let calls := ⟨part, now.state.cursor.position⟩ :: calls
  some (.ok calls, { now with seen := now.seen ++ [⟨calls, now.state.cursor⟩] })

mutual

/-- At most one comparison. -/
def Calls.expression (calls : Calls) : Run (Option Expr) := do
  let calls ← enter .expression calls
  match ← calls |>.operation 1 with
  | none => return none
  | some left =>
    match ← step calls comparison? with
    | none => return some left
    | some op =>
      step calls (move Cursor.skipBlanks)
      match ← calls |>.operation 1 with
      | none => step calls (missingOperand (some left))
      | some right => return some (.compare left op right)
partial_fixpoint

/-- A chain of operands with operators of one strength between them. -/
def Calls.operation (calls : Calls) (strength : Nat) : Run (Option Expr) := do
  match ← calls |>.tighter strength with
  | none => return none
  | some left => calls |>.chain strength left
partial_fixpoint

/-- An operand of an operator of this strength. -/
def Calls.tighter (calls : Calls) (strength : Nat) : Run (Option Expr) :=
  if strength < 3 then calls |>.operation (strength + 1) else calls |>.signed
partial_fixpoint

/-- The rest of a chain, after `left`. -/
def Calls.chain (calls : Calls) (strength : Nat) (left : Expr) : Run (Option Expr) := do
  let calls ← enter (.operators strength) calls
  match (← step calls peek).bind (operatorOf strength) with
  | none => return some left
  | some op =>
    step calls shift
    match ← calls |>.tighter strength with
    | none => step calls (missingOperand (some left))
    | some right => calls |>.chain strength (.arith left op right)
partial_fixpoint

/-- An operand with signs in front of it. -/
def Calls.signed (calls : Calls) : Run (Option Expr) := do
  let calls ← enter .signed calls
  let next ← step calls peek
  if next = some '-' then
    step calls shift
    match ← calls |>.signed with
    | none => step calls (missingOperand none)
    | some e => return some (.minus e)
  else if next = some '+' then
    step calls shift
    calls |>.signed
  else calls |>.operand
partial_fixpoint

/-- What stands between operators and signs. -/
def Calls.operand (calls : Calls) : Run (Option Expr) := do
  match ← step calls peek with
  | none => return none
  | some c =>
    if c = '(' then calls |>.bracket
    else if c = '"' then return some (.text (← step calls (lexeme Cursor.readText)))
    else if Text.isNumeral c then return some (.number (← step calls (lexeme Cursor.readNumber)))
    else if c.isAlpha then calls |>.named
    else if c = '=' then step calls reference
    else return none
partial_fixpoint

/-- A bracket around an expression. -/
def Calls.bracket (calls : Calls) : Run (Option Expr) := do
  step calls shift
  match ← calls |>.expression with
  | none => step calls (missingOperand none)
  | some e =>
    step calls (closing fun _ => .unclosedBracket)
    return some (.bracket e)
partial_fixpoint

/-- A variable, or a call. -/
def Calls.named (calls : Calls) : Run (Option Expr) := do
  let name ← step calls (lexeme Cursor.readName)
  if (← step calls peek) = some '(' then
    step calls shift
    let es ← calls |>.arguments []
    step calls (closing .unclosedCall)
    return some (.call name es)
  else return some (.var name)
partial_fixpoint

/-- The arguments of a call, after those in `read` (the last one first). -/
def Calls.arguments (calls : Calls) (read : List Expr) : Run (List Expr) := do
  let calls ← enter .arguments calls
  let argument ← calls |>.expression
  let read := argument.toList ++ read
  if (← step calls peek) = some ';' then
    step calls shift
    calls |>.arguments read
  else return read.reverse
partial_fixpoint

end

/-- Reads a formula, as it is grouped by its source. -/
def formula : Run Expr := do
  step [] marker
  let e? ← Calls.expression []
  step [] (conclude e?)

/-- Reads a source and regroups its tree. -/
def parse (source : String) : Option (Except SyntaxError Expr × List Snapshot) := do
  match ← formula ⟨⟨.start source, []⟩, []⟩ with
  | (.error e, now) => return (.error e, now.seen)
  | (.ok e, now) =>
    let tree ← e.regroupWalk
    return (.ok tree, now.seen)

/-! ## Parts in order -/

/-- Before anything is read, a part can only lead to parts of a higher rank. -/
def Part.rank : Part → Nat
  | arguments => 0
  | expression => 1
  | signed => 2
  | operators _ => 3

/-- The parts around the cursor were begun before it or at it, and each of them behind every part
around it that has no lower rank, such as the same part once more. -/
structure Snapshot.Ordered (now : Snapshot) : Prop where
  begun : ∀ call ∈ now.calls, call.position ≤ now.cursor.position
  behind : now.calls.Pairwise fun inner outer =>
    inner.part.rank ≤ outer.part.rank → outer.position < inner.position

/-- Parts from this rank on can begin here. -/
structure Fits (rank : Nat) (calls : Calls) (c : Cursor) : Prop where
  ordered : Snapshot.Ordered ⟨calls, c⟩
  before : ∀ call ∈ calls, rank ≤ call.part.rank → call.position < c.position

section

variable {r k : Nat} {calls : Calls} {part : Part} {c d e : Cursor} {seen seen' : List Snapshot}

theorem Snapshot.Ordered.reaches (h : Snapshot.Ordered ⟨calls, c⟩) (hd : c.Reaches d) :
    Snapshot.Ordered ⟨calls, d⟩ :=
  ⟨fun call hcall => (h.begun call hcall).trans hd.position_le, h.behind⟩

theorem fits_nil (c : Cursor) : Fits r [] c := ⟨⟨nofun, .nil⟩, nofun⟩

theorem Fits.mono (h : Fits r calls c) (hk : r ≤ k) : Fits k calls c :=
  ⟨h.ordered, fun call hcall hrank => h.before call hcall (hk.trans hrank)⟩

theorem Fits.reaches (h : Fits r calls c) (hd : c.Reaches d) : Fits r calls d :=
  ⟨h.ordered.reaches hd,
    fun call hcall hrank => (h.before call hcall hrank).trans_le hd.position_le⟩

/-- Once something was read, any part can begin. -/
theorem Fits.of_lt (h : Fits r calls c) (hd : c.Reaches d) (hlt : c.position < d.position) :
    Fits 0 calls d :=
  ⟨h.ordered.reaches hd, fun call hcall _ => (h.ordered.begun call hcall).trans_lt hlt⟩

theorem Fits.cons (h : Fits r calls c) (hr : r ≤ part.rank) :
    Fits (part.rank + 1) (⟨part, c.position⟩ :: calls) c where
  ordered.begun := List.forall_mem_cons.2 ⟨Nat.le_refl _, h.ordered.begun⟩
  ordered.behind := List.pairwise_cons.2
    ⟨fun call hcall hrank => h.before call hcall (hr.trans hrank), h.ordered.behind⟩
  before := List.forall_mem_cons.2
    ⟨fun hrank => absurd hrank (Nat.not_succ_le_self _),
      fun call hcall hrank => h.before call hcall (hr.trans (Nat.le_of_succ_le hrank))⟩

/-- What was seen leads from one place to the other. -/
def Leads (c d : Cursor) : List Snapshot → Prop
  | [] => c = d
  | now :: seen => c.Reaches now.cursor ∧ now.Ordered ∧ Leads now.cursor d seen

theorem Leads.append (h : Leads c d seen) (h' : Leads d e seen') :
    Leads c e (seen ++ seen') := by
  induction seen generalizing c with
  | nil =>
    cases h
    exact h'
  | cons now seen ih => exact ⟨h.1, h.2.1, ih h.2.2⟩

theorem Leads.reaches (h : Leads c d seen) : c.Reaches d := by
  induction seen generalizing c with
  | nil =>
    cases h
    exact .refl _
  | cons now seen ih => exact h.1.trans (ih h.2.2)

theorem Leads.of_mem {now : Snapshot} (h : Leads c d seen) (hnow : now ∈ seen) :
    c.Reaches now.cursor ∧ now.Ordered := by
  induction seen generalizing c with
  | nil => cases hnow
  | cons first seen ih =>
    rcases List.mem_cons.1 hnow with rfl | hnow
    · exact ⟨h.1, h.2.1⟩
    · obtain ⟨hreaches, hordered⟩ := ih h.2.2 hnow
      exact ⟨h.1.trans hreaches, hordered⟩

theorem Leads.pairwise (h : Leads c d seen) :
    seen.Pairwise fun now later => now.cursor.Reaches later.cursor := by
  induction seen generalizing c with
  | nil => exact .nil
  | cons now seen ih => exact .cons (fun later hlater => (h.2.2.of_mem hlater).1) (ih h.2.2)

end

/-! ## Runs beside parsers -/

/-- In this state, the run returns what the parser gives, and what is seen leads there. -/
def Carries {α : Type} (q : Run α) (p : Parser α) (s : ParserState) : Prop :=
  ∃ seen, Leads s.cursor (outcome (p s)).2.cursor seen ∧
    ∀ before, q ⟨s, before⟩ = some ((outcome (p s)).1, ⟨(outcome (p s)).2, before ++ seen⟩)

section

variable {α β : Type} {q : Run α} {g : α → Run β} {p : Parser α} {f : α → Parser β}
  {s : ParserState} {r : Nat} {calls : Calls}

theorem carries_pure (a : α) : Carries (pure a) (pure a) s := by
  refine ⟨[], rfl, fun before => ?_⟩
  rw [List.append_nil]
  rfl

theorem bind_apply (q : Run α) (g : α → Run β) (now : Progress) :
    (q >>= g) now = (q now).bind fun x => ExceptT.bindCont g x.1 x.2 := rfl

theorem Carries.bind (hq : Carries q p s)
    (hf : ∀ a t, p s = .ok a t → s.cursor.Reaches t.cursor → Carries (g a) (f a) t) :
    Carries (q >>= g) (p >>= f) s := by
  obtain ⟨seen, hleads, hrun⟩ := hq
  cases hr : p s with
  | ok a t =>
    rw [hr] at hleads hrun
    obtain ⟨seen', hleads', hrun'⟩ := hf a t hr hleads.reaches
    rw [Carries, bind_of_ok hr]
    refine ⟨seen ++ seen', hleads.append hleads', fun before => ?_⟩
    rw [bind_apply, hrun, ← List.append_assoc]
    exact hrun' _
  | error e t =>
    rw [hr] at hleads hrun
    rw [Carries, bind_of_error hr]
    refine ⟨seen, hleads, fun before => ?_⟩
    rw [bind_apply, hrun]
    rfl

theorem Carries.then (hq : Carries q p s)
    (hf : ∀ a t, s.cursor.Reaches t.cursor → Carries (g a) (f a) t) :
    Carries (q >>= g) (p >>= f) s :=
  hq.bind fun a t _ => hf a t

theorem carries_step (h : Fits r calls s.cursor) (hp : AdvancesAt p s) :
    Carries (step calls p) p s := by
  have hreaches : s.cursor.Reaches (outcome (p s)).2.cursor := by
    unfold AdvancesAt at hp
    cases hr : p s with
    | ok a t =>
      rw [hr] at hp
      exact hp
    | error e t =>
      rw [hr] at hp
      exact hp.1
  exact ⟨[⟨calls, _⟩], ⟨hreaches, h.ordered.reaches hreaches, rfl⟩, fun before => rfl⟩

theorem Carries.enter {part : Part} {g : Calls → Run α} (h : Fits r calls s.cursor)
    (hr : r ≤ part.rank)
    (hg : ∀ calls, Fits (part.rank + 1) calls s.cursor → Carries (g calls) p s) :
    Carries (Descent.enter part calls >>= g) p s := by
  have hfits := h.cons hr
  obtain ⟨seen, hleads, hrun⟩ := hg _ hfits
  refine ⟨⟨_, s.cursor⟩ :: seen, ⟨.refl _, hfits.ordered, hleads⟩, fun before => ?_⟩
  refine (hrun _).trans ?_
  rw [List.append_assoc]
  rfl

/-- A step whose result is known. -/
theorem Carries.step_ok {a : α} {t : ParserState} (hp : p s = .ok a t) (h : Fits r calls s.cursor)
    (ht : s.cursor.Reaches t.cursor) (hg : Carries (g a) (f a) t) :
    Carries (step calls p >>= g) (p >>= f) s := by
  have hadvances : AdvancesAt p s := by
    rw [AdvancesAt, hp]
    exact ht
  refine (carries_step h hadvances).bind fun a' t' hp' _ => ?_
  cases hp.symm.trans hp'
  exact hg

theorem Carries.peek {g : Option Char → Run β} {f : Option Char → Parser β}
    (h : Fits r calls s.cursor) (hg : ∀ c?, s.cursor.peek 0 = c? → Carries (g c?) (f c?) s) :
    Carries (step calls Parser.peek >>= g) (Parser.peek >>= f) s :=
  .step_ok rfl h (.refl _) (hg _ rfl)

/-- Behind a token of one character any part can begin, and fewer characters are left. -/
theorem Carries.shift {g : Unit → Run β} {f : Unit → Parser β} {c : Char}
    (hc : s.cursor.peek 0 = some c) (h : Fits r calls s.cursor)
    (hg : ∀ t : ParserState, t.cursor.rest.length < s.cursor.rest.length →
      Fits 0 calls t.cursor → Carries (g ()) (f ()) t) :
    Carries (step calls Parser.shift >>= g) (Parser.shift >>= f) s := by
  have hreaches : s.cursor.Reaches (shifted s).cursor := advancesAt_shift hc
  obtain ⟨rest, hrest⟩ := Cursor.exists_rest_of_peek hc
  have hlength := length_shifted hrest (Nat.le_of_eq (congrArg List.length hrest))
  have hposition := hreaches.position_add
  rw [hrest, List.length_cons] at hposition
  refine .step_ok rfl h hreaches (hg (shifted s) ?_ (h.of_lt hreaches (by omega)))
  rw [hrest]
  exact Nat.lt_succ_of_le hlength

end

/-! ## Levels -/

/-- In front of fewer characters than this, the run returns what the parser gives, if parts from
this rank on can begin there. -/
def Follows {α : Type} (n r : Nat) (q : Calls → Run α) (p : Parser α) : Prop :=
  ∀ calls s, s.cursor.rest.length < n → Fits r calls s.cursor → Carries (q calls) p s

section

variable {n k r budget : Nat} {nested side : Parser (Option Expr)} {calls : Calls}
  {s : ParserState} {c : Char}

theorem carries_bracket (hnested : Follows n 1 Calls.expression nested)
    (hc : s.cursor.peek 0 = some c) (hn : s.cursor.rest.length < n + 1)
    (h : Fits r calls s.cursor) : Carries calls.bracket (Parser.bracket nested) s := by
  rw [Calls.bracket]
  refine .shift hc h fun t ht h => ?_
  refine (hnested calls t (by omega) (h.mono (Nat.zero_le 1))).then fun e? t' ht' => ?_
  have h := h.reaches ht'
  cases e? with
  | none => exact carries_step h (advances_missingOperand none t')
  | some e =>
    have hclosing : Advances (closing fun _ => .unclosedBracket) :=
      advances_closing fun x c hx => ⟨rfl, by rw [hx]; exact nofun⟩
    exact (carries_step h (hclosing t')).then fun _ _ _ => carries_pure _

theorem carries_arguments (hnested : Follows n 1 Calls.expression nested) (read : List Expr)
    (hbudget : s.cursor.rest.length < budget) (hn : s.cursor.rest.length < n)
    (h : Fits 0 calls s.cursor) :
    Carries (calls.arguments read) (Parser.arguments nested budget read) s := by
  induction budget generalizing read calls s with
  | zero => exact absurd hbudget (Nat.not_lt_zero _)
  | succ budget ih =>
    rw [Calls.arguments]
    refine .enter h (Nat.le_refl 0) fun calls h => ?_
    refine (hnested calls s hn h).then fun e? t ht => ?_
    have hlength := ht.length_le
    refine .peek (h.reaches ht) fun c? hc => ?_
    by_cases hnext : c? = some ';'
    · subst hnext
      rw [if_pos rfl]
      exact .shift hc (h.reaches ht) fun t' ht' h => ih _ (by omega) (by omega) h
    · rw [if_neg hnext]
      split
      · exact absurd rfl hnext
      · exact carries_pure _

theorem carries_named (hnested : Follows n 1 Calls.expression nested)
    (hn : s.cursor.rest.length < n + 1) (hbudget : n < budget) (h : Fits r calls s.cursor) :
    Carries calls.named (Parser.named nested budget) s := by
  rw [Calls.named]
  refine (carries_step h (advances_readName s)).then fun name t ht => ?_
  have hlength := ht.length_le
  have h := h.reaches ht
  refine .peek h fun c? hc => ?_
  by_cases hnext : c? = some '('
  · have hclosing : Advances (closing .unclosedCall) := advances_closing fun x c hx => ⟨rfl, hx⟩
    subst hnext
    rw [if_pos rfl]
    refine .shift hc h fun t' ht' h => ?_
    refine (carries_arguments hnested [] (by omega) (by omega) h).then fun es t'' ht'' => ?_
    exact (carries_step (h.reaches ht'') (hclosing t'')).then fun _ _ _ => carries_pure _
  · rw [if_neg hnext]
    split
    · exact absurd rfl hnext
    · exact carries_pure _

theorem follows_operand (hnested : Follows n 1 Calls.expression nested) (hbudget : n < budget) :
    Follows (n + 1) 3 Calls.operand (Parser.operand nested budget) := by
  intro calls s hn h
  rw [Calls.operand]
  refine .peek h fun c? hc => ?_
  cases c? with
  | none => exact carries_pure none
  | some c =>
    show Carries (if c = '(' then _ else if c = '"' then _ else if Text.isNumeral c then _ else
      if c.isAlpha then _ else if c = '=' then _ else _) (if c = '(' then _ else if c = '"' then _
      else if Text.isNumeral c then _ else if c.isAlpha then _ else if c = '=' then _ else _) s
    split_ifs
    · exact carries_bracket hnested hc hn h
    · exact (carries_step h (advancesAt_readText hc)).then fun _ _ _ => carries_pure _
    · exact (carries_step h (advances_readNumber s)).then fun _ _ _ => carries_pure _
    · exact carries_named hnested hn hbudget h
    · exact carries_step h (advancesAt_reference hc)
    · exact carries_pure none

theorem carries_signed (hside : Follows n 3 Calls.operand side) (hn : s.cursor.rest.length < n)
    (hbudget : s.cursor.rest.length < budget) (h : Fits 2 calls s.cursor) :
    Carries calls.signed (Parser.signed side budget) s := by
  induction budget generalizing calls s with
  | zero => exact absurd hbudget (Nat.not_lt_zero _)
  | succ budget ih =>
    rw [Calls.signed]
    refine .enter h (Nat.le_refl 2) fun calls h => .peek h fun c? hc => ?_
    by_cases hminus : c? = some '-'
    · subst hminus
      rw [if_pos rfl]
      refine .shift hc h fun t ht h => ?_
      refine (ih (by omega) (by omega) (h.mono (Nat.zero_le 2))).then fun e? t' ht' => ?_
      cases e? with
      | none => exact carries_step (h.reaches ht') (advances_missingOperand none t')
      | some e => exact carries_pure _
    rw [if_neg hminus]
    by_cases hplus : c? = some '+'
    · subst hplus
      rw [if_pos rfl]
      exact .shift hc h fun t ht h => ih (by omega) (by omega) (h.mono (Nat.zero_le 2))
    rw [if_neg hplus]
    split
    · exact absurd rfl hminus
    · exact absurd rfl hplus
    · exact hside calls s hn h

theorem carries_chain (hside : Follows n 2 (Calls.tighter · k) side) (left : Expr)
    (hn : s.cursor.rest.length < n) (hbudget : s.cursor.rest.length < budget)
    (h : Fits 3 calls s.cursor) :
    Carries (calls.chain k left) (Parser.chain k side budget left) s := by
  induction budget generalizing calls s left with
  | zero => exact absurd hbudget (Nat.not_lt_zero _)
  | succ budget ih =>
    rw [Calls.chain]
    refine .enter h (Nat.le_refl 3) fun calls h => .peek h fun c? hc => ?_
    cases hop : c?.bind (operatorOf k) with
    | none => exact carries_pure _
    | some op =>
      obtain ⟨c, hsome, -⟩ := Option.bind_eq_some_iff.1 hop
      refine .shift (hc.trans hsome) h fun t ht h => ?_
      refine (hside calls t (by omega) (h.mono (Nat.zero_le 2))).then fun r? t' ht' => ?_
      have hlength := ht'.length_le
      have h := h.reaches ht'
      cases r? with
      | none => exact carries_step h (advances_missingOperand (some left) t')
      | some right => exact ih _ (by omega) (by omega) (h.mono (Nat.zero_le 3))

theorem follows_operation (hside : Follows n 2 (Calls.tighter · k) side) :
    Follows n 2 (Calls.operation · k) (Parser.operation k side n) := by
  intro calls s hn h
  show Carries (calls.operation k) _ s
  rw [Calls.operation]
  refine (hside calls s hn h).then fun e? t ht => ?_
  have hlength := ht.length_le
  cases e? with
  | none => exact carries_pure none
  | some left =>
    exact carries_chain hside left (by omega) (by omega) ((h.reaches ht).mono (Nat.le_succ 2))

theorem follows_tighter (hk : k < 3) (h : Follows n 2 (Calls.operation · (k + 1)) side) :
    Follows n 2 (Calls.tighter · k) side := by
  intro calls s hn hfits
  show Carries (calls.tighter k) side s
  rw [Calls.tighter, if_pos hk]
  exact h calls s hn hfits

theorem follows_tightest (h : Follows n 3 Calls.operand side) :
    Follows n 2 (Calls.tighter · 3) (Parser.signed side n) := by
  intro calls s hn hfits
  show Carries (calls.tighter 3) _ s
  rw [Calls.tighter, if_neg (by decide)]
  exact carries_signed h hn hn hfits

theorem follows_arithmetic (hnested : Follows n 1 Calls.expression nested) :
    Follows (n + 1) 2 (Calls.operation · 1) (arithmetic nested (n + 1)) := by
  have hpower := follows_operation
    (follows_tightest (follows_operand hnested (Nat.lt_succ_self n)))
  have hproduct := follows_operation (follows_tighter (by decide) hpower)
  exact follows_operation (follows_tighter (by decide) hproduct)

theorem follows_expression (n : Nat) : Follows n 1 Calls.expression (Parser.expression n) := by
  induction n with
  | zero => exact fun calls s hn => absurd hn (Nat.not_lt_zero _)
  | succ n ih =>
    intro calls s hn h
    have hside := follows_arithmetic ih
    rw [Calls.expression]
    refine .enter h (Nat.le_refl 1) fun calls h => ?_
    refine (hside calls s hn h).then fun l? t ht => ?_
    have hlength := ht.length_le
    have h := h.reaches ht
    cases l? with
    | none => exact carries_pure none
    | some left =>
      refine (carries_step h (advances_comparison? t)).then fun op? t₁ ht₁ => ?_
      have hlength₁ := ht₁.length_le
      have h := h.reaches ht₁
      cases op? with
      | none => exact carries_pure _
      | some op =>
        refine (carries_step h (advances_move reaches_skipBlanks t₁)).then fun _ t₂ ht₂ => ?_
        have hlength₂ := ht₂.length_le
        have h := h.reaches ht₂
        refine (hside calls t₂ (by omega) h).then fun r? t₃ ht₃ => ?_
        cases r? with
        | none => exact carries_step (h.reaches ht₃) (advances_missingOperand (some left) t₃)
        | some right => exact carries_pure _

theorem advances_conclude (e? : Option Expr) : Advances (conclude e?) := by
  refine fun s => AdvancesAt.peek fun c? hc => ?_
  split
  · exact advancesAt_fault ⟨rfl, hc⟩
  · exact advances_pure _ s
  · exact ⟨.refl s.cursor, trivial⟩

theorem carries_formula (hn : s.cursor.rest.length < n) :
    Carries formula (Parser.formula n) s := by
  have h := fits_nil (r := 1) s.cursor
  refine (carries_step h (advances_marker s)).then fun _ t ht => ?_
  have hlength := ht.length_le
  have h := h.reaches ht
  refine (follows_expression n [] t (by omega) h).then fun e? t' ht' => ?_
  exact carries_step (h.reaches ht') (advances_conclude e? t')

end

/-- **Reading ends for every source**, with what is read with a budget. On the way the cursor never
goes back and never leaves the source, and a part that has led back to itself begins strictly behind
the place where it was begun before: an expression within an expression, an operand behind a sign
within an operand with signs, and a turn of a loop after another one. -/
theorem parse_ends (source : String) :
    ∃ seen, parse source = some (Expr.parse source, seen) ∧
      (seen.Pairwise fun now later => now.cursor.Reaches later.cursor) ∧
      ∀ now ∈ seen, now.cursor.position ≤ source.length ∧
        now.calls.Pairwise fun inner outer =>
          inner.part.rank ≤ outer.part.rank → outer.position < inner.position := by
  have hlength : (Cursor.start source).rest.length = source.length := String.length_toList
  obtain ⟨seen, hleads, hrun⟩ := carries_formula (s := ⟨.start source, []⟩) (n := source.length + 1)
    (by rw [hlength]; exact Nat.lt_succ_self _)
  have hbudget : Parser.formula (source.length + 1) ⟨.start source, []⟩ =
      Parser.formula source.length ⟨.start source, []⟩ :=
    formula_eq_of_budget (by rw [hlength]; exact Nat.le_succ _) (by rw [hlength])
  refine ⟨seen, ?_, hleads.pairwise, fun now hnow => ?_⟩
  · rw [parse, hrun, hbudget, Expr.parse, Reading.ofSource]
    cases Parser.formula source.length ⟨.start source, []⟩ with
    | error e t => rfl
    | ok e t =>
      show (e.regroupWalk >>= _) = _
      rw [e.returns.1]
      rfl
  · obtain ⟨hreaches, hordered⟩ := hleads.of_mem hnow
    have hposition := hreaches.position_add
    rw [hlength] at hposition
    refine ⟨?_, hordered.behind⟩
    change _ = 0 + _ at hposition
    omega

end Formulary.Parser.Descent
