import Formulary.Expr.Regroup
import Formulary.Expr.Text
import Formulary.Source.Cursor
import Formulary.Text.Quoted

/-!
# Reading formulas

    expression  = arithmetic [ ("<" | "<=" | "=" | "<>" | ">" | ">=") arithmetic ]
    arithmetic  = product { ("+" | "-") product }
    product     = power { ("*" | "/") power }
    power       = signed { "^" signed }
    signed      = "-" signed | "+" signed | operand
    operand     = text | number | name | name "(" [ expression { ";" expression } ] ")"
                | "(" expression ")" | "=" formula-name

An equals sign in front only marks a text as a formula. Blanks may stand before and after every
token. All operators group to the left.

A source may end too early. An operator, a sign or an opening bracket without its operand is then
dropped, and what was read before it is *kept*; brackets and calls still open are closed. Anywhere
but at the end a missing operand is an error, except that an argument may be empty.

Each part of the grammar is a parser that gives `none`, without reading anything but signs and
opening brackets, if no operand begins at the cursor. The parsers of expressions within expressions
and the loops are bounded by a `budget`, the number of characters in the source: each step deeper
and each turn of a loop takes a character, so that a source never exhausts it, and at the end of the
source a parser has nothing left to do but what it does when its budget is gone.
-/

namespace Formulary

/-- Where a parser stands, and what it has kept of trees that the end of the source cut off. -/
structure ParserState where
  cursor : Cursor
  /-- The trees kept so far, the last one first. -/
  kept : List (Option Expr)

/-- Reads part of a source. -/
abbrev Parser := EStateM SyntaxError ParserState

namespace Parser

/-! ## Characters -/

/-- The character at the cursor. -/
def peek : Parser (Option Char) := return (← get).cursor.peek 0

/-- Moves the cursor. -/
def move (f : Cursor → Cursor) : Parser Unit := modify fun s => { s with cursor := f s.cursor }

/-- Goes past a token of one character and the blanks behind it. -/
def shift : Parser Unit := move fun c => c.advance.skipBlanks

/-- Reads a lexeme and the blanks behind it. -/
def lexeme {α : Type} (read : Reader α) : Parser α := fun s =>
  match read s.cursor with
  | (.ok a, c) => .ok a { s with cursor := c.skipBlanks }
  | (.error e, c) => .error e { s with cursor := c }

/-- Fails with a cause at the cursor. -/
def fault {α : Type} (cause : Nat → SyntaxError) : Parser α :=
  fun s => .error (cause s.cursor.position) s

/-- An operand is missing. At the end of the source, what was read before it is kept; elsewhere the
character in its place is an error. -/
def missingOperand (kept : Option Expr) : Parser (Option Expr) := do
  match ← peek with
  | some c => fault (.unexpected c)
  | none => modifyGet fun s => (kept, { s with kept := kept :: s.kept })

/-- A closing parenthesis, which the end of the source stands for too. -/
def closing (otherwise : Char → Nat → SyntaxError) : Parser Unit := do
  match ← peek with
  | some ')' => shift
  | some c => fault (otherwise c)
  | none => return

/-! ## Operands -/

/-- A bracket around an expression. -/
def bracket (inner : Parser (Option Expr)) : Parser (Option Expr) := do
  shift
  match ← inner with
  | none => missingOperand none
  | some e =>
    closing fun _ => .unclosedBracket
    return some (.bracket e)

/-- The arguments of a call, after those in `read` (the last one first). Empty ones are left
out. -/
def arguments (argument : Parser (Option Expr)) :
    (budget : Nat) → (read : List Expr) → Parser (List Expr)
  | 0, read => return read.reverse
  | budget + 1, read => do
    let read := (← argument).toList ++ read
    match ← peek with
    | some ';' =>
      shift
      arguments argument budget read
    | _ => return read.reverse

/-- A variable, or a call if a parenthesis follows the name. -/
def named (argument : Parser (Option Expr)) (budget : Nat) : Parser (Option Expr) := do
  let name ← lexeme Cursor.readName
  match ← peek with
  | some '(' =>
    shift
    let arguments ← arguments argument budget []
    closing .unclosedCall
    return some (.call name arguments)
  | _ => return some (.var name)

/-- A reference to a formula. -/
def reference : Parser (Option Expr) := do
  shift
  return some (.reference (← lexeme Cursor.readFormulaName))

/-- What stands between operators and signs. -/
def operand (nested : Parser (Option Expr)) (budget : Nat) : Parser (Option Expr) := do
  match ← peek with
  | none => return none
  | some c =>
    if c = '(' then bracket nested
    else if c = '"' then return some (.text (← lexeme Cursor.readText))
    else if Text.isNumeral c then return some (.number (← lexeme Cursor.readNumber))
    else if c.isAlpha then named nested budget
    else if c = '=' then reference
    else return none

/-! ## Operators -/

/-- An operand with signs in front of it. A plus leaves no trace; the operand of a minus is all
that it applies to. -/
def signed (operand : Parser (Option Expr)) : (budget : Nat) → Parser (Option Expr)
  | 0 => return none
  | budget + 1 => do
    match ← peek with
    | some '-' =>
      shift
      match ← signed operand budget with
      | none => missingOperand none
      | some e => return some (.minus e)
    | some '+' =>
      shift
      signed operand budget
    | _ => operand

/-- The operator of a given strength with this symbol. -/
def operatorOf (strength : Nat) (c : Char) : Option ArithOp :=
  (ArithOp.ofSymbol? c).filter (·.strength = strength)

/-- The rest of a chain of operands with operators of one strength between them, after `left`. -/
def chain (strength : Nat) (operand : Parser (Option Expr)) :
    (budget : Nat) → (left : Expr) → Parser (Option Expr)
  | 0, left => return some left
  | budget + 1, left => do
    match (← peek).bind (operatorOf strength) with
    | none => return some left
    | some op =>
      shift
      match ← operand with
      | none => missingOperand (some left)
      | some right => chain strength operand budget (.arith left op right)

/-- A chain of operands with operators of one strength between them. -/
def operation (strength : Nat) (operand : Parser (Option Expr)) (budget : Nat) :
    Parser (Option Expr) := do
  match ← operand with
  | none => return none
  | some left => chain strength operand budget left

/-- Sums of products of powers of operands with signs. -/
def arithmetic (nested : Parser (Option Expr)) (budget : Nat) : Parser (Option Expr) :=
  operation 1 (operation 2 (operation 3 (signed (operand nested budget) budget) budget) budget)
    budget

/-- A comparison, if there is one. -/
def comparison? : Parser (Option CompareOp) :=
  modifyGet fun s =>
    let (op, cursor) := s.cursor.readComparison
    (op, { s with cursor })

/-- At most one comparison. -/
def comparison (side : Parser (Option Expr)) : Parser (Option Expr) := do
  match ← side with
  | none => return none
  | some left =>
    match ← comparison? with
    | none => return some left
    | some op =>
      move Cursor.skipBlanks
      match ← side with
      | none => missingOperand (some left)
      | some right => return some (.compare left op right)

/-- An expression, if an operand begins at the cursor. -/
def expression : (budget : Nat) → Parser (Option Expr)
  | 0 => return none
  | budget + 1 => comparison (arithmetic (expression budget) (budget + 1))

/-- Blanks, and the equals sign that marks a formula. -/
def marker : Parser Unit := do
  move Cursor.skipBlanks
  match ← peek with
  | some '=' => shift
  | _ => return

/-- A whole formula, as it is grouped by its source. -/
def formula (budget : Nat) : Parser Expr := do
  marker
  let e? ← expression budget
  match ← peek, e? with
  | some c, _ => fault (.unexpected c)
  | none, some e => return e
  | none, none => throw .emptyFormula

end Parser

/-! ## Sources -/

/-- What reading a source gives. -/
structure Reading where
  outcome : Except SyntaxError Expr
  /-- The trees kept where the source ended too early, in the order in which this was noticed;
  `none` stands where there was nothing to keep. -/
  kept : List (Option Expr)

/-- Reads a source as a formula. -/
def Reading.ofSource (source : String) : Reading :=
  match Parser.formula source.length ⟨.start source, []⟩ with
  | .ok e s => ⟨.ok e.regroup, s.kept.reverse⟩
  | .error e s => ⟨.error e, s.kept.reverse⟩

/-- The tree of a formula, or why the source is none. -/
def Expr.parse (source : String) : Except SyntaxError Expr := (Reading.ofSource source).outcome

theorem Expr.parse_eq_ok_iff {source : String} {t : Expr} :
    Expr.parse source = .ok t ↔
      ∃ e s, Parser.formula source.length ⟨.start source, []⟩ = .ok e s ∧ e.regroup = t := by
  unfold Expr.parse Reading.ofSource
  cases Parser.formula source.length ⟨.start source, []⟩ with
  | ok e s =>
    constructor
    · rintro ⟨⟩
      exact ⟨e, s, rfl, rfl⟩
    · rintro ⟨_, _, ⟨⟩, rfl⟩
      rfl
  | error e s => exact ⟨nofun, nofun⟩

theorem Expr.parse_eq_error_iff {source : String} {e : SyntaxError} :
    Expr.parse source = .error e ↔
      ∃ s, Parser.formula source.length ⟨.start source, []⟩ = .error e s := by
  unfold Expr.parse Reading.ofSource
  cases Parser.formula source.length ⟨.start source, []⟩ with
  | ok t s => exact ⟨nofun, nofun⟩
  | error e' s =>
    constructor
    · rintro ⟨⟩
      exact ⟨s, rfl⟩
    · rintro ⟨_, ⟨⟩⟩
      rfl

/-- What is reported about a source that ended too early. -/
def Reading.report (source : String) (kept : Option Expr) : String :=
  "Formula " ++ Text.quoted source ++ " ends after an operator, keeping partial tree " ++
    (kept.map Expr.toText).getD "None"

/-- All reports about a source. -/
def Reading.log (source : String) (reading : Reading) : List String :=
  reading.kept.map (Reading.report source)

end Formulary
