import Formulary.Expr.Basic
import Formulary.Number.Layout
import Formulary.Text.Literal

/-!
# The text of a formula

`Expr.write` writes a tree in front of a given text, so that the text of a long chain is built in
one pass. Brackets are written where the tree has them and nowhere else. A comparison has spaces
around it, which keep `a < =f` from being read as `a <= f`.

Main statements: `write_append`, that writing a tree does not depend on what follows it, and
`write_arith_assoc`, that the text of arithmetic does not show how it is grouped.
-/

namespace Formulary.Expr

mutual

/-- The text of a tree, in front of `rest`. -/
def write : Expr → (rest : List Char) → List Char
  | .number x, rest => Binary64.positional x ++ rest
  | .text s, rest => '"' :: (Text.encode s.toList ++ '"' :: rest)
  | .var name, rest => name.toList ++ rest
  | .reference name, rest => '=' :: (name.toList ++ rest)
  | .bracket e, rest => '(' :: write e (')' :: rest)
  | .minus e, rest => '-' :: write e rest
  | .arith l op r, rest => write l (op.symbol :: write r rest)
  | .compare l op r, rest => write l (' ' :: (op.symbol.toList ++ ' ' :: write r rest))
  | .call name es, rest => name.toList ++ '(' :: writeArguments es (')' :: rest)

/-- The texts of arguments with semicolons between them, in front of `rest`. -/
def writeArguments : List Expr → (rest : List Char) → List Char
  | [], rest => rest
  | [e], rest => write e rest
  | e :: e' :: es, rest => write e (';' :: writeArguments (e' :: es) rest)

end

/-- The text of a tree. -/
def toText (e : Expr) : String := String.ofList (e.write [])

/-- A tree as formula source: its text after an equals sign. Without the sign, a tree that is a
reference would be read back as a variable. -/
def source (e : Expr) : String := String.ofList ('=' :: e.write [])

mutual

theorem write_append (e : Expr) (s t : List Char) : write e (s ++ t) = write e s ++ t := by
  cases e with
  | bracket e => simp [write, ← write_append e]
  | minus e => simp [write, write_append e]
  | arith l op r => simp [write, write_append r, ← write_append l]
  | compare l op r => simp [write, write_append r, ← write_append l]
  | call name es => simp [write, ← writeArguments_append es]
  | _ => simp [write]

theorem writeArguments_append (es : List Expr) (s t : List Char) :
    writeArguments es (s ++ t) = writeArguments es s ++ t := by
  match es with
  | [] => simp [writeArguments]
  | [e] => simp [writeArguments, write_append e]
  | e :: e' :: es =>
    simp [writeArguments, writeArguments_append (e' :: es), ← write_append e]

end

theorem write_arith_assoc (a : Expr) (op : ArithOp) (b : Expr) (op' : ArithOp) (c : Expr)
    (rest : List Char) :
    write (.arith (.arith a op b) op' c) rest = write (.arith a op (.arith b op' c)) rest := by
  simp [write]

end Formulary.Expr
