import Formulary.Evaluation.Reference
import Formulary.Source.Parser

/-!
# Evaluating sources

A formula usually comes as a source. It is read, and what was read is evaluated or put into the
table of formulas; a source that is no formula changes nothing. Reports about sources that ended
too early come with the result, whatever it is.
-/

namespace Formulary

/-- Why a source has no value. -/
inductive Failure where
  /-- It is no formula. -/
  | source (cause : SyntaxError)
  /-- It is a formula without a value. -/
  | evaluation (cause : EvaluationError)

/-- What is wrong. -/
def Failure.message : Failure → String
  | source cause => cause.message
  | evaluation cause => cause.message

/-- A result with the reports that came with it. -/
structure Reported (α : Type) where
  result : Except Failure α
  log : List String

namespace Environment

/-- Reads a source and binds a name to its tree. -/
def define (env : Environment) (name source : String) : Reported Environment :=
  let reading := Reading.ofSource source
  ⟨match reading.outcome with
    | .ok e => .ok { env with formulas := env.formulas.insert name e }
    | .error cause => .error (.source cause),
    reading.log source⟩

/-- Reads a source and evaluates its tree. There is no trace if the source cannot be read. -/
def evaluateSource (env : Environment) (mode : Mode) (source : String) :
    Reported Value × List TraceLine :=
  let reading := Reading.ofSource source
  match reading.outcome with
  | .error cause => (⟨.error (.source cause), reading.log source⟩, [])
  | .ok e =>
    let outcome := env.evaluate mode e
    (⟨outcome.result.mapError .evaluation, reading.log source⟩, outcome.lines)

end Environment

end Formulary
