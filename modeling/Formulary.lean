import Formulary.Number.External
import Formulary.Proofs.Evaluation.Recursion
import Formulary.Proofs.Source.RoundTrip
import Formulary.Evaluation.Source
import Formulary.Proofs.Source.Derivations
import Formulary.Proofs.Source.Advance
import Formulary.Proofs.Source.Lookahead
import Formulary.Proofs.Source.Faults
import Formulary.Proofs.Source.Truncation
import Formulary.Proofs.Source.Lexemes
import Formulary.Proofs.Source.Blanks
import Formulary.Proofs.Evaluation.Inlining
import Formulary.Proofs.Evaluation.Trace
import Formulary.Proofs.Evaluation.Reprinting
import Formulary.Proofs.Evaluation.Ranges
import Formulary.Proofs.Evaluation.Dependence
import Formulary.Proofs.Expr.Passes
import Formulary.Proofs.Evaluation.Moments
import Formulary.Proofs.Evaluation.Absence
import Formulary.Proofs.Number.Rounding
import Formulary.Proofs.Value.Comparisons
import Formulary.Proofs.Value.Sums
import Formulary.Proofs.Name.Ranking
import Formulary.Proofs.Source.Causes
import Formulary.Proofs.Source.Descent
import Formulary.Proofs.Number.Positional
import Formulary.Proofs.Source.Literals
import Formulary.Proofs.Source.Numerals
