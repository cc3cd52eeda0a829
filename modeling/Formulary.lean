import Formulary.EditTree
import Formulary.Main
import Formulary.Proofs.Comparison.Grid
import Formulary.Proofs.Comparison.Pairing
import Formulary.Proofs.Derivative.Indices
import Formulary.Proofs.Derivative.Termination
import Formulary.Proofs.Differentiation
import Formulary.Proofs.EditTree.Orphans
import Formulary.Proofs.EditTree.Selection
import Formulary.Proofs.Evaluation.Dependence
import Formulary.Proofs.Evaluation.Operators
import Formulary.Proofs.Evaluation.Places
import Formulary.Proofs.Flattening.NormalForm
import Formulary.Proofs.Folding.Idempotence
import Formulary.Proofs.Function.StandIn
import Formulary.Proofs.Number.Canonical
import Formulary.Proofs.Number.Power
import Formulary.Proofs.Parameter.Drawing
import Formulary.Proofs.Parameter.Rounding
import Formulary.Proofs.Reading.Bars
import Formulary.Proofs.Reading.Leaves
import Formulary.Proofs.Reading.LongestMatch
import Formulary.Proofs.Reduction.Fuel
import Formulary.Proofs.Reduction.Unsigned
import Formulary.Proofs.RoundTrip
import Formulary.Proofs.Substitution.Literals
import Formulary.Proofs.Substitution.Names
import Formulary.Proofs.Environment.Definitions
import Formulary.Proofs.Environment.Operations
import Formulary.Proofs.Environment.References
import Formulary.Proofs.Environment.Calculated
import Formulary.Proofs.Template
import Formulary.Proofs.Rule.History
import Formulary.Proofs.Rule.Laws
import Formulary.Proofs.Matching.Sound
import Formulary.Proofs.Reading.Spans
import Formulary.Proofs.Reading.Symbols
import Formulary.Proofs.Splitting
import Formulary.Proofs.Reading.ProductSigns
import Formulary.Proofs.Number.Identity
import Formulary.Proofs.Shell
import Formulary.Proofs.MathML.Unambiguous
