import Univariate.Coefficient.Floating
import Univariate.Coefficient.Signed
import Univariate.Failure
import Univariate.SparsePoly.Basic
import Univariate.SparsePoly.Calculus
import Univariate.SparsePoly.Interpolation
import Univariate.SparsePoly.Text
import Univariate.Proofs.RepeatedSquaring
import Univariate.Proofs.CanonicalForm
import Univariate.Proofs.LibraryRuns
import Univariate.Proofs.ExactReading
import Univariate.Proofs.Convolution
import Univariate.Proofs.RingLaws
import Univariate.Proofs.ExactField
import Univariate.Proofs.NewtonInterpolation
import Univariate.Proofs.RunningSums
import Univariate.Proofs.TermGrammar
import Univariate.Proofs.StrictLanguage
import Univariate.Proofs.Scanning
import Univariate.Proofs.RoundTrip
import Univariate.Proofs.Pieces
import Univariate.Proofs.Stages
import Univariate.Proofs.ViablePrefix
import Univariate.Proofs.WordPowers
import Univariate.Proofs.EvaluationHomomorphism
import Univariate.Proofs.ModeExtension
import Univariate.Proofs.Derivation
import Univariate.Proofs.LiteralBound
import Univariate.Proofs.CoefficientLaws
import Univariate.Proofs.SpecialisedOperations
import Univariate.Proofs.ExtensionalEquality
import Univariate.Proofs.PolynomialPowers
import Univariate.Proofs.ExactDerivative
import Univariate.Proofs.OverflowReports
import Univariate.Proofs.CoefficientwiseSums
import Univariate.Proofs.HigherDerivatives
import Univariate.Proofs.DenseView
import Univariate.Proofs.PointValues
import Univariate.Proofs.BlankInsertion
import Univariate.Proofs.ExtremeTerms
import Univariate.Proofs.InterpolationBounds
import Univariate.Proofs.CoefficientLiterals
import Univariate.Proofs.UnambiguousText
import Univariate.Proofs.TwoEndedWalk
import Univariate.Proofs.LosslessScanning
import Univariate.Proofs.WordMagnitudes
import Univariate.Proofs.TextParts
import Univariate.Proofs.PositionReading
