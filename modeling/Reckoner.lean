import Reckoner.Slate.History
import Reckoner.Display.Settings
import Reckoner.Expression.Grammar
import Reckoner.Expression.WellFormed
import Reckoner.Proofs.Expression.Alternation
import Reckoner.Proofs.Expression.Derivation
import Reckoner.Proofs.Expression.Group
import Reckoner.Proofs.Expression.Juxtaposition
import Reckoner.Proofs.Expression.Rearrangement
import Reckoner.Proofs.Expression.Reading
import Reckoner.Proofs.Expression.Rendering
import Reckoner.Proofs.Expression.Respelling
import Reckoner.Proofs.Slate.Typing
import Reckoner.Proofs.Slate.History
import Reckoner.Proofs.Slate.Run
import Reckoner.Proofs.Slate.Reevaluation
import Reckoner.Proofs.FixedPoint.Logarithm
import Reckoner.Proofs.Decimal.LiteralGrammar
import Reckoner.Proofs.Decimal.Literal
import Reckoner.Proofs.Decimal.Plain
import Reckoner.Proofs.Decimal.Scientific
import Reckoner.Proofs.Display.Readback
import Reckoner.Proofs.Decimal.Power
import Reckoner.Proofs.Slate.Pieces
import Reckoner.Proofs.Slate.Recognition
import Reckoner.Proofs.Expression.Parentheses
import Reckoner.Proofs.Decimal.Arithmetic
import Reckoner.Proofs.Decimal.SquareRoot
import Reckoner.Proofs.Expression.Congruence
import Reckoner.Proofs.Decimal.Significant
import Reckoner.Proofs.FixedPoint.Constants
import Reckoner.Proofs.FixedPoint.LogarithmReduction
import Reckoner.Proofs.FixedPoint.LogarithmError
import Reckoner.Proofs.FixedPoint.ExponentialError
import Reckoner.Proofs.FixedPoint.ExponentialRounding
import Reckoner.Proofs.Decimal.PowerError
import Reckoner.Proofs.Estimate.Logarithm
import Reckoner.Proofs.Estimate.PowerOfTen
import Reckoner.Proofs.Decimal.Magnitude
import Reckoner.Proofs.Decimal.IntegralPower
import Reckoner.Proofs.Decimal.RootRounding
import Reckoner.Proofs.Decimal.QuotientRounding
import Reckoner.Proofs.Decimal.ScientificRounding
import Reckoner.Proofs.FixedPoint.Pi
import Reckoner.Proofs.FixedPoint.Euler
import Reckoner.Proofs.FixedPoint.TrigonometryError
import Reckoner.Proofs.FixedPoint.TaylorPolynomial
import Reckoner.Proofs.Decimal.ElementaryError
import Reckoner.Proofs.Decimal.Periodicity
import Reckoner.Proofs.Decimal.Sign
import Reckoner.Proofs.Decimal.SignificantRounding
import Reckoner.Proofs.Decimal.NormalForm
