import Mathlib.Data.List.Forall2
import Reckoner.Expression.Evaluate
import Reckoner.Proofs.Decimal.Agreement
import Reckoner.Proofs.Decimal.Periodicity
import Reckoner.Proofs.Decimal.SquareRoot
import Reckoner.Proofs.FixedPoint.Logarithm

namespace Reckoner

namespace Decimal

end Decimal

open Decimal Numeric

namespace Token

end Token

end Reckoner
