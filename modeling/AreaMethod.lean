import AreaMethod.Collinear
import AreaMethod.Condition
import AreaMethod.Construction.Build
import AreaMethod.Elimination.Coordinates
import AreaMethod.Elimination.Point
import AreaMethod.Expr.Eval
import AreaMethod.Expr.Orientation
import AreaMethod.Expr.Polynomial
import AreaMethod.Expr.SingleFraction
import AreaMethod.Json.Parser
import AreaMethod.Json.Printer
import AreaMethod.Numeral
import AreaMethod.Proof.Prover
import AreaMethod.Stored.Decode
import AreaMethod.Stored.Encode
import AreaMethod.Proofs.Decision
import AreaMethod.Proofs.Limits
import AreaMethod.Proofs.Soundness
import AreaMethod.Proofs.Oracle
import AreaMethod.Proofs.Documents
import AreaMethod.Proofs.ZeroTest
import AreaMethod.Proofs.NormalForm
import AreaMethod.Proofs.Canonical
import AreaMethod.Proofs.Grouping
import AreaMethod.Proofs.Orientation
import AreaMethod.Proofs.Exactness
import AreaMethod.Proofs.Symbols
import AreaMethod.Proofs.Builders
import AreaMethod.Proofs.Counting
import AreaMethod.Proofs.Variables
import AreaMethod.Proofs.TotalOrder
