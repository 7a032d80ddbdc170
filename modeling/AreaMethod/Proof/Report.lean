import AreaMethod.Condition
import AreaMethod.Error
import AreaMethod.Proof.Trace

/-!
# Reports

What a proof attempt tells its caller.
-/

namespace AreaMethod

/-- The outcome of a proof attempt. -/
structure Report where
  /-- The name of the statement. -/
  statement : String
  verdict : Verdict
  /-- Why there is no decision, if there is none. -/
  unknownReason : Option UnknownReason
  /-- The conditions that the proof relies on, those of the proofs within it included. -/
  conditions : Conditions
  trace : Trace
  /-- The number of eliminations, those of the proofs within it included. -/
  eliminations : Nat
  /-- Had the statement been decided before? -/
  isRecalled : Bool

/-- Does the statement hold? -/
def Report.isProved (r : Report) : Bool :=
  r.verdict = .proved

end AreaMethod
