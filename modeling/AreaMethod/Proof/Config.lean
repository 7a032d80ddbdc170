/-!
# Limits

What bounds a proof, and how much of it is written down.
-/

namespace AreaMethod

/-- Settings of a proof. -/
structure Config where
  /-- How deeply proofs of needed statements may be nested. -/
  maxSubproofDepth : Nat
  /-- The largest size that an expression may have after an elimination. -/
  maxExpressionSize : Nat
  /-- The largest number of terms that an expression may be expanded to. -/
  maxExpansionTerms : Nat
  /-- The size from which on expressions are not written out. -/
  printSizeLimit : Nat
  /-- Is every pass recorded in the trace? -/
  recordTrace : Bool
deriving DecidableEq

/-- The settings that hold unless others are given. -/
def Config.standard : Config := ⟨8, 200000, 250000, 200, true⟩

end AreaMethod
