/-!
# Verdicts

A proof attempt ends with a decision either way or without one.
-/

namespace AreaMethod

/-- The outcome of a proof attempt. -/
inductive Verdict where
  | proved
  | refuted
  | unknown
deriving DecidableEq

namespace Verdict

/-- The verdict for a decision. -/
def ofBool (holds : Bool) : Verdict :=
  if holds then proved else refuted

/-- Is there a decision? -/
def isDecided : Verdict → Bool
  | unknown => false
  | _ => true

/-- The verdict as text. -/
def text : Verdict → String
  | proved => "true"
  | refuted => "false"
  | unknown => "unknown"

end Verdict

end AreaMethod
