import AreaMethod.Collinear
import AreaMethod.Log
import AreaMethod.Proof.Config

/-!
# Sessions

All proofs over one construction share a session: the statements decided so far, the collinear
triples of the construction once they have been found, the number of eliminations, and the log.
-/

namespace AreaMethod

/-- What proofs are about: the construction and the limits, which stay the same. -/
structure Problem where
  construction : Construction
  config : Config

/-- What proofs over one construction leave behind for later ones. -/
structure Session where
  /-- The statements decided, by their expressions, with the decisions. -/
  decided : List (List Expr × Bool)
  /-- The number of eliminations. -/
  eliminations : Nat
  /-- The collinear triples of the construction, once they have been found. -/
  collinear : Option CollinearSet
  /-- The events, the latest first. -/
  latest : List Event

namespace Session

/-- Nothing proved yet. -/
def start : Session := ⟨[], 0, none, []⟩

/-- Reports an event. -/
def log (s : Session) (e : Event) : Session :=
  { s with latest := e :: s.latest }

/-- The events in order. -/
def events (s : Session) : List Event :=
  s.latest.reverse

/-- The decision on a statement with the same expressions. -/
def decision? (s : Session) (goal : Statement) : Option Bool :=
  (s.decided.find? fun entry => Expr.sameList entry.1 goal.expressions).map (·.2)

/-- Notes the decision on a statement. -/
def note (s : Session) (goal : Statement) (holds : Bool) : Session :=
  if (s.decision? goal).isSome then
    { s with
      decided := s.decided.map fun entry =>
        if Expr.sameList entry.1 goal.expressions then (entry.1, holds) else entry }
  else
    { s with decided := s.decided ++ [(goal.expressions, holds)] }.log (.noted goal.name holds)

/-- Counts an elimination. -/
def countElimination (s : Session) : Session :=
  { s with eliminations := s.eliminations + 1 }

/-- The collinear triples of the construction, which are found only once. -/
def findCollinear (s : Session) (c : Construction) : CollinearSet × Session :=
  match s.collinear with
  | some collinear => (collinear, s)
  | none =>
    let (collinear, rounds) := CollinearSet.search c
    (collinear, { s with collinear := some collinear }.log (.collinearFound collinear.size rounds))

end Session

end AreaMethod
