import AreaMethod.Error
import AreaMethod.Verdict

/-!
# The log

Everything the library reports on the way is an event. An event has a level, a message and named
fields, all of them texts; the values it stands for are kept until it is written out.
-/

namespace AreaMethod

/-- How important an event is. -/
inductive Level where
  | debug
  | info
  | warn

/-- The level as text. -/
def Level.text : Level → String
  | debug => "DEBUG"
  | info => "INFO"
  | warn => "WARN"

/-- Something worth reporting. -/
inductive Event where
  /-- A point was constructed by the step described. -/
  | constructed (description : String)
  /-- The collinear triples of a construction were found, in so many rounds. -/
  | collinearFound (triples rounds : Nat)
  /-- An atom mentions the point of that name, which is not free. -/
  | derivedPoint (name : String)
  /-- The elimination of a point depends on a statement that has to be proved first. -/
  | needsProof (statement : String) (prefixLength : Nat)
  /-- The statement had been decided before. -/
  | recalled (statement : String) (holds : Bool) (depth : Nat)
  /-- A proof starts over a construction of so many steps. -/
  | construction (steps : Nat)
  /-- A step of the construction that a proof starts over. -/
  | step (description : String)
  /-- A condition that the construction relies on. -/
  | reliesOn (condition : String)
  /-- The statement to be proved. -/
  | goal (statement : String) (depth : Nat)
  /-- An expression after a pass, without its text if it is too large to be printed. -/
  | pass (name : String) (size depth : Nat) (text : Option String)
  /-- The expression of that index turned out not to vanish. -/
  | notZero (index : Nat)
  /-- A proof ended without a decision. -/
  | undecided (statement : String) (depth : Nat) (error : ProofError)
  /-- A decision was noted for later. -/
  | noted (statement : String) (holds : Bool)
  /-- A proof ended. -/
  | finished (statement : String) (verdict : Verdict) (depth eliminations : Nat)

/-- A truth value as text. -/
def boolText (b : Bool) : String :=
  if b then "true" else "false"

/-- What is written in place of an expression that is too large. -/
def tooLarge : String := "Too large to be printed"

namespace Event

/-- The level of an event. -/
def level : Event → Level
  | construction .. => .info
  | goal .. => .info
  | finished .. => .info
  | undecided .. => .warn
  | _ => .debug

/-- The message of an event. -/
def message : Event → String
  | constructed _ => "construct"
  | collinearFound .. => "collinear cache built"
  | derivedPoint _ => "atom over a derived point"
  | needsProof .. => "ratio lemma needs a sub-proof"
  | recalled .. => "memo hit"
  | construction _ => "construction"
  | step description => "  " ++ description
  | reliesOn _ => "construction relies on"
  | goal statement _ => "prove " ++ statement
  | pass _ _ _ text => text.getD tooLarge
  | notZero _ => "expression does not vanish"
  | undecided .. => "proof inconclusive"
  | noted .. => "memoized"
  | finished .. => "decided"

/-- The named fields of an event. -/
def fields : Event → List (String × String)
  | constructed description => [("step", description)]
  | collinearFound triples rounds => [("triples", Nat.repr triples), ("rounds", Nat.repr rounds)]
  | derivedPoint name => [("point", name)]
  | needsProof statement prefixLength =>
    [("lemma", statement), ("prefix_len", Nat.repr prefixLength)]
  | recalled statement holds depth =>
    [("statement", statement), ("holds", boolText holds), ("depth", Nat.repr depth)]
  | construction steps => [("steps", Nat.repr steps)]
  | step _ => []
  | reliesOn condition => [("ndg", condition)]
  | goal _ depth => [("depth", Nat.repr depth)]
  | pass name size depth _ =>
    [("pass", name), ("size", Nat.repr size), ("depth", Nat.repr depth)]
  | notZero index => [("index", Nat.repr index)]
  | undecided statement depth error =>
    [("statement", statement), ("depth", Nat.repr depth), ("err", error.message)]
  | noted statement holds => [("statement", statement), ("holds", boolText holds)]
  | finished statement verdict depth eliminations =>
    [("statement", statement), ("verdict", verdict.text), ("depth", Nat.repr depth),
      ("eliminations", Nat.repr eliminations)]

end Event

end AreaMethod
