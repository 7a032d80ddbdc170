import AreaMethod.Statement

/-!
# Errors

What can go wrong when a construction is built or a statement is proved, with the wording of each
cause. Three of the errors end a proof without a decision (`UnknownReason`); the others are the
fault of the caller and reach the caller.
-/

namespace AreaMethod

/-- What is wrong with a step of a construction. -/
inductive ConstructionFault where
  /-- A step refers to a point that has not been constructed. -/
  | pointMissing (p : Point)
  /-- A step refers to a line that has not been constructed. -/
  | lineMissing (l : Line)
  /-- The label already belongs to a constructed point. -/
  | pointTaken (label : String)
  /-- The label already belongs to a constructed line. -/
  | lineTaken (label : String)
  /-- The ratio for the point of that label mentions a point that has not been constructed. -/
  | ratioPointMissing (label : String) (p : Point)
  /-- The line of that label goes through one point only. -/
  | linePointsEqual (label : String)
  /-- The point of that label is on a line intersected with itself. -/
  | linesEqual (label : String)
  /-- A point to be eliminated is not constructed. -/
  | notConstructed (p : Point)

/-- The wording of a fault. -/
def ConstructionFault.text : ConstructionFault → String
  | pointMissing p => "point " ++ p.tag ++ " is not constructed yet"
  | lineMissing l => "line " ++ l.tag ++ " is not constructed yet"
  | pointTaken label => "duplicate point label " ++ label
  | lineTaken label => "duplicate line label " ++ label
  | ratioPointMissing label p => "ratio of " ++ label ++ " refers to unconstructed point " ++ p.tag
  | linePointsEqual label => "line " ++ label ++ " needs two distinct points"
  | linesEqual label => label ++ " intersects a line with itself"
  | notConstructed p => "point " ++ p.tag ++ " is not constructed"

/-- What is wrong with a statement. -/
inductive StatementFault where
  /-- The statement of that name has no expressions. -/
  | empty (name : String)
  /-- The statement of that name mentions a point, given by its name, that is not constructed. -/
  | pointUnknown (name point : String)

/-- The wording of a fault. -/
def StatementFault.text : StatementFault → String
  | empty name => "statement `" ++ name ++ "` has no expressions"
  | pointUnknown name point =>
    "statement `" ++ name ++ "` refers to " ++ point ++ ", which is not in the construction"

/-- Why building or proving stopped. -/
inductive ProofError where
  | invalidStatement (fault : StatementFault)
  | invalidConstruction (fault : ConstructionFault)
  /-- A statement that the proof needs could not be decided. -/
  | inconclusive (needed : Statement)
  /-- Proofs of needed statements are nested more deeply than allowed. -/
  | depthLimit (limit : Nat)
  /-- An expression has grown larger than allowed. -/
  | sizeLimit (size limit : Nat)

/-- Why a proof ended without a decision. -/
inductive UnknownReason where
  | blocked (needed : Statement)
  | depthLimit (limit : Nat)
  | sizeLimit (size limit : Nat)

namespace ProofError

/-- The wording of an error. -/
def message : ProofError → String
  | invalidStatement fault => "Invalid statement: " ++ fault.text
  | invalidConstruction fault => "Invalid construction: " ++ fault.text
  | inconclusive needed => "Inconclusive: lemma `" ++ needed.name ++ "` could not be decided"
  | depthLimit limit => "Sub-proof depth limit " ++ Nat.repr limit ++ " exceeded"
  | sizeLimit size limit =>
    "Expression size " ++ Nat.repr size ++ " exceeds limit " ++ Nat.repr limit

/-- The reason to report when the error leaves a proof undecided; none for faults of the caller. -/
def unknownReason? : ProofError → Option UnknownReason
  | inconclusive needed => some (.blocked needed)
  | depthLimit limit => some (.depthLimit limit)
  | sizeLimit size limit => some (.sizeLimit size limit)
  | _ => none

end ProofError

end AreaMethod
