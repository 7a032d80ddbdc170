import AreaMethod.Elimination.Coordinates
import AreaMethod.Elimination.Point
import AreaMethod.Expr.Orientation
import AreaMethod.Expr.Polynomial
import AreaMethod.Expr.SingleFraction
import AreaMethod.Proof.Report
import AreaMethod.Proof.Session

/-!
# Proof attempts

An attempt decides one statement over the first steps of a construction. It drives each expression
to zero or to a polynomial in independent variables: derived points are eliminated from the latest
to the earliest, then areas, Pythagoras differences and ratios of free points are written in
coordinates, and then the polynomial is expanded and like terms are grouped. The expression vanishes
if and only if nothing is left.

Statements that an elimination needs are decided by proofs within the proof. How these are run is a
parameter here (`Subproof`); `Proof.Prover` ties the knot.
-/

namespace AreaMethod

/-- A way to prove a statement over the first steps of the construction, of the given number. -/
abbrev Subproof := Statement → Nat → Session → Except ProofError Report × Session

/-- Where and how an attempt is made. -/
structure Setting where
  problem : Problem
  /-- The number of steps of the construction that the statement is about. -/
  prefixLength : Nat
  /-- The number of proofs that this one is nested in. -/
  depth : Nat
  subproof : Subproof

/-- How far an attempt has come. -/
structure Progress where
  session : Session
  /-- The conditions relied on. -/
  conditions : Conditions
  trace : Trace
  /-- The number of eliminations, those of the proofs within it included. -/
  eliminations : Nat
  /-- The index of the current expression of the statement. -/
  expressionIndex : Nat

/-- What proofs within a proof have contributed. -/
structure Contribution where
  conditions : Conditions
  eliminations : Nat
  /-- The statements, by their names, with the outcomes. -/
  outcomes : List (String × Verdict)

namespace Contribution

/-- No contribution. -/
def none : Contribution := ⟨.empty, 0, []⟩

/-- Adds the contribution of one proof. -/
def add (k : Contribution) (r : Report) : Contribution where
  conditions := k.conditions.extend r.conditions
  eliminations := k.eliminations + r.eliminations
  outcomes := k.outcomes ++ [(r.statement, r.verdict)]

end Contribution

/-- The answer that a report gives to whoever needs the statement. -/
def Report.answer (needed : Statement) (r : Report) : Except ProofError Bool :=
  match r.verdict, r.unknownReason with
  | .proved, _ => .ok true
  | .refuted, _ => .ok false
  | .unknown, some (.depthLimit limit) => .error (.depthLimit limit)
  | .unknown, some (.sizeLimit size limit) => .error (.sizeLimit size limit)
  | .unknown, _ => .error (.inconclusive needed)

namespace Progress

/-- The start of an attempt. -/
def start (session : Session) : Progress := ⟨session, .empty, .empty, 0, 0⟩

/-- Reports an event. -/
def log (p : Progress) (e : Event) : Progress :=
  { p with session := p.session.log e }

/-- Relies on a condition. -/
def rely (p : Progress) (c : Condition) : Progress :=
  { p with conditions := p.conditions.push c }

/-- Sets a named remark in the trace. -/
def remark (p : Progress) (key value : String) : Progress :=
  { p with trace := p.trace.remark key value }

/-- Counts an elimination. -/
def countElimination (p : Progress) : Progress :=
  { p with session := p.session.countElimination, eliminations := p.eliminations + 1 }

/-- Adds what proofs within the proof have contributed. Their outcomes are recorded as steps. -/
def absorb (config : Config) (p : Progress) (k : Contribution) : Progress where
  session := p.session
  conditions := p.conditions.extend k.conditions
  trace :=
    if config.recordTrace then
      k.outcomes.foldl (fun t (name, verdict) =>
        t.record "lemma" p.expressionIndex 0 none (some (name ++ ": " ++ verdict.text))) p.trace
    else p.trace
  eliminations := p.eliminations + k.eliminations
  expressionIndex := p.expressionIndex

/-- Records the expression after a pass. -/
def recordPass (s : Setting) (p : Progress) (pass : String) (e : Expr)
    (explanation : Option String) : Progress :=
  let config := s.problem.config
  let size := e.size
  let text :=
    if size < config.printSizeLimit then some (e.text s.problem.construction.name) else none
  let p := p.log (.pass pass size s.depth text)
  if config.recordTrace then
    let explanation := explanation.or (if text.isNone then some tooLarge else none)
    { p with trace := p.trace.record pass p.expressionIndex size text explanation }
  else p

end Progress

/-- A part of an attempt. What it has done so far stays also if it fails. -/
abbrev Attempt := ExceptT ProofError (StateM Progress)

/-- A part of an attempt that runs proofs within it. -/
abbrev Nested := ExceptT ProofError (StateM (Progress × Contribution))

namespace Attempt

/-- Records the expression after a pass, with an explanation. -/
def passWith (s : Setting) (name : String) (e : Expr) (explanation : Option String) :
    Attempt Expr := do
  modify fun p => p.recordPass s name e explanation
  return e

/-- Records the expression after a pass. -/
def pass (s : Setting) (name : String) (e : Expr) : Attempt Expr :=
  passWith s name e none

/-- Decides a needed statement by a proof within the proof. -/
def answer (s : Setting) (needed : Statement) (prefixLength : Nat) : Nested Bool := do
  let (p, k) ← get
  let (result, session) := s.subproof needed prefixLength p.session
  let p := { p with session }
  match result with
  | .error e =>
    set (p, k)
    throw e
  | .ok report =>
    set (p, k.add report)
    match report.answer needed with
    | .ok holds => return holds
    | .error e => throw e

/-- Carries out an inquiry. What the proofs within it have contributed is added at the end, even if
the inquiry fails. -/
def inquire (s : Setting) (q : Inquiry Expr) : Attempt Expr := do
  let p ← get
  let nested := q.run (answer s)
    (fun c => modify fun (p, k) => (p.rely c, k))
    (fun e => modify fun (p, k) => (p.log e, k))
  let (result, (p, k)) := nested.run (p, .none)
  set (p.absorb s.problem.config k)
  match result with
  | .ok e => return e
  | .error e => throw e

/-- Replaces what vanishes because points are collinear, then orients atoms and simplifies. -/
def tidy (s : Setting) (collinear : CollinearSet) (e : Expr) : Attempt Expr := do
  let e ← pass s "collinear" (e.flattened collinear)
  let e ← pass s "uniformize" e.oriented
  pass s "simplify" e.simplify

/-- Goes on with the numerator of the expression as a single fraction. -/
def clear (s : Setting) (e : Expr) : Attempt Expr := do
  let e ← pass s "single_fraction" e.singleFraction
  let e ← pass s "numerator" e.numerator
  pass s "simplify" e.simplify

/-- Eliminates a point. -/
def eliminate (s : Setting) (collinear : CollinearSet) (y : Point) (e : Expr) : Attempt Expr := do
  let construction := s.problem.construction
  let limit := s.problem.config.maxExpressionSize
  let e ← tidy s collinear e
  let e ← inquire s (construction.eliminate collinear y e)
  modify Progress.countElimination
  let e ← passWith s "eliminate" e (some ("eliminate " ++ construction.name y))
  if e.size > limit then throw (.sizeLimit e.size limit)
  let e ← tidy s collinear e
  clear s e

/-- Eliminates the derived points made by the given steps, one after another, as long as the
expression is not zero. -/
def eliminateAll (s : Setting) (collinear : CollinearSet) : List Step → Expr → Attempt Expr
  | [], e => pure e
  | step :: steps, e => do
    if e.isZero then return e
    match step with
    | .point y kind =>
      if kind.isFree || !e.mentions y then eliminateAll s collinear steps e
      else eliminateAll s collinear steps (← eliminate s collinear y e)
    | .line .. => eliminateAll s collinear steps e

/-- Expands the numerator of an expression and groups like terms. -/
def regroup (s : Setting) (e : Expr) : Attempt Expr := do
  let limit := s.problem.config.maxExpansionTerms
  let e ← clear s e
  let e := e.unitProduct
  if e.expansionTerms > limit then throw (.sizeLimit e.expansionTerms limit)
  let e ← pass s "right_associative" e.expanded
  let e ← pass s "group" e.grouped
  pass s "simplify" e.simplify

/-- Does the expression vanish? -/
def vanishes (s : Setting) (collinear : CollinearSet) (e : Expr) : Attempt Bool := do
  let construction := s.problem.construction
  let e ← pass s "uniformize" e.oriented
  let e ← pass s "simplify" e.simplify
  let e ← eliminateAll s collinear (construction.steps.take s.prefixLength).reverse e
  let e ← regroup s e
  if e.isZero then return true
  let e ← inquire s (e.inCoordinates construction)
  let e ← pass s "independent_variables" e
  let e ← pass s "uniformize" e.oriented
  let e ← pass s "simplify" e.simplify
  let e ← regroup s e
  return e.isZero

/-- Do all the expressions vanish? They are taken in order, up to the first that does not. The
first of them has the given index in the statement. -/
def allVanish (s : Setting) (collinear : CollinearSet) : Nat → List Expr → Attempt Bool
  | _, [] => pure true
  | index, e :: es => do
    modify fun p => { p with expressionIndex := index }
    if ← vanishes s collinear e then allVanish s collinear (index + 1) es
    else
      modify (·.log (.notZero index))
      return false

end Attempt

end AreaMethod
