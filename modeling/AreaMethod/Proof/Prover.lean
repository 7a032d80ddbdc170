import AreaMethod.Proof.Attempt

/-!
# Proving

`Problem.proveAt` decides a statement: from what the session remembers if it can, otherwise by an
attempt. An attempt that meets a needed statement it cannot decide, or a limit, ends without a
decision; one on a statement that makes no sense fails. Decisions are noted in the session.

Proofs of needed statements are nested at most `maxSubproofDepth` deep, so the recursion is on the
nesting that is left.
-/

namespace AreaMethod

namespace Setting

/-- What is wrong with the statement, if anything is: it has no expressions, or mentions a point
that is not constructed by the steps it is about. -/
def fault? (s : Setting) (goal : Statement) : Option StatementFault :=
  let c := s.problem.construction
  if goal.expressions.isEmpty then some (.empty goal.name)
  else (goal.points.find? (!c.containsBefore · s.prefixLength)).map
    (.pointUnknown goal.name <| c.name ·)

/-- The events at the start of an attempt. The construction is described only for a proof that is
not nested in another one. -/
def introduction (s : Setting) (goal : Statement) : List Event :=
  let c := s.problem.construction
  let setting :=
    if s.depth = 0 then
      let points := c.points.takeWhile fun (p, _) => c.containsBefore p s.prefixLength
      .construction s.prefixLength ::
        ((c.steps.take s.prefixLength).map fun step => .step (c.describe step)) ++
        points.filterMap fun (_, kind) =>
          kind.condition?.map fun condition => .reliesOn (condition.text c.name)
    else []
  setting ++ [.goal (goal.text c.name) s.depth]

/-- The start of an attempt on a sensible statement. -/
def begin (s : Setting) (goal : Statement) (session : Session) : Progress :=
  let p := Progress.start ((s.introduction goal).foldl Session.log session)
  ((p.remark "statement" goal.name).remark "depth" (Nat.repr s.depth)).remark "prefix_len"
    (Nat.repr s.prefixLength)

/-- The report on a statement that has been decided before. -/
def recalled (goal : Statement) (holds : Bool) : Report where
  statement := goal.name
  verdict := .ofBool holds
  unknownReason := none
  conditions := .empty
  trace := Trace.empty.decide (.ofBool holds)
  eliminations := 0
  isRecalled := true

/-- The report at the end of an attempt, and the session after it. -/
def finish (s : Setting) (goal : Statement) (verdict : Verdict) (reason : Option UnknownReason)
    (p : Progress) : Report × Session :=
  let report : Report :=
    { statement := goal.name
      verdict
      unknownReason := reason
      conditions := p.conditions
      trace := p.trace.decide verdict
      eliminations := p.eliminations
      isRecalled := false }
  (report, p.session.log (.finished goal.name verdict s.depth p.eliminations))

/-- Makes an attempt on a sensible statement. -/
def attempt (s : Setting) (goal : Statement) (session : Session) :
    Except ProofError Report × Session :=
  let p := s.begin goal session
  let (collinear, session) := p.session.findCollinear s.problem.construction
  let (result, p) := (Attempt.allVanish s collinear 0 goal.expressions).run { p with session }
  match result with
  | .ok holds =>
    let p := { p with session := p.session.note goal holds }
    let (report, session) := s.finish goal (.ofBool holds) none p
    (.ok report, session)
  | .error e =>
    match e.unknownReason? with
    | none => (.error e, p.session)
    | some reason =>
      let p := p.log (.undecided goal.name s.depth e)
      let (report, session) := s.finish goal .unknown (some reason) p
      (.ok report, session)

/-- Decides a statement, from memory if possible. -/
def prove (s : Setting) (goal : Statement) (session : Session) :
    Except ProofError Report × Session :=
  match session.decision? goal with
  | some holds => (.ok (recalled goal holds), session.log (.recalled goal.name holds s.depth))
  | none =>
    match s.fault? goal with
    | some fault => (.error (.invalidStatement fault), session)
    | none => s.attempt goal session

end Setting

namespace Problem

/-- Decides a statement over the first steps of the construction, with proofs of needed statements
nested at most `nesting` deep. -/
def proveNested (problem : Problem) : (nesting : Nat) → (depth : Nat) → Subproof
  | 0, depth, goal, prefixLength, session =>
    let subproof : Subproof := fun _ _ session =>
      (.error (.depthLimit problem.config.maxSubproofDepth), session)
    Setting.prove ⟨problem, min prefixLength problem.construction.length, depth, subproof⟩ goal
      session
  | nesting + 1, depth, goal, prefixLength, session =>
    let subproof : Subproof := proveNested problem nesting (depth + 1)
    Setting.prove ⟨problem, min prefixLength problem.construction.length, depth, subproof⟩ goal
      session

/-- Decides a statement over the first steps of the construction, as a proof that is nested in
`depth` others. -/
def proveAt (problem : Problem) (prefixLength depth : Nat) (goal : Statement) (session : Session) :
    Except ProofError Report × Session :=
  problem.proveNested (problem.config.maxSubproofDepth - depth) depth goal prefixLength session

/-- Decides a statement over the whole construction. -/
def prove (problem : Problem) (goal : Statement) (session : Session) :
    Except ProofError Report × Session :=
  problem.proveAt problem.construction.length 0 goal session

end Problem

end AreaMethod
