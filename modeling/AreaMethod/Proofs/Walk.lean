import AreaMethod.Proof.Prover
import AreaMethod.Proofs.Building
import AreaMethod.Proofs.Inquiry

/-!
# The walk through an attempt

There are few things that a proof attempt does, over and over: it writes down what it has come to
(`Attempt.Records`), it stops at a limit, and it carries out an inquiry (`Attempt.Asks`). What is
kept by these is kept by the attempt as a whole (`Attempt.Lifting.allVanish`), so that the passes of
an attempt are walked through here and nowhere else.

What is kept is a relation. It is between attempts in two settings, which may differ in all but the
steps of the construction, and the course of the proof (`Problem.course`): the inquiry that is left
of an attempt if nothing is written down, with the passes as functions of expressions.

Above the passes, an attempt concludes by what it has come to (`Setting.attempt_eq`), and proofs are
nested in it (`Problem.proveNested_induction`).
-/

namespace AreaMethod

/-! ## Courses -/

namespace Expr

/-- Without what vanishes because points are collinear, oriented and simplified. -/
def tidied (k : CollinearSet) (e : Expr) : Expr := (e.flattened k).oriented.simplify

/-- The numerator of the expression as a single fraction. -/
def cleared (e : Expr) : Expr := e.singleFraction.numerator.simplify

end Expr

namespace Course

variable (problem : Problem) (k : CollinearSet)

/-- Eliminates a point. -/
def eliminate (y : Point) (e : Expr) : Inquiry Expr := do
  let e ← problem.construction.eliminate k y (e.tidied k)
  if e.size > problem.config.maxExpressionSize then
    .fail (.sizeLimit e.size problem.config.maxExpressionSize)
  else return (e.tidied k).cleared

/-- Eliminates the derived points made by the given steps. -/
def eliminateAll : List Step → Expr → Inquiry Expr
  | [], e => pure e
  | .point y kind :: steps, e =>
    if e.isZero then pure e
    else if kind.isFree || !e.mentions y then eliminateAll steps e
    else do eliminateAll steps (← eliminate problem k y e)
  | .line .. :: steps, e => if e.isZero then pure e else eliminateAll steps e

/-- Expands the numerator of an expression and groups like terms. -/
def regroup (e : Expr) : Inquiry Expr :=
  let e := e.cleared.unitProduct
  if e.expansionTerms > problem.config.maxExpansionTerms then
    .fail (.sizeLimit e.expansionTerms problem.config.maxExpansionTerms)
  else pure e.expanded.grouped.simplify

/-- Does the expression vanish? The steps are those whose points are eliminated. -/
def vanishes (steps : List Step) (e : Expr) : Inquiry Bool := do
  let e ← eliminateAll problem k steps e.oriented.simplify
  let e ← regroup problem e
  if e.isZero then return true
  let e ← e.inCoordinates problem.construction
  let e ← regroup problem e.oriented.simplify
  return e.isZero

/-- Do all the expressions vanish? -/
def allVanish (steps : List Step) : List Expr → Inquiry Bool
  | [] => pure true
  | e :: es => do
    if ← vanishes problem k steps e then allVanish steps es else return false

end Course

namespace Problem

/-- The course of a proof over the first steps of the construction, of the given number. -/
def course (problem : Problem) (n : Nat) (es : List Expr) : Inquiry Bool :=
  Course.allVanish problem (CollinearSet.search problem.construction).1
    (problem.construction.steps.take n).reverse es

end Problem

/-! ## The walk -/

namespace Attempt

/-- What attempts in two settings write down at a time. -/
inductive Records (s s' : Setting) : (Progress → Progress) → (Progress → Progress) → Prop
  /-- A pass. -/
  | pass {name : String} (h : name ≠ "eliminate") (e : Expr) :
      Records s s' (fun p => p.recordPass s name e none) fun p => p.recordPass s' name e none
  /-- An elimination that has succeeded. It is counted first. -/
  | elimination (e : Expr) (explanation explanation' : Option String) :
      Records s s' (fun p => p.countElimination.recordPass s "eliminate" e explanation)
        fun p => p.countElimination.recordPass s' "eliminate" e explanation'
  /-- The expression that it is about. -/
  | expression (index : Nat) :
      Records s s' (fun p => { p with expressionIndex := index })
        fun p => { p with expressionIndex := index }
  /-- That an expression does not vanish. -/
  | notZero (index : Nat) :
      Records s s' (fun p => p.log (.notZero index)) fun p => p.log (.notZero index)

/-- The inquiries that are carried out in attempts over a construction. -/
inductive Asks (c : Construction) : Inquiry Expr → Prop
  | elimination (k : CollinearSet) (y : Point) (e : Expr) : Asks c (c.eliminate k y e)
  | coordinates (e : Expr) : Asks c (e.inCoordinates c)

/-- A relation between attempts in two settings and a course that is kept by all that an attempt
does. -/
structure Lifting (s s' : Setting)
    (R : {α : Type} → Attempt α → Attempt α → Inquiry α → Prop) : Prop where
  construction : s'.problem.construction = s.problem.construction
  prefixLength : s'.prefixLength = s.prefixLength
  pure {α : Type} (a : α) : R (pure a) (pure a) (pure a)
  bind {α β : Type} {m m' : Attempt α} {q : Inquiry α} {f f' : α → Attempt β} {g : α → Inquiry β}
    (hm : R m m' q) (hf : ∀ a, R (f a) (f' a) (g a)) : R (m >>= f) (m' >>= f') (q >>= g)
  /-- Nothing of what is written down is in the course. -/
  record {α : Type} {w w' : Progress → Progress} (hw : Records s s' w w') {m m' : Attempt α}
    {q : Inquiry α} (hm : R m m' q) : R (modify w >>= fun _ => m) (modify w' >>= fun _ => m') q
  inquire {q : Inquiry Expr} (hq : Asks s.problem.construction q) : R (inquire s q) (inquire s' q) q
  limit {α : Type} {limit : Config → Nat}
    (hl : limit = Config.maxExpressionSize ∨ limit = Config.maxExpansionTerms) (size : Nat)
    {m m' : Attempt α} {q : Inquiry α} (hm : R m m' q) :
    R (if size > limit s.problem.config then
        throw (.sizeLimit size (limit s.problem.config)) >>= fun (_ : Unit) => m else m)
      (if size > limit s'.problem.config then
        throw (.sizeLimit size (limit s'.problem.config)) >>= fun (_ : Unit) => m' else m')
      (if size > limit s.problem.config then
        .fail (.sizeLimit size (limit s.problem.config)) else q)

namespace Lifting

variable {s s' : Setting} {R : {α : Type} → Attempt α → Attempt α → Inquiry α → Prop}

/-- Where nothing is left to do, one can go on with nothing. -/
theorem last {m m' : Attempt α} {q : Inquiry α}
    (hm : R (m >>= Pure.pure) (m' >>= Pure.pure) q) : R m m' q := by
  rwa [bind_pure, bind_pure] at hm

variable (h : Lifting s s' R) {α : Type} {f f' : Expr → Attempt α} {q : Inquiry α}
include h

/-- Going on after a pass. -/
theorem pass {name : String} (hn : name ≠ "eliminate") {e : Expr} (hf : R (f e) (f' e) q) :
    R (Attempt.pass s name e >>= f) (Attempt.pass s' name e >>= f') q :=
  h.record (.pass hn e) hf

/-- Three passes, one after another. -/
theorem passes {first second third : String} (h₁ : first ≠ "eliminate")
    (h₂ : second ≠ "eliminate") (h₃ : third ≠ "eliminate") {e : Expr} {a b : Expr → Expr}
    (hf : R (f (b (a e))) (f' (b (a e))) q) :
    R ((do
        let e ← Attempt.pass s first e
        let e ← Attempt.pass s second (a e)
        Attempt.pass s third (b e)) >>= f)
      ((do
        let e ← Attempt.pass s' first e
        let e ← Attempt.pass s' second (a e)
        Attempt.pass s' third (b e)) >>= f') q := by
  simp only [bind_assoc]
  exact h.pass h₁ (h.pass h₂ (h.pass h₃ hf))

/-- Going on with the tidied expression. -/
theorem tidy {k : CollinearSet} {e : Expr} (hf : R (f (e.tidied k)) (f' (e.tidied k)) q) :
    R (Attempt.tidy s k e >>= f) (Attempt.tidy s' k e >>= f') q :=
  h.passes (by decide) (by decide) (by decide) hf

/-- Going on with the numerator. -/
theorem clear {e : Expr} (hf : R (f e.cleared) (f' e.cleared) q) :
    R (Attempt.clear s e >>= f) (Attempt.clear s' e >>= f') q :=
  h.passes (by decide) (by decide) (by decide) hf

/-- Regrouping, within the limit on terms. -/
theorem regroup (e : Expr) :
    R (Attempt.regroup s e) (Attempt.regroup s' e) (Course.regroup s.problem e) := by
  refine h.clear (h.limit (.inr rfl) _ (last ?_))
  exact h.passes (by decide) (by decide) (by decide) (h.pure _)

/-- The elimination of a point. It is counted and recorded once the inquiry has succeeded. -/
theorem eliminate (k : CollinearSet) (y : Point) (e : Expr) :
    R (Attempt.eliminate s k y e) (Attempt.eliminate s' k y e)
      (Course.eliminate s.problem k y e) := by
  refine h.tidy (h.bind ?_ fun e => ?_)
  · rw [h.construction]
    exact h.inquire (.elimination k y _)
  · refine h.record (.elimination e _ _) (h.limit (.inl rfl) _ (h.tidy (last ?_)))
    exact h.clear (h.pure _)

/-- The elimination of points, one after another. -/
theorem eliminateAll (k : CollinearSet) (steps : List Step) (e : Expr) :
    R (Attempt.eliminateAll s k steps e) (Attempt.eliminateAll s' k steps e)
      (Course.eliminateAll s.problem k steps e) := by
  induction steps generalizing e with
  | nil => exact h.pure e
  | cons step steps ih =>
    cases step with
    | point y kind =>
      rw [Attempt.eliminateAll, Attempt.eliminateAll, Course.eliminateAll]
      split
      · exact h.pure e
      · split
        · exact ih e
        · exact h.bind (h.eliminate k y e) ih
    | line l a b =>
      rw [Attempt.eliminateAll, Attempt.eliminateAll, Course.eliminateAll]
      split
      · exact h.pure e
      · exact ih e

/-- Seeing whether an expression vanishes, in coordinates only if need be. -/
theorem vanishes (k : CollinearSet) (e : Expr) :
    R (Attempt.vanishes s k e) (Attempt.vanishes s' k e)
      (Course.vanishes s.problem k
        (s.problem.construction.steps.take s.prefixLength).reverse e) := by
  rw [Attempt.vanishes, Attempt.vanishes, h.construction, h.prefixLength]
  refine h.pass (by decide) (h.pass (by decide) ?_)
  refine h.bind (h.eliminateAll k _ _) fun e => h.bind (h.regroup e) fun e => ?_
  split
  · exact h.pure true
  · refine h.bind (h.inquire (.coordinates e)) fun e => ?_
    refine h.pass (by decide) (h.pass (by decide) (h.pass (by decide) ?_))
    exact h.bind (h.regroup _) fun e => h.pure e.isZero

/-- What is kept by all that attempts do holds of attempts. -/
theorem allVanish (k : CollinearSet) (index : Nat) (es : List Expr) :
    R (Attempt.allVanish s k index es) (Attempt.allVanish s' k index es)
      (Course.allVanish s.problem k
        (s.problem.construction.steps.take s.prefixLength).reverse es) := by
  induction es generalizing index with
  | nil => exact h.pure true
  | cons e es ih =>
    refine h.record (.expression index) (h.bind (h.vanishes k e) fun vanishes => ?_)
    cases vanishes with
    | true => exact ih (index + 1)
    | false => exact h.record (.notZero index) (h.pure false)

end Lifting

/-! ## Running parts of an attempt -/

/-- A needed statement is proved, and what the proof reports is set aside. -/
theorem run_answer (s : Setting) (needed : Statement) (n : Nat) (p : Progress) (k : Contribution) :
    (answer s needed n).run (p, k) =
      match s.subproof needed n p.session with
      | (.error e, session) => (.error e, { p with session }, k)
      | (.ok r, session) => (r.answer needed, { p with session }, k.add r) := by
  have current : (get : Nested (Progress × Contribution)).run (p, k) = (.ok (p, k), (p, k)) := rfl
  rw [answer, run_bind, current]
  obtain ⟨problem, prefixLength, depth, subproof⟩ := s
  dsimp only
  generalize subproof needed n p.session = proved
  obtain ⟨e | r, session⟩ := proved
  · rfl
  · dsimp only
    cases r.answer needed with
    | ok b => rfl
    | error e => rfl

/-- An inquiry is run beside the attempt, which then absorbs what the proofs within it reported. -/
theorem run_inquire (s : Setting) (q : Inquiry Expr) (p : Progress) :
    (inquire s q).run p =
      match ExceptT.run (q.run (answer s) (fun c => modify fun (p, k) => (p.rely c, k))
        (fun e => modify fun (p, k) => (p.log e, k)) : Nested Expr) (p, .none) with
      | (r, (p, k)) => (r, p.absorb s.problem.config k) := by
  have current : (get : Attempt Progress).run p = (.ok p, p) := rfl
  rw [inquire, run_bind, current]
  dsimp only
  generalize ExceptT.run (q.run (answer s) (fun c => modify fun (p, k) => (p.rely c, k))
    (fun e => modify fun (p, k) => (p.log e, k)) : Nested Expr) (p, .none) = nested
  obtain ⟨e | a, p, k⟩ := nested
  · rfl
  · rfl

end Attempt

/-! ## Proofs -/

namespace Setting

/-- How an attempt ends, by the result of what was attempted. -/
def conclude (s : Setting) (goal : Statement) (result : Except ProofError Bool) (p : Progress) :
    Except ProofError Report × Session :=
  match result with
  | .ok holds =>
    let p := { p with session := p.session.note goal holds }
    let (report, session) := s.finish goal (.ofBool holds) none p
    (.ok report, session)
  | .error e =>
    match e.unknownReason? with
    | none => (.error e, p.session)
    | some reason =>
      let p := p.log (.undecided goal.name s.depth e)
      let (report, session) := s.finish goal .unknown (some reason) p
      (.ok report, session)

/-- The collinear triples that an attempt works with. -/
def collinear (s : Setting) (goal : Statement) (σ : Session) : CollinearSet :=
  ((s.begin goal σ).session.findCollinear s.problem.construction).1

/-- An attempt before the first pass. -/
def started (s : Setting) (goal : Statement) (σ : Session) : Progress :=
  { s.begin goal σ with
    session := ((s.begin goal σ).session.findCollinear s.problem.construction).2 }

/-- An attempt sees whether the expressions vanish, and concludes. -/
theorem attempt_eq (s : Setting) (goal : Statement) (σ : Session) :
    s.attempt goal σ =
      let run := (Attempt.allVanish s (s.collinear goal σ) 0 goal.expressions).run
        (s.started goal σ)
      s.conclude goal run.1 run.2 := rfl

/-- A statement is remembered, or makes no sense, or an attempt is made on it. -/
theorem prove_cases (s : Setting) (goal : Statement) (σ : Session) :
    (∃ holds, σ.decision? goal = some holds ∧ s.prove goal σ =
        (.ok (recalled goal holds), σ.log (.recalled goal.name holds s.depth))) ∨
      σ.decision? goal = none ∧
        ((∃ fault, s.fault? goal = some fault ∧
            s.prove goal σ = (.error (.invalidStatement fault), σ)) ∨
          s.fault? goal = none ∧ s.prove goal σ = s.attempt goal σ) := by
  rw [prove]
  cases hd : σ.decision? goal with
  | some holds => exact .inl ⟨holds, rfl, rfl⟩
  | none =>
    cases hf : s.fault? goal with
    | some fault => exact .inr ⟨rfl, .inl ⟨fault, rfl, rfl⟩⟩
    | none => exact .inr ⟨rfl, .inr ⟨rfl, rfl⟩⟩

/-- An error is a reason to end without a decision, or else the attempt fails with it. -/
theorem conclude_error (s : Setting) (goal : Statement) (e : ProofError) (p : Progress) :
    (e.unknownReason? = none ∧ s.conclude goal (.error e) p = (.error e, p.session)) ∨
      ∃ reason, e.unknownReason? = some reason ∧ s.conclude goal (.error e) p =
        let ended := s.finish goal .unknown (some reason) (p.log (.undecided goal.name s.depth e))
        (.ok ended.1, ended.2) := by
  rw [conclude]
  dsimp only
  cases e.unknownReason? with
  | none => exact .inl ⟨rfl, rfl⟩
  | some reason => exact .inr ⟨reason, rfl, rfl⟩

/-- An attempt fails only with an error that is not a reason to end without a decision. -/
theorem unknownReason?_of_conclude {s : Setting} {goal : Statement}
    {result : Except ProofError Bool} {p : Progress} {e : ProofError}
    (h : (s.conclude goal result p).1 = .error e) : e.unknownReason? = none := by
  cases result with
  | ok holds => cases h
  | error e' =>
    rcases s.conclude_error goal e' p with ⟨reason, eq⟩ | ⟨reason, -, eq⟩ <;> rw [eq] at h
    · cases h
      exact reason
    · cases h

/-- What ends with an error is reported without a decision, if at all. -/
theorem verdict_of_conclude_error {s : Setting} {goal : Statement} {e : ProofError} {p : Progress}
    {r : Report} (h : (s.conclude goal (.error e) p).1 = .ok r) : r.verdict = .unknown := by
  rcases s.conclude_error goal e p with ⟨-, eq⟩ | ⟨reason, -, eq⟩ <;> rw [eq] at h
  · cases h
  · cases h
    rfl

/-- A proof fails only with an error that is not a reason to end without a decision. -/
theorem unknownReason?_of_prove {s : Setting} {goal : Statement} {σ : Session} {e : ProofError}
    (h : (s.prove goal σ).1 = .error e) : e.unknownReason? = none := by
  rcases s.prove_cases goal σ with ⟨holds, -, eq⟩ | ⟨-, ⟨fault, -, eq⟩ | ⟨-, eq⟩⟩ <;> rw [eq] at h
  · cases h
  · cases h
    rfl
  · exact unknownReason?_of_conclude h

end Setting

namespace Problem

/-- How needed statements are proved in a proof that is nested in `depth` others, with others nested
at most `nesting` deep in it. -/
def subproof (problem : Problem) : (nesting : Nat) → (depth : Nat) → Subproof
  | 0, _ => fun _ _ σ => (.error (.depthLimit problem.config.maxSubproofDepth), σ)
  | nesting + 1, depth => problem.proveNested nesting (depth + 1)

/-- A nested proof is a proof over the steps there are, with the proofs of needed statements one
level further in. -/
theorem proveNested_eq (problem : Problem) (nesting depth : Nat) (goal : Statement) (n : Nat)
    (σ : Session) :
    problem.proveNested nesting depth goal n σ =
      Setting.prove ⟨problem, min n problem.construction.length, depth,
        problem.subproof nesting depth⟩ goal σ := by
  cases nesting with
  | zero => rfl
  | succ nesting => rfl

/-- What holds if proofs within a proof are refused, and is handed on from them to the proof, holds
however deeply proofs are nested. -/
theorem proveNested_induction (problem : Problem) {P : Nat → Subproof → Prop}
    (refused : P 0 fun _ _ σ => (.error (.depthLimit problem.config.maxSubproofDepth), σ))
    (prove : ∀ nesting depth sub, P nesting sub → P (nesting + 1) fun goal n σ =>
      Setting.prove ⟨problem, min n problem.construction.length, depth, sub⟩ goal σ)
    (nesting depth : Nat) :
    P nesting (problem.subproof nesting depth) ∧
      P (nesting + 1) (problem.proveNested nesting depth) := by
  have outer : ∀ nesting depth, P nesting (problem.subproof nesting depth) →
      P (nesting + 1) (problem.proveNested nesting depth) := by
    intro nesting depth inner
    have eq := funext fun goal => funext fun n =>
      funext (problem.proveNested_eq nesting depth goal n)
    exact eq ▸ prove nesting depth _ inner
  induction nesting generalizing depth with
  | zero => exact ⟨refused, outer 0 depth refused⟩
  | succ nesting ih =>
    have inner := (ih (depth + 1)).2
    exact ⟨inner, outer (nesting + 1) depth inner⟩

end Problem

end AreaMethod
