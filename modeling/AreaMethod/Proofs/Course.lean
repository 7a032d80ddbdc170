import AreaMethod.Proofs.Conditions
import AreaMethod.Proofs.Walk

/-!
# The course of a proof

A proof attempt writes a log and a trace and keeps count of what it does, but its course does not
depend on any of that: it is one inquiry (`Problem.course`), the passes between two questions being
functions of expressions. `Inquiry.exec` carries an inquiry out with nothing but a memory of the
statements decided so far, and `Problem.outcome` decides statements in that way. The prover does the
same (`realizes_proveNested`): it ends with the same decision, the same memory and the same
conditions.
-/

namespace AreaMethod

/-! ## Memories -/

/-- Statements that have been decided, by their expressions, with the decisions. -/
abbrev Memory := List (List Expr × Bool)

namespace Memory

/-- The decision on a statement with the same expressions. -/
def decision? (m : Memory) (es : List Expr) : Option Bool :=
  (m.find? fun entry => Expr.sameList entry.1 es).map (·.2)

/-- Notes a decision. -/
def note (m : Memory) (es : List Expr) (holds : Bool) : Memory :=
  if (decision? m es).isSome then
    m.map fun entry => if Expr.sameList entry.1 es then (entry.1, holds) else entry
  else m ++ [(es, holds)]

end Memory

/-! ## Carrying out inquiries -/

/-- How an inquiry ends when it is carried out with a memory. -/
structure Outcome (α : Type) where
  result : Except ProofError α
  /-- The conditions relied on, those of the proofs within it included. -/
  conditions : List Condition
  memory : Memory

/-- Goes on from an outcome. -/
def Outcome.andThen (o : Outcome α) (f : α → Memory → Outcome β) : Outcome β :=
  match o.result with
  | .ok a =>
    ⟨(f a o.memory).result, o.conditions ++ (f a o.memory).conditions, (f a o.memory).memory⟩
  | .error e => ⟨.error e, o.conditions, o.memory⟩

namespace Inquiry

variable (sub : Statement → Nat → Memory → Outcome Bool)

/-- Carries out an inquiry, with the given way to decide statements. -/
def exec : Inquiry α → Memory → Outcome α
  | done a, m => ⟨.ok a, [], m⟩
  | fail e, m => ⟨.error e, [], m⟩
  | ask s n next, m => (sub s n m).andThen fun b m => (next b).exec m
  | rely c next, m =>
    let o := next.exec m
    ⟨o.result, c.normalize :: o.conditions, o.memory⟩
  | report _ next, m => next.exec m

/-- Two inquiries in sequence are carried out one after the other. -/
theorem exec_bind (q : Inquiry α) (f : α → Inquiry β) (m : Memory) :
    (q >>= f).exec sub m = (q.exec sub m).andThen fun a m => (f a).exec sub m := by
  rw [bind_eq_andThen]
  induction q generalizing m with
  | done a => simp [andThen, exec, Outcome.andThen]
  | fail e => simp [andThen, exec, Outcome.andThen]
  | ask s n next ih =>
    simp only [andThen, exec, ih]
    generalize sub s n m = o
    cases h : o.result with
    | error e => simp [Outcome.andThen, h]
    | ok b =>
      simp only [Outcome.andThen, h]
      cases ((next b).exec sub o.memory).result with
      | error e => rfl
      | ok a => simp [List.append_assoc]
  | rely c next ih =>
    simp only [andThen, exec, ih]
    cases h : (next.exec sub m).result with
    | error e => simp [Outcome.andThen, h]
    | ok a => simp [Outcome.andThen, h]
  | report e next ih => simp only [andThen, exec, ih]

/-- Only normal forms of conditions are collected. -/
theorem exec_normal {sub : Statement → Nat → Memory → Outcome Bool}
    (hn : ∀ s n m, ∀ x ∈ (sub s n m).conditions, x.normalize = x) (q : Inquiry α) (m : Memory) :
    ∀ x ∈ (q.exec sub m).conditions, x.normalize = x := by
  induction q generalizing m with
  | done a => simp [exec]
  | fail e => simp [exec]
  | ask s n next ih =>
    rw [exec, Outcome.andThen]
    split
    next b hb =>
      rw [List.forall_mem_append]
      exact ⟨hn s n m, ih b _⟩
    next => exact hn s n m
  | rely c next ih =>
    exact List.forall_mem_cons.2 ⟨c.normalize_normalize, ih m⟩
  | report e next ih => exact ih m

end Inquiry

/-- The error that a proof ends with if one within it does, on the statement it needs. -/
def ProofError.whereNeeded (needed : Statement) : ProofError → ProofError
  | inconclusive _ => inconclusive needed
  | e => e

/-- What the outcome of a proof means to the proof that needs its statement. -/
def Outcome.whereNeeded (needed : Statement) (o : Outcome Bool) : Outcome Bool where
  result := o.result.mapError (ProofError.whereNeeded needed)
  conditions := o.conditions
  memory := o.memory

namespace Problem

/-- Decides a statement over the first steps of the construction, from memory if possible. An error
that is the fault of the statement takes the conditions with it. -/
def outcomeBy (problem : Problem) (sub : Statement → Nat → Memory → Outcome Bool) (goal : Statement)
    (prefixLength : Nat) (m : Memory) : Outcome Bool :=
  let n := min prefixLength problem.construction.length
  match Memory.decision? m goal.expressions with
  | some holds => ⟨.ok holds, [], m⟩
  | none =>
    match Setting.fault? ⟨problem, n, 0, fun _ _ s => (.error (.depthLimit 0), s)⟩ goal with
    | some fault => ⟨.error (.invalidStatement fault), [], m⟩
    | none =>
      let o := (problem.course n goal.expressions).exec (fun s n m => (sub s n m).whereNeeded s) m
      match o.result with
      | .ok holds => ⟨.ok holds, o.conditions, Memory.note o.memory goal.expressions holds⟩
      | .error e => ⟨.error e, if e.unknownReason?.isSome then o.conditions else [], o.memory⟩

/-- Decides a statement with proofs of needed statements nested at most `nesting` deep. -/
def outcome (problem : Problem) : (nesting : Nat) → Statement → Nat → Memory → Outcome Bool
  | 0 => problem.outcomeBy fun _ _ m =>
      ⟨.error (.depthLimit problem.config.maxSubproofDepth), [], m⟩
  | nesting + 1 => problem.outcomeBy (problem.outcome nesting)

/-- How needed statements are decided by a proof with others nested at most `nesting` deep in it. -/
def suboutcome (problem : Problem) : (nesting : Nat) → Statement → Nat → Memory → Outcome Bool
  | 0 => fun _ _ m => ⟨.error (.depthLimit problem.config.maxSubproofDepth), [], m⟩
  | nesting + 1 => problem.outcome nesting

/-- A statement is decided with the proofs of needed statements one level further in. -/
theorem outcome_eq (problem : Problem) (nesting : Nat) :
    problem.outcome nesting = problem.outcomeBy (problem.suboutcome nesting) := by
  cases nesting with
  | zero => rfl
  | succ nesting => rfl

end Problem

/-! ## The prover follows the course -/

/-- Has the session found the collinear triples of the construction, if any? -/
def Session.Fits (c : Construction) (s : Session) : Prop :=
  ∀ k, s.collinear = some k → k = (CollinearSet.search c).1

/-- The report tells of the outcome. -/
structure Report.Shows (r : Report) (o : Outcome Bool) : Prop where
  verdict : ∀ b, o.result = .ok b → r.verdict = .ofBool b
  unknown : ∀ e, o.result = .error e → r.verdict = .unknown ∧
    ∃ reason, r.unknownReason = some reason ∧ e.unknownReason? = some reason
  conditions : ∀ x, x ∈ r.conditions.toList ↔ x ∈ o.conditions

/-- Proving a statement comes to the same as the given way to decide it. -/
def Subproof.Realizes (c : Construction) (prove : Subproof)
    (sub : Statement → Nat → Memory → Outcome Bool) : Prop :=
  ∀ s n σ, σ.Fits c →
    (prove s n σ).2.decided = (sub s n σ.decided).memory ∧ (prove s n σ).2.Fits c ∧
      match (prove s n σ).1 with
      | .ok r => r.Shows (sub s n σ.decided)
      | .error e => (sub s n σ.decided).result = .error e ∧ (sub s n σ.decided).conditions = [] ∧
          ∀ needed, e.whereNeeded needed = e

section
variable (c : Construction) (sub : Statement → Nat → Memory → Outcome Bool)

/-- Part of an attempt comes to the same as carrying out an inquiry. -/
def Attempt.Follows (m : Attempt α) (q : Inquiry α) : Prop :=
  ∀ p : Progress, p.session.Fits c →
    (m.run p).1 = (q.exec sub p.session.decided).result ∧
      (m.run p).2.session.decided = (q.exec sub p.session.decided).memory ∧
      (m.run p).2.session.Fits c ∧
      ∀ x, x ∈ (m.run p).2.conditions.toList ↔
        x ∈ p.conditions.toList ∨ x ∈ (q.exec sub p.session.decided).conditions

end

namespace Attempt

variable {c : Construction} {sub : Statement → Nat → Memory → Outcome Bool}

/-- Doing nothing follows the course that asks nothing. -/
theorem follows_pure (a : α) : Follows c sub (pure a) (pure a) :=
  fun _ h => ⟨rfl, rfl, h, fun _ => (or_iff_left List.not_mem_nil).symm⟩

/-- Nothing goes on after a failure. -/
theorem follows_throw_bind (e : ProofError) (f : α → Attempt β) :
    Follows c sub (throw e >>= f) (.fail e) :=
  fun _ h => ⟨rfl, rfl, h, fun _ => (or_iff_left List.not_mem_nil).symm⟩

/-- What only writes down what is done follows any course. -/
theorem follows_modify {f : Progress → Progress}
    (hf : ∀ p, (f p).session.decided = p.session.decided ∧
      (f p).session.collinear = p.session.collinear ∧ (f p).conditions = p.conditions) :
    Follows c sub (modify f) (pure ()) := by
  intro p h
  obtain ⟨hd, hk, hc⟩ := hf p
  refine ⟨rfl, hd, fun k hk' => h k (hk.symm.trans hk'), fun x => ?_⟩
  change x ∈ (f p).conditions.toList ↔ _
  rw [hc]
  exact (or_iff_left List.not_mem_nil).symm

/-- One part of an attempt after another follows their courses in sequence. -/
theorem follows_bind {m : Attempt α} {q : Inquiry α} {f : α → Attempt β} {g : α → Inquiry β}
    (hm : Follows c sub m q) (hf : ∀ a, Follows c sub (f a) (g a)) :
    Follows c sub (m >>= f) (q >>= g) := by
  intro p h
  obtain ⟨hr, hd, hk, hc⟩ := hm p h
  rw [run_bind, Inquiry.exec_bind, Outcome.andThen]
  revert hr hd hk hc
  rcases m.run p with ⟨r | a, p'⟩ <;> intro hr hd hk hc
  · rw [← hr]
    exact ⟨rfl, hd, hk, hc⟩
  · rw [← hr, ← hd]
    obtain ⟨hr', hd', hk', hc'⟩ := hf a p' hk
    exact ⟨hr', hd', hk', fun x => by
      simp only [hc', hc, List.mem_append, or_assoc]⟩

/-- A report that tells of an outcome gives its answer. -/
theorem answer_of_shows {r : Report} {o : Outcome Bool} (h : r.Shows o) (needed : Statement) :
    r.answer needed = (o.whereNeeded needed).result := by
  rw [Report.answer, Outcome.whereNeeded]
  cases hr : o.result with
  | ok b =>
    rw [h.verdict b hr]
    cases b <;> rfl
  | error e =>
    obtain ⟨hv, reason, hu, he⟩ := h.unknown e hr
    rw [hv, hu]
    cases e with
    | invalidStatement | invalidConstruction => cases he
    | inconclusive | depthLimit | sizeLimit =>
      obtain rfl := Option.some.inj he
      rfl

/-- What an inquiry does to an attempt and to the contribution of the proofs within it. -/
structure Tracks (c : Construction) (p : Progress) (k : Contribution) (o : Outcome α)
    (r : Except ProofError α × (Progress × Contribution)) : Prop where
  result : r.1 = o.result
  memory : r.2.1.session.decided = o.memory
  fits : r.2.1.session.Fits c
  conditions : ∀ x, x ∈ r.2.1.conditions.toList ∨ x ∈ r.2.2.conditions.toList ↔
    (x ∈ p.conditions.toList ∨ x ∈ k.conditions.toList) ∨ x ∈ o.conditions
  normal : ∀ x ∈ r.2.2.conditions.toList, x.normalize = x

section
variable {s : Setting} (hs : Subproof.Realizes c s.subproof sub)
  (hn : ∀ st n m, ∀ x ∈ (sub st n m).conditions, x.normalize = x)
include hs hn

/-- Carrying an inquiry out within an attempt. -/
theorem tracks_run (q : Inquiry α) {p : Progress} (hp : p.session.Fits c) {k : Contribution}
    (hk : ∀ x ∈ k.conditions.toList, x.normalize = x) :
    Tracks c p k (q.exec (fun st n m => (sub st n m).whereNeeded st) p.session.decided)
      (ExceptT.run (q.run (answer s) (fun c => modify fun (p, k) => (p.rely c, k))
        (fun e => modify fun (p, k) => (p.log e, k)) : Nested α) (p, k)) := by
  induction q generalizing p k with
  | done a => exact ⟨rfl, rfl, hp, fun x => (or_iff_left List.not_mem_nil).symm, hk⟩
  | fail e => exact ⟨rfl, rfl, hp, fun x => (or_iff_left List.not_mem_nil).symm, hk⟩
  | ask st n next ih =>
    obtain ⟨hd, hfits, hr⟩ := hs st n p.session hp
    rw [Inquiry.run, run_bind, run_answer, Inquiry.exec, Outcome.andThen]
    revert hd hfits hr
    rcases s.subproof st n p.session with ⟨e | r, σ⟩ <;> intro hd hfits hr
    · obtain ⟨hr, hc, he⟩ := hr
      have result : ((sub st n p.session.decided).whereNeeded st).result = .error e := by
        rw [Outcome.whereNeeded, hr]
        exact congrArg Except.error (he st)
      rw [result]
      refine ⟨rfl, hd, hfits, fun x => ?_, hk⟩
      simp [Outcome.whereNeeded, hc]
    · have contribution : ∀ x, x ∈ (k.add r).conditions.toList ↔
          x ∈ k.conditions.toList ∨ x ∈ (sub st n p.session.decided).conditions := fun x => by
        rw [← hr.conditions]
        exact Conditions.mem_extend fun d hd => hn st n _ d ((hr.conditions d).1 hd)
      have hk' : ∀ x ∈ (k.add r).conditions.toList, x.normalize = x := fun x hx =>
        ((contribution x).1 hx).elim (hk x) (hn st n _ x)
      rw [← answer_of_shows hr st]
      dsimp only
      cases r.answer st with
      | error e =>
        refine ⟨rfl, hd, hfits, fun x => ?_, hk'⟩
        simp only [contribution, Outcome.whereNeeded, or_assoc]
      | ok b =>
        obtain ⟨hr, hd', hf, hc, hk''⟩ := ih b (p := { p with session := σ }) hfits hk'
        rw [hd] at hr hd' hc
        refine ⟨hr, hd', hf, fun x => ?_, hk''⟩
        refine (hc x).trans ?_
        simp only [contribution, Outcome.whereNeeded, List.mem_append, or_assoc]
  | rely cond next ih =>
    obtain ⟨hr, hd, hf, hc, hk'⟩ := ih (p := p.rely cond) hp hk
    refine ⟨hr, hd, hf, fun x => ?_, hk'⟩
    refine (hc x).trans ?_
    simp only [Progress.rely, Conditions.mem_push, Inquiry.exec, List.mem_cons]
    tauto
  | report e next ih =>
    obtain ⟨hr, hd, hf, hc, hk'⟩ := ih (p := p.log e) hp hk
    exact ⟨hr, hd, hf, hc, hk'⟩

/-- An inquiry within an attempt comes to the same as carrying it out. -/
theorem follows_inquire (q : Inquiry Expr) :
    Follows c (fun st n m => (sub st n m).whereNeeded st) (inquire s q) q := by
  intro p hp
  obtain ⟨hr, hd, hf, hc, hk⟩ := tracks_run hs hn q hp (k := .none) (by simp [Contribution.none,
    Conditions.empty])
  rw [run_inquire]
  refine ⟨hr, hd, hf, fun x => ?_⟩
  refine (Conditions.mem_extend hk).trans ((hc x).trans ?_)
  simp [Contribution.none, Conditions.empty]

end

/-- What an attempt writes down leaves alone what its course depends on. -/
theorem Records.untouched {s s' : Setting} {w w' : Progress → Progress} (h : Records s s' w w')
    (p : Progress) : (w p).session.decided = p.session.decided ∧
      (w p).session.collinear = p.session.collinear ∧ (w p).conditions = p.conditions := by
  have recorded : ∀ (p : Progress) (name : String) (e : Expr) (explanation : Option String),
      (p.recordPass s name e explanation).session.decided = p.session.decided ∧
        (p.recordPass s name e explanation).session.collinear = p.session.collinear ∧
        (p.recordPass s name e explanation).conditions = p.conditions := by
    intro p name e explanation
    rw [Progress.recordPass]
    dsimp only
    split <;> exact ⟨rfl, rfl, rfl⟩
  cases h with
  | pass _ e => exact recorded p _ e none
  | elimination e explanation => exact recorded p.countElimination _ e explanation
  | expression index => exact ⟨rfl, rfl, rfl⟩
  | notZero index => exact ⟨rfl, rfl, rfl⟩

/-- Following a course is kept by all that an attempt does. -/
theorem lifting_follows {s : Setting} (hs : Subproof.Realizes c s.subproof sub)
    (hn : ∀ st n m, ∀ x ∈ (sub st n m).conditions, x.normalize = x) :
    Lifting s s fun m _ q => Follows c (fun st n m => (sub st n m).whereNeeded st) m q where
  construction := rfl
  prefixLength := rfl
  pure := follows_pure
  bind hm hf := follows_bind hm hf
  record hw _ _ _ hm :=
    follows_bind (q := pure ()) (g := fun _ => _) (follows_modify hw.untouched) fun _ => hm
  inquire {q} _ := follows_inquire hs hn q
  limit _ size _ _ _ hm := by
    split
    · exact follows_throw_bind _ _
    · exact hm

end Attempt

namespace Session

/-- What is logged changes neither the decisions nor the collinear triples. -/
theorem foldl_log_decided (events : List Event) (s : Session) :
    (events.foldl log s).decided = s.decided ∧ (events.foldl log s).collinear = s.collinear := by
  induction events generalizing s with
  | nil => exact ⟨rfl, rfl⟩
  | cons e events ih => exact ih (s.log e)

/-- The session finds the collinear triples of the construction, and remembers them. -/
theorem findCollinear_of_fits {c : Construction} {s : Session} (h : s.Fits c) :
    (s.findCollinear c).1 = (CollinearSet.search c).1 ∧ (s.findCollinear c).2.Fits c ∧
      (s.findCollinear c).2.decided = s.decided := by
  rw [findCollinear]
  cases hk : s.collinear with
  | some k => exact ⟨h k hk, h, rfl⟩
  | none =>
    refine ⟨rfl, fun k hk => ?_, rfl⟩
    exact (Option.some.inj hk).symm

/-- A decision is noted among those of the session. -/
theorem note_decided (s : Session) (goal : Statement) (holds : Bool) :
    (s.note goal holds).decided = Memory.note s.decided goal.expressions holds ∧
      (s.note goal holds).collinear = s.collinear := by
  have same : s.decision? goal = Memory.decision? s.decided goal.expressions := rfl
  rw [note, Memory.note, same]
  split
  · exact ⟨rfl, rfl⟩
  · exact ⟨rfl, rfl⟩

end Session

namespace Setting

variable {problem : Problem} {prove : Subproof} {sub : Statement → Nat → Memory → Outcome Bool}

/-- An attempt carries out the course of the proof and tells how it ends. -/
theorem exists_attempt (hs : Subproof.Realizes problem.construction prove sub)
    (hn : ∀ st n m, ∀ x ∈ (sub st n m).conditions, x.normalize = x) (n depth : Nat)
    (goal : Statement) {σ : Session} (hσ : σ.Fits problem.construction) :
    let o := (problem.course n goal.expressions).exec (fun s n m => (sub s n m).whereNeeded s)
      σ.decided
    ∃ p : Progress, attempt ⟨problem, n, depth, prove⟩ goal σ =
        conclude ⟨problem, n, depth, prove⟩ goal o.result p ∧
      p.session.decided = o.memory ∧ p.session.Fits problem.construction ∧
      ∀ x, x ∈ p.conditions.toList ↔ x ∈ o.conditions := by
  let s : Setting := ⟨problem, n, depth, prove⟩
  obtain ⟨logged, kept⟩ := Session.foldl_log_decided (introduction s goal) σ
  have fits : (begin s goal σ).session.Fits problem.construction :=
    fun k hk => hσ k (kept.symm.trans hk)
  obtain ⟨found, fits, decided⟩ := Session.findCollinear_of_fits fits
  have found : s.collinear goal σ = (CollinearSet.search problem.construction).1 := found
  have start : (s.started goal σ).session.decided = σ.decided := decided.trans logged
  obtain ⟨result, memory, fits, conditions⟩ := (Attempt.lifting_follows (s := s) hs hn).allVanish
    (CollinearSet.search problem.construction).1 0 goal.expressions (s.started goal σ) fits
  rw [start] at result memory conditions
  refine ⟨_, ?_, memory, fits, fun x => (conditions x).trans (or_iff_right List.not_mem_nil)⟩
  change s.attempt goal σ =
    s.conclude goal ((problem.course n goal.expressions).exec _ σ.decided).result _
  rw [Problem.course, ← result, attempt_eq, found]

/-- Proving a statement is carrying out its course, unless it is remembered or makes no sense. -/
theorem realizes_prove (hs : Subproof.Realizes problem.construction prove sub)
    (hn : ∀ st n m, ∀ x ∈ (sub st n m).conditions, x.normalize = x) (depth : Nat) :
    Subproof.Realizes problem.construction (fun goal n σ =>
        Setting.prove ⟨problem, min n problem.construction.length, depth, prove⟩ goal σ)
      (problem.outcomeBy sub) := by
  intro goal n σ hσ
  rw [Problem.outcomeBy]
  dsimp only
  generalize min n problem.construction.length = n
  have remembered : Memory.decision? σ.decided goal.expressions = σ.decision? goal := rfl
  have same : Setting.fault? ⟨problem, n, 0, fun _ _ s => (.error (.depthLimit 0), s)⟩ goal =
    Setting.fault? ⟨problem, n, depth, prove⟩ goal := rfl
  rw [remembered, same]
  rcases prove_cases ⟨problem, n, depth, prove⟩ goal σ with
    ⟨holds, hd, eq⟩ | ⟨hd, ⟨fault, hf, eq⟩ | ⟨hf, eq⟩⟩ <;> rw [hd, eq]
  · refine ⟨rfl, hσ, ?_, fun e he => ?_, fun x => ?_⟩
    · rintro b hb
      cases hb
      rfl
    · cases he
    · simp [recalled, Conditions.empty]
  · rw [hf]
    exact ⟨rfl, hσ, rfl, rfl, fun _ => rfl⟩
  · rw [hf]
    obtain ⟨p, concluded, memory, fits, conditions⟩ := exists_attempt hs hn n depth goal hσ
    dsimp only
    rw [concluded]
    revert memory conditions
    generalize (problem.course n goal.expressions).exec _ σ.decided = o
    intro memory conditions
    cases hr : o.result with
    | ok b =>
      obtain ⟨noted, collinear⟩ := Session.note_decided p.session goal b
      refine ⟨noted.trans (by rw [memory]), fun k hk => fits k (collinear.symm.trans hk), ?_, ?_,
        conditions⟩
      · rintro b' hb
        cases hb
        rfl
      · rintro e he
        cases he
    | error e =>
      rcases conclude_error ⟨problem, n, depth, prove⟩ goal e p with
        ⟨he, eq⟩ | ⟨reason, he, eq⟩ <;> rw [eq] <;> dsimp only <;> rw [he]
      · refine ⟨memory, fits, rfl, rfl, fun needed => ?_⟩
        cases e with
        | invalidStatement | invalidConstruction => rfl
        | inconclusive | depthLimit | sizeLimit => cases he
      · refine ⟨memory, fits, ?_, ?_, conditions⟩
        · rintro b hb
          cases hb
        · rintro e' he'
          cases he'
          exact ⟨rfl, reason, rfl, he⟩

end Setting

namespace Problem

variable (problem : Problem)

/-- Only normal forms of conditions are collected. -/
theorem outcome_normal (nesting : Nat) (goal : Statement) (n : Nat) (m : Memory) :
    ∀ x ∈ (problem.outcome nesting goal n m).conditions, x.normalize = x := by
  have step : ∀ sub : Statement → Nat → Memory → Outcome Bool,
      (∀ s n m, ∀ x ∈ (sub s n m).conditions, x.normalize = x) → ∀ goal n m,
      ∀ x ∈ (problem.outcomeBy sub goal n m).conditions, x.normalize = x := by
    intro sub hn goal n m x hx
    have normal := Inquiry.exec_normal
      (show ∀ s n m, ∀ x ∈ ((sub s n m).whereNeeded s).conditions, x.normalize = x from hn)
      (problem.course (min n problem.construction.length) goal.expressions) m x
    rw [outcomeBy] at hx
    dsimp only at hx
    split at hx
    · cases hx
    · split at hx
      · cases hx
      · split at hx
        · exact normal hx
        · dsimp only at hx
          split at hx
          · exact normal hx
          · cases hx
  induction nesting generalizing goal n m with
  | zero => exact step _ (by simp) goal n m
  | succ nesting ih => exact step _ ih goal n m

/-- The proofs of needed statements collect conditions in normal form. -/
theorem suboutcome_normal (nesting : Nat) (goal : Statement) (n : Nat) (m : Memory) :
    ∀ x ∈ (problem.suboutcome nesting goal n m).conditions, x.normalize = x := by
  cases nesting with
  | zero => simp [suboutcome]
  | succ nesting => exact problem.outcome_normal nesting goal n m

/-- However deeply proofs are nested, needed statements and the statement itself are decided as by
`suboutcome` and `outcome`. -/
theorem realizes_nested (nesting depth : Nat) :
    Subproof.Realizes problem.construction (problem.subproof nesting depth)
        (problem.suboutcome nesting) ∧
      Subproof.Realizes problem.construction (problem.proveNested nesting depth)
        (problem.suboutcome (nesting + 1)) := by
  refine problem.proveNested_induction (P := fun nesting prove =>
    Subproof.Realizes problem.construction prove (problem.suboutcome nesting)) ?_ ?_ nesting depth
  · exact fun s n σ hσ => ⟨rfl, hσ, rfl, rfl, fun _ => rfl⟩
  · intro nesting depth prove realizes
    rw [suboutcome, outcome_eq]
    exact Setting.realizes_prove realizes (problem.suboutcome_normal nesting) depth

/-- The prover comes to the same as `outcome`. -/
theorem realizes_proveNested (nesting depth : Nat) :
    Subproof.Realizes problem.construction (problem.proveNested nesting depth)
      (problem.outcome nesting) :=
  (problem.realizes_nested nesting depth).2

/-- Proofs within a proof come to the same as `suboutcome`. -/
theorem realizes_subproof (nesting depth : Nat) :
    Subproof.Realizes problem.construction (problem.subproof nesting depth)
      (problem.suboutcome nesting) :=
  (problem.realizes_nested nesting depth).1

end Problem

end AreaMethod
