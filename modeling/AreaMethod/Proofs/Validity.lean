import AreaMethod.Proofs.Scope

/-!
# Which proofs fail

A proof fails, other than by ending without a decision, if and only if its statement makes no sense:
it has no expressions or mentions a point that is not constructed (`Problem.prove_fails_iff`). Then
nothing is remembered of it. Statements that are remembered make sense (`Memory.Sensible`), so it
does not matter that they are looked up before anything is checked; and what is asked in the course
of a proof makes sense, so no proof within another one fails.
-/

namespace AreaMethod

/-! ## Statements that say the same -/

/-- The points of a statement do not depend on how it is written. -/
theorem Statement.points_eq_of_same {s t : Statement}
    (h : Expr.sameList s.expressions t.expressions = true) : s.points = t.points := by
  have spelled : ∀ s : Statement, s.points = ascending
      ((s.expressions.map Expr.reduced).flatMap fun e => e.atomList.flatMap Atom.points) := by
    intro s
    rw [points, List.flatMap_map]
    simp only [Expr.atomList_reduced]
  rw [spelled, spelled, Expr.sameList_iff.1 h]

/-- Whether a statement makes sense does not depend on how it is written. -/
theorem Construction.Covers.of_same {c : Construction} {s t : Statement} {n : Nat}
    (h : c.Covers s n) (same : Expr.sameList s.expressions t.expressions = true) :
    c.Covers t n where
  nonempty ht := by
    have := Expr.sameList_iff.1 same
    rw [ht, List.map_nil, List.map_eq_nil_iff] at this
    exact h.nonempty this
  points := Statement.points_eq_of_same same ▸ h.points

/-- A statement that makes sense over some steps does so over more. -/
theorem Construction.Covers.mono {c : Construction} {s : Statement} {m n : Nat} (h : c.Covers s m)
    (hmn : (c.steps.take m) <+: (c.steps.take n)) : c.Covers s n where
  nonempty := h.nonempty
  points p hp := containsBefore_iff.2 ((containsBefore_iff.1 (h.points p hp)).mono hmn)

/-- There are no steps beyond those of the construction. -/
theorem Construction.covers_min_iff {c : Construction} {s : Statement} {n : Nat} :
    c.Covers s (min n c.length) ↔ c.Covers s n := by
  have same : c.steps.take (min n c.length) = c.steps.take n := by
    rw [← List.take_take, length, List.take_length]
  exact ⟨fun h => h.mono (same ▸ List.prefix_refl _), fun h => h.mono (same ▸ List.prefix_refl _)⟩

/-- A statement makes sense over the whole construction if it has expressions, all of whose points
are constructed. -/
theorem Construction.covers_length_iff {c : Construction} {s : Statement} :
    c.Covers s c.length ↔ s.expressions ≠ [] ∧ ∀ p ∈ s.points, c.contains p = true := by
  have whole : ∀ p, c.containsBefore p c.length = true ↔ c.contains p = true := fun p => by
    rw [containsBefore_iff, contains_iff, length, List.take_length]
  exact ⟨fun h => ⟨h.nonempty, fun p hp => (whole p).1 (h.points p hp)⟩,
    fun h => ⟨h.1, fun p hp => (whole p).2 (h.2 p hp)⟩⟩

/-! ## What proving a statement comes to -/

namespace Inquiry

variable {sub : Statement → Nat → Memory → Outcome Bool}

/-- What deciding statements keeps of the memory is kept by an inquiry. -/
theorem exec_memory {P : Memory → Prop} (hsub : ∀ s n m, P m → P (sub s n m).memory)
    (q : Inquiry α) {m : Memory} (hm : P m) : P (q.exec sub m).memory := by
  induction q generalizing m with
  | done a => exact hm
  | fail e => exact hm
  | ask s n next ih =>
    rw [exec, Outcome.andThen]
    split
    · exact ih _ (hsub s n m hm)
    · exact hsub s n m hm
  | rely c next ih => exact ih hm
  | report e next ih => exact ih hm

/-- An inquiry goes wrong only where it may, or where deciding a statement does. -/
theorem exec_error {asked : Statement → Nat → Prop} {failed : ProofError → Prop}
    (hsub : ∀ s n m e, asked s n → (sub s n m).result = .error e → failed e) {q : Inquiry α}
    (hq : q.Only asked failed) {m : Memory} {e : ProofError}
    (h : (q.exec sub m).result = .error e) : failed e := by
  induction q generalizing m with
  | done a => cases h
  | fail f =>
    cases h
    exact hq
  | ask s n next ih =>
    rw [exec, Outcome.andThen] at h
    split at h
    · exact ih _ (hq.2 _) h
    next f hf =>
      cases h
      exact hsub s n m e hq.1 hf
  | rely c next ih => exact ih hq h
  | report f next ih => exact ih hq.2 h

/-- An inquiry that ends with a result leads to it. Questions are answered as statements are
decided, given what is kept of the memory. -/
theorem leads_of_exec {asked : Statement → Nat → Prop} {failed : ProofError → Prop}
    {P : Memory → Prop} {answers : Statement → Nat → Bool → Prop} {relies : Condition → Prop}
    (hP : ∀ s n m, P m → P (sub s n m).memory)
    (hsub : ∀ s n m b, asked s n → P m → (sub s n m).result = .ok b → answers s n b)
    {q : Inquiry α} (hq : q.Only asked failed) {m : Memory} (hm : P m) {a : α}
    (h : (q.exec sub m).result = .ok a)
    (hr : ∀ c : Condition, c.normalize ∈ (q.exec sub m).conditions → relies c) :
    q.Leads answers relies a := by
  induction q generalizing m with
  | done b => exact Except.ok.inj h
  | fail e => cases h
  | ask s n next ih =>
    rw [exec, Outcome.andThen] at h hr
    split at h
    next b hb =>
      rw [hb] at hr
      exact ⟨b, hsub s n m b hq.1 hm hb, ih b (hq.2 b) (hP s n m hm) h
        fun c hc => hr c (List.mem_append_right _ hc)⟩
    next => cases h
  | rely c next ih =>
    exact ⟨hr c List.mem_cons_self, ih hq hm h fun d hd => hr d (List.mem_cons_of_mem _ hd)⟩
  | report e next ih => exact ih hq.2 hm h hr

end Inquiry

namespace Problem

variable {problem : Problem}

/-- A statement is remembered, or makes no sense, or is decided by carrying out its course, or the
course goes wrong. -/
theorem outcomeBy_cases (problem : Problem) (sub : Statement → Nat → Memory → Outcome Bool)
    (goal : Statement) (n : Nat) (m : Memory) :
    (∃ holds, Memory.decision? m goal.expressions = some holds ∧
      problem.outcomeBy sub goal n m = ⟨.ok holds, [], m⟩) ∨
    Memory.decision? m goal.expressions = none ∧
      (¬problem.construction.Covers goal n ∧
        (∃ fault, problem.outcomeBy sub goal n m = ⟨.error (.invalidStatement fault), [], m⟩) ∨
      problem.construction.Covers goal n ∧
        let o := (problem.course (min n problem.construction.length) goal.expressions).exec
          (fun s n m => (sub s n m).whereNeeded s) m
        (∃ holds, o.result = .ok holds ∧ problem.outcomeBy sub goal n m =
          ⟨.ok holds, o.conditions, Memory.note o.memory goal.expressions holds⟩) ∨
        ∃ e, o.result = .error e ∧ problem.outcomeBy sub goal n m =
          ⟨.error e, if e.unknownReason?.isSome then o.conditions else [], o.memory⟩) := by
  rw [outcomeBy]
  dsimp only
  cases hd : Memory.decision? m goal.expressions with
  | some holds => exact .inl ⟨holds, rfl, rfl⟩
  | none =>
    refine .inr ⟨rfl, ?_⟩
    dsimp only
    rw [← Construction.covers_min_iff (n := n)]
    cases hf : Setting.fault? ⟨problem, min n problem.construction.length, 0, _⟩ goal with
    | some fault =>
      refine .inl ⟨fun covered => ?_, fault, rfl⟩
      rw [Setting.fault?_eq_none_iff.2 covered] at hf
      cases hf
    | none =>
      refine .inr ⟨Setting.fault?_eq_none_iff.1 hf, ?_⟩
      dsimp only
      cases hr : ((problem.course (min n problem.construction.length) goal.expressions).exec
          (fun s n m => (sub s n m).whereNeeded s) m).result with
      | ok holds => exact .inl ⟨holds, rfl, rfl⟩
      | error e => exact .inr ⟨e, rfl, rfl⟩

/-- What is kept of the memory if every statement that makes sense may be noted is kept however
deeply proofs are nested. -/
theorem outcome_memory {P : Memory → Prop}
    (note : ∀ m goal holds, problem.construction.Covers goal problem.construction.length → P m →
      P (Memory.note m goal.expressions holds))
    (nesting : Nat) (goal : Statement) (n : Nat) {m : Memory} (hm : P m) :
    P (problem.outcome nesting goal n m).memory := by
  have step : ∀ sub : Statement → Nat → Memory → Outcome Bool,
      (∀ s n m, P m → P (sub s n m).memory) → ∀ goal n m, P m →
      P (problem.outcomeBy sub goal n m).memory := by
    intro sub hsub goal n m hm
    have kept : P ((problem.course (min n problem.construction.length) goal.expressions).exec
        (fun s n m => (sub s n m).whereNeeded s) m).memory := by
      refine Inquiry.exec_memory ?_ _ hm
      exact hsub
    rcases problem.outcomeBy_cases sub goal n m with ⟨holds, -, eq⟩ |
      ⟨-, ⟨-, fault, eq⟩ | ⟨covered, ⟨holds, -, eq⟩ | ⟨e, -, eq⟩⟩⟩ <;> rw [eq]
    · exact hm
    · exact hm
    · refine note _ goal holds (covered.mono ?_) kept
      rw [Construction.length, List.take_length]
      exact List.take_prefix n _
    · exact kept
  induction nesting generalizing goal n m with
  | zero => exact step _ (fun _ _ _ h => h) goal n m hm
  | succ nesting ih => exact step _ (fun s n m => ih s n) goal n m hm

/-- A proof goes wrong only where its course may, or where the proof of a needed statement does. -/
theorem outcomeBy_error {asked : Statement → Nat → Prop} {failed : ProofError → Prop}
    {sub : Statement → Nat → Memory → Outcome Bool}
    (hsub : ∀ s n m e, asked s n → (sub s n m).result = .error e → failed (e.whereNeeded s))
    {goal : Statement} {n : Nat} (covered : problem.construction.Covers goal n)
    (only : (problem.course (min n problem.construction.length) goal.expressions).Only asked failed)
    {m : Memory} {e : ProofError} (he : (problem.outcomeBy sub goal n m).result = .error e) :
    failed e := by
  have needed : ∀ s n m e, asked s n → ((sub s n m).whereNeeded s).result = .error e →
      failed e := by
    intro s n m e hs he
    rw [Outcome.whereNeeded] at he
    cases hr : (sub s n m).result with
    | ok b => simp [hr, Except.mapError] at he
    | error f =>
      simp only [hr, Except.mapError, Except.error.injEq] at he
      exact he ▸ hsub s n m f hs hr
  rcases problem.outcomeBy_cases sub goal n m with ⟨holds, -, eq⟩ |
    ⟨-, ⟨uncovered, -⟩ | ⟨-, ⟨holds, -, eq⟩ | ⟨f, hf, eq⟩⟩⟩
  · rw [eq] at he
    cases he
  · exact absurd covered uncovered
  · rw [eq] at he
    cases he
  · rw [eq] at he
    cases he
    exact Inquiry.exec_error needed only hf

/-- If whatever may be asked leads only to what may be asked and goes wrong only where it may, then
so do proofs, however deeply they are nested. -/
theorem suboutcome_error (asked : Statement → Nat → Prop) {failed : ProofError → Prop}
    (covered : ∀ s n, asked s n → problem.construction.Covers s n)
    (only : ∀ s n, asked s n →
      (problem.course (min n problem.construction.length) s.expressions).Only asked failed)
    (needed : ∀ s n e, asked s n → failed e → failed (e.whereNeeded s))
    (depth : failed (.depthLimit problem.config.maxSubproofDepth)) (nesting : Nat) :
    ∀ s n m e, asked s n → (problem.suboutcome nesting s n m).result = .error e →
      failed (e.whereNeeded s) := by
  induction nesting with
  | zero =>
    rintro s n m e hs ⟨⟩
    exact depth
  | succ nesting ih =>
    intro s n m e hs he
    rw [suboutcome, outcome_eq] at he
    exact needed s n e hs (outcomeBy_error ih (covered s n hs) (only s n hs) he)

/-- A proof of a statement that makes sense ends with a decision, or because a limit is met or
something cannot be decided. -/
theorem outcome_error (hc : Grounded problem.construction.steps) {nesting : Nat} {goal : Statement}
    {n : Nat} (h : problem.construction.Covers goal n) {m : Memory} {e : ProofError}
    (he : (problem.outcome nesting goal n m).result = .error e) :
    e.unknownReason?.isSome = true := by
  have only : ∀ s n, problem.construction.Covers s n →
      (problem.course (min n problem.construction.length) s.expressions).Only
        problem.construction.Covers fun e => e.unknownReason?.isSome = true := fun s n hs =>
    problem.only_course hc (Construction.covers_min_iff.2 hs)
  rw [outcome_eq] at he
  refine outcomeBy_error (suboutcome_error _ (fun _ _ hs => hs) only (fun s n e _ he => ?_) rfl
    nesting) h (only goal n h) he
  cases e with
  | inconclusive => rfl
  | invalidStatement | invalidConstruction | depthLimit | sizeLimit => exact he

end Problem

/-! ## Sessions that proofs lead to -/

/-- Do all remembered statements make sense? -/
def Memory.Sensible (c : Construction) (m : Memory) : Prop :=
  ∀ entry ∈ m, ∀ name, c.Covers ⟨name, entry.1⟩ c.length

namespace Memory

variable {c : Construction} {m : Memory}

/-- Noting a statement that makes sense keeps all remembered ones so. -/
theorem Sensible.note (h : Sensible c m) {goal : Statement} (hg : c.Covers goal c.length)
    (holds : Bool) : Sensible c (note m goal.expressions holds) := by
  rw [Memory.note]
  split
  · intro entry he name
    obtain ⟨old, ho, rfl⟩ := List.mem_map.1 he
    split
    · exact h old ho name
    · exact h old ho name
  · rw [Sensible, List.forall_mem_append]
    exact ⟨h, by simpa using fun name => ⟨hg.nonempty, hg.points⟩⟩

/-- A statement that is remembered makes sense. -/
theorem Sensible.covers (h : Sensible c m) {goal : Statement} {holds : Bool}
    (hd : decision? m goal.expressions = some holds) : c.Covers goal c.length := by
  obtain ⟨entry, found, -⟩ := Option.map_eq_some_iff.1 hd
  have same : Expr.sameList entry.1 goal.expressions = true := by simpa using List.find?_some found
  exact (h entry (List.mem_of_find?_eq_some found) goal.name).of_same same

end Memory

namespace Problem

/-- The sessions that proofs lead to, from a new one: of any statements, over any number of steps of
the construction, nested anyhow. -/
inductive Reached (problem : Problem) : Session → Prop
  | start : Reached problem .start
  | proveAt (n depth : Nat) (goal : Statement) {σ : Session} (h : Reached problem σ) :
    Reached problem (problem.proveAt n depth goal σ).2

variable {problem : Problem}

/-- The collinear triples that a session has found are those of the construction. -/
theorem Reached.fits {σ : Session} (h : problem.Reached σ) : σ.Fits problem.construction := by
  induction h with
  | start => exact fun k hk => by cases hk
  | proveAt n depth goal _ ih => exact (problem.realizes_proveNested _ depth goal n _ ih).2.1

/-- What holds of the empty memory and is kept by every proof holds of what is remembered. -/
theorem Reached.memory {P : Memory → Prop} (start : P [])
    (step : ∀ nesting goal n m, P m → P (problem.outcome nesting goal n m).memory) {σ : Session}
    (h : problem.Reached σ) : P σ.decided := by
  induction h with
  | start => exact start
  | proveAt n depth goal h ih =>
    rw [Problem.proveAt, (problem.realizes_proveNested _ depth goal n _ h.fits).1]
    exact step _ _ _ _ ih

/-- All statements that a session remembers make sense. -/
theorem Reached.sensible {σ : Session} (h : problem.Reached σ) :
    Memory.Sensible problem.construction σ.decided :=
  h.memory (fun _ h => by cases h) fun nesting goal n m =>
    outcome_memory (fun _ _ holds covered hm => hm.note covered holds) nesting goal n

/-- No proof of a statement that makes sense fails, however deeply it is nested. -/
theorem proveNested_of_covers (hc : Grounded problem.construction.steps) {σ : Session}
    (hσ : σ.Fits problem.construction) {goal : Statement} {n : Nat}
    (h : problem.construction.Covers goal n) (nesting depth : Nat) :
    ∃ r, (problem.proveNested nesting depth goal n σ).1 = .ok r := by
  obtain ⟨-, -, hr⟩ := problem.realizes_proveNested nesting depth goal n σ hσ
  revert hr
  cases hr : (problem.proveNested nesting depth goal n σ).1 with
  | ok r => exact fun _ => ⟨r, rfl⟩
  | error e =>
    rintro ⟨he, -⟩
    rw [proveNested_eq] at hr
    have known := Setting.unknownReason?_of_prove hr
    have := outcome_error hc h he
    rw [known] at this
    cases this

/-- A statement that makes no sense is not remembered, and is not attempted either. -/
theorem prove_of_not_covers {σ : Session}
    (sensible : Memory.Sensible problem.construction σ.decided) {goal : Statement}
    (h : ¬problem.construction.Covers goal problem.construction.length) :
    ∃ fault, problem.prove goal σ = (.error (.invalidStatement fault), σ) := by
  rw [prove, proveAt, proveNested_eq, Setting.prove, min_self]
  cases hd : σ.decision? goal with
  | some holds => exact absurd (sensible.covers hd) h
  | none =>
    cases hf : Setting.fault? ⟨problem, problem.construction.length, 0, _⟩ goal with
    | some fault => exact ⟨fault, rfl⟩
    | none => exact absurd (Setting.fault?_eq_none_iff.1 hf) h

/-- Over a construction that is built, in any session that proofs lead to, a proof fails if and only
if its statement has no expressions or mentions a point that is not constructed. Then that is the
error, and the session stays as it was. No proof within a proof fails: whatever is asked in the
course of a proof makes sense over the steps it is asked about, no proof of such a statement fails,
and eliminating a constructed point never finds it missing. -/
theorem prove_fails_iff (hc : problem.construction.Built) {σ : Session} (hσ : problem.Reached σ)
    (goal : Statement) :
    ((∃ e, (problem.prove goal σ).1 = .error e) ↔
      goal.expressions = [] ∨ ∃ p ∈ goal.points, problem.construction.contains p = false) ∧
    (∀ e, (problem.prove goal σ).1 = .error e →
      (∃ fault, e = .invalidStatement fault) ∧ (problem.prove goal σ).2 = σ) ∧
    (∀ needed n, problem.construction.Covers needed n →
      (∀ nesting depth, ∃ r, (problem.proveNested nesting depth needed n σ).1 = .ok r) ∧
      (problem.course n needed.expressions).Only problem.construction.Covers
        fun e => e.unknownReason?.isSome = true) ∧
    ∀ k y e, problem.construction.contains y = true →
      (∀ p ∈ e.points, problem.construction.contains p = true) →
      (problem.construction.eliminate k y e).Only problem.construction.Covers fun _ => False := by
  have grounded := hc.grounded
  have covered := Construction.covers_length_iff (c := problem.construction) (s := goal)
  have sensible : problem.construction.Covers goal problem.construction.length →
      ∃ r, (problem.prove goal σ).1 = .ok r := fun h =>
    proveNested_of_covers grounded hσ.fits h _ 0
  have senseless : ¬problem.construction.Covers goal problem.construction.length →
      ∃ fault, problem.prove goal σ = (.error (.invalidStatement fault), σ) := fun h =>
    prove_of_not_covers hσ.sensible h
  have invalid : (goal.expressions = [] ∨ ∃ p ∈ goal.points,
      problem.construction.contains p = false) ↔
      ¬problem.construction.Covers goal problem.construction.length := by
    rw [covered]
    simp only [not_and_or, not_not, not_forall, Bool.not_eq_true, exists_prop]
  refine ⟨?_, fun e he => ?_, fun needed n h => ⟨?_, only_course grounded h⟩,
    fun k y e hy he => ?_⟩
  · rw [invalid]
    constructor
    · rintro ⟨e, he⟩ h
      obtain ⟨r, hr⟩ := sensible h
      cases he.symm.trans hr
    · intro h
      obtain ⟨fault, hf⟩ := senseless h
      exact ⟨_, congrArg Prod.fst hf⟩
  · obtain ⟨fault, hf⟩ := senseless fun h => by
      obtain ⟨r, hr⟩ := sensible h
      cases he.symm.trans hr
    rw [hf] at he ⊢
    cases he
    exact ⟨⟨fault, rfl⟩, rfl⟩
  · exact proveNested_of_covers grounded hσ.fits h
  · refine Construction.only_eliminate_of_madeBy grounded k (Construction.contains_iff.1 hy)
      (Shape.within_ofAtoms_iff.2 fun a ha p hp => Construction.contains_iff.1 (he p ?_))
    rw [Expr.points, mem_ascending]
    exact List.mem_flatMap.2 ⟨a, ha, hp⟩

/-- Two free points. -/
def twoPoints : Problem := ⟨.after [.free "A", .free "B"], .standard⟩

/-- After another proof, a statement on a third point fails. -/
theorem prove_fails_on_missing_point :
    ∃ fault, (twoPoints.prove (.collinear ⟨0⟩ ⟨1⟩ ⟨2⟩)
      (twoPoints.prove (.collinear ⟨0⟩ ⟨0⟩ ⟨1⟩) .start).2).1 =
        .error (.invalidStatement fault) := by
  have built : twoPoints.construction.Built := Construction.built_after _
  obtain ⟨fails, error, -⟩ := prove_fails_iff built
    (.proveAt twoPoints.construction.length 0 (.collinear ⟨0⟩ ⟨0⟩ ⟨1⟩) .start)
    (.collinear ⟨0⟩ ⟨1⟩ ⟨2⟩)
  have missing : twoPoints.construction.contains ⟨2⟩ = false := by cbv
  obtain ⟨e, he⟩ := fails.2 (.inr ⟨⟨2⟩, by
    simp [Statement.points, Statement.collinear, Statement.zero, Expr.area, Expr.atomList,
      Atom.points, mem_ascending], missing⟩)
  obtain ⟨⟨fault, rfl⟩, -⟩ := error e he
  exact ⟨fault, he⟩

end Problem

end AreaMethod
