import AreaMethod.Proofs.Location
import AreaMethod.Proofs.Walk

/-!
# Counting eliminations

Eliminations are counted twice: by the session, which all proofs share, and by each attempt, which
adds up what the proofs within it report. Besides, every elimination is logged, at whatever depth it
is made. The three stay in step: what an attempt adds to its own count is what its session counts
and logs meanwhile (`Ledger.Grows`). This is kept by each part of an attempt (`Accounts`), also by
one that fails, unless the failure is the fault of a statement or of the construction and there is
no report at all.

So a report tells how many eliminations its proof made, however it ended
(`Problem.proveAt_counts_eliminations`).
-/

namespace AreaMethod

/-! ## Sessions -/

/-- Has a point been eliminated? -/
def Event.isElimination : Event → Bool
  | pass name .. => name == "eliminate"
  | _ => false

/-- From one session to a later one so many eliminations are counted, and as many are logged. -/
structure Session.Eliminates (σ : Session) (n : Nat) (τ : Session) : Prop where
  counted : τ.eliminations = σ.eliminations + n
  logged : ∃ events, τ.latest = events ++ σ.latest ∧ events.countP Event.isElimination = n

namespace Session

/-- Where nothing happens, nothing is eliminated. -/
theorem Eliminates.refl (σ : Session) : σ.Eliminates 0 σ := ⟨rfl, [], rfl, rfl⟩

/-- Eliminations add up. -/
theorem Eliminates.trans {σ τ υ : Session} {m n : Nat} (h : σ.Eliminates m τ)
    (h' : τ.Eliminates n υ) : σ.Eliminates (m + n) υ := by
  obtain ⟨earlier, he, rfl⟩ := h.logged
  obtain ⟨later, hl, rfl⟩ := h'.logged
  refine ⟨?_, later ++ earlier, ?_, ?_⟩
  · rw [h'.counted, h.counted, Nat.add_assoc]
  · rw [hl, he, List.append_assoc]
  · rw [List.countP_append, Nat.add_comm]

/-- An event that is no elimination counts for none. -/
theorem eliminates_log (σ : Session) {e : Event} (h : e.isElimination = false) :
    σ.Eliminates 0 (σ.log e) :=
  ⟨rfl, [e], rfl, by simp [h]⟩

/-- Events that are no eliminations count for none. -/
theorem eliminates_foldl_log (σ : Session) {events : List Event}
    (h : ∀ e ∈ events, e.isElimination = false) : σ.Eliminates 0 (events.foldl log σ) := by
  induction events generalizing σ with
  | nil => exact .refl σ
  | cons e events ih =>
    rw [List.forall_mem_cons] at h
    exact (σ.eliminates_log h.1).trans (ih (σ.log e) h.2)

/-- Remembering a decision eliminates nothing. -/
theorem eliminates_note (σ : Session) (goal : Statement) (holds : Bool) :
    σ.Eliminates 0 (σ.note goal holds) := by
  rw [note]
  split
  · exact ⟨rfl, [], rfl, rfl⟩
  · exact ⟨rfl, [_], rfl, rfl⟩

/-- Finding the collinear triples eliminates nothing. -/
theorem eliminates_findCollinear (σ : Session) (c : Construction) :
    σ.Eliminates 0 (σ.findCollinear c).2 := by
  rw [findCollinear]
  split
  · exact .refl σ
  · exact ⟨rfl, [_], rfl, rfl⟩

/-- One elimination, counted and then logged. -/
theorem eliminates_countElimination_log (σ : Session) {e : Event} (h : e.isElimination = true) :
    σ.Eliminates 1 (σ.countElimination.log e) :=
  ⟨rfl, [e], rfl, by simp [h]⟩

end Session

/-! ## Inquiries -/

/-- The inquiry reports no eliminations. -/
def Inquiry.Quiet (q : Inquiry α) : Prop :=
  q.Only (fun _ _ => True) (fun _ => True) fun e => e.isElimination = false

/-- Eliminating a point from an expression asks whether points lie on a line, and reports that. -/
theorem Target.quiet_eliminate (t : Target) (e : Expr) : (t.eliminate e).Quiet := by
  refine only_eliminate (D := fun _ => True) (S := fun _ => True) (C := fun _ => True)
    (fun x _ => ?_) (Shape.within_ofAtoms_iff.2 fun a _ =>
      Atom.located_of_forall_mem fun _ _ => ⟨trivial, trivial⟩)
  rw [onLine]
  split
  · exact trivial
  · exact ⟨rfl, trivial, fun _ => trivial⟩

/-- Nothing more is reported of a point that cannot be eliminated. -/
theorem Construction.quiet_eliminate (c : Construction) (k : CollinearSet) (y : Point) (e : Expr) :
    (c.eliminate k y e).Quiet := by
  rw [eliminate]
  split
  · split
    · exact trivial
    · split
      · refine Inquiry.only_bind (Target.quiet_eliminate _ e) fun _ _ => ?_
        split
        · exact trivial
        · exact trivial
      · exact trivial
  · exact trivial

/-- Writing an expression in coordinates reports a derived point that is left. -/
theorem Expr.quiet_inCoordinates (c : Construction) (e : Expr) : (e.inCoordinates c).Quiet := by
  refine only_mapAtomsM (p := fun _ => True) (fun a _ => ?_)
    (Shape.within_ofAtoms_iff.2 fun _ _ => trivial)
  rw [Atom.inCoordinates.eq_def]
  split
  · exact trivial
  · split
    · exact ⟨rfl, trivial⟩
    · split
      · refine Inquiry.only_bind (q := .ask _ _ .done) ⟨trivial, fun _ => trivial⟩ fun b _ => ?_
        cases b with
        | true => exact trivial
        | false => exact trivial
      · exact trivial

/-- No inquiry of an attempt reports an elimination. -/
theorem Attempt.Asks.quiet {c : Construction} {q : Inquiry Expr} (h : Asks c q) : q.Quiet := by
  cases h with
  | elimination k y e => exact c.quiet_eliminate k y e
  | coordinates e => exact e.quiet_inCoordinates c

/-! ## Keeping accounts -/

/-- A count of eliminations, beside the session in which they are made. -/
structure Ledger where
  total : Nat
  session : Session

/-- By as much as the count has grown, the session has counted and logged. -/
def Ledger.Grows (s t : Ledger) : Prop :=
  ∃ n, t.total = s.total + n ∧ s.session.Eliminates n t.session

/-- Growth adds up. -/
theorem Ledger.Grows.trans {s t u : Ledger} (h : s.Grows t) (h' : t.Grows u) : s.Grows u := by
  obtain ⟨m, hm, hs⟩ := h
  obtain ⟨n, hn, ht⟩ := h'
  exact ⟨m + n, by rw [hn, hm, Nat.add_assoc], hs.trans ht⟩

/-- What stays as it is grows by nothing. -/
theorem Ledger.Grows.refl (s : Ledger) : s.Grows s := ⟨0, rfl, .refl s.session⟩

/-- The result is one that a report can be made of. -/
def IsReportable (result : Except ProofError α) : Prop :=
  ∀ e, result = .error e → e.unknownReason?.isSome = true

/-- What a computation adds to the count of its state is what the session counts and logs, unless it
fails without a reason that a report could give. -/
def Accounts (ledger : σ → Ledger) (m : ExceptT ProofError (StateM σ) α) : Prop :=
  ∀ s, IsReportable (m.run s).1 → (ledger s).Grows (ledger (m.run s).2)

section
variable {σ α β : Type} {ledger : σ → Ledger}

/-- Doing nothing keeps accounts. -/
theorem accounts_pure (a : α) : Accounts ledger (pure a) := fun _ _ => .refl _

/-- Failing keeps accounts. -/
theorem accounts_throw (e : ProofError) :
    Accounts ledger (throw e : ExceptT ProofError (StateM σ) α) := fun _ _ => .refl _

/-- A change of the state keeps accounts if the state grows by it. -/
theorem accounts_modify {f : σ → σ} (h : ∀ s, (ledger s).Grows (ledger (f s))) :
    Accounts ledger (modify f) := fun s _ => h s

/-- One operation after another keeps accounts if both do, also where the first one fails. -/
theorem accounts_bind {m : ExceptT ProofError (StateM σ) α}
    {f : α → ExceptT ProofError (StateM σ) β} (hm : Accounts ledger m)
    (hf : ∀ a, Accounts ledger (f a)) : Accounts ledger (m >>= f) := by
  intro s reportable
  have hm := hm s
  rw [run_bind] at reportable ⊢
  revert hm reportable
  rcases m.run s with ⟨e | a, s'⟩ <;> intro reportable hm
  · exact hm fun e' he' => reportable e' (congrArg Except.error (Except.error.inj he'))
  · have hm := hm fun e he => by cases he
    exact hm.trans (hf a s' reportable)

/-- A limit that is met leaves everything as it is. -/
theorem accounts_limit {m : ExceptT ProofError (StateM σ) α} (hm : Accounts ledger m)
    (size limit : Nat) :
    Accounts ledger
      (if size > limit then throw (.sizeLimit size limit) >>= fun (_ : Unit) => m else m) := by
  split
  · exact accounts_bind (accounts_throw _) fun _ => hm
  · exact hm

end

/-- The number of eliminations of an attempt. -/
def Progress.ledger (p : Progress) : Ledger := ⟨p.eliminations, p.session⟩

/-- The number of eliminations of an attempt and of the proofs that it has not absorbed yet. -/
def nestedLedger (x : Progress × Contribution) : Ledger :=
  ⟨x.1.eliminations + x.2.eliminations, x.1.session⟩

/-- What a report tells of the number of eliminations is what the session has counted and logged. A
proof that is refused because of the depth makes none. -/
def Subproof.Accounts (prove : Subproof) : Prop :=
  ∀ goal n σ, match (prove goal n σ).1 with
    | .ok r => σ.Eliminates r.eliminations (prove goal n σ).2
    | .error e => e.unknownReason?.isSome = true → σ.Eliminates 0 (prove goal n σ).2

/-! ## Attempts -/

namespace Attempt

variable {s : Setting}

/-- Recording a pass logs it, and counts nothing. -/
theorem ledger_recordPass (p : Progress) (name : String) (e : Expr) (explanation : Option String) :
    ∃ size depth text, (p.recordPass s name e explanation).ledger =
      ⟨p.eliminations, p.session.log (.pass name size depth text)⟩ := by
  rw [Progress.recordPass]
  dsimp only
  split
  · exact ⟨_, _, _, rfl⟩
  · exact ⟨_, _, _, rfl⟩

/-- What an attempt writes down keeps the count and the log in step. They differ for a moment only:
an elimination is counted and then logged. -/
theorem Records.grows {s' : Setting} {w w' : Progress → Progress} (h : Records s s' w w')
    (p : Progress) : p.ledger.Grows (w p).ledger := by
  cases h with
  | pass hn e =>
    obtain ⟨size, depth, text, logged⟩ := ledger_recordPass (s := s) p _ e none
    rw [logged]
    exact ⟨0, rfl, p.session.eliminates_log (beq_false_of_ne hn)⟩
  | elimination e explanation =>
    obtain ⟨size, depth, text, logged⟩ :=
      ledger_recordPass (s := s) p.countElimination "eliminate" e explanation
    rw [logged]
    exact ⟨1, rfl, p.session.eliminates_countElimination_log rfl⟩
  | expression index => exact .refl _
  | notZero index => exact ⟨0, rfl, p.session.eliminates_log rfl⟩

variable (hs : s.subproof.Accounts)
include hs

/-- The eliminations of a proof within the proof are added, also if it decides nothing. -/
theorem accounts_answer (needed : Statement) (n : Nat) :
    Accounts nestedLedger (answer s needed n) := by
  intro x reportable
  have hs := hs needed n x.1.session
  have run := run_answer s needed n x.1 x.2
  rw [Prod.eta] at run
  rw [run] at reportable ⊢
  revert hs reportable
  rcases s.subproof needed n x.1.session with ⟨e | r, τ⟩ <;> intro reportable hs
  · exact ⟨0, rfl, hs (reportable e rfl)⟩
  · exact ⟨r.eliminations, (Nat.add_assoc _ _ _).symm, hs⟩

/-- Carrying out an inquiry that reports no eliminations. -/
theorem accounts_run {q : Inquiry α} (hq : q.Quiet) :
    Accounts nestedLedger (q.run (answer s) (fun c => modify fun x => (x.1.rely c, x.2))
      (fun e => modify fun x => (x.1.log e, x.2)) : Nested α) := by
  induction q with
  | done a => exact accounts_pure a
  | fail e => exact accounts_throw e
  | ask needed n next ih => exact accounts_bind (accounts_answer hs needed n) fun b => ih b (hq.2 b)
  | rely c next ih => exact accounts_bind (accounts_modify fun _ => .refl _) fun _ => ih hq
  | report e next ih =>
    refine accounts_bind (accounts_modify fun x => ?_) fun _ => ih hq.2
    exact ⟨0, rfl, x.1.session.eliminates_log hq.1⟩

/-- At the end of an inquiry the attempt absorbs all that was counted during it. -/
theorem accounts_inquire {q : Inquiry Expr} (hq : q.Quiet) :
    Accounts Progress.ledger (inquire s q) := by
  intro p reportable
  rw [run_inquire] at reportable ⊢
  exact accounts_run hs hq (p, .none) reportable

/-- Keeping accounts is kept by all that an attempt does. -/
theorem lifting_accounts : Lifting s s fun m _ _ => Accounts Progress.ledger m where
  construction := rfl
  prefixLength := rfl
  pure := accounts_pure
  bind hm hf := accounts_bind hm hf
  record hw _ _ _ hm := accounts_bind (accounts_modify hw.grows) fun _ => hm
  inquire hq := accounts_inquire hs hq.quiet
  limit _ size _ _ _ hm := accounts_limit hm size _

end Attempt

/-! ## Proofs -/

namespace Setting

/-- Nothing is eliminated before an attempt has begun. -/
theorem eliminates_begin (s : Setting) (goal : Statement) (σ : Session) :
    σ.Eliminates 0 (s.begin goal σ).session := by
  refine σ.eliminates_foldl_log fun e he => ?_
  rw [introduction] at he
  rcases List.mem_append.1 he with he | he
  · split at he
    · rcases List.mem_cons.1 he with rfl | he
      · rfl
      · rcases List.mem_append.1 he with he | he
        · obtain ⟨step, -, rfl⟩ := List.mem_map.1 he
          rfl
        · obtain ⟨p, -, he⟩ := List.mem_filterMap.1 he
          obtain ⟨condition, -, rfl⟩ := Option.map_eq_some_iff.1 he
          rfl
    · cases he
  · obtain rfl := List.mem_singleton.1 he
    rfl

/-- Nothing is eliminated while the collinear triples are found. -/
theorem eliminates_started (s : Setting) (goal : Statement) (σ : Session) :
    σ.Eliminates 0 (s.started goal σ).session :=
  (s.eliminates_begin goal σ).trans (Session.eliminates_findCollinear _ _)

section
variable {s : Setting} {goal : Statement} {σ τ : Session} {result : Except ProofError Bool}
  {p : Progress} {r : Report}

/-- The report on an attempt tells what the attempt has counted, and nothing is eliminated any more.
-/
theorem conclude_ok (h : s.conclude goal result p = (.ok r, τ)) :
    IsReportable result ∧ r.isRecalled = false ∧ r.eliminations = p.eliminations ∧
      p.session.Eliminates 0 τ := by
  cases result with
  | ok holds =>
    cases h
    have reportable : IsReportable (.ok holds : Except ProofError Bool) := by
      intro e he
      cases he
    refine ⟨reportable, rfl, rfl, ?_⟩
    exact (p.session.eliminates_note goal holds).trans (Session.eliminates_log _ rfl)
  | error e =>
    rcases s.conclude_error goal e p with ⟨-, eq⟩ | ⟨reason, known, eq⟩ <;> rw [eq] at h
    · cases h
    · cases h
      refine ⟨fun e' he' => ?_, rfl, rfl, ?_⟩
      · cases he'
        exact Option.isSome_of_mem known
      · exact (p.session.eliminates_log rfl).trans (Session.eliminates_log _ rfl)

/-- A report is from memory if and only if the statement has been decided before. -/
theorem isRecalled_of_prove (h : s.prove goal σ = (.ok r, τ)) :
    r.isRecalled = (σ.decision? goal).isSome ∧ (r.isRecalled = true → r.eliminations = 0) := by
  rcases s.prove_cases goal σ with ⟨holds, hd, eq⟩ | ⟨hd, ⟨fault, -, eq⟩ | ⟨-, eq⟩⟩ <;>
    rw [eq] at h
  · cases h
    rw [hd]
    exact ⟨rfl, fun _ => rfl⟩
  · cases h
  · obtain ⟨-, notRecalled, -⟩ := conclude_ok h
    rw [hd, notRecalled]
    exact ⟨rfl, fun recalled => by cases recalled⟩

end

variable {s : Setting} (hs : s.subproof.Accounts)
include hs

/-- An attempt that ends with a report has counted what the report tells. -/
theorem eliminates_attempt {goal : Statement} {σ τ : Session} {r : Report}
    (h : s.attempt goal σ = (.ok r, τ)) : σ.Eliminates r.eliminations τ := by
  obtain ⟨reportable, -, told, concluded⟩ := conclude_ok h
  obtain ⟨n, total, eliminated⟩ := (Attempt.lifting_accounts hs).allVanish (s.collinear goal σ) 0
    goal.expressions (s.started goal σ) reportable
  have total : _ = 0 + n := total
  have counted : r.eliminations = 0 + (n + 0) := told.trans total
  rw [counted]
  exact (s.eliminates_started goal σ).trans (eliminated.trans concluded)

/-- A proof keeps accounts if the proofs within it do. -/
theorem accounts_prove : Subproof.Accounts fun goal _ σ => s.prove goal σ := by
  intro goal _ σ
  dsimp only
  rcases s.prove_cases goal σ with ⟨holds, -, eq⟩ | ⟨-, ⟨fault, -, eq⟩ | ⟨-, eq⟩⟩
  · rw [eq]
    exact σ.eliminates_log rfl
  · rw [eq]
    intro reason
    cases reason
  · rcases proved : s.prove goal σ with ⟨e | r, τ⟩
    · intro reason
      rw [unknownReason?_of_prove (congrArg Prod.fst proved)] at reason
      cases reason
    · exact eliminates_attempt hs (eq.symm.trans proved)

end Setting

namespace Problem

/-- Proofs keep accounts, however deeply they are nested. -/
theorem accounts_proveNested (problem : Problem) (nesting depth : Nat) :
    Subproof.Accounts (problem.proveNested nesting depth) :=
  (problem.proveNested_induction (P := fun _ prove => prove.Accounts) (fun _ _ τ _ => .refl τ)
    (fun _ _ _ accounts goal n σ => Setting.accounts_prove accounts goal n σ) nesting depth).2

/-- The count of a report is exact: whenever a proof ends with a report, in whatever session, over
however many steps and however deep, the session has counted as many more eliminations as the report
tells, and as many have been logged, those of the proofs within the proof included. A report from
memory tells of none. -/
theorem proveAt_counts_eliminations (problem : Problem) (n depth : Nat) (goal : Statement)
    (σ τ : Session) (r : Report) (h : problem.proveAt n depth goal σ = (.ok r, τ)) :
    τ.eliminations = σ.eliminations + r.eliminations ∧
      (∃ events, τ.latest = events ++ σ.latest ∧
        events.countP Event.isElimination = r.eliminations) ∧
      r.isRecalled = (σ.decision? goal).isSome ∧ (r.isRecalled = true → r.eliminations = 0) := by
  rw [proveAt] at h
  have accounts := problem.accounts_proveNested (problem.config.maxSubproofDepth - depth) depth goal
    n σ
  rw [h] at accounts
  rw [proveNested_eq] at h
  have recalled := Setting.isRecalled_of_prove h
  exact ⟨accounts.counted, accounts.logged, recalled⟩

/-- A point `X` beside the line of `A` and `B`, and a point `Y` on it, with little room for
expressions. -/
def besideLimited : Problem :=
  ⟨.after [.free "A", .free "B", .free "C", .line "l" ⟨0⟩ ⟨1⟩, .midpoint "X" ⟨0⟩ ⟨2⟩,
    .pointOnLine "Y" ⟨0⟩ "s"], ⟨8, 3, 100, 0, false⟩⟩

/-- To see whether `Y` is `X` one has to know whether `X` lies on the line. The proof of that
eliminates `X` and then meets the limit, so neither proof comes to a decision; both report the
elimination. -/
theorem besideLimited_counts_elimination :
    ∃ r τ, besideLimited.prove (.zero "Y = X" (.ratio ⟨3⟩ ⟨4⟩ ⟨0⟩ ⟨1⟩)) .start = (.ok r, τ) ∧
      r.verdict = .unknown ∧ r.isRecalled = false ∧ r.eliminations = 1 ∧ τ.eliminations = 1 ∧
      τ.latest.countP Event.isElimination = 1 := by
  have told : (besideLimited.prove (.zero "Y = X" (.ratio ⟨3⟩ ⟨4⟩ ⟨0⟩ ⟨1⟩))
      .start).1.toOption.map (fun r => (r.verdict, r.isRecalled, r.eliminations)) =
        some (.unknown, false, 1) := by cbv
  obtain ⟨r, hr, shown⟩ := Option.map_eq_some_iff.1 told
  simp only [Prod.mk.injEq] at shown
  obtain ⟨verdict, recalled, eliminations⟩ := shown
  have run : besideLimited.prove (.zero "Y = X" (.ratio ⟨3⟩ ⟨4⟩ ⟨0⟩ ⟨1⟩)) .start = (.ok r, _) :=
    Prod.ext (eq_ok_of_toOption hr) rfl
  obtain ⟨counted, ⟨events, logged, number⟩, -⟩ :=
    proveAt_counts_eliminations _ _ _ _ _ _ _ run
  refine ⟨r, _, run, verdict, recalled, eliminations, counted.trans ?_, ?_⟩
  · rw [eliminations]
    rfl
  · rw [logged, List.countP_append, number, eliminations]
    rfl

end Problem

end AreaMethod
