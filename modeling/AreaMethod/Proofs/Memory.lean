import AreaMethod.Proofs.Spelling
import AreaMethod.Proofs.Validity

/-!
# What is remembered makes no difference

A session remembers the statements decided so far, whatever they were needed for, over however many
steps of the construction and however deeply nested. This never changes a verdict
(`Problem.verdict_unaffected_by_memory`): the course of a proof is determined by the answers that it
gets, and there is only one decision that it can lead to (`Problem.Decides.unique`).

Nor is a decision lost. Whatever was asked on the way to a decision is remembered along with it
(`Memory.Justified`). So when a statement is recalled, all that would have been decided in order to
decide it is remembered already (`Problem.outcome_absorbed`).

The conditions that a recalled statement relies on are not recalled with it. They have been reported
before (`Problem.conditions_reported`).
-/

namespace AreaMethod

/-! ## Memories -/

namespace Memory

/-- What is remembered of a statement does not depend on how it is written. -/
theorem decision?_of_same {es fs : List Expr} (h : Expr.sameList es fs = true) (m : Memory) :
    decision? m es = decision? m fs := by
  have same : ∀ gs, Expr.sameList gs es = Expr.sameList gs fs := fun gs => by
    rw [Bool.eq_iff_iff, Expr.sameList_iff, Expr.sameList_iff, Expr.sameList_iff.1 h]
  simp only [decision?, same]

/-- Replacing the decision on a statement changes no other. -/
theorem decision?_map (m : Memory) (es fs : List Expr) (holds : Bool) :
    decision? (m.map fun entry => if Expr.sameList entry.1 es then (entry.1, holds) else entry) fs =
      if Expr.sameList es fs then (decision? m fs).map fun _ => holds else decision? m fs := by
  have keys : ((fun entry => Expr.sameList entry.1 fs) ∘ fun entry : List Expr × Bool =>
      if Expr.sameList entry.1 es then (entry.1, holds) else entry) =
      fun entry => Expr.sameList entry.1 fs := by
    funext entry
    rw [Function.comp]
    split <;> rfl
  rw [decision?, decision?, List.find?_map, keys]
  cases found : m.find? fun entry => Expr.sameList entry.1 fs with
  | none => simp
  | some entry =>
    -- the entry that is found is the one that was replaced if the statements are the same
    have key : Expr.sameList entry.1 es = Expr.sameList es fs := by
      have := List.find?_some found
      rw [Expr.sameList_iff] at this
      rw [Bool.eq_iff_iff, Expr.sameList_iff, Expr.sameList_iff, this, eq_comm]
    cases same : Expr.sameList es fs <;> simp [key, same]

/-- A new entry is found if there is none on the statement before it. -/
theorem decision?_append (m : Memory) (es fs : List Expr) (holds : Bool) :
    decision? (m ++ [(es, holds)]) fs =
      (decision? m fs).or (if Expr.sameList es fs then some holds else none) := by
  rw [decision?, decision?, List.find?_append, Option.map_or]
  cases same : Expr.sameList es fs <;> simp [same]

/-- A decision that is noted is the one on the statement, and no other is touched. -/
theorem decision?_note (m : Memory) (es fs : List Expr) (holds : Bool) :
    decision? (note m es holds) fs =
      if Expr.sameList es fs then some holds else decision? m fs := by
  rw [note]
  split
  next known =>
    rw [decision?_map]
    split
    next same =>
      rw [decision?_of_same same] at known
      obtain ⟨b, hb⟩ := Option.isSome_iff_exists.1 known
      rw [hb, Option.map_some]
    next => rfl
  next unknown =>
    rw [decision?_append]
    split
    next same =>
      rw [decision?_of_same same, Option.not_isSome_iff_eq_none] at unknown
      rw [unknown, Option.none_or]
    next => rw [Option.or_none]

/-- What is noted is remembered. -/
theorem decision?_note_self (m : Memory) (es : List Expr) (holds : Bool) :
    decision? (note m es holds) es = some holds := by
  rw [decision?_note, if_pos (Expr.sameList_iff.2 rfl)]

/-- Whatever is remembered in the first memory is remembered in the second. -/
def Below (m m' : Memory) : Prop :=
  ∀ es holds, decision? m es = some holds → decision? m' es = some holds

/-- A memory remembers what it does. -/
theorem Below.refl (m : Memory) : Below m m := fun _ _ => id

/-- Remembering as much is transitive. -/
theorem Below.trans {m m' m'' : Memory} (h : Below m m') (h' : Below m' m'') : Below m m'' :=
  fun es holds hd => h' es holds (h es holds hd)

/-- The empty memory remembers nothing that another does not. -/
theorem below_nil (m : Memory) : Below [] m := fun _ _ h => nomatch h

/-- What the second memory remembers can be noted in the first. -/
theorem Below.note_left {m m' : Memory} (h : Below m m') {es : List Expr} {holds : Bool}
    (hd : decision? m' es = some holds) : Below (note m es holds) m' := by
  intro fs b hb
  rw [decision?_note] at hb
  split at hb
  next same =>
    rw [← decision?_of_same same, hd]
    exact hb
  next => exact h fs b hb

/-- The same decision can be noted in both. -/
theorem Below.note {m m' : Memory} (h : Below m m') (es : List Expr) (holds : Bool) :
    Below (note m es holds) (note m' es holds) := by
  intro fs b hb
  rw [decision?_note] at hb ⊢
  split at hb
  next same => rwa [if_pos same]
  next different =>
    rw [if_neg different]
    exact h fs b hb

end Memory

/-! ## Decisions -/

namespace Inquiry

/-- Answers that are each found at some level are all found at one. -/
theorem leads_level {answers : Nat → Statement → Nat → Bool → Prop}
    (mono : ∀ l l' s n b, l ≤ l' → answers l s n b → answers l' s n b) {relies : Condition → Prop}
    {q : Inquiry α} {r : α} (h : q.Leads (fun s n b => ∃ l, answers l s n b) relies r) :
    ∃ l, q.Leads (answers l) relies r := by
  induction q with
  | done a => exact ⟨0, h⟩
  | fail e => exact h.elim
  | ask s n next ih =>
    obtain ⟨b, ⟨l, hb⟩, h⟩ := h
    obtain ⟨l', h⟩ := ih b h
    exact ⟨max l l', b, mono _ _ s n b (le_max_left l l') hb,
      h.mono (fun s n b => mono _ _ s n b (le_max_right l l')) fun _ => id⟩
  | rely c next ih =>
    obtain ⟨l, h'⟩ := ih h.2
    exact ⟨l, h.1, h'⟩
  | report e next ih => exact ih h

end Inquiry

namespace Problem

variable (problem : Problem)

/-- The course of the proof leads to the decision, over the whole construction and without any
limit to how deeply proofs of needed statements may be nested but the given one. -/
def Decides : Nat → List Expr → Bool → Prop
  | 0, _, _ => False
  | level + 1, es, holds => (problem.course problem.construction.length es).Leads
      (fun s _ b => Decides level s.expressions b) (fun _ => True) holds

variable {problem}

/-- What is decided at one level is decided at those above. -/
theorem Decides.mono {level level' : Nat} (hl : level ≤ level') {es : List Expr} {holds : Bool}
    (h : problem.Decides level es holds) : problem.Decides level' es holds := by
  induction level generalizing level' es holds with
  | zero => exact h.elim
  | succ level ih =>
    obtain ⟨l, rfl⟩ := Nat.exists_eq_add_of_le' hl
    exact Inquiry.Leads.mono h (fun s n b hb => ih (Nat.le_add_left level l) hb) fun _ => id

/-- There is one decision on a statement. -/
theorem Decides.unique {level level' : Nat} {es : List Expr} {holds holds' : Bool}
    (h : problem.Decides level es holds) (h' : problem.Decides level' es holds') :
    holds = holds' := by
  induction level generalizing level' es holds holds' with
  | zero => exact h.elim
  | succ level ih =>
    cases level' with
    | zero => exact h'.elim
    | succ level' =>
      rw [Decides] at h h'
      exact (Inquiry.Leads.and (fun (s : Statement) (_ : Nat) b b'
        (hb : problem.Decides level _ b) (hb' : problem.Decides level' s.expressions b') =>
          ih hb hb') h h').1

/-- The decision does not depend on how the statement is written. -/
theorem Decides.of_same {level : Nat} {es fs : List Expr} {holds : Bool}
    (h : problem.Decides level es holds) (same : Expr.sameList es fs = true) :
    problem.Decides level fs holds := by
  cases level with
  | zero => exact h
  | succ level => rwa [Decides, ← problem.course_eq_of_same _ same]

end Problem

/-! ## What goes along with a decision -/

/-- What is remembered are decisions. Whatever was asked on the way to one of them is remembered as
well, and the conditions that were met are among the given ones. -/
structure Memory.Justified (problem : Problem) (conditions : Condition → Prop) (m : Memory) :
    Prop where
  decides : ∀ es holds, decision? m es = some holds → ∃ level, problem.Decides level es holds
  closed : ∀ es holds, decision? m es = some holds →
    (problem.course problem.construction.length es).Leads
      (fun s _ b => decision? m s.expressions = some b) (fun c => conditions c.normalize) holds

/-- How an outcome adds to a memory: nothing remembered is lost, what is added is justified, and so
is the result. -/
structure Outcome.Adds (problem : Problem) (conditions : Condition → Prop) (m : Memory)
    (o : Outcome α) : Prop where
  below : Memory.Below m o.memory
  justified : Memory.Justified problem (fun c => conditions c ∨ c ∈ o.conditions) o.memory

namespace Memory

variable {problem : Problem} {conditions : Condition → Prop} {m : Memory}

/-- Nothing remembered needs no justification. -/
theorem justified_nil (conditions : Condition → Prop) : Justified problem conditions [] where
  decides _ _ h := nomatch h
  closed _ _ h := nomatch h

/-- What is justified on some conditions is so on more. -/
theorem Justified.mono {conditions' : Condition → Prop} (h : Justified problem conditions m)
    (hc : ∀ c, conditions c → conditions' c) : Justified problem conditions' m where
  decides := h.decides
  closed es holds hd := (h.closed es holds hd).mono (fun _ _ _ => id) fun c => hc c.normalize

/-- To remember what was remembered adds nothing. -/
theorem Justified.adds (h : Justified problem conditions m) (r : Except ProofError α) :
    Outcome.Adds problem conditions m ⟨r, [], m⟩ :=
  ⟨.refl m, h.mono fun _ => .inl⟩

/-- Noting what the remembered answers lead to. -/
theorem Justified.note (h : Justified problem conditions m) {es : List Expr} {holds : Bool}
    (leads : (problem.course problem.construction.length es).Leads
      (fun s _ b => decision? m s.expressions = some b) (fun c => conditions c.normalize) holds) :
    Below m (Memory.note m es holds) ∧ Justified problem conditions (Memory.note m es holds) := by
  have mono : ∀ l l' (s : Statement) (_ : Nat) b, l ≤ l' → problem.Decides l s.expressions b →
      problem.Decides l' s.expressions b := fun _ _ _ _ _ hl hb => hb.mono hl
  obtain ⟨level, decides⟩ : ∃ level, problem.Decides (level + 1) es holds :=
    Inquiry.leads_level mono
      (leads.mono (fun s _ b hb => h.decides s.expressions b hb) fun _ _ => trivial)
  have below : Below m (Memory.note m es holds) := by
    intro fs b hb
    rw [decision?_note]
    split
    next same =>
      obtain ⟨level', hb⟩ := h.decides fs b hb
      rw [(decides.of_same same).unique hb]
    next => exact hb
  refine ⟨below, fun fs b hb => ?_, fun fs b hb => ?_⟩
  · rw [decision?_note] at hb
    split at hb
    next same =>
      obtain rfl := Option.some.inj hb
      exact ⟨_, decides.of_same same⟩
    next => exact h.decides fs b hb
  · have remembered : (problem.course problem.construction.length fs).Leads
        (fun s _ b => decision? m s.expressions = some b) (fun c => conditions c.normalize) b := by
      rw [decision?_note] at hb
      split at hb
      next same =>
        obtain rfl := Option.some.inj hb
        rwa [← problem.course_eq_of_same _ same]
      next => exact h.closed fs b hb
    exact remembered.mono (fun s _ b => below s.expressions b) fun _ => id

end Memory

/-- Deciding statements adds to what is remembered, and the decision is part of it. -/
def Remembers (problem : Problem) (sub : Statement → Nat → Memory → Outcome Bool) : Prop :=
  ∀ s n m conditions, Memory.Justified problem conditions m →
    (sub s n m).Adds problem conditions m ∧ ∀ b, (sub s n m).result = .ok b →
      Memory.decision? (sub s n m).memory s.expressions = some b

/-- Deciding with less memory what `M` remembers comes to the same decision, adds nothing that `M`
does not remember and relies on no conditions but the given ones. -/
def Absorbed (M : Memory) (conditions : Condition → Prop)
    (sub : Statement → Nat → Memory → Outcome Bool) : Prop :=
  ∀ s n m b b', Memory.Below m M → Memory.decision? M s.expressions = some b' →
    (sub s n m).result = .ok b → b = b' ∧ Memory.Below (sub s n m).memory M ∧
      ∀ c ∈ (sub s n m).conditions, conditions c

/-- What is decided with less memory is decided with more. -/
def Persists (problem : Problem) (sub : Statement → Nat → Memory → Outcome Bool) : Prop :=
  ∀ s n m m' conditions b, Memory.Below m m' → Memory.Justified problem conditions m' →
    (sub s n m).result = .ok b →
      (sub s n m').result = .ok b ∧ Memory.Below (sub s n m).memory (sub s n m').memory

namespace Inquiry

variable {problem : Problem} {sub : Statement → Nat → Memory → Outcome Bool}

/-- Carrying out an inquiry adds what deciding statements adds. All that was asked on the way to its
result is remembered. -/
theorem exec_adds (hsub : Remembers problem sub) (q : Inquiry α) {m : Memory}
    {conditions : Condition → Prop} (hm : Memory.Justified problem conditions m) :
    (q.exec sub m).Adds problem conditions m ∧ ∀ a, (q.exec sub m).result = .ok a →
      q.Leads (fun s _ b => Memory.decision? (q.exec sub m).memory s.expressions = some b)
        (fun c => c.normalize ∈ (q.exec sub m).conditions) a := by
  induction q generalizing m conditions with
  | done a => exact ⟨hm.adds _, fun _ => Except.ok.inj⟩
  | fail e => exact ⟨hm.adds _, fun _ h => by cases h⟩
  | ask s n next ih =>
    obtain ⟨⟨below, justified⟩, answer⟩ := hsub s n m conditions hm
    rw [exec, Outcome.andThen]
    split
    next b hb =>
      obtain ⟨⟨below', justified'⟩, leads⟩ := ih b justified
      refine ⟨⟨below.trans below', justified'.mono fun c hc => ?_⟩, fun a ha =>
        ⟨b, below' _ _ (answer b hb), (leads a ha).mono (fun _ _ _ => id) fun c hc => ?_⟩⟩
      · simpa [or_assoc] using hc
      · exact List.mem_append_right _ hc
    next e he => exact ⟨⟨below, justified⟩, fun _ h => by cases h⟩
  | rely c next ih =>
    obtain ⟨⟨below, justified⟩, leads⟩ := ih hm
    refine ⟨⟨below, justified.mono fun d hd => hd.imp_right (List.mem_cons_of_mem _)⟩, fun a ha =>
      ⟨List.mem_cons_self, (leads a ha).mono (fun _ _ _ => id) fun d => List.mem_cons_of_mem _⟩⟩
  | report e next ih => exact ih hm

/-- If the answers on a path are remembered in `M`, then an inquiry that is carried out with less
memory takes the same path, and adds nothing that `M` does not remember. -/
theorem exec_absorbed {M : Memory} {conditions : Condition → Prop}
    (hsub : Absorbed M conditions sub) {q : Inquiry α} {r : α}
    (hq : q.Leads (fun s _ b => Memory.decision? M s.expressions = some b)
      (fun c => conditions c.normalize) r)
    {m : Memory} (hm : Memory.Below m M) {a : α} (ha : (q.exec sub m).result = .ok a) :
    a = r ∧ Memory.Below (q.exec sub m).memory M ∧
      ∀ c ∈ (q.exec sub m).conditions, conditions c := by
  induction q generalizing m with
  | done b => exact ⟨(Except.ok.inj ha).symm.trans hq, hm, by simp [exec]⟩
  | fail e => cases ha
  | ask s n next ih =>
    obtain ⟨b', hb', hq⟩ := hq
    rw [exec, Outcome.andThen] at ha ⊢
    split at ha
    next b hb =>
      obtain ⟨rfl, below, met⟩ := hsub s n m b b' hm hb' hb
      obtain ⟨result, below, met'⟩ := ih b hq below ha
      exact ⟨result, below, List.forall_mem_append.2 ⟨met, met'⟩⟩
    next => cases ha
  | rely c next ih =>
    obtain ⟨result, below, met⟩ := ih hq.2 hm ha
    exact ⟨result, below, List.forall_mem_cons.2 ⟨hq.1, met⟩⟩
  | report e next ih => exact ih hq hm ha

/-- An inquiry that ends with less memory ends with more, with the same result, if deciding
statements does so. What it adds to the lesser memory, it adds to the greater one. -/
theorem exec_persists (hsub : Remembers problem sub) (persists : Persists problem sub)
    {q : Inquiry α} {m m' : Memory} (hm : Memory.Below m m') {conditions : Condition → Prop}
    (hm' : Memory.Justified problem conditions m') {a : α} (ha : (q.exec sub m).result = .ok a) :
    (q.exec sub m').result = .ok a ∧
      Memory.Below (q.exec sub m).memory (q.exec sub m').memory := by
  induction q generalizing m m' conditions with
  | done b => exact ⟨ha, hm⟩
  | fail e => cases ha
  | ask s n next ih =>
    rw [exec, Outcome.andThen] at ha
    split at ha
    next b hb =>
      obtain ⟨hb', below⟩ := persists s n m m' conditions b hm hm' hb
      rw [exec, exec, Outcome.andThen, Outcome.andThen, hb, hb']
      exact ih b below (hsub s n m' conditions hm').1.justified ha
    next => cases ha
  | rely c next ih => exact ih hm hm' ha
  | report e next ih => exact ih hm hm' ha

end Inquiry

namespace Problem

variable {problem : Problem} {sub : Statement → Nat → Memory → Outcome Bool}

/-! ## However deeply proofs are nested -/

/-- Where a statement is needed makes no difference to the decision on it. -/
theorem whereNeeded_ok {s : Statement} {o : Outcome Bool} {b : Bool} :
    (o.whereNeeded s).result = .ok b ↔ o.result = .ok b := by
  rw [Outcome.whereNeeded]
  cases o.result <;> simp [Except.mapError]

/-- Where a statement is needed makes no difference to its being remembered. -/
theorem remembers_whereNeeded (h : Remembers problem sub) :
    Remembers problem fun s n m => (sub s n m).whereNeeded s := by
  intro s n m conditions hm
  obtain ⟨⟨below, justified⟩, answer⟩ := h s n m conditions hm
  exact ⟨⟨below, justified⟩, fun b hb => answer b (whereNeeded_ok.1 hb)⟩

/-- Where a statement is needed makes no difference to what a memory absorbs. -/
theorem absorbed_whereNeeded {M : Memory} {conditions : Condition → Prop}
    (h : Absorbed M conditions sub) :
    Absorbed M conditions fun s n m => (sub s n m).whereNeeded s :=
  fun s n m b b' hm hb' hb => h s n m b b' hm hb' (whereNeeded_ok.1 hb)

/-- Where a statement is needed makes no difference to whether its decision persists. -/
theorem persists_whereNeeded (h : Persists problem sub) :
    Persists problem fun s n m => (sub s n m).whereNeeded s := by
  intro s n m m' conditions b hm hm' hb
  obtain ⟨hb', below⟩ := h s n m m' conditions b hm hm' (whereNeeded_ok.1 hb)
  exact ⟨whereNeeded_ok.2 hb', below⟩

section
variable (hc : Ordered problem.construction.steps)
include hc

/-- The proof of a statement takes the course that it takes over the whole construction. -/
theorem course_min_eq {goal : Statement} {n : Nat} (h : problem.construction.Covers goal n) :
    problem.course (min n problem.construction.length) goal.expressions =
      problem.course problem.construction.length goal.expressions :=
  course_eq hc (Construction.covers_min_iff.2 h)

/-- A proof adds to what is remembered if the proofs of needed statements do. What it notes is what
the answers, which are all remembered by then, lead to. -/
theorem outcomeBy_remembers (grounded : Grounded problem.construction.steps) {nesting : Nat}
    (hsub : Remembers problem (problem.suboutcome nesting)) :
    Remembers problem (problem.outcome nesting) := by
  intro goal n m conditions hm
  obtain ⟨⟨below, justified⟩, leads⟩ := Inquiry.exec_adds (remembers_whereNeeded hsub)
    (problem.course (min n problem.construction.length) goal.expressions) hm
  have error : ∀ e, problem.construction.Covers goal n →
      (problem.outcome nesting goal n m).result = .error e → e.unknownReason?.isSome = true :=
    fun _ covered => outcome_error grounded covered
  rw [outcome_eq] at error ⊢
  rcases problem.outcomeBy_cases (problem.suboutcome nesting) goal n m with ⟨holds, hd, eq⟩ |
    ⟨-, ⟨-, fault, eq⟩ | ⟨covered, ⟨holds, hr, eq⟩ | ⟨e, hr, eq⟩⟩⟩
  · rw [eq]
    exact ⟨hm.adds _, fun b hb => Except.ok.inj hb ▸ hd⟩
  · rw [eq]
    exact ⟨hm.adds _, fun b hb => nomatch hb⟩
  · rw [eq]
    have leads := leads holds hr
    rw [course_min_eq hc covered] at leads below justified ⊢
    obtain ⟨below', justified⟩ := justified.note (leads.mono (fun _ _ _ => id) fun c => .inr)
    exact ⟨⟨below.trans below', justified⟩, fun b hb => by
      rw [← Except.ok.inj hb]
      exact Memory.decision?_note_self _ _ _⟩
  · have known := error e covered (by rw [eq])
    rw [eq, if_pos known]
    exact ⟨⟨below, justified⟩, fun b hb => nomatch hb⟩

/-- A memory that goes along with its decisions absorbs proofs if it absorbs those of needed
statements: the proof takes the path of the remembered decision. -/
theorem outcomeBy_absorbed {M : Memory} {conditions : Condition → Prop}
    (closed : ∀ es holds, Memory.decision? M es = some holds →
      (problem.course problem.construction.length es).Leads
        (fun s _ b => Memory.decision? M s.expressions = some b)
        (fun c => conditions c.normalize) holds)
    (hsub : Absorbed M conditions sub) : Absorbed M conditions (problem.outcomeBy sub) := by
  intro goal n m b b' hm hb' hb
  rcases problem.outcomeBy_cases sub goal n m with ⟨holds, hd, eq⟩ |
    ⟨-, ⟨-, fault, eq⟩ | ⟨covered, ⟨holds, hr, eq⟩ | ⟨e, hr, eq⟩⟩⟩ <;> rw [eq] at hb ⊢
  · obtain rfl := Except.ok.inj hb
    exact ⟨Option.some.inj ((hm _ _ hd).symm.trans hb'), hm, by simp⟩
  · cases hb
  · obtain rfl := Except.ok.inj hb
    obtain ⟨rfl, below, met⟩ := Inquiry.exec_absorbed (absorbed_whereNeeded hsub)
      (course_min_eq hc covered ▸ closed goal.expressions b' hb') hm hr
    exact ⟨rfl, below.note_left hb', met⟩
  · cases hb

/-- What a proof decides with less memory, it decides with more, if the same holds of the proofs of
needed statements. -/
theorem outcomeBy_persists (remembers : Remembers problem sub) (persists : Persists problem sub)
    (absorbed : ∀ M conditions, Memory.Justified problem conditions M → Absorbed M conditions sub) :
    Persists problem (problem.outcomeBy sub) := by
  intro goal n m m' conditions b hm hm' hb
  have absorbs := outcomeBy_absorbed hc hm'.closed (absorbed m' conditions hm') goal n m b
  rcases problem.outcomeBy_cases sub goal n m' with ⟨holds, hd', eq'⟩ | ⟨unknown, h'⟩
  · -- It is recalled, and so is all that is decided otherwise.
    obtain ⟨rfl, below, -⟩ := absorbs holds hm hd' hb
    rw [eq']
    exact ⟨rfl, below⟩
  · rcases problem.outcomeBy_cases sub goal n m with ⟨holds, hd, eq⟩ |
      ⟨-, ⟨-, fault, eq⟩ | ⟨covered, ⟨holds, hr, eq⟩ | ⟨e, hr, eq⟩⟩⟩ <;> rw [eq] at hb ⊢
    · rw [hm _ _ hd] at unknown
      cases unknown
    · cases hb
    · obtain rfl := Except.ok.inj hb
      obtain ⟨hr', below⟩ := Inquiry.exec_persists (remembers_whereNeeded remembers)
        (persists_whereNeeded persists) hm hm' hr
      rcases h' with ⟨uncovered, -⟩ | ⟨-, ⟨holds', hr'', eq'⟩ | ⟨e, hr'', eq'⟩⟩
      · exact absurd covered uncovered
      · rw [eq']
        obtain rfl := Except.ok.inj (hr''.symm.trans hr')
        exact ⟨rfl, below.note _ _⟩
      · cases hr''.symm.trans hr'
    · cases hb

variable (grounded : Grounded problem.construction.steps)
include grounded

/-- Proofs of needed statements add to what is remembered, however deeply they are nested. -/
theorem suboutcome_remembers (nesting : Nat) :
    Remembers problem (problem.suboutcome nesting) := by
  induction nesting with
  | zero => exact fun s n m conditions hm => ⟨hm.adds _, fun b hb => nomatch hb⟩
  | succ nesting ih => exact outcomeBy_remembers hc grounded ih

/-- Proofs add to what is remembered, however deeply they are nested. -/
theorem outcome_remembers (nesting : Nat) : Remembers problem (problem.outcome nesting) :=
  outcomeBy_remembers hc grounded (suboutcome_remembers hc grounded nesting)

omit grounded in
/-- A justified memory absorbs all proofs and those of needed statements. -/
theorem outcome_absorbed {M : Memory} {conditions : Condition → Prop}
    (hM : Memory.Justified problem conditions M) (nesting : Nat) :
    Absorbed M conditions (problem.suboutcome nesting) ∧
      Absorbed M conditions (problem.outcome nesting) := by
  have step : ∀ nesting, Absorbed M conditions (problem.suboutcome nesting) →
      Absorbed M conditions (problem.outcome nesting) := fun nesting h => by
    rw [outcome_eq]
    exact outcomeBy_absorbed hc hM.closed h
  have sub : Absorbed M conditions (problem.suboutcome nesting) := by
    induction nesting with
    | zero => exact fun s n m b b' _ _ hb => nomatch hb
    | succ nesting ih => exact step nesting ih
  exact ⟨sub, step nesting sub⟩

/-- What is decided with less memory is decided with more, however deeply proofs are nested. -/
theorem outcome_persists (nesting : Nat) : Persists problem (problem.outcome nesting) := by
  have step : ∀ nesting, Persists problem (problem.suboutcome nesting) →
      Persists problem (problem.outcome nesting) := fun nesting h => by
    rw [outcome_eq]
    exact outcomeBy_persists hc (suboutcome_remembers hc grounded nesting) h
      fun M conditions hM => (outcome_absorbed hc hM nesting).1
  refine step nesting ?_
  induction nesting with
  | zero => exact fun s n m m' conditions b _ _ hb => nomatch hb
  | succ nesting ih => exact step nesting ih

end

/-! ## Sessions -/

section
variable {σ : Session} (hσ : σ.Fits problem.construction) {n depth : Nat} {goal : Statement}
include hσ

/-- A report with a decision shows how the proof ends. -/
theorem outcome_of_proveAt {r : Report} (hr : (problem.proveAt n depth goal σ).1 = .ok r)
    (decided : r.verdict ≠ .unknown) :
    ∃ b, r.verdict = .ofBool b ∧
      (problem.outcome (problem.config.maxSubproofDepth - depth) goal n σ.decided).result = .ok b ∧
      ∀ x, x ∈ r.conditions.toList ↔ x ∈ (problem.outcome
        (problem.config.maxSubproofDepth - depth) goal n σ.decided).conditions := by
  obtain ⟨-, -, shows⟩ := problem.realizes_proveNested
    (problem.config.maxSubproofDepth - depth) depth goal n σ hσ
  rw [proveAt] at hr
  rw [hr] at shows
  generalize problem.config.maxSubproofDepth - depth = nesting at *
  cases ho : (problem.outcome nesting goal n σ.decided).result with
  | ok b => exact ⟨b, shows.verdict b ho, rfl, shows.conditions⟩
  | error e => exact absurd (shows.unknown e ho).1 decided

/-- A proof that ends with a decision is reported. -/
theorem proveAt_of_outcome {b : Bool}
    (h : (problem.outcome (problem.config.maxSubproofDepth - depth) goal n σ.decided).result =
      .ok b) :
    ∃ r, (problem.proveAt n depth goal σ).1 = .ok r ∧ r.verdict = .ofBool b := by
  obtain ⟨-, -, shows⟩ := problem.realizes_proveNested
    (problem.config.maxSubproofDepth - depth) depth goal n σ hσ
  rw [proveAt]
  cases hr : (problem.proveNested (problem.config.maxSubproofDepth - depth) depth goal n σ).1 with
  | ok r =>
    rw [hr] at shows
    exact ⟨r, rfl, shows.verdict b h⟩
  | error e =>
    rw [hr] at shows
    cases shows.1.symm.trans h

end

/-- All that a session remembers is justified. -/
theorem Reached.justified (hc : problem.construction.Built)
    (labels : problem.construction.symbols.points.count ≤ 2 ^ 32) {σ : Session}
    (h : problem.Reached σ) : Memory.Justified problem (fun _ => True) σ.decided :=
  h.memory (Memory.justified_nil _) fun nesting goal n m hm =>
    (outcome_remembers (hc.ordered labels) hc.grounded nesting goal n m _ hm).1.justified.mono
      fun _ _ => trivial

/-- What a session remembers never changes a verdict. Over a construction that is built and has
different numbers for its points, take any two sessions that proofs lead to, of any statements over
any number of steps and nested anyhow. If the same statement, up to how it is written, is decided in
both, then it is decided in the same way; and what is decided in a new session is decided in each of
them, in the same way. -/
theorem verdict_unaffected_by_memory (hc : problem.construction.Built)
    (labels : problem.construction.symbols.points.count ≤ 2 ^ 32) {σ τ : Session}
    (hσ : problem.Reached σ) (hτ : problem.Reached τ) :
    (∀ goal goal' n n' depth depth' r r',
      Expr.sameList goal.expressions goal'.expressions = true →
      (problem.proveAt n depth goal σ).1 = .ok r → r.verdict ≠ .unknown →
      (problem.proveAt n' depth' goal' τ).1 = .ok r' → r'.verdict ≠ .unknown →
      r.verdict = r'.verdict) ∧
    ∀ goal n depth r, (problem.proveAt n depth goal .start).1 = .ok r → r.verdict ≠ .unknown →
      ∃ r', (problem.proveAt n depth goal σ).1 = .ok r' ∧ r'.verdict = r.verdict := by
  have ordered := hc.ordered labels
  -- A decision is the one that the course of the proof leads to, whatever is remembered.
  have decides : ∀ {ρ : Session}, problem.Reached ρ → ∀ {goal n depth r},
      (problem.proveAt n depth goal ρ).1 = .ok r → r.verdict ≠ .unknown →
      ∃ b level, r.verdict = .ofBool b ∧ problem.Decides level goal.expressions b := by
    intro ρ hρ goal n depth r hr decided
    obtain ⟨b, verdict, hb, -⟩ := outcome_of_proveAt hρ.fits hr decided
    obtain ⟨adds, answer⟩ := outcome_remembers ordered hc.grounded _ goal n _ _
      (hρ.justified hc labels)
    obtain ⟨level, h⟩ := adds.justified.decides _ _ (answer b hb)
    exact ⟨b, level, verdict, h⟩
  refine ⟨fun goal goal' n n' depth depth' r r' same hr decided hr' decided' => ?_,
    fun goal n depth r hr decided => ?_⟩
  · obtain ⟨b, level, verdict, h⟩ := decides hσ hr decided
    obtain ⟨b', level', verdict', h'⟩ := decides hτ hr' decided'
    rw [verdict, verdict', (h.of_same same).unique h']
  · obtain ⟨b, verdict, hb, -⟩ := outcome_of_proveAt Reached.start.fits hr decided
    obtain ⟨hb', -⟩ := outcome_persists ordered hc.grounded _ goal n _ σ.decided _ b
      (Memory.below_nil _) (hσ.justified hc labels) hb
    obtain ⟨r', hr', verdict'⟩ := proveAt_of_outcome hσ.fits hb'
    exact ⟨r', hr', verdict'.trans verdict.symm⟩

/-- A segment with its midpoint, that of the first half, and any point on its line. -/
def halves : Problem :=
  ⟨.after [.free "A", .free "B", .line "l" ⟨0⟩ ⟨1⟩, .midpoint "M" ⟨0⟩ ⟨1⟩, .midpoint "X" ⟨0⟩ ⟨2⟩,
    .pointOnLine "Y" ⟨0⟩ "s"], .standard⟩

/-- The midpoint of the first half lies on the line. -/
def quarterOnLine : Statement :=
  .zero "X on the line" (.area ⟨3⟩ ⟨0⟩ ⟨1⟩ - .area ⟨0⟩ ⟨0⟩ ⟨1⟩)

/-- Where `Y` is, measured from `X`. What is asked on the way is whether `X` lies on the line. -/
def fromQuarter : Statement :=
  .zero "XY" (.ratio ⟨3⟩ ⟨4⟩ ⟨0⟩ ⟨1⟩ - .ratio ⟨3⟩ ⟨0⟩ ⟨0⟩ ⟨1⟩ - .scalar "s")

/-- The construction of `halves` is one that requests build. -/
theorem halves_built : halves.construction.Built := Construction.built_after _

/-- There are numbers for all its labels. -/
theorem halves_labels : halves.construction.symbols.points.count ≤ 2 ^ 32 := by
  have count : halves.construction.symbols.points.count = 5 := by cbv
  rw [count]
  decide

/-- In a new session where `Y` is, measured from `X`, is proved on two conditions. -/
theorem prove_fromQuarter :
    ∃ r, (halves.prove fromQuarter .start).1 = .ok r ∧ r.verdict = .proved ∧
      r.conditions.toList = [.distinct ⟨0⟩ ⟨1⟩, .distinct ⟨0⟩ ⟨2⟩] := by
  have run : (halves.prove fromQuarter .start).1.toOption.map
      (fun r => (r.verdict, r.conditions.toList)) =
        some (.proved, [.distinct ⟨0⟩ ⟨1⟩, .distinct ⟨0⟩ ⟨2⟩]) := by cbv
  obtain ⟨r, hr, shown⟩ := Option.map_eq_some_iff.1 run
  exact ⟨r, eq_ok_of_toOption hr, Prod.mk.inj shown⟩

/-- What is proved in a new session is proved after what is asked on the way has been. -/
theorem fromQuarter_proved_later :
    ∃ r, (halves.prove fromQuarter (halves.prove quarterOnLine .start).2).1 = .ok r ∧
      r.verdict = .proved := by
  obtain ⟨r, hr, proved, -⟩ := prove_fromQuarter
  obtain ⟨-, later⟩ := verdict_unaffected_by_memory halves_built halves_labels
    (.proveAt halves.construction.length 0 quarterOnLine .start) .start
  obtain ⟨r', hr', verdict⟩ := later fromQuarter _ 0 r hr (by rw [proved]; decide)
  exact ⟨r', hr', verdict.trans proved⟩

/-! ## Conditions that have been reported -/

/-- The sessions that proofs lead to, with the reports on them. -/
inductive Recorded (problem : Problem) : List Report → Session → Prop
  | start : Recorded problem [] .start
  | proveAt (n depth : Nat) (goal : Statement) {reports : List Report} {σ : Session}
    (h : Recorded problem reports σ) :
    Recorded problem (reports ++ (problem.proveAt n depth goal σ).1.toOption.toList)
      (problem.proveAt n depth goal σ).2

/-- Sessions with reports are sessions that proofs lead to. -/
theorem Recorded.reached {reports : List Report} {σ : Session} (h : problem.Recorded reports σ) :
    problem.Reached σ := by
  induction h with
  | start => exact .start
  | proveAt n depth goal _ ih => exact .proveAt n depth goal ih

/-- What is remembered relies on conditions that have been reported. -/
theorem Recorded.justified (hc : problem.construction.Built)
    (labels : problem.construction.symbols.points.count ≤ 2 ^ 32) {reports : List Report}
    {σ : Session} (h : problem.Recorded reports σ) :
    Memory.Justified problem (fun c => ∃ r ∈ reports, c ∈ r.conditions.toList) σ.decided := by
  induction h with
  | start => exact Memory.justified_nil _
  | @proveAt n depth goal reports σ h ih =>
    obtain ⟨memory, -, shows⟩ := problem.realizes_proveNested
      (problem.config.maxSubproofDepth - depth) depth goal n σ h.reached.fits
    have justified := (outcome_remembers (hc.ordered labels) hc.grounded
      (problem.config.maxSubproofDepth - depth) goal n _ _ ih).1.justified
    rw [Problem.proveAt, memory]
    generalize problem.config.maxSubproofDepth - depth = nesting at *
    refine justified.mono fun c hcs => ?_
    rcases hcs with ⟨r, hr, hcr⟩ | hcs
    · exact ⟨r, List.mem_append_left _ hr, hcr⟩
    · cases hr : (problem.proveNested nesting depth goal n σ).1 with
      | ok r =>
        rw [hr] at shows
        exact ⟨r, by simp [Except.toOption], (shows.conditions c).2 hcs⟩
      | error e =>
        rw [hr] at shows
        rw [shows.2.1] at hcs
        cases hcs

/-- Conditions that a proof in a new session reports are reported in any other session as well, if
not with the same statement then with one before. -/
theorem conditions_reported (hc : problem.construction.Built)
    (labels : problem.construction.symbols.points.count ≤ 2 ^ 32) {reports : List Report}
    {σ : Session} (hσ : problem.Recorded reports σ) {goal : Statement} {n n' depth depth' : Nat}
    {r fresh : Report} (hr : (problem.proveAt n depth goal σ).1 = .ok r)
    (decided : r.verdict ≠ .unknown)
    (hfresh : (problem.proveAt n' depth' goal .start).1 = .ok fresh)
    (decided' : fresh.verdict ≠ .unknown) :
    ∀ c ∈ fresh.conditions.toList,
      c ∈ r.conditions.toList ∨ ∃ earlier ∈ reports, c ∈ earlier.conditions.toList := by
  have ordered := hc.ordered labels
  obtain ⟨b, -, hb, conditions⟩ := outcome_of_proveAt hσ.reached.fits hr decided
  obtain ⟨adds, answer⟩ := outcome_remembers ordered hc.grounded _ goal n _ _
    (hσ.justified hc labels)
  obtain ⟨b', -, hb', conditions'⟩ := outcome_of_proveAt Reached.start.fits hfresh decided'
  obtain ⟨-, -, met⟩ := (outcome_absorbed ordered adds.justified _).2 goal n' [] b' b
    (Memory.below_nil _) (answer b hb) hb'
  intro c hcs
  rcases met c ((conditions' c).1 hcs) with before | now
  · exact .inr before
  · exact .inl ((conditions c).2 now)

/-- After it has been proved that `X` lies on the line, the proof reports one of the two
conditions. -/
theorem prove_fromQuarter_later :
    ∃ r, (halves.prove fromQuarter (halves.prove quarterOnLine .start).2).1 = .ok r ∧
      r.verdict = .proved ∧ r.isRecalled = false ∧ r.conditions.toList = [.distinct ⟨0⟩ ⟨1⟩] := by
  have run : (halves.prove fromQuarter (halves.prove quarterOnLine .start).2).1.toOption.map
      (fun r => (r.verdict, r.isRecalled, r.conditions.toList)) =
        some (.proved, false, [.distinct ⟨0⟩ ⟨1⟩]) := by cbv
  obtain ⟨r, hr, shown⟩ := Option.map_eq_some_iff.1 run
  obtain ⟨verdict, shown⟩ := Prod.mk.inj shown
  exact ⟨r, eq_ok_of_toOption hr, verdict, Prod.mk.inj shown⟩

/-- Where `Y` is, measured from `X`, is found on the condition that `A` and `M` are distinct, on
which `X` lies on the line. If that has been decided before, the condition is not among those
reported. -/
theorem fromQuarter_loses_condition :
    ∃ r fresh, (halves.prove fromQuarter (halves.prove quarterOnLine .start).2).1 = .ok r ∧
      r.verdict = .proved ∧ r.isRecalled = false ∧
      (halves.prove fromQuarter .start).1 = .ok fresh ∧ fresh.verdict = .proved ∧
      .distinct ⟨0⟩ ⟨2⟩ ∈ fresh.conditions.toList ∧ .distinct ⟨0⟩ ⟨2⟩ ∉ r.conditions.toList := by
  obtain ⟨fresh, hfresh, proved, conditions⟩ := prove_fromQuarter
  obtain ⟨r, hr, verdict, isRecalled, kept⟩ := prove_fromQuarter_later
  exact ⟨r, fresh, hr, verdict, isRecalled, hfresh, proved, by rw [conditions]; decide,
    by rw [kept]; decide⟩

/-- It is among those reported with the earlier decision. -/
theorem quarterOnLine_reports_condition :
    ∃ earlier, (halves.prove quarterOnLine .start).1 = .ok earlier ∧
      .distinct ⟨0⟩ ⟨2⟩ ∈ earlier.conditions.toList := by
  obtain ⟨fresh, hfresh, proved, conditions⟩ := prove_fromQuarter
  obtain ⟨r, hr, verdict, -, kept⟩ := prove_fromQuarter_later
  have reported := conditions_reported halves_built halves_labels
    (.proveAt halves.construction.length 0 quarterOnLine .start) hr (by rw [verdict]; decide)
    hfresh (by rw [proved]; decide) (.distinct ⟨0⟩ ⟨2⟩) (by rw [conditions]; decide)
  obtain ⟨earlier, recorded, reported⟩ := reported.resolve_left (by rw [kept]; decide)
  rw [List.nil_append, Option.mem_toList] at recorded
  exact ⟨earlier, eq_ok_of_toOption recorded, reported⟩

end Problem

end AreaMethod
