import AreaMethod.Proofs.Expansion
import AreaMethod.Proofs.Walk

/-!
# What the settings of a proof change

Two proofs of a statement over the same construction, with different settings, are compared step by
step. Sessions are alike if they differ at most in their logs, attempts if they also differ in their
traces. As long as the first proof does not fail, the second one does the same if its limits are no
smaller (`Setting.agree_prove`): the first was never stopped by a limit, and then larger limits make
no difference. A proof within a proof that ends without a decision stops the proof that needs it, so
that nothing has to be known of such a proof.

It follows that larger limits never change a decision (`Problem.prove_of_larger_limits`). The
comparison also covers proofs that fail, if the limits are the same: what is printed or recorded
then makes no difference at all, however many statements are proved in the same session
(`Problem.replies_unaffected_by_tracing`).

The limit on the terms of an expansion is checked against a count that is made beforehand. Below the
ceiling of that count it is a limit on the terms that there really are
(`Expr.expansionTerms_bounds_expanded`).
-/

namespace AreaMethod

/-! ## Alike sessions, attempts and reports -/

/-- The sessions differ at most in their logs. -/
structure Session.Alike (σ τ : Session) : Prop where
  decided : σ.decided = τ.decided
  eliminations : σ.eliminations = τ.eliminations
  collinear : σ.collinear = τ.collinear

/-- The attempts differ at most in their logs and traces. -/
structure Progress.Alike (p q : Progress) : Prop where
  session : p.session.Alike q.session
  conditions : p.conditions = q.conditions
  eliminations : p.eliminations = q.eliminations

/-- The contributions differ at most in what is recorded of them. -/
structure Contribution.Alike (k l : Contribution) : Prop where
  conditions : k.conditions = l.conditions
  eliminations : k.eliminations = l.eliminations

/-- The reports differ at most in their traces. -/
structure Report.Alike (r s : Report) : Prop where
  statement : r.statement = s.statement
  verdict : r.verdict = s.verdict
  unknownReason : r.unknownReason = s.unknownReason
  conditions : r.conditions = s.conditions
  eliminations : r.eliminations = s.eliminations
  isRecalled : r.isRecalled = s.isRecalled

namespace Session

/-- A session is like itself. -/
theorem Alike.refl (σ : Session) : σ.Alike σ := ⟨rfl, rfl, rfl⟩

variable {σ τ : Session} (h : σ.Alike τ)
include h

/-- Being alike is symmetric. -/
theorem Alike.symm : τ.Alike σ := ⟨h.1.symm, h.2.symm, h.3.symm⟩

/-- Being alike is transitive. -/
theorem Alike.trans {υ : Session} (h' : τ.Alike υ) : σ.Alike υ :=
  ⟨h.1.trans h'.1, h.2.trans h'.2, h.3.trans h'.3⟩

/-- Alike sessions stay so whatever is logged. -/
theorem Alike.log (e f : Event) : (σ.log e).Alike (τ.log f) := ⟨h.1, h.2, h.3⟩

/-- Whatever is logged, the sessions stay alike. -/
theorem Alike.foldl_log (es fs : List Event) :
    (es.foldl Session.log σ).Alike (fs.foldl Session.log τ) := by
  have unlogged : ∀ (es : List Event) (σ : Session), (es.foldl Session.log σ).Alike σ := by
    intro es
    induction es with
    | nil => exact Alike.refl
    | cons e es ih => exact fun σ => (ih (σ.log e)).trans ⟨rfl, rfl, rfl⟩
  exact (unlogged es σ).trans (h.trans (unlogged fs τ).symm)

/-- Alike sessions remember the same decisions. -/
theorem Alike.decision? (goal : Statement) : σ.decision? goal = τ.decision? goal := by
  rw [Session.decision?, Session.decision?, h.decided]

/-- Alike sessions stay so when a decision is noted in both. -/
theorem Alike.note (goal : Statement) (holds : Bool) :
    (σ.note goal holds).Alike (τ.note goal holds) := by
  rw [Session.note, Session.note, h.decision?]
  split
  · exact ⟨by simp only [h.decided], h.2, h.3⟩
  · exact ⟨by simp only [Session.log, h.decided], h.2, h.3⟩

/-- Alike sessions find the same collinear triples, and stay alike. -/
theorem Alike.findCollinear (c : Construction) :
    (σ.findCollinear c).1 = (τ.findCollinear c).1 ∧
      (σ.findCollinear c).2.Alike (τ.findCollinear c).2 := by
  rw [Session.findCollinear, Session.findCollinear, h.collinear]
  split
  next k => exact ⟨rfl, h⟩
  next => exact ⟨rfl, h.1, h.2, rfl⟩

end Session

/-- Progress being alike is symmetric. -/
theorem Progress.Alike.symm {p q : Progress} (h : p.Alike q) : q.Alike p :=
  ⟨h.1.symm, h.2.symm, h.3.symm⟩

/-- Progress being alike is transitive. -/
theorem Progress.Alike.trans {p q r : Progress} (h : p.Alike q) (h' : q.Alike r) : p.Alike r :=
  ⟨h.1.trans h'.1, h.2.trans h'.2, h.3.trans h'.3⟩

/-- Reports that differ in their traces contribute alike. -/
theorem Contribution.Alike.add {k l : Contribution} (h : k.Alike l) {r s : Report}
    (hr : r.Alike s) : (k.add r).Alike (l.add s) :=
  ⟨congrArg₂ Conditions.extend h.conditions hr.conditions,
    congrArg₂ (· + ·) h.eliminations hr.eliminations⟩

/-- Contributions that are alike can be taken into progress that is alike, whatever is recorded of
it. -/
theorem Progress.Alike.absorb {p q : Progress} (h : p.Alike q) {k l : Contribution}
    (hk : k.Alike l) (small large : Config) : (p.absorb small k).Alike (q.absorb large l) :=
  ⟨h.session, congrArg₂ Conditions.extend h.conditions hk.conditions,
    congrArg₂ (· + ·) h.eliminations hk.eliminations⟩

/-- What attempts write down makes no difference, apart from the number of eliminations. -/
theorem Attempt.Records.alike {s s' : Setting} {w w' : Progress → Progress}
    (hw : Records s s' w w') {p q : Progress} (h : p.Alike q) : (w p).Alike (w' q) := by
  have unrecorded : ∀ (s : Setting) (p : Progress) (name : String) (e : Expr)
      (explanation : Option String), (p.recordPass s name e explanation).Alike p := by
    intro s p name e explanation
    rw [Progress.recordPass]
    dsimp only
    split <;> exact ⟨⟨rfl, rfl, rfl⟩, rfl, rfl⟩
  cases hw with
  | pass _ e => exact (unrecorded s p _ e none).trans (h.trans (unrecorded s' q _ e none).symm)
  | elimination e explanation explanation' =>
    have counted : p.countElimination.Alike q.countElimination :=
      ⟨⟨h.1.1, congrArg (· + 1) h.1.2, h.1.3⟩, h.2, congrArg (· + 1) h.3⟩
    exact (unrecorded s _ _ e explanation).trans
      (counted.trans (unrecorded s' _ _ e explanation').symm)
  | expression index => exact ⟨h.1, h.2, h.3⟩
  | notZero index => exact ⟨h.1.log _ _, h.2, h.3⟩

/-! ## Operations that agree -/

/-- If the first operation succeeds, so does the second with the same result, and if failures count,
both fail in the same way. The states stay related. -/
def Agree (failures : Prop) (R : σ → σ → Prop) (m m' : ExceptT ProofError (StateM σ) α) : Prop :=
  ∀ s t, R s t → ((∃ e, (m.run s).1 = .error e) → failures) →
    (m'.run t).1 = (m.run s).1 ∧ R (m.run s).2 (m'.run t).2

section
variable {failures : Prop} {σ : Type} {R : σ → σ → Prop}

/-- Operations that return the same agree. -/
theorem agree_pure (a : α) : Agree failures R (pure a) (pure a) := fun _ _ h _ => ⟨rfl, h⟩

/-- Changes of the state agree if they keep it related. -/
theorem agree_modify {f g : σ → σ} (h : ∀ s t, R s t → R (f s) (g t)) :
    Agree failures R (modify f) (modify g) := fun s t hst _ => ⟨rfl, h s t hst⟩

/-- Failing in the same way is to agree. -/
theorem agree_throw (e : ProofError) :
    Agree failures R (throw e : ExceptT ProofError (StateM σ) α) (throw e) :=
  fun _ _ h _ => ⟨rfl, h⟩

/-- One operation after another agrees with two others if each of them does. -/
theorem agree_bind {m m' : ExceptT ProofError (StateM σ) α}
    {f f' : α → ExceptT ProofError (StateM σ) β}
    (hm : Agree failures R m m') (hf : ∀ a, Agree failures R (f a) (f' a)) :
    Agree failures R (m >>= f) (m' >>= f') := by
  intro s t hst hfail
  have hm := hm s t hst
  rw [run_bind] at hfail ⊢
  rw [run_bind]
  revert hm hfail
  rcases m.run s with ⟨e | a, s'⟩ <;> rcases m'.run t with ⟨e' | a', t'⟩ <;> intro hfail hm
  · obtain ⟨hr, hs⟩ := hm fun _ => hfail ⟨e, rfl⟩
    cases hr
    exact ⟨rfl, hs⟩
  · obtain ⟨hr, -⟩ := hm fun _ => hfail ⟨e, rfl⟩
    cases hr
  · obtain ⟨hr, -⟩ := hm fun ⟨_, h⟩ => by cases h
    cases hr
  · obtain ⟨hr, hs⟩ := hm fun ⟨_, h⟩ => by cases h
    cases hr
    exact hf a s' t' hs hfail

/-- A limit that the first operation keeps does not stop the second if its limit is no smaller. -/
theorem agree_limit {m m' : ExceptT ProofError (StateM σ) α} (hm : Agree failures R m m')
    (size : Nat) {limit limit' : Nat} (h : limit ≤ limit') (same : failures → limit = limit') :
    Agree failures R
      (if size > limit then throw (.sizeLimit size limit) >>= fun (_ : Unit) => m else m)
      (if size > limit' then throw (.sizeLimit size limit') >>= fun (_ : Unit) => m' else m') := by
  by_cases exceeded : size > limit
  · intro s t hst hfail
    rw [if_pos exceeded] at hfail ⊢
    obtain rfl := same (hfail ⟨_, rfl⟩)
    rw [if_pos exceeded]
    exact ⟨rfl, hst⟩
  · rw [if_neg exceeded, if_neg (by omega)]
    exact hm

end

/-! ## Attempts that agree -/

/-- The limits are no smaller, and the same if failures count. -/
structure Config.Within (failures : Prop) (small large : Config) : Prop where
  depth : small.maxSubproofDepth ≤ large.maxSubproofDepth
  size : small.maxExpressionSize ≤ large.maxExpressionSize
  terms : small.maxExpansionTerms ≤ large.maxExpansionTerms
  same : failures → small.maxSubproofDepth = large.maxSubproofDepth ∧
    small.maxExpressionSize = large.maxExpressionSize ∧
    small.maxExpansionTerms = large.maxExpansionTerms

/-- Both proofs end with reports that are alike, or in the same error. -/
inductive ResultsAlike : Except ProofError Report → Except ProofError Report → Prop
  | ok {r s : Report} (h : r.Alike s) : ResultsAlike (.ok r) (.ok s)
  | error (e : ProofError) : ResultsAlike (.error e) (.error e)

/-- If the first way to prove statements decides one, so does the second in the same way, and if
failures count, it does the same otherwise. -/
def Subproof.Agree (failures : Prop) (prove prove' : Subproof) : Prop :=
  ∀ goal n σ τ, σ.Alike τ →
    ((∀ r, (prove goal n σ).1 = .ok r → r.verdict = .unknown) → failures) →
    ResultsAlike (prove goal n σ).1 (prove' goal n τ).1 ∧
      (prove goal n σ).2.Alike (prove' goal n τ).2

namespace Attempt

variable {failures : Prop} {c : Construction} {small large : Config} {n depth depth' : Nat}
  {sub sub' : Subproof}

/-- A report without a decision does not answer. -/
theorem answer_of_unknown (needed : Statement) {r : Report} (h : r.verdict = .unknown) :
    ∃ e, r.answer needed = .error e := by
  rw [Report.answer, h]
  rcases r.unknownReason with _ | _ | _ | _ <;> exact ⟨_, rfl⟩

/-- A needed statement is decided in the same way. One that is not decided stops the proof. -/
theorem agree_answer (hsub : Subproof.Agree failures sub sub') (needed : Statement) (m : Nat) :
    Agree failures (fun x y => x.1.Alike y.1 ∧ x.2.Alike y.2)
      (answer ⟨⟨c, small⟩, n, depth, sub⟩ needed m)
      (answer ⟨⟨c, large⟩, n, depth', sub'⟩ needed m) := by
  rintro ⟨p, k⟩ ⟨q, l⟩ ⟨hp, hk⟩ hfail
  have hsub := hsub needed m p.session q.session hp.session
  rw [run_answer] at hfail ⊢
  rw [run_answer]
  dsimp only at hfail ⊢
  revert hfail hsub
  rcases sub needed m p.session with ⟨result, σ⟩
  rcases sub' needed m q.session with ⟨result', τ⟩
  intro hfail hsub
  obtain ⟨results, alike⟩ := hsub fun unknown => hfail (by
    cases result with
    | error e => exact ⟨e, rfl⟩
    | ok r => exact answer_of_unknown needed (unknown r rfl))
  cases results with
  | error e => exact ⟨rfl, ⟨alike, hp.2, hp.3⟩, hk⟩
  | ok h =>
    refine ⟨?_, ⟨alike, hp.2, hp.3⟩, hk.add h⟩
    dsimp only
    rw [Report.answer, Report.answer, h.verdict, h.unknownReason]

/-- Inquiries that are carried out with proofs that agree do so themselves. -/
theorem agree_inquire (hsub : Subproof.Agree failures sub sub') (q : Inquiry Expr) :
    Agree failures Progress.Alike (inquire ⟨⟨c, small⟩, n, depth, sub⟩ q)
      (inquire ⟨⟨c, large⟩, n, depth', sub'⟩ q) := by
  have nested : Agree failures (fun x y => x.1.Alike y.1 ∧ x.2.Alike y.2)
      (q.run (answer ⟨⟨c, small⟩, n, depth, sub⟩) (fun c => modify fun x => (x.1.rely c, x.2))
        (fun e => modify fun x => (x.1.log e, x.2)))
      (q.run (answer ⟨⟨c, large⟩, n, depth', sub'⟩) (fun c => modify fun x => (x.1.rely c, x.2))
        (fun e => modify fun x => (x.1.log e, x.2))) := by
    induction q with
    | done e => exact agree_pure e
    | fail e => exact agree_throw e
    | ask needed m next ih => exact agree_bind (agree_answer hsub needed m) ih
    | rely cond next ih =>
      refine agree_bind (agree_modify fun x y h => ?_) fun _ => ih
      exact ⟨⟨h.1.1, congrArg (·.push cond) h.1.2, h.1.3⟩, h.2⟩
    | report e next ih =>
      refine agree_bind (agree_modify fun x y h => ?_) fun _ => ih
      exact ⟨⟨h.1.1.log e e, h.1.2, h.1.3⟩, h.2⟩
  intro p p' hp hfail
  rw [run_inquire] at hfail ⊢
  rw [run_inquire]
  have nested := nested (p, .none) (p', .none) ⟨hp, rfl, rfl⟩ hfail
  exact ⟨nested.1, nested.2.1.absorb nested.2.2 _ _⟩

/-- Agreeing is kept by all that an attempt does. -/
theorem lifting_agree (hc : small.Within failures large)
    (hsub : Subproof.Agree failures sub sub') :
    Lifting ⟨⟨c, small⟩, n, depth, sub⟩ ⟨⟨c, large⟩, n, depth', sub'⟩
      fun m m' _ => Agree failures Progress.Alike m m' where
  construction := rfl
  prefixLength := rfl
  pure := agree_pure
  bind hm hf := agree_bind hm hf
  record hw _ _ _ hm := agree_bind (agree_modify fun _ _ => hw.alike) fun _ => hm
  inquire {q} _ := agree_inquire hsub q
  limit hl size _ _ _ hm := by
    rcases hl with rfl | rfl
    · exact agree_limit hm size hc.size fun h => (hc.same h).2.1
    · exact agree_limit hm size hc.terms fun h => (hc.same h).2.2

end Attempt

/-! ## Proofs that agree -/

namespace Setting

/-- What attempts that are alike come to is concluded alike. -/
theorem conclude_alike (s s' : Setting) (goal : Statement) (result : Except ProofError Bool)
    {p q : Progress} (h : p.Alike q) :
    ResultsAlike (s.conclude goal result p).1 (s'.conclude goal result q).1 ∧
      (s.conclude goal result p).2.Alike (s'.conclude goal result q).2 := by
  cases result with
  | ok b => exact ⟨.ok ⟨rfl, rfl, rfl, h.2, h.3, rfl⟩, (h.1.note goal b).log _ _⟩
  | error e =>
    rw [conclude, conclude]
    dsimp only
    cases e.unknownReason? with
    | none => exact ⟨.error e, h.1⟩
    | some reason => exact ⟨.ok ⟨rfl, rfl, rfl, h.2, h.3, rfl⟩, (h.1.log _ _).log _ _⟩

variable {failures : Prop} {c : Construction} {small large : Config} {n depth depth' : Nat}
  {sub sub' : Subproof} (hc : small.Within failures large)
  (hsub : Subproof.Agree failures sub sub')
include hc hsub

/-- An attempt that ends with a decision ends in the same way under larger limits, and if failures
count, so does any other. -/
theorem agree_attempt (goal : Statement) {σ τ : Session} (h : σ.Alike τ)
    (hfail : (∀ r, (attempt ⟨⟨c, small⟩, n, depth, sub⟩ goal σ).1 = .ok r →
      r.verdict = .unknown) → failures) :
    ResultsAlike (attempt ⟨⟨c, small⟩, n, depth, sub⟩ goal σ).1
        (attempt ⟨⟨c, large⟩, n, depth', sub'⟩ goal τ).1 ∧
      (attempt ⟨⟨c, small⟩, n, depth, sub⟩ goal σ).2.Alike
        (attempt ⟨⟨c, large⟩, n, depth', sub'⟩ goal τ).2 := by
  let s : Setting := ⟨⟨c, small⟩, n, depth, sub⟩
  let s' : Setting := ⟨⟨c, large⟩, n, depth', sub'⟩
  have begun : (s.begin goal σ).session.Alike (s'.begin goal τ).session := h.foldl_log _ _
  obtain ⟨same, found⟩ := begun.findCollinear c
  have same : s.collinear goal σ = s'.collinear goal τ := same
  have started : (s.started goal σ).Alike (s'.started goal τ) := ⟨found, rfl, rfl⟩
  have lifting : Attempt.Lifting s s' _ := Attempt.lifting_agree hc hsub
  have agree := lifting.allVanish (s.collinear goal σ) 0 goal.expressions (s.started goal σ)
    (s'.started goal τ) started
  rw [attempt_eq] at hfail ⊢
  rw [attempt_eq, ← same]
  dsimp only at hfail ⊢
  revert agree hfail
  generalize ExceptT.run (Attempt.allVanish s (s.collinear goal σ) 0 goal.expressions) _ = run
  generalize ExceptT.run (Attempt.allVanish s' (s.collinear goal σ) 0 goal.expressions) _ = run'
  obtain ⟨result, p⟩ := run
  obtain ⟨result', q⟩ := run'
  intro hfail agree
  -- If it fails, failures count, since what ends with an error is not decided.
  obtain ⟨rfl, alike⟩ := agree fun failed => by
    obtain ⟨e, rfl⟩ := failed
    exact hfail fun r => verdict_of_conclude_error
  exact conclude_alike s s' goal _ alike

/-- Proving a statement, from memory or by an attempt. -/
theorem agree_prove (m : Nat) :
    Subproof.Agree failures
      (fun goal n σ => prove ⟨⟨c, small⟩, min n m, depth, sub⟩ goal σ)
      (fun goal n σ => prove ⟨⟨c, large⟩, min n m, depth', sub'⟩ goal σ) := by
  intro goal n σ τ h hfail
  dsimp only at hfail ⊢
  have same : fault? ⟨⟨c, large⟩, min n m, depth', sub'⟩ goal =
    fault? ⟨⟨c, small⟩, min n m, depth, sub⟩ goal := rfl
  rcases prove_cases ⟨⟨c, small⟩, min n m, depth, sub⟩ goal σ with
    ⟨holds, hd, eq⟩ | ⟨hd, ⟨fault, hf, eq⟩ | ⟨hf, eq⟩⟩ <;> rw [eq] at hfail ⊢ <;>
    rw [prove, ← h.decision?, hd]
  · exact ⟨.ok ⟨rfl, rfl, rfl, rfl, rfl, rfl⟩, h.log _ _⟩
  · dsimp only
    rw [same, hf]
    exact ⟨.error _, h⟩
  · dsimp only
    rw [same, hf]
    exact agree_attempt hc hsub goal h hfail

end Setting

namespace Problem

variable {failures : Prop} {c : Construction} {small large : Config}

/-- The deeper proofs may be nested, the more statements are decided, and none in another way. -/
theorem agree_proveNested (hc : small.Within failures large) {nesting nesting' : Nat}
    (h : nesting ≤ nesting') (same : failures → nesting = nesting') (depth depth' : Nat) :
    Subproof.Agree failures (proveNested ⟨c, small⟩ nesting depth)
      (proveNested ⟨c, large⟩ nesting' depth') := by
  have outer : ∀ {nesting nesting' depth depth'},
      Subproof.Agree failures (subproof ⟨c, small⟩ nesting depth)
        (subproof ⟨c, large⟩ nesting' depth') →
      Subproof.Agree failures (proveNested ⟨c, small⟩ nesting depth)
        (proveNested ⟨c, large⟩ nesting' depth') := by
    intro nesting nesting' depth depth' inner goal n σ τ
    rw [proveNested_eq, proveNested_eq]
    exact Setting.agree_prove hc inner c.length goal n σ τ
  induction nesting generalizing nesting' depth depth' with
  | zero =>
    -- The first proofs refuse to nest others, which counts as a failure.
    refine outer fun goal n σ τ alike hfail => ?_
    have counts := hfail fun r hr => by cases hr
    obtain rfl := same counts
    rw [subproof, subproof, (hc.same counts).1]
    exact ⟨.error _, alike⟩
  | succ nesting ih =>
    cases nesting' with
    | zero => exact absurd h (by simp)
    | succ nesting' =>
      exact outer (ih (Nat.le_of_succ_le_succ h) (fun counts => Nat.succ.inj (same counts))
        (depth + 1) (depth' + 1))

/-- Larger limits never change a decision: if a proof in a new session decides a statement, then one
with limits that are no smaller gives the same verdict with the same conditions in the same order,
after the same number of eliminations, and remembers the same statements. -/
theorem prove_of_larger_limits (goal : Statement)
    (depth : small.maxSubproofDepth ≤ large.maxSubproofDepth)
    (size : small.maxExpressionSize ≤ large.maxExpressionSize)
    (terms : small.maxExpansionTerms ≤ large.maxExpansionTerms) {r : Report} {σ : Session}
    (h : prove ⟨c, small⟩ goal .start = (.ok r, σ)) (decided : r.verdict ≠ .unknown) :
    ∃ r' σ', prove ⟨c, large⟩ goal .start = (.ok r', σ') ∧ r'.verdict = r.verdict ∧
      r'.conditions = r.conditions ∧ r'.eliminations = r.eliminations ∧
      σ'.decided = σ.decided ∧ σ'.eliminations = σ.eliminations := by
  have within : small.Within False large := ⟨depth, size, terms, False.elim⟩
  obtain ⟨results, alike⟩ := agree_proveNested (c := c) within (Nat.sub_le_sub_right depth 0)
    False.elim 0 0 goal c.length .start .start (.refl _) fun unknown =>
      decided (unknown r (congrArg Prod.fst h))
  change ResultsAlike (prove ⟨c, small⟩ goal .start).1 (prove ⟨c, large⟩ goal .start).1 at results
  change (prove ⟨c, small⟩ goal .start).2.Alike (prove ⟨c, large⟩ goal .start).2 at alike
  rw [h] at results alike
  revert results alike
  rcases prove ⟨c, large⟩ goal .start with ⟨result', σ'⟩
  intro results alike
  cases results with
  | ok same =>
    exact ⟨_, σ', rfl, same.verdict.symm, same.conditions.symm, same.eliminations.symm,
      alike.decided.symm, alike.eliminations.symm⟩

/-- Two free points and their midpoint. -/
def midpointOnly : Construction where
  symbols := .empty
  steps := [.point ⟨0⟩ .free, .point ⟨1⟩ .free,
    .point ⟨2⟩ (.ratio ⟨0⟩ ⟨0⟩ ⟨1⟩ (.rational (mkRat 1 2)))]

/-- That the midpoint is the first of the two points is refuted within tight limits, and therefore
also within the standard ones. -/
theorem midpoint_refuted_within_standard_limits :
    ∃ r σ, prove ⟨midpointOnly, .standard⟩ (.zero "M = A" (.ratio ⟨0⟩ ⟨2⟩ ⟨0⟩ ⟨1⟩)) .start =
        (.ok r, σ) ∧ r.verdict = .refuted ∧ r.conditions.toList = [.distinct ⟨0⟩ ⟨1⟩] ∧
      r.eliminations = 1 := by
  have tight : (prove ⟨midpointOnly, ⟨0, 20, 20, 0, false⟩⟩
      (.zero "M = A" (.ratio ⟨0⟩ ⟨2⟩ ⟨0⟩ ⟨1⟩)) .start).1.toOption.map
        (fun r => (r.verdict, r.conditions.toList, r.eliminations)) =
      some (.refuted, [.distinct ⟨0⟩ ⟨1⟩], 1) := by cbv
  obtain ⟨r, hr, shown⟩ := Option.map_eq_some_iff.1 tight
  simp only [Prod.mk.injEq] at shown
  obtain ⟨verdict, conditions, eliminations⟩ := shown
  have run : prove ⟨midpointOnly, ⟨0, 20, 20, 0, false⟩⟩
      (.zero "M = A" (.ratio ⟨0⟩ ⟨2⟩ ⟨0⟩ ⟨1⟩)) .start = (.ok r, _) :=
    Prod.ext (eq_ok_of_toOption hr) rfl
  have depth : 0 ≤ Config.standard.maxSubproofDepth := by decide
  obtain ⟨r', σ', run', hv, hc, he, -⟩ := prove_of_larger_limits _ depth (by decide) (by decide) run
    (by rw [verdict]; decide)
  exact ⟨r', σ', run', hv.trans verdict, hc ▸ conditions, he.trans eliminations⟩

end Problem

/-! ## Tracing -/

/-- A request to prove a statement over the first steps of the construction, as a proof that is
nested in others or not. -/
structure Call where
  goal : Statement
  prefixLength : Nat
  depth : Nat

namespace Problem

/-- What each of several requests yields, and the session after it. -/
def replies (problem : Problem) : List Call → Session → List (Except ProofError Report × Session)
  | [], _ => []
  | call :: calls, σ =>
    let reply := problem.proveAt call.prefixLength call.depth call.goal σ
    reply :: problem.replies calls reply.2

/-- What is recorded and what is printed makes no difference: whatever requests are made one after
another in a new session, each yields the same error, or reports that differ in their traces only,
and leaves sessions that differ in their logs only. -/
theorem replies_unaffected_by_tracing (c : Construction) (config : Config) (recordTrace : Bool)
    (printSizeLimit : Nat) (calls : List Call) :
    List.Forall₂ (fun reply reply' => ResultsAlike reply.1 reply'.1 ∧ reply.2.Alike reply'.2)
      (replies ⟨c, config⟩ calls .start)
      (replies ⟨c, { config with recordTrace, printSizeLimit }⟩ calls .start) := by
  have within : config.Within True { config with recordTrace, printSizeLimit } :=
    ⟨le_rfl, le_rfl, le_rfl, fun _ => ⟨rfl, rfl, rfl⟩⟩
  have lockstep : ∀ σ τ : Session, σ.Alike τ →
      List.Forall₂ (fun reply reply' => ResultsAlike reply.1 reply'.1 ∧ reply.2.Alike reply'.2)
        (replies ⟨c, config⟩ calls σ)
        (replies ⟨c, { config with recordTrace, printSizeLimit }⟩ calls τ) := by
    induction calls with
    | nil => exact fun _ _ _ => .nil
    | cons call calls ih =>
      intro σ τ alike
      have reply := agree_proveNested (c := c) within
        (le_refl (config.maxSubproofDepth - call.depth)) (fun _ => rfl) call.depth call.depth
        call.goal call.prefixLength σ τ alike fun _ => trivial
      exact .cons reply (ih _ _ reply.2)
  exact lockstep .start .start (.refl _)

end Problem

/-! ## The limit on terms -/

namespace Expr

/-- Regrouping gives up if the count exceeds the limit, and otherwise it succeeds. -/
theorem run_regroup (s : Setting) (p : Progress) (e : Expr) :
    ((Attempt.regroup s e).run p).1 =
      if e.cleared.unitProduct.expansionTerms > s.problem.config.maxExpansionTerms then
        .error (.sizeLimit e.cleared.unitProduct.expansionTerms s.problem.config.maxExpansionTerms)
      else .ok e.cleared.unitProduct.expanded.grouped.simplify := by
  have cleared : ∃ q, (Attempt.regroup s e).run p =
      (if e.cleared.unitProduct.expansionTerms > s.problem.config.maxExpansionTerms then
        throw (.sizeLimit e.cleared.unitProduct.expansionTerms s.problem.config.maxExpansionTerms)
      else do
        let e ← Attempt.pass s "right_associative" e.cleared.unitProduct.expanded
        let e ← Attempt.pass s "group" e.grouped
        Attempt.pass s "simplify" e.simplify : Attempt Expr).run q := ⟨_, rfl⟩
  obtain ⟨q, hq⟩ := cleared
  rw [hq]
  split
  · rfl
  · rfl

/-- The count made beforehand is the number of monomials, stopped at the ceiling of 64 bits. Below
the ceiling it bounds the number of terms that multiplying out leads to, which it is if no constant
is zero. So where regrouping succeeds with a limit below the ceiling, what it multiplies out keeps
to the limit. -/
theorem expansionTerms_bounds_expanded (e : Expr) :
    e.expansionTerms = min e.monomialCount (2 ^ 64 - 1) ∧
      (e.expansionTerms < 2 ^ 64 - 1 → e.expanded.terms.length ≤ e.expansionTerms ∧
        (e.containsZero = false → e.expanded.terms.length = e.expansionTerms)) ∧
      (e.expansionTerms = 2 ^ 64 - 1 → 2 ^ 64 - 1 ≤ e.monomialCount) ∧
      ∀ (s : Setting) (p : Progress), s.problem.config.maxExpansionTerms < 2 ^ 64 - 1 →
        (s.problem.config.maxExpansionTerms < e.cleared.unitProduct.expansionTerms ∧
          ((Attempt.regroup s e).run p).1 = .error (.sizeLimit
            e.cleared.unitProduct.expansionTerms s.problem.config.maxExpansionTerms)) ∨
        (e.cleared.unitProduct.expanded.terms.length ≤ s.problem.config.maxExpansionTerms ∧
          ((Attempt.regroup s e).run p).1 =
            .ok e.cleared.unitProduct.expanded.grouped.simplify) := by
  have count : ∀ f : Expr, f.expansionTerms = min f.monomialCount (2 ^ 64 - 1) :=
    expansionTerms_eq_min
  have bounded : ∀ f : Expr, f.expansionTerms < 2 ^ 64 - 1 →
      f.expanded.terms.length ≤ f.expansionTerms := by
    intro f hf
    have hle := f.length_expand_le
    have hcount := count f
    rw [length_terms_expanded]
    omega
  refine ⟨count e, fun h => ⟨bounded e h, fun h0 => ?_⟩, fun h => ?_, fun s p hs => ?_⟩
  · have heq := length_expand_eq h0
    have hcount := count e
    rw [length_terms_expanded]
    omega
  · have hcount := count e
    omega
  · rw [run_regroup]
    split
    next exceeded => exact .inl ⟨exceeded, rfl⟩
    next kept =>
      have kept := Nat.not_lt.1 kept
      exact .inr ⟨(bounded _ (kept.trans_lt hs)).trans kept, rfl⟩

/-- The product of `x + y` and `x + y + 1`. -/
def twoBrackets : Expr :=
  .product [.sum [scalar "x", scalar "y"], .sum [scalar "x", scalar "y", one]]

/-- Six terms are announced, there are six, and with the standard limit they are grouped. -/
theorem expansionTerms_bounds_twoBrackets :
    twoBrackets.expansionTerms = 6 ∧ twoBrackets.containsZero = false ∧
      twoBrackets.expanded.terms.length = twoBrackets.expansionTerms ∧
      twoBrackets.cleared.unitProduct.expansionTerms = 6 ∧
      twoBrackets.cleared.unitProduct.expanded.terms.length ≤
        Config.standard.maxExpansionTerms := by
  have six : twoBrackets.expansionTerms = 6 := by cbv
  have noZero : twoBrackets.containsZero = false := by cbv
  have six' : twoBrackets.cleared.unitProduct.expansionTerms = 6 := by cbv
  obtain ⟨-, counted, -, limited⟩ := expansionTerms_bounds_expanded twoBrackets
  refine ⟨six, noZero, (counted (by rw [six]; decide)).2 noZero, six', ?_⟩
  rcases limited ⟨⟨.empty, .standard⟩, 0, 0, fun _ _ session => (.error (.depthLimit 0), session)⟩
    (.start .start) (by decide) with exceeded | kept
  · rw [six'] at exceeded
    exact absurd exceeded.1 (by decide)
  · exact kept.1

end Expr

end AreaMethod
