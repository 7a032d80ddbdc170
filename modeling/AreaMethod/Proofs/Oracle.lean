import AreaMethod.Proofs.Scope

/-!
# Inquiries with an oracle

Whether a point lies on the line along which another is measured is for someone else to answer. An
`Oracle` is anyone who does: it may fail, and what it answers may depend on what it was asked
before. `Inquiry.consult` carries an inquiry out with the answers of an oracle and collects the
conditions the result relies on; what it ends with is a result that those answers and conditions
lead to (`leads_of_consult`).

An oracle need not be right in general. If what it affirms is true at a placement (`TrueAt`), the
elimination of a point keeps the value of an expression there (`eliminate_value_of_trueAt`), however
wrong its negative answers are, and the conditions that are collected are all it takes for the
result to have a value (`eliminate_eval_of_holds`). And whatever an oracle answers, the point is
gone but for atoms that stay as they are, and all points that come in were constructed before it
(`Built.eliminate_looks_back`).
-/

namespace AreaMethod

/-- One who answers whether statements hold, or fails to, and remembers what it likes. -/
abbrev Oracle (σ : Type) := Statement → Nat → σ → Except ProofError Bool × σ

/-- Puts a question to the oracle, while conditions are being collected. -/
def Oracle.ask (oracle : Oracle σ) (s : Statement) (n : Nat) :
    ExceptT ProofError (StateM (σ × Conditions)) Bool :=
  ExceptT.mk fun (m, cs) => ((oracle s n m).1, (oracle s n m).2, cs)

/-- Carries out an inquiry with the answers of an oracle, and collects the conditions it relies
on. -/
def Inquiry.consult (oracle : Oracle σ) (q : Inquiry α) :
    ExceptT ProofError (StateM (σ × Conditions)) α :=
  q.run oracle.ask (fun c => modify fun (m, cs) => (m, cs.push c)) fun _ => pure ()

variable {σ α : Type}

/-- A question changes the state of the oracle and no conditions. -/
theorem Oracle.run_ask (oracle : Oracle σ) (s : Statement) (n : Nat) (m : σ) (cs : Conditions) :
    (oracle.ask s n).run (m, cs) = ((oracle s n m).1, (oracle s n m).2, cs) := rfl

/-- Can this be what the oracle answers? -/
def Oracle.Answers (oracle : Oracle σ) (s : Statement) (n : Nat) (b : Bool) : Prop :=
  ∃ m, (oracle s n m).1 = .ok b

/-- Does the oracle affirm only what is true at the placement? -/
def Oracle.TrueAt (oracle : Oracle σ) (P : Placement ℚ) : Prop :=
  ∀ s n, oracle.Answers s n true → ∀ e ∈ s.expressions, e.eval P.atom = some 0

namespace Inquiry

variable {oracle : Oracle σ}

/-- What an inquiry ends with is what the answers of the oracle and the conditions that are
collected lead to. Conditions are never dropped. -/
theorem leads_of_consult {q : Inquiry α} {m m' : σ} {cs cs' : Conditions} {a : α}
    (h : (q.consult oracle).run (m, cs) = (.ok a, m', cs')) :
    (∀ c ∈ cs.toList, c ∈ cs'.toList) ∧
      q.Leads oracle.Answers (fun c => c.normalize ∈ cs'.toList) a := by
  induction q generalizing m cs with
  | done b =>
    obtain ⟨hb, hcs⟩ := Prod.mk.inj h
    obtain ⟨-, rfl⟩ := Prod.mk.inj hcs
    exact ⟨fun _ hc => hc, Except.ok.inj hb⟩
  | fail e => cases (Prod.mk.inj h).1
  | ask s n next ih =>
    rw [consult, run, run_bind, Oracle.run_ask] at h
    cases hb : (oracle s n m).1 with
    | error e =>
      rw [hb] at h
      cases (Prod.mk.inj h).1
    | ok b =>
      rw [hb] at h
      obtain ⟨kept, leads⟩ := ih b h
      exact ⟨kept, b, ⟨m, hb⟩, leads⟩
  | rely c next ih =>
    rw [consult, run, run_bind] at h
    have rest : (next.consult oracle).run (m, cs.push c) = (.ok a, m', cs') := h
    obtain ⟨kept, leads⟩ := ih rest
    exact ⟨fun d hd => kept d (Conditions.mem_push.2 (.inl hd)),
      kept _ (Conditions.mem_push.2 (.inr rfl)), leads⟩
  | report e next ih =>
    rw [consult, run, run_bind] at h
    exact ih h

end Inquiry

/-! ## Eliminating a point -/

section
variable {oracle : Oracle σ} {c : Construction} {k : CollinearSet} {t : Target} {P : Placement ℚ}

/-- An oracle that affirms only what is true does not mistake points for points on a line. -/
theorem Target.reliable_of_trueAt (h : P.Displaced t.y t.shift) (sound : t.collinear.Sound P)
    (truthful : oracle.TrueAt P) {relies : Condition → Prop} (x : Point) :
    t.Reliable P oracle.Answers relies x := by
  refine reliable_of_answers h sound fun n hn => ?_
  have vanishes := truthful _ n hn (t.offset x) (List.mem_singleton.2 rfl)
  exact (Expr.eval_eq_some_iff.1 vanishes).2

/-- Elimination keeps values, whatever the oracle denies. At a placement where the point satisfies
its definition, where what is taken to be collinear is so, where all that the oracle affirms is true
and where ratios that mention the point are ratios of parallel segments, what an expression is
replaced by has the same value if both have one. -/
theorem Construction.eliminate_value_of_trueAt {y : Point} {kind : PointKind}
    (made : c.kind? y = some kind) (placed : P.Satisfies y kind) (sound : k.Sound P)
    (truthful : oracle.TrueAt P) {e : Expr}
    (aligned : ∀ a ∈ e.atomList, a.mentions y = true → P.Aligned a) {m m' : σ}
    {cs cs' : Conditions} {e' : Expr}
    (eliminated : ((c.eliminate k y e).consult oracle).run (m, cs) = (.ok e', m', cs')) {q q' : ℚ}
    (before : e.eval P.atom = some q) (after : e'.eval P.atom = some q') : q' = q := by
  obtain ⟨-, leads⟩ := Inquiry.leads_of_consult eliminated
  obtain ⟨definedBefore, rfl⟩ := Expr.eval_eq_some_iff.1 before
  obtain ⟨definedAfter, rfl⟩ := Expr.eval_eq_some_iff.1 after
  rcases exists_aims k made with free | ⟨t, rfl, aims, shift⟩
  · rw [eliminate_of_isFree free] at leads
    rw [← leads]
  rcases leads_eliminate aims leads with ⟨-, leads⟩ | ⟨-, rfl⟩
  · have displaced := (Placement.satisfies_iff_displaced shift).1 placed
    exact Target.eliminate_value displaced
      (Target.reliable_of_trueAt displaced (aims.collinear ▸ sound) truthful) aligned leads
      definedBefore definedAfter
  · rfl

/-- The oracle that affirms what is true at the placement, and counts what it is asked. -/
def Placement.exactOracle (P : Placement ℚ) : Oracle Nat := fun s _ m =>
  (.ok (s.expressions.all fun e => e.eval P.atom = some 0), m + 1)

/-- What this oracle affirms is true. -/
theorem Placement.trueAt_exactOracle (P : Placement ℚ) : P.exactOracle.TrueAt P := by
  rintro s n ⟨m, h⟩ e he
  simpa using List.all_eq_true.1 (Except.ok.inj h) e he

/-- A point on the line of two others, and one that need not be there. -/
def Construction.besideLine : Construction :=
  .after [.free "A", .free "B", .line "l" ⟨0⟩ ⟨1⟩, .free "X", .pointOnLine "Y" ⟨0⟩ "s"]

/-- All four points in a row. -/
def Placement.inRow : Placement ℚ where
  coordinate p
    | .x => [0, 4, 1, 3].getD p.number.toNat 0
    | .y => 0
  scalar _ := 3 / 4

/-- The ratio `XY / AB`. -/
def Expr.fromBeside : Expr := .ratio ⟨2⟩ ⟨3⟩ ⟨0⟩ ⟨1⟩

/-- The ratio `XY / AB` without `Y`, if `X` is on the line. -/
def Expr.fromBesideToLine : Expr :=
  (.ratio ⟨2⟩ ⟨0⟩ ⟨0⟩ ⟨1⟩ + .scalar "s") / .ratio ⟨0⟩ ⟨1⟩ ⟨0⟩ ⟨1⟩

/-- Measuring `Y` from `X` takes an answer to whether `X` is on the line. In this row it is, and the
ratio keeps its value. -/
theorem Construction.besideLine_keeps_ratio :
    ((besideLine.eliminate .empty ⟨3⟩ .fromBeside).consult Placement.inRow.exactOracle).run
      (0, .empty) = (.ok .fromBesideToLine, 1, ⟨[.distinct ⟨0⟩ ⟨1⟩]⟩) ∧
    Expr.fromBeside.eval Placement.inRow.atom = some (1 / 2) ∧
    Expr.fromBesideToLine.eval Placement.inRow.atom = some (1 / 2) := by
  have made : besideLine.kind? ⟨3⟩ = some (.ratio ⟨0⟩ ⟨0⟩ ⟨1⟩ (.scalar "s")) := by cbv
  have placed : Placement.inRow.Satisfies ⟨3⟩ (.ratio ⟨0⟩ ⟨0⟩ ⟨1⟩ (.scalar "s")) := by
    refine ⟨by simp [Expr.scalar, Placement.atom], fun i => ?_⟩
    simp only [Expr.scalar, Expr.value_atom, Placement.atom, Option.getD_some]
    cases i <;> decide +kernel
  have sound : CollinearSet.empty.Sound Placement.inRow := by
    simp [CollinearSet.Sound, CollinearSet.empty]
  have aligned : ∀ a ∈ Expr.fromBeside.atomList, a.mentions ⟨3⟩ = true →
      Placement.inRow.Aligned a := by
    simp [Expr.fromBeside, Expr.ratio, Expr.atomList, Placement.Aligned, Placement.Parallel,
      Placement.cross, Placement.y, Placement.inRow]
  have eliminated : ((besideLine.eliminate .empty ⟨3⟩ .fromBeside).consult
      Placement.inRow.exactOracle).run (0, .empty) =
        (.ok .fromBesideToLine, 1, ⟨[.distinct ⟨0⟩ ⟨1⟩]⟩) := by cbv
  have before : Expr.fromBeside.eval Placement.inRow.atom = some (1 / 2) := by cbv
  have defined : (Expr.fromBesideToLine.eval Placement.inRow.atom).isSome = true := by cbv
  obtain ⟨q, after⟩ := Option.isSome_iff_exists.1 defined
  refine ⟨eliminated, before, ?_⟩
  rw [after, eliminate_value_of_trueAt made placed sound (Placement.trueAt_exactOracle _) aligned
    eliminated before after]

/-- The condition on which a derived point is well defined keeps apart the points that it is
displaced along. -/
theorem PointKind.not_coincide_of_condition {kind : PointKind} {s : Displacement}
    {condition : Condition} (hs : kind.displacement? = some s)
    (hc : kind.condition? = some condition) (h : P.Holds condition) : ¬P.Coincide s.u s.v := by
  cases kind with
  | free => cases hs
  | ratio w u v r =>
    cases hs
    cases hc
    exact h
  | intersection u v a b =>
    cases hs
    cases hc
    rintro ⟨hx, hy⟩
    exact h (by simp [Placement.Parallel, Placement.cross, hx, hy])
  | foot p u v =>
    cases hs
    cases hc
    exact h

/-- The conditions that are collected suffice. Take a placement where the point satisfies its
definition, where what is taken to be collinear is so, where all that the oracle affirms is true and
where ratios that mention the point are ratios of parallel segments, none of them without length. If
the conditions hold there, what an expression with a value is replaced by has a value too, and it is
the same. -/
theorem Construction.eliminate_eval_of_holds {y : Point} {kind : PointKind}
    (made : c.kind? y = some kind) (placed : P.Satisfies y kind) (sound : k.Sound P)
    (truthful : oracle.TrueAt P) {e : Expr}
    (comparable : ∀ a ∈ e.atomList, a.mentions y = true → P.Comparable a) {m m' : σ}
    {cs cs' : Conditions} {e' : Expr}
    (eliminated : ((c.eliminate k y e).consult oracle).run (m, cs) = (.ok e', m', cs'))
    (met : ∀ condition ∈ cs'.toList, P.Holds condition) {q : ℚ}
    (before : e.eval P.atom = some q) : e'.eval P.atom = some q := by
  obtain ⟨-, leads⟩ := Inquiry.leads_of_consult eliminated
  obtain ⟨defined, rfl⟩ := Expr.eval_eq_some_iff.1 before
  rcases exists_aims k made with free | ⟨t, rfl, aims, shift⟩
  · rw [eliminate_of_isFree free] at leads
    rw [← leads, before]
  rcases leads_eliminate aims leads with
    ⟨⟨-, kind', condition, made', hc, relied⟩, leads⟩ | ⟨-, rfl⟩
  · obtain rfl := Option.some.inj (made.symm.trans made')
    have holds : ∀ d : Condition, d.normalize ∈ cs'.toList → P.Holds d := fun d hd =>
      Placement.holds_normalize.1 (met _ hd)
    have displaced := (Placement.satisfies_iff_displaced shift).1 placed
    have apart := PointKind.not_coincide_of_condition shift hc (holds _ relied)
    exact Expr.eval_eq_some_iff.2 (Target.eliminate_keeps_of_comparable displaced
      (Target.reliable_of_trueAt displaced (aims.collinear ▸ sound) truthful) apart holds comparable
      leads defined)
  · exact before

/-- Two lines that meet, a point on one of them and one that comes after where they meet. -/
def Construction.crossing : Construction :=
  .after [.free "A", .free "B", .free "C", .free "D", .line "l" ⟨0⟩ ⟨1⟩, .line "m" ⟨2⟩ ⟨3⟩,
    .midpoint "X" ⟨2⟩ ⟨3⟩, .intersection "Y" ⟨0⟩ ⟨1⟩, .midpoint "Z" ⟨0⟩ ⟨5⟩]

/-- The first line lies flat and the second is upright. -/
def Placement.upright : Placement ℚ where
  coordinate p
    | .x => [-1, 1, 0, 0, 0, 0, -1 / 2].getD p.number.toNat 0
    | .y => [0, 0, -1, 3, 1, 0, 0].getD p.number.toNat 0
  scalar _ := 0

/-- The ratio `XY / CD`. -/
def Expr.upToCrossing : Expr := .ratio ⟨4⟩ ⟨5⟩ ⟨2⟩ ⟨3⟩

/-- The ratio `XY / CD` without `Y`, if `X` is not on the line of `A` and `B`. -/
def Expr.upToCrossingByAreas : Expr :=
  (.area ⟨4⟩ ⟨0⟩ ⟨1⟩ - .area ⟨0⟩ ⟨0⟩ ⟨1⟩) / (.area ⟨2⟩ ⟨0⟩ ⟨1⟩ - .area ⟨3⟩ ⟨0⟩ ⟨1⟩)

/-- Here `X` is not on the line along which `Y` is measured, so the ratio becomes one of areas. That
the lines are not parallel is all it takes for that to have a value. -/
theorem Construction.crossing_keeps_ratio :
    ((crossing.eliminate .empty ⟨5⟩ .upToCrossing).consult Placement.upright.exactOracle).run
      (0, .empty) = (.ok .upToCrossingByAreas, 1, ⟨[.notParallel ⟨0⟩ ⟨1⟩ ⟨2⟩ ⟨3⟩]⟩) ∧
    Expr.upToCrossing.eval Placement.upright.atom = some (-1 / 4) ∧
    Expr.upToCrossingByAreas.eval Placement.upright.atom = some (-1 / 4) := by
  have made : crossing.kind? ⟨5⟩ = some (.intersection ⟨0⟩ ⟨1⟩ ⟨2⟩ ⟨3⟩) := by cbv
  have placed : Placement.upright.Satisfies ⟨5⟩ (.intersection ⟨0⟩ ⟨1⟩ ⟨2⟩ ⟨3⟩) := by
    rw [Placement.Satisfies]
    decide +kernel
  have sound : CollinearSet.empty.Sound Placement.upright := by
    simp [CollinearSet.Sound, CollinearSet.empty]
  have comparable : ∀ a ∈ Expr.upToCrossing.atomList, a.mentions ⟨5⟩ = true →
      Placement.upright.Comparable a := by
    simp only [Expr.upToCrossing, Expr.ratio, Expr.atomList, List.forall_mem_singleton,
      Placement.Comparable]
    decide +kernel
  have eliminated : ((crossing.eliminate .empty ⟨5⟩ .upToCrossing).consult
      Placement.upright.exactOracle).run (0, .empty) =
        (.ok .upToCrossingByAreas, 1, ⟨[.notParallel ⟨0⟩ ⟨1⟩ ⟨2⟩ ⟨3⟩]⟩) := by cbv
  have met : ¬Placement.upright.Parallel ⟨0⟩ ⟨1⟩ ⟨2⟩ ⟨3⟩ := by decide +kernel
  have before : Expr.upToCrossing.eval Placement.upright.atom = some (-1 / 4) := by cbv
  exact ⟨eliminated, before, eliminate_eval_of_holds made placed sound
    (Placement.trueAt_exactOracle _) comparable eliminated (List.forall_mem_singleton.2 met)
    before⟩

/-- Elimination removes the point and only looks back, whatever the oracle answers. In a
construction that is built, the point is left only in atoms that were there before, which are its
coordinates and ratios to a segment that is given by one point twice; and every point that comes in
is constructed by a step before the one that makes the point. -/
theorem Construction.Built.eliminate_looks_back (hc : c.Built) {y : Point}
    (derived : c.isFree y = false) {e e' : Expr} {m m' : σ} {cs cs' : Conditions}
    (eliminated : ((c.eliminate k y e).consult oracle).run (m, cs) = (.ok e', m', cs')) :
    (∀ a ∈ e'.atomList, a.mentions y = true → a ∈ e.atomList ∧
      ((∃ i, a = .coordinate y i) ∨ ∃ p q r, a = .ratio p q r r)) ∧
    ∃ n, c.stepIndex? y = some n ∧
      ∀ p ∈ e'.points, p ∈ e.points ∨ c.containsBefore p n = true := by
  obtain ⟨-, leads⟩ := Inquiry.leads_of_consult eliminated
  obtain ⟨kind, hk⟩ := kind?_of_leads leads
  rcases exists_aims k hk with free | ⟨t, rfl, aims, -⟩
  · rw [free] at derived
    cases derived
  rcases leads_eliminate aims leads with ⟨-, leads⟩ | ⟨absent, rfl⟩
  · obtain ⟨kind, -, -, -, shift, earlier⟩ := first_of_aims hc.grounded aims
    have left := Target.leaves_eliminate (e := e)
      (D := fun p => p ∈ e.points ∨ c.containsBefore p t.index = true) shift
      (fun q hq => ⟨.inr (containsBefore_iff.2 (earlier q hq).1), (earlier q hq).2⟩)
      (fun q hq => .inl hq) leads
    refine ⟨fun a ha hy => (left a ha).stays (by simpa [Atom.mentions] using hy),
      t.index, aims.index, fun p hp => ?_⟩
    obtain ⟨a, ha, hp⟩ := Expr.mem_points.1 hp
    exact (left a ha).points p hp
  · refine ⟨fun a ha hy => ?_, t.index, aims.index, fun p hp => .inl hp⟩
    exact absurd hy (List.any_eq_false.1 absent a ha)

/-- The abscissa of `Y`, the ratio of `YA` to `BB` and the area `YZC`. -/
def Expr.aboutCrossing : Expr :=
  .sum [.coordinate ⟨5⟩ .x, .ratio ⟨5⟩ ⟨0⟩ ⟨1⟩ ⟨1⟩, .area ⟨5⟩ ⟨6⟩ ⟨2⟩]

/-- The area is in terms of the points that `Y` is made from, and of `Z`, which comes after. -/
def Expr.aboutLines : Expr :=
  let t := .area ⟨0⟩ ⟨2⟩ ⟨3⟩ / (.area ⟨0⟩ ⟨2⟩ ⟨3⟩ - .area ⟨1⟩ ⟨2⟩ ⟨3⟩)
  .sum [.coordinate ⟨5⟩ .x, .ratio ⟨5⟩ ⟨0⟩ ⟨1⟩ ⟨1⟩,
    .sum [(one - t) * .area ⟨6⟩ ⟨2⟩ ⟨0⟩, t * .area ⟨6⟩ ⟨2⟩ ⟨1⟩]]

/-- What is said about `Y` stays where elimination has nothing to say, and `Z` stays although it is
made after `Y`. -/
theorem Construction.crossing_eliminate_looks_back :
    crossing.isFree ⟨5⟩ = false ∧
    ((crossing.eliminate .empty ⟨5⟩ .aboutCrossing).consult Placement.upright.exactOracle).run
      (0, .empty) = (.ok .aboutLines, 0, ⟨[.notParallel ⟨0⟩ ⟨1⟩ ⟨2⟩ ⟨3⟩]⟩) ∧
    (∀ a ∈ Expr.aboutLines.atomList, a.mentions ⟨5⟩ = true → a ∈ Expr.aboutCrossing.atomList ∧
      ((∃ i, a = .coordinate ⟨5⟩ i) ∨ ∃ p q r, a = .ratio p q r r)) ∧
    ∃ n, crossing.stepIndex? ⟨5⟩ = some n ∧ ∀ p ∈ Expr.aboutLines.points,
      p ∈ Expr.aboutCrossing.points ∨ crossing.containsBefore p n = true := by
  have derived : crossing.isFree ⟨5⟩ = false := by cbv
  have eliminated : ((crossing.eliminate .empty ⟨5⟩ .aboutCrossing).consult
      Placement.upright.exactOracle).run (0, .empty) =
        (.ok .aboutLines, 0, ⟨[.notParallel ⟨0⟩ ⟨1⟩ ⟨2⟩ ⟨3⟩]⟩) := by cbv
  exact ⟨derived, eliminated, (built_after _).eliminate_looks_back derived eliminated⟩

end

end AreaMethod
