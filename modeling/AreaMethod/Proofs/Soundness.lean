import AreaMethod.Proofs.Generic
import AreaMethod.Proofs.Memory

/-!
# What is proved holds

A statement that is found to hold does so at every nondegenerate placement that meets the conditions
of the report (`Problem.proved_holds`). Ratios have to be ratios of parallel segments, and there is
one more guard: of the points between which ratios measure (`Construction.Measured`), no two may
coincide at all nondegenerate placements. Without it the statement is false, for the ratio of two
segments that end in the eliminated point is measured along the line of that point if the first
segment lies there, which says nothing about the second if the first has no length
(`ratioOfNothing_proved`).

The argument is at the generic placement, where points that do not always coincide are apart. By
induction on how deeply proofs are nested, all that has been decided in the affirmative holds there
(`Problem.value_eq_zero_of_decides`), so that elimination keeps values; and what vanishes there
vanishes at every nondegenerate placement.
-/

namespace AreaMethod

/-! ## Between which points ratios measure -/

/-- The points of the ratios in a statement and in the coefficients of a construction, with those
that such points are displaced along. -/
inductive Construction.Measured (c : Construction) (goal : Statement) : Point → Prop
  | goal {e : Expr} {p q r s x : Point} (he : e ∈ goal.expressions)
    (ha : .ratio p q r s ∈ e.atomList) (hx : x ∈ [p, q, r, s]) : Measured c goal x
  | coefficient {y w u v : Point} {t : Expr} {p q r s x : Point}
    (hy : .point y (.ratio w u v t) ∈ c.steps) (ha : .ratio p q r s ∈ t.atomList)
    (hx : x ∈ [p, q, r, s]) : Measured c goal x
  | displaced {y : Point} {kind : PointKind} {d : Displacement} {x : Point}
    (h : Measured c goal y) (hy : .point y kind ∈ c.steps) (hd : kind.displacement? = some d)
    (hx : x ∈ [d.w, d.u, d.v]) : Measured c goal x

/-- Are all ratios in the statement and in the coefficients of the construction ratios of parallel
segments at the placement? -/
def Placement.Aligns {F : Type*} [Field F] (π : Placement F) (c : Construction)
    (goal : Statement) : Prop :=
  (∀ e ∈ goal.expressions, ∀ a ∈ e.atomList, π.Aligned a) ∧
    ∀ y w u v r, .point y (.ratio w u v r) ∈ c.steps → ∀ a ∈ r.atomList, π.Aligned a

namespace Construction

variable {c : Construction} {goal : Statement}

/-- Points between which is measured are constructed. -/
theorem Measured.madeBy (hc : Grounded c.steps) {n : Nat} (covered : c.Covers goal n) {x : Point}
    (h : c.Measured goal x) : MadeBy c.steps x := by
  induction h with
  | goal he ha hx =>
    have made := Statement.forall_mem_points_iff.1 (fun p hp =>
      containsBefore_iff.1 (covered.points p hp)) _ he
    exact (Shape.within_ofAtoms_iff.1 made _ ha _ hx).imp fun _ => List.mem_of_mem_take
  | @coefficient y w u v t _ _ _ _ _ hy ha hx =>
    have shift : (PointKind.ratio w u v t).displacement? = some ⟨w, u, v, t⟩ := rfl
    obtain ⟨-, ht⟩ := PointKind.support_of_displacement? shift
    exact hc.madeBy_support hy _ (ht _ ha _ hx)
  | displaced _ hy hd hx =>
    obtain ⟨⟨hw, hu, hv⟩, -⟩ := PointKind.support_of_displacement? hd
    refine hc.madeBy_support hy _ ?_
    simp only [List.mem_cons, List.not_mem_nil, or_false] at hx
    rcases hx with rfl | rfl | rfl
    exacts [hw, hu, hv]

/-- An atom is located if the points of ratios are in `S` and all others in `D` and `C`. -/
theorem located_of_measured {D S C : Point → Prop} {a : Atom}
    (hS : ∀ p q r s, a = .ratio p q r s → ∀ x ∈ [p, q, r, s], S x)
    (hp : ∀ x ∈ a.points, D x ∧ C x) : a.Located D S C := by
  cases a with
  | ratio p q r s => simpa [Atom.Located] using hS p q r s rfl
  | coordinate p i => exact (hp p (List.mem_singleton_self p)).2
  | area | pythagoras | scalar => exact fun x hx => (hp x hx).1

/-- Elimination never leaves the constructed points, and ratios never measure between others. -/
theorem scoped_of_measured (hc : Grounded c.steps) {n : Nat} (covered : c.Covers goal n)
    {t : Target} {kind : PointKind} (made : .point t.y kind ∈ c.steps)
    (shift : kind.displacement? = some t.shift) (other : ∀ q ∈ kind.support, q ≠ t.y) :
    t.Scoped (MadeBy c.steps) (c.Measured goal) (MadeBy c.steps) := by
  have inside : ∀ q ∈ kind.support, t.rest (MadeBy c.steps) q := fun q hq =>
    ⟨hc.madeBy_support made q hq, other q hq⟩
  obtain ⟨⟨hw, hu, hv⟩, ht⟩ := PointKind.support_of_displacement? shift
  refine ⟨⟨inside _ hw, inside _ hu, inside _ hv⟩, fun h => ?_, fun _ h => h.madeBy hc covered, ?_⟩
  · simpa using fun x hx => Measured.displaced h made shift (x := x) hx
  · have measured := PointKind.atoms_of_displacement? shift
      (p := fun a => ∀ p q r s, a = .ratio p q r s → ∀ x ∈ [p, q, r, s], c.Measured goal x)
      (fun w u v r ratio a ha p q r s heq x hx => .coefficient (ratio ▸ made) (heq ▸ ha) hx)
      (fun _ _ _ _ _ _ _ h => nomatch h) fun _ _ _ _ _ _ _ h => nomatch h
    exact Shape.within_ofAtoms_iff.2 fun a ha => located_of_measured (measured a ha) fun q hq =>
      ⟨inside q (ht a ha q hq), (inside q (ht a ha q hq)).1⟩

/-- The points of a statement are constructed, and those of its ratios are measured. -/
theorem located_goal {n : Nat} (covered : c.Covers goal n) {e : Expr}
    (he : e ∈ goal.expressions) :
    (Shape.ofAtoms (Atom.Located (MadeBy c.steps) (c.Measured goal) (MadeBy c.steps))).Within
      e := by
  have made := Statement.forall_mem_points_iff.1 (fun p hp =>
    containsBefore_iff.1 (covered.points p hp)) e he
  rw [Shape.within_ofAtoms_iff] at made ⊢
  refine fun a ha => located_of_measured
    (fun p q r s heq x hx => .goal he (heq ▸ ha) hx) fun x hx => ?_
  have := (made a ha x hx).imp fun _ => List.mem_of_mem_take
  exact ⟨this, this⟩

/-- Where ratios are aligned and the measured points are apart, points are ready for elimination. -/
theorem ready_of_measured {problem : Problem} (hc : Grounded problem.construction.steps) {n : Nat}
    (covered : problem.construction.Covers goal n) {F : Type*} [Field F] [DecidableEq F]
    [CharZero F] [Anisotropic F] {π : Placement F} (hπ : π.Nondegenerate problem.construction)
    (aligned : π.Aligns problem.construction goal)
    (separated : ∀ p q, problem.construction.Measured goal p →
      problem.construction.Measured goal q → π.Coincide p q → p = q) (m : Nat) :
    Course.Descent problem (CollinearSet.search problem.construction).1
      (fun _ => MadeBy problem.construction.steps) (problem.construction.Measured goal)
      (MadeBy problem.construction.steps)
      (fun t D => t.Ready π D (problem.construction.Measured goal)
        (MadeBy problem.construction.steps))
      (problem.construction.steps.take m).reverse := by
  refine descent_of_scoped hc _ rfl (fun p hp => hp.elim (Measured.madeBy hc covered) id)
    (fun t kind aims made shift other _ => ?_) m
  have inScope := scoped_of_measured hc covered made shift other
  refine ⟨inScope, ready_of_nondegenerate hπ aims made shift inScope
    (Shape.within_ofAtoms_iff.2 ?_) separated⟩
  exact PointKind.atoms_of_displacement? shift
    (fun w u v r ratio => aligned.2 t.y w u v r (ratio ▸ made)) (fun _ _ _ => trivial)
    fun _ _ _ => trivial

/-- Ratios that are aligned at every nondegenerate placement are aligned generically. -/
theorem generic_aligns (hc : Ordered c.steps) (hg : c.generic.Nondegenerate c)
    (h : ∀ P : Placement ℚ, P.Nondegenerate c → P.Aligns c goal) : c.generic.Aligns c goal := by
  have ratio : ∀ a : Atom, (∀ P : Placement ℚ, P.Nondegenerate c → P.Aligned a) →
      c.generic.Aligned a := by
    intro a ha
    cases a with
    | ratio p q r s => exact generic_parallel hc hg ha
    | area | pythagoras | scalar | coordinate => trivial
  exact ⟨fun e he a ha => ratio a fun P hP => (h P hP).1 e he a ha,
    fun y w u v r hy a ha => ratio a fun P hP => (h P hP).2 y w u v r hy a ha⟩

end Construction

/-! ## Decisions hold -/

namespace Problem

variable {problem : Problem}

/-- Only statements that make sense are decided. -/
theorem covers_of_outcome {nesting n : Nat} {goal : Statement} {b : Bool}
    (h : (problem.outcome nesting goal n []).result = .ok b) :
    problem.construction.Covers goal n := by
  rw [outcome_eq] at h
  rcases problem.outcomeBy_cases (problem.suboutcome nesting) goal n [] with ⟨holds, recalled, -⟩ |
    ⟨-, ⟨-, fault, eq⟩ | ⟨covered, -⟩⟩
  · cases recalled
  · rw [eq] at h
    cases h
  · exact covered

/-- Whatever has been decided in the affirmative holds at a placement where points are ready for
elimination, if the conditions that were met hold there. -/
theorem value_eq_zero_of_decides {F : Type*} [Field F] [DecidableEq F] [CharZero F] [Anisotropic F]
    {π : Placement F} (hπ : π.Nondegenerate problem.construction) {R S C : Point → Prop}
    (descent : Course.Descent problem (CollinearSet.search problem.construction).1 (fun _ => R) S C
      (fun t D => t.Ready π D S C)
      (problem.construction.steps.take problem.construction.length).reverse)
    {m : Memory} {conditions : Condition → Prop} (hm : Memory.Justified problem conditions m)
    (met : ∀ c, conditions c → π.Holds c) {level : Nat} {es : List Expr}
    (remembered : Memory.decision? m es = some true) (h : problem.Decides level es true)
    (located : ∀ e ∈ es, (Shape.ofAtoms (Atom.Located R S C)).Within e)
    (aligned : ∀ e ∈ es, (Shape.ofAtoms π.Aligned).Within e) :
    ∀ e ∈ es, e.DefinedAt π.atom → e.value π.atom = 0 := by
  induction level generalizing es with
  | zero => exact h.elim
  | succ level ih =>
    -- The course takes one path, on which answers are remembered and found at the level below.
    obtain ⟨-, leads⟩ := (hm.closed es true remembered).and (fun s n b b' hb hb' => by
      obtain ⟨level', hb⟩ := hm.decides s.expressions b hb
      exact hb.unique hb') h
    intro e he
    refine Course.value_eq_zero_of_vanishes (CollinearSet.sound_ofConstruction hπ) descent
      (fun _ _ => ⟨fun s n answer located aligned => ih answer.1 answer.2 located aligned,
        fun _ _ c hc => Placement.holds_normalize.1 (met _ hc.1)⟩)
      (located e he) (aligned e he) (Course.leads_allVanish_true leads e he)

/-- What is proved holds. Take a construction that is built and has different numbers for its
points, and a statement, such that at every nondegenerate placement all ratios are ratios of
parallel segments, and no two of the points between which ratios measure coincide at all of them. If
the statement is proved in a new session, then at every nondegenerate placement that meets the
conditions of the report, each of its expressions that is defined there vanishes. -/
theorem proved_holds (hc : problem.construction.Built)
    (labels : problem.construction.symbols.points.count ≤ 2 ^ 32) {goal : Statement}
    (aligns : ∀ P : Placement ℚ, P.Nondegenerate problem.construction →
      P.Aligns problem.construction goal)
    (apart : ∀ p q, problem.construction.Measured goal p → problem.construction.Measured goal q →
      (∀ P : Placement ℚ, P.Nondegenerate problem.construction → P.Coincide p q) → p = q)
    {r : Report} (hr : (problem.prove goal .start).1 = .ok r) (proved : r.verdict = .proved)
    {P : Placement ℚ} (hP : P.Nondegenerate problem.construction)
    (holds : ∀ c ∈ r.conditions.toList, P.Holds c) :
    ∀ e ∈ goal.expressions, ∀ q, e.eval P.atom = some q → q = 0 := by
  have ordered := hc.ordered labels
  obtain ⟨b, verdict, hb, conditions⟩ := outcome_of_proveAt Reached.start.fits hr (by simp [proved])
  obtain rfl : b = true := by cases b <;> simp_all [Verdict.ofBool]
  have covered := covers_of_outcome hb
  obtain ⟨adds, answer⟩ := outcome_remembers ordered hc.grounded _ goal
    problem.construction.length _ _ (Memory.justified_nil fun _ => False)
  obtain ⟨level, decides⟩ := adds.justified.decides _ _ (answer true hb)
  -- At the generic placement all ratios are aligned and the measured points are apart.
  have specializes := Construction.generic_specializesTo hP
  have generic := Construction.nondegenerate_generic ordered hP
  have aligned := Construction.generic_aligns ordered generic aligns
  have ready := Construction.ready_of_measured hc.grounded covered generic aligned
    (fun p q hp hq same => apart p q hp hq fun P hP =>
      (Construction.generic_specializesTo hP).coincide same) problem.construction.length
  have vanishes := value_eq_zero_of_decides generic ready adds.justified
    (fun c hc => specializes.holds (holds c ((conditions c).2 (hc.resolve_left id))))
    (answer true hb) decides (fun e he => Construction.located_goal covered he)
    fun e he => Shape.within_ofAtoms_iff.2 (aligned.1 e he)
  intro e he q hq
  obtain ⟨defined, rfl⟩ := Expr.eval_eq_some_iff.1 hq
  obtain ⟨defined, value⟩ := specializes.value defined
  rw [vanishes e he defined] at value
  exact value.eq_zero

/-- The steps that the requests for `halves` lead to. -/
theorem steps_halves : halves.construction.steps = [.point ⟨0⟩ .free, .point ⟨1⟩ .free,
    .line ⟨0⟩ ⟨0⟩ ⟨1⟩, .point ⟨2⟩ (.ratio ⟨0⟩ ⟨0⟩ ⟨1⟩ (.rational (mkRat 1 2))),
    .point ⟨3⟩ (.ratio ⟨0⟩ ⟨0⟩ ⟨2⟩ (.rational (mkRat 1 2))),
    .point ⟨4⟩ (.ratio ⟨0⟩ ⟨0⟩ ⟨1⟩ (.scalar "s"))] := by
  cbv

/-- What the placements of `halves` are. -/
theorem nondegenerate_halves_iff {P : Placement ℚ} : P.Nondegenerate halves.construction ↔
    (∀ i, P.coordinate ⟨2⟩ i =
      P.coordinate ⟨0⟩ i + 1 / 2 * (P.coordinate ⟨1⟩ i - P.coordinate ⟨0⟩ i)) ∧
    (∀ i, P.coordinate ⟨3⟩ i =
      P.coordinate ⟨0⟩ i + 1 / 2 * (P.coordinate ⟨2⟩ i - P.coordinate ⟨0⟩ i)) ∧
    ∀ i, P.coordinate ⟨4⟩ i =
      P.coordinate ⟨0⟩ i + P.scalar "s" * (P.coordinate ⟨1⟩ i - P.coordinate ⟨0⟩ i) := by
  simp only [Placement.Nondegenerate, Construction.points, steps_halves, List.filterMap_cons,
    Step.point?, List.filterMap_nil, List.forall_mem_cons, Placement.Satisfies, true_and]
  simp [Expr.scalar, Placement.atom, Rat.mkRat_eq_div]

/-- At every placement of `halves` the ratios of the statement are those of parallel segments. -/
theorem aligns_fromQuarter {P : Placement ℚ} (hP : P.Nondegenerate halves.construction) :
    P.Aligns halves.construction fromQuarter := by
  obtain ⟨m, x, y⟩ := nondegenerate_halves_iff.1 hP
  constructor
  · refine List.forall_mem_singleton.2 (Shape.within_ofAtoms_iff.1 ?_)
    simp only [Shape.within_sub, Expr.ratio, Expr.scalar, Shape.within_atom, Shape.ofAtoms,
      Placement.Aligned, Placement.Parallel, Placement.cross, Placement.x, Placement.y, m, x, y,
      and_true]
    constructor <;> ring
  · intro y w u v r hy a ha
    simp only [steps_halves, List.mem_cons, Step.point.injEq, reduceCtorEq, PointKind.ratio.injEq,
      and_false, false_or, List.not_mem_nil, or_false] at hy
    rcases hy with ⟨-, -, -, -, rfl⟩ | ⟨-, -, -, -, rfl⟩ | ⟨-, -, -, -, rfl⟩
    · simp [Expr.rational, Expr.atomList] at ha
    · simp [Expr.rational, Expr.atomList] at ha
    · simp only [Expr.scalar, Expr.atomList, List.mem_singleton] at ha
      subst ha
      trivial

/-- The points of `halves` in a row, all apart. -/
def row : Placement ℚ where
  coordinate p
    | .x => [0, 4, 2, 1, 3].getD p.number.toNat 0
    | .y => 0
  scalar _ := 3 / 4

/-- The points in a row are a placement of `halves`. -/
theorem nondegenerate_row : row.Nondegenerate halves.construction := by
  refine nondegenerate_halves_iff.2 ⟨fun i => ?_, fun i => ?_, fun i => ?_⟩
  all_goals
    cases i <;> decide +kernel

/-- Where `Y` is, measured from `X`, is as it is proved to be. -/
theorem fromQuarter_holds :
    ∃ r, (halves.prove fromQuarter .start).1 = .ok r ∧ r.verdict = .proved ∧
      ∀ P : Placement ℚ, P.Nondegenerate halves.construction →
        (∀ c ∈ r.conditions.toList, P.Holds c) →
        ∀ e ∈ fromQuarter.expressions, ∀ q, e.eval P.atom = some q → q = 0 := by
  have points : fromQuarter.points = [⟨0⟩, ⟨1⟩, ⟨3⟩, ⟨4⟩] := by cbv
  have covers : halves.construction.Covers fromQuarter halves.construction.length :=
    ⟨List.cons_ne_nil _ _, by simp [points, Construction.length, Construction.containsBefore_iff,
      steps_halves, MadeBy]⟩
  have measured : ∀ p, halves.construction.Measured fromQuarter p →
      p ∈ [⟨0⟩, ⟨1⟩, ⟨2⟩, ⟨3⟩, ⟨4⟩] := by
    intro p hp
    obtain ⟨kind, h⟩ := hp.madeBy halves_built.grounded covers
    simp only [steps_halves, List.mem_cons, Step.point.injEq, reduceCtorEq, false_or] at h ⊢
    tauto
  have apart : ∀ p ∈ [⟨0⟩, ⟨1⟩, ⟨2⟩, ⟨3⟩, ⟨4⟩], ∀ q ∈ [⟨0⟩, ⟨1⟩, ⟨2⟩, ⟨3⟩, ⟨4⟩],
      row.Coincide p q → p = q := by decide +kernel
  obtain ⟨r, hr, proved, -⟩ := prove_fromQuarter
  exact ⟨r, hr, proved, fun P hP holds => proved_holds halves_built halves_labels
    (fun _ => aligns_fromQuarter) (fun p q hp hq same =>
      apart p (measured p hp) q (measured q hq) (same row nondegenerate_row)) hr proved hP holds⟩

/-! ## A statement that is proved although it fails -/

/-- Two lines, the midpoint of the segment that the second goes through, and the point where they
meet, made twice. -/
def intersectionTwice : Problem :=
  ⟨.after [.free "A", .free "B", .free "C", .free "D", .line "l" ⟨0⟩ ⟨1⟩, .line "m" ⟨2⟩ ⟨3⟩,
    .intersection "X" ⟨0⟩ ⟨1⟩, .midpoint "Z" ⟨2⟩ ⟨3⟩, .intersection "Y" ⟨0⟩ ⟨1⟩], .standard⟩

/-- The ratio of the segment between the two points, which has no length, is said to be `-1`. -/
def ratioOfNothing : Statement := .zero "t" (.ratio ⟨4⟩ ⟨6⟩ ⟨5⟩ ⟨6⟩ + .one)

/-- The steps that the requests for `intersectionTwice` lead to. -/
theorem steps_intersectionTwice : intersectionTwice.construction.steps = [.point ⟨0⟩ .free,
    .point ⟨1⟩ .free, .point ⟨2⟩ .free, .point ⟨3⟩ .free, .line ⟨0⟩ ⟨0⟩ ⟨1⟩, .line ⟨1⟩ ⟨2⟩ ⟨3⟩,
    .point ⟨4⟩ (.intersection ⟨0⟩ ⟨1⟩ ⟨2⟩ ⟨3⟩),
    .point ⟨5⟩ (.ratio ⟨2⟩ ⟨2⟩ ⟨3⟩ (.rational (mkRat 1 2))),
    .point ⟨6⟩ (.intersection ⟨0⟩ ⟨1⟩ ⟨2⟩ ⟨3⟩)] := by
  cbv

/-- That the ratio is `-1` is proved on two conditions. -/
theorem prove_ratioOfNothing :
    ∃ r, (intersectionTwice.prove ratioOfNothing .start).1 = .ok r ∧ r.verdict = .proved ∧
      r.conditions.toList = [.notParallel ⟨0⟩ ⟨1⟩ ⟨2⟩ ⟨3⟩, .distinct ⟨2⟩ ⟨3⟩] := by
  have run : (intersectionTwice.prove ratioOfNothing .start).1.toOption.map
      (fun r => (r.verdict, r.conditions.toList)) =
        some (.proved, [.notParallel ⟨0⟩ ⟨1⟩ ⟨2⟩ ⟨3⟩, .distinct ⟨2⟩ ⟨3⟩]) := by cbv
  obtain ⟨r, hr, shown⟩ := Option.map_eq_some_iff.1 run
  exact ⟨r, eq_ok_of_toOption hr, Prod.mk.inj shown⟩

/-- The first segment of the ratio has no length, so it is parallel to the other one. -/
theorem aligns_ratioOfNothing {P : Placement ℚ}
    (hP : P.Nondegenerate intersectionTwice.construction) :
    P.Aligns intersectionTwice.construction ratioOfNothing := by
  -- The point is where its definition puts it, each time it is made.
  have displaced : ∀ y, .point y (.intersection ⟨0⟩ ⟨1⟩ ⟨2⟩ ⟨3⟩) ∈
      intersectionTwice.construction.steps → P.Displaced y _ := fun y hy =>
    (Placement.satisfies_iff_displaced rfl).1 (hP _ (Construction.mem_points_iff.2 hy))
  rw [steps_intersectionTwice] at displaced
  have x := displaced ⟨4⟩ (by simp)
  have y := displaced ⟨6⟩ (by simp)
  constructor
  · refine List.forall_mem_singleton.2 (Shape.within_ofAtoms_iff.1 ?_)
    simp [Expr.ratio, Shape.ofAtoms, Placement.Aligned, Placement.Parallel, Placement.cross,
      x.x_eq, x.y_eq, y.x_eq, y.y_eq]
  · intro y w u v r hy a ha
    simp only [steps_intersectionTwice, List.mem_cons, Step.point.injEq, reduceCtorEq,
      PointKind.ratio.injEq, and_false, false_or, List.not_mem_nil, or_false] at hy
    obtain ⟨-, -, -, -, rfl⟩ := hy
    simp [Expr.rational, Expr.atomList] at ha

/-- Where the lines are perpendicular. -/
def perpendicular : Placement ℚ where
  coordinate p
    | .x => [-1, 1, 0, 0, 0, 0, 0].getD p.number.toNat 0
    | .y => [0, 0, 1, 3, 0, 2, 0].getD p.number.toNat 0
  scalar _ := 0

/-- Perpendicular lines are a placement of `intersectionTwice`. -/
theorem nondegenerate_perpendicular :
    perpendicular.Nondegenerate intersectionTwice.construction := by
  simp only [Placement.Nondegenerate, Construction.points, steps_intersectionTwice,
    List.filterMap_cons, Step.point?, List.filterMap_nil, List.forall_mem_cons, Placement.Satisfies,
    true_and, Placement.area, Placement.Parallel, Placement.cross, Placement.x, Placement.y]
  refine ⟨?_, ⟨by simp, fun i => ?_⟩, ?_, by simp⟩
  · decide +kernel
  · rw [Expr.value_rational]
    cases i <;> decide +kernel
  · decide +kernel

/-- All ratios are ratios of parallel segments, and the statement is proved. Yet it fails at a
nondegenerate placement that meets the conditions of the report. -/
theorem ratioOfNothing_proved :
    (∀ P : Placement ℚ, P.Nondegenerate intersectionTwice.construction →
      P.Aligns intersectionTwice.construction ratioOfNothing) ∧
    ∃ r, (intersectionTwice.prove ratioOfNothing .start).1 = .ok r ∧ r.verdict = .proved ∧
      ∃ P : Placement ℚ, P.Nondegenerate intersectionTwice.construction ∧
        (∀ c ∈ r.conditions.toList, P.Holds c) ∧
        ∃ e ∈ ratioOfNothing.expressions, e.eval P.atom = some 1 := by
  obtain ⟨r, hr, proved, conditions⟩ := prove_ratioOfNothing
  have met : ∀ c ∈ r.conditions.toList, perpendicular.Holds c := by
    rw [conditions]
    simp only [List.forall_mem_cons, Placement.Holds, Placement.Parallel, Placement.cross,
      Placement.x, Placement.y]
    refine ⟨?_, ?_, by simp⟩
    · decide +kernel
    · decide +kernel
  have value : (Expr.ratio ⟨4⟩ ⟨6⟩ ⟨5⟩ ⟨6⟩ + .one).eval perpendicular.atom = some 1 := by
    have atom : perpendicular.atom (.ratio ⟨4⟩ ⟨6⟩ ⟨5⟩ ⟨6⟩) = some 0 := by decide +kernel
    rw [Expr.eval_eq_some_iff]
    simp [Expr.ratio, atom]
  exact ⟨fun _ => aligns_ratioOfNothing, r, hr, proved, perpendicular, nondegenerate_perpendicular,
    met, _, List.mem_singleton_self _, value⟩

end Problem

end AreaMethod
