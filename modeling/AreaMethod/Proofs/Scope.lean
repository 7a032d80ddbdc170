import AreaMethod.Proofs.Stages

/-!
# Courses over grounded constructions

In a construction whose steps refer to earlier ones, a derived point is displaced along points made
before it, so a set of points that has with each point those it is made from is never left by
elimination (`Construction.scoped_of_closed`, `descent_of_scoped`). It follows that

* everything asked in the course of a proof makes sense: it is about points that the steps it is
  about construct (`Problem.only_course`);
* the course does not depend on how many steps it is over, as long as they make the points of the
  statement and no point is made twice (`Problem.course_eq`).
-/

namespace AreaMethod

namespace Construction

variable {c : Construction}

/-- A step that is left when later ones are done with. -/
theorem steps_of_suffix {n : Nat} {s : Step} {rest : List Step}
    (hr : s :: rest <:+ (c.steps.take n).reverse) :
    ∃ after, c.steps = rest.reverse ++ s :: after := by
  obtain ⟨later, hl⟩ := hr
  have h := congrArg List.reverse hl
  rw [List.reverse_reverse, List.reverse_append, List.reverse_cons] at h
  refine ⟨later.reverse ++ c.steps.drop n, ?_⟩
  conv_lhs => rw [← List.take_append_drop n c.steps, ← h]
  simp

/-- The steps before a point is made first are among those before it is made. -/
theorem prefix_of_first {before before' after after' : List Step} {y : Point}
    {kind kind' : PointKind}
    (h : before ++ .point y kind :: after = before' ++ .point y kind' :: after')
    (new : ¬MadeBy before y) : before <+: before' := by
  rcases List.prefix_or_prefix_of_prefix (List.prefix_append before (.point y kind :: after))
    (h ▸ List.prefix_append before' (.point y kind' :: after')) with hp | ⟨more, rfl⟩
  · exact hp
  · rw [List.append_assoc] at h
    cases more with
    | nil => simp
    | cons s more =>
      obtain rfl := (List.cons.inj (List.append_cancel_left h)).1
      exact absurd ⟨kind', by simp⟩ new

/-- A point that is aimed at is made first by the step of that index, from points made before. -/
theorem first_of_aims (hc : Grounded c.steps) {k : CollinearSet} {t : Target} (aims : c.Aims k t) :
    ∃ kind after, c.steps = c.steps.take t.index ++ .point t.y kind :: after ∧
      ¬MadeBy (c.steps.take t.index) t.y ∧ kind.displacement? = some t.shift ∧
      ∀ q ∈ kind.support, MadeBy (c.steps.take t.index) q ∧ q ≠ t.y := by
  obtain ⟨kind, hk, shift⟩ := aims.kind
  obtain ⟨before, kind', after, hs, new⟩ := (contains_iff.1 (by rw [contains, hk]; rfl)).first
  obtain ⟨index, hk'⟩ := lookup_first hs new
  obtain rfl := Option.some.inj (hk.symm.trans hk')
  have first : c.steps.take t.index = before := by
    rw [← Option.some.inj (index.symm.trans aims.index), hs, List.take_left]
  rw [first]
  refine ⟨kind, after, hs, new, shift, fun q hq => ?_⟩
  have earlier := hc before _ after hs q hq
  refine ⟨earlier, ?_⟩
  rintro rfl
  exact new earlier

section
variable (hc : Grounded c.steps) (k : CollinearSet)
include hc

/-- A point that some step makes is free, or it can be aimed at and the points it is made from are
made by the steps before. -/
theorem exists_target {before after : List Step} {y : Point} {kind : PointKind}
    (hs : c.steps = before ++ .point y kind :: after) :
    c.isFree y = true ∨ ∃ (t : Target) (kind : PointKind), t.y = y ∧ c.Aims k t ∧
      .point y kind ∈ c.steps ∧ kind.displacement? = some t.shift ∧
      ∀ q ∈ kind.support, MadeBy before q ∧ q ≠ y := by
  have made : c.contains y = true :=
    contains_iff.2 ⟨kind, by rw [hs]; exact List.mem_append_right _ List.mem_cons_self⟩
  obtain ⟨kind', hk⟩ := Option.isSome_iff_exists.1 made
  rcases exists_aims k hk with free | ⟨t, rfl, aims, -⟩
  · exact .inl free
  obtain ⟨kind', after', hs', new, shift, earlier⟩ := first_of_aims hc aims
  refine .inr ⟨t, kind', rfl, aims, ?_, shift, fun q hq => ?_⟩
  · rw [hs']
    exact List.mem_append_right _ List.mem_cons_self
  · exact ⟨(earlier q hq).1.mono (prefix_of_first (hs'.symm.trans hs) new), (earlier q hq).2⟩

omit hc in
/-- A set of points that has with each point those it is made from has all that the elimination of
one of them brings in. -/
theorem scoped_of_closed {R : Point → Prop} {t : Target} {kind : PointKind}
    (shift : kind.displacement? = some t.shift) (inside : ∀ q ∈ kind.support, t.rest R q) :
    t.Scoped R R R := by
  obtain ⟨⟨hw, hu, hv⟩, ht⟩ := PointKind.support_of_displacement? shift
  refine ⟨⟨inside _ hw, inside _ hu, inside _ hv⟩,
    fun _ => ⟨(inside _ hw).1, (inside _ hu).1, (inside _ hv).1⟩, fun _ => id, ?_⟩
  refine Shape.within_ofAtoms_iff.2 fun a ha => Atom.located_of_forall_mem fun q hq => ?_
  exact ⟨inside q (ht a ha q hq), (inside q (ht a ha q hq)).1⟩

/-- Elimination never leaves a set of points if it brings in none but others of the set. -/
theorem descent_of_scoped {problem : Problem} (hp : problem.construction = c)
    {R S C : Point → Prop} (hR : ∀ p, S p ∨ C p → R p) {Q : Target → (Point → Prop) → Prop}
    (hQ : ∀ t kind, c.Aims k t → .point t.y kind ∈ c.steps → kind.displacement? = some t.shift →
      (∀ q ∈ kind.support, q ≠ t.y) → R t.y → t.Scoped R S C ∧ Q t R) (n : Nat) :
    Course.Descent problem k (fun _ => R) S C Q (c.steps.take n).reverse where
  within _ _ := hR
  skip _ _ _ _ h _ := h
  target y kind rest hr derived hy := by
    obtain ⟨after, hs⟩ := steps_of_suffix hr
    rcases exists_target hc k hs with free | ⟨t, kind, rfl, aims, made, shift, earlier⟩
    · exact .inl ⟨hp ▸ free, hy⟩
    · exact .inr ⟨t, rfl, hp ▸ aims, hQ t kind aims made shift (fun q hq => (earlier q hq).2) hy⟩

omit hc in
/-- At a nondegenerate placement a derived point can be eliminated if ratios are aligned and points
are apart. -/
theorem ready_of_nondegenerate {F : Type*} [Field F] [DecidableEq F] [CharZero F] [Anisotropic F]
    {π : Placement F} (h : π.Nondegenerate c) {D S C : Point → Prop} {t : Target}
    {kind : PointKind} (aims : c.Aims (CollinearSet.search c).1 t)
    (made : .point t.y kind ∈ c.steps) (shift : kind.displacement? = some t.shift)
    (inScope : t.Scoped D S C) (aligned : (Shape.ofAtoms π.Aligned).Within t.shift.t)
    (separated : ∀ p q, S p → S q → π.Coincide p q → p = q) : t.Ready π D S C where
  toScoped := inScope
  displaced := (Placement.satisfies_iff_displaced shift).1 (h (t.y, kind) (mem_points_iff.2 made))
  sound := by
    rw [aims.collinear]
    exact CollinearSet.sound_ofConstruction h
  aligned := aligned
  separated := separated

/-- Eliminating a constructed point from an expression of constructed points asks only what makes
sense, and does not fail. -/
theorem only_eliminate_of_madeBy {y : Point} (hy : MadeBy c.steps y) {e : Expr}
    (he : (Shape.ofAtoms fun a => ∀ p ∈ a.points, MadeBy c.steps p).Within e) :
    (c.eliminate k y e).Only c.Covers fun _ => False := by
  obtain ⟨kind, hy'⟩ := hy
  obtain ⟨before, after, hs⟩ := List.append_of_mem hy'
  rcases exists_target hc k hs with free | ⟨t, kind, rfl, aims, made, shift, earlier⟩
  · rw [eliminate_of_isFree free]
    exact trivial
  · have inScope := scoped_of_closed shift fun q hq =>
      ⟨hc.madeBy_support made q hq, (earlier q hq).2⟩
    refine only_eliminate aims ?_
    rw [← aims.construction]
    refine Target.only_eliminate (fun x hx => Target.only_onLine inScope
      (fun p hp => aims.construction ▸ hp) hx) (D := MadeBy c.steps) (C := MadeBy c.steps) ?_
    exact Shape.within_ofAtoms_mono (fun a ha => Atom.located_of_forall_mem fun p hp =>
      ⟨ha p hp, ha p hp⟩) he

end

end Construction

/-! ## What is asked -/

/-- There is nothing wrong with a statement if and only if it makes sense over the steps. -/
theorem Setting.fault?_eq_none_iff {s : Setting} {goal : Statement} :
    s.fault? goal = none ↔ s.problem.construction.Covers goal s.prefixLength := by
  rw [fault?]
  by_cases h : goal.expressions = []
  · simpa [h] using fun covered => covered.nonempty h
  · simpa [h] using ⟨fun points => ⟨h, points⟩, fun covered => covered.points⟩

/-- The points of a statement are in any set that has those made by the first steps. -/
theorem Construction.Covers.located {c : Construction} {goal : Statement} {n : Nat}
    (h : c.Covers goal n) {R : Point → Prop} (hR : ∀ p, MadeBy (c.steps.take n) p → R p) :
    ∀ e ∈ goal.expressions, (Shape.ofAtoms (Atom.Located R R R)).Within e := by
  have made := Statement.forall_mem_points_iff.1 fun p hp =>
    hR p (Construction.containsBefore_iff.1 (h.points p hp))
  refine fun e he => Shape.within_ofAtoms_mono (fun a ha => ?_) (made e he)
  exact Atom.located_of_forall_mem fun p hp => ⟨ha p hp, ha p hp⟩

/-- An atom that is written in coordinates has its points constructed. -/
theorem Atom.only_inCoordinates {c : Construction} {failed : ProofError → Prop}
    (inconclusive : ∀ s, failed (.inconclusive s)) {a : Atom}
    (h : ∀ p ∈ a.points, MadeBy c.steps p) : (a.inCoordinates c).Only c.Covers failed := by
  rw [inCoordinates.eq_def]
  split
  · exact trivial
  · split
    · exact ⟨trivial, inconclusive _⟩
    · split
      next _ p q r s _ _ =>
        have covered : c.Covers (.parallel p q r s) c.length := by
          simp only [points, List.forall_mem_cons] at h
          refine ⟨List.cons_ne_nil _ _, Statement.forall_mem_points_iff.2 ?_⟩
          simpa [Statement.parallel, Statement.zero, Construction.length,
            Construction.containsBefore_iff] using
            ⟨Expr.within_area h.1 h.2.2.1 h.2.2.2.1, Expr.within_area h.2.1 h.2.2.1 h.2.2.2.1⟩
        refine Inquiry.only_bind ⟨covered, fun _ => trivial⟩ fun b _ => ?_
        · cases b with
          | true => exact trivial
          | false => exact inconclusive _
      next => exact trivial

/-- Everything that is asked in the course of a proof makes sense. What can go wrong is that a limit
is met or that something cannot be decided. -/
theorem Problem.only_course {problem : Problem} (hc : Grounded problem.construction.steps) {n : Nat}
    {goal : Statement} (h : problem.construction.Covers goal n) :
    (problem.course n goal.expressions).Only problem.construction.Covers
      fun e => e.unknownReason?.isSome = true := by
  let R := MadeBy problem.construction.steps
  have descent : Course.Descent problem (CollinearSet.search problem.construction).1 (fun _ => R)
      R R (fun _ _ => True) (problem.construction.steps.take n).reverse :=
    Construction.descent_of_scoped hc _ rfl (fun _ h => h.elim id id)
      (fun _ _ _ made shift other _ => ⟨Construction.scoped_of_closed shift fun q hq =>
        ⟨hc.madeBy_support made q hq, other q hq⟩, trivial⟩) n
  have unoriented := Atom.unoriented_located R R R
  have made : ∀ a : Atom, a.Located R R R → ∀ p ∈ a.points, R p := fun a ha p hp =>
    ha.of_mem (fun _ h => h.elim id id) hp
  refine Course.only_allVanish fun e he => ?_
  have start := Course.within_start unoriented
    (h.located (fun p hp => hp.imp fun _ => List.mem_of_mem_take) e he)
  refine Course.only_vanishes (fun _ _ => rfl) (Course.only_eliminateAll descent.carries
    (fun y kind rest e hr derived hy he => ?_) start) fun g hg _ => ?_
  · obtain ⟨after, hs⟩ := Construction.steps_of_suffix hr
    have hy : R y := ⟨kind, by rw [hs]; exact List.mem_append_right _ List.mem_cons_self⟩
    exact Course.only_eliminate (fun _ _ => rfl) ((Construction.only_eliminate_of_madeBy hc _ hy
      (Shape.within_ofAtoms_mono made (Expr.within_tidied unoriented _ he))).mono
      (fun _ _ => id) (fun _ => False.elim) fun _ => id)
  · obtain ⟨rest, -, located, -⟩ := Course.leads_eliminateAll descent.carries start hg
    refine Expr.only_mapAtomsM (fun a ha => Atom.only_inCoordinates (fun _ => rfl) (made a ha))
      (Expr.within_regrouped (s := .ofAtoms (Atom.Located R R R)) (fun _ => trivial) located)

/-! ## How many steps there are -/

namespace Course

variable {problem : Problem} {k : CollinearSet} {steps : List Step}

/-- From zero nothing is eliminated. -/
theorem eliminateAll_of_isZero (steps : List Step) {e : Expr} (h : e.isZero = true) :
    eliminateAll problem k steps e = pure e := by
  cases steps with
  | nil => rfl
  | cons step steps =>
    cases step with
    | line l a b => rw [eliminateAll, if_pos h]
    | point y kind => rw [eliminateAll, if_pos h]

/-- Steps that make no point of the expression make no difference. -/
theorem eliminateAll_append {more : List Step} {e : Expr}
    (h : ∀ y, MadeBy more y → e.mentions y = false) :
    eliminateAll problem k (more ++ steps) e = eliminateAll problem k steps e := by
  induction more with
  | nil => rfl
  | cons step more ih =>
    have ih := ih fun y hy => h y (hy.imp fun _ => List.mem_cons_of_mem step)
    rcases eliminateAll_cons problem k step (more ++ steps) e with
      ⟨h0, eq⟩ | ⟨-, eq⟩ | ⟨y, kind, rfl, -, hy, -⟩
    · exact eq.trans (eliminateAll_of_isZero steps h0).symm
    · exact eq.trans ih
    · rw [h y ⟨kind, List.mem_cons_self⟩] at hy
      cases hy

/-- Steps that make no point of the expressions make no difference to whether they vanish. -/
theorem allVanish_append {more : List Step} {es : List Expr}
    (h : ∀ e ∈ es, ∀ y, MadeBy more y → e.oriented.simplify.mentions y = false) :
    allVanish problem k (more ++ steps) es = allVanish problem k steps es := by
  induction es with
  | nil => rfl
  | cons e es ih =>
    rw [List.forall_mem_cons] at h
    rw [allVanish, allVanish, vanishes, vanishes, eliminateAll_append h.1, ih h.2]

end Course

/-- The course of a proof is the same over all steps that make the points of the statement, however
many they are. -/
theorem Problem.course_eq {problem : Problem} (hc : Ordered problem.construction.steps) {n : Nat}
    {goal : Statement} (h : problem.construction.Covers goal n) :
    problem.course n goal.expressions =
      problem.course problem.construction.length goal.expressions := by
  rw [course, course, Construction.length, List.take_length]
  conv_rhs => rw [← List.take_append_drop n problem.construction.steps, List.reverse_append]
  refine (Course.allVanish_append fun e he y hy => ?_).symm
  -- A point that is made later is none of the statement, since it is made once.
  have later : ¬MadeBy (problem.construction.steps.take n) y := by
    obtain ⟨kind, hy⟩ := hy
    obtain ⟨before, after, hs⟩ := List.append_of_mem (List.mem_reverse.1 hy)
    have := hc (problem.construction.steps.take n ++ before) y kind after (by
      rw [List.append_assoc, ← hs, List.take_append_drop])
    exact fun made => this.1 (made.append before)
  have located := Shape.within_ofAtoms_iff.1
    (Course.within_start (Atom.unoriented_located _ _ _) (h.located (fun _ => id) e he))
  refine List.any_eq_false.2 fun a ha => ?_
  simpa [Atom.mentions] using fun hya => later ((located a ha).of_mem (fun _ h => h.elim id id) hya)

end AreaMethod
