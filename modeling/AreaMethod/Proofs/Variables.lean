import AreaMethod.Proofs.Decision
import AreaMethod.Proofs.Exactness

/-!
# What is taken for a variable

After the last elimination an expression is written in coordinates, and whatever is left counts as
an independent variable. Areas, Pythagoras differences and ratios are written so only if all their
points are free, and then in coordinates of free points. Scalars and coordinates stay as they are,
coordinates of derived points included; these are the only way for a derived point to get through
(`Expr.inCoordinates_derived_points`).

A derived point does get through that way, and then a true statement may be refuted
(`Problem.abscissa_refuted`): the abscissa of a midpoint is not independent of those of the ends.
-/

namespace AreaMethod

/-! ## How inquiries fail -/

/-- Can this be what the oracle says, be it an answer or an error? -/
def Oracle.Says (oracle : Oracle σ) (s : Statement) (n : Nat) (reply : Except ProofError Bool) :
    Prop :=
  ∃ m, (oracle s n m).1 = reply

namespace Inquiry

/-- The inquiry can fail in the given way, by itself or at a question, if `replies` are given. -/
def Fails (replies : Statement → Nat → Except ProofError Bool → Prop) (err : ProofError) :
    Inquiry α → Prop
  | done _ => False
  | fail e => e = err
  | ask s n next => replies s n (.error err) ∨
      ∃ b, replies s n (.ok b) ∧ (next b).Fails replies err
  | rely _ next => next.Fails replies err
  | report _ next => next.Fails replies err

variable {replies : Statement → Nat → Except ProofError Bool → Prop} {err : ProofError}

/-- A sequence fails in its first part or after it. -/
theorem fails_of_bind {q : Inquiry α} {f : α → Inquiry β} (h : (q >>= f).Fails replies err) :
    q.Fails replies err ∨ ∃ a, (f a).Fails replies err := by
  rw [bind_eq_andThen] at h
  induction q with
  | done a => exact .inr ⟨a, h⟩
  | fail e => exact .inl h
  | ask s n next ih =>
    rcases h with refused | ⟨b, hb, h⟩
    · exact .inl (.inl refused)
    · exact (ih b h).imp_left fun h => .inr ⟨b, hb, h⟩
  | rely c next ih => exact ih h
  | report e next ih => exact ih h

/-- What is made of the result is no reason to fail. -/
theorem fails_of_map {q : Inquiry α} {f : α → β} (h : (f <$> q).Fails replies err) :
    q.Fails replies err := by
  rw [← bind_pure_comp] at h
  rcases fails_of_bind h with h | ⟨_, h⟩
  · exact h
  · exact h.elim

/-- Inquiries one after another fail in one of them. -/
theorem fails_of_mapM {f : α → Inquiry β} {as : List α} (h : (as.mapM f).Fails replies err) :
    ∃ a ∈ as, (f a).Fails replies err := by
  induction as with
  | nil => exact h.elim
  | cons a as ih =>
    rw [List.mapM_cons] at h
    rcases fails_of_bind h with h | ⟨_, h⟩
    · exact ⟨a, List.mem_cons_self, h⟩
    · rcases fails_of_bind h with h | ⟨_, h⟩
      · obtain ⟨a', ha', h⟩ := ih h
        exact ⟨a', List.mem_cons_of_mem a ha', h⟩
      · exact h.elim

/-- Going through the atoms of an expression fails at one of them. -/
theorem fails_of_mapAtomsM {f : Atom → Inquiry Expr} {e : Expr}
    (h : (e.mapAtomsM f).Fails replies err) : ∃ a ∈ e.atomList, (f a).Fails replies err := by
  induction e using Expr.ind with
  | number n =>
    rw [Expr.mapAtomsM] at h
    exact h.elim
  | atom a =>
    rw [Expr.mapAtomsM] at h
    rw [Expr.atomList]
    exact ⟨a, List.mem_singleton.2 rfl, h⟩
  | product es ih | sum es ih =>
    rw [Expr.mapAtomsM] at h
    obtain ⟨e, -, h⟩ := fails_of_mapM (fails_of_map h)
    obtain ⟨a, ha, h⟩ := ih e.1 e.2 h
    rw [Expr.atomList]
    exact ⟨a, List.mem_flatMap.2 ⟨e.1, e.2, ha⟩, h⟩
  | fraction n d ihn ihd =>
    rw [Expr.mapAtomsM] at h
    rw [Expr.atomList]
    rcases fails_of_bind h with h | ⟨_, h⟩
    · obtain ⟨a, ha, h⟩ := ihn h
      exact ⟨a, List.mem_append_left _ ha, h⟩
    · rcases fails_of_bind h with h | ⟨_, h⟩
      · obtain ⟨a, ha, h⟩ := ihd h
        exact ⟨a, List.mem_append_right _ ha, h⟩
      · exact h.elim

/-- An inquiry that ends in an error can fail so, with what the oracle says. -/
theorem fails_of_consult {σ : Type} {oracle : Oracle σ} {q : Inquiry α} {m : σ} {cs : Conditions}
    (h : ((q.consult oracle).run (m, cs)).1 = .error err) : q.Fails oracle.Says err := by
  induction q generalizing m cs with
  | done a => cases h
  | fail e => exact Except.error.inj h
  | ask s n next ih =>
    rw [consult, run, run_bind, Oracle.run_ask] at h
    cases hb : (oracle s n m).1 with
    | error e =>
      rw [hb] at h
      obtain rfl := Except.error.inj h
      exact .inl ⟨m, hb⟩
    | ok b =>
      rw [hb] at h
      exact .inr ⟨b, ⟨m, hb⟩, ih b h⟩
  | rely c next ih =>
    rw [consult, run, run_bind] at h
    have rest : ((next.consult oracle).run (m, cs.push c)).1 = .error err := h
    exact ih rest
  | report e next ih =>
    rw [consult, run, run_bind] at h
    exact ih h

end Inquiry

/-! ## Atoms -/

namespace Atom

variable {c : Construction} {replies : Statement → Nat → Except ProofError Bool → Prop} {a : Atom}
  {err : ProofError}

/-- Why an atom cannot be written in coordinates: one of its points is derived, or it is a ratio and
its segments are said not to be parallel, or there is no answer to that. -/
inductive Obstacle (c : Construction) (replies : Statement → Nat → Except ProofError Bool → Prop) :
    Atom → ProofError → Prop
  | derived {a : Atom} {p : Point} (dependent : a.isIndependent = false) (mentioned : p ∈ a.points)
    (derived : c.isFree p = false) :
    Obstacle c replies a (.inconclusive (.zero (c.name p ++ " in free coordinates") (.atom a)))
  | oblique {p q r s : Point} (denied : replies (.parallel p q r s) c.length (.ok false)) :
    Obstacle c replies (.ratio p q r s) (.inconclusive (.parallel p q r s))
  | unanswered {p q r s : Point} {err : ProofError}
    (refused : replies (.parallel p q r s) c.length (.error err)) :
    Obstacle c replies (.ratio p q r s) err

/-- Writing an atom in coordinates fails only where there is an obstacle. -/
theorem obstacle_of_fails (h : (a.inCoordinates c).Fails replies err) :
    a.Obstacle c replies err := by
  rw [inCoordinates.eq_def] at h
  split at h
  next => exact h.elim
  next dependent =>
    rw [Bool.not_eq_true] at dependent
    split at h
    next p hp =>
      have derived := List.find?_some hp
      rw [Bool.not_eq_true'] at derived
      cases h
      exact .derived dependent (List.mem_of_find?_eq_some hp) derived
    next =>
      split at h
      next p q r s _ _ =>
        rcases h with refused | ⟨b, said, h⟩
        · exact .unanswered refused
        · cases b with
          | true => exact h.elim
          | false =>
            cases h
            exact .oblique said
      next => exact h.elim

/-- What stops an atom is inconclusive, or an error at a question about a ratio. -/
theorem Obstacle.inconclusive_or (h : a.Obstacle c replies err) :
    (∃ s, err = .inconclusive s) ∨
      ∃ p q r s, a = .ratio p q r s ∧ replies (.parallel p q r s) c.length (.error err) := by
  cases h with
  | derived => exact .inl ⟨_, rfl⟩
  | oblique => exact .inl ⟨_, rfl⟩
  | unanswered refused => exact .inr ⟨_, _, _, _, rfl, refused⟩

end Atom

/-! ## Expressions -/

namespace Expr

/-- Every atom of an expression has been replaced. -/
theorem Rebuilt.exists_of_mem {R : Atom → Expr → Prop} {e f : Expr} (h : Rebuilt R e f) :
    ∀ a ∈ e.atomList, ∃ g, R a g := by
  have members : ∀ {es fs : List Expr}, List.Forall₂ (Rebuilt R) es fs →
      (∀ e ∈ es, ∀ f, Rebuilt R e f → ∀ a ∈ e.atomList, ∃ g, R a g) →
      ∀ a ∈ es.flatMap atomList, ∃ g, R a g := by
    intro es fs h
    induction h with
    | nil => simp
    | cons he _ ih =>
      intro hes
      rw [List.forall_mem_cons] at hes
      rw [List.flatMap_cons, List.forall_mem_append]
      exact ⟨hes.1 _ he, ih hes.2⟩
  induction e using ind generalizing f with
  | number n => simp [atomList]
  | atom a =>
    cases h with
    | atom h => simpa [atomList] using ⟨f, h⟩
  | product fs ih =>
    cases h with
    | product h => simpa only [atomList] using members h fun e he f => ih e he
  | sum ts ih =>
    cases h with
    | sum h => simpa only [atomList] using members h fun e he f => ih e he
  | fraction n d ihn ihd =>
    cases h with
    | fraction hn hd =>
      rw [atomList, List.forall_mem_append]
      exact ⟨ihn hn, ihd hd⟩

section
variable {c : Construction} {answers : Statement → Nat → Bool → Prop} {relies : Condition → Prop}
  {e r : Expr} (h : (e.inCoordinates c).Leads answers relies r)
include h

/-- What is written in coordinates has no derived points but those of coordinates. -/
theorem isFree_of_leads_inCoordinates :
    ∀ a ∈ e.atomList, a.isIndependent = false → ∀ p ∈ a.points, c.isFree p = true := by
  intro a ha dependent
  obtain ⟨g, hg⟩ := (rebuilt_of_leads h).exists_of_mem a ha
  rcases Atom.leads_inCoordinates hg with ⟨independent, -⟩ | ⟨-, free, -⟩
  · rw [dependent] at independent
    cases independent
  · exact free

/-- In coordinates there are variables, and coordinates that were there before. -/
theorem isVariable_of_leads_inCoordinates :
    ∀ b ∈ r.atomList, b.IsVariable c ∨ ∃ p i, b = .coordinate p i ∧ b ∈ e.atomList := by
  refine Shape.within_ofAtoms_iff.1 ((rebuilt_of_leads h).within (p := fun a => a ∈ e.atomList)
    (fun a g ha hg => ?_) (Shape.within_ofAtoms_iff.2 fun _ ha => ha))
  rcases Atom.leads_inCoordinates hg with ⟨independent, rfl⟩ | ⟨dependent, free, rfl⟩
  · refine (Shape.within_atom _).2 ?_
    cases a with
    | scalar => exact .inl trivial
    | coordinate p i => exact .inr ⟨p, i, rfl, ha⟩
    | area | pythagoras | ratio => cases independent
  · exact Shape.within_ofAtoms_mono (fun _ => .inl) (Atom.isVariable_coordinates dependent free)

end

/-- Derived points get through to the independent variables in their coordinates only. Whatever the
oracle says, if an expression can be written in coordinates, then all its points are free but those
of coordinates, and what is left is scalars, coordinates of free points and coordinates that were
there before. So a derived point anywhere else stops it, and what stops it is inconclusive unless
the oracle fails at a ratio. Nothing else stops it: some atom has a derived point, or is a ratio
that is not affirmed to be one of parallel segments. -/
theorem inCoordinates_derived_points {σ : Type} (c : Construction) (e : Expr) (oracle : Oracle σ)
    (m : σ) (cs : Conditions) :
    (∀ r, (((e.inCoordinates c).consult oracle).run (m, cs)).1 = .ok r →
      (∀ a ∈ e.atomList, ∀ p ∈ a.points, c.isFree p = true ∨ ∃ i, a = .coordinate p i) ∧
      ∀ b ∈ r.atomList, b.IsVariable c ∨ ∃ p i, b = .coordinate p i ∧ b ∈ e.atomList) ∧
    ((∃ a ∈ e.atomList, a.isIndependent = false ∧ ∃ p ∈ a.points, c.isFree p = false) →
      ∃ err, (((e.inCoordinates c).consult oracle).run (m, cs)).1 = .error err ∧
        ((∃ s, err = .inconclusive s) ∨ ∃ p q r s, .ratio p q r s ∈ e.atomList ∧
          oracle.Says (.parallel p q r s) c.length (.error err))) ∧
    ∀ err, (((e.inCoordinates c).consult oracle).run (m, cs)).1 = .error err →
      ∃ a ∈ e.atomList, a.Obstacle c oracle.Says err := by
  have succeeded : ∀ r, (((e.inCoordinates c).consult oracle).run (m, cs)).1 = .ok r →
      (e.inCoordinates c).Leads oracle.Answers _ r := fun r h =>
    (Inquiry.leads_of_consult (Prod.ext h rfl)).2
  have stopped : ∀ err, (((e.inCoordinates c).consult oracle).run (m, cs)).1 = .error err →
      ∃ a ∈ e.atomList, a.Obstacle c oracle.Says err := by
    intro err h
    obtain ⟨a, ha, fails⟩ := Inquiry.fails_of_mapAtomsM (Inquiry.fails_of_consult h)
    exact ⟨a, ha, Atom.obstacle_of_fails fails⟩
  refine ⟨fun r h => ⟨fun a ha p hp => ?_, isVariable_of_leads_inCoordinates (succeeded r h)⟩, ?_,
    stopped⟩
  · have free := isFree_of_leads_inCoordinates (succeeded r h) a ha
    cases a with
    | coordinate q i =>
      obtain rfl := List.mem_singleton.1 hp
      exact .inr ⟨i, rfl⟩
    | scalar => cases hp
    | area | pythagoras | ratio => exact .inl (free rfl p hp)
  · rintro ⟨a, ha, dependent, p, hp, derived⟩
    cases h : (((e.inCoordinates c).consult oracle).run (m, cs)).1 with
    | ok r =>
      have free := isFree_of_leads_inCoordinates (succeeded r h) a ha dependent p hp
      rw [derived] at free
      cases free
    | error err =>
      obtain ⟨b, hb, obstacle⟩ := stopped err h
      refine ⟨err, rfl, obstacle.inconclusive_or.imp_right ?_⟩
      rintro ⟨p, q, r, s, rfl, refused⟩
      exact ⟨p, q, r, s, hb, refused⟩

end Expr

namespace Problem

/-- A segment and its midpoint. -/
def segment : Problem := ⟨.after [.free "A", .free "B", .midpoint "M" ⟨0⟩ ⟨1⟩], .standard⟩

/-- The area of the segment with a point, and the abscissa of the midpoint. -/
def areaAndAbscissa (p : Point) : Expr := .sum [.area ⟨0⟩ ⟨1⟩ p, .coordinate ⟨2⟩ .x]

/-- With an end of the segment the area is written in coordinates, while the abscissa stays; with
the midpoint it is not. -/
theorem areaAndAbscissa_in_coordinates :
    (∃ r, (((areaAndAbscissa ⟨0⟩).inCoordinates segment.construction).consult .affirming).run
        (0, .empty) = (.ok r, 0, .empty) ∧
      ∀ b ∈ r.atomList, b.IsVariable segment.construction ∨
        ∃ p i, b = .coordinate p i ∧ b ∈ (areaAndAbscissa ⟨0⟩).atomList) ∧
    segment.construction.isFree ⟨2⟩ = false ∧
    ∃ s, ((((areaAndAbscissa ⟨2⟩).inCoordinates segment.construction).consult .affirming).run
      (0, .empty)).1 = .error (.inconclusive s) := by
  have written : (((areaAndAbscissa ⟨0⟩).inCoordinates segment.construction).consult
      .affirming).run (0, .empty) =
        (.ok (.sum [(Atom.area ⟨0⟩ ⟨1⟩ ⟨0⟩).coordinates, .coordinate ⟨2⟩ .x]), 0, .empty) := by cbv
  have derived : segment.construction.isFree ⟨2⟩ = false := by cbv
  obtain ⟨left, -⟩ := Expr.inCoordinates_derived_points segment.construction
    (areaAndAbscissa ⟨0⟩) .affirming 0 .empty
  obtain ⟨-, stops, -⟩ := Expr.inCoordinates_derived_points segment.construction
    (areaAndAbscissa ⟨2⟩) .affirming 0 .empty
  obtain ⟨err, h, cause⟩ := stops ⟨.area ⟨0⟩ ⟨1⟩ ⟨2⟩, by simp [areaAndAbscissa, Expr.area,
    Expr.atomList], rfl, ⟨2⟩, by simp [Atom.points], derived⟩
  refine ⟨⟨_, written, (left _ (congrArg Prod.fst written)).2⟩, derived, ?_⟩
  rcases cause with ⟨s, rfl⟩ | ⟨p, q, r, s, -, m, refused⟩
  · exact ⟨s, h⟩
  · cases refused

/-- The abscissa of the midpoint is half the sum of those of the ends. -/
def abscissaOfMidpoint : Statement :=
  .zero "abscissa"
    (.coordinate ⟨2⟩ .x - .rational (mkRat 1 2) * (.coordinate ⟨0⟩ .x + .coordinate ⟨1⟩ .x))

/-- The points of a segment with its midpoint. -/
theorem points_segment : segment.construction.points = [(⟨0⟩, .free), (⟨1⟩, .free),
    (⟨2⟩, .ratio ⟨0⟩ ⟨0⟩ ⟨1⟩ (.rational (mkRat 1 2)))] := by
  cbv

/-- It is so wherever the midpoint is one. -/
theorem eval_abscissaOfMidpoint {P : Placement ℚ} (h : P.Nondegenerate segment.construction) :
    ∀ e ∈ abscissaOfMidpoint.expressions, e.eval P.atom = some 0 := by
  rw [Placement.Nondegenerate, points_segment] at h
  obtain ⟨-, placed⟩ := h (⟨2⟩, .ratio ⟨0⟩ ⟨0⟩ ⟨1⟩ (.rational (mkRat 1 2))) (by simp)
  refine List.forall_mem_singleton.2 (Expr.eval_eq_some_iff.2 ?_)
  have half : P.coordinate ⟨2⟩ .x =
      P.coordinate ⟨0⟩ .x + mkRat 1 2 * (P.coordinate ⟨1⟩ .x - P.coordinate ⟨0⟩ .x) := by
    simpa using placed .x
  have ratio : (mkRat 1 2 : ℚ) = 1 / 2 := by decide +kernel
  refine ⟨by simp [Expr.coordinate, Placement.atom], ?_⟩
  simp only [Expr.value_sub, Expr.value_mul, Expr.value_add, Expr.value_rational, Expr.coordinate,
    Expr.value_atom, Placement.atom, Option.getD_some, half, ratio, Rat.cast_id]
  ring

/-- Coordinates of derived points pass for independent variables: that of a midpoint stays as it is,
and so what is true of it wherever it is the midpoint is refuted. -/
theorem abscissa_refuted :
    segment.construction.isFree ⟨2⟩ = false ∧
    (((Expr.coordinate ⟨2⟩ .x).inCoordinates segment.construction).consult .affirming).run
      (0, .empty) = (.ok (.coordinate ⟨2⟩ .x), 0, .empty) ∧
    (∀ P : Placement ℚ, P.Nondegenerate segment.construction →
      ∀ e ∈ abscissaOfMidpoint.expressions, e.eval P.atom = some 0) ∧
    (segment.prove abscissaOfMidpoint .start).1.toOption.map (·.verdict) = some .refuted := by
  have derived : segment.construction.isFree ⟨2⟩ = false := by cbv
  have kept : (((Expr.coordinate ⟨2⟩ .x).inCoordinates segment.construction).consult
      .affirming).run (0, .empty) = (.ok (.coordinate ⟨2⟩ .x), 0, .empty) := by cbv
  have refuted : (segment.prove abscissaOfMidpoint .start).1.toOption.map (·.verdict) =
      some .refuted := by cbv
  exact ⟨derived, kept, fun P => eval_abscissaOfMidpoint, refuted⟩

end Problem

end AreaMethod
