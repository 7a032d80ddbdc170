import AreaMethod.Construction.Basic
import AreaMethod.Elimination.Displacement
import Mathlib

/-!
# Constructions in order

What the lookups of a construction find, and two properties of its steps: they are `Grounded` if
each refers to points made before, and `Ordered` if moreover no point is made twice. Then every
lookup of a point finds the step that makes it (`Ordered.lookup`).
-/

namespace AreaMethod

/-! ## Looking points up -/

namespace Step

/-- A step makes a point if and only if it is the step of that point. -/
theorem makes_iff {p : Point} {s : Step} : s.makes p = true ↔ ∃ kind, s = .point p kind := by
  cases s with
  | point q kind => simp [makes]
  | line l a b => simp [makes]

end Step

/-- Is the point made by one of the steps? -/
def MadeBy (steps : List Step) (p : Point) : Prop := ∃ kind, .point p kind ∈ steps

@[simp] theorem Expr.atomList_div (n d : Expr) : (n / d).atomList = n.atomList ++ d.atomList := by
  change (Expr.fraction n d).atomList = _
  rw [atomList]

@[simp] theorem Expr.atomList_sub (e f : Expr) : (e - f).atomList = e.atomList ++ f.atomList := by
  change (Expr.sum [e, .product [.minusOne, f]]).atomList = _
  simp [atomList, minusOne, rational]

/-- The points of an expression are those of its atoms. -/
theorem Expr.mem_points {e : Expr} {q : Point} :
    q ∈ e.points ↔ ∃ a ∈ e.atomList, q ∈ a.points := by
  rw [points, mem_ascending, List.mem_flatMap]

namespace PointKind

/-- The points that a definition speaks of. -/
def support (kind : PointKind) : List Point :=
  kind.definingPoints ++ (kind.coefficient?.map Expr.points).getD []

/-- A displacement speaks of the points of the definition only. -/
theorem support_of_displacement? {kind : PointKind} {s : Displacement}
    (h : kind.displacement? = some s) :
    (s.w ∈ kind.support ∧ s.u ∈ kind.support ∧ s.v ∈ kind.support) ∧
      ∀ a ∈ s.t.atomList, ∀ q ∈ a.points, q ∈ kind.support := by
  cases kind with
  | free => cases h
  | ratio w u v r =>
    obtain rfl := Option.some.inj h
    exact ⟨by simp [support, definingPoints],
      fun a ha q hq => List.mem_append_right _ (Expr.mem_points.2 ⟨a, ha, hq⟩)⟩
  | intersection u v p q =>
    obtain rfl := Option.some.inj h
    simp [support, definingPoints, coefficient?, Expr.area, Expr.atomList, Atom.points]
  | foot p u v =>
    obtain rfl := Option.some.inj h
    simp [support, definingPoints, coefficient?, Expr.pythagoras, Expr.atomList, Atom.points]

/-- The atoms of a coefficient are those of the given one, or areas or Pythagoras differences. -/
theorem atoms_of_displacement? {kind : PointKind} {s : Displacement}
    (h : kind.displacement? = some s) {p : Atom → Prop}
    (given : ∀ w u v r, kind = .ratio w u v r → ∀ a ∈ r.atomList, p a)
    (area : ∀ a b c, p (.area a b c)) (pythagoras : ∀ a b c, p (.pythagoras a b c)) :
    ∀ a ∈ s.t.atomList, p a := by
  cases kind with
  | free => cases h
  | ratio w u v r =>
    obtain rfl := Option.some.inj h
    exact given w u v r rfl
  | intersection u v p q =>
    obtain rfl := Option.some.inj h
    simp [Expr.area, Expr.atomList, area]
  | foot p u v =>
    obtain rfl := Option.some.inj h
    simp [Expr.pythagoras, Expr.atomList, pythagoras]

end PointKind

namespace Construction

variable {c : Construction} {p : Point}

/-- The points that steps make are those of their point steps. -/
theorem mem_filterMap_point?_iff {steps : List Step} {kind : PointKind} :
    (p, kind) ∈ steps.filterMap Step.point? ↔ .point p kind ∈ steps := by
  rw [List.mem_filterMap]
  constructor
  · rintro ⟨s, hs, h⟩
    cases s with
    | point q k =>
      cases h
      exact hs
    | line l a b => cases h
  · exact fun h => ⟨_, h, rfl⟩

/-- A point of the construction is one that a step makes, in the way the step says. -/
theorem mem_points_iff {kind : PointKind} : (p, kind) ∈ c.points ↔ .point p kind ∈ c.steps :=
  mem_filterMap_point?_iff

/-- A construction contains the points that its steps make. -/
theorem contains_iff : c.contains p = true ↔ MadeBy c.steps p := by
  rw [contains, kind?, List.lookup_isSome_iff]
  constructor
  · rintro ⟨⟨q, kind⟩, h, hq⟩
    obtain rfl : p = q := by simpa using hq
    exact ⟨kind, mem_points_iff.1 h⟩
  · rintro ⟨kind, h⟩
    exact ⟨(p, kind), mem_points_iff.2 h, by simp⟩

/-- A point is constructed before a step if one of the earlier steps makes it. -/
theorem containsBefore_iff {n : Nat} :
    c.containsBefore p n = true ↔ MadeBy (c.steps.take n) p := by
  have makes : ∀ {steps : List Step}, (∃ s ∈ steps, s.makes p = true) ↔ MadeBy steps p := by
    intro steps
    simp only [Step.makes_iff, MadeBy]
    constructor
    · rintro ⟨s, hs, kind, rfl⟩
      exact ⟨kind, hs⟩
    · rintro ⟨kind, h⟩
      exact ⟨_, h, kind, rfl⟩
  rw [← makes, containsBefore, stepIndex?]
  cases h : c.steps.findIdx? (Step.makes p) with
  | none =>
    rw [List.findIdx?_eq_none_iff] at h
    constructor
    · exact fun h => by cases h
    · rintro ⟨s, hs, hp⟩
      rw [h s (List.mem_of_mem_take hs)] at hp
      cases hp
  | some i =>
    obtain ⟨hi, hp, first⟩ := List.findIdx?_eq_some_iff_getElem.1 h
    rw [decide_eq_true_eq]
    constructor
    · exact fun hn => ⟨_, List.mem_take_iff_getElem.2 ⟨i, by omega, rfl⟩, hp⟩
    · rintro ⟨s, hs, hsp⟩
      obtain ⟨j, hj, rfl⟩ := List.mem_take_iff_getElem.1 hs
      by_contra hn
      exact first j (by omega) hsp

end Construction

/-! ## Steps that refer to earlier ones -/

/-- The points that a step refers to. -/
def Step.support : Step → List Point
  | point _ kind => kind.support
  | line _ a b => [a, b]

/-- Every step refers to points made before. -/
def Grounded (steps : List Step) : Prop :=
  ∀ before s after, steps = before ++ s :: after → ∀ q ∈ s.support, MadeBy before q

/-- Every point is made once, and from points made before. -/
def Ordered (steps : List Step) : Prop :=
  ∀ before p kind after, steps = before ++ .point p kind :: after →
    ¬MadeBy before p ∧ ∀ q ∈ kind.support, MadeBy before q

/-- Points stay made when steps are added. -/
theorem MadeBy.append {steps : List Step} {p : Point} (h : MadeBy steps p) (more : List Step) :
    MadeBy (steps ++ more) p :=
  h.imp fun _ h => List.mem_append_left more h

/-- Points that first steps make are made by all the steps. -/
theorem MadeBy.mono {steps more : List Step} {p : Point} (h : MadeBy steps p)
    (hs : steps <+: more) : MadeBy more p :=
  h.imp fun _ h => hs.subset h

/-- A point that is made is made a first time. -/
theorem MadeBy.first {steps : List Step} {p : Point} (h : MadeBy steps p) :
    ∃ before kind after, steps = before ++ .point p kind :: after ∧ ¬MadeBy before p := by
  induction steps with
  | nil =>
    obtain ⟨kind, h⟩ := h
    cases h
  | cons s steps ih =>
    by_cases hs : ∃ kind, s = .point p kind
    · obtain ⟨kind, rfl⟩ := hs
      exact ⟨[], kind, steps, rfl, fun ⟨_, h⟩ => by cases h⟩
    · obtain ⟨kind, h⟩ := h
      obtain ⟨before, kind, after, rfl, new⟩ := ih ⟨kind, (List.mem_cons.1 h).resolve_left
        fun he => hs ⟨kind, he.symm⟩⟩
      refine ⟨s :: before, kind, after, rfl, fun ⟨k, h⟩ => ?_⟩
      rcases List.mem_cons.1 h with rfl | h
      · exact hs ⟨k, rfl⟩
      · exact new ⟨k, h⟩

/-- Where steps refer to earlier ones, all points that a step refers to are made. -/
theorem Grounded.madeBy_support {steps : List Step} (h : Grounded steps) {s : Step}
    (hs : s ∈ steps) : ∀ q ∈ s.support, MadeBy steps q := by
  intro q hq
  obtain ⟨before, after, rfl⟩ := List.append_of_mem hs
  exact (h before s after rfl q hq).append _

/-- A point is found where it is made first. -/
theorem Construction.lookup_first {c : Construction} {before after : List Step} {p : Point}
    {kind : PointKind} (hs : c.steps = before ++ .point p kind :: after)
    (new : ¬MadeBy before p) : c.stepIndex? p = some before.length ∧ c.kind? p = some kind := by
  constructor
  · rw [stepIndex?, hs, List.findIdx?_append, List.findIdx?_eq_none_iff.2]
    · simp [List.findIdx?_cons, Step.makes]
    · intro s hs
      by_contra hp
      obtain ⟨k, rfl⟩ := Step.makes_iff.1 (by simpa using hp)
      exact new ⟨k, hs⟩
  · have none : (before.filterMap Step.point?).lookup p = none := by
      rw [List.lookup_eq_none_iff]
      rintro ⟨q, k⟩ hq
      rw [bne_iff_ne]
      rintro rfl
      exact new ⟨k, mem_filterMap_point?_iff.1 hq⟩
    rw [kind?, points, hs, List.filterMap_append, List.lookup_append, none]
    simp [Step.point?]

/-- In an ordered construction a point is found where it is made. -/
theorem Ordered.lookup {c : Construction} (h : Ordered c.steps) {before after : List Step}
    {p : Point} {kind : PointKind} (hs : c.steps = before ++ .point p kind :: after) :
    c.stepIndex? p = some before.length ∧ c.kind? p = some kind :=
  Construction.lookup_first hs (h before p kind after hs).1

/-- Steps that refer to earlier ones and make no point twice are ordered. -/
theorem Grounded.ordered {steps : List Step} (h : Grounded steps)
    (nodup : ((steps.filterMap Step.point?).map Prod.fst).Nodup) : Ordered steps := by
  rintro before p kind after rfl
  refine ⟨fun ⟨k, hp⟩ => ?_, h before _ after rfl⟩
  rw [List.filterMap_append, List.map_append, List.nodup_append] at nodup
  exact nodup.2.2 p (List.mem_map_of_mem (Construction.mem_filterMap_point?_iff.2 hp)) p
    (by simp [Step.point?]) rfl

end AreaMethod
