import AreaMethod.Proofs.Course
import AreaMethod.Proofs.Elimination

/-!
# The stages of a course

What the stages of a proof do to an expression. Each keeps its atoms where they may be, and at a
placement that the construction fits each keeps whether it vanishes.
-/

namespace AreaMethod

/-! ## Passes -/

namespace Expr

open Shape

/-- The numerator of the expression as a single fraction, expanded and with like terms grouped. -/
def regrouped (e : Expr) : Expr := e.cleared.unitProduct.expanded.grouped.simplify

section
variable {p : Atom → Prop} {e : Expr}

/-- Simplifying brings in no atoms. -/
theorem within_simplify (h : (ofAtoms p).Within e) : (ofAtoms p).Within e.simplify :=
  (loose_simplify (s := ofAtoms p) h).within fun _ => trivial

/-- Tidying keeps to a property of atoms that does not depend on their orientation. -/
theorem within_tidied (hp : Atom.Unoriented p) (k : CollinearSet) (h : (ofAtoms p).Within e) :
    (ofAtoms p).Within (e.tidied k) :=
  within_simplify (within_oriented hp (within_flattened h))

end

section
variable {s : Shape} (hs : ∀ n, s.number n) {e : Expr}
include hs

/-- Clearing denominators leaves no fractions, and brings in no atoms. -/
theorem within_cleared (h : (ofAtoms s.atom).Within e) : s.Within e.cleared :=
  (loose_simplify (loose_numerator_singleFraction h).anyNumber).within hs

/-- The monomials of the numerator. -/
theorem within_expanded (h : (ofAtoms s.atom).Within e) :
    s.Within e.cleared.unitProduct.expanded :=
  within_ofMonomials.2 (within_expand ((within_product _).2 (by
    simpa using within_cleared hs h)))

/-- Multiplying out and grouping leaves no fractions, and brings in no atoms. -/
theorem within_regrouped (h : (ofAtoms s.atom).Within e) : s.Within e.regrouped :=
  (loose_simplify ((within_grouped (within_expanded hs h)).loose.anyNumber)).within hs

end

section
variable {F : Type*} [Field F] {v : Atom → Option F} {e f g : Expr}

/-- `f` is defined where `e` is, and vanishes there if and only if `e` does. -/
def KeepsZero (v : Atom → Option F) (e f : Expr) : Prop :=
  e.DefinedAt v → f.DefinedAt v ∧ (f.value v = 0 ↔ e.value v = 0)

/-- What keeps its value keeps its zeros. -/
theorem Keeps.keepsZero (h : Keeps v e f) : KeepsZero v e f := fun he =>
  ⟨(h he).1, by rw [(h he).2]⟩

/-- An expression has its own zeros. -/
theorem KeepsZero.refl (e : Expr) : KeepsZero v e e := fun h => ⟨h, Iff.rfl⟩

/-- Zeros are kept step by step. -/
theorem KeepsZero.trans (hef : KeepsZero v e f) (hfg : KeepsZero v f g) : KeepsZero v e g := by
  intro he
  obtain ⟨hf, hvf⟩ := hef he
  obtain ⟨hg, hvg⟩ := hfg hf
  exact ⟨hg, hvg.trans hvf⟩

variable [CharZero F]

/-- An expression vanishes where its numerator does. -/
theorem cleared_keepsZero (e : Expr) : KeepsZero v e e.cleared := by
  have numerator : KeepsZero v e.singleFraction e.singleFraction.numerator := numerator_keeps_zero
  exact (singleFraction_keeps e).keepsZero.trans
    (numerator.trans (simplify_keeps _).keepsZero)

/-- Multiplying out keeps zeros. -/
theorem expanded_keepsZero (e : Expr) : KeepsZero v e e.cleared.unitProduct.expanded := by
  have unit : Keeps v e.cleared e.cleared.unitProduct := fun h => by simp [unitProduct, h]
  exact (cleared_keepsZero e).trans (unit.trans (expanded_keeps _)).keepsZero

/-- Multiplying out and grouping keeps zeros. -/
theorem regrouped_keepsZero (e : Expr) : KeepsZero v e e.regrouped :=
  (expanded_keepsZero e).trans ((grouped_keeps _).trans (simplify_keeps _)).keepsZero

variable [DecidableEq F] [Anisotropic F] {π : Placement F}

/-- Tidying keeps values where what is taken to be collinear is so. -/
theorem tidied_keeps {k : CollinearSet} (hk : k.Sound π) (e : Expr) :
    Keeps π.atom e (e.tidied k) :=
  (flattened_keeps hk e).trans ((oriented_keeps π _).trans (simplify_keeps _))

end

/-- In independent variables, an expression vanishes if and only if it is regrouped to zero. -/
theorem isZero_regrouped_iff {v : Atom → Option RationalFunction} {p : Atom → Prop}
    (hv : ∀ a, p a → v a = some (.variable a)) {e : Expr} (h : (ofAtoms p).Within e)
    (he : e.DefinedAt v) : e.regrouped.isZero = true ↔ e.value v = 0 := by
  constructor
  · exact fun h0 => (regrouped_keepsZero e he).2.1 (value_eq_zero_of_isZero h0)
  · exact fun h0 => isZero_of_value_eq_zero hv
      (within_expanded (s := polynomial p) (fun _ => trivial) h) ((expanded_keepsZero e he).2.2 h0)

end Expr

/-! ## Eliminating one point -/

section
variable {c : Construction} {k : CollinearSet} {t : Target} {D S C : Point → Prop}
  {answers : Statement → Nat → Bool → Prop} {relies : Condition → Prop}

/-- Is the target what is to be eliminated along with a point of the construction? -/
structure Construction.Aims (c : Construction) (k : CollinearSet) (t : Target) : Prop where
  construction : t.construction = c
  collinear : t.collinear = k
  index : c.stepIndex? t.y = some t.index
  kind : ∃ kind, c.kind? t.y = some kind ∧ kind.displacement? = some t.shift

/-- A derived point is a displacement. -/
theorem PointKind.exists_displacement {kind : PointKind} (h : kind.isFree = false) :
    ∃ s, kind.displacement? = some s := by
  cases kind with
  | free => cases h
  | ratio | intersection | foot => exact ⟨_, rfl⟩

/-- A constructed point is free, or it can be aimed at. -/
theorem Construction.exists_aims (k : CollinearSet) {y : Point} {kind : PointKind}
    (h : c.kind? y = some kind) :
    c.isFree y = true ∨
      ∃ t : Target, t.y = y ∧ c.Aims k t ∧ kind.displacement? = some t.shift := by
  by_cases derived : kind.isFree = true
  · exact .inl (by rw [isFree, h]; exact derived)
  · obtain ⟨s, shift⟩ := PointKind.exists_displacement (Bool.not_eq_true _ ▸ derived)
    obtain ⟨before, kind', after, hs, new⟩ := (contains_iff.1 (by rw [contains, h]; rfl)).first
    have index := (lookup_first hs new).1
    exact .inr ⟨⟨c, k, y, before.length, s⟩, rfl, ⟨rfl, rfl, index, kind, h, shift⟩, shift⟩

/-- A derived point is well defined on some condition. -/
theorem PointKind.exists_condition {kind : PointKind} {s : Displacement}
    (h : kind.displacement? = some s) : ∃ condition, kind.condition? = some condition := by
  cases kind with
  | free => cases h
  | ratio | intersection | foot => exact ⟨_, rfl⟩

/-- A point that is aimed at is eliminated from an expression that mentions it, and then the result
relies on the point being well defined. -/
theorem Construction.eliminate_of_aims (ht : c.Aims k t) {kind : PointKind}
    (hk : c.kind? t.y = some kind) : ∃ condition, kind.condition? = some condition ∧
      ∀ e : Expr, c.eliminate k t.y e = if e.mentions t.y
        then t.eliminate e >>= fun g => .rely condition (.done g) else .done e := by
  obtain ⟨kind', hk', shift⟩ := ht.kind
  obtain rfl := Option.some.inj (hk'.symm.trans hk)
  obtain ⟨condition, hc⟩ := PointKind.exists_condition shift
  have target : (⟨c, k, t.y, t.index, t.shift⟩ : Target) = t := by
    rw [← ht.construction, ← ht.collinear]
  refine ⟨condition, hc, fun e => ?_⟩
  simp only [eliminate, ht.index, hk, shift, target, hc]

/-- Eliminating a point from an expression that mentions it. -/
theorem Construction.leads_eliminate (ht : c.Aims k t) {e g : Expr}
    (h : (c.eliminate k t.y e).Leads answers relies g) :
    ((e.mentions t.y = true ∧ ∃ kind condition, c.kind? t.y = some kind ∧
        kind.condition? = some condition ∧ relies condition) ∧
      (t.eliminate e).Leads answers relies g) ∨ (e.mentions t.y = false ∧ g = e) := by
  obtain ⟨kind, hk, -⟩ := ht.kind
  obtain ⟨condition, hc, eq⟩ := eliminate_of_aims ht hk
  rw [eq] at h
  split at h
  next hy =>
    obtain ⟨f, hf, hr, rfl⟩ := Inquiry.leads_bind.1 h
    exact .inl ⟨⟨hy, kind, condition, hk, hc, hr⟩, hf⟩
  next hy =>
    obtain rfl := h
    exact .inr ⟨Bool.not_eq_true _ ▸ hy, rfl⟩

/-- What eliminating a point leads to has its points where they may be, without that point. -/
theorem Construction.located_eliminate (ht : c.Aims k t) (hs : t.Scoped D S C) {e g : Expr}
    (he : (Shape.ofAtoms (Atom.Located D S C)).Within e)
    (h : (c.eliminate k t.y e).Leads answers relies g) :
    (Shape.ofAtoms (Atom.Located (t.rest D) S C)).Within g := by
  rcases leads_eliminate ht h with ⟨-, h⟩ | ⟨hy, rfl⟩
  · exact Target.located_eliminate hs he h
  · rw [Shape.within_ofAtoms_iff] at he ⊢
    exact fun a ha => Target.located_rest (by
      simpa using List.any_eq_false.1 hy a ha) (he a ha)

/-- Eliminating a point keeps values. -/
theorem Construction.eliminate_keeps {F : Type*} [Field F] [DecidableEq F] [CharZero F]
    [Anisotropic F] {π : Placement F} (ht : c.Aims k t) (hr : t.Ready π D S C)
    (right : π.Right D S C answers relies) {e g : Expr}
    (hs : (Shape.ofAtoms (Atom.Located D S C)).Within e)
    (hp : (Shape.ofAtoms π.Aligned).Within e)
    (h : (c.eliminate k t.y e).Leads answers relies g) :
    Expr.Keeps π.atom e g ∧ (Shape.ofAtoms π.Aligned).Within g := by
  rcases leads_eliminate ht h with ⟨-, h⟩ | ⟨-, rfl⟩
  · exact Target.eliminate_keeps hr right hs hp h
  · exact ⟨.refl _, hp⟩

/-- Only a point that is constructed is eliminated. -/
theorem Construction.kind?_of_leads {y : Point} {e g : Expr}
    (h : (c.eliminate k y e).Leads answers relies g) : ∃ kind, c.kind? y = some kind := by
  cases hk : c.kind? y with
  | some kind => exact ⟨kind, rfl⟩
  | none =>
    cases hi : c.stepIndex? y <;>
    · rw [eliminate, hi, hk] at h
      exact h.elim

/-- Nothing is done about a free point. -/
theorem Construction.eliminate_of_isFree {y : Point} (hy : c.isFree y = true) (e : Expr) :
    c.eliminate k y e = .done e := by
  rw [isFree] at hy
  cases hk : c.kind? y with
  | none => simp [hk] at hy
  | some kind =>
    obtain ⟨before, kind', after, hs, new⟩ := (contains_iff.1 (by rw [contains, hk]; rfl)).first
    obtain ⟨index, hk'⟩ := lookup_first hs new
    obtain rfl := Option.some.inj (hk.symm.trans hk')
    rw [hk] at hy
    rw [eliminate, index, hk]
    cases kind with
    | free => rfl
    | ratio | intersection | foot => cases hy

/-- Eliminating a point asks what its target asks. -/
theorem Construction.only_eliminate {asked : Statement → Nat → Prop} {failed : ProofError → Prop}
    (ht : c.Aims k t) {e : Expr} (h : (t.eliminate e).Only asked failed) :
    (c.eliminate k t.y e).Only asked failed := by
  obtain ⟨kind, hk, -⟩ := ht.kind
  obtain ⟨condition, -, eq⟩ := eliminate_of_aims ht hk
  rw [eq]
  split
  · exact Inquiry.only_bind h fun _ _ => trivial
  · exact trivial

namespace Course

variable {problem : Problem}

/-- Eliminating a point is to tidy the expression, eliminate the point from it, tidy again and clear
denominators. -/
theorem leads_eliminate {y : Point} {e g : Expr}
    (h : (eliminate problem k y e).Leads answers relies g) :
    ∃ f, (problem.construction.eliminate k y (e.tidied k)).Leads answers relies f ∧
      g = (f.tidied k).cleared := by
  obtain ⟨f, hf, h⟩ := Inquiry.leads_bind.1 h
  split at h
  · exact h.elim
  · exact ⟨f, hf, h.symm⟩

/-- Eliminating a point leaves its areas and Pythagoras differences out. -/
theorem located_eliminate (ht : problem.construction.Aims k t) (hs : t.Scoped D S C) {e g : Expr}
    (he : (Shape.ofAtoms (Atom.Located D S C)).Within e)
    (h : (eliminate problem k t.y e).Leads answers relies g) :
    (Shape.ofAtoms (Atom.Located (t.rest D) S C)).Within g := by
  obtain ⟨f, hf, rfl⟩ := leads_eliminate h
  have unoriented := Atom.unoriented_located
  have located := Construction.located_eliminate ht hs
    (Expr.within_tidied (unoriented D S C) k he) hf
  exact Expr.within_cleared (fun _ => trivial) (Expr.within_tidied (unoriented _ S C) k located)

/-- Eliminating a point keeps zeros, and ratios aligned, at placements where the point is ready for
it and the answers are right. -/
theorem eliminate_keepsZero {F : Type*} [Field F] [DecidableEq F] [CharZero F] [Anisotropic F]
    {π : Placement F} (ht : problem.construction.Aims k t) (hr : t.Ready π D S C)
    (right : π.Right D S C answers relies) {e g : Expr}
    (hs : (Shape.ofAtoms (Atom.Located D S C)).Within e)
    (hp : (Shape.ofAtoms π.Aligned).Within e)
    (h : (eliminate problem k t.y e).Leads answers relies g) :
    Expr.KeepsZero π.atom e g ∧ (Shape.ofAtoms π.Aligned).Within g := by
  obtain ⟨f, hf, rfl⟩ := leads_eliminate h
  have sound : k.Sound π := ht.collinear ▸ hr.sound
  obtain ⟨keeps, aligned⟩ := Construction.eliminate_keeps ht hr right
    (Expr.within_tidied (Atom.unoriented_located D S C) k hs)
    (Expr.within_tidied π.unoriented_aligned k hp) hf
  constructor
  · exact (((Expr.tidied_keeps sound e).trans keeps).trans
      (Expr.tidied_keeps sound f)).keepsZero.trans (Expr.cleared_keepsZero _)
  · exact Expr.within_cleared (fun _ => trivial)
      (Expr.within_tidied π.unoriented_aligned k aligned)

/-- A free point is not eliminated, but the expression is tidied and its denominators are
cleared. -/
theorem leads_eliminate_of_isFree {y : Point} (hy : problem.construction.isFree y = true)
    {e g : Expr} (h : (eliminate problem k y e).Leads answers relies g) :
    g = ((e.tidied k).tidied k).cleared := by
  obtain ⟨f, hf, rfl⟩ := leads_eliminate h
  rw [Construction.eliminate_of_isFree hy] at hf
  obtain rfl := hf
  rfl

/-- Eliminating a point asks what its elimination asks, and may fail for the size of the result. -/
theorem only_eliminate {asked : Statement → Nat → Prop} {failed : ProofError → Prop}
    (size : ∀ n limit, failed (.sizeLimit n limit)) {y : Point} {e : Expr}
    (h : (problem.construction.eliminate k y (e.tidied k)).Only asked failed) :
    (eliminate problem k y e).Only asked failed := by
  refine Inquiry.only_bind h fun f _ => ?_
  split
  · exact size _ _
  · exact trivial

end Course

end

/-! ## Eliminating all points -/

namespace Course

variable {problem : Problem} {k : CollinearSet} {steps : List Step}
  {answers : Statement → Nat → Bool → Prop} {relies : Condition → Prop}

/-- Does eliminating the points of the steps, as far as it goes, keep the invariant, which may
depend on the steps that are left? -/
structure Carries (answers : Statement → Nat → Bool → Prop) (relies : Condition → Prop)
    (problem : Problem) (k : CollinearSet) (steps : List Step) (I : List Step → Expr → Prop) :
    Prop where
  skip : ∀ step rest e, step :: rest <:+ steps → I (step :: rest) e →
    (∀ y kind, step = .point y kind → kind.isFree = true ∨ e.mentions y = false) → I rest e
  eliminate : ∀ y kind rest e g, .point y kind :: rest <:+ steps → kind.isFree = false →
    e.mentions y = true → I (.point y kind :: rest) e →
    (eliminate problem k y e).Leads answers relies g → I rest g

/-- What is carried through the steps is carried through those that are left. -/
theorem Carries.tail {I : List Step → Expr → Prop} {step : Step}
    (h : Carries answers relies problem k (step :: steps) I) :
    Carries answers relies problem k steps I where
  skip step' rest e hr := h.skip step' rest e (hr.trans (List.suffix_cons step steps))
  eliminate y kind rest e g hr :=
    h.eliminate y kind rest e g (hr.trans (List.suffix_cons step steps))

/-- What becomes of one step: nothing is left to do, or the step is passed over, or its point is
eliminated. -/
theorem eliminateAll_cons (problem : Problem) (k : CollinearSet) (step : Step) (steps : List Step)
    (e : Expr) :
    (e.isZero = true ∧ eliminateAll problem k (step :: steps) e = pure e) ∨
    ((∀ y kind, step = .point y kind → kind.isFree = true ∨ e.mentions y = false) ∧
      eliminateAll problem k (step :: steps) e = eliminateAll problem k steps e) ∨
    ∃ y kind, step = .point y kind ∧ kind.isFree = false ∧ e.mentions y = true ∧
      eliminateAll problem k (step :: steps) e =
        eliminate problem k y e >>= eliminateAll problem k steps := by
  by_cases h0 : e.isZero = true
  · left
    cases step with
    | line l a b => exact ⟨h0, by rw [eliminateAll, if_pos h0]⟩
    | point y kind => exact ⟨h0, by rw [eliminateAll, if_pos h0]⟩
  right
  cases step with
  | line l a b => exact .inl ⟨by simp, by rw [eliminateAll, if_neg h0]⟩
  | point y kind =>
    rw [eliminateAll, if_neg h0]
    split
    next hy =>
      refine .inl ⟨fun y' kind' heq => ?_, rfl⟩
      cases heq
      simpa using hy
    next hy =>
      simp only [Bool.or_eq_true, Bool.not_eq_true', not_or, Bool.not_eq_true,
        Bool.not_eq_false] at hy
      exact .inr ⟨y, kind, rfl, hy.1, hy.2, rfl⟩

/-- The elimination comes to an end when no steps are left or the expression is zero. -/
theorem leads_eliminateAll {I : List Step → Expr → Prop}
    (hI : Carries answers relies problem k steps I) {e g : Expr} (he : I steps e)
    (h : (eliminateAll problem k steps e).Leads answers relies g) :
    ∃ rest, rest <:+ steps ∧ I rest g ∧ (rest = [] ∨ g.isZero = true) := by
  induction steps generalizing e with
  | nil =>
    obtain rfl := Inquiry.leads_pure.1 h
    exact ⟨[], List.suffix_refl _, he, .inl rfl⟩
  | cons step steps ih =>
    have further : ∀ {e}, I steps e → (eliminateAll problem k steps e).Leads answers relies g →
        ∃ rest, rest <:+ step :: steps ∧ I rest g ∧ (rest = [] ∨ g.isZero = true) := by
      intro e he h
      obtain ⟨rest, hr, hg⟩ := ih hI.tail he h
      exact ⟨rest, hr.trans (List.suffix_cons step steps), hg⟩
    rcases eliminateAll_cons problem k step steps e with
      ⟨h0, eq⟩ | ⟨hy, eq⟩ | ⟨y, kind, rfl, derived, hy, eq⟩ <;> rw [eq] at h
    · obtain rfl := Inquiry.leads_pure.1 h
      exact ⟨step :: steps, List.suffix_refl _, he, .inr h0⟩
    · exact further (hI.skip step steps e (List.suffix_refl _) he hy) h
    · obtain ⟨f, hf, h⟩ := Inquiry.leads_bind.1 h
      exact further (hI.eliminate y kind steps e f (List.suffix_refl _) derived hy he hf) h

/-- Eliminating all points keeps to what is admitted if eliminating each of them does. -/
theorem only_eliminateAll {asked : Statement → Nat → Prop} {failed : ProofError → Prop}
    {I : List Step → Expr → Prop}
    (hI : Carries (fun s n _ => asked s n) (fun _ => True) problem k steps I)
    (ho : ∀ y kind rest e, .point y kind :: rest <:+ steps → kind.isFree = false →
      e.mentions y = true → I (.point y kind :: rest) e →
      (eliminate problem k y e).Only asked failed)
    {e : Expr} (he : I steps e) : (eliminateAll problem k steps e).Only asked failed := by
  induction steps generalizing e with
  | nil => exact trivial
  | cons step steps ih =>
    have further : ∀ {e}, I steps e → (eliminateAll problem k steps e).Only asked failed :=
      fun he => ih hI.tail
        (fun y kind rest e hr => ho y kind rest e (hr.trans (List.suffix_cons step steps))) he
    rcases eliminateAll_cons problem k step steps e with
      ⟨-, eq⟩ | ⟨hy, eq⟩ | ⟨y, kind, rfl, derived, hy, eq⟩ <;> rw [eq]
    · exact trivial
    · exact further (hI.skip step steps e (List.suffix_refl _) he hy)
    · refine Inquiry.only_bind (ho y kind steps e (List.suffix_refl _) derived hy he) fun f hf => ?_
      exact further (hI.eliminate y kind steps e f (List.suffix_refl _) derived hy he hf)

/-- Points may be in `D rest` while those of the steps in `rest` are still to be eliminated. Every
derived point that may be there has a target with the property `Q`. Where steps make the same point,
the first of them counts, so that it may also be free. -/
structure Descent (problem : Problem) (k : CollinearSet) (D : List Step → Point → Prop)
    (S C : Point → Prop) (Q : Target → (Point → Prop) → Prop) (steps : List Step) : Prop where
  within : ∀ rest, rest <:+ steps → ∀ p, S p ∨ C p → D rest p
  skip : ∀ step rest, step :: rest <:+ steps → ∀ p, D (step :: rest) p →
    (∀ kind, step = .point p kind → kind.isFree = true) → D rest p
  target : ∀ y kind rest, .point y kind :: rest <:+ steps → kind.isFree = false →
    D (.point y kind :: rest) y → (problem.construction.isFree y = true ∧ D rest y) ∨
      ∃ t, t.y = y ∧ problem.construction.Aims k t ∧
        t.Scoped (D (.point y kind :: rest)) S C ∧ Q t (D (.point y kind :: rest))

section
variable {D : List Step → Point → Prop} {S C : Point → Prop}
  {Q : Target → (Point → Prop) → Prop}

namespace Descent

/-- A point that the expression mentions is free or has a target. -/
theorem target_of_mentions (h : Descent problem k D S C Q steps) {y : Point} {kind : PointKind}
    {rest : List Step} (hr : .point y kind :: rest <:+ steps) (derived : kind.isFree = false)
    {e : Expr} (he : (Shape.ofAtoms (Atom.Located (D (.point y kind :: rest)) S C)).Within e)
    (hy : e.mentions y = true) :
    (problem.construction.isFree y = true ∧ D rest y) ∨
      ∃ t, t.y = y ∧ problem.construction.Aims k t ∧
        t.Scoped (D (.point y kind :: rest)) S C ∧ Q t (D (.point y kind :: rest)) := by
  obtain ⟨a, ha, hy⟩ := List.any_eq_true.1 hy
  exact h.target y kind rest hr derived ((Shape.within_ofAtoms_iff.1 he a ha).of_mem
    (h.within _ hr) (by simpa [Atom.mentions] using hy))

/-- Points that are passed over are not left anywhere. -/
theorem located_skip (h : Descent problem k D S C Q steps) {step : Step} {rest : List Step}
    (hr : step :: rest <:+ steps) {e : Expr}
    (he : (Shape.ofAtoms (Atom.Located (D (step :: rest)) S C)).Within e)
    (hy : ∀ y kind, step = .point y kind → kind.isFree = true ∨ e.mentions y = false) :
    (Shape.ofAtoms (Atom.Located (D rest) S C)).Within e := by
  rw [Shape.within_ofAtoms_iff] at he ⊢
  refine fun a ha => (he a ha).mono_of_mem fun p hp hD => h.skip step rest hr p hD ?_
  rintro kind rfl
  refine (hy p kind rfl).resolve_right fun hn => ?_
  have := List.any_eq_false.1 hn a ha
  simp [Atom.mentions, hp] at this

/-- Where a point is passed, all others stay where they may be. -/
theorem skip_of_ne (h : Descent problem k D S C Q steps) {y : Point} {kind : PointKind}
    {rest : List Step} (hr : .point y kind :: rest <:+ steps) {p : Point}
    (hp : D (.point y kind :: rest) p) (hpy : p ≠ y) : D rest p := by
  refine h.skip _ rest hr p hp fun kind' heq => ?_
  cases heq
  exact absurd rfl hpy

/-- Without the point that was eliminated, the others are where they may be. -/
theorem mono_rest (h : Descent problem k D S C Q steps) {t : Target} {kind : PointKind}
    {rest : List Step} (hr : .point t.y kind :: rest <:+ steps) {e : Expr}
    (he : (Shape.ofAtoms (Atom.Located (t.rest (D (.point t.y kind :: rest))) S C)).Within e) :
    (Shape.ofAtoms (Atom.Located (D rest) S C)).Within e :=
  Shape.within_ofAtoms_mono (fun _ ha => ha.mono fun _ hp => h.skip_of_ne hr hp.1 hp.2) he

/-- All points are where they may be if the one that is passed may stay. -/
theorem mono_free (h : Descent problem k D S C Q steps) {y : Point} {kind : PointKind}
    {rest : List Step} (hr : .point y kind :: rest <:+ steps) (hy : D rest y) {e : Expr}
    (he : (Shape.ofAtoms (Atom.Located (D (.point y kind :: rest)) S C)).Within e) :
    (Shape.ofAtoms (Atom.Located (D rest) S C)).Within e := by
  refine Shape.within_ofAtoms_mono (fun a ha => ha.mono fun p hp => ?_) he
  by_cases hpy : p = y
  · exact hpy ▸ hy
  · exact h.skip_of_ne hr hp hpy

/-- Points stay where they may be, all through the elimination. -/
theorem carries (h : Descent problem k D S C Q steps) :
    Carries answers relies problem k steps fun rest e =>
      (Shape.ofAtoms (Atom.Located (D rest) S C)).Within e where
  skip _ _ _ hr he hy := h.located_skip hr he hy
  eliminate y kind rest e g hr derived hy he hl := by
    rcases h.target_of_mentions hr derived he hy with ⟨free, hy⟩ | ⟨t, rfl, aims, hs, -⟩
    · obtain rfl := leads_eliminate_of_isFree free hl
      have unoriented := Atom.unoriented_located (D rest) S C
      exact Expr.within_cleared (fun _ => trivial) (Expr.within_tidied unoriented k
        (Expr.within_tidied unoriented k (h.mono_free hr hy he)))
    · exact h.mono_rest hr (located_eliminate aims hs he hl)

end Descent

/-- Eliminating points keeps whether the expression vanishes, if each of them is ready for it. -/
theorem eliminateAll_keepsZero {F : Type*} [Field F] [DecidableEq F] [CharZero F] [Anisotropic F]
    {π : Placement F} (sound : k.Sound π)
    (h : Descent problem k D S C (fun t D => t.Ready π D S C) steps)
    (right : ∀ rest, rest <:+ steps → π.Right (D rest) S C answers relies) {e g : Expr}
    (hs : (Shape.ofAtoms (Atom.Located (D steps) S C)).Within e)
    (hp : (Shape.ofAtoms π.Aligned).Within e)
    (hl : (eliminateAll problem k steps e).Leads answers relies g) :
    Expr.KeepsZero π.atom e g ∧ (Shape.ofAtoms π.Aligned).Within g := by
  have hI : Carries answers relies problem k steps fun rest g =>
      (Shape.ofAtoms (Atom.Located (D rest) S C)).Within g ∧
        Expr.KeepsZero π.atom e g ∧ (Shape.ofAtoms π.Aligned).Within g :=
    { skip := fun step rest g hr hg hy => ⟨h.located_skip hr hg.1 hy, hg.2⟩
      eliminate := fun y kind rest f g hr derived hy hf hl => by
        refine ⟨h.carries.eliminate y kind rest f g hr derived hy hf.1 hl, ?_⟩
        rcases h.target_of_mentions hr derived hf.1 hy with ⟨free, -⟩ | ⟨t, rfl, aims, -, ready⟩
        · obtain rfl := leads_eliminate_of_isFree free hl
          exact ⟨hf.2.1.trans (((Expr.tidied_keeps sound f).trans
              (Expr.tidied_keeps sound _)).keepsZero.trans (Expr.cleared_keepsZero _)),
            Expr.within_cleared (fun _ => trivial) (Expr.within_tidied π.unoriented_aligned k
              (Expr.within_tidied π.unoriented_aligned k hf.2.2))⟩
        · obtain ⟨keeps, aligned⟩ := eliminate_keepsZero aims ready (right _ hr) hf.1 hf.2.2 hl
          exact ⟨hf.2.1.trans keeps, aligned⟩ }
  obtain ⟨rest, -, hg, -⟩ := leads_eliminateAll hI ⟨hs, .refl e, hp⟩ hl
  exact hg.2

end

end Course

/-! ## Coordinates -/

section
variable {c : Construction} {answers : Statement → Nat → Bool → Prop} {relies : Condition → Prop}

/-- Writing an atom in coordinates leaves it as it is or replaces it by its coordinates. -/
theorem Atom.leads_inCoordinates {a : Atom} {g : Expr}
    (h : (a.inCoordinates c).Leads answers relies g) :
    (a.isIndependent = true ∧ g = .atom a) ∨
      (a.isIndependent = false ∧ (∀ p ∈ a.points, c.isFree p = true) ∧ g = a.coordinates) := by
  rw [inCoordinates.eq_def] at h
  split at h
  next hi =>
    obtain rfl := h
    exact .inl ⟨hi, rfl⟩
  next hi =>
    refine .inr ⟨Bool.not_eq_true _ ▸ hi, ?_⟩
    split at h
    next => exact h.elim
    next hfree =>
      refine ⟨by simpa using hfree, ?_⟩
      split at h
      next p q r s =>
        obtain ⟨b, -, h⟩ := Inquiry.leads_bind.1 h
        cases b with
        | true => exact (Inquiry.leads_pure.1 h).symm
        | false => exact h.elim
      next =>
        obtain rfl := h
        rfl

/-- Writing an expression in coordinates keeps its value. -/
theorem Expr.inCoordinates_keeps {F : Type*} [Field F] [DecidableEq F] [CharZero F] [Anisotropic F]
    (π : Placement F) {e g : Expr} (h : (e.inCoordinates c).Leads answers relies g) :
    Expr.Keeps π.atom e g := by
  refine (Expr.rebuilt_of_leads h).keeps (p := fun _ => True) (fun a g _ h => ?_)
    (Shape.within_ofAtoms_iff.2 fun _ _ => trivial)
  rcases Atom.leads_inCoordinates h with ⟨-, rfl⟩ | ⟨-, -, rfl⟩
  · exact .refl _
  · exact Expr.coordinates_keeps a

end

/-! ## The whole course -/

namespace Course

variable {problem : Problem} {k : CollinearSet} {steps : List Step}

section
variable {answers : Statement → Nat → Bool → Prop} {relies : Condition → Prop}

/-- Where it is not too long, the expression is multiplied out and grouped. -/
theorem leads_regroup {e g : Expr} (h : (regroup problem e).Leads answers relies g) :
    e.regrouped = g := by
  rw [regroup] at h
  split at h
  · exact h.elim
  · exact h

/-- An expression is found to vanish or not when its points are eliminated, or else when the free
points that are left are replaced by their coordinates. -/
theorem leads_vanishes {e : Expr} {b : Bool}
    (h : (vanishes problem k steps e).Leads answers relies b) :
    ∃ g, (eliminateAll problem k steps e.oriented.simplify).Leads answers relies g ∧
      ((g.regrouped.isZero = true ∧ b = true) ∨
        (g.regrouped.isZero = false ∧
          ∃ f, (g.regrouped.inCoordinates problem.construction).Leads answers relies f ∧
            b = f.oriented.simplify.regrouped.isZero)) := by
  obtain ⟨g, hg, h⟩ := Inquiry.leads_bind.1 h
  obtain ⟨r, hr, h⟩ := Inquiry.leads_bind.1 h
  obtain rfl := leads_regroup hr
  refine ⟨g, hg, ?_⟩
  split at h
  next h0 => exact .inl ⟨h0, (Inquiry.leads_pure.1 h).symm⟩
  next h0 =>
    obtain ⟨f, hf, h⟩ := Inquiry.leads_bind.1 h
    obtain ⟨r, hr, h⟩ := Inquiry.leads_bind.1 h
    obtain rfl := leads_regroup hr
    exact .inr ⟨Bool.not_eq_true _ ▸ h0, f, hf, (Inquiry.leads_pure.1 h).symm⟩

/-- A statement is found to hold if all its expressions are found to vanish. -/
theorem leads_allVanish_true {es : List Expr}
    (h : (allVanish problem k steps es).Leads answers relies true) :
    ∀ e ∈ es, (vanishes problem k steps e).Leads answers relies true := by
  induction es with
  | nil => simp
  | cons e es ih =>
    obtain ⟨b, hb, h⟩ := Inquiry.leads_bind.1 h
    cases b with
    | true => exact List.forall_mem_cons.2 ⟨hb, ih h⟩
    | false => cases h

section
variable {F : Type*} [Field F] [DecidableEq F] [CharZero F] [Anisotropic F] {π : Placement F}
  {D : List Step → Point → Prop} {S C : Point → Prop}

/-- Orienting and simplifying keeps values. -/
theorem start_keeps (π : Placement F) (e : Expr) : Expr.Keeps π.atom e e.oriented.simplify :=
  (Expr.oriented_keeps π e).trans (Expr.simplify_keeps _)

/-- Orienting and simplifying keeps to properties of atoms that do not depend on orientation. -/
theorem within_start {p : Atom → Prop} (hp : Atom.Unoriented p) {e : Expr}
    (h : (Shape.ofAtoms p).Within e) : (Shape.ofAtoms p).Within e.oriented.simplify :=
  Expr.within_simplify (Expr.within_oriented hp h)

/-- Whether an expression is found to vanish is whether another one is regrouped to zero, which
vanishes at the placement if and only if the first one does, provided that all points are ready for
elimination there. If it is found not to vanish, that is what is left, written in coordinates. -/
theorem vanishes_keepsZero (sound : k.Sound π)
    (h : Descent problem k D S C (fun t D => t.Ready π D S C) steps)
    (right : ∀ rest, rest <:+ steps → π.Right (D rest) S C answers relies) {e : Expr}
    (hs : (Shape.ofAtoms (Atom.Located (D steps) S C)).Within e)
    (hp : (Shape.ofAtoms π.Aligned).Within e) {b : Bool}
    (hl : (vanishes problem k steps e).Leads answers relies b) :
    ∃ g, Expr.KeepsZero π.atom e g ∧ b = g.regrouped.isZero ∧ (b = false → ∃ rest r f,
      (Shape.ofAtoms (Atom.Located (D rest) S C)).Within r ∧
      (r.inCoordinates problem.construction).Leads answers relies f ∧ g = f.oriented.simplify) := by
  obtain ⟨g, hg, hl⟩ := leads_vanishes hl
  have start := within_start (Atom.unoriented_located _ S C) hs
  have eliminated := (eliminateAll_keepsZero sound h right start
    (within_start π.unoriented_aligned hp) hg).1
  have left : Expr.KeepsZero π.atom e g := (start_keeps π e).keepsZero.trans eliminated
  rcases hl with ⟨h0, rfl⟩ | ⟨-, f, hf, h0⟩
  · exact ⟨g, left, h0.symm, fun h => nomatch h⟩
  · refine ⟨f.oriented.simplify, ?_, h0, fun _ => ?_⟩
    · exact (left.trans (Expr.regrouped_keepsZero g)).trans
        ((Expr.inCoordinates_keeps π hf).trans (start_keeps π f)).keepsZero
    · obtain ⟨rest, -, located, -⟩ := leads_eliminateAll h.carries start hg
      exact ⟨rest, g.regrouped, f,
        Expr.within_regrouped (s := .ofAtoms _) (fun _ => trivial) located, hf, rfl⟩

/-- What is found to vanish does so at the placement. -/
theorem value_eq_zero_of_vanishes (sound : k.Sound π)
    (h : Descent problem k D S C (fun t D => t.Ready π D S C) steps)
    (right : ∀ rest, rest <:+ steps → π.Right (D rest) S C answers relies) {e : Expr}
    (hs : (Shape.ofAtoms (Atom.Located (D steps) S C)).Within e)
    (hp : (Shape.ofAtoms π.Aligned).Within e)
    (hl : (vanishes problem k steps e).Leads answers relies true) (he : e.DefinedAt π.atom) :
    e.value π.atom = 0 := by
  obtain ⟨g, keeps, h0, -⟩ := vanishes_keepsZero sound h right hs hp hl
  exact ((keeps.trans (Expr.regrouped_keepsZero g)) he).2.1 (Expr.value_eq_zero_of_isZero h0.symm)

end

end

section
variable {asked : Statement → Nat → Prop} {failed : ProofError → Prop}

/-- Seeing whether all expressions vanish keeps to what is admitted if it does so for each. -/
theorem only_allVanish {es : List Expr}
    (h : ∀ e ∈ es, (vanishes problem k steps e).Only asked failed) :
    (allVanish problem k steps es).Only asked failed := by
  induction es with
  | nil => exact trivial
  | cons e es ih =>
    rw [List.forall_mem_cons] at h
    refine Inquiry.only_bind h.1 fun b _ => ?_
    cases b with
    | true => exact ih h.2
    | false => exact trivial

variable (size : ∀ n limit, failed (.sizeLimit n limit))
include size

/-- Multiplying out and grouping asks nothing, and may fail for the number of terms. -/
theorem only_regroup (e : Expr) : (regroup problem e).Only asked failed := by
  rw [regroup]
  split
  · exact size _ _
  · exact trivial

/-- Seeing whether an expression vanishes keeps to what is admitted if eliminating the points does
so, and writing what is left in coordinates where it is not zero. -/
theorem only_vanishes {e : Expr}
    (ho : (eliminateAll problem k steps e.oriented.simplify).Only asked failed)
    (hc : ∀ g, (eliminateAll problem k steps e.oriented.simplify).Leads
        (fun s n _ => asked s n) (fun _ => True) g → g.regrouped.isZero = false →
      (g.regrouped.inCoordinates problem.construction).Only asked failed) :
    (vanishes problem k steps e).Only asked failed := by
  refine Inquiry.only_bind ho fun g hg => Inquiry.only_bind (only_regroup size g) fun r hr => ?_
  obtain rfl := leads_regroup hr
  split
  next => exact trivial
  next h0 =>
    refine Inquiry.only_bind (hc g hg (Bool.not_eq_true _ ▸ h0)) fun f _ => ?_
    exact Inquiry.only_bind (only_regroup size _) fun _ _ => trivial

end

end Course

end AreaMethod
