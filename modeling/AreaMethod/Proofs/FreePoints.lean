import AreaMethod.Proofs.Validity

/-!
# Elimination reaches free points

One sweep over the steps, from the last to the first, leaves no derived point in areas, Pythagoras
differences and ratios, although each elimination brings in others: those are made before
(`Course.carries_reaches`). The exception is a ratio to a segment that is given by one point twice,
which elimination leaves as it is; so there must be none in the statement, and none may arise.

The sweep stops early when the expression shows at sight that it is zero. Then it is found to be
zero (`Expr.isZero_regrouped`) and is not written in coordinates. Hence no proof ends without a
decision because a derived point is left (`Problem.reaches_free_points`).
-/

namespace AreaMethod

/-! ## Zero at sight -/

namespace Expr

/-- Zero is zero at sight. -/
theorem isZero_zero : zero.isZero = true := by
  simp [zero, rational, isZero, Numeral.ofRat]

/-- An expression is zero at sight if and only if one of its factors is. -/
theorem isZero_iff_factors {e : Expr} : e.isZero = true ↔ ∃ f ∈ e.factors, f.isZero = true := by
  induction e using factors.induct with
  | case1 fs ih =>
    rw [isZero_product, List.any_eq_true, factors]
    simp only [List.mem_flatMap]
    constructor
    · rintro ⟨f, hf, h0⟩
      obtain ⟨g, hg, h0⟩ := (ih f hf).1 h0
      exact ⟨g, ⟨f, hf, hg⟩, h0⟩
    · rintro ⟨g, ⟨f, hf, hg⟩, h0⟩
      exact ⟨f, hf, (ih f hf).2 ⟨g, hg, h0⟩⟩
  | case2 e h => simp [factors]

/-- A factor that is zero at sight makes the coefficient zero or is one of the other parts. -/
theorem Parts.zero_of_mem {fs : List Expr} (h : ∃ f ∈ fs, f.isZero = true) :
    (ofFactors fs).coefficient = 0 ∨
      ∃ g ∈ (ofFactors fs).plain ++ (ofFactors fs).numerators, g.isZero = true := by
  have key : ∀ es : List Expr, (∃ e ∈ es, e.isZero = true) →
      (es.foldr add empty).coefficient = 0 ∨
        ∃ g ∈ (es.foldr add empty).plain ++ (es.foldr add empty).numerators, g.isZero = true := by
    intro es
    induction es with
    | nil => simp
    | cons e es ih =>
      rintro ⟨f, hf, h0⟩
      rw [List.foldr_cons]
      rcases List.mem_cons.1 hf with rfl | hf
      · cases f with
        | number n =>
          left
          simpa [add, isZero] using .inl (by simpa [isZero] using h0)
        | fraction n d =>
          right
          exact ⟨n, by simp [add], by simpa [isZero] using h0⟩
        | atom a => simp [isZero] at h0
        | product | sum =>
          right
          exact ⟨_, by simp [add], h0⟩
      · rcases ih ⟨f, hf, h0⟩ with hc | ⟨g, hg, h0⟩
        · left
          cases e <;> simp [add, hc]
        · right
          refine ⟨g, ?_, h0⟩
          rcases List.mem_append.1 hg with hg | hg <;> cases e <;> simp [add, hg]
  refine key _ ?_
  obtain ⟨f, hf, h0⟩ := h
  obtain ⟨g, hg, h0⟩ := isZero_iff_factors.1 h0
  exact ⟨g, by simpa using ⟨f, hf, hg⟩, h0⟩

/-- A product with a factor that is zero at sight is so too. -/
theorem isZero_assemble (c : Rat) {fs : List Expr} (h : ∃ f ∈ fs, f.isZero = true) :
    (assemble c fs).isZero = true := by
  have sorted : ∃ f ∈ sort fs, f.isZero = true := by
    obtain ⟨f, hf, h0⟩ := h
    exact ⟨f, (sort_perm fs).mem_iff.2 hf, h0⟩
  rw [assemble]
  split
  · generalize sort fs = gs at sorted
    rcases gs with _ | ⟨g, _ | ⟨g', gs⟩⟩
    · obtain ⟨f, hf, -⟩ := sorted
      cases hf
    · obtain ⟨f, hf, h0⟩ := sorted
      obtain rfl := List.mem_singleton.1 hf
      exact h0
    · change (product (g :: g' :: gs)).isZero = true
      rw [isZero_product, List.any_eq_true]
      exact sorted
  · rw [isZero_product, List.any_cons, Bool.or_eq_true, List.any_eq_true]
    exact .inr sorted

/-- Products and quotients that are zero at sight stay so when they are simplified. -/
theorem isZero_multiply_divide :
    (∀ fs, (∃ f ∈ fs, f.isZero = true) → (multiply fs).isZero = true) ∧
      ∀ n d : Expr, n.isZero = true → (divide n d).isZero = true := by
  refine multiply_divide_induction
    (P := fun fs e => (∃ f ∈ fs, f.isZero = true) → e.isZero = true)
    (Q := fun n _ e => n.isZero = true → e.isZero = true)
    (fun _ _ _ => isZero_zero) (fun fs hc hd h => ?_)
    (fun fs gs top bottom e hc _ hg _ _ ht _ he h => ?_)
    (fun n d _ h => by simpa [isZero] using h) (fun _ _ _ _ _ => isZero_zero) ?_ ?_ ?_ ?_ ?_
  · have numerators : (Parts.ofFactors fs).numerators = [] :=
      Parts.numerators_eq_nil hd
    obtain ⟨g, hg, h0⟩ := (Parts.zero_of_mem h).resolve_left hc
    rw [numerators, List.append_nil] at hg
    exact isZero_assemble _ ⟨g, hg, h0⟩
  · obtain ⟨g, hmem, h0⟩ := (Parts.zero_of_mem h).resolve_left hc
    exact he (ht ⟨g, hg ▸ List.mem_cons_of_mem _ hmem, h0⟩)
  -- What is left are quotients whose numerators are not zero at sight.
  · intro t b d m e _ hn _ _ _ h0
    rw [hn] at h0
    cases h0
  · intro n t b m e _ _ hn _ _ _ h0
    rw [hn] at h0
    cases h0
  · intro n c e _ _ hn _ h0
    rw [hn] at h0
    cases h0
  · intro n d _ _ _ _ hn _ h0
    rw [hn] at h0
    cases h0
  · intro n d e _ _ _ _ hn _ _ _ h0
    rw [hn] at h0
    cases h0

/-- What is zero at sight stays so when it is simplified. -/
theorem isZero_simplify {e : Expr} (h : e.isZero = true) : e.simplify.isZero = true := by
  induction e using ind with
  | number n =>
    rw [simplify]
    exact h
  | atom a => simp [isZero] at h
  | product fs ih =>
    rw [simplify]
    rw [isZero_product, List.any_eq_true] at h
    obtain ⟨f, hf, h0⟩ := h
    exact isZero_multiply_divide.1 _ ⟨_, List.mem_map_of_mem hf, ih f hf h0⟩
  | sum ts ih =>
    obtain rfl : ts = [] := by simpa [isZero] using h
    rw [simplify, List.map_nil, addUp_nil]
    exact isZero_zero
  | fraction n d ihn _ =>
    rw [simplify]
    exact isZero_multiply_divide.2 _ _ (ihn (by simpa [isZero] using h))

/-- What is zero at sight has a numerator that is. -/
theorem isZero_overDenominator {e : Expr} (h : e.isZero = true) :
    e.overDenominator.1.isZero = true := by
  induction e using ind with
  | number n =>
    rw [overDenominator]
    exact h
  | atom a => simp [isZero] at h
  | product fs ih =>
    rw [overDenominator]
    rw [isZero_product, List.any_eq_true] at h
    obtain ⟨f, hf, h0⟩ := h
    exact isZero_multiply_divide.1 _
      ⟨_, List.mem_map_of_mem (List.mem_map_of_mem hf), ih f hf h0⟩
  | sum ts ih =>
    obtain rfl : ts = [] := by simpa [isZero] using h
    have nothing : overCommon [] = (addUp [], none) := rfl
    rw [overDenominator, List.map_nil, nothing, addUp_nil]
    exact isZero_zero
  | fraction n d ihn _ =>
    have hn := ihn (by simpa [isZero] using h)
    rw [overDenominator]
    dsimp only
    cases d.overDenominator.2 with
    | none => exact hn
    | some f => exact isZero_multiply_divide.1 _ ⟨_, List.mem_cons_self, hn⟩

/-- What is zero at sight stays so as a numerator. -/
theorem isZero_cleared {e : Expr} (h : e.isZero = true) : e.cleared.isZero = true := by
  have single : e.singleFraction.isZero = true := by
    have h0 := isZero_overDenominator (isZero_simplify h)
    rw [singleFraction]
    split
    next n hn =>
      rw [hn] at h0
      exact h0
    next n d hn =>
      rw [hn] at h0
      exact isZero_multiply_divide.2 n d h0
  refine isZero_simplify ?_
  rw [numerator.eq_def]
  split
  next n d hs => simpa [hs, isZero] using single
  next => exact single

/-- What is zero at sight is regrouped to zero. -/
theorem isZero_regrouped {e : Expr} (h : e.isZero = true) : e.regrouped.isZero = true := by
  let v : Atom → Option RationalFunction := fun a => some (.variable a)
  have within : (Shape.ofAtoms fun _ => True).Within e :=
    Shape.within_ofAtoms_iff.2 fun _ _ => trivial
  have polynomial : (Shape.polynomial fun _ => True).Within e.cleared :=
    within_cleared (s := .polynomial fun _ => True) (fun _ => trivial) within
  have defined : e.cleared.DefinedAt v := definedAt_of_polynomial (fun _ _ => rfl) polynomial
  have unit : Keeps v e.cleared e.cleared.unitProduct := fun h => by simp [unitProduct, h]
  refine isZero_of_value_eq_zero (v := v) (fun _ _ => rfl)
    (within_expanded (s := .polynomial fun _ => True) (fun _ => trivial) within) ?_
  rw [(unit.trans (expanded_keeps _) defined).2]
  exact value_eq_zero_of_isZero (isZero_cleared h)

end Expr

/-! ## Where derived points are left -/

/-- The atom is no ratio to a segment that is given by one point twice. -/
def Atom.Proper : Atom → Prop
  | .ratio _ _ c d => c ≠ d
  | _ => True

/-- Are all points of the atom in `D`, and is it no ratio to a segment without length? Coordinates
of points do not matter. -/
def Atom.Reaches (D : Point → Prop) : Atom → Prop
  | .coordinate _ _ => True
  | a => a.Proper ∧ ∀ p ∈ a.points, D p

namespace Atom

variable {D E : Point → Prop}

/-- It is enough that the points of the atom are elsewhere too. -/
theorem Reaches.mono_of_mem {a : Atom} (h : a.Reaches D) (hDE : ∀ p ∈ a.points, D p → E p) :
    a.Reaches E := by
  cases a with
  | coordinate => trivial
  | area | pythagoras | ratio | scalar => exact ⟨h.1, fun p hp => hDE p hp (h.2 p hp)⟩

/-- A proper atom reaches where all its points are. -/
theorem reaches_of_forall_mem {a : Atom} (h : ∀ p ∈ a.points, D p) (hp : a.Proper) :
    a.Reaches D := by
  cases a with
  | coordinate => trivial
  | area | pythagoras | ratio | scalar => exact ⟨hp, h⟩

/-- An atom that reaches points is a parameter or a coordinate, or all its points are among them. -/
theorem Reaches.independent_or {a : Atom} (h : a.Reaches D) :
    a.isIndependent = true ∨ ∀ p ∈ a.points, D p := by
  cases a with
  | coordinate | scalar => exact .inl rfl
  | area | pythagoras | ratio => exact .inr h.2

/-- What an atom reaches does not depend on its orientation. -/
theorem unoriented_reaches (D : Point → Prop) : Unoriented (Reaches D) where
  area_first h := ⟨trivial, by simpa [points, and_left_comm] using h.2⟩
  area_second h := ⟨trivial, by simpa [points, and_comm] using h.2⟩
  pythagoras h := by
    have h := h.2
    simp only [points, List.forall_mem_cons] at h
    exact ⟨trivial, by simpa [points] using ⟨h.2.2.1, h.2.1, h.1⟩⟩
  ratio_first h := ⟨h.1, by simpa [points, and_left_comm] using h.2⟩
  ratio_second h := ⟨Ne.symm h.1, by simpa [points, and_comm, and_left_comm] using h.2⟩

end Atom

namespace Target

variable {t : Target} {D : Point → Prop} {answers : Statement → Nat → Bool → Prop}
  {relies : Condition → Prop}

/-- The points that a point is displaced along are others of `D`, two of them different, and so are
the points of its coefficient. -/
structure Proper (t : Target) (D : Point → Prop) : Prop where
  points : t.rest D t.shift.w ∧ t.rest D t.shift.u ∧ t.rest D t.shift.v
  different : t.shift.u ≠ t.shift.v
  coefficient : (Shape.ofAtoms (Atom.Reaches (t.rest D))).Within t.shift.t

/-- Eliminating a proper target brings in atoms that reach the points that are left. -/
theorem Proper.allows (h : t.Proper D) : t.Allows D (Atom.Reaches (t.rest D)) where
  points := h.points
  coefficient := h.coefficient
  area a b c ha hb hc := ⟨trivial, by simp [Atom.points, ha, hb, hc]⟩
  pythagoras a b c ha hb hc := ⟨trivial, by simp [Atom.points, ha, hb, hc]⟩

/-- The segments of a proper target can be joined. -/
theorem Proper.joinable (h : t.Proper D) : t.Joinable D (Atom.Reaches (t.rest D)) D where
  within _ := id
  position x hx hxy := by
    obtain ⟨hw, hu, hv⟩ := h.points
    exact ⟨h.different, by simpa [Atom.points, hw, hu, hv] using ⟨hx, hxy⟩⟩
  segment x z hx hxy hz hzy := by
    obtain ⟨-, hu, hv⟩ := h.points
    exact ⟨h.different, by simpa [Atom.points, hu, hv] using ⟨⟨hx, hxy⟩, hz, hzy⟩⟩

/-- Eliminating a point leaves it out of everything but coordinates. -/
theorem reaches_eliminate (h : t.Proper D) {e g : Expr}
    (he : (Shape.ofAtoms (Atom.Reaches D)).Within e)
    (hl : (t.eliminate e).Leads answers relies g) :
    (Shape.ofAtoms (Atom.Reaches (t.rest D))).Within g := by
  refine within_eliminate (q := Atom.Reaches D) h.allows (fun a b c ha => ?_)
    (fun a b c ha => ?_) (fun a b c d ha _ => ?_) (fun _ _ => trivial)
    (fun a ha hy => ha.mono_of_mem fun p hp hD => ⟨hD, ?_⟩) he hl
  · simpa [Atom.points] using ha.2
  · simpa [Atom.points] using ha.2
  · obtain ⟨proper, ha⟩ := ha
    exact ⟨D, h.joinable, by simpa [Atom.points] using ha, fun same => absurd same proper⟩
  · rintro rfl
    exact hy hp

end Target

/-! ## The sweep -/

/-- Ratios are to segments between two different points: those that points are constructed along,
and those that the coefficients speak of. -/
def Construction.Proper (c : Construction) : Prop :=
  ∀ y w u v r, .point y (.ratio w u v r) ∈ c.steps → u ≠ v ∧ ∀ a ∈ r.atomList, a.Proper

/-- Is no ratio of the statement one to a segment that is given by one point twice? -/
def Statement.Proper (s : Statement) : Prop := ∀ e ∈ s.expressions, ∀ a ∈ e.atomList, a.Proper

namespace Construction

variable {c : Construction} (hc : c.Built) (hp : c.Proper)
include hc hp

/-- A derived point is displaced along two different points. -/
theorem Built.proper_displacement {y : Point} {kind : PointKind} (hy : .point y kind ∈ c.steps)
    {s : Displacement} (hs : kind.displacement? = some s) :
    s.u ≠ s.v ∧ ∀ a ∈ s.t.atomList, a.Proper := by
  obtain ⟨before, after, steps⟩ := List.append_of_mem hy
  have drawn := (hc.follows before _ after steps).2
  have ends : ∀ l a b, .line l a b ∈ before → a ≠ b := by
    intro l a b hl
    obtain ⟨earlier, later, rfl⟩ := List.append_of_mem hl
    rw [List.append_assoc] at steps
    exact (hc.follows earlier _ _ steps).2
  refine ⟨?_, PointKind.atoms_of_displacement? hs
    (fun w u v r ratio => (hp y w u v r (ratio ▸ hy)).2) (fun _ _ _ => trivial)
    fun _ _ _ => trivial⟩
  cases kind with
  | free => cases hs
  | ratio w u v r =>
    obtain rfl := Option.some.inj hs
    exact (hp y w u v r hy).1
  | intersection u v p q =>
    obtain rfl := Option.some.inj hs
    obtain ⟨l, -, -, hl, -⟩ := drawn
    exact ends l u v hl
  | foot p u v =>
    obtain rfl := Option.some.inj hs
    obtain ⟨l, hl⟩ := drawn
    exact ends l u v hl

/-- Eliminating a point leaves points that are made before, or free. -/
theorem proper_target {before : List Step} {t : Target} {kind : PointKind}
    (hy : .point t.y kind ∈ c.steps) (shift : kind.displacement? = some t.shift)
    (earlier : ∀ q ∈ kind.support, MadeBy before q ∧ q ≠ t.y) {D : Point → Prop}
    (hD : ∀ q, MadeBy before q → D q) : t.Proper D := by
  obtain ⟨⟨hw, hu, hv⟩, ht⟩ := PointKind.support_of_displacement? shift
  obtain ⟨different, proper⟩ := hc.proper_displacement hp hy shift
  have inside : ∀ q ∈ kind.support, t.rest D q := fun q hq =>
    ⟨hD q (earlier q hq).1, (earlier q hq).2⟩
  refine ⟨⟨inside _ hw, inside _ hu, inside _ hv⟩, different, ?_⟩
  exact Shape.within_ofAtoms_iff.2 fun a ha =>
    Atom.reaches_of_forall_mem (fun q hq => inside q (ht a ha q hq)) (proper a ha)

end Construction

namespace Course

variable {problem : Problem} {answers : Statement → Nat → Bool → Prop} {relies : Condition → Prop}

/-- The points that are left while those of the steps in `rest` are still to be eliminated. -/
def Left (c : Construction) (rest : List Step) (p : Point) : Prop :=
  MadeBy rest p ∨ c.isFree p = true

/-- A point that only the last step makes is the one that it makes; if it is free, it is free in the
construction. -/
theorem Left.of_cons {c : Construction} {n : Nat} {step : Step} {rest : List Step}
    (hr : step :: rest <:+ (c.steps.take n).reverse) {p : Point} (h : Left c (step :: rest) p)
    (hp : ∀ kind, step = .point p kind → kind.isFree = true) : Left c rest p := by
  rcases h with ⟨kind, h⟩ | free
  · rcases List.mem_cons.1 h with rfl | h
    · by_cases made : MadeBy rest p
      · exact .inl made
      · obtain ⟨after, hs⟩ := Construction.steps_of_suffix hr
        have first := (Construction.lookup_first hs (mt (fun h => h.imp fun _ =>
          List.mem_reverse.1) made)).2
        exact .inr (by rw [Construction.isFree, first]; exact hp kind rfl)
    · exact .inl ⟨kind, h⟩
  · exact .inr free

/-- The sweep leaves only points that are made before the steps it has come to, or free. -/
theorem carries_reaches (hc : problem.construction.Built) (hp : problem.construction.Proper)
    (k : CollinearSet) (n : Nat) :
    Carries answers relies problem k (problem.construction.steps.take n).reverse fun rest e =>
      (Shape.ofAtoms (Atom.Reaches (Left problem.construction rest))).Within e where
  skip step rest e hr he hy := by
    rw [Shape.within_ofAtoms_iff] at he ⊢
    refine fun a ha => (he a ha).mono_of_mem fun p hpa hD => hD.of_cons hr ?_
    rintro kind rfl
    refine (hy p kind rfl).resolve_right fun absent => ?_
    have := List.any_eq_false.1 absent a ha
    simp [Atom.mentions, hpa] at this
  eliminate y kind rest e g hr derived hy he hl := by
    obtain ⟨after, hs⟩ := Construction.steps_of_suffix hr
    have other : ∀ p, Left problem.construction (.point y kind :: rest) p → p ≠ y →
        Left problem.construction rest p := fun p hD hpy => hD.of_cons hr (by
      rintro kind heq
      cases heq
      exact absurd rfl hpy)
    obtain ⟨f, hf, rfl⟩ := leads_eliminate hl
    have unoriented := Atom.unoriented_reaches
    have tidied := Expr.within_tidied (unoriented _) k he
    refine Expr.within_cleared (s := .ofAtoms _) (fun _ => trivial)
      (Expr.within_tidied (unoriented _) k ?_)
    rcases Construction.exists_target hc.grounded k hs with free |
      ⟨t, kind', rfl, aims, made, shift, earlier⟩
    · rw [Construction.eliminate_of_isFree free] at hf
      obtain rfl := hf
      refine Shape.within_ofAtoms_mono (fun a ha => ha.mono_of_mem fun p _ hD => ?_) tidied
      by_cases hpy : p = y
      · exact .inr (hpy ▸ free)
      · exact other p hD hpy
    · have proper : t.Proper (Left problem.construction (.point t.y kind :: rest)) :=
        Construction.proper_target hc hp made shift earlier fun q hq =>
          .inl (hq.imp fun _ h => List.mem_cons_of_mem _ (List.mem_reverse.1 h))
      rcases Construction.leads_eliminate aims hf with ⟨-, hf⟩ | ⟨absent, rfl⟩
      · exact Shape.within_ofAtoms_mono (fun a ha => ha.mono_of_mem fun p _ hD =>
          other p hD.1 hD.2) (Target.reaches_eliminate proper tidied hf)
      · rw [Shape.within_ofAtoms_iff] at tidied ⊢
        refine fun a ha => (tidied a ha).mono_of_mem fun p hpa hD => other p hD ?_
        rintro rfl
        have := List.any_eq_false.1 absent a ha
        simp [Atom.mentions, hpa] at this

/-- What is left to be written in coordinates has free points only. -/
theorem reaches_regrouped (hc : problem.construction.Built) (hp : problem.construction.Proper)
    (k : CollinearSet) {n : Nat} {goal : Statement} (covered : problem.construction.Covers goal n)
    (proper : goal.Proper) {e : Expr} (he : e ∈ goal.expressions) {g : Expr}
    (hl : (eliminateAll problem k (problem.construction.steps.take n).reverse
      e.oriented.simplify).Leads answers relies g) (h0 : g.regrouped.isZero = false) :
    (Shape.ofAtoms (Atom.Reaches fun p => problem.construction.isFree p = true)).Within
      g.regrouped := by
  have made := Statement.forall_mem_points_iff.1 (fun p hp =>
    Construction.containsBefore_iff.1 (covered.points p hp)) e he
  have start : (Shape.ofAtoms (Atom.Reaches (Left problem.construction
      (problem.construction.steps.take n).reverse))).Within e := by
    rw [Shape.within_ofAtoms_iff] at made ⊢
    exact fun a ha => Atom.reaches_of_forall_mem
      (fun p hp => .inl ((made a ha p hp).imp fun _ => List.mem_reverse.2)) (proper e he a ha)
  obtain ⟨rest, -, reached, rfl | zero⟩ := leads_eliminateAll (carries_reaches hc hp k n)
    (within_start (Atom.unoriented_reaches _) start) hl
  · refine Expr.within_regrouped (s := .ofAtoms _) (fun _ => trivial)
      (Shape.within_ofAtoms_mono (fun a ha => ha.mono_of_mem fun p _ hD => ?_) reached)
    exact hD.resolve_left fun ⟨_, h⟩ => by cases h
  · rw [Expr.isZero_regrouped zero] at h0
    cases h0

end Course

/-! ## What is asked, and what goes wrong -/

/-- Is the statement that two areas are equal? -/
def Statement.IsComparison (s : Statement) : Prop :=
  ∃ name a b c d e f, s = .zero name (.area a b c - .area d e f)

/-- A comparison of areas has no ratios, so it is proper. -/
theorem Statement.IsComparison.proper {s : Statement} (h : s.IsComparison) : s.Proper := by
  obtain ⟨name, a, b, c, d, e, f, rfl⟩ := h
  refine List.forall_mem_singleton.2 (Shape.within_ofAtoms_iff.1 ((Shape.within_sub _ _).2 ?_))
  exact ⟨(Shape.within_atom _).2 trivial, (Shape.within_atom _).2 trivial⟩

/-- If something could not be decided, it is whether two areas are equal. -/
def ProofError.OnComparison (e : ProofError) : Prop :=
  ∀ s, e = .inconclusive s → s.IsComparison

namespace Construction

variable {c : Construction}

/-- Eliminating a constructed point asks only whether areas are equal. -/
theorem only_eliminate_comparison (hc : Grounded c.steps) (k : CollinearSet) {y : Point}
    {kind : PointKind} (hy : .point y kind ∈ c.steps) (e : Expr) {failed : ProofError → Prop} :
    (c.eliminate k y e).Only (fun s _ => s.IsComparison) failed := by
  obtain ⟨before, after, hs⟩ := List.append_of_mem hy
  rcases exists_target hc k hs with free | ⟨t, kind', rfl, aims, -⟩
  · rw [eliminate_of_isFree free]
    exact trivial
  · refine only_eliminate aims (Target.only_eliminate (S := fun _ => True) (D := fun _ => True)
      (C := fun _ => True) (fun x _ => ?_) (Shape.within_ofAtoms_iff.2 fun a _ =>
        Atom.located_of_forall_mem fun _ _ => ⟨trivial, trivial⟩))
    rw [Target.onLine]
    split
    · exact trivial
    · exact ⟨trivial, ⟨_, _, _, _, _, _, _, rfl⟩, fun _ => trivial⟩

/-- Writing an atom of free points in coordinates asks only whether areas are equal. -/
theorem only_inCoordinates_comparison {a : Atom}
    (ha : a.Reaches fun p => c.isFree p = true) :
    (a.inCoordinates c).Only (fun s _ => s.IsComparison) ProofError.OnComparison := by
  have comparison : ∀ p q r s, (Statement.parallel p q r s).IsComparison := fun p q r s =>
    ⟨_, _, _, _, _, _, _, rfl⟩
  rw [Atom.inCoordinates.eq_def]
  split
  · exact trivial
  next dependent =>
    have free := ha.independent_or.resolve_left dependent
    split
    next p hp =>
      have := List.find?_some hp
      rw [free p (List.mem_of_find?_eq_some hp)] at this
      cases this
    next =>
      split
      next p q r s _ =>
        refine Inquiry.only_bind ⟨comparison p q r s, fun _ => trivial⟩ fun b _ => ?_
        cases b with
        | true => exact trivial
        | false =>
          rintro s' ⟨⟩
          exact comparison _ _ _ _
      next => exact trivial

end Construction

namespace Problem

variable {problem : Problem}

/-- In the course of a proof it is only asked whether areas are equal, and if something cannot be
decided, it is that. -/
theorem only_course_comparison (hc : problem.construction.Built)
    (hp : problem.construction.Proper) {n : Nat} {goal : Statement}
    (covered : problem.construction.Covers goal n) (proper : goal.Proper) :
    (problem.course n goal.expressions).Only (fun s _ => s.IsComparison)
      ProofError.OnComparison := by
  have size : ∀ n limit, (ProofError.sizeLimit n limit).OnComparison := by
    rintro n limit s ⟨⟩
  refine Course.only_allVanish fun e he => Course.only_vanishes size
    (Course.only_eliminateAll (I := fun _ _ => True) ⟨fun _ _ _ _ _ _ => trivial,
      fun _ _ _ _ _ _ _ _ _ _ => trivial⟩ (fun y kind rest e hr _ _ _ => ?_) trivial)
    fun g hg h0 => ?_
  · obtain ⟨after, hs⟩ := Construction.steps_of_suffix hr
    have hy : .point y kind ∈ problem.construction.steps := by
      rw [hs]
      exact List.mem_append_right _ List.mem_cons_self
    exact Course.only_eliminate size
      (Construction.only_eliminate_comparison hc.grounded _ hy _)
  · exact Expr.only_mapAtomsM (fun a ha => Construction.only_inCoordinates_comparison ha)
      (Course.reaches_regrouped hc hp _ covered proper he hg h0)

/-- A proof does not end without a decision because a derived point is left. -/
theorem outcome_onComparison (hc : problem.construction.Built) (hp : problem.construction.Proper)
    {n : Nat} {goal : Statement} (covered : problem.construction.Covers goal n)
    (proper : goal.Proper) {nesting : Nat} {m : Memory} {e : ProofError}
    (he : (problem.outcome nesting goal n m).result = .error e) : e.OnComparison := by
  let asked (s : Statement) (n : Nat) : Prop := problem.construction.Covers s n ∧ s.IsComparison
  have only : ∀ {s n}, problem.construction.Covers s n → s.Proper →
      (problem.course (min n problem.construction.length) s.expressions).Only asked
        ProofError.OnComparison := by
    intro s n hs proper
    have hs := Construction.covers_min_iff.2 hs
    exact ((only_course hc.grounded hs).and (only_course_comparison hc hp hs proper)).mono
      (fun _ _ => id) (fun _ h => h.2) fun _ _ => trivial
  rw [outcome_eq] at he
  refine outcomeBy_error (suboutcome_error asked (fun _ _ hs => hs.1)
    (fun s n hs => only hs.1 hs.2.proper) (fun s n e hs he => ?_) ?_ nesting) covered
    (only covered proper) he
  · cases e with
    | inconclusive f =>
      rintro s' ⟨⟩
      exact hs.2
    | invalidStatement | invalidConstruction | depthLimit | sizeLimit => exact he
  · rintro s ⟨⟩

end Problem

/-- What is done to an expression before what is left of it is written in coordinates. -/
def Attempt.beforeCoordinates (s : Setting) (k : CollinearSet) (e : Expr) : Attempt Expr := do
  let e ← pass s "uniformize" e.oriented
  let e ← pass s "simplify" e.simplify
  let e ← eliminateAll s k (s.problem.construction.steps.take s.prefixLength).reverse e
  regroup s e

/-- Seeing whether an expression vanishes goes as far as before coordinates, and on from there if
the expression is not zero at sight. -/
theorem Attempt.vanishes_eq (s : Setting) (k : CollinearSet) (e : Expr) :
    vanishes s k e = do
      let e ← beforeCoordinates s k e
      if e.isZero then return true
      let e ← inquire s (e.inCoordinates s.problem.construction)
      let e ← pass s "independent_variables" e
      let e ← pass s "uniformize" e.oriented
      let e ← pass s "simplify" e.simplify
      let e ← regroup s e
      return e.isZero := by
  simp only [vanishes, beforeCoordinates, bind_assoc]

/-- What is kept by all that attempts do holds of this part of them. -/
theorem Attempt.Lifting.beforeCoordinates {s s' : Setting}
    {R : {α : Type} → Attempt α → Attempt α → Inquiry α → Prop} (h : Lifting s s' R)
    (k : CollinearSet) (e : Expr) :
    R (Attempt.beforeCoordinates s k e) (Attempt.beforeCoordinates s' k e) (do
      let e ← Course.eliminateAll s.problem k
        (s.problem.construction.steps.take s.prefixLength).reverse e.oriented.simplify
      Course.regroup s.problem e) := by
  rw [Attempt.beforeCoordinates, Attempt.beforeCoordinates, h.construction, h.prefixLength]
  exact h.pass (by decide) (h.pass (by decide) (h.bind (h.eliminateAll k _ _) h.regroup))

namespace Problem

variable {problem : Problem}

/-- What is left of an expression before it is written in coordinates is what its course leads to.
-/
theorem leads_beforeCoordinates {nesting depth n : Nat} {k : CollinearSet} {e g : Expr}
    {p p' : Progress} (fits : p.session.Fits problem.construction)
    (run : (Attempt.beforeCoordinates ⟨problem, n, depth, problem.subproof nesting depth⟩ k e).run
      p = (.ok g, p')) :
    ∃ f, (Course.eliminateAll problem k (problem.construction.steps.take n).reverse
      e.oriented.simplify).Leads (fun _ _ _ => True) (fun _ => True) f ∧ f.regrouped = g := by
  let s : Setting := ⟨problem, n, depth, problem.subproof nesting depth⟩
  have follows := (Attempt.lifting_follows (s := s) (problem.realizes_subproof nesting depth)
    (problem.suboutcome_normal nesting)).beforeCoordinates k e
  have result := (follows p fits).1.symm.trans (congrArg Prod.fst run)
  have leads : Inquiry.Leads (fun _ _ _ => True) (fun _ => True) _ g :=
    Inquiry.leads_of_exec (P := fun _ => True) (fun _ _ _ _ => trivial)
      (fun _ _ _ _ _ _ _ => trivial) (Inquiry.only_trivial _) trivial result fun _ _ => trivial
  obtain ⟨f, hf, hg⟩ := Inquiry.leads_bind.1 leads
  exact ⟨f, hf, Course.leads_regroup hg⟩

/-- The elimination reaches free points. Over a construction that is built, with ratios to segments
between two different points only, take a statement with such ratios that makes sense. Whenever one
of its expressions is about to be written in coordinates (`Attempt.vanishes_eq`), in a proof at any
depth, what is left has free points only, coordinates apart. Whatever is asked in the course of the
proof is again such a statement. Hence no proof ends without a decision because of a derived point.
-/
theorem reaches_free_points (hc : problem.construction.Built) (hp : problem.construction.Proper)
    {n : Nat} {goal : Statement} (covered : problem.construction.Covers goal n)
    (proper : goal.Proper) :
    (∀ nesting depth k, ∀ e ∈ goal.expressions, ∀ p g p',
      p.session.Fits problem.construction →
      (Attempt.beforeCoordinates ⟨problem, n, depth, problem.subproof nesting depth⟩ k e).run p =
        (.ok g, p') → g.isZero = false →
      ∀ a ∈ g.atomList, a.isIndependent = true ∨
        ∀ q ∈ a.points, problem.construction.isFree q = true) ∧
    (problem.course n goal.expressions).Only
      (fun s m => problem.construction.Covers s m ∧ s.Proper) (fun _ => True) ∧
    ∀ nesting depth σ r needed, σ.Fits problem.construction →
      (problem.proveNested nesting depth goal n σ).1 = .ok r → r.verdict = .unknown →
      r.unknownReason = some (.blocked needed) → ∀ q a,
      needed ≠ .zero (problem.construction.name q ++ " in free coordinates") (.atom a) := by
  refine ⟨fun nesting depth k e he p g p' fits run h0 a ha => ?_, ?_,
    fun nesting depth σ r needed fits hr unknown blocked q a => ?_⟩
  · obtain ⟨f, hf, rfl⟩ := leads_beforeCoordinates fits run
    exact (Shape.within_ofAtoms_iff.1
      (Course.reaches_regrouped hc hp k covered proper he hf h0) a ha).independent_or
  · exact ((only_course hc.grounded covered).and
      (only_course_comparison hc hp covered proper)).mono (fun _ _ h => ⟨h.1, h.2.proper⟩)
      (fun _ _ => trivial) fun _ _ => trivial
  · obtain ⟨-, -, shows⟩ := problem.realizes_proveNested nesting depth goal n σ fits
    rw [hr] at shows
    cases result : (problem.outcome nesting goal n σ.decided).result with
    | ok b =>
      have verdict := shows.verdict b result
      rw [unknown] at verdict
      cases b <;> cases verdict
    | error e =>
      obtain ⟨-, reason, hreason, he⟩ := shows.unknown e result
      obtain rfl := Option.some.inj (hreason.symm.trans blocked)
      have compared := outcome_onComparison hc hp covered proper result
      cases e with
      | inconclusive s =>
        obtain rfl : s = needed := by simpa [ProofError.unknownReason?] using he
        obtain ⟨name, a, b, c, d, e, f, rfl⟩ := compared s rfl
        intro same
        cases (List.cons.inj (congrArg Statement.expressions same)).1
      | invalidStatement | invalidConstruction | depthLimit | sizeLimit => cases he

/-- A triangle and the midpoint of a side. -/
def median : Problem := ⟨.after [.free "A", .free "B", .free "C", .midpoint "M" ⟨0⟩ ⟨1⟩], .standard⟩

/-- The area of `C`, `A` and the midpoint comes down to one of `A`, `B` and `C`. -/
theorem median_reaches_free_points :
    ∃ g p', (Attempt.beforeCoordinates ⟨median, 4, 0, median.subproof 8 0⟩
        (CollinearSet.search median.construction).1 (.area ⟨2⟩ ⟨0⟩ ⟨3⟩)).run (.start .start) =
        (.ok g, p') ∧ g.isZero = false ∧
      ∀ a ∈ g.atomList, a.isIndependent = true ∨
        ∀ q ∈ a.points, median.construction.isFree q = true := by
  have steps : median.construction.steps = [.point ⟨0⟩ .free, .point ⟨1⟩ .free, .point ⟨2⟩ .free,
      .point ⟨3⟩ (.ratio ⟨0⟩ ⟨0⟩ ⟨1⟩ (.rational (mkRat 1 2)))] := by cbv
  have run : ((Attempt.beforeCoordinates ⟨median, 4, 0, median.subproof 8 0⟩
      (CollinearSet.search median.construction).1 (.area ⟨2⟩ ⟨0⟩ ⟨3⟩)).run
        (.start .start)).1.toOption.map (·.isZero) = some false := by cbv
  obtain ⟨g, hg, h0⟩ := Option.map_eq_some_iff.1 run
  have run := Prod.ext (y := (Except.ok g, _)) (eq_ok_of_toOption hg) rfl
  have built : median.construction.Built := Construction.built_after _
  have proper : median.construction.Proper := by
    intro y w u v r h
    simp only [steps, List.mem_cons, Step.point.injEq, reduceCtorEq, and_false,
      PointKind.ratio.injEq, List.not_mem_nil, or_false, false_or] at h
    obtain ⟨-, -, rfl, rfl, rfl⟩ := h
    exact ⟨by decide, by simp [Expr.rational, Expr.atomList]⟩
  let goal : Statement := .zero "C, A, M" (.area ⟨2⟩ ⟨0⟩ ⟨3⟩)
  have points : goal.points = [⟨0⟩, ⟨2⟩, ⟨3⟩] := by cbv
  have covers : median.construction.Covers goal 4 :=
    ⟨List.cons_ne_nil _ _, by simp [points, Construction.containsBefore_iff, steps, MadeBy]⟩
  obtain ⟨reaches, -⟩ := reaches_free_points built proper covers (by
    simp [goal, Statement.Proper, Statement.zero, Expr.area, Expr.atomList, Atom.Proper])
  exact ⟨g, _, run, h0, reaches 8 0 _ _ List.mem_cons_self _ _ _ (by rintro _ ⟨⟩) run h0⟩

end Problem

end AreaMethod
