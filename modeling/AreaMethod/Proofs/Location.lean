import AreaMethod.Elimination.Point
import AreaMethod.Proofs.Construction
import AreaMethod.Proofs.Inquiry
import AreaMethod.Proofs.Placement

/-!
# Where elimination leads

Eliminating a point replaces atoms by expressions of other points: those it is displaced along,
those of its coefficient, and those that the atom has besides. `Atom.Located` says where the points
of an atom may be, and `located_eliminate` that elimination keeps them there and leaves the
eliminated point out. What an elimination asks is then about constructed points (`only_eliminate`).
The point itself is left only in atoms that stay as they are (`leaves_eliminate`).
-/

namespace AreaMethod

/-- The points of a statement are those of the atoms of its expressions. -/
theorem Statement.forall_mem_points_iff {s : Statement} {P : Point → Prop} :
    (∀ p ∈ s.points, P p) ↔
      ∀ e ∈ s.expressions, (Shape.ofAtoms fun a => ∀ p ∈ a.points, P p).Within e := by
  simp only [Shape.within_ofAtoms_iff, points, mem_ascending, List.mem_flatMap]
  constructor
  · exact fun h e he a ha p hp => h p ⟨e, he, a, ha, hp⟩
  · rintro h p ⟨e, he, a, ha, hp⟩
    exact h e he a ha p hp

/-- An area has the property that its three points have. -/
theorem Expr.within_area {P : Point → Prop} {a b c : Point} (ha : P a) (hb : P b) (hc : P c) :
    (Shape.ofAtoms fun a => ∀ p ∈ a.points, P p).Within (.area a b c) :=
  (Shape.within_atom _).2 (by simp [Shape.ofAtoms, Atom.points, ha, hb, hc])

/-- Does the statement make sense over the first steps, of the given number? It has expressions, and
the steps construct all its points. -/
structure Construction.Covers (c : Construction) (s : Statement) (n : Nat) : Prop where
  nonempty : s.expressions ≠ []
  points : ∀ p ∈ s.points, c.containsBefore p n = true

namespace Displacement

/-- What holds of weights, and of the sum of two at the same point, holds after one more is
added. -/
theorem forall_mem_addWeight {P : Point → Expr → Prop} (hP : ∀ q f e, P q f → P q e → P q (f + e))
    {p : Point} {e : Expr} (he : P p e) {ws : List (Point × Expr)} (h : ∀ w ∈ ws, P w.1 w.2) :
    ∀ w ∈ addWeight p e ws, P w.1 w.2 := by
  induction ws with
  | nil => simpa [addWeight] using he
  | cons w ws ih =>
    obtain ⟨q, g⟩ := w
    rw [List.forall_mem_cons] at h
    rw [addWeight]
    split
    next hq => exact List.forall_mem_cons.2 ⟨hP q g e h.1 (hq ▸ he), h.2⟩
    next => exact List.forall_mem_cons.2 ⟨h.1, ih h.2⟩

/-- Every weight is made of the coefficient and belongs to `W`, `U` or `V`. -/
theorem forall_mem_weights (s : Displacement) {P : Point → Expr → Prop}
    (hP : ∀ q f e, P q f → P q e → P q (f + e))
    (hw : P s.w .one) (hu : P s.u (-s.t)) (hv : P s.v s.t) : ∀ w ∈ s.weights, P w.1 w.2 :=
  forall_mem_addWeight hP hv (forall_mem_addWeight hP hu (forall_mem_addWeight hP hw (by simp)))

end Displacement

/-! ## Where the points of atoms are -/

/-- Are the points of the atom where they may be? Those of ratios are in `S`, coordinates are those
of points in `C`, and the points of areas and Pythagoras differences are in `D`. -/
def Atom.Located (D S C : Point → Prop) : Atom → Prop
  | .ratio a b c d => S a ∧ S b ∧ S c ∧ S d
  | .coordinate p _ => C p
  | a => ∀ q ∈ a.points, D q

/-- Where the points of an atom are does not depend on its orientation. -/
theorem Atom.unoriented_located (D S C : Point → Prop) : Atom.Unoriented (Located D S C) where
  area_first h := by simpa [Located, points, and_left_comm] using h
  area_second h := by simpa [Located, points, and_comm] using h
  pythagoras h := by
    simp only [Located, points, List.forall_mem_cons] at h ⊢
    exact ⟨h.2.2.1, h.2.1, h.1, h.2.2.2⟩
  ratio_first h := ⟨h.2.1, h.1, h.2.2⟩
  ratio_second h := ⟨h.1, h.2.1, h.2.2.2, h.2.2.1⟩

/-- An atom is located in `E` as it is in `D` if its points are in `E` where they are in `D`. -/
theorem Atom.Located.mono_of_mem {D E S C : Point → Prop} {a : Atom} (h : a.Located D S C)
    (hDE : ∀ p ∈ a.points, D p → E p) : a.Located E S C := by
  cases a with
  | ratio a b c d => exact h
  | coordinate p i => exact h
  | area a b c => exact fun q hq => hDE q hq (h q hq)
  | pythagoras a b c => exact fun q hq => hDE q hq (h q hq)
  | scalar s => exact fun q hq => hDE q hq (h q hq)

/-- An atom that is located in `D` is located in every larger set. -/
theorem Atom.Located.mono {D E S C : Point → Prop} (hDE : ∀ p, D p → E p) {a : Atom}
    (h : a.Located D S C) : a.Located E S C :=
  h.mono_of_mem fun p _ => hDE p

/-- An atom is located if all its points are in `D` and in `R`. -/
theorem Atom.located_of_forall_mem {D R : Point → Prop} {a : Atom}
    (h : ∀ p ∈ a.points, D p ∧ R p) : a.Located D R R := by
  cases a with
  | ratio a b c d => simpa [Located, points] using fun p hp => (h p hp).2
  | coordinate p i => exact (h p (List.mem_singleton_self p)).2
  | area a b c => exact fun q hq => (h q hq).1
  | pythagoras a b c => exact fun q hq => (h q hq).1
  | scalar s => exact fun q hq => (h q hq).1

/-- The points of a ratio are in `S`. -/
theorem Atom.Located.of_mem_ratio {D S C : Point → Prop} {a b c d p : Point}
    (h : Atom.Located D S C (.ratio a b c d)) (hp : p ∈ (Atom.ratio a b c d).points) : S p := by
  obtain ⟨ha, hb, hc, hd⟩ := h
  simp only [points, List.mem_cons, List.not_mem_nil, or_false] at hp
  rcases hp with rfl | rfl | rfl | rfl
  exacts [ha, hb, hc, hd]

/-- All points of the atom are in `D` if those of ratios and coordinates are. -/
theorem Atom.Located.of_mem {D S C : Point → Prop} {a : Atom} (h : a.Located D S C)
    (hD : ∀ p, S p ∨ C p → D p) {p : Point} (hp : p ∈ a.points) : D p := by
  cases a with
  | ratio a b c d => exact hD p (.inl (h.of_mem_ratio hp))
  | coordinate q i =>
    obtain rfl := List.mem_singleton.1 hp
    exact hD _ (.inr h)
  | area a b c => exact h p hp
  | pythagoras a b c => exact h p hp
  | scalar s => exact h p hp

namespace Target

/-- The points of `D` other than the one to be eliminated. -/
def rest (t : Target) (D : Point → Prop) (p : Point) : Prop := D p ∧ p ≠ t.y

/-- May areas and Pythagoras differences of points in `D` be replaced by expressions of atoms with
the given property? -/
structure Allows (t : Target) (D : Point → Prop) (p : Atom → Prop) : Prop where
  points : t.rest D t.shift.w ∧ t.rest D t.shift.u ∧ t.rest D t.shift.v
  coefficient : (Shape.ofAtoms p).Within t.shift.t
  area : ∀ a b c, t.rest D a → t.rest D b → t.rest D c → p (.area a b c)
  pythagoras : ∀ a b c, t.rest D a → t.rest D b → t.rest D c → p (.pythagoras a b c)

/-- The points that a point is displaced along are others of `D`, and in `S` if it is there itself,
and so are the points of its coefficient. -/
structure Scoped (t : Target) (D S C : Point → Prop) : Prop where
  points : t.rest D t.shift.w ∧ t.rest D t.shift.u ∧ t.rest D t.shift.v
  ends : S t.y → S t.shift.w ∧ S t.shift.u ∧ S t.shift.v
  within : ∀ p, S p → D p
  coefficient : (Shape.ofAtoms (Atom.Located (t.rest D) S C)).Within t.shift.t

variable {t : Target} {D S C : Point → Prop} {answers : Statement → Nat → Bool → Prop}
  {relies : Condition → Prop}

/-- A target in scope allows what its elimination brings in to be located among the other points. -/
theorem Scoped.allows (h : t.Scoped D S C) : t.Allows D (Atom.Located (t.rest D) S C) where
  points := h.points
  coefficient := h.coefficient
  area a b c ha hb hc := by simp [Atom.Located, Atom.points, ha, hb, hc]
  pythagoras a b c ha hb hc := by simp [Atom.Located, Atom.points, ha, hb, hc]

section
variable {p : Atom → Prop}

/-- The weights are at other points, and have the property of atoms that is allowed. -/
theorem within_weights (h : t.Allows D p) : ∀ w ∈ t.shift.weights,
    t.rest D w.1 ∧ (Shape.ofAtoms p).Within w.2 :=
  t.shift.forall_mem_weights (P := fun q e => t.rest D q ∧ (Shape.ofAtoms p).Within e)
    (fun _ f e hf he => ⟨hf.1, (Shape.within_add f e).2 ⟨hf.2, he.2⟩⟩)
    ⟨h.points.1, Shape.within_one⟩ ⟨h.points.2.1, (Shape.within_neg _).2 h.coefficient⟩
    ⟨h.points.2.2, h.coefficient⟩

/-- A combination has the property of atoms if what is combined has it at all other points. -/
theorem within_combination (h : t.Allows D p) {g : Point → Expr}
    (hg : ∀ q, t.rest D q → (Shape.ofAtoms p).Within (g q)) :
    (Shape.ofAtoms p).Within (t.combination g) := by
  rw [combination, Shape.within_sum, List.forall_mem_map]
  rintro ⟨q, e⟩ hw
  obtain ⟨hq, he⟩ := within_weights h _ hw
  exact (Shape.within_mul _ _).2 ⟨he, hg q hq⟩

/-- What an area is replaced by is allowed. -/
theorem within_area (h : t.Allows D p) {a b c : Point} (ha : D a) (hb : D b) (hc : D c) :
    (Shape.ofAtoms p).Within (t.area a b c) := by
  have side : ∀ q r, t.rest D q → t.rest D r →
      (Shape.ofAtoms p).Within (t.combination (.area q r)) :=
    fun q r hq hr => within_combination h fun s hs =>
      (Shape.within_atom _).2 (h.area q r s hq hr hs)
  rw [area]
  split
  next => exact Shape.within_zero
  next once =>
    simp only [List.countP_cons, List.countP_nil, beq_iff_eq] at once
    split
    next hya => exact side b c ⟨hb, by grind⟩ ⟨hc, by grind⟩
    next hya =>
      split
      next hyb => exact side c a ⟨hc, by grind⟩ ⟨ha, hya⟩
      next hyb => exact side a b ⟨ha, hya⟩ ⟨hb, hyb⟩

/-- Both of a pair are members of the list. -/
theorem mem_of_mem_pairs {α : Type*} {xs : List α} {i : α × α} (h : i ∈ pairs xs) :
    i.1 ∈ xs ∧ i.2 ∈ xs := by
  induction xs with
  | nil => cases h
  | cons x xs ih =>
    rcases List.mem_append.1 h with h | h
    · obtain ⟨y, hy, rfl⟩ := List.mem_map.1 h
      exact ⟨List.mem_cons_self, List.mem_cons_of_mem x hy⟩
    · exact ⟨List.mem_cons_of_mem x (ih h).1, List.mem_cons_of_mem x (ih h).2⟩

/-- What a Pythagoras difference is replaced by is allowed. -/
theorem within_pythagoras (h : t.Allows D p) {a b c : Point} (ha : D a) (hb : D b) (hc : D c) :
    (Shape.ofAtoms p).Within (t.pythagoras a b c) := by
  have corner : ∀ {q r s}, t.rest D q → t.rest D r → t.rest D s →
      (Shape.ofAtoms p).Within (.pythagoras q r s) := fun hq hr hs =>
    (Shape.within_atom _).2 (h.pythagoras _ _ _ hq hr hs)
  have middle : ∀ {q r}, t.rest D q → t.rest D r →
      (Shape.ofAtoms p).Within (t.pythagorasMiddle q r) := by
    intro q r hq hr
    rw [pythagorasMiddle, Shape.within_sum]
    intro e he
    rcases List.mem_append.1 he with he | he
    · obtain ⟨w, hw, rfl⟩ := List.mem_map.1 he
      obtain ⟨hq', he'⟩ := within_weights h w hw
      exact (Shape.within_mul _ _).2 ⟨he', corner hq hq' hr⟩
    · obtain ⟨i, hi, rfl⟩ := List.mem_map.1 he
      obtain ⟨h₁, h₂⟩ := mem_of_mem_pairs hi
      obtain ⟨hd₁, hw₁⟩ := within_weights h _ h₁
      obtain ⟨hd₂, hw₂⟩ := within_weights h _ h₂
      simpa using ⟨⟨hw₁, hw₂⟩, corner hd₁ hd₂ hd₁⟩
  have last : ∀ {q r}, t.rest D q → t.rest D r →
      (Shape.ofAtoms p).Within (t.pythagorasEnd q r) := fun hq hr =>
    within_combination h fun s hs => corner hq hr hs
  rw [pythagoras]
  split <;> simp only [decide_eq_true_eq, decide_eq_false_iff_not] at *
  next => exact Shape.within_zero
  next => exact Shape.within_zero
  next hyb _ => exact middle ⟨hb, hyb⟩ ⟨hb, hyb⟩
  next hya _ hyc => exact middle ⟨ha, hya⟩ ⟨hc, hyc⟩
  next hyb hyc => exact last ⟨hc, hyc⟩ ⟨hb, hyb⟩
  next hya hyb _ => exact last ⟨ha, hya⟩ ⟨hb, hyb⟩
  next hya hyb hyc => exact corner ⟨ha, hya⟩ ⟨hb, hyb⟩ ⟨hc, hyc⟩

end

/-! ## Ratios -/

/-- A sign brings in no atoms. -/
theorem within_withSign {p : Atom → Prop} {e : Expr} (b : Bool)
    (h : (Shape.ofAtoms p).Within e) : (Shape.ofAtoms p).Within (withSign b e) := by
  cases b with
  | true => exact (Shape.within_neg _).2 h
  | false => exact h

/-- Is the segment `pq` the one between `x` and the point, starting in the point or ending there? -/
def Joins (t : Target) (x : Point) (starts : Bool) (p q : Point) : Prop :=
  (starts = true ∧ p = t.y ∧ q = x) ∨ (starts = false ∧ p = x ∧ q = t.y)

/-- A segment that ends in the point joins it to its other end. -/
theorem joins_otherEnd {p q : Point} (hpq : p ≠ q) (hy : p = t.y ∨ q = t.y) :
    t.Joins (t.otherEnd p q).1 (t.otherEnd p q).2 p q ∧ (t.otherEnd p q).1 ≠ t.y := by
  rw [otherEnd]
  split
  next hp => exact ⟨.inl ⟨rfl, hp, rfl⟩, hp ▸ hpq.symm⟩
  next hp => exact ⟨.inr ⟨rfl, rfl, hy.resolve_left hp⟩, hp⟩

/-- What the ratio of `xy` to a segment is replaced by, according to whether `x` is found to be on
the line. -/
theorem leads_overSegment {x c d : Point} {g : Expr}
    (hl : (t.overSegment x c d).Leads answers relies g) :
    ((t.onLine x).Leads answers relies true ∧
        g = t.position x / .ratio c d t.shift.u t.shift.v) ∨
      relies (.notParallel c d t.shift.u t.shift.v) ∧
        g = t.offset x / (.area c t.shift.u t.shift.v - .area d t.shift.u t.shift.v) := by
  obtain ⟨b, hb, hl⟩ := Inquiry.leads_bind.1 hl
  cases b with
  | true => exact .inl ⟨hb, (Inquiry.leads_pure.1 hl).symm⟩
  | false => exact .inr ⟨hl.1, hl.2.symm⟩

/-- What the ratio of `xy` to `zy` is replaced by, according to whether `x` is found to be on the
line. -/
theorem leads_throughPoint {x z : Point} {g : Expr}
    (hl : (t.throughPoint x z).Leads answers relies g) :
    ((t.onLine x).Leads answers relies true ∧ g = t.position x / t.position z) ∨
      relies (.notParallel x z t.shift.u t.shift.v) ∧ g = t.offset x / t.offset z := by
  obtain ⟨b, hb, hl⟩ := Inquiry.leads_bind.1 hl
  cases b with
  | true => exact .inl ⟨hb, (Inquiry.leads_pure.1 hl).symm⟩
  | false => exact .inr ⟨hl.1, hl.2.symm⟩

/-- What a ratio is replaced by, according to which of its segments end in the point. -/
theorem ratio_induction {a b c d : Point} {P : Expr → Prop} {g : Expr}
    (hl : (t.ratio a b c d).Leads answers relies g) (null : a = b → P .zero)
    (stays : c = d ∨ t.y ∉ (Atom.ratio a b c d).points → P (.ratio a b c d))
    (first : ∀ x starts e, t.Joins x starts a b → x ≠ t.y → c ≠ t.y → d ≠ t.y →
      (t.overSegment x c d).Leads answers relies e → P (withSign starts e))
    (second : ∀ x starts e, t.Joins x starts c d → x ≠ t.y → a ≠ b → a ≠ t.y → b ≠ t.y →
      (t.overSegment x a b).Leads answers relies e → P (withSign starts (.one / e)))
    (both : ∀ x starts z starts' e, t.Joins x starts a b → x ≠ t.y → t.Joins z starts' c d →
      z ≠ t.y → x = z ∧ e = .one ∨ (t.throughPoint x z).Leads answers relies e →
      P (withSign (starts != starts') e)) :
    P g := by
  rw [ratio] at hl
  split at hl
  next hab => exact hl ▸ null hab
  next hab =>
  split at hl
  next hcd => exact hl ▸ stays (.inl hcd)
  next hcd =>
  split at hl <;> simp only [decide_eq_true_eq, decide_eq_false_iff_not, not_or] at *
  next ends other =>
    obtain ⟨j, hxy⟩ := joins_otherEnd hab ends
    obtain ⟨e, he, rfl⟩ := Inquiry.leads_bind.1 hl
    exact first _ _ e j hxy other.1 other.2 he
  next other ends =>
    obtain ⟨j, hxy⟩ := joins_otherEnd hcd ends
    obtain ⟨e, he, rfl⟩ := Inquiry.leads_bind.1 hl
    exact second _ _ e j hxy hab other.1 other.2 he
  next ends ends' =>
    obtain ⟨j, hxy⟩ := joins_otherEnd hab ends
    obtain ⟨j', hzy⟩ := joins_otherEnd hcd ends'
    split at hl
    next same => exact hl ▸ both _ _ _ _ .one j hxy j' hzy (.inl ⟨same, rfl⟩)
    next =>
      obtain ⟨e, he, rfl⟩ := Inquiry.leads_bind.1 hl
      exact both _ _ _ _ e j hxy j' hzy (.inr he)
  next ends ends' =>
    refine hl ▸ stays (.inr ?_)
    simp only [Atom.points, List.mem_cons, List.not_mem_nil, or_false, not_or]
    exact ⟨Ne.symm ends.1, Ne.symm ends.2, Ne.symm ends'.1, Ne.symm ends'.2⟩

/-- A segment to another point has two ends. -/
theorem Joins.ne {x p q : Point} {starts : Bool} (j : t.Joins x starts p q) (hxy : x ≠ t.y) :
    p ≠ q := by
  rcases j with ⟨-, rfl, rfl⟩ | ⟨-, rfl, rfl⟩
  · exact hxy.symm
  · exact hxy

/-- What holds of the ends of the segment holds of `x` and of the point. -/
theorem Joins.ends {x p q : Point} {starts : Bool} (j : t.Joins x starts p q) (hp : S p)
    (hq : S q) : S x ∧ S t.y := by
  rcases j with ⟨-, rfl, rfl⟩ | ⟨-, rfl, rfl⟩
  · exact ⟨hq, hp⟩
  · exact ⟨hp, hq⟩

/-- May ratios of points in `X` be replaced by expressions of atoms with the given property? -/
structure Joinable (t : Target) (D : Point → Prop) (p : Atom → Prop) (X : Point → Prop) : Prop where
  within : ∀ x, X x → D x
  position : ∀ x, X x → x ≠ t.y → p (.ratio x t.shift.w t.shift.u t.shift.v)
  segment : ∀ x z, X x → x ≠ t.y → X z → z ≠ t.y → p (.ratio x z t.shift.u t.shift.v)

section
variable {p : Atom → Prop} {X : Point → Prop}

/-- The position of a point on the line is allowed. -/
theorem within_position (h : t.Allows D p) (j : t.Joinable D p X) {x : Point} (hx : X x)
    (hxy : x ≠ t.y) : (Shape.ofAtoms p).Within (t.position x) :=
  (Shape.within_add _ _).2 ⟨(Shape.within_atom _).2 (j.position x hx hxy), h.coefficient⟩

/-- The offset of a point from the line is allowed. -/
theorem within_offset (h : t.Allows D p) (j : t.Joinable D p X) {x : Point} (hx : X x)
    (hxy : x ≠ t.y) : (Shape.ofAtoms p).Within (t.offset x) :=
  have ⟨hw, hu, hv⟩ := h.points
  (Shape.within_sub _ _).2
    ⟨(Shape.within_atom _).2 (h.area _ _ _ ⟨j.within x hx, hxy⟩ hu hv),
      (Shape.within_atom _).2 (h.area _ _ _ hw hu hv)⟩

/-- What the ratio of a segment that ends in the point is replaced by is allowed. -/
theorem within_overSegment (h : t.Allows D p) (j : t.Joinable D p X) {x c d : Point} (hx : X x)
    (hxy : x ≠ t.y) (hc : X c) (hcy : c ≠ t.y) (hd : X d) (hdy : d ≠ t.y) {g : Expr}
    (hl : (t.overSegment x c d).Leads answers relies g) : (Shape.ofAtoms p).Within g := by
  rcases leads_overSegment hl with ⟨-, rfl⟩ | ⟨-, rfl⟩
  · exact (Shape.within_div _ _).2 ⟨trivial, within_position h j hx hxy,
      (Shape.within_atom _).2 (j.segment c d hc hcy hd hdy)⟩
  · obtain ⟨-, hu, hv⟩ := h.points
    exact (Shape.within_div _ _).2 ⟨trivial, within_offset h j hx hxy, (Shape.within_sub _ _).2
      ⟨(Shape.within_atom _).2 (h.area _ _ _ ⟨j.within c hc, hcy⟩ hu hv),
        (Shape.within_atom _).2 (h.area _ _ _ ⟨j.within d hd, hdy⟩ hu hv)⟩⟩

/-- What the ratio of two segments that end in the point is replaced by is allowed. -/
theorem within_throughPoint (h : t.Allows D p) (j : t.Joinable D p X) {x z : Point} (hx : X x)
    (hxy : x ≠ t.y) (hz : X z) (hzy : z ≠ t.y) {g : Expr}
    (hl : (t.throughPoint x z).Leads answers relies g) : (Shape.ofAtoms p).Within g := by
  rcases leads_throughPoint hl with ⟨-, rfl⟩ | ⟨-, rfl⟩
  · exact (Shape.within_div _ _).2
      ⟨trivial, within_position h j hx hxy, within_position h j hz hzy⟩
  · exact (Shape.within_div _ _).2 ⟨trivial, within_offset h j hx hxy, within_offset h j hz hzy⟩

/-- A ratio that mentions the point is replaced, unless it is one of a segment without length. -/
theorem within_ratio (h : t.Allows D p) (j : t.Joinable D p X) {a b c d : Point} (ha : X a)
    (hb : X b) (hc : X c) (hd : X d) (null : c = d → p (.ratio a b c d))
    (hy : t.y ∈ (Atom.ratio a b c d).points) {g : Expr}
    (hl : (t.ratio a b c d).Leads answers relies g) : (Shape.ofAtoms p).Within g := by
  refine ratio_induction hl (fun _ => Shape.within_zero) (fun same => ?_) ?_ ?_ ?_
  · exact (Shape.within_atom _).2 (null (same.resolve_right (absurd hy)))
  · intro x starts e k hxy hcy hdy he
    exact within_withSign _ (within_overSegment h j (k.ends ha hb).1 hxy hc hcy hd hdy he)
  · intro x starts e k hxy _ hay hby he
    exact within_withSign _ ((Shape.within_div _ _).2 ⟨trivial, Shape.within_one,
      within_overSegment h j (k.ends hc hd).1 hxy ha hay hb hby he⟩)
  · rintro x starts z starts' e k hxy k' hzy (⟨-, rfl⟩ | he)
    · exact within_withSign _ Shape.within_one
    · exact within_withSign _
        (within_throughPoint h j (k.ends ha hb).1 hxy (k'.ends hc hd).1 hzy he)

end

/-- Ratios of points in `S`, with the point among them, are replaced by ratios of points in `S`. -/
theorem Scoped.joinable (h : t.Scoped D S C) (hy : S t.y) :
    t.Joinable D (Atom.Located (t.rest D) S C) S where
  within := h.within
  position _ hx _ := ⟨hx, h.ends hy⟩
  segment _ _ hx _ hz _ := ⟨hx, hz, (h.ends hy).2⟩

/-! ## Expressions -/

/-- An atom that does not mention the point stays where it is without it. -/
theorem located_rest {a : Atom} (hy : a.mentions t.y = false) (hp : a.Located D S C) :
    a.Located (t.rest D) S C := by
  have other : ∀ q ∈ a.points, q ≠ t.y := by
    rintro q hq rfl
    simp [Atom.mentions, hq] at hy
  cases a with
  | ratio a b c d => exact hp
  | coordinate p i => exact hp
  | area a b c => exact fun q hq => ⟨hp q hq, other q hq⟩
  | pythagoras a b c => exact fun q hq => ⟨hp q hq, other q hq⟩
  | scalar s => exact fun q hq => ⟨hp q hq, other q hq⟩

/-- Eliminating the point turns atoms with the property `q` into expressions of atoms with the
property `p`. The points of areas and Pythagoras differences have to be in `D` and those of ratios
in a set that allows for them; coordinates of the point stay, and so do ratios to a segment that is
given by one point twice. -/
theorem within_eliminate {p q : Atom → Prop} (h : t.Allows D p)
    (area : ∀ a b c, q (.area a b c) → D a ∧ D b ∧ D c)
    (pythagoras : ∀ a b c, q (.pythagoras a b c) → D a ∧ D b ∧ D c)
    (ratio : ∀ a b c d, q (.ratio a b c d) → t.y ∈ (Atom.ratio a b c d).points →
      ∃ X, t.Joinable D p X ∧ (X a ∧ X b ∧ X c ∧ X d) ∧ (c = d → p (.ratio a b c d)))
    (coordinate : ∀ i, q (.coordinate t.y i) → p (.coordinate t.y i))
    (other : ∀ a, q a → t.y ∉ a.points → p a) {e g : Expr} (he : (Shape.ofAtoms q).Within e)
    (hl : (t.eliminate e).Leads answers relies g) : (Shape.ofAtoms p).Within g := by
  refine (Expr.rebuilt_of_leads hl).within (fun a g ha hl => ?_) he
  split at hl
  next hy =>
    have hy : t.y ∈ a.points := by simpa [Atom.mentions] using hy
    cases a with
    | area a b c =>
      obtain rfl := hl
      obtain ⟨ha, hb, hc⟩ := area a b c ha
      exact within_area h ha hb hc
    | pythagoras a b c =>
      obtain rfl := hl
      obtain ⟨ha, hb, hc⟩ := pythagoras a b c ha
      exact within_pythagoras h ha hb hc
    | ratio a b c d =>
      obtain ⟨X, joinable, ⟨ha, hb, hc, hd⟩, null⟩ := ratio a b c d ha hy
      exact within_ratio h joinable ha hb hc hd null hy hl
    | scalar s => cases hy
    | coordinate x i =>
      obtain rfl := hl
      obtain rfl := List.mem_singleton.1 hy
      exact (Shape.within_atom _).2 (coordinate i ha)
  next hy =>
    obtain rfl := hl
    exact (Shape.within_atom _).2 (other a ha (by simpa [Atom.mentions] using hy))

/-- Eliminating a point leaves its areas and Pythagoras differences out. -/
theorem located_eliminate (h : t.Scoped D S C) {e g : Expr}
    (he : (Shape.ofAtoms (Atom.Located D S C)).Within e)
    (hl : (t.eliminate e).Leads answers relies g) :
    (Shape.ofAtoms (Atom.Located (t.rest D) S C)).Within g := by
  refine within_eliminate (q := Atom.Located D S C) h.allows (fun a b c ha => ?_)
    (fun a b c ha => ?_) (fun a b c d ha hy => ?_) (fun _ => id)
    (fun a ha hy => located_rest (by simpa [Atom.mentions] using hy) ha) he hl
  · simpa [Atom.Located, Atom.points] using ha
  · simpa [Atom.Located, Atom.points] using ha
  · exact ⟨S, h.joinable (ha.of_mem_ratio hy), ha, fun _ => ha⟩

/-! ## What is left of the point -/

/-- Can the atom be there after the point is eliminated from the expression? Its points are in `D`,
and if it has the eliminated one, it was there before, as a coordinate of that point or as a ratio
to a segment that is given by one point twice. -/
structure Leaves (t : Target) (e : Expr) (D : Point → Prop) (a : Atom) : Prop where
  points : ∀ q ∈ a.points, D q
  stays : t.y ∈ a.points → a ∈ e.atomList ∧
    ((∃ i, a = .coordinate t.y i) ∨ ∃ p q r, a = .ratio p q r r)

section
variable {e : Expr}

/-- An atom of other points can be there. -/
theorem leaves_of_rest {a : Atom} (h : ∀ q ∈ a.points, t.rest D q) : t.Leaves e D a :=
  ⟨fun q hq => (h q hq).1, fun hy => absurd rfl (h _ hy).2⟩

variable {kind : PointKind} (shift : kind.displacement? = some t.shift)
  (inside : ∀ q ∈ kind.support, t.rest D q)
include shift inside

/-- What elimination brings in can be there. -/
theorem allows_leaves : t.Allows D (t.Leaves e D) := by
  obtain ⟨⟨hw, hu, hv⟩, ht⟩ := PointKind.support_of_displacement? shift
  exact {
    points := ⟨inside _ hw, inside _ hu, inside _ hv⟩
    coefficient := Shape.within_ofAtoms_iff.2 fun a ha =>
      leaves_of_rest fun q hq => inside q (ht a ha q hq)
    area := fun a b c ha hb hc => leaves_of_rest (by simp [Atom.points, ha, hb, hc])
    pythagoras := fun a b c ha hb hc => leaves_of_rest (by simp [Atom.points, ha, hb, hc]) }

/-- The ratios that elimination brings in can be there. -/
theorem joinable_leaves : t.Joinable D (t.Leaves e D) D := by
  obtain ⟨hw, hu, hv⟩ := (allows_leaves (e := e) shift inside).points
  exact {
    within := fun _ => id
    position := fun x hx hxy => leaves_of_rest (by
      simpa [Atom.points, hw, hu, hv] using ⟨hx, hxy⟩)
    segment := fun x z hx hxy hz hzy => leaves_of_rest (by
      simpa [Atom.points, hu, hv] using ⟨⟨hx, hxy⟩, hz, hzy⟩) }

/-- Eliminating a point from an expression of points in `D` leaves only what can be there, if the
points it is made from are others of `D`. -/
theorem leaves_eliminate (he : ∀ q ∈ e.points, D q) {g : Expr}
    (hl : (t.eliminate e).Leads answers relies g) : ∀ a ∈ g.atomList, t.Leaves e D a := by
  have old : ∀ a ∈ e.atomList, ∀ q ∈ a.points, D q := fun a ha q hq =>
    he q (Expr.mem_points.2 ⟨a, ha, hq⟩)
  refine Shape.within_ofAtoms_iff.1 (within_eliminate (q := (· ∈ e.atomList))
    (allows_leaves shift inside) (fun a b c ha => ?_) (fun a b c ha => ?_) (fun a b c d ha _ => ?_)
    (fun i ha => ?_) (fun a ha hy => ⟨old a ha, fun h => absurd h hy⟩)
    (Shape.within_ofAtoms_iff.2 fun _ => id) hl)
  · simpa [Atom.points] using old _ ha
  · simpa [Atom.points] using old _ ha
  · refine ⟨D, joinable_leaves shift inside, by simpa [Atom.points] using old _ ha, ?_⟩
    rintro rfl
    exact ⟨old _ ha, fun _ => ⟨ha, .inr ⟨a, b, c, rfl⟩⟩⟩
  · exact ⟨old _ ha, fun _ => ⟨ha, .inl ⟨i, rfl⟩⟩⟩

end

/-! ## Questions -/

variable {failed : ProofError → Prop}

/-- The question whether a constructed point lies on the line makes sense over the steps that it is
about. -/
theorem covers_onLine {x : Point}
    (h : ∀ p ∈ (t.onLineStatement x).points, MadeBy t.construction.steps p) :
    t.construction.Covers (t.onLineStatement x) (t.onLinePrefix x) := by
  -- A bound that no point lowers is above what one of them raises it to.
  have grows : ∀ {bound : Nat → Point → Nat}, (∀ n p, n ≤ bound n p) →
      ∀ ps n, n ≤ List.foldl bound n ps := by
    intro bound raises ps
    induction ps with
    | nil => exact fun n => le_rfl
    | cons p ps ih => exact fun n => le_trans (raises n p) (ih (bound n p))
  have reaches : ∀ {bound : Nat → Point → Nat}, (∀ n p, n ≤ bound n p) → ∀ {p i},
      (∀ n, i < bound n p) → ∀ {ps}, p ∈ ps → ∀ n, i < List.foldl bound n ps := by
    intro bound raises p i above ps
    induction ps with
    | nil => simp
    | cons q ps ih =>
      intro hp n
      rcases List.mem_cons.1 hp with rfl | hp
      · exact lt_of_lt_of_le (above n) (grows raises ps _)
      · exact ih hp _
  refine ⟨List.cons_ne_nil _ _, fun p hp => ?_⟩
  obtain ⟨kind, made⟩ := h p hp
  have constructed : t.construction.containsBefore p t.construction.length = true :=
    Construction.containsBefore_iff.2 ⟨kind, by rwa [Construction.length, List.take_length]⟩
  rw [Construction.containsBefore] at constructed ⊢
  cases hi : t.construction.stepIndex? p with
  | none => simp [hi] at constructed
  | some i =>
    refine decide_eq_true (reaches (fun n q => ?_) (fun n => ?_) hp t.index)
    · split
      · exact le_max_left _ _
      · exact le_rfl
    · rw [hi]
      exact lt_of_lt_of_le (Nat.lt_succ_self i) (le_max_right _ _)

/-- Whether a point is on the line is asked as a statement that makes sense. -/
theorem only_onLine (h : t.Scoped D S C) (made : ∀ p, D p → MadeBy t.construction.steps p)
    {x : Point} (hx : S x) : (t.onLine x).Only t.construction.Covers failed := by
  rw [onLine]
  split
  · exact trivial
  · refine ⟨trivial, covers_onLine (Statement.forall_mem_points_iff.2 ?_), fun _ => trivial⟩
    obtain ⟨⟨hw, -⟩, ⟨hu, -⟩, ⟨hv, -⟩⟩ := h.points
    have area : ∀ q, D q →
        (Shape.ofAtoms fun a => ∀ p ∈ a.points, MadeBy t.construction.steps p).Within
          (.area q t.shift.u t.shift.v) :=
      fun q hq => Expr.within_area (made q hq) (made _ hu) (made _ hv)
    rw [onLineStatement, Statement.zero, List.forall_mem_singleton, offset, Shape.within_sub]
    exact ⟨area x (h.within x hx), area _ hw⟩

section
variable {asked : Statement → Nat → Prop} {reported : Event → Prop}

/-- For the ratio of a segment, nothing but whether its end is on the line is asked. -/
theorem only_overSegment {x : Point} (h : (t.onLine x).Only asked failed reported) (c d : Point) :
    (t.overSegment x c d).Only asked failed reported := by
  refine Inquiry.only_bind h fun b _ => ?_
  cases b with
  | true => exact trivial
  | false => exact trivial

/-- For the ratio of two segments that end in the point, nothing but whether the first one lies
along the line is asked. -/
theorem only_throughPoint {x : Point} (h : (t.onLine x).Only asked failed reported) (z : Point) :
    (t.throughPoint x z).Only asked failed reported := by
  refine Inquiry.only_bind h fun b _ => ?_
  cases b with
  | true => exact trivial
  | false => exact trivial

variable (h : ∀ x, S x → (t.onLine x).Only asked failed reported)
include h

/-- For a ratio, nothing but which of its points are on the line is asked. -/
theorem only_ratio {a b c d : Point} (ha : S a) (hb : S b) (hc : S c) (hd : S d) :
    (t.ratio a b c d).Only asked failed reported := by
  rw [ratio]
  split
  next => exact trivial
  next hab =>
  split
  next => exact trivial
  next hcd =>
  split <;> simp only [decide_eq_true_eq, decide_eq_false_iff_not, not_or] at *
  next first _ =>
    have hx := ((joins_otherEnd hab first).1.ends ha hb).1
    exact Inquiry.only_bind (only_overSegment (h _ hx) c d) fun _ _ => trivial
  next _ second =>
    have hx := ((joins_otherEnd hcd second).1.ends hc hd).1
    exact Inquiry.only_bind (only_overSegment (h _ hx) a b) fun _ _ => trivial
  next first _ =>
    have hx := ((joins_otherEnd hab first).1.ends ha hb).1
    split
    next => exact trivial
    next => exact Inquiry.only_bind (only_throughPoint (h _ hx) _) fun _ _ => trivial
  next => exact trivial

/-- Eliminating a point from an expression asks only whether points of its ratios lie on the line.
-/
theorem only_eliminate {e : Expr} (he : (Shape.ofAtoms (Atom.Located D S C)).Within e) :
    (t.eliminate e).Only asked failed reported := by
  refine Expr.only_mapAtomsM (fun a ha => ?_) he
  split
  · cases a with
    | area a b c => exact trivial
    | pythagoras a b c => exact trivial
    | ratio a b c d => exact only_ratio h ha.1 ha.2.1 ha.2.2.1 ha.2.2.2
    | scalar s => exact trivial
    | coordinate p i => exact trivial
  · exact trivial

end

end Target

end AreaMethod
