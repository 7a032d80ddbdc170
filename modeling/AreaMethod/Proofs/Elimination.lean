import AreaMethod.Proofs.Conditions
import AreaMethod.Proofs.Location

/-!
# Eliminating a point keeps values

At a placement where the point to be eliminated is the displacement it is described as, every atom
that mentions it has the same value as what it is replaced by. For areas and Pythagoras differences
that is an identity in the weights. For ratios it depends on which segments are parallel: ratios
have to be ratios of parallel segments (`Aligned`), and points that the inquiry finds on the line
have to be there (`Reliable`). Then an expression keeps its value if it stays defined
(`eliminate_value`). It does stay defined if the conditions that the inquiry relies on hold and the
segments of ratios that mention the point have length (`eliminate_keeps_of_comparable`). Its ratios
stay aligned as well if no two points of segments coincide (`Ready`) and the inquiry goes right
(`Right`) (`eliminate_keeps`).
-/

namespace AreaMethod

/-! ## Affine combinations -/

namespace Displacement

variable {F : Type*} [Field F] {v : Atom → Option F}

/-- The combination of the values that a function has at the points with weights. -/
def combine (v : Atom → Option F) (f : Point → F) (ws : List (Point × Expr)) : F :=
  (ws.map fun w => w.2.value v * f w.1).sum

/-- One more weight adds what it weighs. -/
theorem combine_addWeight (f : Point → F) (p : Point) (e : Expr) (ws : List (Point × Expr)) :
    combine v f (addWeight p e ws) = combine v f ws + e.value v * f p := by
  induction ws with
  | nil => simp [addWeight, combine]
  | cons w ws ih =>
    obtain ⟨q, g⟩ := w
    rw [addWeight]
    split
    next h =>
      simp only [combine, List.map_cons, List.sum_cons, Expr.value_add, h]
      ring
    next =>
      simp only [combine, List.map_cons, List.sum_cons] at ih ⊢
      rw [ih]
      ring

variable (s : Displacement)

/-- The weights combine the values at `W`, `U` and `V`. -/
theorem combine_weights (f : Point → F) :
    combine v f s.weights = f s.w + s.t.value v * (f s.v - f s.u) := by
  rw [weights, combine_addWeight, combine_addWeight, combine_addWeight]
  simp only [combine, List.map_nil, List.sum_nil, Expr.value_one, Expr.value_neg]
  ring

end Displacement

/-! ## Ratios of parallel segments -/

namespace Placement

variable {F : Type*} [Field F] {π : Placement F} {a b c d e f : Point}

/-- The vector `ab` is a multiple of the vector `cd`. -/
def Along (π : Placement F) (a b c d : Point) (r : F) : Prop :=
  π.x b - π.x a = r * (π.x d - π.x c) ∧ π.y b - π.y a = r * (π.y d - π.y c)

/-- Turning the first segment round changes the sign of the ratio. -/
theorem Along.reverse {r : F} (h : π.Along a b c d r) : π.Along b a c d (-r) :=
  ⟨by linear_combination -h.1, by linear_combination -h.2⟩

/-- Turning the second segment round changes the sign of the ratio. -/
theorem Along.reverse_second {r : F} (h : π.Along a b c d r) : π.Along a b d c (-r) :=
  ⟨by linear_combination h.1, by linear_combination h.2⟩

/-- Cross products scale with the factor. -/
theorem Along.cross {r : F} (h : π.Along a b c d r) : π.cross a b e f = r * π.cross c d e f := by
  rw [Placement.cross, Placement.cross, h.1, h.2]
  ring

/-- A multiple other than zero can be turned around. -/
theorem Along.inv {r : F} (h : π.Along a b c d r) (hr : r ≠ 0) : π.Along c d a b r⁻¹ := by
  constructor
  · rw [h.1, inv_mul_cancel_left₀ hr]
  · rw [h.2, inv_mul_cancel_left₀ hr]

/-- Multiples of the same vector are multiples of each other. -/
theorem Along.div {r s : F} (h : π.Along a b e f r) (h' : π.Along c d e f s) (hs : s ≠ 0) :
    π.Along a b c d (r / s) := by
  constructor
  · rw [h.1, h'.1, ← mul_assoc, div_mul_cancel₀ _ hs]
  · rw [h.2, h'.2, ← mul_assoc, div_mul_cancel₀ _ hs]

/-- The factor is not zero if the ends of the first segment do not coincide. -/
theorem Along.ne_zero {r : F} (h : π.Along a b c d r) (hab : ¬π.Coincide a b) : r ≠ 0 := by
  rintro rfl
  rw [Along, zero_mul, zero_mul, sub_eq_zero, sub_eq_zero] at h
  exact hab ⟨h.1.symm, h.2.symm⟩

/-- The factor is zero if the ends of the first segment coincide, but not those of the second. -/
theorem Along.eq_zero {r : F} (h : π.Along a b c d r) (hab : π.Coincide a b)
    (hcd : ¬π.Coincide c d) : r = 0 := by
  by_contra hr
  rw [Along, hab.1, hab.2, sub_self, sub_self, zero_eq_mul, zero_eq_mul, or_iff_right hr,
    or_iff_right hr, sub_eq_zero, sub_eq_zero] at h
  exact hcd ⟨h.1.symm, h.2.symm⟩

/-- A segment without length is nothing of every other one. -/
theorem Coincide.along (h : π.Coincide a b) : π.Along a b c d 0 := by
  simp [Along, h.1, h.2]

/-- Parallel segments are multiples of each other, and the factor is the ratio. -/
theorem Parallel.along [Anisotropic F] (h : π.Parallel a b c d) (hcd : ¬π.Coincide c d) :
    π.Along a b c d (π.dot a b c d / π.dot c d c d) := by
  have hlen : π.dot c d c d ≠ 0 := mt dot_self_eq_zero_iff.1 hcd
  rw [Parallel, cross] at h
  constructor
  · rw [div_mul_eq_mul_div, eq_div_iff hlen, dot, dot]
    linear_combination (π.y d - π.y c) * h
  · rw [div_mul_eq_mul_div, eq_div_iff hlen, dot, dot]
    linear_combination -(π.x d - π.x c) * h

/-- A vector that is a multiple of another has the factor as its ratio to it. -/
theorem Along.atom_ratio [DecidableEq F] [Anisotropic F] {r : F} (h : π.Along a b c d r)
    (hcd : ¬π.Coincide c d) : π.atom (.ratio a b c d) = some r := by
  have hlen : π.dot c d c d ≠ 0 := mt dot_self_eq_zero_iff.1 hcd
  rw [atom, if_neg hcd, Option.some.injEq, div_eq_iff hlen, dot, dot, h.1, h.2]
  ring

/-- What is parallel to the same segment of some length is parallel. -/
theorem Parallel.trans_of_not_coincide (hab : ¬π.Coincide a b) (h : π.Parallel a b c d)
    (h' : π.Parallel a b e f) : π.Parallel c d e f := by
  rw [Parallel, cross] at *
  by_cases hx : π.x b - π.x a = 0
  · have hy : π.y b - π.y a ≠ 0 := fun hy => hab ⟨(sub_eq_zero.1 hx).symm, (sub_eq_zero.1 hy).symm⟩
    refine (mul_eq_zero.1 ?_).resolve_left hy
    linear_combination (π.y d - π.y c) * h' - (π.y f - π.y e) * h
  · refine (mul_eq_zero.1 ?_).resolve_left hx
    linear_combination (π.x d - π.x c) * h' - (π.x f - π.x e) * h

/-- Being parallel is symmetric. -/
theorem Parallel.symm (h : π.Parallel a b c d) : π.Parallel c d a b := by
  rw [Parallel, cross] at *
  linear_combination -h

/-- Being parallel does not depend on which way a segment goes. -/
theorem Parallel.reverse (h : π.Parallel a b c d) : π.Parallel b a c d := by
  rw [Parallel, cross] at *
  linear_combination -h

/-- Conditions hold alike if one is the other with points or pairs exchanged. -/
theorem holds_of_swap {c d : Condition} (h : c.Swap d) (hc : π.Holds c) : π.Holds d := by
  cases h with
  | points a b => exact fun hba => hc ⟨hba.1.symm, hba.2.symm⟩
  | first a b c d => exact fun hp => hc hp.reverse
  | second a b c d => exact fun hp => hc hp.symm.reverse.symm
  | pairs a b c d => exact fun hp => hc hp.symm

/-- A condition and its normal form say the same. -/
theorem holds_normalize {c : Condition} : π.Holds c.normalize ↔ π.Holds c :=
  (c.equivalent_normalize.iff π.holds_of_swap).symm

end Placement

/-! ## Areas and Pythagoras differences -/

section
variable {F : Type*} [Field F]

/-- If the atom is a ratio, are its segments parallel? -/
def Placement.Aligned (π : Placement F) : Atom → Prop
  | .ratio a b c d => π.Parallel a b c d
  | _ => True

/-- If the atom is a ratio, are its segments parallel, and do both have length? -/
def Placement.Comparable (π : Placement F) : Atom → Prop
  | .ratio a b c d => ¬π.Coincide a b ∧ ¬π.Coincide c d ∧ π.Parallel a b c d
  | _ => True

/-- Being aligned does not depend on the orientation of an atom. -/
theorem Placement.unoriented_aligned (π : Placement F) : Atom.Unoriented π.Aligned where
  area_first _ := trivial
  area_second _ := trivial
  pythagoras _ := trivial
  ratio_first h := Parallel.reverse h
  ratio_second h := (Parallel.symm h).reverse.symm

/-- Are the answers and conditions of an inquiry right at the placement? A statement that is
answered in the affirmative holds where it is defined, if its points are where they may be. -/
structure Placement.Right [DecidableEq F] (π : Placement F) (D S C : Point → Prop)
    (answers : Statement → Nat → Bool → Prop) (relies : Condition → Prop) : Prop where
  answer : ∀ s n, answers s n true →
    (∀ e ∈ s.expressions, (Shape.ofAtoms (Atom.Located D S C)).Within e) →
    (∀ e ∈ s.expressions, (Shape.ofAtoms π.Aligned).Within e) →
    ∀ e ∈ s.expressions, e.DefinedAt π.atom → e.value π.atom = 0
  condition : ∀ p, S p → ∀ c, relies c → π.Holds c

namespace Target

variable [DecidableEq F]

/-- A point can be eliminated at the placement: it is the displacement it is described as, with a
coefficient of aligned ratios, and no two points of `S` coincide. -/
structure Ready (t : Target) (π : Placement F) (D S C : Point → Prop) : Prop
    extends t.Scoped D S C where
  displaced : π.Displaced t.y t.shift
  sound : t.collinear.Sound π
  aligned : (Shape.ofAtoms π.Aligned).Within t.shift.t
  separated : ∀ p q, S p → S q → π.Coincide p q → p = q

variable {t : Target} {π : Placement F} {D S C : Point → Prop}
  {answers : Statement → Nat → Bool → Prop} {relies : Condition → Prop}

/-- A target that is ready allows what its elimination brings in to be aligned. -/
theorem Ready.allows (h : t.Ready π D S C) : t.Allows D π.Aligned where
  points := h.points
  coefficient := h.aligned
  area _ _ _ _ _ _ := trivial
  pythagoras _ _ _ _ _ _ := trivial

/-- Where the point is placed as it is constructed, its weights have values. -/
theorem definedAt_weights (h : π.Displaced t.y t.shift) :
    ∀ w ∈ t.shift.weights, w.2.DefinedAt π.atom :=
  t.shift.forall_mem_weights (P := fun _ e => e.DefinedAt π.atom)
    (fun _ f e hf he => by simp [hf, he]) (by simp) (by simpa using h.1) h.1

/-- A combination of defined values is the value at the point, for functions that are affine. -/
theorem combination_keeps (h : π.Displaced t.y t.shift) {g : Point → Expr} {f : Point → F}
    (hd : ∀ q, (g q).DefinedAt π.atom) (hv : ∀ q, (g q).value π.atom = f q)
    (affine : f t.y = f t.shift.w + t.shift.t.value π.atom * (f t.shift.v - f t.shift.u)) :
    (t.combination g).DefinedAt π.atom ∧ (t.combination g).value π.atom = f t.y := by
  rw [combination]
  constructor
  · rw [Expr.definedAt_sum, List.forall_mem_map]
    rintro ⟨q, e⟩ hw
    exact (Expr.definedAt_mul _ _ _).2 ⟨definedAt_weights h _ hw, hd q⟩
  · rw [affine, ← t.shift.combine_weights, Displacement.combine, Expr.value_sum, List.map_map]
    refine congrArg List.sum (List.map_congr_left fun w _ => ?_)
    simp [hv]

/-- The combination of areas over a side is the area over the side and the point. -/
theorem combination_area_keeps (h : π.Displaced t.y t.shift) (a b : Point) :
    (t.combination (.area a b)).DefinedAt π.atom ∧
      (t.combination (.area a b)).value π.atom = π.area a b t.y := by
  refine combination_keeps h (by simp [Expr.area, Placement.atom])
    (by simp [Expr.area, Placement.atom]) ?_
  simp only [Placement.area, Placement.cross, h.x_eq, h.y_eq]
  ring

/-- An area that mentions the point is replaced by one that has the same value. -/
theorem area_keeps (h : π.Displaced t.y t.shift) {a b c : Point}
    (hy : t.y = a ∨ t.y = b ∨ t.y = c) : Expr.Keeps π.atom (.area a b c) (t.area a b c) := by
  have value : (Expr.area a b c).value π.atom = π.area a b c := by
    simp [Expr.area, Placement.atom]
  intro _
  rw [value, area]
  split
  next hc =>
    refine ⟨Expr.definedAt_zero _, ?_⟩
    have twice : a = b ∨ b = c ∨ a = c := by
      by_cases ha : a = t.y <;> by_cases hb : b = t.y <;> by_cases hc' : c = t.y <;>
        simp_all
    rw [Expr.value_zero, π.area_eq_zero_of_eq twice]
  next =>
    split
    next ha =>
      obtain ⟨hd, hv⟩ := combination_area_keeps h b c
      exact ⟨hd, by rw [hv, ha, π.area_rotate t.y]⟩
    next ha =>
      split
      next hb =>
        obtain ⟨hd, hv⟩ := combination_area_keeps h c a
        exact ⟨hd, by rw [hv, hb, π.area_rotate t.y, π.area_rotate a]⟩
      next hb =>
        obtain ⟨hd, hv⟩ := combination_area_keeps h a b
        have hc : t.y = c := (hy.resolve_left (Ne.symm ha)).resolve_left (Ne.symm hb)
        exact ⟨hd, by rw [hv, hc]⟩

/-- The combination of Pythagoras differences over a corner is the one that ends in the point. -/
theorem pythagorasEnd_keeps (h : π.Displaced t.y t.shift) (a b : Point) :
    (t.pythagorasEnd a b).DefinedAt π.atom ∧
      (t.pythagorasEnd a b).value π.atom = π.pythagoras a b t.y := by
  refine combination_keeps h (by simp [Expr.pythagoras, Placement.atom])
    (by simp [Expr.pythagoras, Placement.atom]) ?_
  simp only [Placement.pythagoras, Placement.dot, h.x_eq, h.y_eq]
  ring

omit [DecidableEq F] in
/-- The squared distances between points with weights, each pair counted once: the weighted squares
less the square of the weighted sum. -/
theorem sum_pairs (v : Atom → Option F) (ws : List (Point × Expr)) :
    ((pairs ws).map fun i =>
        i.1.2.value v * i.2.2.value v * π.pythagoras i.1.1 i.2.1 i.1.1).sum =
      2 * (Displacement.combine v (fun _ => 1) ws *
          Displacement.combine v (fun q => π.x q * π.x q + π.y q * π.y q) ws -
        Displacement.combine v π.x ws * Displacement.combine v π.x ws -
        Displacement.combine v π.y ws * Displacement.combine v π.y ws) := by
  induction ws with
  | nil => simp [pairs, Displacement.combine]
  | cons w ws ih =>
    have first : ((ws.map (w, ·)).map fun i : (Point × Expr) × (Point × Expr) =>
        i.1.2.value v * i.2.2.value v * π.pythagoras i.1.1 i.2.1 i.1.1).sum =
        2 * w.2.value v * ((π.x w.1 * π.x w.1 + π.y w.1 * π.y w.1) *
          Displacement.combine v (fun _ => 1) ws -
          2 * π.x w.1 * Displacement.combine v π.x ws -
          2 * π.y w.1 * Displacement.combine v π.y ws +
          Displacement.combine v (fun q => π.x q * π.x q + π.y q * π.y q) ws) := by
      clear ih
      induction ws with
      | nil => simp [Displacement.combine]
      | cons u us ih =>
        simp only [Displacement.combine, List.map_cons, List.sum_cons] at ih ⊢
        rw [ih]
        simp only [Placement.pythagoras, Placement.dot]
        ring
    rw [pairs, List.map_append, List.sum_append, ih, first]
    simp only [Displacement.combine, List.map_cons, List.sum_cons]
    ring

/-- The Pythagoras difference with the point in the middle. -/
theorem pythagorasMiddle_keeps (h : π.Displaced t.y t.shift) (a b : Point) :
    (t.pythagorasMiddle a b).DefinedAt π.atom ∧
      (t.pythagorasMiddle a b).value π.atom = π.pythagoras a t.y b := by
  have weight := definedAt_weights h
  rw [pythagorasMiddle]
  constructor
  · rw [Expr.definedAt_sum]
    intro e he
    rcases List.mem_append.1 he with he | he
    · obtain ⟨w, hw, rfl⟩ := List.mem_map.1 he
      simpa [Expr.pythagoras, Placement.atom] using weight w hw
    · obtain ⟨i, hi, rfl⟩ := List.mem_map.1 he
      obtain ⟨h₁, h₂⟩ := mem_of_mem_pairs hi
      simpa [Expr.pythagoras, Placement.atom] using ⟨weight _ h₁, weight _ h₂⟩
  · have single : ((t.shift.weights.map fun w => w.2 * .pythagoras a w.1 b).map
        (Expr.value π.atom)).sum =
        Displacement.combine π.atom (fun q => π.pythagoras a q b) t.shift.weights := by
      rw [Displacement.combine, List.map_map]
      refine congrArg List.sum (List.map_congr_left fun w _ => ?_)
      simp [Expr.pythagoras, Placement.atom]
    have double : (((pairs t.shift.weights).map fun i =>
        -(i.1.2 * i.2.2 * .pythagoras i.1.1 i.2.1 i.1.1)).map (Expr.value π.atom)).sum =
        -((pairs t.shift.weights).map fun i => i.1.2.value π.atom * i.2.2.value π.atom *
          π.pythagoras i.1.1 i.2.1 i.1.1).sum := by
      rw [List.map_map, List.sum_neg, List.map_map]
      refine congrArg List.sum (List.map_congr_left fun i _ => ?_)
      simp [Expr.pythagoras, Placement.atom]
    have hx := h.x_eq
    have hy := h.y_eq
    rw [Expr.value_sum, List.map_append, List.sum_append, single, double, sum_pairs]
    simp only [Displacement.combine_weights, ← hx, ← hy]
    simp only [Placement.pythagoras, Placement.dot]
    linear_combination 2 * (π.x a + π.x b) * hx + 2 * (π.y a + π.y b) * hy

/-- A Pythagoras difference is replaced by an expression that has the same value. -/
theorem pythagoras_keeps (h : π.Displaced t.y t.shift) (a b c : Point) :
    Expr.Keeps π.atom (.pythagoras a b c) (t.pythagoras a b c) := by
  have value : (Expr.pythagoras a b c).value π.atom = π.pythagoras a b c := by
    simp [Expr.pythagoras, Placement.atom]
  intro _
  rw [value, pythagoras]
  split
  next hb hc =>
    rw [decide_eq_true_eq] at hb hc
    refine ⟨Expr.definedAt_zero _, ?_⟩
    simp [hb, hc, Placement.pythagoras, Placement.dot]
  next ha hb _ =>
    rw [decide_eq_true_eq] at ha hb
    refine ⟨Expr.definedAt_zero _, ?_⟩
    simp [ha, hb, Placement.pythagoras, Placement.dot]
  next ha _ hc =>
    rw [decide_eq_true_eq] at ha hc
    obtain ⟨hd, hv⟩ := pythagorasMiddle_keeps h b b
    refine ⟨hd, ?_⟩
    rw [hv, ha, hc]
    simp only [Placement.pythagoras, Placement.dot]
    ring
  next hb _ =>
    rw [decide_eq_true_eq] at hb
    obtain ⟨hd, hv⟩ := pythagorasMiddle_keeps h a c
    exact ⟨hd, by rw [hv, hb]⟩
  next ha _ _ =>
    rw [decide_eq_true_eq] at ha
    obtain ⟨hd, hv⟩ := pythagorasEnd_keeps h c b
    refine ⟨hd, ?_⟩
    rw [hv, ha]
    simp only [Placement.pythagoras, Placement.dot]
    ring
  next hc =>
    rw [decide_eq_true_eq] at hc
    obtain ⟨hd, hv⟩ := pythagorasEnd_keeps h a b
    exact ⟨hd, by rw [hv, hc]⟩
  next => exact ⟨by simp [Expr.pythagoras, Placement.atom], value⟩

/-! ## Segments that end in the point -/

/-- A sign does not change where an expression has a value. -/
theorem definedAt_withSign {e : Expr} {b : Bool} :
    (withSign b e).DefinedAt π.atom ↔ e.DefinedAt π.atom := by
  cases b with
  | true => exact Expr.definedAt_neg _ _
  | false => exact Iff.rfl

/-- Two signs make one. -/
theorem value_withSign_withSign (a b : Bool) (e : Expr) :
    (withSign b (withSign a e)).value π.atom = (withSign (a != b) e).value π.atom := by
  cases a <;> cases b <;> simp [withSign]

section
variable {x p q c d : Point} {starts : Bool}

omit [DecidableEq F] in
/-- The segment is parallel to what the segment from `x` to the point is parallel to. -/
theorem Joins.parallel (j : t.Joins x starts p q) :
    π.Parallel p q c d ↔ π.Parallel x t.y c d := by
  rcases j with ⟨-, rfl, rfl⟩ | ⟨-, rfl, rfl⟩
  · exact ⟨.reverse, .reverse⟩
  · exact Iff.rfl

omit [Field F] [DecidableEq F] in
/-- The ends of the segment coincide if and only if `x` and the point do. -/
theorem Joins.coincide (j : t.Joins x starts p q) : π.Coincide p q ↔ π.Coincide x t.y := by
  rcases j with ⟨-, rfl, rfl⟩ | ⟨-, rfl, rfl⟩
  · exact and_congr eq_comm eq_comm
  · exact Iff.rfl

/-- The ratio of the segment to another one is that of the segment from `x` to the point, up to the
sign. -/
theorem Joins.along (j : t.Joins x starts p q) {e : Expr}
    (h : π.Along x t.y c d (e.value π.atom)) :
    π.Along p q c d ((withSign starts e).value π.atom) := by
  rcases j with ⟨rfl, rfl, rfl⟩ | ⟨rfl, rfl, rfl⟩
  · simpa [withSign] using h.reverse
  · exact h

/-- The ratio of another segment to it is that to the segment from `x` to the point, up to the
sign. -/
theorem Joins.along_second (j : t.Joins x starts p q) {e : Expr}
    (h : π.Along c d x t.y (e.value π.atom)) :
    π.Along c d p q ((withSign starts e).value π.atom) := by
  rcases j with ⟨rfl, rfl, rfl⟩ | ⟨rfl, rfl, rfl⟩
  · simpa [withSign] using h.reverse_second
  · exact h

end

/-! ## The line along which the point is displaced -/

/-- Is `x` on the line along which the point is displaced? -/
def OnLine (t : Target) (π : Placement F) (x : Point) : Prop :=
  π.Parallel x t.y t.shift.u t.shift.v

/-- The point is displaced from a point of its line. -/
theorem onLine_start (h : π.Displaced t.y t.shift) : t.OnLine π t.shift.w := by
  rw [OnLine, Placement.Parallel, Placement.cross, h.x_eq, h.y_eq]
  ring

/-- The line is that of the starting point. -/
theorem onLine_iff (h : π.Displaced t.y t.shift) {x : Point} :
    t.OnLine π x ↔ π.Parallel x t.shift.w t.shift.u t.shift.v := by
  have start := onLine_start h
  rw [OnLine, Placement.Parallel, Placement.cross] at *
  rw [Placement.Parallel, Placement.cross]
  constructor <;> intro hx
  · linear_combination hx - start
  · linear_combination hx + start

/-- The offset measures how far a point is from the line. -/
theorem offset_keeps (h : π.Displaced t.y t.shift) (x : Point) : (t.offset x).DefinedAt π.atom ∧
    (t.offset x).value π.atom = π.cross x t.y t.shift.u t.shift.v / 2 := by
  have start := onLine_start h
  rw [OnLine, Placement.Parallel, Placement.cross] at start
  refine ⟨by simp [offset, Expr.area, Placement.atom], ?_⟩
  simp only [offset, Expr.area, Expr.value_sub, Expr.value_atom, Placement.atom, Option.getD_some,
    Placement.area, Placement.cross]
  linear_combination -start / 2

/-- The point is not displaced along a segment without length. -/
theorem not_coincide_direction (h : t.Ready π D S C) (hy : S t.y) :
    ¬π.Coincide t.shift.u t.shift.v := by
  rintro ⟨hx, hy'⟩
  refine h.points.1.2 (h.separated _ _ (h.ends hy).1 hy ?_)
  rw [Placement.Coincide, h.displaced.x_eq, h.displaced.y_eq, hx, hy']
  simp

/-- A position is a multiple of a segment of some length. -/
theorem not_coincide_of_definedAt_position {x : Point} (h : (t.position x).DefinedAt π.atom) :
    ¬π.Coincide t.shift.u t.shift.v := by
  have := ((Expr.definedAt_add _ _ _).1 h).1
  simpa [Expr.ratio, Placement.atom] using this

/-- The position of a point on the line is its distance from the eliminated one. -/
theorem position_keeps [Anisotropic F] (h : π.Displaced t.y t.shift)
    (apart : ¬π.Coincide t.shift.u t.shift.v) {x : Point} (hx : t.OnLine π x) :
    (t.position x).DefinedAt π.atom ∧
      π.Along x t.y t.shift.u t.shift.v ((t.position x).value π.atom) := by
  have start := ((onLine_iff h).1 hx).along apart
  have value := start.atom_ratio apart
  rw [position]
  constructor
  · simp [Expr.ratio, value, h.1]
  · simp only [Expr.value_add, Expr.ratio, Expr.value_atom, value, Option.getD_some]
    constructor
    · linear_combination start.1 + h.x_eq
    · linear_combination start.2 + h.y_eq

/-- The position of a point on the line is made of aligned atoms. -/
theorem aligned_position (h : π.Displaced t.y t.shift)
    (aligned : (Shape.ofAtoms π.Aligned).Within t.shift.t) {x : Point} (hx : t.OnLine π x) :
    (Shape.ofAtoms π.Aligned).Within (t.position x) :=
  (Shape.within_add _ _).2 ⟨(Shape.within_atom _).2 ((onLine_iff h).1 hx), aligned⟩

omit [DecidableEq F] in
/-- The offset of a point is made of areas, which are aligned anyway. -/
theorem aligned_offset (x : Point) : (Shape.ofAtoms π.Aligned).Within (t.offset x) :=
  (Shape.within_sub _ _).2 ⟨(Shape.within_atom _).2 trivial, (Shape.within_atom _).2 trivial⟩

variable [CharZero F]

/-- A point is on the line if and only if its offset vanishes. -/
theorem offset_eq_zero_iff (h : π.Displaced t.y t.shift) (x : Point) :
    (t.offset x).value π.atom = 0 ↔ t.OnLine π x := by
  rw [(offset_keeps h x).2, div_eq_zero_iff, or_iff_left two_ne_zero, OnLine, Placement.Parallel]

/-- What the construction shows to be on the line is there. -/
theorem onLine_of_isKnownOnLine (h : π.Displaced t.y t.shift) (sound : t.collinear.Sound π)
    {x : Point} (hx : t.isKnownOnLine x = true) : t.OnLine π x := by
  have flat : ∀ p q r : Point, (p = q ∨ p = r) ∨ t.collinear.contains p q r = true →
      π.area p q r = 0 := by
    rintro p q r ((rfl | rfl) | hk)
    · exact π.area_eq_zero_of_eq (.inl rfl)
    · exact π.area_eq_zero_of_eq (.inr (.inr rfl))
    · exact sound.area_eq_zero hk
  rw [← offset_eq_zero_iff h]
  simp only [isKnownOnLine, Displacement.isOnLine, Bool.or_eq_true, Bool.and_eq_true,
    decide_eq_true_eq] at hx
  simp only [offset, Expr.area, Expr.value_sub, Expr.value_atom, Placement.atom, Option.getD_some]
  rcases hx with (rfl | ⟨hw, rfl⟩) | ⟨hw, hx⟩
  · exact sub_self _
  · simp [hw, Placement.area, Placement.cross]
  · rw [flat _ _ _ hx, flat _ _ _ hw, sub_self]

/-- If the inquiry finds the point on the line, is it there? -/
def Reliable (t : Target) (π : Placement F) (answers : Statement → Nat → Bool → Prop)
    (relies : Condition → Prop) (x : Point) : Prop :=
  (t.onLine x).Leads answers relies true → t.OnLine π x

/-- Where affirmative answers are right, the inquiry finds only points on the line. -/
theorem reliable_of_answers (h : π.Displaced t.y t.shift) (sound : t.collinear.Sound π) {x : Point}
    (truthful : ∀ n, answers (t.onLineStatement x) n true → (t.offset x).value π.atom = 0) :
    t.Reliable π answers relies x := by
  intro hl
  rw [onLine] at hl
  split at hl
  next known => exact onLine_of_isKnownOnLine h sound known
  next =>
    obtain ⟨b, hb, rfl⟩ := hl
    exact (offset_eq_zero_iff h x).1 (truthful _ hb)

/-- Where answers are right, the inquiry finds only points on the line. -/
theorem Ready.reliable (h : t.Ready π D S C) (right : π.Right D S C answers relies) (hy : S t.y)
    {x : Point} (hx : S x) : t.Reliable π answers relies x := by
  refine reliable_of_answers h.displaced h.sound fun n hn => ?_
  obtain ⟨hw, hu, hv⟩ := h.ends hy
  refine right.answer _ _ hn ?_ ?_ _ (List.mem_singleton.2 rfl) (offset_keeps h.displaced x).1
  · rw [onLineStatement, Statement.zero, List.forall_mem_singleton, offset, Shape.within_sub]
    have located : ∀ {p q r}, S p → S q → S r → Atom.Located D S C (.area p q r) := by
      intro p q r hp hq hr
      simp [Atom.Located, Atom.points, h.within _ hp, h.within _ hq, h.within _ hr]
    exact ⟨(Shape.within_atom _).2 (located hx hu hv), (Shape.within_atom _).2 (located hw hu hv)⟩
  · rw [onLineStatement, Statement.zero, List.forall_mem_singleton]
    exact aligned_offset x

/-! ## Ratios

What a ratio is replaced by has its value as soon as it is defined (`ratio_along`): a first segment
without length is no exception, because then both are zero. It is defined (`definedAt_ratio`) and
made of ratios of parallel segments (`aligned_ratio`) if the segments do have length.
-/

omit [CharZero F] in
/-- Nothing is measured by a segment without length. -/
theorem not_coincide_of_definedAt_overSegment {x c d : Point} {g : Expr}
    (hl : (t.overSegment x c d).Leads answers relies g) (hg : g.DefinedAt π.atom) :
    ¬π.Coincide c d := by
  rintro ⟨hx, hy⟩
  rcases leads_overSegment hl with ⟨-, rfl⟩ | ⟨-, rfl⟩
  · obtain ⟨-, defined, nonzero⟩ := (Expr.definedAt_div _ _ _).1 hg
    have apart : ¬π.Coincide t.shift.u t.shift.v := by
      simpa [Expr.ratio, Placement.atom] using defined
    exact nonzero (by simp [Expr.ratio, Placement.atom, apart, Placement.dot, hx, hy])
  · obtain ⟨-, -, nonzero⟩ := (Expr.definedAt_div _ _ _).1 hg
    exact nonzero (by simp [Expr.area, Placement.atom, Placement.area, Placement.cross, hx, hy])

section
variable [Anisotropic F] (h : π.Displaced t.y t.shift)
include h

omit [CharZero F] in
/-- The ratio of `xy` to a segment along the line of `y`, both measured by the direction of the
line. Nothing is asked of the segment if `xy` has no length. -/
theorem position_div_along (apart : ¬π.Coincide t.shift.u t.shift.v) {x c d : Point}
    (hx : t.OnLine π x) {r : F} (hr : r ≠ 0)
    (segment : ¬π.Coincide x t.y → π.Along c d t.shift.u t.shift.v r) :
    π.Along x t.y c d ((t.position x).value π.atom / r) := by
  obtain ⟨-, position⟩ := position_keeps h apart hx
  by_cases null : π.Coincide x t.y
  · rw [position.eq_zero null apart, zero_div]
    exact null.along
  · exact position.div (segment null) hr

/-- The ratio of `xy` to a parallel segment. Along the line of `y` both are measured by the
direction of the line, and otherwise by how far they lead away from it. -/
theorem overSegment_along {x c d : Point}
    (line : t.Reliable π answers relies x) (hp : π.Parallel x t.y c d)
    {g : Expr} (hl : (t.overSegment x c d).Leads answers relies g) (hg : g.DefinedAt π.atom) :
    π.Along x t.y c d (g.value π.atom) := by
  have segment := hp.along (not_coincide_of_definedAt_overSegment hl hg)
  rcases leads_overSegment hl with ⟨hx, rfl⟩ | ⟨-, rfl⟩
  · obtain ⟨defined, -, nonzero⟩ := (Expr.definedAt_div _ _ _).1 hg
    have apart := not_coincide_of_definedAt_position defined
    rw [Expr.value_div]
    refine position_div_along h apart (line hx) nonzero fun hxy => ?_
    have direction := (hp.trans_of_not_coincide hxy (line hx)).along apart
    simpa [Expr.ratio, direction.atom_ratio apart] using direction
  · obtain ⟨-, -, nonzero⟩ := (Expr.definedAt_div _ _ _).1 hg
    convert segment using 1
    rw [Expr.value_div, div_eq_iff nonzero, (offset_keeps h x).2, segment.cross]
    simp only [Expr.value_sub, Expr.area, Expr.value_atom, Placement.atom, Option.getD_some,
      Placement.area, Placement.cross]
    ring

/-- The ratio of two segments that end in `y`. -/
theorem throughPoint_along {x z : Point}
    (line : t.Reliable π answers relies x) (hp : π.Parallel x t.y z t.y)
    {g : Expr} (hl : (t.throughPoint x z).Leads answers relies g) (hg : g.DefinedAt π.atom)
    (hzy : ¬π.Coincide z t.y) : π.Along x t.y z t.y (g.value π.atom) := by
  rcases leads_throughPoint hl with ⟨hx, rfl⟩ | ⟨-, rfl⟩
  · obtain ⟨defined, -, nonzero⟩ := (Expr.definedAt_div _ _ _).1 hg
    have apart := not_coincide_of_definedAt_position defined
    rw [Expr.value_div]
    refine position_div_along h apart (line hx) nonzero fun hxy => ?_
    exact (position_keeps h apart (hp.trans_of_not_coincide hxy (line hx))).2
  · obtain ⟨-, -, nonzero⟩ := (Expr.definedAt_div _ _ _).1 hg
    have segment := hp.along hzy
    convert segment using 1
    rw [Expr.value_div, div_eq_iff nonzero, (offset_keeps h x).2, (offset_keeps h z).2,
      segment.cross]
    ring

/-- What a ratio of parallel segments is replaced by is the factor between them. -/
theorem ratio_along {a b c d : Point}
    (line : ∀ x ∈ (Atom.ratio a b c d).points, t.Reliable π answers relies x)
    (hp : π.Parallel a b c d) {g : Expr} (hl : (t.ratio a b c d).Leads answers relies g)
    (hg : g.DefinedAt π.atom) (hcd : ¬π.Coincide c d) : π.Along a b c d (g.value π.atom) := by
  simp only [Atom.points, List.forall_mem_cons] at line
  obtain ⟨ha, hb, hc, hd, -⟩ := line
  revert hg
  refine ratio_induction (P := fun g => g.DefinedAt π.atom → π.Along a b c d (g.value π.atom)) hl
    (fun hab _ => ?_) (fun _ _ => ?_) ?_ ?_ ?_
  · simp [Placement.Along, hab]
  · simpa [Expr.ratio, Placement.atom, hcd] using hp.along hcd
  · intro x starts e j _ _ _ he hg
    exact j.along (overSegment_along h (j.ends ha hb).1 (j.parallel.1 hp) he
      (definedAt_withSign.1 hg))
  · intro x starts e j _ _ _ _ he hg
    obtain ⟨-, hg, nonzero⟩ := (Expr.definedAt_div _ _ _).1 (definedAt_withSign.1 hg)
    have along := overSegment_along h (j.ends hc hd).1 (j.parallel.1 hp.symm) he hg
    exact j.along_second (by simpa using along.inv nonzero)
  · intro x starts z starts' e j _ j' _ he hg
    have hp := (j'.parallel.1 (j.parallel.1 hp).symm).symm
    have along : π.Along x t.y z t.y (e.value π.atom) := by
      rcases he with ⟨rfl, rfl⟩ | he
      · simp [Placement.Along]
      · exact throughPoint_along h (j.ends ha hb).1 hp he (definedAt_withSign.1 hg)
          (mt j'.coincide.2 hcd)
    rw [← value_withSign_withSign]
    exact j'.along_second (j.along along)

/-- What the ratio of `xy` to a parallel segment is replaced by is defined if both have length. -/
theorem definedAt_overSegment (apart : ¬π.Coincide t.shift.u t.shift.v)
    (met : ∀ c, relies c → π.Holds c) {x c d : Point}
    (line : t.Reliable π answers relies x) (hp : π.Parallel x t.y c d)
    (hxy : ¬π.Coincide x t.y) (hcd : ¬π.Coincide c d) {g : Expr}
    (hl : (t.overSegment x c d).Leads answers relies g) : g.DefinedAt π.atom := by
  rcases leads_overSegment hl with ⟨hx, rfl⟩ | ⟨hc, rfl⟩
  · have direction := (hp.trans_of_not_coincide hxy (line hx)).along apart
    have value := direction.atom_ratio apart
    have nonzero := direction.ne_zero hcd
    simp [Expr.ratio, value, (position_keeps h apart (line hx)).1, nonzero]
  · have leads : π.area c t.shift.u t.shift.v - π.area d t.shift.u t.shift.v ≠ 0 := by
      intro h0
      refine met _ hc ?_
      simp only [Placement.area, Placement.Parallel, Placement.cross] at h0 ⊢
      linear_combination 2 * h0
    simpa [Expr.area, Placement.atom, (offset_keeps h x).1] using leads

/-- What the ratio of two segments that end in `y` is replaced by is defined if both have length. -/
theorem definedAt_throughPoint (apart : ¬π.Coincide t.shift.u t.shift.v)
    (met : ∀ c, relies c → π.Holds c) {x z : Point}
    (line : t.Reliable π answers relies x) (hp : π.Parallel x t.y z t.y)
    (hxy : ¬π.Coincide x t.y) (hzy : ¬π.Coincide z t.y) {g : Expr}
    (hl : (t.throughPoint x z).Leads answers relies g) : g.DefinedAt π.atom := by
  rcases leads_throughPoint hl with ⟨hx, rfl⟩ | ⟨hc, rfl⟩
  · have hz := hp.trans_of_not_coincide hxy (line hx)
    obtain ⟨defined, position⟩ := position_keeps h apart hz
    simp [(position_keeps h apart (line hx)).1, defined, position.ne_zero hzy]
  · obtain ⟨hd, hv⟩ := offset_keeps h z
    have nonzero : π.cross z t.y t.shift.u t.shift.v ≠ 0 := by
      intro h0
      refine met _ hc ?_
      have h1 := (hp.along hzy).cross (e := t.shift.u) (f := t.shift.v)
      rw [h0, mul_zero] at h1
      simp only [Placement.Parallel, Placement.cross] at h0 h1 ⊢
      linear_combination h1 - h0
    simp [(offset_keeps h x).1, hd, hv, nonzero]

/-- What a ratio of parallel segments is replaced by is defined if both have length. -/
theorem definedAt_ratio {a b c d : Point} (apart : ¬π.Coincide t.shift.u t.shift.v)
    (met : ∀ c, relies c → π.Holds c)
    (line : ∀ x ∈ (Atom.ratio a b c d).points, t.Reliable π answers relies x)
    (hp : π.Parallel a b c d) (hab : a ≠ b → ¬π.Coincide a b) (hcd : ¬π.Coincide c d) {g : Expr}
    (hl : (t.ratio a b c d).Leads answers relies g) : g.DefinedAt π.atom := by
  simp only [Atom.points, List.forall_mem_cons] at line
  obtain ⟨ha, hb, hc, hd, -⟩ := line
  refine ratio_induction (P := fun g => g.DefinedAt π.atom) hl (fun _ => ?_) (fun _ => ?_) ?_ ?_ ?_
  · exact Expr.definedAt_zero _
  · simp [Expr.ratio, Placement.atom, hcd]
  · intro x starts e j hxy _ _ he
    exact definedAt_withSign.2 (definedAt_overSegment h apart met (j.ends ha hb).1
      (j.parallel.1 hp) (mt j.coincide.2 (hab (j.ne hxy))) hcd he)
  · intro x starts e j _ hne _ _ he
    have line := (j.ends hc hd).1
    have hg := definedAt_overSegment h apart met line (j.parallel.1 hp.symm)
      (mt j.coincide.2 hcd) (hab hne) he
    have nonzero := (overSegment_along h line (j.parallel.1 hp.symm) he hg).ne_zero
      (mt j.coincide.2 hcd)
    exact definedAt_withSign.2 (by simp [hg, nonzero])
  · rintro x starts z starts' e j hxy j' - (⟨-, rfl⟩ | he)
    · exact definedAt_withSign.2 (Expr.definedAt_one _)
    · exact definedAt_withSign.2 (definedAt_throughPoint h apart met (j.ends ha hb).1
        (j'.parallel.1 (j.parallel.1 hp).symm).symm (mt j.coincide.2 (hab (j.ne hxy)))
        (mt j'.coincide.2 hcd) he)

end

section
variable (h : π.Displaced t.y t.shift) (aligned : (Shape.ofAtoms π.Aligned).Within t.shift.t)
include h aligned

omit [CharZero F] in
/-- The ratio to a segment is replaced by aligned atoms. -/
theorem aligned_overSegment {x c d : Point}
    (line : t.Reliable π answers relies x) (hp : π.Parallel x t.y c d)
    (hxy : ¬π.Coincide x t.y) {g : Expr} (hl : (t.overSegment x c d).Leads answers relies g) :
    (Shape.ofAtoms π.Aligned).Within g := by
  rcases leads_overSegment hl with ⟨hx, rfl⟩ | ⟨-, rfl⟩
  · exact (Shape.within_div _ _).2 ⟨trivial, aligned_position h aligned (line hx),
      (Shape.within_atom _).2 (hp.trans_of_not_coincide hxy (line hx))⟩
  · exact (Shape.within_div _ _).2 ⟨trivial, aligned_offset x, (Shape.within_sub _ _).2
      ⟨(Shape.within_atom _).2 trivial, (Shape.within_atom _).2 trivial⟩⟩

omit [CharZero F] in
/-- The ratio of two segments that end in the point is replaced by aligned atoms. -/
theorem aligned_throughPoint {x z : Point}
    (line : t.Reliable π answers relies x) (hp : π.Parallel x t.y z t.y)
    (hxy : ¬π.Coincide x t.y) {g : Expr} (hl : (t.throughPoint x z).Leads answers relies g) :
    (Shape.ofAtoms π.Aligned).Within g := by
  rcases leads_throughPoint hl with ⟨hx, rfl⟩ | ⟨-, rfl⟩
  · exact (Shape.within_div _ _).2 ⟨trivial, aligned_position h aligned (line hx),
      aligned_position h aligned (hp.trans_of_not_coincide hxy (line hx))⟩
  · exact (Shape.within_div _ _).2 ⟨trivial, aligned_offset x, aligned_offset z⟩

omit [CharZero F] in
/-- What a ratio of parallel segments is replaced by is made of such ratios if both have length. -/
theorem aligned_ratio {a b c d : Point}
    (line : ∀ x ∈ (Atom.ratio a b c d).points, t.Reliable π answers relies x)
    (hp : π.Parallel a b c d) (hab : a ≠ b → ¬π.Coincide a b) (hcd : c ≠ d → ¬π.Coincide c d)
    {g : Expr} (hl : (t.ratio a b c d).Leads answers relies g) :
    (Shape.ofAtoms π.Aligned).Within g := by
  simp only [Atom.points, List.forall_mem_cons] at line
  obtain ⟨ha, hb, hc, hd, -⟩ := line
  refine ratio_induction hl (fun _ => Shape.within_zero)
    (fun _ => (Shape.within_atom _).2 hp) ?_ ?_ ?_
  · intro x starts e j hxy _ _ he
    exact within_withSign _ (aligned_overSegment h aligned (j.ends ha hb).1 (j.parallel.1 hp)
      (mt j.coincide.2 (hab (j.ne hxy))) he)
  · intro x starts e j hxy _ _ _ he
    exact within_withSign _ ((Shape.within_div _ _).2 ⟨trivial, Shape.within_one,
      aligned_overSegment h aligned (j.ends hc hd).1 (j.parallel.1 hp.symm)
        (mt j.coincide.2 (hcd (j.ne hxy))) he⟩)
  · rintro x starts z starts' e j hxy j' - (⟨-, rfl⟩ | he)
    · exact within_withSign _ Shape.within_one
    · exact within_withSign _ (aligned_throughPoint h aligned (j.ends ha hb).1
        (j'.parallel.1 (j.parallel.1 hp).symm).symm (mt j.coincide.2 (hab (j.ne hxy))) he)

end

/-- A ratio of parallel segments is replaced by an expression that has the same value, if a first
segment between different points has length. -/
theorem ratio_keeps_of_parallel [Anisotropic F] (h : π.Displaced t.y t.shift)
    (apart : ¬π.Coincide t.shift.u t.shift.v) (met : ∀ c, relies c → π.Holds c) {a b c d : Point}
    (line : ∀ x ∈ (Atom.ratio a b c d).points, t.Reliable π answers relies x)
    (hp : π.Parallel a b c d) (hab : a ≠ b → ¬π.Coincide a b) {g : Expr}
    (hl : (t.ratio a b c d).Leads answers relies g) : Expr.Keeps π.atom (.ratio a b c d) g := by
  intro he
  have hcd : ¬π.Coincide c d := by simpa [Expr.ratio, Placement.atom] using he
  have hg := definedAt_ratio h apart met line hp hab hcd hl
  refine ⟨hg, ?_⟩
  simp [Expr.ratio, (ratio_along h line hp hl hg hcd).atom_ratio hcd]

/-- A ratio is replaced by an expression that has the same value. -/
theorem ratio_keeps [Anisotropic F] (h : t.Ready π D S C) (right : π.Right D S C answers relies)
    {a b c d : Point} (hs : Atom.Located D S C (.ratio a b c d)) (hp : π.Parallel a b c d)
    (hy : t.y ∈ (Atom.ratio a b c d).points) {g : Expr}
    (hl : (t.ratio a b c d).Leads answers relies g) :
    Expr.Keeps π.atom (.ratio a b c d) g ∧ (Shape.ofAtoms π.Aligned).Within g := by
  have mine := hs.of_mem_ratio hy
  have line : ∀ x ∈ (Atom.ratio a b c d).points, t.Reliable π answers relies x :=
    fun x hx => h.reliable right mine (hs.of_mem_ratio hx)
  obtain ⟨ha, hb, hc, hd⟩ := hs
  have hab : a ≠ b → ¬π.Coincide a b := mt (h.separated a b ha hb)
  exact ⟨ratio_keeps_of_parallel h.displaced (not_coincide_direction h mine)
      (right.condition a ha) line hp hab hl,
    aligned_ratio h.displaced h.aligned line hp hab (mt (h.separated c d hc hd)) hl⟩

/-! ## Eliminating the point from an expression -/

/-- An atom that mentions the point is replaced by an expression that has the same value. -/
theorem atom_keeps [Anisotropic F] (h : t.Ready π D S C) (right : π.Right D S C answers relies)
    {a : Atom} (hy : a.mentions t.y = true) (hs : a.Located D S C) (hp : π.Aligned a) {g : Expr}
    (hl : (t.atom a).Leads answers relies g) :
    Expr.Keeps π.atom (.atom a) g ∧ (Shape.ofAtoms π.Aligned).Within g := by
  cases a with
  | area a b c =>
    obtain rfl := hl
    simp only [Atom.Located, Atom.points, List.forall_mem_cons] at hs
    exact ⟨area_keeps h.displaced (by simpa [Atom.mentions, Atom.points] using hy),
      within_area h.allows hs.1 hs.2.1 hs.2.2.1⟩
  | pythagoras a b c =>
    obtain rfl := hl
    simp only [Atom.Located, Atom.points, List.forall_mem_cons] at hs
    exact ⟨pythagoras_keeps h.displaced a b c, within_pythagoras h.allows hs.1 hs.2.1 hs.2.2.1⟩
  | ratio a b c d =>
    exact ratio_keeps h right hs hp (by simpa [Atom.mentions] using hy) hl
  | scalar s => simp [Atom.mentions, Atom.points] at hy
  | coordinate p i =>
    obtain rfl := hl
    exact ⟨.refl _, (Shape.within_atom _).2 trivial⟩

/-- Eliminating a point keeps the value of an expression, and keeps ratios aligned. -/
theorem eliminate_keeps [Anisotropic F] (h : t.Ready π D S C)
    (right : π.Right D S C answers relies) {e g : Expr}
    (hs : (Shape.ofAtoms (Atom.Located D S C)).Within e)
    (hp : (Shape.ofAtoms π.Aligned).Within e) (hl : (t.eliminate e).Leads answers relies g) :
    Expr.Keeps π.atom e g ∧ (Shape.ofAtoms π.Aligned).Within g := by
  have replaced : ∀ a g, a.Located D S C ∧ π.Aligned a →
      (if a.mentions t.y then t.atom a else .done (.atom a) : Inquiry Expr).Leads answers relies g →
      Expr.Keeps π.atom (.atom a) g ∧ (Shape.ofAtoms π.Aligned).Within g := by
    intro a g ha hl
    split at hl
    next hy => exact atom_keeps h right hy ha.1 ha.2 hl
    next hy =>
      obtain rfl := hl
      exact ⟨.refl _, (Shape.within_atom _).2 ha.2⟩
  have rebuilt := Expr.rebuilt_of_leads hl
  have within := Shape.within_ofAtoms_and hs hp
  exact ⟨rebuilt.keeps (fun a g ha hr => (replaced a g ha hr).1) within,
    rebuilt.within (fun a g ha hr => (replaced a g ha hr).2) within⟩

omit [CharZero F] in
/-- An atom that mentions the point is replaced by an expression that has the same value if this is
so of ratios. -/
theorem atom_keeps_of_ratio (h : π.Displaced t.y t.shift) {a : Atom} (hy : a.mentions t.y = true)
    {g : Expr} (hl : (t.atom a).Leads answers relies g)
    (ratio : ∀ p q r s, a = .ratio p q r s → (t.ratio p q r s).Leads answers relies g →
      Expr.Keeps π.atom (.ratio p q r s) g) : Expr.Keeps π.atom (.atom a) g := by
  cases a with
  | area a b c =>
    obtain rfl := hl
    exact area_keeps h (by simpa [Atom.mentions, Atom.points] using hy)
  | pythagoras a b c =>
    obtain rfl := hl
    exact pythagoras_keeps h a b c
  | ratio a b c d => exact ratio a b c d rfl hl
  | scalar s => simp [Atom.mentions, Atom.points] at hy
  | coordinate p i =>
    obtain rfl := hl
    exact .refl _

section
variable [Anisotropic F] (h : π.Displaced t.y t.shift)
  (line : ∀ x, t.Reliable π answers relies x)
include h line

/-- What an atom that mentions the point is replaced by has its value where both are defined. -/
theorem atom_value {a : Atom} (hy : a.mentions t.y = true) (hp : π.Aligned a) {g : Expr}
    (hl : (t.atom a).Leads answers relies g) (ha : (Expr.atom a).DefinedAt π.atom)
    (hg : g.DefinedAt π.atom) : g.value π.atom = (Expr.atom a).value π.atom := by
  refine (atom_keeps_of_ratio h hy hl (fun p q r s same hl hr => ⟨hg, ?_⟩) ha).2
  subst same
  have hrs : ¬π.Coincide r s := by simpa [Expr.ratio, Placement.atom] using hr
  simp [Expr.ratio, (ratio_along h (fun x _ => line x) hp hl hg hrs).atom_ratio hrs]

/-- Eliminating a point keeps the value of an expression that stays defined. -/
theorem eliminate_value {e g : Expr} (hp : ∀ a ∈ e.atomList, a.mentions t.y = true → π.Aligned a)
    (hl : (t.eliminate e).Leads answers relies g) (he : e.DefinedAt π.atom)
    (hg : g.DefinedAt π.atom) : g.value π.atom = e.value π.atom := by
  have rebuilt := (Expr.rebuilt_of_leads hl).restrict hg
  refine (rebuilt.keeps (fun a g hp hr ha => ?_) (Shape.within_ofAtoms_iff.2 hp) he).2
  obtain ⟨hl, hg⟩ := hr
  refine ⟨hg, ?_⟩
  split at hl
  next hy => exact atom_value h line hy (hp hy) hl ha hg
  next =>
    obtain rfl := hl
    rfl

/-- Eliminating a point keeps the value of an expression, and keeps it defined, if the conditions
that the inquiry relies on hold and the segments of all ratios that mention the point have
length. -/
theorem eliminate_keeps_of_comparable (apart : ¬π.Coincide t.shift.u t.shift.v)
    (met : ∀ c, relies c → π.Holds c) {e g : Expr}
    (hp : ∀ a ∈ e.atomList, a.mentions t.y = true → π.Comparable a)
    (hl : (t.eliminate e).Leads answers relies g) : Expr.Keeps π.atom e g := by
  refine (Expr.rebuilt_of_leads hl).keeps (fun a g hp hl => ?_) (Shape.within_ofAtoms_iff.2 hp)
  split at hl
  next hy =>
    refine atom_keeps_of_ratio h hy hl fun p q r s same hl => ?_
    subst same
    obtain ⟨hpq, -, parallel⟩ := hp hy
    exact ratio_keeps_of_parallel h apart met (fun x _ => line x) parallel (fun _ => hpq) hl
  next =>
    obtain rfl := hl
    exact .refl _

end

end Target

end

end AreaMethod
