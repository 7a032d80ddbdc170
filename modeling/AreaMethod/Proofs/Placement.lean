import AreaMethod.Elimination.Coordinates
import AreaMethod.Elimination.Displacement
import AreaMethod.Expr.Orientation
import AreaMethod.Proofs.Closure
import AreaMethod.Proofs.Polynomial

/-!
# Figures

A placement gives every point its coordinates and every scalar its value, in the rationals or in
another field. It fits a construction (`Nondegenerate`) if every derived point satisfies its
definition, and that is to say that every derived point is the displacement it is described as
(`satisfies_iff_displaced`).

At a placement every atom has a value, but for ratios by a segment without length. The passes that
use geometry keep values there: writing atoms in their chosen orientation (`oriented_keeps`),
dropping flat triangles (`flattened_keeps`) and going over to coordinates (`coordinates_keeps`).
-/

namespace AreaMethod

/-- Sums of squares vanish only if the squares do. -/
class Anisotropic (F : Type*) [Field F] : Prop where
  eq_zero_of_sum_squares : ∀ x y : F, x * x + y * y = 0 → x = 0

instance : Anisotropic ℚ where
  eq_zero_of_sum_squares x y h := by nlinarith [mul_self_nonneg x, mul_self_nonneg y]

/-- Coordinates for points and values for scalars. -/
structure Placement (F : Type*) where
  coordinate : Point → Axis → F
  scalar : String → F

namespace Placement

variable {F : Type*} [Field F] (π : Placement F)

/-- The first coordinate of a point. -/
def x (p : Point) : F := π.coordinate p .x

/-- The second coordinate of a point. -/
def y (p : Point) : F := π.coordinate p .y

/-- The cross product of the vectors `ab` and `cd`. -/
def cross (a b c d : Point) : F :=
  (π.x b - π.x a) * (π.y d - π.y c) - (π.y b - π.y a) * (π.x d - π.x c)

/-- The dot product of the vectors `ab` and `cd`. -/
def dot (a b c d : Point) : F :=
  (π.x b - π.x a) * (π.x d - π.x c) + (π.y b - π.y a) * (π.y d - π.y c)

/-- The area of a triangle, with the sign of its orientation. -/
def area (a b c : Point) : F := π.cross a b a c / 2

/-- The Pythagoras difference of a corner. -/
def pythagoras (a b c : Point) : F := 2 * π.dot b a b c

/-- Are the two points at the same place? -/
def Coincide (p q : Point) : Prop := π.x p = π.x q ∧ π.y p = π.y q

/-- Are the vectors `ab` and `cd` parallel? -/
def Parallel (a b c d : Point) : Prop := π.cross a b c d = 0

/-- Does the condition hold? -/
def Holds : Condition → Prop
  | .distinct a b => ¬π.Coincide a b
  | .notParallel a b c d => ¬π.Parallel a b c d

/-- Exchanging the first two points of an area changes its sign. -/
theorem area_swap_first (a b c : Point) : π.area b a c = -π.area a b c := by
  rw [area, area, cross, cross]
  ring

/-- Exchanging the last two points of an area changes its sign. -/
theorem area_swap_last (a b c : Point) : π.area a c b = -π.area a b c := by
  rw [area, area, cross, cross]
  ring

/-- The area of a triangle does not depend on the corner it is measured from. -/
theorem area_rotate (a b c : Point) : π.area b c a = π.area a b c := by
  rw [area_swap_last, area_swap_first, neg_neg]

/-- A triangle is flat if two of its corners are the same. -/
theorem area_eq_zero_of_eq {a b c : Point} (h : a = b ∨ b = c ∨ a = c) : π.area a b c = 0 := by
  rw [area, cross]
  rcases h with rfl | rfl | rfl <;> ring

variable [DecidableEq F]

instance (p q : Point) : Decidable (π.Coincide p q) :=
  inferInstanceAs (Decidable (_ ∧ _))

instance (a b c d : Point) : Decidable (π.Parallel a b c d) :=
  inferInstanceAs (Decidable (_ = _))

/-- The value of an atom. -/
def atom : Atom → Option F
  | .area a b c => some (π.area a b c)
  | .pythagoras a b c => some (π.pythagoras a b c)
  | .ratio a b c d => if π.Coincide c d then none else some (π.dot a b c d / π.dot c d c d)
  | .scalar s => some (π.scalar s)
  | .coordinate p axis => some (π.coordinate p axis)

/-- Does the point satisfy its definition? -/
def Satisfies (p : Point) : PointKind → Prop
  | .free => True
  | .ratio w u v r => r.DefinedAt π.atom ∧ ∀ i, π.coordinate p i =
      π.coordinate w i + r.value π.atom * (π.coordinate v i - π.coordinate u i)
  | .intersection u v a b => π.area u a b ≠ π.area v a b ∧ π.Parallel u v u p ∧ π.Parallel a b a p
  | .foot a u v => ¬π.Coincide u v ∧ π.Parallel u v u p ∧ π.dot a p u v = 0

/-- Does every point of the construction satisfy its definition? -/
def Nondegenerate (c : Construction) : Prop :=
  ∀ q ∈ c.points, π.Satisfies q.1 q.2

/-- Does the point lie where its definition says? If the two points that a line is drawn through
coincide, any point lies on it. -/
def Incident (p : Point) : PointKind → Prop
  | .free => True
  | .ratio w u v r => r.DefinedAt π.atom ∧ ∀ i, π.coordinate p i =
      π.coordinate w i + r.value π.atom * (π.coordinate v i - π.coordinate u i)
  | .intersection u v a b => π.Parallel u v u p ∧ π.Parallel a b a p
  | .foot _ u v => π.Parallel u v u p

/-- Is the point the given displacement? -/
def Displaced (p : Point) (s : Displacement) : Prop :=
  s.t.DefinedAt π.atom ∧ ∀ i, π.coordinate p i =
    π.coordinate s.w i + s.t.value π.atom * (π.coordinate s.v i - π.coordinate s.u i)

/-! ## Derived points -/

section
variable {π}

/-- The abscissa of a displaced point. -/
theorem Displaced.x_eq {p : Point} {s : Displacement} (h : π.Displaced p s) :
    π.x p = π.x s.w + s.t.value π.atom * (π.x s.v - π.x s.u) :=
  h.2 .x

/-- The ordinate of a displaced point. -/
theorem Displaced.y_eq {p : Point} {s : Displacement} (h : π.Displaced p s) :
    π.y p = π.y s.w + s.t.value π.atom * (π.y s.v - π.y s.u) :=
  h.2 .y

/-- Being displaced in terms of both coordinates. -/
theorem displaced_iff {p : Point} {s : Displacement} : π.Displaced p s ↔ s.t.DefinedAt π.atom ∧
    π.x p = π.x s.w + s.t.value π.atom * (π.x s.v - π.x s.u) ∧
    π.y p = π.y s.w + s.t.value π.atom * (π.y s.v - π.y s.u) := by
  refine ⟨fun h => ⟨h.1, h.x_eq, h.y_eq⟩, fun h => ⟨h.1, fun i => ?_⟩⟩
  cases i
  · exact h.2.1
  · exact h.2.2

omit [DecidableEq F] in
/-- A segment has length zero only if its ends coincide. -/
theorem dot_self_eq_zero_iff [Anisotropic F] {p q : Point} :
    π.dot p q p q = 0 ↔ π.Coincide p q := by
  constructor
  · intro h
    rw [dot] at h
    have hx := Anisotropic.eq_zero_of_sum_squares _ _ h
    have hy := Anisotropic.eq_zero_of_sum_squares _ _ ((add_comm _ _).trans h)
    exact ⟨(sub_eq_zero.1 hx).symm, (sub_eq_zero.1 hy).symm⟩
  · rintro ⟨hx, hy⟩
    simp [dot, hx, hy]

/-- A point that satisfies its definition is incident with what it is made from. -/
theorem Satisfies.incident {p : Point} {kind : PointKind} (h : π.Satisfies p kind) :
    π.Incident p kind := by
  cases kind with
  | free | ratio w u v r => exact h
  | intersection u v a b => exact h.2
  | foot a u v => exact h.2.1

variable [CharZero F]

omit [DecidableEq F] in
/-- A triangle is flat if two of its sides are parallel. -/
theorem area_eq_zero_iff {a b c : Point} : π.area a b c = 0 ↔ π.Parallel a b a c := by
  rw [area, Parallel, div_eq_zero_iff, or_iff_left two_ne_zero]

/-- An intersection is the point at which the areas balance. -/
theorem satisfies_intersection_iff {p u v a b : Point} : π.Satisfies p (.intersection u v a b) ↔
    π.Displaced p ⟨u, u, v, .area u a b / (.area u a b - .area v a b)⟩ := by
  rw [displaced_iff, Satisfies]
  simp only [Expr.definedAt_div, Expr.definedAt_sub, Expr.area, Expr.definedAt_atom, Expr.value_div,
    Expr.value_sub, Expr.value_atom, atom, Option.isSome_some, Option.getD_some, true_and, ne_eq,
    sub_eq_zero]
  refine and_congr_right fun hne => ?_
  have hne : π.area u a b - π.area v a b ≠ 0 := sub_ne_zero.2 hne
  have balance : π.area u a b / (π.area u a b - π.area v a b) *
      (π.area u a b - π.area v a b) = π.area u a b := div_mul_cancel₀ _ hne
  generalize π.area u a b / (π.area u a b - π.area v a b) = τ at balance
  constructor
  · rintro ⟨h₁, h₂⟩
    have along : ∀ d e : F, (d - τ * e) * (π.area u a b - π.area v a b) = 0 → d = τ * e :=
      fun d e h => sub_eq_zero.1 ((mul_eq_zero.1 h).resolve_right hne)
    rw [← sub_eq_iff_eq_add', ← sub_eq_iff_eq_add']
    simp only [Parallel, cross, area] at h₁ h₂ balance along
    constructor
    · apply along
      linear_combination (π.x b - π.x a) / 2 * h₁ - (π.x v - π.x u) / 2 * h₂ -
        (π.x v - π.x u) * balance
    · apply along
      linear_combination (π.y b - π.y a) / 2 * h₁ - (π.y v - π.y u) / 2 * h₂ -
        (π.y v - π.y u) * balance
  · rintro ⟨hx, hy⟩
    simp only [Parallel, cross, area, hx, hy] at balance ⊢
    exact ⟨by ring, by linear_combination -2 * balance⟩

/-- A foot is the point at which the dot products balance. -/
theorem satisfies_foot_iff [Anisotropic F] {p a u v : Point} : π.Satisfies p (.foot a u v) ↔
    π.Displaced p ⟨u, u, v, .pythagoras a u v / .pythagoras u v u⟩ := by
  rw [displaced_iff, Satisfies]
  simp only [Expr.definedAt_div, Expr.pythagoras, Expr.definedAt_atom, Expr.value_div,
    Expr.value_atom, atom, Option.isSome_some, Option.getD_some, true_and]
  have length : π.pythagoras u v u = 2 * π.dot u v u v := by
    simp only [pythagoras, dot]
    ring
  rw [length, mul_ne_zero_iff_left two_ne_zero, ne_eq, dot_self_eq_zero_iff]
  refine and_congr_right fun hne => ?_
  have hne : π.dot u v u v ≠ 0 := mt dot_self_eq_zero_iff.1 hne
  have balance : π.pythagoras a u v / (2 * π.dot u v u v) * (2 * π.dot u v u v) =
      π.pythagoras a u v := div_mul_cancel₀ _ (mul_ne_zero two_ne_zero hne)
  generalize π.pythagoras a u v / (2 * π.dot u v u v) = τ at balance
  constructor
  · rintro ⟨h₁, h₂⟩
    have along : ∀ d e : F, (d - τ * e) * π.dot u v u v = 0 → d = τ * e :=
      fun d e h => sub_eq_zero.1 ((mul_eq_zero.1 h).resolve_right hne)
    rw [← sub_eq_iff_eq_add', ← sub_eq_iff_eq_add']
    simp only [Parallel, cross, pythagoras, dot] at h₁ h₂ balance along
    constructor
    · apply along
      linear_combination (π.x v - π.x u) * h₂ - (π.y v - π.y u) * h₁ -
        (π.x v - π.x u) / 2 * balance
    · apply along
      linear_combination (π.y v - π.y u) * h₂ + (π.x v - π.x u) * h₁ -
        (π.y v - π.y u) / 2 * balance
  · rintro ⟨hx, hy⟩
    simp only [Parallel, cross, pythagoras, dot, hx, hy] at balance ⊢
    exact ⟨by ring, by linear_combination balance / 2⟩

/-- A derived point satisfies its definition if it is the displacement it is described as. -/
theorem satisfies_iff_displaced [Anisotropic F] {p : Point} {kind : PointKind} {s : Displacement}
    (h : kind.displacement? = some s) : π.Satisfies p kind ↔ π.Displaced p s := by
  cases kind with
  | free => cases h
  | ratio w u v r =>
    cases h
    exact Iff.rfl
  | intersection u v a b =>
    cases h
    exact satisfies_intersection_iff
  | foot a u v =>
    cases h
    exact satisfies_foot_iff

end

end Placement

/-! ## Orientation -/

/-- A property of atoms that does not depend on their orientation. -/
structure Atom.Unoriented (p : Atom → Prop) : Prop where
  area_first : ∀ {a b c}, p (.area a b c) → p (.area b a c)
  area_second : ∀ {a b c}, p (.area a b c) → p (.area a c b)
  pythagoras : ∀ {a b c}, p (.pythagoras a b c) → p (.pythagoras c b a)
  ratio_first : ∀ {a b c d}, p (.ratio a b c d) → p (.ratio b a c d)
  ratio_second : ∀ {a b c d}, p (.ratio a b c d) → p (.ratio a b d c)

namespace Expr

open Shape

variable {p : Atom → Prop}

/-- A signed atom has the property of the atom. -/
theorem within_signed {negative : Bool} {a : Atom} (h : p a) :
    (ofAtoms p).Within (signed negative a) := by
  cases negative <;> simpa [signed, minusOne, ofAtoms] using h

/-- The chosen orientation of an atom has its properties that do not depend on orientation. -/
theorem within_oriented_atom (hp : Atom.Unoriented p) {a : Atom} (h : p a) :
    (ofAtoms p).Within a.oriented := by
  cases a with
  | area a b c =>
    rw [Atom.oriented]
    split
    · exact within_zero
    · refine within_signed ?_
      exact Point.triple_induction (P := fun a b c _ => p (.area a b c)) h
        (fun _ _ _ _ => hp.area_first) (fun _ _ _ _ => hp.area_second)
  | pythagoras a b c =>
    rw [Atom.oriented]
    split
    · exact within_zero
    · refine (within_atom _).2 ?_
      exact Point.pair_induction (P := fun a c _ => p (.pythagoras a b c)) h (hp.pythagoras h)
  | ratio a b c d =>
    rw [Atom.oriented]
    have key : ∀ {c d}, p (.ratio a b c d) → p (.ratio (a.pair b).1 (a.pair b).2.1 c d) :=
      fun {c d} h =>
        Point.pair_induction (P := fun a b _ => p (.ratio a b c d)) h (hp.ratio_first h)
    have both : p (.ratio (a.pair b).1 (a.pair b).2.1 (c.pair d).1 (c.pair d).2.1) :=
      Point.pair_induction (P := fun c d _ => p (.ratio (a.pair b).1 (a.pair b).2.1 c d)) (key h)
        (key (hp.ratio_second h))
    split
    · exact within_zero
    · dsimp only
      split
      · split
        · exact within_rational (-1)
        · exact within_one
      · exact within_signed both
  | scalar s => exact (within_atom _).2 h
  | coordinate q i => exact (within_atom _).2 h

/-- Orienting keeps to a property of atoms that does not depend on their orientation. -/
theorem within_oriented (hp : Atom.Unoriented p) {e : Expr} (h : (ofAtoms p).Within e) :
    (ofAtoms p).Within e.oriented := by
  induction e using ind with
  | number n => simpa [oriented] using h
  | atom a =>
    rw [oriented]
    exact within_oriented_atom hp ((within_atom a).1 h)
  | product fs ih =>
    rw [oriented, within_product]
    intro f hf
    obtain ⟨g, hg, rfl⟩ := List.mem_map.1 ((sort_perm _).mem_iff.1 hf)
    exact ih g hg ((within_product fs).1 h g hg)
  | sum ts ih =>
    rw [oriented, within_sum]
    intro t ht
    obtain ⟨u, hu, rfl⟩ := List.mem_map.1 ((sort_perm _).mem_iff.1 ht)
    exact ih u hu ((within_sum ts).1 h u hu)
  | fraction n d ihn ihd =>
    obtain ⟨hs, hn, hd⟩ := (within_fraction n d).1 h
    rw [oriented]
    exact (within_fraction _ _).2 ⟨hs, ihn hn, ihd hd⟩

section
variable {F : Type*} [Field F] {v : Atom → Option F}

/-- The value of a signed atom is that of the atom with the sign. -/
theorem signed_keeps (negative : Bool) {a : Atom} {q : F} (h : v a = some q) :
    (signed negative a).DefinedAt v ∧
      (signed negative a).value v = if negative then -q else q := by
  cases negative <;> simp [signed, h]

variable (π : Placement F)

/-- Sorting the corners of a triangle changes its area by the sign of the permutation. -/
theorem area_triple (a b c : Point) :
    π.area (a.triple b c).1 (a.triple b c).2.1 (a.triple b c).2.2.1 =
      if (a.triple b c).2.2.2 then -π.area a b c else π.area a b c := by
  refine Point.triple_induction
    (P := fun x y z s => π.area x y z = if s then -π.area a b c else π.area a b c) rfl ?_ ?_
  · intro x y z s h
    cases s <;> simp [π.area_swap_first x y z, h]
  · intro x y z s h
    cases s <;> simp [π.area_swap_last x y z, h]

/-- Sorting the ends of two segments changes their dot product by the signs of the exchanges. -/
theorem dot_pair (a b c d : Point) :
    π.dot (a.pair b).1 (a.pair b).2.1 (c.pair d).1 (c.pair d).2.1 =
      if (a.pair b).2.2 ^^ (c.pair d).2.2 then -π.dot a b c d else π.dot a b c d := by
  refine Point.pair_induction (P := fun x y s => π.dot x y (c.pair d).1 (c.pair d).2.1 =
    if s ^^ (c.pair d).2.2 then -π.dot a b c d else π.dot a b c d) ?_ ?_
  · refine Point.pair_induction (P := fun x y s => π.dot a b x y =
      if false ^^ s then -π.dot a b c d else π.dot a b c d) rfl ?_
    simp only [Placement.dot]
    ring_nf
    rfl
  · refine Point.pair_induction (P := fun x y s => π.dot b a x y =
      if true ^^ s then -π.dot a b c d else π.dot a b c d) ?_ ?_ <;>
    · simp only [Placement.dot]
      ring_nf
      rfl

variable [DecidableEq F]

/-- A ratio in its chosen orientation has the same value. -/
theorem oriented_ratio_keeps [Anisotropic F] (a b c d : Point) :
    Keeps π.atom (ratio a b c d) (Atom.ratio a b c d).oriented := by
  rw [Keeps, ratio, definedAt_atom, value_atom, Placement.atom]
  intro hdef
  have hcd : ¬π.Coincide c d := fun hcd => by simp [hcd] at hdef
  rw [if_neg hcd, Option.getD_some, Atom.oriented]
  split
  next heq => exact ⟨definedAt_zero _, by simp [heq, Placement.dot]⟩
  next =>
    have hlen : π.dot c d c d ≠ 0 := mt Placement.dot_self_eq_zero_iff.1 hcd
    have num := dot_pair π a b c d
    have den := dot_pair π c d c d
    rw [Bool.xor_self, if_neg Bool.false_ne_true] at den
    dsimp only
    generalize ((a.pair b).2.2 ^^ (c.pair d).2.2) = odd at num ⊢
    split
    next heq =>
      rw [heq.1, heq.2, den] at num
      cases odd
      · simp only [Bool.false_eq_true, if_false] at num ⊢
        exact ⟨definedAt_one _, by rw [value_one, ← num, div_self hlen]⟩
      · simp only [if_true] at num ⊢
        refine ⟨definedAt_minusOne _, ?_⟩
        rw [value_minusOne, eq_div_iff hlen, num]
        ring
    next =>
      have sides : π.atom (.ratio (a.pair b).1 (a.pair b).2.1 (c.pair d).1 (c.pair d).2.1) =
          some ((if odd then -π.dot a b c d else π.dot a b c d) / π.dot c d c d) := by
        rw [Placement.atom, if_neg (mt Placement.dot_self_eq_zero_iff.2 (den ▸ hlen)), num, den]
      obtain ⟨hd, hv⟩ := signed_keeps odd sides
      refine ⟨hd, ?_⟩
      rw [hv]
      cases odd
      · rfl
      · simp [neg_div]

/-- An atom in its chosen orientation has the same value. -/
theorem oriented_atom_keeps [Anisotropic F] (a : Atom) : Keeps π.atom (atom a) a.oriented := by
  cases a with
  | area a b c =>
    rw [Atom.oriented]
    split
    next heq =>
      refine fun _ => ⟨definedAt_zero _, ?_⟩
      simp [Placement.atom, π.area_eq_zero_of_eq heq]
    next =>
      have corners : π.atom (.area (a.triple b c).1 (a.triple b c).2.1 (a.triple b c).2.2.1) =
          some (if (a.triple b c).2.2.2 then -π.area a b c else π.area a b c) :=
        congrArg some (area_triple π a b c)
      intro _
      dsimp only
      generalize (a.triple b c).2.2.2 = odd at corners ⊢
      obtain ⟨hd, hv⟩ := signed_keeps odd corners
      refine ⟨hd, ?_⟩
      rw [hv]
      cases odd <;> simp [Placement.atom]
  | pythagoras a b c =>
    rw [Atom.oriented]
    split
    next heq =>
      refine fun _ => ⟨definedAt_zero _, ?_⟩
      rcases heq with rfl | rfl <;> simp [Placement.atom, Placement.pythagoras, Placement.dot]
    next =>
      have ends : π.atom (.pythagoras (a.pair c).1 b (a.pair c).2.1) =
          some (π.pythagoras a b c) := by
        refine congrArg some (Point.pair_induction
          (P := fun x y _ => π.pythagoras x b y = π.pythagoras a b c) rfl ?_)
        simp only [Placement.pythagoras, Placement.dot]
        ring
      intro _
      dsimp only [pythagoras]
      rw [definedAt_atom, value_atom, value_atom, ends]
      exact ⟨rfl, rfl⟩
  | ratio a b c d => exact oriented_ratio_keeps π a b c d
  | scalar s => exact .refl _
  | coordinate q i => exact .refl _

/-- Writing atoms in their chosen orientation keeps the value. -/
theorem oriented_keeps [Anisotropic F] (e : Expr) : Keeps π.atom e e.oriented := by
  induction e using ind with
  | number n =>
    rw [oriented]
    exact .refl _
  | atom a =>
    rw [oriented]
    exact oriented_atom_keeps π a
  | product fs ih =>
    rw [oriented, Keeps, definedAt_product, definedAt_product, value_product, value_product,
      prod_sort, List.map_map]
    intro h
    refine ⟨fun f hf => ?_,
      congrArg List.prod (List.map_congr_left fun g hg => (ih g hg (h g hg)).2)⟩
    obtain ⟨g, hg, rfl⟩ := List.mem_map.1 ((sort_perm _).mem_iff.1 hf)
    exact (ih g hg (h g hg)).1
  | sum ts ih =>
    rw [oriented, Keeps, definedAt_sum, definedAt_sum, value_sum, value_sum,
      ((sort_perm _).map _).sum_eq, List.map_map]
    intro h
    refine ⟨fun t ht => ?_,
      congrArg List.sum (List.map_congr_left fun u hu => (ih u hu (h u hu)).2)⟩
    obtain ⟨u, hu, rfl⟩ := List.mem_map.1 ((sort_perm _).mem_iff.1 ht)
    exact (ih u hu (h u hu)).1
  | fraction n d ihn ihd =>
    rw [oriented, Keeps, definedAt_fraction, definedAt_fraction, value_fraction, value_fraction]
    rintro ⟨hn, hd, hd0⟩
    obtain ⟨hn', hnv⟩ := ihn hn
    obtain ⟨hd', hdv⟩ := ihd hd
    rw [hnv, hdv]
    exact ⟨⟨hn', hd', hd0⟩, rfl⟩

end

end Expr

/-! ## Collinear points -/

section
variable {F : Type*} [Field F] {π : Placement F}

/-- Are the three points of the triple on a line? -/
def Placement.Flat (π : Placement F) (t : Triple) : Prop := π.area t.a t.b t.c = 0

/-- A triple is flat if and only if the triangle of its points has no area. -/
theorem flat_of_iff {p q r : Point} : π.Flat (.of p q r) ↔ π.area p q r = 0 := by
  have h := Expr.area_triple π p q r
  rw [Placement.Flat, Triple.of]
  dsimp only
  rw [h]
  split
  · rw [neg_eq_zero]
  · rfl

namespace CollinearSet

/-- Every known triple is on a line. -/
def Sound (π : Placement F) (k : CollinearSet) : Prop := ∀ t ∈ k.known, π.Flat t

/-- Points that a sound set has as collinear span no area. -/
theorem Sound.area_eq_zero {k : CollinearSet} (hk : k.Sound π) {p q r : Point}
    (h : k.contains p q r = true) : π.area p q r = 0 :=
  flat_of_iff.1 (hk _ (has_iff.1 h))

variable [DecidableEq F] [CharZero F]

/-- The rule of a point is right wherever the point lies where its definition says. -/
theorem preserves_flat_ofPoint {y : Point} {kind : PointKind} (h : π.Incident y kind) :
    (Rule.ofPoint y kind).Preserves π.Flat := by
  rw [preserves_ofPoint_iff]
  simp only [flat_of_iff, Placement.area_eq_zero_iff]
  cases kind with
  | free => trivial
  | intersection u v a b => exact ⟨fun _ _ _ => h.1, fun _ _ _ => h.2⟩
  | foot a u v => exact fun _ _ _ => h
  | ratio w u v r =>
    have hy : π.Displaced y ⟨w, u, v, r⟩ := h
    have hx' := hy.x_eq
    have hy' := hy.y_eq
    intro premise
    have hw : π.Parallel w u w v := by
      rcases premise with rfl | rfl | hw
      · simp [Placement.Parallel, Placement.cross]
      · simp [Placement.Parallel, Placement.cross]
      · exact hw
    simp only [IfDistinct, Placement.Parallel, Placement.cross, hx', hy'] at hw ⊢
    refine ⟨fun _ _ _ => ?_, fun _ _ _ => ?_, fun _ _ _ => ?_⟩
    · linear_combination hw
    · linear_combination -(r.value π.atom) * hw
    · linear_combination -(r.value π.atom) * hw

/-- What the construction makes collinear is collinear wherever its points lie where their
definitions say. -/
theorem sound_of_incident {c : Construction} (h : ∀ q ∈ c.points, π.Incident q.1 q.2) :
    (ofConstruction c).Sound π := by
  refine forall_mem_close (fun r hr => ?_) (by simp [empty])
  obtain ⟨q, hq, rfl⟩ := List.mem_map.1 hr
  exact preserves_flat_ofPoint (h q hq)

/-- What the construction makes collinear is collinear in every figure. -/
theorem sound_ofConstruction {c : Construction} (h : π.Nondegenerate c) :
    (ofConstruction c).Sound π :=
  sound_of_incident fun q hq => (h q hq).incident

end CollinearSet

namespace Expr

variable [DecidableEq F]

/-- The area of a triangle that is known to be flat is zero. -/
theorem atom_of_isFlat {k : CollinearSet} (hk : k.Sound π) {a : Atom} (h : a.isFlat k = true) :
    π.atom a = some 0 := by
  cases a with
  | area a b c =>
    refine congrArg some ?_
    simp only [Atom.isFlat, Bool.or_eq_true, decide_eq_true_eq] at h
    rcases h with h | h
    · exact π.area_eq_zero_of_eq (or_assoc.1 h)
    · exact hk.area_eq_zero h
  | pythagoras | ratio | scalar | coordinate => cases h

/-- Dropping triangles that are known to be flat keeps the value. -/
theorem flattened_keeps {k : CollinearSet} (hk : k.Sound π) (e : Expr) :
    Keeps π.atom e (e.flattened k) := by
  refine (rebuilt_mapAtoms _ e).keeps (p := fun _ => True) ?_
    (Shape.within_ofAtoms_iff.2 fun _ _ => trivial)
  rintro a _ - rfl
  split
  next hflat =>
    refine fun _ => ⟨definedAt_zero _, ?_⟩
    rw [value_zero, value_atom, atom_of_isFlat hk hflat, Option.getD_some]
  next => exact .refl _

/-- Dropping atoms leaves the others as they are. -/
theorem within_flattened {k : CollinearSet} {p : Atom → Prop} {e : Expr}
    (h : (Shape.ofAtoms p).Within e) : (Shape.ofAtoms p).Within (e.flattened k) := by
  refine (rebuilt_mapAtoms _ e).within ?_ h
  rintro a _ ha rfl
  split
  · exact Shape.within_zero
  · exact (Shape.within_atom a).2 ha

variable (π) in
/-- The dot product of two vectors in coordinates. -/
theorem dot_vector_keeps (a b c d : Point) : (dot (a.vector b) (c.vector d)).DefinedAt π.atom ∧
    (dot (a.vector b) (c.vector d)).value π.atom = π.dot a b c d := by
  constructor
  · simp [dot, Point.vector, coordinate, Placement.atom]
  · simp [dot, Point.vector, coordinate, Placement.atom, Placement.dot, Placement.x, Placement.y]

/-- An atom in coordinates has the same value. -/
theorem coordinates_keeps [CharZero F] [Anisotropic F] (a : Atom) :
    Keeps π.atom (atom a) a.coordinates := by
  cases a with
  | area a b c =>
    refine fun _ => ⟨by simp [Atom.coordinates, Point.vector, coordinate, Placement.atom], ?_⟩
    simp [Atom.coordinates, Point.vector, coordinate, Placement.atom, Placement.area,
      Placement.cross, Placement.x, Placement.y]
    ring
  | pythagoras a b c =>
    obtain ⟨hd, hv⟩ := dot_vector_keeps π b a b c
    intro _
    rw [Atom.coordinates, definedAt_mul, value_mul, hv, value_rational, value_atom, Placement.atom]
    exact ⟨⟨definedAt_rational _ 2, hd⟩, by simp [Placement.pythagoras]⟩
  | ratio a b c d =>
    obtain ⟨hn, hnv⟩ := dot_vector_keeps π a b c d
    obtain ⟨hd, hdv⟩ := dot_vector_keeps π c d c d
    rw [Keeps, definedAt_atom, value_atom, Placement.atom]
    intro hdef
    have hcd : ¬π.Coincide c d := fun hcd => by simp [hcd] at hdef
    have hlen : π.dot c d c d ≠ 0 := mt Placement.dot_self_eq_zero_iff.1 hcd
    rw [Atom.coordinates, definedAt_div, value_div, hnv, hdv, if_neg hcd]
    exact ⟨⟨hn, hd, hlen⟩, rfl⟩
  | scalar s => exact .refl _
  | coordinate q i => exact .refl _

end Expr

end

end AreaMethod
