import AreaMethod.Point

/-!
# Geometric quantities

An atom is a quantity that expressions are built from: the signed area of a triangle, the
Pythagoras difference of a corner, the ratio of two parallel segments, a scalar parameter or a
coordinate of a point. Atoms are ordered by kind and then by their arguments; the order decides
how sums and products are arranged.
-/

namespace AreaMethod

/-- A coordinate axis of the plane. -/
inductive Axis where
  | x
  | y
deriving DecidableEq

/-- A quantity of a figure. -/
inductive Atom where
  /-- The signed area of the oriented triangle `abc`. -/
  | area (a b c : Point)
  /-- The Pythagoras difference `ab² + cb² - ac²`. -/
  | pythagoras (a b c : Point)
  /-- The signed ratio `ab / cd` of two parallel segments. -/
  | ratio (a b c d : Point)
  /-- A scalar parameter. -/
  | scalar (name : String)
  /-- A coordinate of a point. -/
  | coordinate (p : Point) (axis : Axis)
deriving DecidableEq

namespace Axis

/-- The rank of an axis: `x` comes before `y`. -/
def rank : Axis → Nat
  | x => 0
  | y => 1

end Axis

namespace Atom

/-- The points an atom speaks of, in the order of its arguments. -/
def points : Atom → List Point
  | area a b c => [a, b, c]
  | pythagoras a b c => [a, b, c]
  | ratio a b c d => [a, b, c, d]
  | scalar _ => []
  | coordinate p _ => [p]

/-- Does the atom speak of the point? -/
def mentions (a : Atom) (p : Point) : Bool :=
  a.points.contains p

/-- Scalars and coordinates are the independent variables of the final zero test. -/
def isIndependent : Atom → Bool
  | scalar _ => true
  | coordinate _ _ => true
  | _ => false

/-- The rank of an atom's kind in the order of atoms. -/
def rank : Atom → Nat
  | area .. => 0
  | pythagoras .. => 1
  | ratio .. => 2
  | scalar _ => 3
  | coordinate .. => 4

/-- Atoms are compared by kind and then argument by argument. -/
def cmp : Atom → Atom → Ordering
  | area a b c, area a' b' c' => (compare a a').then ((compare b b').then (compare c c'))
  | pythagoras a b c, pythagoras a' b' c' =>
    (compare a a').then ((compare b b').then (compare c c'))
  | ratio a b c d, ratio a' b' c' d' =>
    (compare a a').then ((compare b b').then ((compare c c').then (compare d d')))
  | scalar s, scalar t => compare s t
  | coordinate p i, coordinate q j => (compare p q).then (compare i.rank j.rank)
  | a, b => compare a.rank b.rank

instance : Ord Atom := ⟨cmp⟩

/-- Only an atom itself compares equal to it. -/
theorem cmp_eq_iff {a b : Atom} : cmp a b = .eq ↔ a = b := by
  cases a <;> cases b <;>
    simp [cmp, rank, Ordering.then_eq_eq, Point.compare_eq_iff]
  case coordinate.coordinate p i q j =>
    cases i <;> cases j <;> simp [Axis.rank]

end Atom

end AreaMethod
