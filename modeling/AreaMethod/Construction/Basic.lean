import AreaMethod.Construction.Symbols
import AreaMethod.Expr.Text

/-!
# Constructions

A construction is a list of steps. A step makes a point, either free or derived from other points,
or names the line through two points. The operations in `Construction.Build` only append steps that
refer to earlier ones; a construction read from a document may refer to anything, and the lookups
here take the first step with the number that is asked for.
-/

namespace AreaMethod

/-- How a point comes about. -/
inductive PointKind where
  /-- Chosen freely. -/
  | free
  /-- The point `Y` with `WY = r · UV` as vectors. -/
  | ratio (w u v : Point) (r : Expr)
  /-- The intersection of the lines `UV` and `PQ`. -/
  | intersection (u v p q : Point)
  /-- The foot of the perpendicular from `P` to the line `UV`. -/
  | foot (p u v : Point)

namespace PointKind

/-- Is the point chosen freely? -/
def isFree : PointKind → Bool
  | free => true
  | _ => false

/-- The points that the point is constructed from. -/
def definingPoints : PointKind → List Point
  | free => []
  | ratio w u v _ => [w, u, v]
  | intersection u v p q => [u, v, p, q]
  | foot p u v => [p, u, v]

/-- The expression for the position of a point that is given by a ratio. -/
def coefficient? : PointKind → Option Expr
  | ratio _ _ _ r => some r
  | _ => none

end PointKind

/-- A step of a construction. -/
inductive Step where
  | point (p : Point) (kind : PointKind)
  | line (l : Line) (a b : Point)

namespace Step

/-- The point that a step makes. -/
def point? : Step → Option (Point × PointKind)
  | point p kind => some (p, kind)
  | line .. => none

/-- Does the step make this point? -/
def makes (p : Point) : Step → Bool
  | point q _ => q == p
  | line .. => false

end Step

/-- The steps of a construction with the labels of its points and lines. -/
structure Construction where
  symbols : SymbolTable
  steps : List Step

namespace Construction

/-- The construction without steps or labels. -/
def empty : Construction := ⟨.empty, []⟩

/-- The number of steps. -/
def length (c : Construction) : Nat :=
  c.steps.length

/-- The points in the order they are made. -/
def points (c : Construction) : List (Point × PointKind) :=
  c.steps.filterMap Step.point?

/-- The index of the first step that makes the point. -/
def stepIndex? (c : Construction) (p : Point) : Option Nat :=
  c.steps.findIdx? (Step.makes p)

/-- How the point is made first. -/
def kind? (c : Construction) (p : Point) : Option PointKind :=
  c.points.lookup p

/-- The two points that the line is first drawn through. -/
def line? (c : Construction) (l : Line) : Option (Point × Point) :=
  c.steps.findSome? fun
    | .line l' a b => if l' = l then some (a, b) else none
    | .point .. => none

/-- Is the point constructed? -/
def contains (c : Construction) (p : Point) : Bool :=
  (c.kind? p).isSome

/-- Is the point constructed by one of the first `n` steps? -/
def containsBefore (c : Construction) (p : Point) (n : Nat) : Bool :=
  match c.stepIndex? p with
  | some i => i < n
  | none => false

/-- Is the point constructed, and free? -/
def isFree (c : Construction) (p : Point) : Bool :=
  match c.kind? p with
  | some kind => kind.isFree
  | none => false

/-- The name of a point. -/
def name (c : Construction) (p : Point) : String :=
  c.symbols.pointName p

/-- One line of text on a step. -/
def describe (c : Construction) : Step → String
  | .line l a b => "line " ++ c.symbols.lineName l ++ " through " ++ c.name a ++ " and " ++ c.name b
  | .point y .free => "free point " ++ c.name y
  | .point y (.ratio w u v r) =>
    "point " ++ c.name y ++ " such that " ++ c.name w ++ c.name y ++ " = " ++ r.text c.name ++
      " * " ++ c.name u ++ c.name v
  | .point y (.intersection u v p q) =>
    "point " ++ c.name y ++ " at the intersection of " ++ c.name u ++ c.name v ++ " and " ++
      c.name p ++ c.name q
  | .point y (.foot p u v) =>
    "point " ++ c.name y ++ " foot of the perpendicular from " ++ c.name p ++ " to " ++ c.name u ++
      c.name v

end Construction

end AreaMethod
