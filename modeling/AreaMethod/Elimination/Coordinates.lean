import AreaMethod.Construction.Basic
import AreaMethod.Elimination.Inquiry

/-!
# Coordinates

Once only free points are left, areas, Pythagoras differences and ratios become expressions in
their coordinates, which are independent variables. A ratio has to be one of parallel segments,
which the inquiry asks.
-/

namespace AreaMethod

namespace Point

/-- The components of the vector from one point to another. -/
def vector (p q : Point) : Expr × Expr :=
  (.coordinate q .x - .coordinate p .x, .coordinate q .y - .coordinate p .y)

end Point

namespace Expr

/-- The dot product of two vectors. -/
def dot (s t : Expr × Expr) : Expr :=
  s.1 * t.1 + s.2 * t.2

end Expr

namespace Atom

/-- The atom in coordinates, wherever its points are. -/
def coordinates : Atom → Expr
  | area a b c =>
    let (abx, aby) := a.vector b
    let (acx, acy) := a.vector c
    .rational (mkRat 1 2) * (abx * acy - acx * aby)
  | pythagoras a b c => .rational 2 * Expr.dot (b.vector a) (b.vector c)
  | ratio a b c d => Expr.dot (a.vector b) (c.vector d) / Expr.dot (c.vector d) (c.vector d)
  | a => .atom a

/-- The atom in coordinates, if all its points are free. -/
def inCoordinates (c : Construction) (a : Atom) : Inquiry Expr :=
  if a.isIndependent then .done (.atom a)
  else match a.points.find? (!c.isFree ·) with
    | some p =>
      .report (.derivedPoint (c.name p))
        (.fail (.inconclusive (.zero (c.name p ++ " in free coordinates") (.atom a))))
    | none =>
      match a with
      | ratio p q r s => do
        let parallel := Statement.parallel p q r s
        if ← .ask parallel c.length .done then return a.coordinates
        else .fail (.inconclusive parallel)
      | _ => .done a.coordinates

end Atom

/-- The expression in coordinates, if all its points are free. -/
def Expr.inCoordinates (c : Construction) (e : Expr) : Inquiry Expr :=
  e.mapAtomsM (Atom.inCoordinates c)

end AreaMethod
