import AreaMethod.Condition
import AreaMethod.Construction.Basic

/-!
# Derived points by displacement

Every derived point is `Y = W + t · (V - U)` for some points `W`, `U`, `V` and some expression `t`:
it is displaced from `W` along the direction of `UV`. So it is an affine combination of the three,
and to eliminate it nothing else has to be known of how it was constructed.
-/

namespace AreaMethod

/-- The point `W + t · (V - U)`. -/
structure Displacement where
  w : Point
  u : Point
  v : Point
  t : Expr

namespace Displacement

/-- Adds to the weight of a point, which is listed last if it is not there yet. -/
def addWeight (p : Point) (e : Expr) : List (Point × Expr) → List (Point × Expr)
  | [] => [(p, e)]
  | (q, f) :: ws => if q = p then (q, f + e) :: ws else (q, f) :: addWeight p e ws

/-- The weights of the point as an affine combination, one for each point. Their sum is one. -/
def weights (shift : Displacement) : List (Point × Expr) :=
  addWeight shift.v shift.t (addWeight shift.u (-shift.t) (addWeight shift.w .one []))

/-- Is `W` one of `U` and `V`, so that the point lies on the line `UV` itself? -/
def isOnLine (shift : Displacement) : Bool :=
  shift.w = shift.u || shift.w = shift.v

end Displacement

namespace PointKind

/-- A derived point as a displacement of another one. -/
def displacement? : PointKind → Option Displacement
  | free => none
  | ratio w u v r => some ⟨w, u, v, r⟩
  | intersection u v p q =>
    some ⟨u, u, v, Expr.area u p q / (Expr.area u p q - Expr.area v p q)⟩
  | foot p u v => some ⟨u, u, v, Expr.pythagoras p u v / Expr.pythagoras u v u⟩

/-- The condition under which the point is well defined. -/
def condition? : PointKind → Option Condition
  | free => none
  | ratio _ u v _ => some (.distinct u v)
  | intersection u v p q => some (.notParallel u v p q)
  | foot _ u v => some (.distinct u v)

end PointKind

end AreaMethod
