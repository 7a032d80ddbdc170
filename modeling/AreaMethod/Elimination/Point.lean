import AreaMethod.Collinear
import AreaMethod.Elimination.Displacement
import AreaMethod.Elimination.Inquiry

/-!
# Eliminating a point

`eliminate` replaces every atom that mentions a derived point by an expression that does not. Areas
are affine in each of their points and Pythagoras differences affine or quadratic, so they expand
over the weights of its displacement. For the ratio of a segment that ends in the point it matters
whether the other end lies on the line along which the point is measured; where the construction
does not show it, the inquiry asks.
-/

namespace AreaMethod

/-- A point to be eliminated, with all that its elimination depends on. -/
structure Target where
  construction : Construction
  collinear : CollinearSet
  /-- The point. -/
  y : Point
  /-- The index of the step that makes the point. -/
  index : Nat
  shift : Displacement

namespace Target

/-- The combination of one value for each point that has a weight. -/
def combination (t : Target) (value : Point → Expr) : Expr :=
  .sum (t.shift.weights.map fun (x, w) => w * value x)

/-- The area `abc`, for at least one of the points `y`. A cyclic rotation brings `y` to the end. -/
def area (t : Target) (a b c : Point) : Expr :=
  if [a, b, c].countP (· == t.y) > 1 then .zero
  else if a = t.y then t.combination (.area b c)
  else if b = t.y then t.combination (.area c a)
  else t.combination (.area a b)

/-- All ways to choose two members of a list, in order. -/
def pairs : List α → List (α × α)
  | [] => []
  | x :: xs => xs.map (x, ·) ++ pairs xs

/-- The Pythagoras difference of `a`, `y`, `b`. -/
def pythagorasMiddle (t : Target) (a b : Point) : Expr :=
  .sum ((t.shift.weights.map fun (x, w) => w * .pythagoras a x b) ++
    (pairs t.shift.weights).map fun (i, j) => -(i.2 * j.2 * .pythagoras i.1 j.1 i.1))

/-- The Pythagoras difference of `a`, `b`, `y`. -/
def pythagorasEnd (t : Target) (a b : Point) : Expr :=
  t.combination (.pythagoras a b)

/-- The Pythagoras difference of `a`, `b`, `c`, any of which may be `y`. -/
def pythagoras (t : Target) (a b c : Point) : Expr :=
  match decide (a = t.y), decide (b = t.y), decide (c = t.y) with
  | _, true, true => .zero
  | true, true, _ => .zero
  | true, false, true => t.pythagorasMiddle b b
  | false, true, false => t.pythagorasMiddle a c
  | true, false, false => t.pythagorasEnd c b
  | false, false, true => t.pythagorasEnd a b
  | false, false, false => .pythagoras a b c

/-- The ratio `xy / uv` for `x` on the line of `y`. -/
def position (t : Target) (x : Point) : Expr :=
  .ratio x t.shift.w t.shift.u t.shift.v + t.shift.t

/-- An expression that vanishes if and only if `x` lies on the line of `y`. -/
def offset (t : Target) (x : Point) : Expr :=
  .area x t.shift.u t.shift.v - .area t.shift.w t.shift.u t.shift.v

/-- The statement that `x` lies on the line of `y`. -/
def onLineStatement (t : Target) (x : Point) : Statement :=
  .zero (t.construction.name x ++ " on the line of " ++ t.construction.name t.y) (t.offset x)

/-- The number of steps that construct all points of the statement that `x` lies on the line of
`y`. -/
def onLinePrefix (t : Target) (x : Point) : Nat :=
  (t.onLineStatement x).points.foldl
    (fun n p => match t.construction.stepIndex? p with
      | some i => max n (i + 1)
      | none => n)
    t.index

/-- Does the construction show that `x` lies on the line of `y`? -/
def isKnownOnLine (t : Target) (x : Point) : Bool :=
  let ⟨w, u, v, _⟩ := t.shift
  x = w || (w = u && x = v) ||
    ((t.shift.isOnLine || t.collinear.contains w u v) &&
      (x = u || x = v || t.collinear.contains x u v))

/-- Does `x` lie on the line of `y`? -/
def onLine (t : Target) (x : Point) : Inquiry Bool :=
  if t.isKnownOnLine x then .done true
  else
    let s := t.onLineStatement x
    let n := t.onLinePrefix x
    .report (.needsProof s.name n) (.ask s n .done)

/-- The ratio `xy / cd`. -/
def overSegment (t : Target) (x c d : Point) : Inquiry Expr := do
  let ⟨_, u, v, _⟩ := t.shift
  if ← t.onLine x then
    return t.position x / .ratio c d u v
  else
    .rely (.notParallel c d u v) (.done (t.offset x / (.area c u v - .area d u v)))

/-- The ratio `xy / zy`. -/
def throughPoint (t : Target) (x z : Point) : Inquiry Expr := do
  if ← t.onLine x then
    return t.position x / t.position z
  else
    .rely (.notParallel x z t.shift.u t.shift.v) (.done (t.offset x / t.offset z))

/-- The end of a segment other than `y`, and whether the segment starts in `y`. -/
def otherEnd (t : Target) (p q : Point) : Point × Bool :=
  if p = t.y then (q, true) else (p, false)

/-- An expression, or minus it. -/
def withSign (negative : Bool) (e : Expr) : Expr :=
  if negative then -e else e

/-- The ratio `ab / cd`. One of segments without length is left as it is. -/
def ratio (t : Target) (a b c d : Point) : Inquiry Expr :=
  if a = b then .done .zero
  else if c = d then .done (.ratio a b c d)
  else match decide (a = t.y ∨ b = t.y), decide (c = t.y ∨ d = t.y) with
    | true, false => do
      let (x, flipped) := t.otherEnd a b
      return withSign flipped (← t.overSegment x c d)
    | false, true => do
      let (x, flipped) := t.otherEnd c d
      return withSign flipped (.one / (← t.overSegment x a b))
    | true, true => do
      let (x, first) := t.otherEnd a b
      let (z, second) := t.otherEnd c d
      if x = z then return withSign (first != second) .one
      else return withSign (first != second) (← t.throughPoint x z)
    | false, false => .done (.ratio a b c d)

/-- An expression for an atom that mentions `y`. Coordinates of `y` stay. -/
def atom (t : Target) : Atom → Inquiry Expr
  | .area a b c => .done (t.area a b c)
  | .pythagoras a b c => .done (t.pythagoras a b c)
  | .ratio a b c d => t.ratio a b c d
  | a => .done (.atom a)

/-- Eliminates the point from an expression. -/
def eliminate (t : Target) (e : Expr) : Inquiry Expr :=
  e.mapAtomsM fun a => if a.mentions t.y then t.atom a else .done (.atom a)

end Target

namespace Construction

/-- Eliminates a point from an expression. An expression that does not mention the point, or in
which the point is free, stays as it is; otherwise the result relies on the point being well
defined. -/
def eliminate (c : Construction) (collinear : CollinearSet) (y : Point) (e : Expr) : Inquiry Expr :=
  match c.stepIndex? y, c.kind? y with
  | some index, some kind =>
    match kind.displacement? with
    | none => .done e
    | some shift =>
      if e.mentions y then do
        let result ← Target.eliminate ⟨c, collinear, y, index, shift⟩ e
        match kind.condition? with
        | some condition => .rely condition (.done result)
        | none => return result
      else .done e
  | _, _ => .fail (.invalidConstruction (.notConstructed y))

end Construction

end AreaMethod
