import AreaMethod.Construction.Basic
import AreaMethod.Log

/-!
# Building constructions

The operations that append to a construction. Each checks first that everything it refers to is
there and that its label is not taken; if a check fails, the construction and its symbol table stay
as they were. Midpoints, points on a line and reflections are made of the primitive kinds of points.
-/

namespace AreaMethod

/-- An operation on a construction, which may find fault with what it is asked to do. -/
abbrev Build := ExceptT ConstructionFault (StateM Construction)

namespace Build

/-- Goes on only if the test succeeds. -/
def check (ok : Bool) (fault : ConstructionFault) : Build Unit :=
  if ok then pure () else throw fault

/-- The two points of a line that has to be there. -/
def requireLine (l : Line) : Build (Point × Point) := do
  match (← get).line? l with
  | some ends => pure ends
  | none => throw (.lineMissing l)

/-- Is the label that of a constructed point? -/
def pointTaken (c : Construction) (label : String) : Bool :=
  (c.symbols.point? label).any c.contains

/-- Is the label that of a constructed line? -/
def lineTaken (c : Construction) (label : String) : Bool :=
  (c.symbols.line? label).any fun l => (c.line? l).isSome

/-- Gives a label to a point. -/
def internPoint (label : String) : Build Point := do
  let c ← get
  let (p, symbols) := c.symbols.internPoint label
  set { c with symbols }
  return p

/-- Gives a label to a line. -/
def internLine (label : String) : Build Line := do
  let c ← get
  let (l, symbols) := c.symbols.internLine label
  set { c with symbols }
  return l

/-- Appends a step. -/
def append (s : Step) : Build Unit :=
  modify fun c => { c with steps := c.steps ++ [s] }

/-- What keeps a point of this kind from being constructed, the label apart. -/
def kindFault? (c : Construction) (label : String) (kind : PointKind) : Option ConstructionFault :=
  match kind.definingPoints.find? (!c.contains ·) with
  | some p => some (.pointMissing p)
  | none =>
    match kind.coefficient? with
    | none => none
    | some r => (r.points.find? (!c.contains ·)).map (.ratioPointMissing label)

/-- Appends a point. -/
def point (label : String) (kind : PointKind) : Build Point := do
  let c ← get
  if let some fault := kindFault? c label kind then throw fault
  check (!pointTaken c label) (.pointTaken label)
  let p ← internPoint label
  append (.point p kind)
  return p

/-- Appends a free point. -/
def free (label : String) : Build Point :=
  point label .free

/-- Appends the line through two different points. -/
def line (label : String) (a b : Point) : Build Line := do
  let c ← get
  check (c.contains a) (.pointMissing a)
  check (c.contains b) (.pointMissing b)
  check (a != b) (.linePointsEqual label)
  check (!lineTaken c label) (.lineTaken label)
  let l ← internLine label
  append (.line l a b)
  return l

/-- Appends the intersection of two lines. -/
def intersection (label : String) (l m : Line) : Build Point := do
  let (u, v) ← requireLine l
  let (p, q) ← requireLine m
  check (l != m) (.linesEqual label)
  point label (.intersection u v p q)

/-- Appends the foot of the perpendicular from a point to a line. -/
def foot (label : String) (p : Point) (l : Line) : Build Point := do
  let (u, v) ← requireLine l
  point label (.foot p u v)

/-- Appends the point `Y` with `WY = r · UV`. -/
def ratioPoint (label : String) (w u v : Point) (r : Expr) : Build Point :=
  point label (.ratio w u v r)

/-- Appends the midpoint of two points. -/
def midpoint (label : String) (a b : Point) : Build Point :=
  ratioPoint label a a b (.rational (mkRat 1 2))

/-- Appends the point of a line at the position of the given parameter. -/
def pointOnLine (label : String) (l : Line) (parameter : String) : Build Point := do
  let (a, b) ← requireLine l
  ratioPoint label a a b (.scalar parameter)

/-- Appends the reflection of a point in a line, after the foot of the perpendicular, whose label
ends in `_foot`. -/
def reflection (label : String) (p : Point) (l : Line) : Build Point := do
  let c ← get
  check (c.contains p) (.pointMissing p)
  let _ ← requireLine l
  check (!pointTaken c label) (.pointTaken label)
  let f ← foot (label ++ "_foot") p l
  ratioPoint label p p f (.rational 2)

end Build

/-- What an operation on a construction yields. -/
inductive Made where
  | point (p : Point)
  | line (l : Line)

/-- A request to append to a construction or to give a label. -/
inductive Command where
  | free (label : String)
  | line (label : String) (a b : Point)
  | intersection (label : String) (l m : Line)
  | foot (label : String) (p : Point) (l : Line)
  | ratioPoint (label : String) (w u v : Point) (r : Expr)
  | midpoint (label : String) (a b : Point)
  | pointOnLine (label : String) (l : Line) (parameter : String)
  | reflection (label : String) (p : Point) (l : Line)
  | internPoint (label : String)
  | internLine (label : String)

namespace Command

/-- Carries out a request. -/
def run : Command → Build Made
  | free label => .point <$> Build.free label
  | line label a b => .line <$> Build.line label a b
  | intersection label l m => .point <$> Build.intersection label l m
  | foot label p l => .point <$> Build.foot label p l
  | ratioPoint label w u v r => .point <$> Build.ratioPoint label w u v r
  | midpoint label a b => .point <$> Build.midpoint label a b
  | pointOnLine label l parameter => .point <$> Build.pointOnLine label l parameter
  | reflection label p l => .point <$> Build.reflection label p l
  | internPoint label => .point <$> Build.internPoint label
  | internLine label => .line <$> Build.internLine label

end Command

namespace Construction

/-- Carries out a request: what it yields, and the construction after it. -/
def perform (c : Construction) (request : Command) : Except ConstructionFault Made × Construction :=
  request.run.run c

/-- Carries out requests on the empty construction, up to the first that fails. -/
def build (requests : List Command) : Except ConstructionFault Construction :=
  requests.foldlM (fun c request => (c.perform request).1.map fun _ => (c.perform request).2) empty

/-- The events of building a construction, one for each of its points. -/
def history (c : Construction) : List Event :=
  c.points.map fun (p, kind) => .constructed (c.describe (.point p kind))

end Construction

end AreaMethod
