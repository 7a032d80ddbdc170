import AreaMethod.Construction.Basic
import AreaMethod.Json.Basic
import AreaMethod.Proof.Config
import AreaMethod.Proof.Report

/-!
# Writing stored documents

The standard spelling of each value that can be stored.
-/

namespace AreaMethod

/-- The digits of a number to the base 2³², from the lowest to the highest. -/
def digits (n : Nat) : List Nat :=
  if h : n = 0 then [] else n % 4294967296 :: digits (n / 4294967296)
termination_by n
decreasing_by exact Nat.div_lt_self (Nat.pos_of_ne_zero h) (by decide)

namespace Json

/-- An integer, by its sign and the digits of its magnitude. -/
def ofInteger (n : Int) : Json :=
  .arr [.int n.sign, .arr ((digits n.natAbs).map .nat)]

/-- A rational, by its numerator and denominator as they are written. -/
def ofNumeral (n : Numeral) : Json :=
  .arr [ofInteger n.num, ofInteger n.den]

/-- A point. -/
def ofPoint (p : Point) : Json := .nat p.number.toNat

/-- A line. -/
def ofLine (l : Line) : Json := .nat l.number.toNat

/-- An axis. -/
def ofAxis : Axis → Json
  | .x => .str "X"
  | .y => .str "Y"

/-- An atom. -/
def ofAtom : Atom → Json
  | .area a b c => .obj [("Area", .arr [ofPoint a, ofPoint b, ofPoint c])]
  | .pythagoras a b c => .obj [("Pythagoras", .arr [ofPoint a, ofPoint b, ofPoint c])]
  | .ratio a b c d => .obj [("Ratio", .arr [ofPoint a, ofPoint b, ofPoint c, ofPoint d])]
  | .scalar name => .obj [("Scalar", .str name)]
  | .coordinate p axis => .obj [("Coordinate", .arr [ofPoint p, ofAxis axis])]

/-- An expression. -/
def ofExpr : Expr → Json
  | .number n => .obj [("Number", ofNumeral n)]
  | .atom a => .obj [("Atom", ofAtom a)]
  | .product es => .obj [("Product", .arr (es.map ofExpr))]
  | .sum es => .obj [("Sum", .arr (es.map ofExpr))]
  | .fraction n d => .obj [("Fraction", .arr [ofExpr n, ofExpr d])]

/-- How a point comes about. -/
def ofKind : PointKind → Json
  | .free => .str "Free"
  | .ratio w u v r =>
    .obj [("PRatio", .obj [("w", ofPoint w), ("u", ofPoint u), ("v", ofPoint v), ("r", ofExpr r)])]
  | .intersection u v p q =>
    .obj [("Intersection",
      .obj [("u", ofPoint u), ("v", ofPoint v), ("p", ofPoint p), ("q", ofPoint q)])]
  | .foot p u v => .obj [("Foot", .obj [("p", ofPoint p), ("u", ofPoint u), ("v", ofPoint v)])]

/-- A step of a construction. -/
def ofStep : Step → Json
  | .point p kind => .obj [("Point", .obj [("id", ofPoint p), ("kind", ofKind kind)])]
  | .line l a b =>
    .obj [("Line", .obj [("id", ofLine l), ("through", .arr [ofPoint a, ofPoint b])])]

/-- The numbers of labels, in the order of the labels. -/
def ofNumbers (t : Labels) : Json :=
  .obj (t.numbers.toList.map fun (label, n) => (label, .nat n.toNat))

/-- The labels of numbers. -/
def ofLabels (t : Labels) : Json :=
  .arr (t.labels.map .str)

/-- A symbol table. -/
def ofSymbols (t : SymbolTable) : Json :=
  .obj [("point_map", ofNumbers t.points), ("line_map", ofNumbers t.lines),
    ("point_labels", ofLabels t.points), ("line_labels", ofLabels t.lines)]

/-- A construction. -/
def ofConstruction (c : Construction) : Json :=
  .obj [("symbols", ofSymbols c.symbols), ("steps", .arr (c.steps.map ofStep))]

/-- A statement. -/
def ofStatement (s : Statement) : Json :=
  .obj [("name", .str s.name), ("expressions", .arr (s.expressions.map ofExpr))]

/-- A condition. -/
def ofCondition : Condition → Json
  | .distinct a b => .obj [("Distinct", .arr [ofPoint a, ofPoint b])]
  | .notParallel a b c d =>
    .obj [("NotParallel", .arr [ofPoint a, ofPoint b, ofPoint c, ofPoint d])]

/-- A collection of conditions. -/
def ofConditions (cs : Conditions) : Json :=
  .obj [("conditions", .arr (cs.toList.map ofCondition))]

/-- Why there is no decision. -/
def ofReason : UnknownReason → Json
  | .blocked needed => .obj [("Blocked", .obj [("lemma", ofStatement needed)])]
  | .depthLimit limit => .obj [("DepthLimit", .obj [("limit", .nat limit)])]
  | .sizeLimit size limit =>
    .obj [("SizeLimit", .obj [("size", .nat size), ("limit", .nat limit)])]

/-- A verdict. -/
def ofVerdict : Verdict → Json
  | .proved => .str "True"
  | .refuted => .str "False"
  | .unknown => .str "Unknown"

/-- A member that is left out if there is no value. -/
def memberOf (name : String) (f : α → Json) (a : Option α) : List (String × Json) :=
  (a.map fun a => (name, f a)).toList

/-- A step of a trace. -/
def ofTraceStep (s : TraceStep) : Json :=
  .obj ([("id", .nat s.id.toNat), ("pass", .str s.pass),
    ("expression_index", .nat s.expressionIndex.toNat), ("size", .nat s.size.toNat)] ++
    memberOf "expression" .str s.expression ++ memberOf "explanation" .str s.explanation)

/-- A trace. -/
def ofTrace (t : Trace) : Json :=
  .obj [("steps", .arr (t.steps.map ofTraceStep)), ("verdict", option ofVerdict t.verdict),
    ("metadata", .obj (t.metadata.toList.map fun (key, value) => (key, .str value)))]

/-- A report. -/
def ofReport (r : Report) : Json :=
  .obj ([("statement", .str r.statement), ("verdict", ofVerdict r.verdict)] ++
    memberOf "unknown_reason" ofReason r.unknownReason ++
    [("ndg", ofConditions r.conditions), ("trace", ofTrace r.trace),
      ("eliminations", .nat r.eliminations), ("from_cache", .bool r.isRecalled)])

/-- Settings. -/
def ofConfig (c : Config) : Json :=
  .obj [("max_subproof_depth", .nat c.maxSubproofDepth),
    ("max_expression_size", .nat c.maxExpressionSize),
    ("max_expansion_terms", .nat c.maxExpansionTerms),
    ("print_size_limit", .nat c.printSizeLimit), ("record_trace", .bool c.recordTrace)]

end Json

end AreaMethod
