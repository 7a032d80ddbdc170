import AreaMethod.Construction.Basic
import AreaMethod.Json.Parser
import AreaMethod.Proof.Report
import AreaMethod.Stored.Document

/-!
# Reading stored documents

The functions `Json.to…?` read the standard spelling of a value. A document in any spelling is
brought into the standard one first (`readExpr?`, `readConstruction?`, `readTrace?`,
`readConfig?`).
-/

namespace AreaMethod

/-- The number with these digits to the base 2³², from the lowest to the highest. -/
def ofDigits (ds : List Nat) : Nat :=
  ds.foldr (fun d n => d + 4294967296 * n) 0

namespace Json

/-- A natural number. -/
def toNat? : Json → Option Nat
  | .int n => if 0 ≤ n then some n.toNat else none
  | _ => none

/-- A truth value. -/
def toBool? : Json → Option Bool
  | .bool b => some b
  | _ => none

/-- A string. -/
def toText? : Json → Option String
  | .str s => some s
  | _ => none

/-- A list. -/
def toList? (f : Json → Option α) : Json → Option (List α)
  | .arr items => items.mapM f
  | _ => none

/-- The value of a field that has to be there. -/
def field? (name : String) (f : Json → Option α) (j : Json) : Option α := do
  f (← j.member? name)

/-- The value of a field that may be missing. -/
def fieldOr? (name : String) (f : Json → Option α) (j : Json) : Option (Option α) :=
  match j.member? name with
  | none => some none
  | some .null => some none
  | some j => (f j).map some

/-- An integer, by its sign and the digits of its magnitude. -/
def toInteger? : Json → Option Int
  | .arr [.int sign, ds] => do
    let ds ← ds.toList? toNat?
    return sign * ofDigits ds
  | _ => none

/-- A rational, by its numerator and denominator as they are written. -/
def toNumeral? : Json → Option Numeral
  | .arr [n, d] => do Numeral.ofInts? (← n.toInteger?) (← d.toInteger?)
  | _ => none

/-- A number of 32 bits. -/
def toWord32? (j : Json) : Option UInt32 :=
  j.toNat?.map Nat.toUInt32

/-- A number of 64 bits. -/
def toWord64? (j : Json) : Option UInt64 :=
  j.toNat?.map Nat.toUInt64

/-- A point. -/
def toPoint? (j : Json) : Option Point :=
  j.toWord32?.map Point.mk

/-- A line. -/
def toLine? (j : Json) : Option Line :=
  j.toWord32?.map Line.mk

/-- An axis. -/
def toAxis? : Json → Option Axis
  | .str "X" => some .x
  | .str "Y" => some .y
  | _ => none

/-- An atom. -/
def toAtom? : Json → Option Atom
  | .obj [("Area", .arr [a, b, c])] => do
    return .area (← a.toPoint?) (← b.toPoint?) (← c.toPoint?)
  | .obj [("Pythagoras", .arr [a, b, c])] => do
    return .pythagoras (← a.toPoint?) (← b.toPoint?) (← c.toPoint?)
  | .obj [("Ratio", .arr [a, b, c, d])] => do
    return .ratio (← a.toPoint?) (← b.toPoint?) (← c.toPoint?) (← d.toPoint?)
  | .obj [("Scalar", .str name)] => some (.scalar name)
  | .obj [("Coordinate", .arr [p, axis])] => do return .coordinate (← p.toPoint?) (← axis.toAxis?)
  | _ => none

mutual

/-- An expression. -/
def toExpr? : Json → Option Expr
  | .obj [("Number", n)] => n.toNumeral?.map .number
  | .obj [("Atom", a)] => a.toAtom?.map .atom
  | .obj [("Product", .arr js)] => do return .product (← toExprs? js)
  | .obj [("Sum", .arr js)] => do return .sum (← toExprs? js)
  | .obj [("Fraction", .arr [n, d])] => do return .fraction (← n.toExpr?) (← d.toExpr?)
  | _ => none

/-- A list of expressions. -/
def toExprs? : List Json → Option (List Expr)
  | [] => some []
  | j :: js => do return (← j.toExpr?) :: (← toExprs? js)

end

/-- How a point comes about. -/
def toKind? : Json → Option PointKind
  | .str "Free" => some .free
  | .obj [("PRatio", j)] => do
    return .ratio (← j.field? "w" toPoint?) (← j.field? "u" toPoint?) (← j.field? "v" toPoint?)
      (← j.field? "r" toExpr?)
  | .obj [("Intersection", j)] => do
    return .intersection (← j.field? "u" toPoint?) (← j.field? "v" toPoint?)
      (← j.field? "p" toPoint?) (← j.field? "q" toPoint?)
  | .obj [("Foot", j)] => do
    return .foot (← j.field? "p" toPoint?) (← j.field? "u" toPoint?) (← j.field? "v" toPoint?)
  | _ => none

/-- Two points. -/
def toEnds? : Json → Option (Point × Point)
  | .arr [a, b] => do return (← a.toPoint?, ← b.toPoint?)
  | _ => none

/-- A step of a construction. -/
def toStep? : Json → Option Step
  | .obj [("Point", j)] => do return .point (← j.field? "id" toPoint?) (← j.field? "kind" toKind?)
  | .obj [("Line", j)] => do
    let (a, b) ← j.field? "through" toEnds?
    return .line (← j.field? "id" toLine?) a b
  | _ => none

/-- Values by name. -/
def toDictionary? (f : Json → Option α) : Json → Option (Std.ExtTreeMap String α)
  | .obj members => do
    let entries ← members.mapM fun (name, j) => return (name, ← f j)
    return Std.ExtTreeMap.ofList entries compare
  | _ => none

/-- A symbol table. -/
def toSymbols? (j : Json) : Option SymbolTable := do
  let pointNumbers ← j.field? "point_map" (toDictionary? toWord32?)
  let lineNumbers ← j.field? "line_map" (toDictionary? toWord32?)
  let pointLabels ← j.field? "point_labels" (toList? toText?)
  let lineLabels ← j.field? "line_labels" (toList? toText?)
  return ⟨⟨pointNumbers, pointLabels⟩, ⟨lineNumbers, lineLabels⟩⟩

/-- A construction. -/
def toConstruction? (j : Json) : Option Construction := do
  return ⟨← j.field? "symbols" toSymbols?, ← j.field? "steps" (toList? toStep?)⟩

/-- A verdict. -/
def toVerdict? : Json → Option Verdict
  | .str "True" => some .proved
  | .str "False" => some .refuted
  | .str "Unknown" => some .unknown
  | _ => none

/-- A step of a trace. -/
def toTraceStep? (j : Json) : Option TraceStep := do
  return ⟨← j.field? "id" toWord32?, ← j.field? "pass" toText?,
    ← j.field? "expression_index" toWord64?, ← j.field? "size" toWord64?,
    ← j.fieldOr? "expression" toText?, ← j.fieldOr? "explanation" toText?⟩

/-- A trace. -/
def toTrace? (j : Json) : Option Trace := do
  return ⟨← j.field? "steps" (toList? toTraceStep?), ← j.fieldOr? "verdict" toVerdict?,
    ← j.field? "metadata" (toDictionary? toText?)⟩

/-- Settings. -/
def toConfig? (j : Json) : Option Config := do
  return ⟨← j.field? "max_subproof_depth" toNat?, ← j.field? "max_expression_size" toNat?,
    ← j.field? "max_expansion_terms" toNat?, ← j.field? "print_size_limit" toNat?,
    ← j.field? "record_trace" toBool?⟩

end Json

namespace Format

/-- The standard spelling of a document that is given as text. -/
def ofText? (f : Format) (text : String) : Option Json := do
  f (← Json.parse? text)

end Format

/-- An expression in any spelling. -/
def readExpr? (j : Json) : Option Expr := do
  (← Format.expr j).toExpr?

/-- A symbol table in any spelling. -/
def readSymbols? (j : Json) : Option SymbolTable := do
  (← Format.symbols j).toSymbols?

/-- A construction in any spelling. -/
def readConstruction? (j : Json) : Option Construction := do
  (← Format.construction j).toConstruction?

/-- A trace in any spelling. -/
def readTrace? (j : Json) : Option Trace := do
  (← Format.trace j).toTrace?

/-- Settings in any spelling. -/
def readConfig? (j : Json) : Option Config := do
  (← Format.config j).toConfig?

end AreaMethod
