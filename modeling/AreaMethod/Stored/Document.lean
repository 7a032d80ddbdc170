import AreaMethod.Proof.Config
import AreaMethod.Stored.Format

/-!
# The stored documents

The formats of everything that can be stored: expressions, constructions, statements, conditions,
traces, reports and settings. Rationals are kept as they are given, reduced or not.
-/

namespace AreaMethod

namespace Format

/-- Is the digit zero? -/
def isZeroDigit : Json → Bool
  | .int n => n == 0
  | _ => false

/-- An integer: its sign, which is -1, 0 or 1, and the digits of its magnitude to the base 2³² from
the lowest to the highest. The standard spelling has no zeros for highest digits, and the sign is 0
if and only if there are no digits. -/
def integer : Format
  | .arr [.int sign, .arr digits] => do
    let digits ← digits.mapM word32
    let digits := (digits.reverse.dropWhile isZeroDigit).reverse
    if sign < -1 ∨ 1 < sign then none
    else if sign = 0 ∨ digits.isEmpty then some (.arr [.int 0, .arr []])
    else some (.arr [.int sign, .arr digits])
  | _ => none

/-- Is the integer, in its standard spelling, zero? -/
def isZeroInteger : Json → Bool
  | .arr [.int 0, _] => true
  | _ => false

/-- A rational number: its numerator and its denominator, which is not zero. -/
def rational : Format
  | .arr [n, d] => do
    let n ← integer n
    let d ← integer d
    if isZeroInteger d then none else some (.arr [n, d])
  | _ => none

/-- A coordinate axis. -/
def axis : Format := oneOf [("X", none), ("Y", none)]

/-- An atom. -/
def atom : Format :=
  oneOf [("Area", some (tuple [word32, word32, word32])),
    ("Pythagoras", some (tuple [word32, word32, word32])),
    ("Ratio", some (tuple [word32, word32, word32, word32])),
    ("Scalar", some text),
    ("Coordinate", some (tuple [word32, axis]))]

mutual

/-- An expression. -/
def expr : Json → Option Json
  | .obj [("Number", j)] => do return .obj [("Number", ← rational j)]
  | .obj [("Atom", j)] => do return .obj [("Atom", ← atom j)]
  | .obj [("Product", .arr js)] => do return .obj [("Product", .arr (← exprs js))]
  | .obj [("Sum", .arr js)] => do return .obj [("Sum", .arr (← exprs js))]
  | .obj [("Fraction", .arr [n, d])] => do
    return .obj [("Fraction", .arr [← expr n, ← expr d])]
  | _ => none

/-- A list of expressions. -/
def exprs : List Json → Option (List Json)
  | [] => some []
  | j :: js => do return (← expr j) :: (← exprs js)

end

/-- How a point comes about. -/
def kind : Format :=
  oneOf [("Free", none),
    ("PRatio", some (record [.required "w" word32, .required "u" word32, .required "v" word32,
      .required "r" expr])),
    ("Intersection", some (record [.required "u" word32, .required "v" word32,
      .required "p" word32, .required "q" word32])),
    ("Foot", some (record [.required "p" word32, .required "u" word32, .required "v" word32]))]

/-- A step of a construction. -/
def step : Format :=
  oneOf [("Point", some (record [.required "id" word32, .required "kind" kind])),
    ("Line", some (record [.required "id" word32, .required "through" (tuple [word32, word32])]))]

/-- A symbol table. -/
def symbols : Format :=
  record [.required "point_map" (dictionary word32), .required "line_map" (dictionary word32),
    .required "point_labels" (list text), .required "line_labels" (list text)]

/-- A construction. -/
def construction : Format :=
  record [.required "symbols" symbols, .required "steps" (list step)]

/-- A statement. -/
def statement : Format :=
  record [.required "name" text, .required "expressions" (list expr)]

/-- A condition. -/
def condition : Format :=
  oneOf [("Distinct", some (tuple [word32, word32])),
    ("NotParallel", some (tuple [word32, word32, word32, word32]))]

/-- A collection of conditions, kept as it is given. -/
def conditions : Format :=
  record [.required "conditions" (list condition)]

/-- Why there is no decision. -/
def reason : Format :=
  oneOf [("Blocked", some (record [.required "lemma" statement])),
    ("DepthLimit", some (record [.required "limit" word64])),
    ("SizeLimit", some (record [.required "size" word64, .required "limit" word64]))]

/-- A verdict. -/
def verdict : Format :=
  oneOf [("True", none), ("False", none), ("Unknown", none)]

/-- A step of a trace. -/
def traceStep : Format :=
  record [.required "id" word32, .required "pass" text, .required "expression_index" word64,
    .required "size" word64, .omittable "expression" text, .omittable "explanation" text]

/-- A trace. -/
def trace : Format :=
  record [.required "steps" (list traceStep), .nullable "verdict" verdict,
    .required "metadata" (dictionary text)]

/-- A report. -/
def report : Format :=
  record [.required "statement" text, .required "verdict" verdict,
    .omittable "unknown_reason" reason, .required "ndg" conditions, .required "trace" trace,
    .required "eliminations" word64, .required "from_cache" flag]

/-- Settings, with the standard ones for what is missing. -/
def config : Format :=
  let standard := Config.standard
  recordWith true
    [.withDefault "max_subproof_depth" word64 (.nat standard.maxSubproofDepth),
      .withDefault "max_expression_size" word64 (.nat standard.maxExpressionSize),
      .withDefault "max_expansion_terms" word64 (.nat standard.maxExpansionTerms),
      .withDefault "print_size_limit" word64 (.nat standard.printSizeLimit),
      .withDefault "record_trace" flag (.bool standard.recordTrace)]

end Format

end AreaMethod
