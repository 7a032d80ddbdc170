import AreaMethod.Json.Basic
import Std.Data.ExtTreeMap

/-!
# Formats of stored documents

A document may be spelled in more than one way: a record as an object or as the array of its
fields, with fields that do not matter, in any order. A `Format` says which JSON values are
documents of one sort, and gives for each of them the standard spelling, which is the only one that
is ever written. The combinators here are the rules that all sorts of documents share.
-/

namespace AreaMethod

/-- The standard spelling of a JSON value, if the value is a document of the right sort. -/
abbrev Format := Json → Option Json

namespace Json

/-- Is the value `null`? -/
def isNull : Json → Bool
  | null => true
  | _ => false

end Json

namespace Format

/-- A string. -/
def text : Format
  | .str s => some (.str s)
  | _ => none

/-- A truth value. -/
def flag : Format
  | .bool b => some (.bool b)
  | _ => none

/-- A natural number up to a limit. -/
def natUpTo (limit : Nat) : Format
  | .int n => if 0 ≤ n ∧ n ≤ limit then some (.int n) else none
  | _ => none

/-- A number of 32 bits. -/
def word32 : Format := natUpTo 4294967295

/-- A number of 64 bits. -/
def word64 : Format := natUpTo 18446744073709551615

/-- A value or `null`. -/
def optional (f : Format) : Format
  | .null => some .null
  | j => f j

/-- A list of any length. -/
def list (f : Format) : Format
  | .arr items => (items.mapM f).map .arr
  | _ => none

/-- A list with one item for each of the formats. -/
def items : List Format → List Json → Option (List Json)
  | [], [] => some []
  | f :: fs, j :: js => do return (← f j) :: (← items fs js)
  | _, _ => none

/-- A list with one item for each of the formats. -/
def tuple (fs : List Format) : Format
  | .arr js => (items fs js).map .arr
  | _ => none

/-- Values by name. The last one given for a name counts, and names are written in order. -/
def dictionary (f : Format) : Format
  | .obj members => do
    let members ← members.mapM fun (name, j) => return (name, ← f j)
    return .obj (Std.ExtTreeMap.ofList members compare).toList
  | _ => none

/-- A field of a record. -/
structure Field where
  name : String
  format : Format
  /-- What holds if the field is missing. Without it the field may not be missing. -/
  absent : Option Json
  /-- Is the field left out of the standard spelling if it is `null`? -/
  skipsNull : Bool

namespace Field

/-- A field that has to be there. -/
def required (name : String) (f : Format) : Field := ⟨name, f, none, false⟩

/-- A field that may be missing or `null`, which is written as `null`. -/
def nullable (name : String) (f : Format) : Field := ⟨name, optional f, some .null, false⟩

/-- A field that may be missing or `null`, which is written by leaving it out. -/
def omittable (name : String) (f : Format) : Field := ⟨name, optional f, some .null, true⟩

/-- A field with a value of its own for when it is missing. -/
def withDefault (name : String) (f : Format) (value : Json) : Field := ⟨name, f, some value, false⟩

/-- The value of a field of an object. The field may not be there twice. -/
def find? (members : List (String × Json)) (field : Field) : Option Json :=
  match members.filter (·.1 == field.name) with
  | [] => field.absent
  | [(_, j)] => field.format j
  | _ => none

/-- The values of fields that are listed without their names. Fields at the end may be missing only
if they are allowed to be, which `padded` says. -/
def inOrder? (padded : Bool) : List Field → List Json → Option (List Json)
  | [], [] => some []
  | [], _ :: _ => none
  | field :: fields, [] =>
    if padded then do return (← field.absent) :: (← inOrder? padded fields [])
    else none
  | field :: fields, j :: js => do return (← field.format j) :: (← inOrder? padded fields js)

/-- The members of the standard spelling of a record. -/
def members : List Field → List Json → List (String × Json)
  | field :: fields, j :: js =>
    if field.skipsNull && j.isNull then members fields js else (field.name, j) :: members fields js
  | _, _ => []

end Field

/-- A record as an object, in which other members are skipped, or as an array. -/
def recordWith (padded : Bool) (fields : List Field) : Format
  | .obj members => do
    let values ← fields.mapM (Field.find? members)
    return .obj (Field.members fields values)
  | .arr js => do
    let values ← Field.inOrder? padded fields js
    return .obj (Field.members fields values)
  | _ => none

/-- A record whose array has all fields. -/
def record (fields : List Field) : Format :=
  recordWith false fields

/-- One of several alternatives: a name alone, or an object with the name and a content. A name
that stands alone may also be the name of a `null`. -/
def oneOf (alternatives : List (String × Option Format)) : Format
  | .str name =>
    match alternatives.lookup name with
    | some none => some (.str name)
    | _ => none
  | .obj [(name, j)] =>
    match alternatives.lookup name with
    | some none => if j.isNull then some (.str name) else none
    | some (some f) => do return .obj [(name, ← f j)]
    | none => none
  | _ => none

end Format

end AreaMethod
