import AreaMethod.Json.Token

/-!
# Reading JSON

The second step of reading a JSON text puts the tokens together. Brackets that are still open are
kept on a stack, each with what it holds so far, so the text is read in one pass over its tokens.
-/

namespace AreaMethod.Json

/-- The members of an object, in reverse, unless one of its names is unreadable. -/
abbrev Members := Option (List (String × Json))

/-- An open bracket with what stands in it so far, in reverse. -/
inductive Frame where
  | array (items : List Json)
  /-- The name of the member whose value comes next is known already. -/
  | object (members : Members) (name : Option String)

/-- What the next token may be. -/
inductive Awaiting where
  /-- A value. -/
  | value
  /-- A value, or the end of the array just opened. -/
  | firstItem
  /-- A name. -/
  | name (members : Members)
  /-- A name, or the end of the object just opened. -/
  | firstName
  /-- The colon after a name. -/
  | colon
  /-- A comma, or the end of the innermost bracket. -/
  | separator
  /-- Nothing: the value is complete. -/
  | finished (j : Json)

/-- The open brackets, innermost first, and what may come next. -/
structure Parse where
  frames : List Frame
  awaiting : Awaiting

namespace Parse

/-- The state before the first token. -/
def start : Parse := ⟨[], .value⟩

/-- Adds a member, unless names are unreadable. -/
def addMember (members : Members) (name : Option String) (j : Json) : Members :=
  match members, name with
  | some ms, some n => some ((n, j) :: ms)
  | _, _ => none

/-- An object with the given members. -/
def closeMembers : Members → Json
  | some ms => obj ms.reverse
  | none => unreadable

/-- Takes in a complete value. -/
def complete (frames : List Frame) (j : Json) : Parse :=
  match frames with
  | [] => ⟨[], .finished j⟩
  | .array items :: frames => ⟨.array (j :: items) :: frames, .separator⟩
  | .object members name :: frames =>
    ⟨.object (addMember members name j) none :: frames, .separator⟩

/-- Takes in a token where a value may stand. -/
def value (frames : List Frame) : Token → Option Parse
  | .word j => some (complete frames j)
  | .string (some s) => some (complete frames (str s))
  | .string none => some (complete frames unreadable)
  | .openArray => some ⟨.array [] :: frames, .firstItem⟩
  | .openObject => some ⟨frames, .firstName⟩
  | _ => none

/-- Takes in a token where a name may stand. -/
def name (frames : List Frame) (members : Members) : Token → Option Parse
  | .string s => some ⟨.object members s :: frames, .colon⟩
  | _ => none

/-- Takes in a token after an item or a member. -/
def separator : List Frame → Token → Option Parse
  | .array items :: frames, .comma => some ⟨.array items :: frames, .value⟩
  | .array items :: frames, .closeArray => some (complete frames (arr items.reverse))
  | .object members _ :: frames, .comma => some ⟨frames, .name members⟩
  | .object members _ :: frames, .closeObject => some (complete frames (closeMembers members))
  | _, _ => none

/-- Takes in one token. -/
def next (p : Parse) (t : Token) : Option Parse :=
  match p.awaiting, t with
  | .value, t => value p.frames t
  | .firstItem, .closeArray => separator p.frames t
  | .firstItem, t => value p.frames t
  | .name members, t => name p.frames members t
  | .firstName, .closeObject => some (complete p.frames (obj []))
  | .firstName, t => name p.frames (some []) t
  | .colon, .colon => some { p with awaiting := .value }
  | .separator, t => separator p.frames t
  | _, _ => none

end Parse

/-- Reads a text that holds one value, with blanks around it at most. -/
def parse? (text : String) : Option Json :=
  match tokens? text with
  | none => none
  | some ts =>
    match ts.foldlM Parse.next .start with
    | some ⟨[], .finished j⟩ => some j
    | _ => none

end AreaMethod.Json
