import AreaMethod.Json.Basic

/-!
# Writing JSON

Two layouts of the same value: `compact` on one line, `pretty` with one item a line. Strings
escape quotes, backslashes and control characters and nothing else.
-/

namespace AreaMethod.Json

/-- A hexadecimal digit, in lower case. -/
def hexDigit (n : Nat) : Char :=
  if n < 10 then Char.ofNat (48 + n) else Char.ofNat (87 + n)

/-- A character inside a string literal. -/
def escapeChar (c : Char) : List Char :=
  if c = '"' then ['\\', '"']
  else if c = '\\' then ['\\', '\\']
  else if c = '\n' then ['\\', 'n']
  else if c = '\r' then ['\\', 'r']
  else if c = '\t' then ['\\', 't']
  else if c = '\x08' then ['\\', 'b']
  else if c = '\x0c' then ['\\', 'f']
  else if c.toNat < 32 then ['\\', 'u', '0', '0', hexDigit (c.toNat / 16), hexDigit (c.toNat % 16)]
  else [c]

/-- A string literal. -/
def quote (s : String) : String :=
  "\"" ++ String.ofList (s.toList.flatMap escapeChar) ++ "\""

mutual

/-- A value on one line, without blanks. -/
def compact : Json → String
  | null => "null"
  | bool b => if b then "true" else "false"
  | int n => Int.repr n
  | str s => quote s
  | arr items => "[" ++ ",".intercalate (compactItems items) ++ "]"
  | obj members => "\x7b" ++ ",".intercalate (compactMembers members) ++ "\x7d"
  | unreadable => "null"

def compactItems : List Json → List String
  | [] => []
  | j :: js => j.compact :: compactItems js

def compactMembers : List (String × Json) → List String
  | [] => []
  | (name, j) :: ms => (quote name ++ ":" ++ j.compact) :: compactMembers ms

end

/-- A line break and the indentation of the given depth. -/
def newline (depth : Nat) : String :=
  String.ofList ('\n' :: List.replicate (2 * depth) ' ')

/-- Items one a line between brackets, or just the brackets when there are none. -/
def block (opening closing : String) (depth : Nat) (items : List String) : String :=
  if items.isEmpty then opening ++ closing
  else opening ++ newline (depth + 1) ++ ("," ++ newline (depth + 1)).intercalate items ++
    newline depth ++ closing

mutual

/-- A value with one item a line, at the given depth of indentation. -/
def prettyAt (depth : Nat) : Json → String
  | arr items => block "[" "]" depth (prettyItems (depth + 1) items)
  | obj members => block "\x7b" "\x7d" depth (prettyMembers (depth + 1) members)
  | j => j.compact

def prettyItems (depth : Nat) : List Json → List String
  | [] => []
  | j :: js => j.prettyAt depth :: prettyItems depth js

def prettyMembers (depth : Nat) : List (String × Json) → List String
  | [] => []
  | (name, j) :: ms => (quote name ++ ": " ++ j.prettyAt depth) :: prettyMembers depth ms

end

/-- A value with one item a line. -/
def pretty (j : Json) : String :=
  j.prettyAt 0

end AreaMethod.Json
