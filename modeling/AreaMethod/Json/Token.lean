import AreaMethod.Json.Basic

/-!
# JSON tokens

A JSON text is read in two steps. The first one, here, cuts the text into tokens: punctuation,
words, numbers and strings. It looks at one character at a time and keeps what it has seen of the
current token in a `Lexer`.
-/

namespace AreaMethod.Json

/-- A token of a JSON text. -/
inductive Token where
  | openArray
  | closeArray
  | openObject
  | closeObject
  | comma
  | colon
  /-- A string, or one with an unpaired surrogate. -/
  | string (s : Option String)
  /-- A number or one of the words `null`, `true` and `false`. -/
  | word (j : Json)

/-- What of the current token has been seen. Characters are kept in reverse. -/
inductive Fragment where
  /-- Between two tokens. -/
  | none
  /-- In a word or a number. -/
  | word (seen : List Char)
  /-- In a string. -/
  | string (seen : List Nat)
  /-- In a string, after a backslash. -/
  | escape (seen : List Nat)
  /-- In a string, after a backslash, a `u` and some of the four digits of a code unit. -/
  | unit (seen : List Nat) (digits : List Nat)

/-- The tokens found so far, in reverse, and the beginning of the next. -/
structure Lexer where
  found : List Token
  current : Fragment

/-- The value of a hexadecimal digit. -/
def hexValue? (c : Char) : Option Nat :=
  if '0' ≤ c ∧ c ≤ '9' then some (c.toNat - 48)
  else if 'a' ≤ c ∧ c ≤ 'f' then some (c.toNat - 87)
  else if 'A' ≤ c ∧ c ≤ 'F' then some (c.toNat - 55)
  else none

/-- The value of a run of decimal digits. -/
def decimalValue (digits : List Char) : Nat :=
  digits.foldl (fun n c => 10 * n + (c.toNat - 48)) 0

/-- Is the run of digits a numeral: not empty, and without a leading zero unless it is all? -/
def isNumeral : List Char → Bool
  | [] => false
  | ['0'] => true
  | c :: cs => c != '0' && (c :: cs).all Char.isDigit

/-- Is the text after the integer part of a number nothing, or an exponent? -/
def isExponent : List Char → Bool
  | [] => true
  | e :: cs =>
    (e == 'e' || e == 'E') &&
      match cs with
      | '+' :: cs => !cs.isEmpty && cs.all Char.isDigit
      | '-' :: cs => !cs.isEmpty && cs.all Char.isDigit
      | cs => !cs.isEmpty && cs.all Char.isDigit

/-- Is the text after the integer part of a number a fraction, an exponent, or both? -/
def isDecimalTail : List Char → Bool
  | '.' :: cs =>
    let (digits, rest) := cs.span Char.isDigit
    !digits.isEmpty && isExponent rest
  | cs => isExponent cs

/-- A number without its sign. -/
def unsigned? (negative : Bool) (cs : List Char) : Option Json :=
  let (digits, tail) := cs.span Char.isDigit
  if !isNumeral digits then none
  else if tail.isEmpty then
    if negative then
      if digits == ['0'] then some unreadable else some (int (-(decimalValue digits : Int)))
    else some (int (decimalValue digits))
  else if isDecimalTail tail then some unreadable
  else none

/-- The value of a word or number, written without quotes. -/
def word? (cs : List Char) : Option Json :=
  match cs with
  | ['n', 'u', 'l', 'l'] => some null
  | ['t', 'r', 'u', 'e'] => some (bool true)
  | ['f', 'a', 'l', 's', 'e'] => some (bool false)
  | '-' :: cs => unsigned? true cs
  | cs => unsigned? false cs

/-- Is the code unit the first half of a surrogate pair? -/
def isHighSurrogate (u : Nat) : Bool := 0xD800 ≤ u && u < 0xDC00

/-- Is the code unit the second half of a surrogate pair? -/
def isLowSurrogate (u : Nat) : Bool := 0xDC00 ≤ u && u < 0xE000

/-- The characters of a string, surrogate pairs joined; nothing if a surrogate is left alone. -/
def characters? : List Nat → Option (List Char)
  | [] => some []
  | u :: v :: us =>
    if isHighSurrogate u then
      if isLowSurrogate v then
        (characters? us).map (Char.ofNat (0x10000 + (u - 0xD800) * 0x400 + (v - 0xDC00)) :: ·)
      else none
    else if isLowSurrogate u then none
    else (characters? (v :: us)).map (Char.ofNat u :: ·)
  | [u] => if isHighSurrogate u || isLowSurrogate u then none else some [Char.ofNat u]

/-- The text of a string literal. -/
def string? (units : List Nat) : Option String :=
  (characters? units).map String.ofList

/-- The character that a letter after a backslash stands for. -/
def escaped? (c : Char) : Option Nat :=
  match c with
  | '"' => some 34
  | '\\' => some 92
  | '/' => some 47
  | 'b' => some 8
  | 'f' => some 12
  | 'n' => some 10
  | 'r' => some 13
  | 't' => some 9
  | _ => none

namespace Lexer

/-- The lexer at the start of a text. -/
def start : Lexer := ⟨[], .none⟩

/-- Ends the current word or number, if there is one. Inside a string there is no such end. -/
def finishWord (l : Lexer) : Option (List Token) :=
  match l.current with
  | .none => some l.found
  | .word seen => (word? seen.reverse).map fun j => .word j :: l.found
  | _ => none

/-- A character that stands for itself between tokens. -/
def punctuation? (c : Char) : Option Token :=
  match c with
  | '[' => some .openArray
  | ']' => some .closeArray
  | '\x7b' => some .openObject
  | '\x7d' => some .closeObject
  | ',' => some .comma
  | ':' => some .colon
  | _ => none

/-- Is the character one of the blanks between tokens? -/
def isBlank (c : Char) : Bool :=
  c == ' ' || c == '\n' || c == '\r' || c == '\t'

/-- Reads a character outside strings. -/
def outside (l : Lexer) (c : Char) : Option Lexer :=
  if isBlank c then l.finishWord.map (⟨·, .none⟩)
  else match punctuation? c with
    | some t => l.finishWord.map fun found => ⟨t :: found, .none⟩
    | none =>
      if c = '"' then l.finishWord.map (⟨·, .string []⟩)
      else match l.current with
        | .word seen => some { l with current := .word (c :: seen) }
        | _ => some { l with current := .word [c] }

/-- Reads one character. -/
def next (l : Lexer) (c : Char) : Option Lexer :=
  match l.current with
  | .string seen =>
    if c = '"' then some ⟨.string (string? seen.reverse) :: l.found, .none⟩
    else if c = '\\' then some { l with current := .escape seen }
    else if c.toNat < 32 then none
    else some { l with current := .string (c.toNat :: seen) }
  | .escape seen =>
    if c = 'u' then some { l with current := .unit seen [] }
    else (escaped? c).map fun u => { l with current := .string (u :: seen) }
  | .unit seen digits =>
    (hexValue? c).map fun d =>
      match digits with
      | [z, y, x] =>
        { l with current := .string ((((x * 16 + y) * 16 + z) * 16 + d) :: seen) }
      | digits => { l with current := .unit seen (d :: digits) }
  | _ => l.outside c

end Lexer

/-- The tokens of a text, if it can be cut into tokens. -/
def tokens? (text : String) : Option (List Token) :=
  match text.toList.foldlM Lexer.next .start with
  | some l => l.finishWord.map List.reverse
  | none => none

end AreaMethod.Json
