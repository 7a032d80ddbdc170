/-!
# JSON values

The values that stored documents are made of. Numbers are integers: no document holds any other. A
text may still contain values that no document can use, a number with a fraction, say, in a field
that is skipped; all of these are one value, `unreadable`.
-/

namespace AreaMethod

/-- A JSON value. The members of an object are listed in the order they are written, and a name
may occur more than once. -/
inductive Json where
  | null
  | bool (b : Bool)
  | int (n : Int)
  | str (s : String)
  | arr (items : List Json)
  | obj (members : List (String × Json))
  /-- A well-formed value that no document uses: a number with a fraction, an exponent or the
  spelling `-0`, a string with an unpaired surrogate, an object with such a string for a name. -/
  | unreadable

namespace Json

/-- A natural number as a JSON value. -/
def nat (n : Nat) : Json := int n

/-- An optional value, `null` when absent. -/
def option (f : α → Json) : Option α → Json
  | none => null
  | some a => f a

/-- The value of the last member of that name. -/
def member? (name : String) : Json → Option Json
  | obj members => (members.findRev? fun m => m.1 == name).map (·.2)
  | _ => none

end Json

end AreaMethod
