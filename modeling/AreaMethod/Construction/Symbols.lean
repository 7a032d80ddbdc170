import AreaMethod.Point
import Std.Data.ExtTreeMap

/-!
# Labels

A symbol table gives points and lines their labels. A new label gets the number of labels before
it, so that a table which grew from the empty one by `intern` alone pairs labels and numbers one to
one. A table read from a document may hold any two maps; looking up never assumes more.
-/

namespace AreaMethod

/-- Labels of one sort: the number of each label, and the label of each number. -/
structure Labels where
  numbers : Std.ExtTreeMap String UInt32
  labels : List String

namespace Labels

/-- No labels. -/
def empty : Labels := ⟨∅, []⟩

/-- The number of a label. -/
def number? (t : Labels) (label : String) : Option UInt32 :=
  t.numbers[label]?

/-- The label of a number. -/
def label? (t : Labels) (n : UInt32) : Option String :=
  t.labels[n.toNat]?

/-- How many numbers have labels. -/
def count (t : Labels) : Nat :=
  t.labels.length

/-- The number of a label, which gets the next one if it has none. -/
def intern (t : Labels) (label : String) : UInt32 × Labels :=
  match t.number? label with
  | some n => (n, t)
  | none =>
    let n := t.count.toUInt32
    (n, ⟨t.numbers.insert label n, t.labels ++ [label]⟩)

end Labels

/-- The labels of points and of lines. -/
structure SymbolTable where
  points : Labels
  lines : Labels

namespace SymbolTable

/-- No labels. -/
def empty : SymbolTable := ⟨.empty, .empty⟩

/-- The point of a label. -/
def point? (t : SymbolTable) (label : String) : Option Point :=
  (t.points.number? label).map Point.mk

/-- The line of a label. -/
def line? (t : SymbolTable) (label : String) : Option Line :=
  (t.lines.number? label).map Line.mk

/-- The label of a point. -/
def pointLabel? (t : SymbolTable) (p : Point) : Option String :=
  t.points.label? p.number

/-- The label of a line. -/
def lineLabel? (t : SymbolTable) (l : Line) : Option String :=
  t.lines.label? l.number

/-- The label of a point, or its tag if it has none. -/
def pointName (t : SymbolTable) (p : Point) : String :=
  (t.pointLabel? p).getD p.tag

/-- The label of a line, or its tag if it has none. -/
def lineName (t : SymbolTable) (l : Line) : String :=
  (t.lineLabel? l).getD l.tag

/-- The point of a label, a new one if the label is new. -/
def internPoint (t : SymbolTable) (label : String) : Point × SymbolTable :=
  let (n, points) := t.points.intern label
  (⟨n⟩, { t with points })

/-- The line of a label, a new one if the label is new. -/
def internLine (t : SymbolTable) (label : String) : Line × SymbolTable :=
  let (n, lines) := t.lines.intern label
  (⟨n⟩, { t with lines })

end SymbolTable

end AreaMethod
