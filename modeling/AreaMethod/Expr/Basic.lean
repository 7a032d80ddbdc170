import AreaMethod.Ascending
import AreaMethod.Expr.Atom
import AreaMethod.Numeral

/-!
# Expressions

An expression is a tree of rational constants, atoms, sums and products of any number of members,
and fractions. The operators build nodes and nothing else: bringing an expression into a normal
form is the work of the passes in the modules beside this one.

A sum of no terms is zero and a product of no factors is one.
-/

namespace AreaMethod

/-- A symbolic expression over geometric quantities. -/
inductive Expr where
  /-- A rational constant, as it is written. -/
  | number (n : Numeral)
  /-- A geometric quantity. -/
  | atom (a : Atom)
  /-- The product of the factors. -/
  | product (factors : List Expr)
  /-- The sum of the terms. -/
  | sum (terms : List Expr)
  /-- Numerator over denominator. -/
  | fraction (numerator denominator : Expr)

namespace Expr

/-- A rational constant in lowest terms. -/
def rational (q : Rat) : Expr := number (.ofRat q)

/-- The constant zero. -/
def zero : Expr := rational 0

/-- The constant one. -/
def one : Expr := rational 1

/-- The constant minus one. -/
def minusOne : Expr := rational (-1)

def area (a b c : Point) : Expr := atom (.area a b c)

def pythagoras (a b c : Point) : Expr := atom (.pythagoras a b c)

def ratio (a b c d : Point) : Expr := atom (.ratio a b c d)

def scalar (name : String) : Expr := atom (.scalar name)

def coordinate (p : Point) (axis : Axis) : Expr := atom (.coordinate p axis)

instance : Add Expr := ⟨fun e f => sum [e, f]⟩

instance : Neg Expr := ⟨fun e => product [minusOne, e]⟩

instance : Sub Expr := ⟨fun e f => sum [e, -f]⟩

instance : Mul Expr := ⟨fun e f => product [e, f]⟩

instance : Div Expr := ⟨fraction⟩

/-- The product of one and an expression, the shape from which monomials are expanded. -/
def unitProduct (e : Expr) : Expr := product [one, e]

/-- Does the tree show at sight that its value is zero? A sum is recognised only when it has no
terms, so the answer is telling for simplified expressions. -/
def isZero : Expr → Bool
  | number n => n.value == 0
  | atom _ => false
  | product fs => fs.attach.any fun ⟨f, _⟩ => f.isZero
  | sum ts => ts.isEmpty
  | fraction n _ => n.isZero

theorem isZero_product (fs : List Expr) : (product fs).isZero = fs.any isZero := by
  simp [isZero]

/-- Is the expression the constant one? -/
def isOne : Expr → Bool
  | number n => n.value == 1
  | _ => false

/-- A constant as it is written. -/
def number? : Expr → Option Numeral
  | number n => some n
  | _ => none

/-- The expression with all its constants in lowest terms. -/
def reduced : Expr → Expr
  | number n => rational n.value
  | atom a => atom a
  | product fs => product (fs.map reduced)
  | sum ts => sum (ts.map reduced)
  | fraction n d => fraction n.reduced d.reduced

/-- The total of a list of counts. -/
def total (counts : List Nat) : Nat :=
  counts.foldr (· + ·) 0

/-- The number of nodes. -/
def size : Expr → Nat
  | number _ => 1
  | atom _ => 1
  | product fs => 1 + total (fs.map size)
  | sum ts => 1 + total (ts.map size)
  | fraction n d => 1 + n.size + d.size

/-- All atoms of the tree from left to right, with repetitions. -/
def atomList : Expr → List Atom
  | number _ => []
  | atom a => [a]
  | product fs => fs.flatMap atomList
  | sum ts => ts.flatMap atomList
  | fraction n d => n.atomList ++ d.atomList

/-- The distinct atoms in ascending order. -/
def atoms (e : Expr) : List Atom :=
  ascending e.atomList

/-- The distinct points in ascending order. -/
def points (e : Expr) : List Point :=
  ascending (e.atomList.flatMap Atom.points)

/-- Does some atom speak of the point? -/
def mentions (e : Expr) (p : Point) : Bool :=
  e.atomList.any (·.mentions p)

/-- Replaces every atom by an expression and leaves the tree around the atoms as it is. -/
def mapAtoms (f : Atom → Expr) : Expr → Expr
  | number n => number n
  | atom a => f a
  | product fs => product (fs.map (mapAtoms f))
  | sum ts => sum (ts.map (mapAtoms f))
  | fraction n d => fraction (n.mapAtoms f) (d.mapAtoms f)

/-- `mapAtoms` with effects, which take place from left to right, a numerator before its
denominator. -/
def mapAtomsM [Monad m] (f : Atom → m Expr) : Expr → m Expr
  | number n => pure (number n)
  | atom a => f a
  | product fs => product <$> fs.attach.mapM fun ⟨e, _⟩ => e.mapAtomsM f
  | sum ts => sum <$> ts.attach.mapM fun ⟨e, _⟩ => e.mapAtomsM f
  | fraction n d => do
    let n ← n.mapAtomsM f
    let d ← d.mapAtomsM f
    return fraction n d

end Expr

end AreaMethod
