import AreaMethod.Expr.LikeTerms

/-!
# Polynomials

Multiplied out, an expression is a list of monomials, each a rational coefficient and a list of
factors that are atoms or fractions. As an expression the list is a sum of products that each start
with their coefficient; zero is the sum of no terms. `expanded` multiplies out, `grouped` merges
the monomials with equal factors as well, and `expansionTerms` bounds beforehand how many monomials
there will be.
-/

namespace AreaMethod

/-- A rational coefficient in front of a list of factors. -/
structure Monomial where
  coefficient : Numeral
  factors : List Expr

namespace Monomial

/-- The constant one. -/
def one : Monomial := ⟨.ofRat 1, []⟩

/-- The product of two monomials, with the factors in the order they come. -/
def mul (m n : Monomial) : Monomial :=
  ⟨.ofRat (m.coefficient.value * n.coefficient.value), m.factors ++ n.factors⟩

/-- The monomial with its factors in ascending order. -/
def sorted (m : Monomial) : Monomial :=
  ⟨m.coefficient, Expr.sort m.factors⟩

/-- The product that starts with the coefficient. -/
def toExpr (m : Monomial) : Expr :=
  .product (.number m.coefficient :: m.factors)

end Monomial

namespace Expr

/-- The sum of monomials. -/
def ofMonomials (ms : List Monomial) : Expr :=
  sum (ms.map Monomial.toExpr)

/-- All products of a monomial of the first list and one of the second. -/
def cross (ms ns : List Monomial) : List Monomial :=
  ms.flatMap fun m => ns.map m.mul

/-- The monomials of an expression. A fraction counts as one factor, expanded within. Once a factor
of a product has no monomials, the factors after it do not matter. -/
def expand : Expr → List Monomial
  | number n => if n.value == 0 then [] else [⟨n, []⟩]
  | atom a => [⟨.ofRat 1, [atom a]⟩]
  | product fs =>
    (fs.foldl (fun ms f => if ms.isEmpty then [] else cross ms f.expand) [.one]).map .sorted
  | sum ts => ts.flatMap expand
  | fraction n d => [⟨.ofRat 1, [fraction (ofMonomials n.expand) (ofMonomials d.expand)]⟩]

/-- Distributes products over sums. -/
def expanded (e : Expr) : Expr :=
  ofMonomials e.expand

/-- Is the expression an atom or a fraction, and so a factor that is not multiplied out? -/
def isFactor : Expr → Bool
  | atom _ => true
  | fraction .. => true
  | _ => false

/-- The monomial that a product stands for, if it starts with a coefficient followed by factors in
ascending order. -/
def monomial? : Expr → Option Monomial
  | product (number c :: fs) => if fs.all isFactor && isAscending fs then some ⟨c, fs⟩ else none
  | _ => none

/-- The monomials of an expression that is a sum of monomials already. -/
def monomials? : Expr → Option (List Monomial)
  | sum ts => ts.mapM monomial?
  | _ => none

/-- Merges the monomials whose factors agree, after multiplying out where that is needed. -/
def grouped (e : Expr) : Expr :=
  let ms := e.monomials?.getD e.expand
  let terms := collect cmpList (ms.map fun m => (m.factors, m.coefficient.value))
  ofMonomials (terms.map fun t => ⟨.ofRat t.2, t.1⟩)

/-- The largest count that `expansionTerms` reports. -/
def countCeiling : Nat := 18446744073709551615

/-- An upper bound on the number of monomials, itself cut off at `countCeiling`. -/
def expansionTerms : Expr → Nat
  | number _ => 1
  | atom _ => 1
  | product fs => (fs.map expansionTerms).foldl (fun n k => min (n * k) countCeiling) 1
  | sum ts => (ts.map expansionTerms).foldl (fun n k => min (n + k) countCeiling) 0
  | fraction .. => 1

end Expr

end AreaMethod
