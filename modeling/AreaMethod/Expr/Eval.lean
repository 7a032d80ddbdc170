import AreaMethod.Expr.Basic

/-!
# Values of expressions

A valuation gives atoms rational values, or none. `eval` extends it to expressions: the value is
undefined as soon as an atom that is asked for has none, or a denominator is zero. A fraction asks
for its denominator first, and no more atoms are asked for once a value is undefined; `consulted`
lists the atoms in the order they are asked for.
-/

namespace AreaMethod.Expr

/-- The value of an operation on two values that may be undefined. -/
def lift (op : Rat → Rat → Rat) : Option Rat → Option Rat → Option Rat
  | some p, some q => some (op p q)
  | _, _ => none

/-- The value of a fraction, undefined if the denominator is zero. -/
def quotient : Option Rat → Option Rat → Option Rat
  | some p, some q => if q == 0 then none else some (p / q)
  | _, _ => none

/-- The value of an expression under a valuation of its atoms. -/
def eval (v : Atom → Option Rat) : Expr → Option Rat
  | number n => some n.value
  | atom a => v a
  | product fs => (fs.map (eval v)).foldr (lift (· * ·)) (some 1)
  | sum ts => (ts.map (eval v)).foldr (lift (· + ·)) (some 0)
  | fraction n d => quotient (n.eval v) (d.eval v)

/-- Strings together what each of several values asked for, up to the first undefined one. -/
def untilUndefined : List (Option Rat × List Atom) → List Atom
  | [] => []
  | (some _, as) :: rest => as ++ untilUndefined rest
  | (none, as) :: _ => as

/-- Is the value defined and not zero? -/
def isNonzero : Option Rat → Bool
  | none => false
  | some q => q != 0

/-- The atoms whose values `eval` asks for, in order and with repetitions. -/
def consulted (v : Atom → Option Rat) : Expr → List Atom
  | number _ => []
  | atom a => [a]
  | product fs => untilUndefined (fs.map fun f => (f.eval v, f.consulted v))
  | sum ts => untilUndefined (ts.map fun t => (t.eval v, t.consulted v))
  | fraction n d => d.consulted v ++ if isNonzero (d.eval v) then n.consulted v else []

end AreaMethod.Expr
