import AreaMethod.Expr.Sum

/-!
# One fraction

`singleFraction` brings a whole expression over one denominator. Equal denominators of a sum are
shared and not multiplied together, and an expression without fractions stays as it is, never
becoming a fraction over one.
-/

namespace AreaMethod.Expr

/-- A product with a factor that may be absent. -/
def timesOption (e : Expr) : Option Expr → Expr
  | none => e
  | some f => multiply [e, f]

/-- The product of the denominators, if there are any. -/
def productOption (ds : List Expr) : Option Expr :=
  if ds.isEmpty then none else some (multiply ds)

/-- Terms over their own denominators, brought over the product of the distinct denominators. -/
def overCommon (parts : List (Expr × Option Expr)) : Expr × Option Expr :=
  let ds := (parts.filterMap (·.2)).eraseDupsBy same
  if ds.isEmpty then (addUp (parts.map (·.1)), none)
  else
    (addUp (parts.map fun p => multiply (p.1 :: ds.filter fun d => !sameOption (some d) p.2)),
      some (multiply ds))

/-- Numerator and denominator of an expression, both without fractions. -/
def overDenominator : Expr → Expr × Option Expr
  | number n => (number n, none)
  | atom a => (atom a, none)
  | product fs =>
    let parts := fs.map overDenominator
    (multiply (parts.map (·.1)), productOption (parts.filterMap (·.2)))
  | sum ts => overCommon (ts.map overDenominator)
  | fraction n d =>
    let (nn, nd) := n.overDenominator
    let (dn, dd) := d.overDenominator
    (timesOption nn dd, some (timesOption dn nd))

/-- Collapses nested fractions and sums of fractions into one fraction. -/
def singleFraction (e : Expr) : Expr :=
  match e.simplify.overDenominator with
  | (n, none) => n
  | (n, some d) => divide n d

/-- The numerator of a fraction, or the expression itself. -/
def numerator : Expr → Expr
  | fraction n _ => n
  | e => e

end AreaMethod.Expr
