import AreaMethod.Expr.Order

/-!
# Orientation

The same quantity can be written in several ways: the area of a triangle changes at most its sign
when its corners are permuted, a Pythagoras difference stays the same when its ends are exchanged,
and a ratio changes its sign with the direction of either segment. `oriented` writes every atom in
one chosen way, replaces atoms that vanish by zero, and arranges the members of sums and products
in ascending order.
-/

namespace AreaMethod

namespace Expr

/-- An atom, or minus one times it. -/
def signed (negative : Bool) (a : Atom) : Expr :=
  if negative then product [minusOne, atom a] else atom a

end Expr

/-- The expression for an atom in its chosen orientation. -/
def Atom.oriented : Atom → Expr
  | area a b c =>
    if a = b ∨ b = c ∨ a = c then .zero
    else
      let (a, b, c, odd) := a.triple b c
      .signed odd (area a b c)
  | pythagoras a b c =>
    if a = b ∨ b = c then .zero
    else
      let (a, c, _) := a.pair c
      .pythagoras a b c
  | ratio a b c d =>
    if a = b then .zero
    else
      let (a, b, s) := a.pair b
      let (c, d, t) := c.pair d
      if a = c ∧ b = d then (if s ^^ t then .minusOne else .one)
      else .signed (s ^^ t) (ratio a b c d)
  | scalar name => .scalar name
  | coordinate p axis => .coordinate p axis

/-- Writes every atom in its chosen orientation and sorts the members of sums and products. -/
def Expr.oriented : Expr → Expr
  | number n => number n
  | atom a => a.oriented
  | product fs => product (sort (fs.map oriented))
  | sum ts => sum (sort (ts.map oriented))
  | fraction n d => fraction n.oriented d.oriented

end AreaMethod
