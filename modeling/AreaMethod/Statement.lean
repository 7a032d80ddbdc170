import AreaMethod.Expr.Order
import AreaMethod.Expr.Text

/-!
# Statements

A statement asserts that each of its expressions is zero whatever the figure. Its name is for
readers only: two statements with the same expressions say the same.
-/

namespace AreaMethod

/-- A named list of expressions that are asserted to vanish. -/
structure Statement where
  name : String
  expressions : List Expr

namespace Statement

/-- The statement that one expression vanishes. -/
def zero (name : String) (e : Expr) : Statement := ⟨name, [e]⟩

/-- The statement that two expressions have the same value. -/
def equality (name : String) (l r : Expr) : Statement := zero name (l - r)

/-- The statement that three points lie on a line. -/
def collinear (a b c : Point) : Statement :=
  zero ("collinear " ++ a.tag ++ " " ++ b.tag ++ " " ++ c.tag) (.area a b c)

/-- The statement that the line `ab` is parallel to the line `cd`. -/
def parallel (a b c d : Point) : Statement :=
  zero ("parallel " ++ a.tag ++ b.tag ++ " " ++ c.tag ++ d.tag) (.area a c d - .area b c d)

/-- Do the two statements say the same? -/
def agrees (s t : Statement) : Bool :=
  Expr.sameList s.expressions t.expressions

/-- The distinct points in ascending order. -/
def points (s : Statement) : List Point :=
  ascending (s.expressions.flatMap fun e => e.atomList.flatMap Atom.points)

/-- The statement as text, with the given names of points. -/
def text (name : Point → String) (s : Statement) : String :=
  s.expressions.foldl (fun line e => line ++ " " ++ e.text name ++ " = 0;") (s.name ++ ":")

end Statement

end AreaMethod
