import AreaMethod.Expr.Basic

/-!
# Expressions as text

Expressions are written with the names of their points: `1/2*S[ABC] + [AC/AB]`. A factor that is a
sum or a fraction stands in parentheses, and so do both parts of a fraction.
-/

namespace AreaMethod

/-- A string in parentheses. -/
def parenthesized (s : String) : String :=
  "(" ++ s ++ ")"

/-- An atom as text, with the given names of points. -/
def Atom.text (name : Point → String) : Atom → String
  | area a b c => "S[" ++ name a ++ name b ++ name c ++ "]"
  | pythagoras a b c => "P[" ++ name a ++ name b ++ name c ++ "]"
  | ratio a b c d => "[" ++ name a ++ name b ++ "/" ++ name c ++ name d ++ "]"
  | scalar s => s
  | coordinate p .x => "x_" ++ name p
  | coordinate p .y => "y_" ++ name p

namespace Expr

/-- Does the expression stand in parentheses as a factor? -/
def isCompound : Expr → Bool
  | sum _ => true
  | fraction .. => true
  | _ => false

/-- An expression as text, with the given names of points. -/
def text (name : Point → String) : Expr → String
  | number n => n.text
  | atom a => a.text name
  | product [] => "1"
  | product fs =>
    "*".intercalate (fs.map fun f =>
      if f.isCompound then parenthesized (f.text name) else f.text name)
  | sum [] => "0"
  | sum ts => " + ".intercalate (ts.map (text name))
  | fraction n d => parenthesized (n.text name) ++ "/" ++ parenthesized (d.text name)

end Expr

end AreaMethod
