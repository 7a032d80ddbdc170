import AreaMethod.Construction.Symbols

/-!
# Conditions of nondegeneracy

A proof may rely on points being different or lines not being parallel. The conditions a proof
relies on are collected in the order they come up, each once; conditions that say the same are
recognised by a normal form.
-/

namespace AreaMethod

/-- A condition that a proof relies on. -/
inductive Condition where
  /-- The two points are different. -/
  | distinct (a b : Point)
  /-- The lines `ab` and `cd` are not parallel. -/
  | notParallel (a b c d : Point)
deriving DecidableEq

namespace Condition

/-- The condition with its points, and its pairs of points, in ascending order. -/
def normalize : Condition → Condition
  | distinct a b =>
    let (a, b, _) := a.pair b
    distinct a b
  | notParallel a b c d =>
    let (a, b, _) := a.pair b
    let (c, d, _) := c.pair d
    if ((compare a c).then (compare b d)).isLE then notParallel a b c d else notParallel c d a b

/-- The condition as text, with the given names of points. -/
def text (name : Point → String) : Condition → String
  | distinct a b => name a ++ " != " ++ name b
  | notParallel a b c d => name a ++ name b ++ " not parallel to " ++ name c ++ name d

end Condition

/-- A collection of conditions in the order they were added. -/
structure Conditions where
  toList : List Condition

namespace Conditions

/-- No conditions. -/
def empty : Conditions := ⟨[]⟩

/-- Is the condition, in its normal form, among those collected? -/
def contains (cs : Conditions) (c : Condition) : Bool :=
  cs.toList.contains c.normalize

/-- Adds a condition in its normal form, unless it is there. -/
def push (cs : Conditions) (c : Condition) : Conditions :=
  if cs.contains c then cs else ⟨cs.toList ++ [c.normalize]⟩

/-- Adds a condition, and tells whether it is new. -/
def tryPush (cs : Conditions) (c : Condition) : Bool × Conditions :=
  (!cs.contains c, cs.push c)

/-- Adds all conditions of another collection. -/
def extend (cs ds : Conditions) : Conditions :=
  ds.toList.foldl push cs

end Conditions

end AreaMethod
