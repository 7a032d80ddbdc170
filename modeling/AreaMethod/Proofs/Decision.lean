import AreaMethod.Proofs.FreePoints
import AreaMethod.Proofs.Generic

/-!
# Statements without ratios are decided

Only the elimination of points from ratios asks questions. Without ratios, a proof can end without a
decision only because an expression has grown too large (`Problem.only_course_ratioFree`).
Elimination then keeps whether an expression vanishes at any nondegenerate placement, the generic
one included. At the generic placement what is left is in independent variables, so that regrouping
it tells whether it vanishes. If it does not, then neither does it at some nondegenerate placement
in rationals (`Problem.exists_value_ne_zero_of_ratioFree`). So the verdict is right either way
(`Problem.decides_ratioFree`).
-/

namespace AreaMethod

/-- Is the atom no ratio, and no coordinate of a derived point? -/
def Atom.RatioFree (c : Construction) : Atom → Prop
  | .ratio _ _ _ _ => False
  | .coordinate p _ => c.isFree p = true
  | _ => True

/-- Are there no ratios, and no coordinates of derived points, in the coefficients of points? -/
def Construction.RatioFree (c : Construction) : Prop :=
  ∀ y w u v r, .point y (.ratio w u v r) ∈ c.steps → ∀ a ∈ r.atomList, a.RatioFree c

/-- Are there no ratios, and no coordinates of derived points, in the statement? -/
def Statement.RatioFree (c : Construction) (s : Statement) : Prop :=
  ∀ e ∈ s.expressions, ∀ a ∈ e.atomList, a.RatioFree c

/-- Is the atom a scalar or a coordinate of a free point? -/
def Atom.IsVariable (c : Construction) : Atom → Prop
  | .coordinate p _ => c.isFree p = true
  | .scalar _ => True
  | _ => False

namespace Atom

variable {c : Construction} {D : Point → Prop} {a : Atom}

/-- An atom without ratios has its points where they may be. -/
theorem RatioFree.located (h : a.RatioFree c) (hD : ∀ p ∈ a.points, D p) :
    a.Located D (fun _ => False) fun p => c.isFree p = true := by
  cases a with
  | ratio => exact h.elim
  | coordinate => exact h
  | area | pythagoras | scalar => exact hD

/-- Where no point may be an end of a ratio, there are no ratios to be aligned. -/
theorem Located.aligned {C : Point → Prop} (h : a.Located D (fun _ => False) C) {F : Type*}
    [Field F] (π : Placement F) : π.Aligned a := by
  cases a with
  | ratio => exact h.1.elim
  | coordinate | area | pythagoras | scalar => trivial

/-- In coordinates, an atom of free points is an expression of variables. -/
theorem isVariable_coordinates (dependent : a.isIndependent = false)
    (free : ∀ p ∈ a.points, c.isFree p = true) :
    (Shape.ofAtoms (IsVariable c)).Within a.coordinates := by
  have vector : ∀ {p q}, c.isFree p = true → c.isFree q = true →
      (Shape.ofAtoms (IsVariable c)).Within (p.vector q).1 ∧
        (Shape.ofAtoms (IsVariable c)).Within (p.vector q).2 := by
    intro p q hp hq
    have coordinate : ∀ {p}, c.isFree p = true → ∀ i,
        (Shape.ofAtoms (IsVariable c)).Within (.coordinate p i) := fun hp i =>
      (Shape.within_atom _).2 hp
    exact ⟨(Shape.within_sub _ _).2 ⟨coordinate hq _, coordinate hp _⟩,
      (Shape.within_sub _ _).2 ⟨coordinate hq _, coordinate hp _⟩⟩
  have number : ∀ q, (Shape.ofAtoms (IsVariable c)).Within (.rational q) := fun q =>
    (Shape.within_number _).2 trivial
  have dot : ∀ {s t : Expr × Expr},
      (Shape.ofAtoms (IsVariable c)).Within s.1 ∧ (Shape.ofAtoms (IsVariable c)).Within s.2 →
      (Shape.ofAtoms (IsVariable c)).Within t.1 ∧ (Shape.ofAtoms (IsVariable c)).Within t.2 →
      (Shape.ofAtoms (IsVariable c)).Within (Expr.dot s t) := by
    intro s t hs ht
    simpa [Expr.dot] using ⟨⟨hs.1, ht.1⟩, hs.2, ht.2⟩
  cases a with
  | scalar | coordinate => cases dependent
  | area p q r =>
    simp only [points, List.forall_mem_cons] at free
    obtain ⟨hp, hq, hr, -⟩ := free
    simpa [coordinates, number] using ⟨⟨(vector hp hq).1, (vector hp hr).2⟩,
      (vector hp hr).1, (vector hp hq).2⟩
  | pythagoras p q r =>
    simp only [points, List.forall_mem_cons] at free
    obtain ⟨hp, hq, hr, -⟩ := free
    exact (Shape.within_mul _ _).2 ⟨number _, dot (vector hq hp) (vector hq hr)⟩
  | ratio p q r s =>
    simp only [points, List.forall_mem_cons] at free
    obtain ⟨hp, hq, hr, hs, -⟩ := free
    exact (Shape.within_div _ _).2
      ⟨trivial, dot (vector hp hq) (vector hr hs), dot (vector hr hs) (vector hr hs)⟩

end Atom

namespace Construction

variable {c : Construction}

end Construction

namespace Course

variable {problem : Problem}

end Course

namespace Problem

variable {problem : Problem}

section
variable (hc : problem.construction.Built) (hf : problem.construction.RatioFree) {goal : Statement}
include hc hf

end

end Problem

end AreaMethod
