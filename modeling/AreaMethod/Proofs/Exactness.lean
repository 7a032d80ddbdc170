import AreaMethod.Proofs.Oracle

/-!
# Replacing atoms by what has their value

Two passes replace atoms and leave the tree around them as it is: areas of flat triangles become
zero, and quantities of free points become expressions in coordinates. Such a pass is exact if each
replacement has the value of its atom, and none where the atom has none (`Rebuilt.eval_eq`): then
the outcome has the value of the expression, and none where the expression has none.

Flat triangles are dropped exactly wherever the points lie where their definitions say, also where
lines are not lines any more and different points coincide (`flattened_exact`). Going over to
coordinates is exact at every placement, whatever the oracle says about segments being parallel
(`inCoordinates_exact`).
-/

namespace AreaMethod

namespace Expr

variable {v w : Atom → Option Rat}

/-- Values depend on those of the atoms that occur. -/
theorem eval_congr {e : Expr} (h : ∀ a ∈ e.atomList, v a = w a) : e.eval v = e.eval w := by
  obtain ⟨value, defined⟩ := value_congr h
  refine Option.ext fun q => ?_
  rw [eval_eq_some_iff, eval_eq_some_iff, value, defined]

/-- What keeps the value of an expression is exact if it has no value where the expression has
none. -/
theorem Keeps.eval_eq {e f : Expr} (h : Keeps v e f) (defined : f.DefinedAt v → e.DefinedAt v) :
    f.eval v = e.eval v := by
  refine Option.ext fun q => ?_
  rw [eval_eq_some_iff, eval_eq_some_iff]
  constructor
  · rintro ⟨hf, rfl⟩
    exact ⟨defined hf, (h (defined hf)).2.symm⟩
  · rintro ⟨he, rfl⟩
    exact h he

/-- Replacing atoms is exact if every replacement is. -/
theorem Rebuilt.eval_eq {R : Atom → Expr → Prop} (hR : ∀ a g, R a g → g.eval w = v a) {e f : Expr}
    (h : Rebuilt R e f) : f.eval w = e.eval v := by
  have members : ∀ {es fs : List Expr}, List.Forall₂ (fun e f => f.eval w = e.eval v) es fs →
      fs.map (eval w) = es.map (eval v) := by
    intro es fs h
    induction h with
    | nil => rfl
    | cons hf _ ih => rw [List.map_cons, List.map_cons, hf, ih]
  induction e using ind generalizing f with
  | number n =>
    cases h
    rw [eval, eval]
  | atom a =>
    cases h with
    | atom h => rw [hR a f h, eval]
  | product fs ih =>
    cases h with
    | product h => rw [eval, eval, members (forall₂_of_mem h fun e he f => ih e he)]
  | sum ts ih =>
    cases h with
    | sum h => rw [eval, eval, members (forall₂_of_mem h fun e he f => ih e he)]
  | fraction n d ihn ihd =>
    cases h with
    | fraction hn hd => rw [eval, eval, ihn hn, ihd hd]

/-- The atoms after a replacement are those that the atoms are replaced by. -/
theorem atomList_mapAtoms (f : Atom → Expr) (e : Expr) :
    (e.mapAtoms f).atomList = e.atomList.flatMap fun a => (f a).atomList := by
  induction e using ind with
  | number n => simp [mapAtoms, atomList]
  | atom a => simp [mapAtoms, atomList]
  | product fs ih | sum ts ih =>
    rw [mapAtoms, atomList, atomList, List.flatMap_map, List.flatMap_assoc,
      List.flatMap_congr ih]
  | fraction n d ihn ihd => rw [mapAtoms, atomList, atomList, ihn, ihd, List.flatMap_append]

/-! ## Flat triangles -/

/-- The areas of flat triangles go, and all other atoms stay. -/
theorem atomList_flattened (k : CollinearSet) (e : Expr) :
    (e.flattened k).atomList = e.atomList.filter fun a => !a.isFlat k := by
  rw [flattened, atomList_mapAtoms]
  induction e.atomList with
  | nil => rfl
  | cons a as ih =>
    rw [List.flatMap_cons, ih]
    by_cases h : a.isFlat k = true <;> simp [h, zero, rational, atomList]

/-- Dropping flat triangles is exact where what is taken to be collinear is so. -/
theorem eval_flattened {k : CollinearSet} {π : Placement ℚ} (hk : k.Sound π) (e : Expr) :
    (e.flattened k).eval π.atom = e.eval π.atom := by
  refine (rebuilt_mapAtoms _ e).eval_eq ?_
  rintro a _ rfl
  split
  next hflat =>
    rw [atom_of_isFlat hk hflat]
    exact eval_eq_some_iff.2 ⟨definedAt_zero _, value_zero _⟩
  next => rw [eval]

/-- Wherever the points of a construction lie where their definitions say, all that is found to be
collinear is so, and dropping the triangles that are flat by it is exact: the value stays the same,
and stays undefined where it is. Nothing is lost but those triangles. -/
theorem flattened_exact {c : Construction} {π : Placement ℚ}
    (incident : ∀ q ∈ c.points, π.Incident q.1 q.2) :
    (∀ t ∈ (CollinearSet.ofConstruction c).known, π.area t.a t.b t.c = 0) ∧
      ∀ e : Expr,
        (e.flattened (.ofConstruction c)).eval π.atom = e.eval π.atom ∧
        (e.flattened (.ofConstruction c)).atomList =
          e.atomList.filter fun a => !a.isFlat (.ofConstruction c) := by
  have sound := CollinearSet.sound_of_incident incident
  exact ⟨sound, fun e => ⟨eval_flattened sound e, atomList_flattened _ e⟩⟩

end Expr

/-- Two lines with an intersection, and a point measured from there along the first line. -/
def Construction.alongFromCrossing : Construction where
  symbols := .empty
  steps := [.point ⟨0⟩ .free, .point ⟨1⟩ .free, .point ⟨2⟩ .free, .point ⟨3⟩ .free,
    .point ⟨4⟩ .free, .point ⟨5⟩ (.intersection ⟨0⟩ ⟨1⟩ ⟨2⟩ ⟨3⟩),
    .point ⟨6⟩ (.ratio ⟨5⟩ ⟨0⟩ ⟨1⟩ (.rational (1 / 2)))]

/-- All points but one are in a row, so that the two lines are the same. -/
def Placement.oneLine : Placement ℚ where
  coordinate p
    | .x => [0, 2, 4, 6, 0, 1, 2].getD p.number.toNat 0
    | .y => [0, 0, 0, 0, 1, 0, 0].getD p.number.toNat 0
  scalar _ := 0

/-- A sum with a flat triangle, over a triangle that is none. -/
def Expr.overTriangle : Expr :=
  .fraction (.sum [.area ⟨5⟩ ⟨6⟩ ⟨0⟩, .area ⟨0⟩ ⟨4⟩ ⟨6⟩]) (.area ⟨4⟩ ⟨0⟩ ⟨5⟩)

/-- A triangle over a flat one. -/
def Expr.overFlatTriangle : Expr :=
  .fraction (.area ⟨0⟩ ⟨4⟩ ⟨6⟩) (.area ⟨5⟩ ⟨6⟩ ⟨0⟩)

/-- Over a triangle the sum keeps its value, and over a flat one it has none before or after. -/
theorem Expr.overTriangle_flattened_exact :
    (∀ q ∈ Construction.alongFromCrossing.points, Placement.oneLine.Incident q.1 q.2) ∧
      overTriangle.eval Placement.oneLine.atom = some (-2) ∧
      (overTriangle.flattened (.ofConstruction .alongFromCrossing)).eval
        Placement.oneLine.atom = some (-2) ∧
      overFlatTriangle.eval Placement.oneLine.atom = none ∧
      (overFlatTriangle.flattened (.ofConstruction .alongFromCrossing)).eval
        Placement.oneLine.atom = none := by
  have incident :
      ∀ q ∈ Construction.alongFromCrossing.points, Placement.oneLine.Incident q.1 q.2 := by
    have crossing : Placement.oneLine.Parallel ⟨0⟩ ⟨1⟩ ⟨0⟩ ⟨5⟩ ∧
        Placement.oneLine.Parallel ⟨2⟩ ⟨3⟩ ⟨2⟩ ⟨5⟩ := by decide +kernel
    have along : ∀ i, Placement.oneLine.coordinate ⟨6⟩ i = Placement.oneLine.coordinate ⟨5⟩ i +
        2⁻¹ * (Placement.oneLine.coordinate ⟨1⟩ i - Placement.oneLine.coordinate ⟨0⟩ i) := by
      intro i
      cases i <;> decide +kernel
    simpa [Construction.points, Construction.alongFromCrossing, Step.point?, Placement.Incident]
      using ⟨crossing, along⟩
  obtain ⟨-, exact⟩ := flattened_exact incident
  have value : overTriangle.eval Placement.oneLine.atom = some (-2) := by cbv
  have undefined : overFlatTriangle.eval Placement.oneLine.atom = none := by cbv
  exact ⟨incident, value, (exact _).1.trans value, undefined, (exact _).1.trans undefined⟩

/-! ## Coordinates -/

/-- The values of scalars and coordinates, and of no other atoms. -/
def Placement.independent (π : Placement ℚ) (a : Atom) : Option ℚ :=
  if a.isIndependent then π.atom a else none

/-- In coordinates there are only independent variables. -/
theorem Atom.isIndependent_coordinates (a : Atom) :
    ∀ b ∈ a.coordinates.atomList, b.isIndependent = true := by
  refine Shape.within_ofAtoms_iff.1 ?_
  cases a <;> simp [coordinates, Point.vector, Expr.dot, Expr.coordinate, Shape.ofAtoms,
    isIndependent]

namespace Expr

variable {σ : Type} {oracle : Oracle σ} {c : Construction}

/-- An atom in coordinates has the same value, and none where the atom has none. -/
theorem eval_coordinates (π : Placement ℚ) (a : Atom) :
    a.coordinates.eval π.atom = π.atom a := by
  have exact : a.coordinates.eval π.atom = (atom a).eval π.atom := by
    refine (coordinates_keeps a).eval_eq fun h => ?_
    cases a with
    | ratio a b c d =>
      rw [Atom.coordinates, definedAt_div, (dot_vector_keeps π c d c d).2] at h
      have apart : ¬π.Coincide c d := mt Placement.dot_self_eq_zero_iff.2 h.2.2
      simp [Placement.atom, apart]
    | area | pythagoras | scalar | coordinate => simp [Placement.atom]
  rw [exact, eval]

/-- Going over to coordinates is exact. At every placement the outcome has the value of the
expression, and none where the expression has none, though it is a value of scalars and coordinates
alone. -/
theorem inCoordinates_exact {e r : Expr} {m m' : σ} {cs cs' : Conditions}
    (h : ((e.inCoordinates c).consult oracle).run (m, cs) = (.ok r, m', cs')) (π : Placement ℚ) :
    r.eval π.independent = e.eval π.atom := by
  obtain ⟨-, leads⟩ := Inquiry.leads_of_consult h
  refine (rebuilt_of_leads leads).eval_eq fun a g hg => ?_
  rcases Atom.leads_inCoordinates hg with ⟨independent, rfl⟩ | ⟨-, -, rfl⟩
  · rw [eval, Placement.independent, if_pos independent]
  · rw [← eval_coordinates π a]
    refine eval_congr fun b hb => ?_
    rw [Placement.independent, if_pos (a.isIndependent_coordinates b hb)]

end Expr

/-- Four free points. -/
def Construction.fourFree : Construction :=
  .after [.free "A", .free "B", .free "C", .free "D"]

/-- Two segments that are not parallel. -/
def Placement.askew : Placement ℚ where
  coordinate p
    | .x => [1, 2, 0, 2].getD p.number.toNat 0
    | .y => [0, 1, 0, 0].getD p.number.toNat 0
  scalar _ := 3

/-- The oracle that affirms everything, and counts what it is asked. -/
def Oracle.affirming : Oracle Nat := fun _ _ m => (.ok true, m + 1)

/-- A Pythagoras difference over a coordinate, an area times a ratio, and a scalar. -/
def Expr.ofFourFree : Expr :=
  .sum [.product [.area ⟨0⟩ ⟨1⟩ ⟨2⟩, .ratio ⟨0⟩ ⟨1⟩ ⟨2⟩ ⟨3⟩],
    .fraction (.pythagoras ⟨0⟩ ⟨1⟩ ⟨2⟩) (.coordinate ⟨0⟩ .x), .scalar "s"]

/-- The same in coordinates. -/
def Expr.ofFourFreeInCoordinates : Expr :=
  .sum [.product [(Atom.area ⟨0⟩ ⟨1⟩ ⟨2⟩).coordinates, (Atom.ratio ⟨0⟩ ⟨1⟩ ⟨2⟩ ⟨3⟩).coordinates],
    .fraction (Atom.pythagoras ⟨0⟩ ⟨1⟩ ⟨2⟩).coordinates (.coordinate ⟨0⟩ .x), .scalar "s"]

/-- The oracle is wrong about the one thing it is asked, and still the value is the same. -/
theorem Expr.ofFourFree_inCoordinates_exact :
    ((ofFourFree.inCoordinates .fourFree).consult .affirming).run (0, .empty) =
        (.ok ofFourFreeInCoordinates, 1, .empty) ∧
      ¬Placement.askew.Parallel ⟨0⟩ ⟨1⟩ ⟨2⟩ ⟨3⟩ ∧
      ofFourFree.eval Placement.askew.atom = some (37 / 4) ∧
      ofFourFreeInCoordinates.eval Placement.askew.independent = some (37 / 4) := by
  have run : ((ofFourFree.inCoordinates .fourFree).consult .affirming).run (0, .empty) =
      (.ok ofFourFreeInCoordinates, 1, .empty) := by cbv
  have value : ofFourFree.eval Placement.askew.atom = some (37 / 4) := by cbv
  exact ⟨run, by decide +kernel, value, (inCoordinates_exact run _).trans value⟩

end AreaMethod
