/-!
# Points and lines

The library knows a point or a line by its number alone. What a number stands for is told by a
construction (how the point was made) and by its symbol table (what it is called).
-/

namespace AreaMethod

/-- A point, known by its number. -/
structure Point where
  number : UInt32
deriving DecidableEq

/-- A line, known by its number. Points and lines are numbered independently. -/
structure Line where
  number : UInt32
deriving DecidableEq

namespace Point

instance : Ord Point := ⟨fun p q => compare p.number q.number⟩

instance : LT Point := ⟨fun p q => p.number < q.number⟩

instance (p q : Point) : Decidable (p < q) :=
  inferInstanceAs (Decidable (p.number < q.number))

/-- The name of a point that has no label. -/
def tag (p : Point) : String :=
  "P" ++ Nat.repr p.number.toNat

/-- Two points in ascending order, and whether they had to be exchanged. -/
def pair (p q : Point) : Point × Point × Bool :=
  if q < p then (q, p, true) else (p, q, false)

/-- Three points in ascending order, and whether the permutation that takes them there is odd. -/
def triple (p q r : Point) : Point × Point × Point × Bool :=
  let (p, q, s) := p.pair q
  let (q, r, t) := q.pair r
  let (p, q, u) := p.pair q
  (p, q, r, s ^^ t ^^ u)

/-- The points are compared by number, so only a point itself compares equal to it. -/
theorem compare_eq_iff {p q : Point} : compare p q = .eq ↔ p = q := by
  cases p; cases q
  simp [compare, compareOfLessAndEq]
  grind [UInt32.lt_irrefl]

end Point

namespace Line

/-- The name of a line that has no label. -/
def tag (l : Line) : String :=
  "L" ++ Nat.repr l.number.toNat

end Line

end AreaMethod
