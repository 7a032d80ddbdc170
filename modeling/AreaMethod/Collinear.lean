import AreaMethod.Construction.Basic
import AreaMethod.Expr.Order

/-!
# Collinear points

Some triples of points of a construction lie on a line whatever the figure: an intersection lies on
both its lines, a foot on its line, and a point given by a ratio on the line `UV` as soon as `W`
does. `ofConstruction` applies these rules until they yield nothing new. Each round but the last
adds a triple that some rule concludes, and there are only so many of those.
-/

namespace AreaMethod

/-- A set of three points, listed in ascending order. -/
structure Triple where
  a : Point
  b : Point
  c : Point
deriving DecidableEq

namespace Triple

/-- The triple of three points. -/
def of (p q r : Point) : Triple :=
  let (a, b, c, _) := p.triple q r
  ⟨a, b, c⟩

/-- The triple of three points, if they are different. -/
def of? (p q r : Point) : Option Triple :=
  if p = q ∨ q = r ∨ p = r then none else some (of p q r)

instance : Ord Triple :=
  ⟨fun s t => (compare s.a t.a).then ((compare s.b t.b).then (compare s.c t.c))⟩

end Triple

/-- A set of triples that are known to be collinear. -/
structure CollinearSet where
  known : List Triple

namespace CollinearSet

/-- No triples. -/
def empty : CollinearSet := ⟨[]⟩

/-- The number of triples. -/
def size (k : CollinearSet) : Nat :=
  k.known.length

/-- Is the triple known? -/
def has (k : CollinearSet) (t : Triple) : Bool :=
  k.known.contains t

/-- Are the points known to be collinear? -/
def contains (k : CollinearSet) (p q r : Point) : Bool :=
  k.has (.of p q r)

/-- Adds a triple. -/
def add (k : CollinearSet) (t : Triple) : CollinearSet :=
  if k.has t then k else ⟨k.known ++ [t]⟩

/-- Adds the triple of three points if they are different. -/
def insert (k : CollinearSet) (p q r : Point) : CollinearSet :=
  (Triple.of? p q r).elim k k.add

/-- Adds the triple of three points if they are different, and tells whether it is new. -/
def tryInsert (k : CollinearSet) (p q r : Point) : Bool × CollinearSet :=
  ((Triple.of? p q r).any (!k.has ·), k.insert p q r)

/-- The triples in ascending order. -/
def triples (k : CollinearSet) : List Triple :=
  ascending k.known

/-- A rule: if the premise is known, or there is none, the conclusions hold. -/
structure Rule where
  premise : Option Triple
  conclusions : List Triple

/-- The rule that a point of a construction gives rise to. -/
def Rule.ofPoint (y : Point) : PointKind → Rule
  | .free => ⟨none, []⟩
  | .intersection u v p q => ⟨none, [Triple.of? u v y, Triple.of? p q y].filterMap id⟩
  | .foot _ u v => ⟨none, [Triple.of? u v y].filterMap id⟩
  | .ratio w u v _ =>
    ⟨if w = u ∨ w = v then none else some (.of w u v),
      [Triple.of? u v y, Triple.of? u w y, Triple.of? v w y].filterMap id⟩

/-- The rules of a construction. -/
def rules (c : Construction) : List Rule :=
  c.points.map fun (y, kind) => .ofPoint y kind

/-- Applies a rule. -/
def apply (k : CollinearSet) (r : Rule) : CollinearSet :=
  if r.premise.all k.has then r.conclusions.foldl add k else k

/-- Applies every rule once, one after another. -/
def round (rs : List Rule) (k : CollinearSet) : CollinearSet :=
  rs.foldl apply k

/-- How many conclusions of the rules are not known. -/
def missing (rs : List Rule) (k : CollinearSet) : Nat :=
  (rs.flatMap Rule.conclusions).countP (!k.has ·)

/-- What `k'` knows beyond `k` is among the given triples. -/
def Grows (ts : List Triple) (k k' : CollinearSet) : Prop :=
  ∃ new, k'.known = k.known ++ new ∧ ∀ t ∈ new, t ∈ ts ∧ k.has t = false

theorem Grows.refl (ts : List Triple) (k : CollinearSet) : Grows ts k k :=
  ⟨[], by simp⟩

theorem Grows.trans {ts : List Triple} {k₁ k₂ k₃ : CollinearSet}
    (h₁ : Grows ts k₁ k₂) (h₂ : Grows ts k₂ k₃) : Grows ts k₁ k₃ := by
  obtain ⟨new₁, e₁, n₁⟩ := h₁
  obtain ⟨new₂, e₂, n₂⟩ := h₂
  refine ⟨new₁ ++ new₂, by rw [e₂, e₁, List.append_assoc], fun t ht => ?_⟩
  rcases List.mem_append.1 ht with ht | ht
  · exact n₁ t ht
  · refine ⟨(n₂ t ht).1, ?_⟩
    have := (n₂ t ht).2
    rw [has, e₁, List.contains_eq_mem, decide_eq_false_iff_not] at this
    rw [has, List.contains_eq_mem, decide_eq_false_iff_not]
    exact fun h => this (List.mem_append_left _ h)

theorem grows_add {ts : List Triple} (k : CollinearSet) {t : Triple} (ht : t ∈ ts) :
    Grows ts k (k.add t) := by
  rw [add]
  split
  · exact .refl ts k
  · refine ⟨[t], rfl, fun u hu => ?_⟩
    rw [List.mem_singleton.1 hu]
    exact ⟨ht, Bool.eq_false_iff.2 ‹_›⟩

theorem grows_foldl_add {ts us : List Triple} (h : ∀ t ∈ us, t ∈ ts) (k : CollinearSet) :
    Grows ts k (us.foldl add k) := by
  induction us generalizing k with
  | nil => exact .refl ts k
  | cons u us ih =>
    exact (grows_add k (h u (by simp))).trans (ih (fun t ht => h t (by simp [ht])) (k.add u))

theorem grows_round {ts : List Triple} {rs : List Rule}
    (h : ∀ r ∈ rs, ∀ t ∈ r.conclusions, t ∈ ts) (k : CollinearSet) : Grows ts k (round rs k) := by
  induction rs generalizing k with
  | nil => exact .refl ts k
  | cons r rs ih =>
    refine .trans ?_ (ih (fun r hr => h r (by simp [hr])) (k.apply r))
    rw [apply]
    split
    · exact grows_foldl_add (h r (by simp)) k
    · exact .refl ts k

theorem countP_lt {p q : α → Bool} {l : List α} (h : ∀ x, p x = true → q x = true) {a : α}
    (ha : a ∈ l) (hq : q a = true) (hp : p a = false) : l.countP p < l.countP q := by
  induction l with
  | nil => simp at ha
  | cons b l ih =>
    have mono : l.countP p ≤ l.countP q := List.countP_mono_left fun x _ => h x
    have step : (if p b = true then 1 else 0) ≤ if q b = true then 1 else 0 := by
      by_cases hpb : p b = true
      · exact Nat.le_of_eq (by rw [if_pos hpb, if_pos (h b hpb)])
      · exact if_neg hpb ▸ Nat.zero_le _
    rw [List.countP_cons, List.countP_cons]
    rcases List.mem_cons.1 ha with rfl | ha
    · rw [if_pos hq, if_neg (Bool.eq_false_iff.1 hp)]
      omega
    · have := ih ha
      omega

/-- A round that adds anything adds one of the missing conclusions. -/
theorem missing_round_lt {rs : List Rule} {k : CollinearSet}
    (h : ¬(round rs k).size = k.size) : missing rs (round rs k) < missing rs k := by
  have within : ∀ r ∈ rs, ∀ t ∈ r.conclusions, t ∈ rs.flatMap Rule.conclusions :=
    fun r hr t ht => List.mem_flatMap.2 ⟨r, hr, ht⟩
  obtain ⟨new, e, n⟩ := grows_round within k
  match new, e, n with
  | [], e, _ => exact absurd (by rw [size, e, List.append_nil, size]) h
  | t :: new, e, n =>
    refine countP_lt (a := t) (fun u hu => ?_) (n t (by simp)).1 (by simp [(n t (by simp)).2]) ?_
    · rw [has, e, List.contains_eq_mem] at hu
      rw [has, List.contains_eq_mem]
      simp_all
    · rw [has, e, List.contains_eq_mem]
      simp

/-- Applies the rules round after round until a round adds nothing. The result comes with the number
of rounds. -/
def close (rs : List Rule) (k : CollinearSet) : CollinearSet × Nat :=
  if (round rs k).size = k.size then (k, 1)
  else
    let (final, rounds) := close rs (round rs k)
    (final, rounds + 1)
termination_by missing rs k
decreasing_by exact missing_round_lt ‹_›

/-- The triples that a construction makes collinear, with the number of rounds it takes to find
them. -/
def search (c : Construction) : CollinearSet × Nat :=
  close (rules c) empty

/-- The triples that a construction makes collinear. -/
def ofConstruction (c : Construction) : CollinearSet :=
  (search c).1

end CollinearSet

namespace Atom

/-- Is the atom the area of a triangle known to be flat? -/
def isFlat (k : CollinearSet) : Atom → Bool
  | area a b c => a = b || b = c || a = c || k.contains a b c
  | _ => false

end Atom

/-- Replaces the areas of flat triangles by zero. -/
def Expr.flattened (k : CollinearSet) (e : Expr) : Expr :=
  e.mapAtoms fun a => if a.isFlat k then zero else atom a

end AreaMethod
