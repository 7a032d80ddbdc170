/-!
# Numerals

A numeral is a rational number as it is written, with a numerator and a denominator that need not be
in lowest terms: `2/4` and `3/6` are numerals of the same number. All that calculations see of a
numeral is its value, and what they yield is in lowest terms (`ofRat`); a numeral that is only
passed on stays as it is written. Numerals compare equal if and only if they have the same value
(`cmp_eq_iff`), but which of two comes first can depend on how they are written (`cmp`).
-/

namespace AreaMethod

/-- A rational number as it is written. -/
structure Numeral where
  /-- The number. -/
  value : Rat
  /-- What numerator and denominator have in common, negative if the denominator is. -/
  common : Int
  common_ne_zero : common ≠ 0
deriving DecidableEq

namespace Numeral

/-- A number in lowest terms. -/
def ofRat (q : Rat) : Numeral := ⟨q, 1, Int.one_ne_zero⟩

/-- The numerator as it is written. -/
def num (n : Numeral) : Int := n.common * n.value.num

/-- The denominator as it is written. -/
def den (n : Numeral) : Int := n.common * n.value.den

theorem sign_mul_gcd_ne_zero {d : Int} (n : Int) (h : d ≠ 0) :
    d.sign * (Int.gcd n d : Int) ≠ 0 := by
  intro h'
  rcases Int.mul_eq_zero.1 h' with hs | hg
  · exact h (Int.sign_eq_zero_iff_zero.1 hs)
  · exact h (Int.gcd_eq_zero_iff.1 (Int.ofNat_eq_zero.1 hg)).2

/-- The numeral with the given numerator and denominator, if the denominator is not zero. -/
def ofInts? (n d : Int) : Option Numeral :=
  if h : d = 0 then none
  else some ⟨Rat.divInt n d, d.sign * Int.gcd n d, sign_mul_gcd_ne_zero n h⟩

/-- A numeral as text: `3`, `-1/2`, `2/4`. -/
def text (n : Numeral) : String :=
  if n.den = 1 then Int.repr n.num else Int.repr n.num ++ "/" ++ Int.repr n.den

/-- The three-way comparison of numbers. -/
def cmpRat (p q : Rat) : Ordering :=
  if p.blt q then .lt else if q.blt p then .gt else .eq

/-- The three-way comparison of numerals. Those with the same numerator are compared by their
denominators, negative ones below positive ones: of the two with numerator 1 and denominators 2 and
-2, that of the greater value comes first. All others are compared by value. -/
def cmp (m n : Numeral) : Ordering :=
  if m.num = n.num then
    if m.num = 0 then .eq
    else if 0 < m.num then compare n.den m.den
    else compare m.den n.den
  else cmpRat m.value n.value

theorem cmpRat_eq_iff {p q : Rat} : cmpRat p q = .eq ↔ p = q := by
  have irrefl : ∀ r : Rat, r.blt r = false := fun r => Bool.not_eq_true _ ▸ Rat.lt_irrefl
  constructor
  · intro h
    have hpq : p.blt q = false := by
      cases hb : p.blt q <;> simp_all [cmpRat]
    have hqp : q.blt p = false := by
      cases hb : q.blt p <;> simp_all [cmpRat]
    exact Rat.le_antisymm hqp hpq
  · rintro rfl
    simp [cmpRat, irrefl]

theorem num_eq_zero_iff {n : Numeral} : n.num = 0 ↔ n.value = 0 := by
  rw [num, Int.mul_eq_zero, Rat.num_eq_zero]
  exact or_iff_right n.common_ne_zero

/-- Of numerals with the same numerator, other than zero, those of the same value are those with the
same denominator. -/
theorem den_eq_iff {m n : Numeral} (h : m.num = n.num) (h0 : m.num ≠ 0) :
    m.den = n.den ↔ m.value = n.value := by
  constructor
  · intro hd
    have hc : m.common * n.common ≠ 0 := Int.mul_ne_zero m.common_ne_zero n.common_ne_zero
    rw [num, num] at h
    rw [den, den] at hd
    rw [Rat.eq_iff_mul_eq_mul]
    apply Int.eq_of_mul_eq_mul_left hc
    calc m.common * n.common * (m.value.num * n.value.den)
        = (m.common * m.value.num) * (n.common * n.value.den) := by ac_rfl
      _ = (n.common * n.value.num) * (m.common * m.value.den) := by rw [h, hd]
      _ = m.common * n.common * (n.value.num * m.value.den) := by ac_rfl
  · intro hv
    have hn : n.value.num ≠ 0 := fun hz => h0 (by rw [h, num, hz, Int.mul_zero])
    rw [num, num, hv] at h
    rw [den, den, hv, Int.eq_of_mul_eq_mul_right hn h]

/-- Numerals compare equal if they have the same value. -/
theorem cmp_eq_iff {m n : Numeral} : cmp m n = .eq ↔ m.value = n.value := by
  rw [cmp]
  split
  next h =>
    split
    next h0 => simp [num_eq_zero_iff.1 h0, num_eq_zero_iff.1 (h.symm.trans h0)]
    next h0 =>
      split
      · rw [Std.LawfulEqCmp.compare_eq_iff_eq, eq_comm, den_eq_iff h h0]
      · rw [Std.LawfulEqCmp.compare_eq_iff_eq, den_eq_iff h h0]
  next => exact cmpRat_eq_iff

end Numeral

end AreaMethod
