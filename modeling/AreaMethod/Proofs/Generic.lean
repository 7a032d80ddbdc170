import AreaMethod.Proofs.Construction
import AreaMethod.Proofs.Placement

/-!
# The generic placement

With the free coordinates and the scalars as variables, a construction has one placement in rational
functions, the generic one, in which every derived point is where its definition puts it. What holds
there holds at the placements in rationals, and conversely:

* if there is a nondegenerate placement at all, then the generic one is nondegenerate, and every
  value at the former is what the value at the latter comes to (`SpecializesTo.value`);
* what does not vanish at the generic placement does not vanish at some nondegenerate placement
  (`exists_nondegenerate_value_ne_zero`), since a polynomial other than zero does not vanish
  everywhere.
-/

namespace AreaMethod

open MvPolynomial Filter

/-! ## Values of rational functions -/

/-- The rational function has the given value where the variables have theirs. -/
def Specializes (ρ : Atom → ℚ) (f : RationalFunction) (q : ℚ) : Prop :=
  ∃ n d : MvPolynomial Atom ℚ, eval ρ d ≠ 0 ∧
    f * algebraMap _ RationalFunction d = algebraMap _ RationalFunction n ∧
    q * eval ρ d = eval ρ n

namespace Specializes

variable {ρ : Atom → ℚ} {f g : RationalFunction} {p q : ℚ}

variable (ρ) in
/-- A polynomial has its own value. -/
theorem of_polynomial (n : MvPolynomial Atom ℚ) :
    Specializes ρ (algebraMap _ RationalFunction n) (eval ρ n) :=
  ⟨n, 1, by simp, by simp, by simp⟩

variable (ρ) in
/-- A variable has the value that is chosen for it. -/
theorem of_variable (a : Atom) : Specializes ρ (.variable a) (ρ a) := by
  simpa [RationalFunction.variable] using of_polynomial ρ (X a)

variable (ρ) in
/-- A constant has itself for a value. -/
theorem of_rational (q : ℚ) : Specializes ρ (q : RationalFunction) q := by
  have hq : algebraMap (MvPolynomial Atom ℚ) RationalFunction (C q) = (q : RationalFunction) :=
    eq_ratCast ((algebraMap (MvPolynomial Atom ℚ) RationalFunction).comp C) q
  simpa [hq] using of_polynomial ρ (C q)

/-- The value of a sum is the sum of the values. -/
theorem add (hf : Specializes ρ f p) (hg : Specializes ρ g q) : Specializes ρ (f + g) (p + q) := by
  obtain ⟨n, d, hd, hf, hp⟩ := hf
  obtain ⟨m, e, he, hg, hq⟩ := hg
  refine ⟨n * e + m * d, d * e, by simp [hd, he], ?_, ?_⟩
  · simp only [map_add, map_mul, ← hf, ← hg]
    ring
  · simp only [map_add, map_mul, ← hp, ← hq]
    ring

/-- The value of a product is the product of the values. -/
theorem mul (hf : Specializes ρ f p) (hg : Specializes ρ g q) : Specializes ρ (f * g) (p * q) := by
  obtain ⟨n, d, hd, hf, hp⟩ := hf
  obtain ⟨m, e, he, hg, hq⟩ := hg
  refine ⟨n * m, d * e, by simp [hd, he], ?_, ?_⟩
  · simp only [map_mul, ← hf, ← hg]
    ring
  · simp only [map_mul, ← hp, ← hq]
    ring

/-- Changing the sign of a function changes that of its value. -/
theorem neg (hf : Specializes ρ f p) : Specializes ρ (-f) (-p) := by
  simpa using (of_rational ρ (-1)).mul hf

/-- The value of a difference is the difference of the values. -/
theorem sub (hf : Specializes ρ f p) (hg : Specializes ρ g q) : Specializes ρ (f - g) (p - q) := by
  simpa [sub_eq_add_neg] using hf.add hg.neg

/-- A function that vanishes has the value zero. -/
theorem eq_zero (h : Specializes ρ 0 q) : q = 0 := by
  obtain ⟨n, d, hd, hf, hq⟩ := h
  have hn : n = 0 := by
    apply IsFractionRing.injective (MvPolynomial Atom ℚ) RationalFunction
    rw [← hf, zero_mul, map_zero]
  rw [hn, map_zero] at hq
  exact (mul_eq_zero.1 hq).resolve_right hd

/-- A function with a value other than zero is not zero. -/
theorem ne_zero (h : Specializes ρ f q) (hq : q ≠ 0) : f ≠ 0 := by
  rintro rfl
  exact hq h.eq_zero

/-- Where a function does not vanish, its inverse has the inverse value. -/
theorem inv (h : Specializes ρ f q) (hq : q ≠ 0) : Specializes ρ f⁻¹ q⁻¹ := by
  have hf := h.ne_zero hq
  obtain ⟨n, d, hd, hfd, hqd⟩ := h
  refine ⟨d, n, hqd ▸ mul_ne_zero hq hd, ?_, ?_⟩
  · rw [← hfd, inv_mul_cancel_left₀ hf]
  · rw [← hqd, inv_mul_cancel_left₀ hq]

/-- The value of a quotient is the quotient of the values, where the second does not vanish. -/
theorem div (hf : Specializes ρ f p) (hg : Specializes ρ g q) (hq : q ≠ 0) :
    Specializes ρ (f / g) (p / q) := by
  simpa [div_eq_mul_inv] using hf.mul (hg.inv hq)

/-- The value of a product of several functions. -/
theorem list_prod {α : Type*} {as : List α} {f : α → RationalFunction} {g : α → ℚ}
    (h : ∀ a ∈ as, Specializes ρ (f a) (g a)) :
    Specializes ρ (as.map f).prod (as.map g).prod := by
  induction as with
  | nil => simpa using of_rational ρ 1
  | cons a as ih =>
    rw [List.forall_mem_cons] at h
    simpa using h.1.mul (ih h.2)

/-- The value of a sum of several functions. -/
theorem list_sum {α : Type*} {as : List α} {f : α → RationalFunction} {g : α → ℚ}
    (h : ∀ a ∈ as, Specializes ρ (f a) (g a)) :
    Specializes ρ (as.map f).sum (as.map g).sum := by
  induction as with
  | nil => simpa using of_rational ρ 0
  | cons a as ih =>
    rw [List.forall_mem_cons] at h
    simpa using h.1.add (ih h.2)

end Specializes

/-! ## What holds almost everywhere -/

/-- The sets of values for the variables that contain all those at which some polynomial, not zero,
does not vanish. -/
def generic : Filter (Atom → ℚ) where
  sets := {U | ∃ n : MvPolynomial Atom ℚ, n ≠ 0 ∧ ∀ ρ, eval ρ n ≠ 0 → ρ ∈ U}
  univ_sets := ⟨1, one_ne_zero, fun _ _ => trivial⟩
  sets_of_superset := by
    rintro U V ⟨n, hn, hU⟩ hUV
    exact ⟨n, hn, fun ρ hρ => hUV (hU ρ hρ)⟩
  inter_sets := by
    rintro U V ⟨n, hn, hU⟩ ⟨m, hm, hV⟩
    refine ⟨n * m, mul_ne_zero hn hm, fun ρ hρ => ?_⟩
    rw [map_mul] at hρ
    exact ⟨hU ρ (left_ne_zero_of_mul hρ), hV ρ (right_ne_zero_of_mul hρ)⟩

/-- A polynomial other than zero does not vanish everywhere. -/
instance : generic.NeBot where
  ne' h := by
    obtain ⟨n, hn, hU⟩ : ∅ ∈ generic := h ▸ mem_bot
    exact hn (MvPolynomial.funext fun ρ => by
      by_contra hρ
      exact hU ρ (by simpa using hρ))

/-- A function other than zero does not vanish almost everywhere. -/
theorem eventually_ne_zero {f : RationalFunction} (hf : f ≠ 0) :
    ∀ᶠ ρ in generic, ∀ q, Specializes ρ f q → q ≠ 0 := by
  obtain ⟨n, d, hd, rfl⟩ := IsFractionRing.div_surjective (A := MvPolynomial Atom ℚ) f
  have hd : d ≠ 0 := nonZeroDivisors.ne_zero hd
  have hn : n ≠ 0 := by
    rintro rfl
    simp at hf
  refine ⟨n, hn, ?_⟩
  rintro ρ hρ q ⟨m, e, he, hf, hq⟩ rfl
  have hne : n * e = m * d := by
    apply IsFractionRing.injective (MvPolynomial Atom ℚ) RationalFunction
    have hd' : algebraMap _ RationalFunction d ≠ 0 := by simpa using hd
    rw [map_mul, map_mul, ← hf]
    field_simp
  have := congrArg (eval ρ) hne
  rw [map_mul, map_mul, ← hq, zero_mul, zero_mul] at this
  exact mul_ne_zero hρ he this

/-- Every function has a value almost everywhere. -/
theorem eventually_specializes (f : RationalFunction) :
    ∀ᶠ ρ in generic, ∃ q, Specializes ρ f q := by
  obtain ⟨n, d, hd, rfl⟩ := IsFractionRing.div_surjective (A := MvPolynomial Atom ℚ) f
  have hd : d ≠ 0 := nonZeroDivisors.ne_zero hd
  refine ⟨d, hd, fun ρ hρ => ⟨eval ρ n / eval ρ d, ?_⟩⟩
  exact (Specializes.of_polynomial ρ n).div (Specializes.of_polynomial ρ d) hρ

instance : Anisotropic RationalFunction where
  eq_zero_of_sum_squares f g h := by
    by_contra hf
    obtain ⟨ρ, nonzero, ⟨p, hp⟩, ⟨q, hq⟩⟩ := ((eventually_ne_zero hf).and
      ((eventually_specializes f).and (eventually_specializes g))).exists
    refine nonzero p hp (Anisotropic.eq_zero_of_sum_squares p q ?_)
    exact Specializes.eq_zero (h ▸ (hp.mul hp).add (hq.mul hq))

noncomputable instance : DecidableEq RationalFunction := Classical.decEq _

/-! ## Values of expressions -/

namespace Expr

/-- An expression that is defined in rationals is defined in rational functions that come to them,
and so does its value. -/
theorem definedAt_specializes {ρ : Atom → ℚ} {v : Atom → Option RationalFunction}
    {w : Atom → Option ℚ} (h : ∀ a q, w a = some q → ∃ f, v a = some f ∧ Specializes ρ f q)
    {e : Expr} (he : e.DefinedAt w) : e.DefinedAt v ∧ Specializes ρ (e.value v) (e.value w) := by
  induction e using ind with
  | number n => exact ⟨by simp, by simpa using Specializes.of_rational ρ n.value⟩
  | atom a =>
    obtain ⟨q, hq⟩ := Option.isSome_iff_exists.1 ((definedAt_atom _ a).1 he)
    obtain ⟨f, hf, hs⟩ := h a q hq
    exact ⟨by simp [hf], by simpa [hf, hq] using hs⟩
  | product fs ih =>
    rw [definedAt_product] at he ⊢
    rw [value_product, value_product]
    exact ⟨fun f hf => (ih f hf (he f hf)).1,
      Specializes.list_prod fun f hf => (ih f hf (he f hf)).2⟩
  | sum ts ih =>
    rw [definedAt_sum] at he ⊢
    rw [value_sum, value_sum]
    exact ⟨fun t ht => (ih t ht (he t ht)).1,
      Specializes.list_sum fun t ht => (ih t ht (he t ht)).2⟩
  | fraction n d ihn ihd =>
    rw [definedAt_fraction] at he ⊢
    obtain ⟨hn, hsn⟩ := ihn he.1
    obtain ⟨hd, hsd⟩ := ihd he.2.1
    rw [value_fraction, value_fraction]
    exact ⟨⟨hn, hd, hsd.ne_zero he.2.2⟩, hsn.div hsd he.2.2⟩

/-- Almost everywhere the value of an expression comes to its values in rationals, and the
expression is defined there if it is in rational functions, as long as both hold of atoms. -/
theorem eventually_specializes {ι : Type*} {S : (Atom → ℚ) → ι → Prop}
    {v : Atom → Option RationalFunction} {w : ι → Atom → Option ℚ}
    (h : ∀ a, ∀ᶠ ρ in generic, ∀ i, S ρ i →
      Specializes ρ ((v a).getD 0) ((w i a).getD 0) ∧ ((v a).isSome → (w i a).isSome)) (e : Expr) :
    ∀ᶠ ρ in generic, ∀ i, S ρ i →
      Specializes ρ (e.value v) (e.value (w i)) ∧ (e.DefinedAt v → e.DefinedAt (w i)) := by
  induction e using ind with
  | number n => exact Eventually.of_forall fun ρ i _ =>
      ⟨by simpa using Specializes.of_rational ρ n.value, by simp⟩
  | atom a => simpa only [value_atom, definedAt_atom] using h a
  | product fs ih =>
    filter_upwards [(eventually_all_finite fs.finite_toSet).2 ih] with ρ hfs i hi
    rw [value_product, value_product, definedAt_product, definedAt_product]
    exact ⟨Specializes.list_prod fun f hf => (hfs f hf i hi).1,
      fun hd f hf => (hfs f hf i hi).2 (hd f hf)⟩
  | sum ts ih =>
    filter_upwards [(eventually_all_finite ts.finite_toSet).2 ih] with ρ hts i hi
    rw [value_sum, value_sum, definedAt_sum, definedAt_sum]
    exact ⟨Specializes.list_sum fun t ht => (hts t ht i hi).1,
      fun hd t ht => (hts t ht i hi).2 (hd t ht)⟩
  | fraction n d ihn ihd =>
    simp only [value_fraction, definedAt_fraction]
    by_cases hd : d.value v = 0
    · filter_upwards [ihd] with ρ ihd i hi
      have hd' : d.value (w i) = 0 := Specializes.eq_zero (hd ▸ (ihd i hi).1)
      refine ⟨?_, fun hdef => absurd hd hdef.2.2⟩
      simpa [hd, hd'] using Specializes.of_rational ρ 0
    · filter_upwards [ihn, ihd, eventually_ne_zero hd] with ρ ihn ihd hne i hi
      have hne := hne _ (ihd i hi).1
      exact ⟨(ihn i hi).1.div (ihd i hi).1 hne,
        fun hdef => ⟨(ihn i hi).2 hdef.1, (ihd i hi).2 hdef.2.1, hne⟩⟩

end Expr

/-! ## Values at placements -/

namespace Placement

/-- The placement in rational functions comes to the one in rationals where the variables have
the given values. -/
structure SpecializesTo (π : Placement RationalFunction) (ρ : Atom → ℚ) (P : Placement ℚ) :
    Prop where
  coordinate : ∀ p i, Specializes ρ (π.coordinate p i) (P.coordinate p i)
  scalar : ∀ s, Specializes ρ (π.scalar s) (P.scalar s)

namespace SpecializesTo

variable {π : Placement RationalFunction} {ρ : Atom → ℚ} {P : Placement ℚ}

/-- Cross products come to those at the other placement. -/
theorem cross (h : π.SpecializesTo ρ P) (a b c d : Point) :
    Specializes ρ (π.cross a b c d) (P.cross a b c d) :=
  (((h.coordinate b .x).sub (h.coordinate a .x)).mul
    ((h.coordinate d .y).sub (h.coordinate c .y))).sub
    (((h.coordinate b .y).sub (h.coordinate a .y)).mul
      ((h.coordinate d .x).sub (h.coordinate c .x)))

/-- Dot products come to those at the other placement. -/
theorem dot (h : π.SpecializesTo ρ P) (a b c d : Point) :
    Specializes ρ (π.dot a b c d) (P.dot a b c d) :=
  (((h.coordinate b .x).sub (h.coordinate a .x)).mul
    ((h.coordinate d .x).sub (h.coordinate c .x))).add
    (((h.coordinate b .y).sub (h.coordinate a .y)).mul
      ((h.coordinate d .y).sub (h.coordinate c .y)))

/-- Points that coincide generically coincide. -/
theorem coincide (h : π.SpecializesTo ρ P) {a b : Point} (hab : π.Coincide a b) :
    P.Coincide a b := by
  rw [← dot_self_eq_zero_iff] at hab ⊢
  exact Specializes.eq_zero (hab ▸ h.dot a b a b)

/-- Segments that are parallel generically are parallel. -/
theorem parallel (h : π.SpecializesTo ρ P) {a b c d : Point} (hp : π.Parallel a b c d) :
    P.Parallel a b c d :=
  Specializes.eq_zero (hp ▸ h.cross a b c d)

/-- A condition that holds at some placement holds generically. -/
theorem holds (h : π.SpecializesTo ρ P) {c : Condition} (hc : P.Holds c) : π.Holds c := by
  cases c with
  | distinct a b => exact mt h.coincide hc
  | notParallel a b c d => exact mt h.parallel hc

/-- An atom that has a value at some placement has one generically, which comes to it. -/
theorem atom (h : π.SpecializesTo ρ P) {a : Atom} {q : ℚ} (ha : P.atom a = some q) :
    ∃ f, π.atom a = some f ∧ Specializes ρ f q := by
  cases a with
  | area a b c =>
    obtain rfl := Option.some.inj ha
    exact ⟨_, rfl, (h.cross a b a c).div (by simpa using Specializes.of_rational ρ 2) two_ne_zero⟩
  | pythagoras a b c =>
    obtain rfl := Option.some.inj ha
    exact ⟨_, rfl, Specializes.mul (by simpa using Specializes.of_rational ρ 2) (h.dot b a b c)⟩
  | ratio a b c d =>
    rw [Placement.atom] at ha ⊢
    split at ha
    next => cases ha
    next hne =>
      obtain rfl := Option.some.inj ha
      rw [if_neg (mt h.coincide hne)]
      exact ⟨_, rfl, (h.dot a b c d).div (h.dot c d c d) (mt dot_self_eq_zero_iff.1 hne)⟩
  | scalar s =>
    obtain rfl := Option.some.inj ha
    exact ⟨_, rfl, h.scalar s⟩
  | coordinate p i =>
    obtain rfl := Option.some.inj ha
    exact ⟨_, rfl, h.coordinate p i⟩

/-- An expression that is defined at a placement is defined generically, and its value comes to the
one at the placement. -/
theorem value (h : π.SpecializesTo ρ P) {e : Expr} (he : e.DefinedAt P.atom) :
    e.DefinedAt π.atom ∧ Specializes ρ (e.value π.atom) (e.value P.atom) :=
  Expr.definedAt_specializes (fun _ _ => h.atom) he

end SpecializesTo

/-- Almost everywhere the value of an expression comes to the one at the placement, and the
expression is defined if it is generically. -/
theorem eventually_value (π : Placement RationalFunction) (e : Expr) :
    ∀ᶠ ρ in generic, ∀ P, π.SpecializesTo ρ P →
      Specializes ρ (e.value π.atom) (e.value P.atom) ∧
        (e.DefinedAt π.atom → e.DefinedAt P.atom) := by
  refine Expr.eventually_specializes (fun a => ?_) e
  -- An atom that is defined at a placement comes to its value there.
  have defined : ∀ {ρ P}, π.SpecializesTo ρ P → (P.atom a).isSome →
      Specializes ρ ((π.atom a).getD 0) ((P.atom a).getD 0) ∧
        ((π.atom a).isSome → (P.atom a).isSome) := by
    intro ρ P h ha
    obtain ⟨q, hq⟩ := Option.isSome_iff_exists.1 ha
    obtain ⟨f, hf, hs⟩ := h.atom hq
    exact ⟨by simpa [hf, hq] using hs, fun _ => ha⟩
  cases a with
  | ratio a b c d =>
    by_cases hcd : π.Coincide c d
    · refine Eventually.of_forall fun ρ P h => ?_
      have undefined : π.atom (.ratio a b c d) = none := if_pos hcd
      have undefined' : P.atom (.ratio a b c d) = none := if_pos (h.coincide hcd)
      simpa [undefined, undefined'] using Specializes.of_rational ρ 0
    · filter_upwards [eventually_ne_zero (mt dot_self_eq_zero_iff.1 hcd)] with ρ hne P h
      have hcd : ¬P.Coincide c d := mt dot_self_eq_zero_iff.2 (hne _ (h.dot c d c d))
      exact defined h (by simp [Placement.atom, hcd])
  | area | pythagoras | scalar | coordinate =>
    exact Eventually.of_forall fun ρ P h => defined h rfl

/-! ## Placing derived points -/

section
variable {F : Type*} [Field F] [DecidableEq F]

/-- Puts a derived point where its definition puts it. -/
def derive (π : Placement F) (q : Point × PointKind) : Placement F :=
  match q.2.displacement? with
  | none => π
  | some s =>
    { π with coordinate := Function.update π.coordinate q.1 fun i =>
        π.coordinate s.w i + s.t.value π.atom * (π.coordinate s.v i - π.coordinate s.u i) }

/-- Puts derived points where their definitions put them, one after another. -/
def complete (π : Placement F) (qs : List (Point × PointKind)) : Placement F :=
  qs.foldl derive π

/-- Points can be placed in two goes. -/
theorem complete_append (π : Placement F) (qs rs : List (Point × PointKind)) :
    π.complete (qs ++ rs) = (π.complete qs).complete rs :=
  List.foldl_append

/-- Where all points satisfy their definitions already, none is moved. -/
theorem complete_eq_self [CharZero F] [Anisotropic F] {π : Placement F}
    {qs : List (Point × PointKind)} (h : ∀ q ∈ qs, π.Satisfies q.1 q.2) : π.complete qs = π := by
  induction qs with
  | nil => rfl
  | cons q qs ih =>
    rw [List.forall_mem_cons] at h
    have stays : π.derive q = π := by
      rw [derive]
      split
      next => rfl
      next s hs =>
        have displaced := (satisfies_iff_displaced hs).1 h.1
        rw [← funext displaced.2, Function.update_eq_self]
    rw [complete, List.foldl_cons, stays]
    exact ih h.2

/-- Placing a point leaves scalars as they are. -/
theorem derive_scalar (π : Placement F) (q : Point × PointKind) :
    (π.derive q).scalar = π.scalar := by
  rw [derive]
  split <;> rfl

/-- Placing points leaves scalars as they are. -/
theorem complete_scalar (π : Placement F) (qs : List (Point × PointKind)) :
    (π.complete qs).scalar = π.scalar := by
  induction qs generalizing π with
  | nil => rfl
  | cons q qs ih => exact (ih (π.derive q)).trans (derive_scalar π q)

/-- Placing a point leaves the others where they are, and itself if it is free. -/
theorem derive_coordinate_of_ne {π : Placement F} {q : Point × PointKind} {p : Point}
    (h : q.2 ≠ .free → p ≠ q.1) : (π.derive q).coordinate p = π.coordinate p := by
  rw [derive]
  split
  · rfl
  next s hs =>
    refine Function.update_of_ne (h fun free => ?_) _ _
    simp [free, PointKind.displacement?] at hs

/-- Points other than the derived ones that are placed stay. -/
theorem complete_coordinate_of_forall_ne {π : Placement F} {qs : List (Point × PointKind)}
    {p : Point} (h : ∀ q ∈ qs, q.2 ≠ .free → p ≠ q.1) :
    (π.complete qs).coordinate p = π.coordinate p := by
  induction qs generalizing π with
  | nil => rfl
  | cons q qs ih =>
    rw [List.forall_mem_cons] at h
    exact (ih h.2).trans (derive_coordinate_of_ne h.1)

/-- The value of an atom depends on where its points are. -/
theorem atom_congr {π σ : Placement F} {a : Atom}
    (hp : ∀ p ∈ a.points, π.coordinate p = σ.coordinate p) (hs : π.scalar = σ.scalar) :
    π.atom a = σ.atom a := by
  cases a with
  | ratio a b c d =>
    simp only [Atom.points, List.forall_mem_cons] at hp
    obtain ⟨ha, hb, hc, hd, -⟩ := hp
    have same : π.Coincide c d ↔ σ.Coincide c d := by simp [Coincide, x, y, hc, hd]
    by_cases h : σ.Coincide c d
    · simp [atom, same, h]
    · simp [atom, same, h, dot, x, y, ha, hb, hc, hd]
  | area | pythagoras | scalar | coordinate =>
    simp_all [Atom.points, atom, area, pythagoras, cross, dot, x, y]

/-- In an ordered construction, placing the points in turn puts each of them where its definition
puts it at the end. -/
theorem complete_coordinate {c : Construction} (hc : Ordered c.steps) (π : Placement F) {p : Point}
    {kind : PointKind} (hq : (p, kind) ∈ c.points) {s : Displacement}
    (hs : kind.displacement? = some s) (i : Axis) :
    (π.complete c.points).coordinate p i = (π.complete c.points).coordinate s.w i +
      s.t.value (π.complete c.points).atom *
        ((π.complete c.points).coordinate s.v i - (π.complete c.points).coordinate s.u i) := by
  obtain ⟨before, after, hsteps⟩ := List.append_of_mem (Construction.mem_points_iff.1 hq)
  obtain ⟨new, earlier⟩ := hc before p kind after hsteps
  have hpoints : c.points = before.filterMap Step.point? ++
      (p, kind) :: after.filterMap Step.point? := by
    rw [Construction.points, hsteps, List.filterMap_append, List.filterMap_cons]
    rfl
  -- Later steps make neither this point nor one that its definition speaks of.
  have later : ∀ q, q = p ∨ q ∈ kind.support → ∀ r ∈ after.filterMap Step.point?, q ≠ r.1 := by
    rintro q hq ⟨r, k⟩ hr rfl
    obtain ⟨first, second, rfl⟩ := List.append_of_mem
      (Construction.mem_filterMap_point?_iff.1 hr)
    rw [← List.cons_append, ← List.append_assoc] at hsteps
    refine (hc _ q k second hsteps).1 ?_
    rcases hq with rfl | hq
    · exact ⟨kind, by simp⟩
    · exact (earlier q hq).append _
  have other : ∀ q ∈ kind.support, q ≠ p := fun q hq h => new (h ▸ earlier q hq)
  have stays : ∀ q ∈ kind.support, (π.complete c.points).coordinate q =
      (π.complete (before.filterMap Step.point?)).coordinate q := by
    intro q hq
    rw [hpoints, complete_append]
    exact (complete_coordinate_of_forall_ne fun r hr _ => later q (.inr hq) r hr).trans
      (derive_coordinate_of_ne fun _ => other q hq)
  obtain ⟨⟨hw, hu, hv⟩, ht⟩ := PointKind.support_of_displacement? hs
  have value : s.t.value (π.complete c.points).atom =
      s.t.value (π.complete (before.filterMap Step.point?)).atom :=
    (Expr.value_congr fun a ha => atom_congr (fun q hq => stays q (ht a ha q hq))
      (by rw [complete_scalar, complete_scalar])).1
  rw [stays _ hw, stays _ hu, stays _ hv, value, hpoints, complete_append]
  refine (congrFun (complete_coordinate_of_forall_ne fun r hr _ => later p (.inl rfl) r hr)
    i).trans ?_
  simp [derive, hs]

/-- A placement that is made by placing the points in turn is nondegenerate if the coefficients are
defined there. -/
theorem nondegenerate_complete [CharZero F] [Anisotropic F] {c : Construction}
    (hc : Ordered c.steps) {π : Placement F} (h : ∀ q ∈ c.points, ∀ s,
      q.2.displacement? = some s → s.t.DefinedAt (π.complete c.points).atom) :
    (π.complete c.points).Nondegenerate c := by
  rintro ⟨p, kind⟩ hq
  cases hs : kind.displacement? with
  | none =>
    cases kind with
    | free => trivial
    | ratio | intersection | foot => cases hs
  | some s => exact (satisfies_iff_displaced hs).2 ⟨h _ hq s hs, complete_coordinate hc π hq hs⟩

end

/-! ## The generic placement of a construction -/

/-- Where the coordinates of points and the scalars have the values of their variables. -/
def ofVariables {F : Type*} (v : Atom → F) : Placement F where
  coordinate p i := v (.coordinate p i)
  scalar s := v (.scalar s)

/-- The values of the variables at a placement. -/
def choice (P : Placement ℚ) (a : Atom) : ℚ := (P.atom a).getD 0

/-- A placement of variables comes to one of their values. -/
theorem specializesTo_ofVariables (ρ : Atom → ℚ) :
    (ofVariables RationalFunction.variable).SpecializesTo ρ (ofVariables ρ) where
  coordinate p i := .of_variable ρ (.coordinate p i)
  scalar s := .of_variable ρ (.scalar s)

/-- Placing a point by a coefficient that comes to its value. -/
theorem SpecializesTo.derive {π : Placement RationalFunction} {ρ : Atom → ℚ} {P : Placement ℚ}
    (h : π.SpecializesTo ρ P) {q : Point × PointKind}
    (ht : ∀ s, q.2.displacement? = some s →
      Specializes ρ (s.t.value π.atom) (s.t.value P.atom)) :
    (π.derive q).SpecializesTo ρ (P.derive q) := by
  rw [Placement.derive, Placement.derive]
  split
  next => exact h
  next s hs =>
    refine ⟨fun p i => ?_, h.scalar⟩
    by_cases hp : p = q.1
    · subst hp
      simpa using (h.coordinate s.w i).add
        ((ht s hs).mul ((h.coordinate s.v i).sub (h.coordinate s.u i)))
    · simpa [hp] using h.coordinate p i

end Placement

namespace Construction

open Placement

variable {c : Construction} {P : Placement ℚ}

/-- The generic placement. -/
noncomputable def generic (c : Construction) : Placement RationalFunction :=
  (ofVariables RationalFunction.variable).complete c.points

/-- The generic placement comes to every nondegenerate one. -/
theorem generic_specializesTo (hP : P.Nondegenerate c) :
    c.generic.SpecializesTo P.choice P := by
  suffices h : ∀ qs : List (Point × PointKind), (∀ q ∈ qs, P.Satisfies q.1 q.2) →
      ((ofVariables RationalFunction.variable).complete qs).SpecializesTo P.choice
        (P.complete qs) by
    have := h c.points hP
    rwa [complete_eq_self hP] at this
  intro qs
  induction qs using List.reverseRecOn with
  | nil => exact fun _ => specializesTo_ofVariables P.choice
  | append_singleton qs q ih =>
    intro hq
    rw [List.forall_mem_append, List.forall_mem_singleton] at hq
    rw [complete_append, complete_append]
    refine (ih hq.1).derive fun s hs => ((ih hq.1).value ?_).2
    rw [complete_eq_self hq.1]
    exact ((satisfies_iff_displaced hs).1 hq.2).1

/-- If there is a nondegenerate placement, then the generic one is nondegenerate. -/
theorem nondegenerate_generic (hc : Ordered c.steps) (hP : P.Nondegenerate c) :
    c.generic.Nondegenerate c :=
  nondegenerate_complete hc fun q hq _ hs =>
    ((generic_specializesTo hP).value ((satisfies_iff_displaced hs).1 (hP q hq)).1).1

/-- Almost every choice of the variables gives a nondegenerate placement, if the generic one is. -/
theorem eventually_nondegenerate (hc : Ordered c.steps) (hg : c.generic.Nondegenerate c) :
    ∀ᶠ ρ in AreaMethod.generic, c.generic.SpecializesTo ρ ((ofVariables ρ).complete c.points) ∧
      ((ofVariables ρ).complete c.points).Nondegenerate c := by
  have specializes : ∀ qs : List (Point × PointKind), ∀ᶠ ρ in AreaMethod.generic,
      ((ofVariables RationalFunction.variable).complete qs).SpecializesTo ρ
        ((ofVariables ρ).complete qs) := by
    intro qs
    induction qs using List.reverseRecOn with
    | nil => exact Eventually.of_forall specializesTo_ofVariables
    | append_singleton qs q ih =>
      cases hs : q.2.displacement? with
      | none =>
        filter_upwards [ih] with ρ h
        rw [complete_append, complete_append]
        exact h.derive fun s hs' => by simp [hs] at hs'
      | some s =>
        filter_upwards [ih, eventually_value _ s.t] with ρ h hv
        rw [complete_append, complete_append]
        refine h.derive fun s' hs' => ?_
        obtain rfl := Option.some.inj (hs.symm.trans hs')
        exact (hv _ h).1
  have defined : ∀ᶠ ρ in AreaMethod.generic, ∀ q ∈ c.points, ∀ P, c.generic.SpecializesTo ρ P →
      ∀ s, q.2.displacement? = some s → s.t.DefinedAt P.atom := by
    refine (eventually_all_finite c.points.finite_toSet).2 fun q hq => ?_
    cases hs : q.2.displacement? with
    | none => simp
    | some s =>
      filter_upwards [eventually_value c.generic s.t] with ρ hv P h s' hs'
      obtain rfl := Option.some.inj hs'
      exact (hv P h).2 ((satisfies_iff_displaced hs).1 (hg q hq)).1
  filter_upwards [specializes c.points, defined] with ρ h hd
  exact ⟨h, nondegenerate_complete hc fun q hq s hs => hd q hq _ h s hs⟩

/-- Segments that are parallel at every nondegenerate placement are parallel generically. -/
theorem generic_parallel (hc : Ordered c.steps) (hg : c.generic.Nondegenerate c)
    {p q r s : Point} (h : ∀ P : Placement ℚ, P.Nondegenerate c → P.Parallel p q r s) :
    c.generic.Parallel p q r s := by
  by_contra hne
  obtain ⟨ρ, ⟨hs, hP⟩, hne⟩ :=
    ((eventually_nondegenerate hc hg).and (eventually_ne_zero hne)).exists
  exact hne _ (hs.cross p q r s) (h _ hP)

end Construction

end AreaMethod
