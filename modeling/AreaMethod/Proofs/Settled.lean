import AreaMethod.Proofs.Spelling

/-!
# Products and quotients in normal form

`IsNormal` says what form products, sums and fractions have after simplification. An expression in
normal form whose constants are all in lowest terms is `Settled`. There the order of expressions is
a total one, so a settled expression is found again whatever order its factors come in: products
and quotients of settled expressions are settled (`settled_multiply_divide`), and a settled
expression is the product of itself alone (`multiply_singleton`) and of its coefficient and the
rest (`multiply_split_rest`).

At the bottom lies that a settled expression other than a fraction is a coefficient in front of
atoms and sums (`Settled.assembled`). To multiply it by a constant is to multiply the coefficient
(`multiply_assemble`), and a fraction passes the constant on to its numerator
(`multiply_rational_fraction`). A fraction over a denominator that is zero at sight stays as it is,
and may have fractions for numerators; `Settled.induction` goes down along these.
-/

namespace AreaMethod.Expr

/-! ## The form -/

/-- The factors of a product in normal form: several, in ascending order, no product or fraction
among them and no constant but the first, which is neither zero nor one. -/
structure NormalFactors (fs : List Expr) : Prop where
  several : 2 ≤ fs.length
  ascending : fs.Pairwise fun f g => le f g = true
  notProduct : ∀ f ∈ fs, ∀ gs, f ≠ product gs
  notFraction : ∀ f ∈ fs, ∀ n d, f ≠ fraction n d
  onlyFirst : ∀ f ∈ fs.tail, ∀ c, f ≠ number c
  coefficient : ∀ c, number c ∈ fs → c.value ≠ 0 ∧ c.value ≠ 1

/-- The terms of a sum in normal form: several, no sum or zero among them, and in strictly ascending
order of what their coefficients multiply, so that no two of them are like terms. -/
structure NormalTerms (ts : List Expr) : Prop where
  several : 2 ≤ ts.length
  notSum : ∀ t ∈ ts, ∀ us, t ≠ sum us
  notZero : ∀ t ∈ ts, t.isZero = false
  ascending : ts.Pairwise fun t u => cmpOption t.split.2 u.split.2 = .lt

/-- Numerator and denominator of a fraction in normal form: neither is a fraction, the numerator is
not zero, the denominator is not a constant and has the coefficient one, and there is nothing to
cancel. -/
structure NormalQuotient (n d : Expr) : Prop where
  notZero : n.isZero = false
  numerator : ∀ t b, n ≠ fraction t b
  denominator : ∀ t b, d ≠ fraction t b
  notNumber : ∀ c, d ≠ number c
  coefficient : d.split.1 = 1
  distinct : sameOption n.split.2 (some d) = false

/-- Are all nodes of the expression in normal form? Of a fraction over zero, which stays as it is,
only the two parts are asked to be. -/
def IsNormal : Expr → Prop
  | number _ => True
  | atom _ => True
  | product fs => NormalFactors fs ∧ ∀ f ∈ fs, f.IsNormal
  | sum ts => NormalTerms ts ∧ ∀ t ∈ ts, t.IsNormal
  | fraction n d => (d.isZero = false → NormalQuotient n d) ∧ n.IsNormal ∧ d.IsNormal

@[simp] theorem isNormal_number (n : Numeral) : (number n).IsNormal := by
  rw [IsNormal]
  trivial

@[simp] theorem isNormal_rational (q : Rat) : (rational q).IsNormal :=
  isNormal_number _

@[simp] theorem isNormal_atom (a : Atom) : (atom a).IsNormal := by
  rw [IsNormal]
  trivial

@[simp] theorem isNormal_product (fs : List Expr) :
    (product fs).IsNormal ↔ NormalFactors fs ∧ ∀ f ∈ fs, f.IsNormal := by
  rw [IsNormal]

@[simp] theorem isNormal_sum (ts : List Expr) :
    (sum ts).IsNormal ↔ NormalTerms ts ∧ ∀ t ∈ ts, t.IsNormal := by
  rw [IsNormal]

@[simp] theorem isNormal_fraction (n d : Expr) : (fraction n d).IsNormal ↔
    (d.isZero = false → NormalQuotient n d) ∧ n.IsNormal ∧ d.IsNormal := by
  rw [IsNormal]

/-- A product in normal form does not have the coefficient zero. -/
theorem NormalFactors.split_ne_zero {fs : List Expr} (h : NormalFactors fs) :
    (product fs).split.1 ≠ 0 := by
  rcases fs with _ | ⟨f, fs⟩
  · simp [split]
  · cases f with
    | number c => simpa [split] using (h.coefficient c (by simp)).1
    | atom | product | sum | fraction => simp [split]

/-- An expression in normal form is zero at sight if and only if its coefficient is zero. -/
theorem isZero_iff_split {e : Expr} (h : e.IsNormal) : e.isZero = true ↔ e.split.1 = 0 := by
  induction e using ind with
  | number n => simp [isZero, split]
  | atom a => simp [isZero, split]
  | product fs ih =>
    obtain ⟨hfs, members⟩ := (isNormal_product fs).1 h
    have nonzero : ∀ f ∈ fs, f.split.1 ≠ 0 := by
      intro f hf
      cases f with
      | number c => simpa [split] using (hfs.coefficient c hf).1
      | product gs => exact absurd rfl (hfs.notProduct _ hf gs)
      | fraction n d => exact absurd rfl (hfs.notFraction _ hf n d)
      | atom | sum => simp [split]
    rw [isZero_product, List.any_eq_true, iff_false_right hfs.split_ne_zero]
    rintro ⟨f, hf, hz⟩
    exact nonzero f hf ((ih f hf (members f hf)).1 hz)
  | sum ts ih =>
    have several := ((isNormal_sum ts).1 h).1.several
    cases ts with
    | nil => simp at several
    | cons => simp [isZero, split]
  | fraction n d ihn ihd =>
    rw [isZero, split]
    exact ihn ((isNormal_fraction n d).1 h).2.1

/-- An expression in normal form with all its constants in lowest terms. -/
structure Settled (e : Expr) : Prop where
  normal : e.IsNormal
  reduced_eq : e.reduced = e

/-- Expressions are all in lowest terms if and only if each of them is. -/
theorem map_reduced_eq_iff {es : List Expr} : es.map reduced = es ↔ ∀ e ∈ es, e.reduced = e := by
  conv_lhs => rhs; rw [← List.map_id es]
  exact List.map_inj_left

/-- A constant in lowest terms is settled. -/
theorem settled_rational (q : Rat) : (rational q).Settled :=
  ⟨isNormal_rational q, reduced_rational q⟩

/-- An atom is settled. -/
theorem settled_atom (a : Atom) : (atom a).Settled :=
  ⟨isNormal_atom a, reduced_atom a⟩

/-- A product is settled if its factors are, and are in normal form together. -/
theorem settled_product_iff {fs : List Expr} :
    (product fs).Settled ↔ NormalFactors fs ∧ ∀ f ∈ fs, f.Settled := by
  constructor
  · rintro ⟨normal, lowest⟩
    rw [isNormal_product] at normal
    rw [reduced_product, product.injEq, map_reduced_eq_iff] at lowest
    exact ⟨normal.1, fun f hf => ⟨normal.2 f hf, lowest f hf⟩⟩
  · rintro ⟨normal, members⟩
    refine ⟨(isNormal_product fs).2 ⟨normal, fun f hf => (members f hf).normal⟩, ?_⟩
    rw [reduced_product, map_reduced_eq_iff.2 fun f hf => (members f hf).reduced_eq]

/-- A sum is settled if its terms are, and are in normal form together. -/
theorem settled_sum_iff {ts : List Expr} :
    (sum ts).Settled ↔ NormalTerms ts ∧ ∀ t ∈ ts, t.Settled := by
  constructor
  · rintro ⟨normal, lowest⟩
    rw [isNormal_sum] at normal
    rw [reduced_sum, sum.injEq, map_reduced_eq_iff] at lowest
    exact ⟨normal.1, fun t ht => ⟨normal.2 t ht, lowest t ht⟩⟩
  · rintro ⟨normal, members⟩
    refine ⟨(isNormal_sum ts).2 ⟨normal, fun t ht => (members t ht).normal⟩, ?_⟩
    rw [reduced_sum, map_reduced_eq_iff.2 fun t ht => (members t ht).reduced_eq]

/-- A fraction is settled if its parts are, and are in normal form together unless it is over
zero. -/
theorem settled_fraction_iff {n d : Expr} : (fraction n d).Settled ↔
    (d.isZero = false → NormalQuotient n d) ∧ n.Settled ∧ d.Settled := by
  constructor
  · rintro ⟨normal, lowest⟩
    obtain ⟨quotient, hn, hd⟩ := (isNormal_fraction n d).1 normal
    rw [reduced_fraction, fraction.injEq] at lowest
    exact ⟨quotient, ⟨hn, lowest.1⟩, ⟨hd, lowest.2⟩⟩
  · rintro ⟨quotient, hn, hd⟩
    refine ⟨(isNormal_fraction n d).2 ⟨quotient, hn.normal, hd.normal⟩, ?_⟩
    rw [reduced_fraction, hn.reduced_eq, hd.reduced_eq]

/-- The constants of a settled expression are in lowest terms. -/
theorem Settled.within {e : Expr} (h : e.Settled) : Shape.lowest.Within e :=
  h.reduced_eq ▸ lowest_reduced e

/-! ## Products without fractions -/

/-- Is the expression an atom or a sum? Products have these for factors, the coefficient apart. -/
def isPlain : Expr → Bool
  | atom _ => true
  | sum _ => true
  | _ => false

/-- Factors in normal form are plain, the coefficient apart. -/
theorem NormalFactors.isPlain {fs : List Expr} (h : NormalFactors fs) {f : Expr} (hf : f ∈ fs)
    (hc : ∀ c, f ≠ number c) : f.isPlain = true := by
  cases f with
  | number c => exact absurd rfl (hc c)
  | product gs => exact absurd rfl (h.notProduct _ hf gs)
  | fraction n d => exact absurd rfl (h.notFraction _ hf n d)
  | atom | sum => rfl

/-- Settled atoms and sums. -/
structure PlainFactors (fs : List Expr) : Prop where
  settled : ∀ f ∈ fs, f.Settled
  plain : ∀ f ∈ fs, f.isPlain = true

/-- Plain factors are so in any order. -/
theorem PlainFactors.of_perm {fs gs : List Expr} (h : PlainFactors fs) (hp : gs.Perm fs) :
    PlainFactors gs :=
  ⟨fun f hf => h.settled f (hp.mem_iff.1 hf), fun f hf => h.plain f (hp.mem_iff.1 hf)⟩

/-- Plain factors are so when they are sorted. -/
theorem PlainFactors.sort {fs : List Expr} (h : PlainFactors fs) : PlainFactors (Expr.sort fs) :=
  h.of_perm (sort_perm fs)

/-- Plain factors are in lowest terms. -/
theorem PlainFactors.reduced_eq {fs : List Expr} (h : PlainFactors fs) : fs.map reduced = fs :=
  map_reduced_eq_iff.2 fun f hf => (h.settled f hf).reduced_eq

/-- A plain expression has the coefficient one. -/
theorem split_of_isPlain {f : Expr} (h : f.isPlain = true) : f.split = (1, some f) := by
  cases f with
  | atom | sum => simp [split]
  | number | product | fraction => cases h

/-- A plain expression is its only factor. -/
theorem factors_of_isPlain {f : Expr} (h : f.isPlain = true) : f.factors = [f] := by
  cases f with
  | atom | sum => simp [factors]
  | number | product | fraction => cases h

/-- Plain factors cannot be taken apart. -/
theorem PlainFactors.flatMap_factors {fs : List Expr} (h : PlainFactors fs) :
    fs.flatMap factors = fs := by
  rw [List.flatMap_congr fun f hf => factors_of_isPlain (h.plain f hf)]
  exact List.flatMap_singleton' fs

/-- Sorting brings factors into ascending order. -/
theorem ascending_sort {fs : List Expr} (h : ∀ f ∈ fs, f.Settled) :
    (sort fs).Pairwise fun f g => le f g = true := by
  have within : ∀ f ∈ sort fs, Shape.positive.Within f := fun f hf =>
    (h f ((sort_perm fs).mem_iff.1 hf)).within.positive
  refine (pairwise_of_isChain within (isChain_sort fs)).imp_of_mem fun {f g} hf hg hle => ?_
  rwa [le, cmp_eq_cmpCode_of_positive (within f hf) (within g hg)]

/-- Several plain factors in ascending order are in normal form. -/
theorem PlainFactors.normalFactors {fs : List Expr} (h : PlainFactors fs) (several : 2 ≤ fs.length)
    (ascending : fs.Pairwise fun f g => le f g = true) : NormalFactors fs where
  several := several
  ascending := ascending
  notProduct f hf gs e := by simpa [e, isPlain] using h.plain f hf
  notFraction f hf n d e := by simpa [e, isPlain] using h.plain f hf
  onlyFirst f hf c e := by simpa [e, isPlain] using h.plain f (List.mem_of_mem_tail hf)
  coefficient c hc := by simpa [isPlain] using h.plain _ hc

/-- A constant goes in front. -/
theorem PlainFactors.normalFactors_cons {fs : List Expr} (h : PlainFactors fs) (hne : fs ≠ [])
    (ascending : fs.Pairwise fun f g => le f g = true) {c : Rat} (h0 : c ≠ 0) (h1 : c ≠ 1) :
    NormalFactors (rational c :: fs) where
  several := Nat.succ_le_succ (List.length_pos_iff.2 hne)
  ascending := by
    refine List.pairwise_cons.2 ⟨fun f hf => ?_, ascending⟩
    have plain := h.plain f hf
    cases f <;> simp_all [le, cmp, rational, rank, isPlain] <;> rfl
  notProduct f hf gs e := by
    rcases List.mem_cons.1 hf with rfl | hf
    · simp [rational] at e
    · simpa [e, isPlain] using h.plain f hf
  notFraction f hf n d e := by
    rcases List.mem_cons.1 hf with rfl | hf
    · simp [rational] at e
    · simpa [e, isPlain] using h.plain f hf
  onlyFirst f hf c e := by simpa [e, isPlain] using h.plain f hf
  coefficient c' hc := by
    rcases List.mem_cons.1 hc with e | hc
    · rw [rational, number.injEq] at e
      exact e ▸ ⟨h0, h1⟩
    · simpa [isPlain] using h.plain _ hc

/-- No expressions are sorted to none. -/
theorem sort_nil : sort [] = [] := List.perm_nil.1 (sort_perm [])

/-- A single expression is sorted. -/
theorem sort_singleton (f : Expr) : sort [f] = [f] := List.perm_singleton.1 (sort_perm [f])

/-- Assembling no factors leaves the coefficient. -/
theorem assemble_nil (c : Rat) : assemble c [] = rational c := by
  simp [assemble, sort_nil, bundle?]

/-- The coefficient one is not written. -/
theorem assemble_one (fs : List Expr) : assemble 1 fs = (bundle? (sort fs)).getD one := by
  simp [assemble, one]

/-- A coefficient that is not written is one, or there is nothing else. -/
theorem assemble_of_ne_one {c : Rat} {fs : List Expr} (h1 : c ≠ 1) (hne : fs ≠ []) :
    assemble c fs = product (rational c :: sort fs) := by
  simp [assemble, h1, hne]

/-- Plain factors can be assembled in any order. -/
theorem assemble_perm (c : Rat) {fs gs : List Expr} (h : PlainFactors fs) (hp : gs.Perm fs) :
    assemble c gs = assemble c fs := by
  have within : ∀ f ∈ fs, Shape.lowest.Within f := fun f hf => (h.settled f hf).within
  have same : ∀ {gs}, gs.Perm fs → (assemble c fs).reduced = assemble c gs := fun hp =>
    reduced_assemble c within (h.reduced_eq.symm ▸ hp)
  exact (same hp).symm.trans (same (.refl fs))

/-- The ways in which an expression is assembled. -/
theorem assemble_cases {motive : Rat → List Expr → Expr → Prop}
    (constant : ∀ c, motive c [] (rational c))
    (single : ∀ f, motive 1 [f] f)
    (several : ∀ fs, 2 ≤ fs.length → motive 1 fs (product (sort fs)))
    (scaled : ∀ c fs, c ≠ 1 → fs ≠ [] → motive c fs (product (rational c :: sort fs)))
    (c : Rat) (fs : List Expr) : motive c fs (assemble c fs) := by
  by_cases hne : fs = []
  · rw [hne, assemble_nil]
    exact constant c
  by_cases h1 : c = 1
  · rw [h1, assemble_one]
    rcases fs with _ | ⟨f, _ | ⟨g, fs⟩⟩
    · exact absurd rfl hne
    · rw [sort_singleton]
      exact single f
    · have several' := several (f :: g :: fs) (by simp)
      have length := (sort_perm (f :: g :: fs)).length_eq
      rcases hs : sort (f :: g :: fs) with _ | ⟨f', _ | ⟨g', fs'⟩⟩
      · simp [hs] at length
      · simp [hs] at length
      · rwa [hs] at several'
  · rw [assemble_of_ne_one h1 hne]
    exact scaled c fs h1 hne

/-- The coefficient of an assembled expression and what it multiplies. -/
theorem split_assemble (c : Rat) {fs : List Expr} (h : PlainFactors fs) :
    (assemble c fs).split = (c, bundle? (sort fs)) := by
  revert h
  refine assemble_cases (motive := fun c fs e => PlainFactors fs → e.split = (c, bundle? (sort fs)))
    ?_ ?_ ?_ ?_ c fs
  · intro c _
    simp [split, rational, Numeral.ofRat, sort_nil, bundle?]
  · intro f h
    rw [split_of_isPlain (h.plain f (by simp)), sort_singleton]
    rfl
  · intro fs several h
    have plain := h.sort.plain
    rw [← (sort_perm fs).length_eq] at several
    rcases hs : sort fs with _ | ⟨f, _ | ⟨g, fs'⟩⟩
    · simp [hs] at several
    · simp [hs] at several
    · have hf := plain f (by simp [hs])
      cases f with
      | atom | sum => simp [split, bundle?]
      | number | product | fraction => cases hf
  · intro c fs _ _ _
    simp [split, rational, Numeral.ofRat]

/-- Without its coefficient an assembled expression is assembled with the coefficient one. -/
theorem rest_assemble (c : Rat) {fs : List Expr} (h : PlainFactors fs) :
    (assemble c fs).rest = assemble 1 fs := by
  rw [rest, split_assemble c h, assemble_one]

/-- Plain factors with a coefficient other than zero are assembled to a settled expression. -/
theorem settled_assemble {c : Rat} (h0 : c ≠ 0) {fs : List Expr} (h : PlainFactors fs) :
    (assemble c fs).Settled := by
  revert h h0
  refine assemble_cases (motive := fun c fs e => c ≠ 0 → PlainFactors fs → e.Settled)
    ?_ ?_ ?_ ?_ c fs
  · exact fun c _ _ => settled_rational c
  · exact fun f _ h => h.settled f (by simp)
  · intro fs several _ h
    rw [← (sort_perm fs).length_eq] at several
    exact settled_product_iff.2
      ⟨h.sort.normalFactors several (ascending_sort h.settled), h.sort.settled⟩
  · intro c fs h1 hne h0 h
    have hne' : sort fs ≠ [] := fun hs => hne (List.nil_perm.1 (hs ▸ sort_perm fs))
    exact settled_product_iff.2
      ⟨h.sort.normalFactors_cons hne' (ascending_sort h.settled) h0 h1,
        List.forall_mem_cons.2 ⟨settled_rational c, h.sort.settled⟩⟩

/-- Plain factors with a coefficient other than zero are not assembled to zero. -/
theorem isZero_assemble_eq_false {c : Rat} (h0 : c ≠ 0) {fs : List Expr} (h : PlainFactors fs) :
    (assemble c fs).isZero = false := by
  rw [Bool.eq_false_iff, ne_eq, isZero_iff_split (settled_assemble h0 h).normal, split_assemble c h]
  exact h0

/-- Plain factors are not assembled to a fraction. -/
theorem assemble_ne_fraction (c : Rat) {fs : List Expr} (h : PlainFactors fs) (n d : Expr) :
    assemble c fs ≠ fraction n d := by
  revert h
  refine assemble_cases (motive := fun _ fs e => PlainFactors fs → e ≠ fraction n d)
    ?_ ?_ ?_ ?_ c fs
  · exact fun c _ => by simp [rational]
  · exact fun f h e => by simpa [e, isPlain] using h.plain f (by simp)
  · exact fun fs _ _ => by simp
  · exact fun c fs _ _ _ => by simp

/-- Plain factors are not assembled to a constant, if there are any. -/
theorem assemble_ne_number (c : Rat) {fs : List Expr} (h : PlainFactors fs) (hne : fs ≠ [])
    (n : Numeral) : assemble c fs ≠ number n := by
  revert h hne
  refine assemble_cases (motive := fun _ fs e => PlainFactors fs → fs ≠ [] → e ≠ number n)
    ?_ ?_ ?_ ?_ c fs
  · exact fun c _ hne => absurd rfl hne
  · exact fun f h _ e => by simpa [e, isPlain] using h.plain f (by simp)
  · exact fun fs _ _ _ => by simp
  · exact fun c fs _ _ _ _ => by simp

/-- The expression is its coefficient in front of plain factors. -/
structure Assembled (e : Expr) (fs : List Expr) : Prop where
  plain : PlainFactors fs
  eq_assemble : e = assemble e.split.1 fs

/-- A settled expression other than a fraction is assembled from its factors. -/
theorem Settled.assembled {e : Expr} (h : e.Settled) (hf : ∀ n d, e ≠ fraction n d) :
    ∃ fs, Assembled e fs := by
  cases e with
  | number n =>
    refine ⟨[], ⟨by simp, by simp⟩, ?_⟩
    rw [split, assemble_nil, ← reduced_number, h.reduced_eq]
  | atom a =>
    refine ⟨[atom a], ⟨by simpa using h, by simp [isPlain]⟩, ?_⟩
    simp [split, assemble_one, sort_singleton, bundle?]
  | sum ts =>
    refine ⟨[sum ts], ⟨by simpa using h, by simp [isPlain]⟩, ?_⟩
    simp [split, assemble_one, sort_singleton, bundle?]
  | fraction n d => exact absurd rfl (hf n d)
  | product fs =>
    obtain ⟨normal, settled⟩ := settled_product_iff.1 h
    rcases fs with _ | ⟨f, fs⟩
    · exact absurd normal.several (by simp)
    · -- the first factor is the coefficient, or there is none and the coefficient is one
      by_cases hc : ∃ c, f = number c
      · obtain ⟨c, rfl⟩ := hc
        have hfs : PlainFactors fs := ⟨fun f hf => settled f (by simp [hf]),
          fun f hf => normal.isPlain (by simp [hf]) (normal.onlyFirst f hf)⟩
        have hne : fs ≠ [] := fun hs => by simpa [hs] using normal.several
        have lowest : rational c.value = number c := by
          rw [← reduced_number, (settled (number c) (by simp)).reduced_eq]
        have sorted : sort fs = fs := sort_eq_self (List.pairwise_cons.1 normal.ascending).2.isChain
        refine ⟨fs, hfs, ?_⟩
        rw [split, assemble_of_ne_one (normal.coefficient c (by simp)).2 hne, lowest, sorted]
      · have hfs : PlainFactors (f :: fs) := ⟨settled, List.forall_mem_cons.2
          ⟨normal.isPlain (by simp) fun c h => hc ⟨c, h⟩,
            fun g hg => normal.isPlain (by simp [hg]) (normal.onlyFirst g hg)⟩⟩
        have coefficient : (product (f :: fs)).split.1 = 1 := by
          cases f with
          | number c => exact absurd ⟨c, rfl⟩ hc
          | atom | product | sum | fraction => simp [split]
        have sorted : sort (f :: fs) = f :: fs := sort_eq_self normal.ascending.isChain
        refine ⟨f :: fs, hfs, ?_⟩
        rw [coefficient, assemble_one, sorted]
        rcases fs with _ | ⟨g, fs⟩
        · exact absurd normal.several (by simp)
        · rfl

namespace Assembled

variable {e : Expr} {fs : List Expr}

/-- Without its coefficient the expression is assembled with the coefficient one. -/
theorem rest_eq (h : Assembled e fs) : e.rest = assemble 1 fs := by
  rw [h.eq_assemble, rest_assemble _ h.plain]

/-- The coefficient multiplies the factors in ascending order. -/
theorem split_eq (h : Assembled e fs) : e.split.2 = bundle? (sort fs) := by
  rw [h.eq_assemble, split_assemble _ h.plain]

/-- The numerator of a fraction in normal form may have any other coefficient. -/
theorem normalQuotient {d : Expr} (h : Assembled e fs) (q : NormalQuotient e d) {c : Rat}
    (h0 : c ≠ 0) : NormalQuotient (assemble c fs) d where
  notZero := isZero_assemble_eq_false h0 h.plain
  numerator := assemble_ne_fraction c h.plain
  denominator := q.denominator
  notNumber := q.notNumber
  coefficient := q.coefficient
  distinct := by
    rw [split_assemble c h.plain, ← h.split_eq]
    exact q.distinct

end Assembled

namespace Parts

/-- Taking in plain factors. -/
theorem foldr_add_plain {gs : List Expr} (h : ∀ g ∈ gs, g.isPlain = true) (p : Parts) :
    gs.foldr add p = { p with plain := gs ++ p.plain } := by
  induction gs with
  | nil => rfl
  | cons g gs ih =>
    obtain ⟨hg, hgs⟩ := List.forall_mem_cons.1 h
    rw [List.foldr_cons, ih hgs]
    cases g with
    | atom | sum => rfl
    | number | product | fraction => cases hg

/-- A constant in front of a product goes into the coefficient. -/
theorem ofFactors_cons_rational (c : Rat) (fs : List Expr) : (ofFactors (rational c :: fs)).Perm
    { ofFactors fs with coefficient := c * (ofFactors fs).coefficient } := by
  have hp : ((rational c :: fs).flatMap factors).reverse.Perm
      (rational c :: (fs.flatMap factors).reverse) := by
    simp [rational, factors]
  exact foldr_perm hp

/-- A product is taken apart like its factors. -/
theorem ofFactors_product (fs : List Expr) : ofFactors [product fs] = ofFactors fs := by
  simp [ofFactors, factors]

/-- The parts of an assembled expression are those it was assembled from. -/
theorem ofFactors_assemble (c : Rat) {fs : List Expr} (h : PlainFactors fs) :
    (ofFactors [assemble c fs]).Perm ⟨c, fs, [], []⟩ := by
  have of_plain : ∀ {gs : List Expr}, PlainFactors gs → ofFactors gs = ⟨1, gs.reverse, [], []⟩ := by
    intro gs hgs
    rw [ofFactors, hgs.flatMap_factors,
      foldr_add_plain fun g hg => hgs.plain g (List.mem_reverse.1 hg)]
    simp [empty]
  revert h
  refine assemble_cases
    (motive := fun c fs e => PlainFactors fs → (ofFactors [e]).Perm ⟨c, fs, [], []⟩)
    ?_ ?_ ?_ ?_ c fs
  · intro c _
    simpa [ofFactors, empty] using ofFactors_cons_rational c []
  · intro f h
    rw [of_plain h]
    exact ⟨rfl, by simp, .refl _, .refl _⟩
  · intro fs _ h
    rw [ofFactors_product, of_plain h.sort]
    exact ⟨rfl, (List.reverse_perm _).trans (sort_perm fs), .refl _, .refl _⟩
  · intro c fs _ _ h
    have hp := ofFactors_cons_rational c (Expr.sort fs)
    rw [of_plain h.sort] at hp
    rw [ofFactors_product]
    exact ⟨hp.coefficient.trans (mul_one c),
      hp.plain.trans ((List.reverse_perm _).trans (sort_perm fs)), hp.numerators, hp.denominators⟩

end Parts

/-- A product without fractions is assembled from its parts. -/
theorem multiply_eq_assemble {gs fs : List Expr} {c : Rat} (h0 : c ≠ 0) (h : PlainFactors fs)
    (parts : (Parts.ofFactors gs).Perm ⟨c, fs, [], []⟩) : multiply gs = assemble c fs := by
  have empty : (Parts.ofFactors gs).denominators = [] := List.perm_nil.1 parts.denominators
  rw [multiply_eq]
  simp [parts.coefficient, h0, empty, assemble_perm c h parts.plain]

/-- A constant times an assembled expression goes into the coefficient. -/
theorem multiply_assemble {c d : Rat} (h0 : c * d ≠ 0) {fs : List Expr} (h : PlainFactors fs) :
    multiply [rational c, assemble d fs] = assemble (c * d) fs := by
  refine multiply_eq_assemble h0 h ?_
  have outer := Parts.ofFactors_cons_rational c [assemble d fs]
  have inner := Parts.ofFactors_assemble d h
  exact ⟨outer.coefficient.trans (congrArg (c * ·) inner.coefficient),
    outer.plain.trans inner.plain, outer.numerators.trans inner.numerators,
    outer.denominators.trans inner.denominators⟩

namespace Assembled

variable {e : Expr} {fs : List Expr} {c : Rat}

/-- A constant factor multiplies the coefficient. -/
theorem multiply_eq (h : Assembled e fs) (h0 : c * e.split.1 ≠ 0) :
    multiply [rational c, e] = assemble (c * e.split.1) fs := by
  nth_rewrite 1 [h.eq_assemble]
  exact multiply_assemble h0 h.plain

/-- A constant times what the coefficient multiplies has that constant for a coefficient. -/
theorem multiply_rest (h : Assembled e fs) (h0 : c ≠ 0) :
    multiply [rational c, e.rest] = assemble c fs := by
  rw [h.rest_eq, multiply_assemble (by rwa [mul_one]) h.plain, mul_one]

/-- The coefficient times what it multiplies is the expression. -/
theorem multiply_split_rest (h : Assembled e fs) (h0 : e.split.1 ≠ 0) :
    multiply [rational e.split.1, e.rest] = e := by
  rw [h.multiply_rest h0, ← h.eq_assemble]

end Assembled

/-- A factor of one makes no difference. -/
theorem multiply_one_cons (fs : List Expr) : multiply (one :: fs) = multiply fs := by
  have parts : Parts.ofFactors (one :: fs) = Parts.ofFactors fs := by
    simp [Parts.ofFactors, one, rational, factors, Parts.add, Parts.empty, Numeral.ofRat]
  rw [multiply_eq, multiply_eq fs, parts]

/-- A constant factor of a fraction goes into the numerator. -/
theorem multiply_rational_fraction {c : Rat} (h0 : c ≠ 0) (n d : Expr) :
    multiply [rational c, fraction n d] = divide (multiply [rational c, n]) (multiply [d]) := by
  rw [multiply_eq]
  simp [Parts.ofFactors, rational, factors, Parts.add, Parts.empty, Numeral.ofRat, h0]

/-! ## Quotients -/

namespace Settled

variable {e : Expr}

/-- Induction over settled expressions: those assembled from factors, and fractions. -/
theorem induction {motive : Expr → Prop}
    (assembled : ∀ e fs, e.Settled → Assembled e fs → motive e)
    (fraction : ∀ n d, (fraction n d).Settled → motive n → motive d → motive (fraction n d))
    (h : e.Settled) : motive e := by
  have other : ∀ {e : Expr}, e.Settled → (∀ n d, e ≠ .fraction n d) → motive e := fun h hf => by
    obtain ⟨fs, hfs⟩ := h.assembled hf
    exact assembled _ fs h hfs
  induction e using ind with
  | fraction n d ihn ihd =>
    obtain ⟨-, hn, hd⟩ := settled_fraction_iff.1 h
    exact fraction n d h (ihn hn) (ihd hd)
  | number | atom | product | sum => exact other h (by simp)

/-- A settled expression that is not zero does not have the coefficient zero. -/
theorem split_ne_zero (h : e.Settled) (h0 : e.isZero = false) : e.split.1 ≠ 0 := by
  rw [ne_eq, ← isZero_iff_split h.normal, h0]
  simp

/-- Without its coefficient a term is in normal form and has the coefficient one. -/
theorem rest (h : e.Settled) : e.rest.Settled ∧ e.rest.split = (1, e.split.2) := by
  refine induction (motive := fun e => e.rest.Settled ∧ e.rest.split = (1, e.split.2)) ?_ ?_ h
  · intro e fs _ hfs
    rw [hfs.rest_eq, hfs.split_eq]
    exact ⟨settled_assemble one_ne_zero hfs.plain, split_assemble 1 hfs.plain⟩
  · rintro n d h ⟨settled, coefficient⟩ -
    obtain ⟨quotient, hn, hd⟩ := settled_fraction_iff.1 h
    have rest_eq : (fraction n d).rest = fraction n.rest d := by
      rw [Expr.rest, split, Option.getD_some, Expr.rest]
    rw [rest_eq, split, coefficient, split]
    refine ⟨settled_fraction_iff.2 ⟨fun hd0 => ?_, settled, hd⟩, rfl⟩
    -- over a denominator that is not zero the numerator is assembled from factors
    obtain ⟨fs, hfs⟩ := hn.assembled (quotient hd0).numerator
    rw [hfs.rest_eq]
    exact hfs.normalQuotient (quotient hd0) one_ne_zero

/-- A term with the coefficient one is all rest. -/
theorem rest_eq_self (h : e.Settled) : e.split.1 = 1 → e.rest = e := by
  refine induction (motive := fun e => e.split.1 = 1 → e.rest = e) ?_ ?_ h
  · intro e fs _ hfs h1
    rw [hfs.rest_eq, ← h1, ← hfs.eq_assemble]
  · intro n d _ ihn _ h1
    rw [split] at h1
    rw [Expr.rest, split, Option.getD_some, ← Expr.rest, ihn h1]

end Settled

/-- A fraction in normal form is the quotient of its parts. -/
theorem divide_of_settled {n d : Expr} (h : (fraction n d).Settled) :
    divide n d = fraction n d := by
  obtain ⟨quotient, hn, hd⟩ := settled_fraction_iff.1 h
  by_cases hd0 : d.isZero
  · rw [divide_eq, if_pos hd0]
  have q := quotient (Bool.eq_false_iff.2 hd0)
  obtain ⟨fs, hfs⟩ := hn.assembled q.numerator
  rw [divide_plain q.numerator q.denominator q.notNumber (Bool.eq_false_iff.2 hd0) q.notZero,
    hd.rest_eq_self q.coefficient, q.distinct, q.coefficient, div_one,
    hfs.multiply_split_rest (hn.split_ne_zero q.notZero)]
  rfl

/-- The factors of a product are not products. -/
theorem ne_product_of_mem_factors {e f : Expr} (h : f ∈ e.factors) (gs : List Expr) :
    f ≠ product gs := by
  induction e using factors.induct with
  | case1 fs ih =>
    rw [factors, List.mem_flatMap] at h
    obtain ⟨g, hg, hf⟩ := h
    exact ih g hg hf
  | case2 e he =>
    rw [factors, List.mem_singleton] at h
    · exact h ▸ he gs
    · exact he

/-- The factors of a settled expression are settled. -/
theorem settled_factors {e : Expr} (h : e.Settled) : ∀ f ∈ e.factors, f.Settled :=
  forall_mem_factors (fun _ h => (settled_product_iff.1 h).2) h

/-- The parts of a product of settled factors are settled. -/
structure Parts.Settled (p : Parts) : Prop where
  plain : PlainFactors p.plain
  numerators : ∀ f ∈ p.numerators, f.Settled
  denominators : ∀ f ∈ p.denominators, f.Settled

/-- Taking in a settled factor that is no product keeps the parts settled. -/
theorem Parts.settled_add {p : Parts} {f : Expr} (h : p.Settled) (hf : f.Settled)
    (notProduct : ∀ gs, f ≠ product gs) : (p.add f).Settled := by
  obtain ⟨hp, hn, hd⟩ := h
  cases f with
  | number n => exact ⟨hp, hn, hd⟩
  | product gs => exact absurd rfl (notProduct gs)
  | fraction n d =>
    obtain ⟨-, hn', hd'⟩ := settled_fraction_iff.1 hf
    exact ⟨hp, List.forall_mem_cons.2 ⟨hn', hn⟩, List.forall_mem_cons.2 ⟨hd', hd⟩⟩
  | atom | sum =>
    exact ⟨⟨List.forall_mem_cons.2 ⟨hf, hp.settled⟩, List.forall_mem_cons.2 ⟨rfl, hp.plain⟩⟩,
      hn, hd⟩

/-- The parts of settled factors are settled. -/
theorem Parts.settled_ofFactors {fs : List Expr} (h : ∀ f ∈ fs, f.Settled) :
    (ofFactors fs).Settled := by
  refine ofFactors_induction (p := fun f => f.Settled ∧ ∀ gs, f ≠ product gs)
    ⟨⟨by simp [empty], by simp [empty]⟩, by simp [empty], by simp [empty]⟩
    (fun _ _ hp hf => settled_add hp hf.1 hf.2) fun f hf g hg => ?_
  exact ⟨settled_factors (h f hf) g hg, ne_product_of_mem_factors hg⟩

/-- Products and quotients of settled expressions are settled. -/
theorem settled_multiply_divide :
    (∀ fs : List Expr, (∀ f ∈ fs, f.Settled) → (multiply fs).Settled) ∧
    ∀ n d : Expr, n.Settled → d.Settled → (divide n d).Settled := by
  apply multiply_divide_induction
    (P := fun fs e => (∀ f ∈ fs, f.Settled) → e.Settled)
    (Q := fun n d e => n.Settled → d.Settled → e.Settled)
  case vanishing => exact fun _ _ _ => settled_rational 0
  case plain => exact fun fs hc _ h => settled_assemble hc (Parts.settled_ofFactors h).plain
  case joined =>
    rintro fs _ top bottom e _ _ rfl - - iht ihb ihe h
    have parts := Parts.settled_ofFactors h
    refine ihe (iht ?_) (ihb parts.denominators)
    simpa [or_imp, forall_and] using ⟨settled_rational _, parts.plain.settled, parts.numerators⟩
  case raw =>
    exact fun n d hz hn hd => settled_fraction_iff.2 ⟨fun h0 => by simp [h0] at hz, hn, hd⟩
  case zero => exact fun n d _ _ _ _ => settled_rational 0
  case overFraction =>
    intro t b d m e _ _ _ ihm ihe h hd
    obtain ⟨-, ht, hb⟩ := settled_fraction_iff.1 h
    exact ihe ht (ihm (by simp [hb, hd]))
  case underFraction =>
    intro n t b m e _ _ _ _ ihm ihe hn h
    obtain ⟨-, ht, hb⟩ := settled_fraction_iff.1 h
    exact ihe (ihm (by simp [hn, hb])) ht
  case overConstant =>
    exact fun n c e _ _ _ ihe hn _ => ihe (by simp [hn, settled_rational])
  case cancelled => exact fun n d _ _ _ _ _ _ _ _ => settled_rational _
  case general =>
    rintro n d _ hn' hd' hc hd0 hn0 distinct rfl ihe hn hd
    obtain ⟨fs, hfs⟩ := hn.assembled hn'
    obtain ⟨gs, hgs⟩ := hd.assembled hd'
    have hne : gs ≠ [] := fun h => hc _ (by rw [hgs.eq_assemble, h, assemble_nil, rational])
    have h0 : n.split.1 / d.split.1 ≠ 0 :=
      div_ne_zero (hn.split_ne_zero hn0) (hd.split_ne_zero hd0)
    refine settled_fraction_iff.2 ⟨fun _ => ?_, ihe (by simp [settled_rational, hn.rest.1]),
      hd.rest.1⟩
    rw [hfs.split_eq, hgs.rest_eq] at distinct
    rw [hfs.multiply_rest h0, hgs.rest_eq]
    refine ⟨isZero_assemble_eq_false h0 hfs.plain, assemble_ne_fraction _ hfs.plain,
      assemble_ne_fraction 1 hgs.plain, assemble_ne_number 1 hgs.plain hne, ?_, ?_⟩
    · rw [split_assemble 1 hgs.plain]
    · rw [split_assemble _ hfs.plain]
      exact distinct

/-- A product of settled factors is settled. -/
theorem settled_multiply {fs : List Expr} (h : ∀ f ∈ fs, f.Settled) : (multiply fs).Settled :=
  settled_multiply_divide.1 fs h

/-- A quotient of settled expressions is settled. -/
theorem settled_divide {n d : Expr} (hn : n.Settled) (hd : d.Settled) : (divide n d).Settled :=
  settled_multiply_divide.2 n d hn hd

/-! ## Scaled terms -/

/-- A settled expression is the product of itself alone. -/
theorem multiply_singleton {e : Expr} (h : e.Settled) : multiply [e] = e := by
  refine h.induction (motive := fun e => multiply [e] = e) ?_ ?_
  · intro e fs h hfs
    by_cases h0 : e.isZero
    · -- apart from fractions only the constant zero is zero at sight
      have eq_assemble := hfs.eq_assemble
      rw [(isZero_iff_split h.normal).1 h0] at eq_assemble
      by_cases hne : fs = []
      · rw [hne, assemble_nil] at eq_assemble
        rw [eq_assemble, multiply_eq]
        simp [Parts.ofFactors, factors, Parts.add, Parts.empty, rational, Numeral.ofRat, zero]
      · rw [assemble_of_ne_one zero_ne_one hne] at eq_assemble
        rw [eq_assemble] at h
        have := (settled_product_iff.1 h).1.coefficient (.ofRat 0) (by simp [rational])
        exact absurd rfl this.1
    · have product := multiply_eq_assemble (h.split_ne_zero (Bool.eq_false_iff.2 h0)) hfs.plain
        (Parts.ofFactors_assemble _ hfs.plain)
      rwa [← hfs.eq_assemble] at product
  · intro n d h ihn ihd
    rw [← multiply_one_cons, one, multiply_rational_fraction one_ne_zero, ← one, multiply_one_cons,
      ihn, ihd, divide_of_settled h]

/-- A constant factor multiplies the coefficient and leaves the rest as it is. -/
theorem split_multiply_rational {c : Rat} (hc : c ≠ 0) {e : Expr} (h : e.Settled) :
    e.isZero = false → (multiply [rational c, e]).split = (c * e.split.1, e.split.2) := by
  refine h.induction (motive := fun e => e.isZero = false →
    (multiply [rational c, e]).split = (c * e.split.1, e.split.2)) ?_ ?_
  · intro e fs h hfs h0
    rw [hfs.multiply_eq (mul_ne_zero hc (h.split_ne_zero h0)), split_assemble _ hfs.plain,
      hfs.split_eq]
  · intro n d h ihn _ h0
    obtain ⟨quotient, hn, hd⟩ := settled_fraction_iff.1 h
    rw [isZero] at h0
    have settled : (fraction (multiply [rational c, n]) d).Settled := by
      refine settled_fraction_iff.2 ⟨fun hd0 => ?_,
        settled_multiply (by simp [settled_rational, hn]), hd⟩
      have nonzero := mul_ne_zero hc (hn.split_ne_zero h0)
      obtain ⟨fs, hfs⟩ := hn.assembled (quotient hd0).numerator
      rw [hfs.multiply_eq nonzero]
      exact hfs.normalQuotient (quotient hd0) nonzero
    rw [multiply_rational_fraction hc, multiply_singleton hd, divide_of_settled settled, split,
      ihn h0, split]

/-- A term is the product of its coefficient and the rest. -/
theorem multiply_split_rest {e : Expr} (h : e.Settled) :
    e.isZero = false → multiply [rational e.split.1, e.rest] = e := by
  refine h.induction (motive := fun e => e.isZero = false →
    multiply [rational e.split.1, e.rest] = e) ?_ ?_
  · exact fun e fs h hfs h0 => hfs.multiply_split_rest (h.split_ne_zero h0)
  · intro n d h ihn _ h0
    obtain ⟨-, hn, hd⟩ := settled_fraction_iff.1 h
    rw [isZero] at h0
    rw [rest, split, Option.getD_some, ← rest, multiply_rational_fraction (hn.split_ne_zero h0),
      ihn h0, multiply_singleton hd, divide_of_settled h]

/-- Scaling what the coefficient of a term multiplies is multiplying it. -/
theorem scale_eq_multiply {c : Rat} (hc : c ≠ 0) {e : Expr} (h : e.Settled) :
    scale c e.split.2 = multiply [rational c, e.rest] := by
  have settled := h.rest.1
  rw [rest] at settled ⊢
  cases hr : e.split.2 with
  | none =>
    have product := multiply_assemble (by simpa using hc : c * 1 ≠ 0)
      (⟨by simp, by simp⟩ : PlainFactors [])
    rw [assemble_nil, assemble_nil, mul_one, ← one] at product
    rw [scale, Option.getD_none, product]
  | some r =>
    rw [hr, Option.getD_some] at settled
    rw [Option.getD_some]
    by_cases h1 : c = 1
    · rw [h1, ← one, multiply_one_cons, multiply_singleton settled, scale.eq_def]
      simp
    · cases r with
      | fraction n d =>
        have hd := (settled_fraction_iff.1 settled).2.2
        rw [scale, multiply_rational_fraction hc, multiply_singleton hd]
        simp [h1]
      | number | atom | product | sum => simp [scale, h1]

end AreaMethod.Expr
