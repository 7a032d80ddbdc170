import AreaMethod.Proofs.Expansion

/-!
# Polynomials: values and the zero test

Multiplying out and grouping like terms keep the value of an expression (`expanded_keeps`,
`grouped_keeps`). Without fractions the grouped expression is a polynomial in its atoms with
pairwise different monomials. Where the atoms are independent variables, these are determined by
its value (`likeTerms_eq_of_value_eq`), so it is zero only if no term is left
(`isZero_of_value_eq_zero`).
-/

namespace AreaMethod

/-! ## Values -/

section
variable {F : Type*} [Field F] {v : Atom → Option F}

/-- The value of a monomial. -/
def Monomial.value (v : Atom → Option F) (m : Monomial) : F :=
  m.coefficient.value * (m.factors.map (Expr.value v)).prod

/-- The factors of all the monomials have values, and the sum of the monomials is `q`. -/
structure AddUpTo (v : Atom → Option F) (ms : List Monomial) (q : F) : Prop where
  defined : ∀ m ∈ ms, ∀ f ∈ m.factors, f.DefinedAt v
  total : (ms.map (Monomial.value v)).sum = q

namespace Expr

@[simp] theorem value_ofMonomials (ms : List Monomial) :
    (ofMonomials ms).value v = (ms.map (Monomial.value v)).sum := by
  rw [ofMonomials, value_sum, List.map_map]
  refine congrArg List.sum (List.map_congr_left fun m _ => ?_)
  simp [Monomial.toExpr, Monomial.value]

/-- A sum of monomials is defined where all their factors are. -/
theorem definedAt_ofMonomials {ms : List Monomial} :
    (ofMonomials ms).DefinedAt v ↔ ∀ m ∈ ms, ∀ f ∈ m.factors, f.DefinedAt v := by
  rw [ofMonomials, definedAt_sum, List.forall_mem_map]
  exact forall₂_congr fun m _ => by simp [Monomial.toExpr]

variable [CharZero F]

/-- Multiplying two sums of monomials out multiplies their values. -/
theorem cross_keeps {ms ns : List Monomial} {p q : F} (hm : AddUpTo v ms p) (hn : AddUpTo v ns q) :
    AddUpTo v (cross ms ns) (p * q) := by
  constructor
  · intro k hk f hf
    obtain ⟨m, hm', hk⟩ := List.mem_flatMap.1 hk
    obtain ⟨n, hn', rfl⟩ := List.mem_map.1 hk
    exact (List.mem_append.1 hf).elim (hm.defined m hm' f) (hn.defined n hn' f)
  · have mul_value : ∀ m n : Monomial, (m.mul n).value v = m.value v * n.value v := by
      intro m n
      simp only [Monomial.mul, Monomial.value, Numeral.ofRat, List.map_append, List.prod_append,
        Rat.cast_mul]
      ring
    rw [← hm.total, ← hn.total]
    clear hm hn
    induction ms with
    | nil => simp [cross]
    | cons m ms ih =>
      rw [cross] at ih
      simp only [cross, List.flatMap_cons, List.map_append, List.sum_append, ih, List.map_cons,
        List.sum_cons, add_mul, List.map_map]
      congr 1
      rw [← List.sum_map_mul_left]
      exact congrArg List.sum (List.map_congr_left fun n _ => mul_value m n)

omit [CharZero F] in
/-- Sorting the factors of monomials keeps their sum. -/
theorem sorted_keeps {ms : List Monomial} {q : F} (h : AddUpTo v ms q) :
    AddUpTo v (ms.map .sorted) q := by
  refine ⟨fun m hm f hf => ?_, ?_⟩
  · obtain ⟨k, hk, rfl⟩ := List.mem_map.1 hm
    exact h.defined k hk f ((sort_perm _).mem_iff.1 hf)
  · rw [List.map_map, ← h.total]
    refine congrArg List.sum (List.map_congr_left fun m _ => ?_)
    rw [Function.comp_apply, Monomial.value, Monomial.value, Monomial.sorted, prod_sort]

/-- The monomials of an expression that has a value add up to it. -/
theorem expand_keeps {e : Expr} (h : e.DefinedAt v) : AddUpTo v e.expand (e.value v) := by
  induction e using ind with
  | number n =>
    rw [expand]
    split
    next h0 => exact ⟨by simp, by simp [beq_iff_eq.1 h0]⟩
    next => exact ⟨by simp, by simp [Monomial.value]⟩
  | atom a =>
    rw [expand]
    exact ⟨by simpa using h, by simp [Monomial.value, Numeral.ofRat]⟩
  | product fs ih =>
    rw [expand_product]
    refine sorted_keeps ?_
    have folded : ∀ (gs : List Expr) (ms : List Monomial) (q : F), (∀ g ∈ gs, g ∈ fs) →
        AddUpTo v ms q →
        AddUpTo v ((gs.map expand).foldl cross ms) (q * (gs.map (value v)).prod) := by
      intro gs
      induction gs with
      | nil => simp
      | cons g gs ihg =>
        intro ms q hgs hms
        obtain ⟨hg, hgs⟩ := List.forall_mem_cons.1 hgs
        have hg' := ih g hg ((definedAt_product v fs).1 h g hg)
        rw [List.map_cons, List.map_cons, List.prod_cons, ← mul_assoc]
        exact ihg _ _ hgs (cross_keeps hms hg')
    have start : AddUpTo v [Monomial.one] (1 : F) :=
      ⟨by simp [Monomial.one], by simp [Monomial.one, Monomial.value, Numeral.ofRat]⟩
    simpa using folded fs _ _ (fun _ hg => hg) start
  | sum ts ih =>
    rw [expand, value_sum]
    rw [definedAt_sum] at h
    induction ts with
    | nil => exact ⟨by simp, by simp⟩
    | cons t ts ihs =>
      obtain ⟨ht, hts⟩ := List.forall_mem_cons.1 h
      have qt := ih t List.mem_cons_self ht
      have qts := ihs (fun u hu => ih u (List.mem_cons_of_mem t hu)) hts
      rw [List.flatMap_cons, List.map_cons, List.sum_cons]
      refine ⟨fun m hm => (List.mem_append.1 hm).elim (qt.defined m) (qts.defined m), ?_⟩
      rw [List.map_append, List.sum_append, qt.total, qts.total]
  | fraction n d ihn ihd =>
    obtain ⟨hn, hd, hd0⟩ := (definedAt_fraction v n d).1 h
    have qn := ihn hn
    have qd := ihd hd
    rw [expand]
    refine ⟨?_, ?_⟩
    · simpa [definedAt_ofMonomials, qd.total, hd0] using ⟨qn.defined, qd.defined⟩
    · simp [Monomial.value, Numeral.ofRat, qn.total, qd.total]

/-- Multiplying out keeps the value. -/
theorem expanded_keeps (e : Expr) : Keeps v e e.expanded := by
  intro h
  obtain ⟨hd, hv⟩ := expand_keeps h
  exact ⟨definedAt_ofMonomials.2 hd, by rw [expanded, value_ofMonomials, hv]⟩

/-- Grouping like terms keeps the value. -/
theorem grouped_keeps (e : Expr) : Keeps v e e.grouped := by
  intro h
  have read : AddUpTo v (e.monomials?.getD e.expand) (e.value v) := by
    cases hms : e.monomials? with
    | none => exact expand_keeps h
    | some ms =>
      obtain ⟨rfl, -⟩ := monomials?_eq_some hms
      exact ⟨definedAt_ofMonomials.1 h, (value_ofMonomials ms).symm⟩
  have hw : ∀ k l : List Expr, cmpList k l = .eq →
      (k.map (value v)).prod = (l.map (value v)).prod := by
    intro k l hkl
    have hr : ∀ fs : List Expr, (fs.map (value v)).prod = ((fs.map reduced).map (value v)).prod :=
      fun fs => by simp [List.map_map, Function.comp_def]
    rw [hr k, cmpList_eq_iff.1 hkl, ← hr]
  rw [grouped]
  refine ⟨definedAt_ofMonomials.2 fun m hm f hf => ?_, ?_⟩
  · obtain ⟨u, hu, rfl⟩ := List.mem_map.1 hm
    obtain ⟨w, hw, hwu⟩ := mem_collect hu
    obtain ⟨k, hk, rfl⟩ := List.mem_map.1 hw
    have hwu : k.factors = u.1 := hwu
    exact read.defined k hk f (hwu ▸ hf)
  · rw [value_ofMonomials, ← read.total, List.map_map]
    refine (sum_collect (w := fun k : List Expr => (k.map (value v)).prod) hw _).trans ?_
    rw [List.map_map]
    rfl

end Expr

end

/-! ## Independent variables -/

namespace Expr

open Shape

/-- A list of atoms in ascending order, as the factors of a monomial. -/
structure AtomsAscending (p : Atom → Prop) (fs : List Expr) : Prop where
  atoms : ∀ f ∈ fs, ∃ a, p a ∧ f = atom a
  ascending : fs.Pairwise fun f g => leCode f.code g.code

variable {p : Atom → Prop}

/-- Atoms have no constants, so none with a negative denominator. -/
theorem positive_of_atoms {fs : List Expr} (h : ∀ f ∈ fs, ∃ a, p a ∧ f = atom a) :
    ∀ f ∈ fs, positive.Within f := by
  intro f hf
  obtain ⟨a, -, rfl⟩ := h f hf
  exact (within_atom a).2 trivial

/-- Without fractions, the factors of the monomials that are grouped are atoms in ascending
order. -/
theorem atomsAscending_grouped {e : Expr} (h : (polynomial p).Within e) :
    ∀ m ∈ e.monomials?.getD e.expand, AtomsAscending p m.factors := by
  intro m hm
  obtain ⟨factors, ascending⟩ := factors_of_monomials hm
  have within := (within_toExpr.1 (within_monomials h m hm)).2
  have atoms : ∀ f ∈ m.factors, ∃ a, p a ∧ f = atom a := by
    intro f hf
    have hw := within f hf
    have hfactor := factors f hf
    cases f with
    | atom a => exact ⟨a, (within_atom a).1 hw, rfl⟩
    | fraction n d => exact absurd ((within_fraction n d).1 hw).1 id
    | number | product | sum => cases hfactor
  exact ⟨atoms, pairwise_of_isChain (positive_of_atoms atoms) ascending⟩

/-- The monomials with like terms collected, as pairs of a list of factors and a coefficient. -/
def likeTerms (e : Expr) : List (List Expr × Rat) :=
  collect cmpList ((e.monomials?.getD e.expand).map fun m => (m.factors, m.coefficient.value))

/-- Grouping is writing out the like terms with their coefficients. -/
theorem grouped_eq (e : Expr) :
    e.grouped = ofMonomials (e.likeTerms.map fun t => ⟨.ofRat t.2, t.1⟩) := rfl

/-- The factors of a like term are those of a monomial. -/
theorem exists_of_mem_likeTerms {e : Expr} {t : List Expr × Rat} (h : t ∈ e.likeTerms) :
    ∃ m ∈ e.monomials?.getD e.expand, m.factors = t.1 := by
  obtain ⟨u, hu, hut⟩ := mem_collect h
  obtain ⟨m, hm, rfl⟩ := List.mem_map.1 hu
  exact ⟨m, hm, hut⟩

/-- In a polynomial the factors of like terms are atoms in ascending order. -/
theorem atomsAscending_likeTerms {e : Expr} (h : (polynomial p).Within e) :
    ∀ t ∈ e.likeTerms, AtomsAscending p t.1 := by
  intro t ht
  obtain ⟨m, hm, hmt⟩ := exists_of_mem_likeTerms ht
  exact hmt ▸ atomsAscending_grouped h m hm

open MvPolynomial

/-- How often each atom occurs in a list of factors. -/
noncomputable def exponents (fs : List Expr) : Atom →₀ ℕ :=
  Multiset.toFinsupp (fs.flatMap atomList : Multiset Atom)

/-- Ascending lists of atoms are told apart by how often each atom occurs. -/
theorem AtomsAscending.eq_of_exponents_eq {fs gs : List Expr} (hf : AtomsAscending p fs)
    (hg : AtomsAscending p gs) (h : exponents fs = exponents gs) : fs = gs := by
  have names : ∀ {fs : List Expr}, (∀ f ∈ fs, ∃ a, p a ∧ f = atom a) →
      fs = (fs.flatMap atomList).map atom := by
    intro fs
    induction fs with
    | nil => simp
    | cons f fs ih =>
      intro h
      obtain ⟨⟨a, -, rfl⟩, hfs⟩ := List.forall_mem_cons.1 h
      simpa [atomList] using ih hfs
  have perm : fs.Perm gs := by
    rw [names hf.atoms, names hg.atoms]
    exact (Multiset.coe_eq_coe.1 (Multiset.toFinsupp.injective h)).map atom
  refine perm.eq_of_pairwise (fun f g hf' hg' hfg hgf => ?_) hf.ascending hg.ascending
  obtain ⟨a, -, rfl⟩ := hf.atoms f hf'
  obtain ⟨b, -, rfl⟩ := hg.atoms g hg'
  have hc := code_eq_code_iff.1 (leCode_antisymm hfg hgf)
  simpa [reduced] using hc

end Expr

/-- Rational functions in the atoms, as independent variables. -/
abbrev RationalFunction := FractionRing (MvPolynomial Atom ℚ)

/-- An atom as a variable. -/
noncomputable def RationalFunction.variable (a : Atom) : RationalFunction :=
  algebraMap (MvPolynomial Atom ℚ) RationalFunction (MvPolynomial.X a)

namespace Expr

open Shape MvPolynomial

variable {p : Atom → Prop}

/-- The product of atoms is a monomial. -/
theorem prod_atoms {v : Atom → Option RationalFunction}
    (hv : ∀ a, p a → v a = some (.variable a)) {fs : List Expr}
    (h : ∀ f ∈ fs, ∃ a, p a ∧ f = atom a) :
    (fs.map (value v)).prod =
      algebraMap (MvPolynomial Atom ℚ) RationalFunction (monomial (exponents fs) 1) := by
  induction fs with
  | nil => simp [exponents]
  | cons f fs ih =>
    obtain ⟨⟨a, ha, rfl⟩, hfs⟩ := List.forall_mem_cons.1 h
    have split : exponents (atom a :: fs) = Finsupp.single a 1 + exponents fs := by
      rw [exponents, exponents, List.flatMap_cons, atomList, ← Multiset.coe_add,
        Multiset.toFinsupp_add]
      simp
    rw [List.map_cons, List.prod_cons, ih hfs, value_atom, hv a ha, Option.getD_some, split,
      RationalFunction.variable, ← map_mul, X, monomial_mul, one_mul]

/-- A polynomial is defined where its atoms are. -/
theorem definedAt_of_polynomial {F : Type*} [Field F] {v : Atom → Option F}
    (hv : ∀ a, p a → (v a).isSome) {e : Expr} (h : (polynomial p).Within e) : e.DefinedAt v := by
  induction e using ind with
  | number n => exact definedAt_number v n
  | atom a => exact (definedAt_atom v a).2 (hv a ((within_atom a).1 h))
  | product fs ih =>
    exact (definedAt_product v fs).2 fun f hf => ih f hf ((within_product fs).1 h f hf)
  | sum ts ih => exact (definedAt_sum v ts).2 fun t ht => ih t ht ((within_sum ts).1 h t ht)
  | fraction n d _ _ => exact absurd ((within_fraction n d).1 h).1 id

/-- Like terms are collected in strictly ascending order of their factors. -/
theorem ascending_likeTerms {e : Expr}
    (h : ∀ m ∈ e.monomials?.getD e.expand, ∀ f ∈ m.factors, positive.Within f) :
    e.likeTerms.Pairwise fun s t => cmpList s.1 t.1 = .lt :=
  pairwise_collect_of_code cmpCode (fun fs => (product fs).code) (List.forall_mem_map.2 fun m hm =>
    List.forall_mem_map.2 fun n hn => cmpList_eq_cmpCode (h m hm) (h n hn))

/-- The polynomial that a linear combination of monomials stands for. -/
noncomputable def polynomialOf (ts : List (List Expr × Rat)) : MvPolynomial Atom ℚ :=
  (ts.map fun t => monomial (exponents t.1) t.2).sum

/-- As rational functions in the atoms, the terms add up to the polynomial. -/
theorem algebraMap_polynomialOf {v : Atom → Option RationalFunction}
    (hv : ∀ a, p a → v a = some (.variable a)) {ts : List (List Expr × Rat)}
    (h : ∀ t ∈ ts, AtomsAscending p t.1) :
    algebraMap (MvPolynomial Atom ℚ) RationalFunction (polynomialOf ts) =
      (ts.map fun t => (t.2 : RationalFunction) * (t.1.map (value v)).prod).sum := by
  rw [polynomialOf, map_list_sum, List.map_map]
  refine congrArg List.sum (List.map_congr_left fun t ht => ?_)
  have hq : algebraMap (MvPolynomial Atom ℚ) RationalFunction (C t.2) = (t.2 : RationalFunction) :=
    eq_ratCast ((algebraMap (MvPolynomial Atom ℚ) RationalFunction).comp C) t.2
  rw [prod_atoms hv (h t ht).atoms, ← hq, ← map_mul, C_mul_monomial, mul_one, Function.comp_apply]

/-- Different monomials that add up to the same polynomial are the same. -/
theorem mem_of_polynomialOf_eq {ts us : List (List Expr × Rat)}
    (ht : ∀ t ∈ ts, AtomsAscending p t.1) (hu : ∀ u ∈ us, AtomsAscending p u.1)
    (hts : ts.Pairwise fun s t => s.1 ≠ t.1) (hus : us.Pairwise fun s t => s.1 ≠ t.1)
    (h : polynomialOf ts = polynomialOf us) {t : List Expr × Rat} (mem : t ∈ ts) (h0 : t.2 ≠ 0) :
    t ∈ us := by
  have distinct : ∀ {ts : List (List Expr × Rat)}, (∀ t ∈ ts, AtomsAscending p t.1) →
      (ts.Pairwise fun s t => s.1 ≠ t.1) →
      (ts.map fun t => (exponents t.1, t.2)).Pairwise fun s t => s.1 ≠ t.1 := by
    intro ts ht hts
    refine List.pairwise_map.2 (hts.imp_of_mem fun {s t} hs ht' hst heq => hst ?_)
    exact (ht s hs).eq_of_exponents_eq (ht t ht') heq
  -- a value for each monomial extends linearly to all polynomials
  have sums : ∀ (w : (Atom →₀ ℕ) → ℚ) (ts : List (List Expr × Rat)),
      ((ts.map fun t => (exponents t.1, t.2)).map fun t => t.2 * w t.1).sum =
        (basisMonomials Atom ℚ).constr ℚ w (polynomialOf ts) := by
    intro w ts
    rw [polynomialOf, map_list_sum, List.map_map, List.map_map]
    refine congrArg List.sum (List.map_congr_left fun t _ => ?_)
    have basis : monomial (exponents t.1) t.2 = t.2 • basisMonomials Atom ℚ (exponents t.1) := by
      rw [coe_basisMonomials, smul_monomial, smul_eq_mul, mul_one]
    rw [Function.comp_apply, Function.comp_apply, basis, map_smul, Module.Basis.constr_basis,
      smul_eq_mul]
  have found := mem_of_sums_eq (distinct ht hts) (distinct hu hus)
    (fun w => by rw [sums, sums, h]) (List.mem_map_of_mem mem) h0
  obtain ⟨u, hu', hut⟩ := List.mem_map.1 found
  obtain ⟨hkey, hcoeff⟩ := Prod.mk.inj hut
  rwa [show t = u from Prod.ext ((ht t mem).eq_of_exponents_eq (hu u hu') hkey.symm) hcoeff.symm]

/-- As a rational function in the atoms, an expression without fractions is the polynomial that its
like terms stand for. -/
theorem algebraMap_likeTerms {v : Atom → Option RationalFunction}
    (hv : ∀ a, p a → v a = some (.variable a)) {e : Expr} (h : (polynomial p).Within e) :
    algebraMap (MvPolynomial Atom ℚ) RationalFunction (polynomialOf e.likeTerms) = e.value v := by
  have defined : ∀ a, p a → (v a).isSome := fun a ha => by rw [hv a ha]; rfl
  obtain ⟨-, hg⟩ := grouped_keeps e (definedAt_of_polynomial defined h)
  rw [algebraMap_polynomialOf hv (atomsAscending_likeTerms h), ← hg, grouped_eq, value_ofMonomials,
    List.map_map]
  rfl

/-- Polynomials in independent variables that are equal have the same like terms. -/
theorem likeTerms_eq_of_value_eq {v : Atom → Option RationalFunction}
    (hv : ∀ a, p a → v a = some (.variable a)) {e f : Expr} (he : (polynomial p).Within e)
    (hf : (polynomial p).Within f) (h : e.value v = f.value v) : e.likeTerms = f.likeTerms := by
  have equal : polynomialOf e.likeTerms = polynomialOf f.likeTerms := by
    apply IsFractionRing.injective (MvPolynomial Atom ℚ) RationalFunction
    rw [algebraMap_likeTerms hv he, algebraMap_likeTerms hv hf, h]
  have ascending : ∀ {e : Expr}, (polynomial p).Within e →
      e.likeTerms.Pairwise fun s t => cmpList s.1 t.1 = .lt := fun h =>
    ascending_likeTerms fun m hm => positive_of_atoms (atomsAscending_grouped h m hm).atoms
  have transfer : ∀ {e f : Expr}, (polynomial p).Within e → (polynomial p).Within f →
      polynomialOf e.likeTerms = polynomialOf f.likeTerms → ∀ t ∈ e.likeTerms, t ∈ f.likeTerms :=
    fun he hf equal t ht => mem_of_polynomialOf_eq (atomsAscending_likeTerms he)
      (atomsAscending_likeTerms hf) (distinct_of_ascending (ascending he))
      (distinct_of_ascending (ascending hf)) equal ht (ne_zero_of_mem_collect ht)
  exact eq_of_mem_iff (ascending he) (ascending hf) fun t =>
    ⟨transfer he hf equal t, transfer hf he equal.symm t⟩

/-- The sum of no terms is zero. -/
theorem addUp_nil : addUp [] = zero := by
  have hm : merged (termsOf []) = [] := by simp [merged, termsOf]
  rw [addUp, hm]
  rfl

/-- A polynomial in independent variables that is zero has no terms left after grouping. -/
theorem isZero_of_value_eq_zero {v : Atom → Option RationalFunction}
    (hv : ∀ a, p a → v a = some (.variable a)) {e : Expr} (h : (polynomial p).Within e)
    (h0 : e.value v = 0) : e.grouped.simplify.isZero = true := by
  have nothing : e.likeTerms = [] := by
    rw [likeTerms_eq_of_value_eq hv h ((within_sum []).2 (by simp)) (by simpa using h0)]
    simp [likeTerms, monomials?]
  rw [grouped_eq, nothing, List.map_nil, ofMonomials, List.map_nil, simplify, List.map_nil,
    addUp_nil]
  simp [zero, rational, isZero, Numeral.ofRat]

end Expr

end AreaMethod
