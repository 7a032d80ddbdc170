import AreaMethod.Proofs.Settled

/-!
# Simplified expressions are in normal form

A simplified expression is in normal form (`isNormal_simplify`), and to simplify it again changes
nothing (`simplify_simplify_same`). Trees are compared as everywhere else, by the values of their
constants: nothing is said on how a lone constant is written.

For sums the point is that scaling what a coefficient multiplies gives a term with the new
coefficient and the same rest (`settled_scale`). So merged terms have the rests they were collected
by, which are in strictly ascending order, and to collect them once more leaves them as they are
(`addUp_of_settled`).

Both are first shown of expressions whose constants are in lowest terms. Writing constants otherwise
makes no difference to what simplification does (`reduced_simplify`) or to the normal form of its
outcome (`isNormal_of_reduced`).

The same holds of the single fraction that an expression is brought into. It is built from settled
parts by the operations of simplification, so it is settled, and it has no fraction within
(`isSingle_singleFraction`). To do so again changes nothing (`singleFraction_singleFraction_same`).
-/

namespace AreaMethod.Expr

open Shape

/-! ## Sums -/

/-- The terms of settled expressions are settled. -/
theorem settled_termsOf {es : List Expr} (h : ∀ e ∈ es, e.Settled) :
    ∀ t ∈ termsOf es, t.Settled := by
  intro t ht
  obtain ⟨e, he, ht⟩ := List.mem_flatMap.1 ht
  rw [terms.eq_def] at ht
  split at ht
  · exact (settled_sum_iff.1 (h _ he)).2 t ht
  · split at ht
    · cases ht
    · rw [List.mem_singleton.1 ht]
      exact h _ he

/-- The rests of collected terms are in strictly ascending order. -/
theorem ascending_collect {ts : List Expr} (h : ∀ t ∈ ts, t.Settled) :
    (collect cmpOption (restPairs ts)).Pairwise fun s t => cmpOption s.1 t.1 = .lt :=
  pairwise_collect_of_code cmpCode restCode
    (cmpOption_restPairs fun t ht => (h t ht).within.loose)

/-- What like terms are merged into: settled terms with a coefficient and a rest of their own. -/
theorem settled_scale {c : Rat} (hc : c ≠ 0) {e : Expr} (h : e.Settled) :
    (scale c e.split.2).Settled ∧ (scale c e.split.2).split = (c, e.split.2) := by
  obtain ⟨settled, rest_split⟩ := h.rest
  have nonzero : e.rest.isZero = false := by
    rw [Bool.eq_false_iff, ne_eq, isZero_iff_split settled.normal, rest_split]
    exact one_ne_zero
  rw [scale_eq_multiply hc h]
  refine ⟨settled_multiply (by simp [settled_rational, settled]), ?_⟩
  rw [split_multiply_rational hc settled nonzero, rest_split, mul_one]

/-- Merged like terms are settled and not zero, and come in strictly ascending order. -/
theorem settled_merged {ts : List Expr} (h : ∀ t ∈ ts, t.Settled) :
    (∀ t ∈ merged ts, t.Settled ∧ t.isZero = false) ∧
      (merged ts).Pairwise fun t u => cmpOption t.split.2 u.split.2 = .lt := by
  have scaled : ∀ u ∈ collect cmpOption (restPairs ts),
      (scale u.2 u.1).Settled ∧ (scale u.2 u.1).split = (u.2, u.1) ∧ u.2 ≠ 0 := by
    intro u hu
    have hc : u.2 ≠ 0 := ne_zero_of_mem_collect hu
    obtain ⟨t, ht, hu⟩ := exists_split_of_mem_collect hu
    have hs := settled_scale hc (h t ht)
    rw [hu] at hs
    exact ⟨hs.1, hs.2, hc⟩
  constructor
  · intro t ht
    obtain ⟨u, hu, rfl⟩ := List.mem_map.1 ht
    obtain ⟨settled, split_eq, hc⟩ := scaled u hu
    refine ⟨settled, ?_⟩
    rw [Bool.eq_false_iff, ne_eq, isZero_iff_split settled.normal, split_eq]
    exact hc
  · refine List.pairwise_map.2 ((ascending_collect h).imp_of_mem fun {s t} hs ht hlt => ?_)
    rwa [(scaled s hs).2.1, (scaled t ht).2.1]

/-- Sums of settled expressions are settled. -/
theorem settled_addUp {ts : List Expr} (h : ∀ t ∈ ts, t.Settled) : (addUp ts).Settled := by
  have merged : ∀ {ts : List Expr}, (∀ t ∈ ts, t.Settled) →
      (∀ t ∈ merged (termsOf ts), t.Settled ∧ t.isZero = false) ∧
        (merged (termsOf ts)).Pairwise fun t u => cmpOption t.split.2 u.split.2 = .lt :=
    fun h => settled_merged (settled_termsOf h)
  revert h
  refine addUp_induction (P := fun ts e => (∀ t ∈ ts, t.Settled) → e.Settled) ?_ ?_ ?_ ?_ ts
  · exact fun ts e _ ih h => ih fun t ht => ((merged h).1 t ht).1
  · exact fun ts _ _ => settled_rational 0
  · exact fun ts t _ hu h => ((merged h).1 t (by simp [hu])).1
  · intro ts hs several h
    obtain ⟨settled, ascending⟩ := merged h
    refine settled_sum_iff.2 ⟨⟨several, ?_, fun t ht => (settled t ht).2, ascending⟩,
      fun t ht => (settled t ht).1⟩
    rintro t ht us rfl
    simp only [List.any_eq_false] at hs
    exact hs _ ht rfl

/-- A sum in normal form is the sum of its terms. -/
theorem addUp_of_settled {ts : List Expr} (h : (sum ts).Settled) : addUp ts = sum ts := by
  obtain ⟨normal, settled⟩ := settled_sum_iff.1 h
  have flat : termsOf ts = ts := by
    rw [termsOf, List.flatMap_congr (g := fun t => [t]), List.flatMap_singleton']
    intro t ht
    rw [terms.eq_def]
    split
    next us => exact absurd rfl (normal.notSum _ ht us)
    next => rw [normal.notZero t ht]; rfl
  have collected : collect cmpOption (restPairs ts) = restPairs ts := by
    refine collect_eq_self (List.pairwise_map.2 normal.ascending) fun u hu => ?_
    obtain ⟨t, ht, rfl⟩ := List.mem_map.1 hu
    exact (settled t ht).split_ne_zero (normal.notZero t ht)
  have same : merged ts = ts := by
    rw [merged, ← restPairs, collected, restPairs, List.map_map]
    refine (List.map_congr_left fun t ht => ?_).trans (List.map_id ts)
    have h0 := normal.notZero t ht
    exact (scale_eq_multiply ((settled t ht).split_ne_zero h0) (settled t ht)).trans
      (multiply_split_rest (settled t ht) h0)
  have noSum : ts.any isSum = false := by
    rw [List.any_eq_false]
    intro t ht hs
    cases t with
    | sum us => exact normal.notSum _ ht us rfl
    | number | atom | product | fraction => cases hs
  rw [addUp, flat, same, noSum]
  rcases ts with _ | ⟨t, _ | ⟨u, us⟩⟩
  · exact absurd normal.several (by simp)
  · exact absurd normal.several (by simp)
  · rfl

/-! ## Simplification -/

/-- A product in normal form is the product of its factors. -/
theorem multiply_of_settled {fs : List Expr} (h : (product fs).Settled) :
    multiply fs = product fs := by
  have alone := multiply_singleton h
  rwa [multiply_eq, Parts.ofFactors_product, ← multiply_eq] at alone

/-- From constants in lowest terms simplification leads to a settled expression. -/
theorem settled_simplify {e : Expr} (h : e.reduced = e) : e.simplify.Settled := by
  have members : ∀ {es : List Expr}, (∀ e ∈ es, e.reduced = e → e.simplify.Settled) →
      es.map reduced = es → ∀ f ∈ es.map simplify, f.Settled := fun ih h =>
    List.forall_mem_map.2 fun e he => ih e he (map_reduced_eq_iff.1 h e he)
  induction e using ind with
  | number n =>
    rw [simplify]
    exact ⟨isNormal_number n, h⟩
  | atom a =>
    rw [simplify]
    exact settled_atom a
  | product fs ih =>
    rw [reduced_product, product.injEq] at h
    rw [simplify]
    exact settled_multiply (members ih h)
  | sum ts ih =>
    rw [reduced_sum, sum.injEq] at h
    rw [simplify]
    exact settled_addUp (members ih h)
  | fraction n d ihn ihd =>
    rw [reduced_fraction, fraction.injEq] at h
    rw [simplify]
    exact settled_divide (ihn h.1) (ihd h.2)

/-- Simplification leaves settled expressions as they are. -/
theorem simplify_of_settled {e : Expr} (h : e.Settled) : e.simplify = e := by
  have members : ∀ {es : List Expr}, (∀ e ∈ es, e.Settled → e.simplify = e) →
      (∀ e ∈ es, e.Settled) → es.map simplify = es := fun ih h =>
    (List.map_congr_left fun e he => ih e he (h e he)).trans (List.map_id _)
  induction e using ind with
  | number n => rw [simplify]
  | atom a => rw [simplify]
  | product fs ih =>
    rw [simplify, members ih (settled_product_iff.1 h).2, multiply_of_settled h]
  | sum ts ih => rw [simplify, members ih (settled_sum_iff.1 h).2, addUp_of_settled h]
  | fraction n d ihn ihd =>
    obtain ⟨-, hn, hd⟩ := settled_fraction_iff.1 h
    rw [simplify, ihn hn, ihd hd, divide_of_settled h]

/-! ## Other spellings -/

/-- In lowest terms expressions are in the order in which they were. -/
theorem le_reduced {e f : Expr} (he : Shape.lowest.Within e) (hf : Shape.lowest.Within f) :
    le e.reduced f.reduced = le e f := by
  rw [le, le, cmp_eq_cmpCode he hf, cmp_eq_cmpCode (lowest_reduced e) (lowest_reduced f),
    code_reduced, code_reduced]

/-- In lowest terms what coefficients multiply is in the order in which it was. -/
theorem cmpOption_split_reduced {e f : Expr} (he : Shape.lowest.Within e)
    (hf : Shape.lowest.Within f) :
    cmpOption e.reduced.split.2 f.reduced.split.2 = cmpOption e.split.2 f.split.2 := by
  have code : ∀ e : Expr, restCode e.reduced.split.2 = restCode e.split.2 := fun e => by
    rw [restCode_eq_iff, split_reduced]
    simp [Function.comp_def, reduced_reduced]
  have reduced := fun e => within_split (lowest_reduced e).loose
  rw [cmpOption_eq_cmpCode (within_split he.loose) (within_split hf.loose),
    cmpOption_eq_cmpCode (reduced e) (reduced f), code, code]

/-- Factors are in normal form if they are so in lowest terms. -/
theorem NormalFactors.of_reduced {fs : List Expr} (within : ∀ f ∈ fs, Shape.lowest.Within f)
    (h : NormalFactors (fs.map reduced)) : NormalFactors fs where
  several := by simpa using h.several
  ascending := (List.pairwise_map.1 h.ascending).imp_of_mem fun {f g} hf hg hle => by
    rwa [le_reduced (within f hf) (within g hg)] at hle
  notProduct f hf gs e := h.notProduct _ (List.mem_map_of_mem hf) (gs.map reduced) (by simp [e])
  notFraction f hf n d e :=
    h.notFraction _ (List.mem_map_of_mem hf) n.reduced d.reduced (by simp [e])
  onlyFirst f hf c e := by
    refine h.onlyFirst f.reduced ?_ (.ofRat c.value) (by simp [e, rational])
    rw [← List.map_tail]
    exact List.mem_map_of_mem hf
  coefficient c hc := h.coefficient (.ofRat c.value) (by
    rw [← rational, ← reduced_number]
    exact List.mem_map_of_mem hc)

/-- Terms are in normal form if they are so in lowest terms. -/
theorem NormalTerms.of_reduced {ts : List Expr} (within : ∀ t ∈ ts, Shape.lowest.Within t)
    (h : NormalTerms (ts.map reduced)) : NormalTerms ts where
  several := by simpa using h.several
  notSum t ht us e := h.notSum _ (List.mem_map_of_mem ht) (us.map reduced) (by simp [e])
  notZero t ht := by
    rw [← isZero_reduced]
    exact h.notZero _ (List.mem_map_of_mem ht)
  ascending := (List.pairwise_map.1 h.ascending).imp_of_mem fun {t u} ht hu hlt => by
    rwa [cmpOption_split_reduced (within t ht) (within u hu)] at hlt

/-- A quotient is in normal form if it is so in lowest terms. -/
theorem NormalQuotient.of_reduced {n d : Expr} (h : NormalQuotient n.reduced d.reduced) :
    NormalQuotient n d where
  notZero := by
    rw [← isZero_reduced]
    exact h.notZero
  numerator t b e := h.numerator t.reduced b.reduced (by simp [e])
  denominator t b e := h.denominator t.reduced b.reduced (by simp [e])
  notNumber c e := h.notNumber (.ofRat c.value) (by simp [e, rational])
  coefficient := by
    have h1 := h.coefficient
    rwa [split_reduced] at h1
  distinct := by
    have hd := h.distinct
    rwa [split_reduced, ← Option.map_some, sameOption_reduced] at hd

/-- The normal form does not depend on how lone constants are written. -/
theorem isNormal_of_reduced {e : Expr} (loose : Shape.lowest.Loose e) (h : e.reduced.IsNormal) :
    e.IsNormal := by
  induction e using ind with
  | number n => exact isNormal_number n
  | atom a => exact isNormal_atom a
  | product fs ih =>
    rw [loose_product] at loose
    rw [reduced_product, isNormal_product] at h
    exact (isNormal_product fs).2 ⟨.of_reduced loose h.1,
      fun f hf => ih f hf (loose f hf).loose (h.2 _ (List.mem_map_of_mem hf))⟩
  | sum ts ih =>
    rw [loose_sum] at loose
    rw [reduced_sum, isNormal_sum] at h
    exact (isNormal_sum ts).2 ⟨.of_reduced loose h.1,
      fun t ht => ih t ht (loose t ht).loose (h.2 _ (List.mem_map_of_mem ht))⟩
  | fraction n d ihn ihd =>
    obtain ⟨-, hd, hn⟩ := (loose_fraction n d).1 loose
    rw [reduced_fraction, isNormal_fraction, isZero_reduced] at h
    exact (isNormal_fraction n d).2 ⟨fun h0 => .of_reduced (h.1 h0),
      ihn (hn.elim Within.loose And.right) h.2.1, ihd hd.loose h.2.2⟩

/-- A simplified expression is in normal form, whatever it came from. -/
theorem isNormal_simplify (e : Expr) : e.simplify.IsNormal := by
  refine isNormal_of_reduced (loose_lowest_simplify e) ?_
  rw [reduced_simplify]
  exact (settled_simplify (reduced_reduced e)).normal

/-- Simplifying a second time changes nothing: the expressions in normal form, and no others, are
left as they are. -/
theorem simplify_simplify_same (e : Expr) : same e.simplify.simplify e.simplify = true ∧
    (same e.simplify e = true ↔ e.reduced.IsNormal) := by
  have settled : e.reduced.simplify.Settled := settled_simplify (reduced_reduced e)
  rw [same_iff, same_iff, reduced_simplify, reduced_simplify]
  refine ⟨simplify_of_settled settled, fun fixed => ?_, fun normal => ?_⟩
  · rw [← fixed]
    exact settled.normal
  · exact simplify_of_settled ⟨normal, reduced_reduced e⟩

/-! ## Single fractions -/

/-- Does the expression have no fractions, or is it a single one with none in its parts and no
constant but zero below? -/
def IsSingle (e : Expr) : Prop :=
  fractionFree.Within e ∨ ∃ n d, e = fraction n d ∧ fractionFree.Within n ∧
    fractionFree.Within d ∧ ∀ c, d = number c → c.value = 0

/-- Brought over one denominator and written in lowest terms, an expression has parts in normal
form. -/
theorem settled_overDenominator (e : Expr) : e.overDenominator.1.reduced.Settled ∧
    ∀ d ∈ e.overDenominator.2, d.reduced.Settled := by
  let P (f : Expr) : Prop := Shape.lowest.Loose f ∧ f.reduced.Settled
  have lists : ∀ {fs : List Expr}, (∀ f ∈ fs, P f) → ∀ f ∈ fs.map reduced, f.Settled :=
    fun h => List.forall_mem_map.2 fun f hf => (h f hf).2
  have parts : P e.overDenominator.1 ∧ ∀ d ∈ e.overDenominator.2, P d := by
    refine forall_overDenominator (p := fun _ => True) ?_ ?_ ?_ ?_
      (within_ofAtoms_iff.2 fun _ _ => trivial)
    · exact fun n => ⟨loose_number n, by simpa using settled_rational n.value⟩
    · exact fun a _ => ⟨(loose_atom a).2 trivial, by simpa using settled_atom a⟩
    · intro fs h
      have loose := fun f hf => (h f hf).1
      refine ⟨(within_multiply loose).loose, ?_⟩
      rw [reduced_multiply loose (.refl _)]
      exact settled_multiply (lists h)
    · intro ts h
      have loose := fun t ht => (h t ht).1
      refine ⟨(within_addUp loose).loose, ?_⟩
      rw [reduced_addUp loose (.refl _)]
      exact settled_addUp (lists h)
  exact ⟨parts.1.2, fun d hd => (parts.2 d hd).2⟩

/-- In lowest terms a single fraction is settled. -/
theorem settled_singleFraction (e : Expr) : e.singleFraction.reduced.Settled := by
  obtain ⟨loose, looseBelow⟩ : Shape.lowest.Loose e.simplify.overDenominator.1 ∧
      ∀ d ∈ e.simplify.overDenominator.2, Shape.lowest.Loose d :=
    loose_overDenominator (within_ofAtoms_iff.2 fun _ _ => trivial)
  obtain ⟨settled, settledBelow⟩ := settled_overDenominator e.simplify
  rw [singleFraction]
  rcases hp : e.simplify.overDenominator with ⟨n, _ | d⟩
  · rwa [hp] at settled
  · rw [hp] at loose looseBelow settled settledBelow
    dsimp only
    rw [reduced_divide loose (looseBelow d rfl)]
    exact settled_divide settled (settledBelow d rfl)

/-- A quotient of expressions without fractions is one fraction at most. -/
theorem fractionFree_divide {n d : Expr} (hn : fractionFree.Within n) (hd : fractionFree.Within d) :
    fractionFree.Within (divide n d) ∨ ∃ t b, divide n d = fraction t b ∧
      fractionFree.Within t ∧ fractionFree.Within b := by
  rw [divide_eq]
  split
  · exact .inr ⟨n, d, rfl, hn, hd⟩
  · split
    · exact .inl within_zero
    · split
      next => exact absurd ((within_fraction _ _).1 hn).1 id
      next => exact absurd ((within_fraction _ _).1 hd).1 id
      next => exact .inl (within_multiply (by simp [hn.loose, (within_rational _).loose]))
      next =>
        split
        · exact .inl (within_rational _)
        · refine .inr ⟨_, _, rfl, within_multiply ?_, within_rest hd.loose⟩
          simp [(within_rest hn.loose).loose, (within_rational _).loose]

/-- Single fractions are what their name says. -/
theorem isSingle_singleFraction (e : Expr) : e.singleFraction.IsSingle := by
  have settled := settled_singleFraction e
  have parts : fractionFree.Within e.singleFraction ∨ ∃ t b, e.singleFraction = fraction t b ∧
      fractionFree.Within t ∧ fractionFree.Within b := by
    obtain ⟨hn, hd⟩ : fractionFree.Loose e.simplify.overDenominator.1 ∧
        ∀ d ∈ e.simplify.overDenominator.2, fractionFree.Loose d :=
      loose_overDenominator (within_ofAtoms_iff.2 fun _ _ => trivial)
    rw [singleFraction]
    rcases hp : e.simplify.overDenominator with ⟨n, _ | d⟩
    · rw [hp] at hn
      exact .inl (hn.within fun _ => trivial)
    · rw [hp] at hn hd
      exact fractionFree_divide (hn.within fun _ => trivial) ((hd d rfl).within fun _ => trivial)
  refine parts.imp_right ?_
  rintro ⟨t, b, he, ht, hb⟩
  refine ⟨t, b, he, ht, hb, ?_⟩
  rintro c rfl
  by_contra h0
  -- a constant below that is not zero is not normal
  rw [he, reduced_fraction, settled_fraction_iff] at settled
  have normal := settled.1 (by simpa only [isZero_reduced, isZero, beq_eq_false_iff_ne] using h0)
  exact normal.notNumber (.ofRat c.value) (reduced_number c)

/-- An expression in normal form without fractions has no denominator. -/
theorem overDenominator_of_settled {e : Expr} (h : e.Settled) (hf : fractionFree.Within e) :
    e.overDenominator = (e, none) := by
  have members : ∀ {es : List Expr}, (∀ e ∈ es, e.overDenominator = (e, none)) →
      es.map overDenominator = es.map fun e => (e, none) := List.map_congr_left
  induction e using ind with
  | number n => rw [overDenominator]
  | atom a => rw [overDenominator]
  | product fs ih =>
    have parts := members fun f hf' =>
      ih f hf' ((settled_product_iff.1 h).2 f hf') ((within_product fs).1 hf f hf')
    rw [overDenominator, parts]
    simp [Function.comp_def, productOption, multiply_of_settled h, List.filterMap_map]
  | sum ts ih =>
    have parts := members fun t ht =>
      ih t ht ((settled_sum_iff.1 h).2 t ht) ((within_sum ts).1 hf t ht)
    rw [overDenominator, parts]
    simp [Function.comp_def, overCommon, addUp_of_settled h, List.filterMap_map]
  | fraction n d => exact absurd ((within_fraction n d).1 hf).1 id

/-- Bringing it over one denominator leaves a single fraction in normal form as it is. -/
theorem singleFraction_of_settled {e : Expr} (h : e.Settled) (hs : e.IsSingle) :
    e.singleFraction = e := by
  rw [singleFraction, simplify_of_settled h]
  rcases hs with hf | ⟨n, d, rfl, hn, hd, -⟩
  · rw [overDenominator_of_settled h hf]
  · obtain ⟨-, settled, settledBelow⟩ := settled_fraction_iff.1 h
    rw [overDenominator, overDenominator_of_settled settled hn,
      overDenominator_of_settled settledBelow hd]
    exact divide_of_settled h

/-- Brought over one denominator, an expression has no fractions or is a single one, and doing so
again changes nothing: the single fractions in normal form, and no others, are left as they are. -/
theorem singleFraction_singleFraction_same (e : Expr) : e.singleFraction.IsSingle ∧
    same e.singleFraction.singleFraction e.singleFraction = true ∧
      (same e.singleFraction e = true ↔ e.reduced.IsNormal ∧ e.reduced.IsSingle) := by
  have settled := settled_singleFraction e
  have single := isSingle_singleFraction e.reduced
  rw [same_iff, same_iff, reduced_singleFraction e.singleFraction]
  rw [← reduced_singleFraction] at single
  refine ⟨isSingle_singleFraction e, singleFraction_of_settled settled single, fun fixed => ?_,
    fun h => ?_⟩
  · rw [← fixed]
    exact ⟨settled.normal, single⟩
  · rw [reduced_singleFraction]
    exact singleFraction_of_settled ⟨h.1, reduced_reduced e⟩ h.2

end AreaMethod.Expr
