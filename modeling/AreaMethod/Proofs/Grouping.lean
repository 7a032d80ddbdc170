import AreaMethod.Proofs.TotalOrder
import AreaMethod.Proofs.ZeroTest

/-!
# Grouping is a canonical form

Multiplying out and grouping like terms both lead to sums of standard monomials, and both keep what
they have led to (`expanded_grouped_stable`). For multiplying out the point is that a factor of a
monomial is multiplied out already: its own expansion is the factor itself (`expand_factor`).
Constants count by their values here, since those within a product are brought to lowest terms. With
negative denominators the order of factors is not transitive, and what the passes have led to can
change when they are run again (`reordered_overX`).

Without fractions the grouped expression is a canonical form (`grouped_tfae`): two expressions are
grouped to the same sum if and only if they have the same value whatever the atoms stand for.
-/

namespace AreaMethod

/-- The monomial with its constants in lowest terms. -/
def Monomial.reduced (m : Monomial) : Monomial :=
  ⟨.ofRat m.coefficient.value, m.factors.map Expr.reduced⟩

namespace Expr

open Shape

/-! ## Multiplying out again -/

/-- A sum of monomials is written in lowest terms by doing so with each of them. -/
theorem reduced_ofMonomials (ms : List Monomial) :
    (ofMonomials ms).reduced = ofMonomials (ms.map .reduced) := by
  rw [ofMonomials, reduced_sum, ofMonomials, List.map_map, List.map_map]
  refine congrArg sum (List.map_congr_left fun m _ => ?_)
  simp [Monomial.toExpr, Monomial.reduced, rational]

/-- Factors in ascending order still are with their constants in lowest terms. -/
theorem sort_map_reduced {fs : List Expr} (h : ∀ f ∈ fs, positive.Within f)
    (ascending : fs.IsChain fun f g => le f g = true) :
    sort (fs.map reduced) = fs.map reduced := by
  have codes := pairwise_of_isChain h ascending
  refine sort_eq_self (List.pairwise_map.2 (codes.imp fun {f g} hle => ?_)).isChain
  rwa [le, cmp_eq_cmpCode (lowest_reduced f) (lowest_reduced g), code_reduced, code_reduced]

/-- A standard monomial is left as it is, if its factors are. -/
theorem expand_toExpr {m : Monomial} (hm : m.Standard) (hp : ∀ f ∈ m.factors, positive.Within f)
    (hf : ∀ f ∈ m.factors, f.expand = [⟨.ofRat 1, [f.reduced]⟩]) :
    m.toExpr.expand = [m.reduced] := by
  have folded : ∀ (fs gs : List Expr) (q : Rat),
      (fs.map fun f => [Monomial.mk (.ofRat 1) [f.reduced]]).foldl cross [⟨.ofRat q, gs⟩] =
        [⟨.ofRat q, gs ++ fs.map reduced⟩] := by
    intro fs
    induction fs with
    | nil => simp
    | cons f fs ih =>
      intro gs q
      have step : cross [⟨.ofRat q, gs⟩] [⟨.ofRat 1, [f.reduced]⟩] =
          [⟨.ofRat q, gs ++ [f.reduced]⟩] := by
        simp [cross, Monomial.mul, Numeral.ofRat]
      rw [List.map_cons, List.foldl_cons, step, ih]
      simp
  have start : cross [.one] (number m.coefficient).expand = [⟨.ofRat m.coefficient.value, []⟩] := by
    simp [cross, expand, hm.nonzero, Monomial.one, Monomial.mul, Numeral.ofRat]
  rw [Monomial.toExpr, expand_product, List.map_cons, List.foldl_cons, start,
    List.map_congr_left hf, folded]
  simp [Monomial.sorted, Monomial.reduced, sort_map_reduced hp hm.ascending]

/-- So is a sum of monomials, but for constants that are not in lowest terms. -/
theorem expanded_of_factors {e : Expr} (h : positive.Within e)
    (hf : ∀ m ∈ e.expand, ∀ f ∈ m.factors, f.expand = [⟨.ofRat 1, [f.reduced]⟩]) :
    e.expanded.expanded = e.expanded.reduced := by
  have monomials : (ofMonomials e.expand).expand = e.expand.map .reduced := by
    rw [ofMonomials, expand, List.flatMap_map, List.map_eq_flatMap]
    refine List.flatMap_congr fun m hm => ?_
    exact expand_toExpr (standard_expand e m hm) (within_toExpr.1 (within_expand h m hm)).2
      (hf m hm)
  rw [expanded, expanded, monomials, ← reduced_ofMonomials]

/-- The factors of the monomials are multiplied out. -/
theorem expand_factor {e : Expr} (h : positive.Within e) :
    ∀ m ∈ e.expand, ∀ f ∈ m.factors, f.expand = [⟨.ofRat 1, [f.reduced]⟩] := by
  refine forall_mem_expand
    (Q := fun m => ∀ f ∈ m.factors, f.expand = [⟨.ofRat 1, [f.reduced]⟩])
    ?_ ?_ ?_ ?_ (fun _ => id) ?_ ?_ h
  · simp
  · simp [expand]
  · intro n d h hn hd
    obtain ⟨-, within, withinBelow⟩ := (within_fraction n d).1 h
    simp only [List.mem_singleton, forall_eq]
    rw [expand, ← expanded, ← expanded, expanded_of_factors within hn,
      expanded_of_factors withinBelow hd, reduced_fraction]
  · simp [Monomial.one]
  · exact fun m n hm hn f hf => (List.mem_append.1 hf).elim (hm f) (hn f)
  · exact fun m hm f hf => hm f ((sort_perm _).mem_iff.1 hf)

/-- Multiplying out again brings constants to lowest terms and does nothing else. -/
theorem expanded_expanded {e : Expr} (h : positive.Within e) :
    e.expanded.expanded = e.expanded.reduced :=
  expanded_of_factors h (expand_factor h)

/-! ## Grouping again -/

/-- Grouping leads to standard monomials. -/
theorem standard_likeTerms {e : Expr} {t : List Expr × Rat} (h : t ∈ e.likeTerms) :
    Monomial.Standard ⟨.ofRat t.2, t.1⟩ := by
  obtain ⟨m, hm, hmt⟩ := exists_of_mem_likeTerms h
  obtain ⟨factors, ascending⟩ := hmt ▸ factors_of_monomials hm
  exact ⟨ne_zero_of_mem_collect h, factors, ascending⟩

/-- Without negative denominators, like terms come in strictly ascending order of their factors. -/
theorem ascending_likeTerms_of_positive {e : Expr} (h : positive.Within e) :
    e.likeTerms.Pairwise fun s t => cmpList s.1 t.1 = .lt :=
  ascending_likeTerms fun m hm => (within_toExpr.1 (within_monomials h m hm)).2

/-- Grouping again changes nothing. -/
theorem grouped_grouped {e : Expr} (h : positive.Within e) : e.grouped.grouped = e.grouped := by
  have read : e.grouped.monomials? = some (e.likeTerms.map fun t => ⟨.ofRat t.2, t.1⟩) :=
    monomials?_ofMonomials (List.forall_mem_map.2 fun t => standard_likeTerms)
  have same : e.grouped.likeTerms = e.likeTerms := by
    rw [likeTerms, read, Option.getD_some, List.map_map]
    refine Eq.trans ?_ (collect_eq_self (ascending_likeTerms_of_positive h)
      fun t => ne_zero_of_mem_collect)
    exact congrArg _ (List.map_id _)
  rw [grouped_eq e.grouped, same, ← grouped_eq]

/-- Multiplying out and grouping lead to sums of standard monomials and keep the value wherever
there is one. With positive denominators the grouped monomials are in strictly ascending order, and
each of the passes leaves what it has led to as it is. -/
theorem expanded_grouped_stable (e : Expr) :
    (∃ ms : List Monomial, e.expanded = ofMonomials ms ∧ ∀ m ∈ ms, m.Standard) ∧
      (∃ ms : List Monomial, e.grouped = ofMonomials ms ∧ (∀ m ∈ ms, m.Standard) ∧
        (positive.Within e → ms.Pairwise fun m n => cmpList m.factors n.factors = .lt)) ∧
      (positive.Within e →
        same e.expanded.expanded e.expanded = true ∧ e.grouped.grouped = e.grouped) ∧
      ∀ (v : Atom → Option Rat) (q : Rat), e.eval v = some q →
        e.expanded.eval v = some q ∧ e.grouped.eval v = some q := by
  refine ⟨⟨e.expand, rfl, standard_expand e⟩, ⟨_, grouped_eq e, ?_, fun h => ?_⟩, fun h => ⟨?_, ?_⟩,
    fun v q hq => ?_⟩
  · exact List.forall_mem_map.2 fun t => standard_likeTerms
  · exact List.pairwise_map.2 (ascending_likeTerms_of_positive h)
  · rw [same_iff, expanded_expanded h, reduced_reduced]
  · exact grouped_grouped h
  · obtain ⟨defined, rfl⟩ := eval_eq_some_iff.1 hq
    exact ⟨eval_eq_some_iff.2 (expanded_keeps e defined),
      eval_eq_some_iff.2 (grouped_keeps e defined)⟩

/-- The fractions in it keep their place and their values. -/
theorem expanded_grouped_stable_nestedFractions :
    positive.Within nestedFractions ∧ nestedFractions.eval twoAndFour = some (-1 / 6) ∧
      same nestedFractions.expanded.expanded nestedFractions.expanded = true ∧
      nestedFractions.grouped.grouped = nestedFractions.grouped ∧
      nestedFractions.grouped.eval twoAndFour = some (-1 / 6) := by
  have positive : positive.Within nestedFractions := by
    simp [nestedFractions, scalar, minusOne, Shape.positive]
  have defined : nestedFractions.eval twoAndFour = some (-1 / 6) := by cbv
  obtain ⟨-, -, stable, keeps⟩ := expanded_grouped_stable nestedFractions
  exact ⟨positive, defined, (stable positive).1, (stable positive).2, (keeps _ _ defined).2⟩

/-! ## Negative denominators -/

/-- No two lists of monomials are written as the same sum. -/
theorem ofMonomials_injective : Function.Injective ofMonomials := by
  intro ms ns h
  refine List.map_injective_iff.2 (fun m n hmn => ?_) (Expr.sum.inj h)
  obtain ⟨c, fs⟩ := m
  obtain ⟨d, gs⟩ := n
  simpa [Monomial.toExpr] using hmn

/-- The expression over `x`. -/
def overX (n : Expr) : Expr :=
  fraction n (scalar "x")

/-- The product of minus a half and a half over `x`. -/
def halvesOverX : Expr :=
  product [overX halfBelow, overX (rational (1 / 2))]

/-- The sum of minus a third, minus a half and a half over `x`, less minus a half over `x`. -/
def thirdOverX : Expr :=
  sum [overX (rational (-1 / 3)), overX halfBelow, overX (rational (1 / 2)),
    product [minusOne, overX halfBelow]]

/-- With a negative denominator neither of the passes leaves what it has led to as it is. Minus a
half is in the wrong place until it is brought to lowest terms, which happens when the product is
multiplied out again. In the sum it leads the half past minus a third and then cancels, which leaves
monomials that are not in ascending order and that change places when they are grouped again. -/
theorem reordered_overX :
    same halvesOverX.expanded.expanded halvesOverX.expanded = false ∧
      same thirdOverX.grouped.grouped thirdOverX.grouped = false ∧
      ∀ ms : List Monomial, thirdOverX.grouped = ofMonomials ms →
        ¬ms.IsChain fun m n => cmpList m.factors n.factors = .lt := by
  refine ⟨by cbv, by cbv, fun ms h ascending => ?_⟩
  obtain rfl := ofMonomials_injective ((grouped_eq thirdOverX).symm.trans h)
  have descending :
      decide (thirdOverX.likeTerms.IsChain fun s t => cmpList s.1 t.1 = .lt) = false := by cbv
  exact of_decide_eq_false descending ((List.isChain_map _).1 ascending)

/-! ## Without fractions -/

/-- Grouping is a canonical form of polynomials: two expressions without fractions are grouped to
the same sum if and only if they have the same value whatever the atoms stand for. -/
theorem grouped_tfae {e f : Expr} (he : fractionFree.Within e) (hf : fractionFree.Within f) :
    List.TFAE [
      e.grouped = f.grouped,
      same e.grouped f.grouped = true,
      ∀ v : Atom → ℚ, ∃ q, e.eval (some ∘ v) = some q ∧ f.eval (some ∘ v) = some q] := by
  tfae_have 1 → 2 := by
    intro h
    rw [same_iff, h]
  tfae_have 2 → 3 := by
    intro h v
    have kept : ∀ {e : Expr}, fractionFree.Within e →
        e.eval (some ∘ v) = some (e.grouped.value (some ∘ v)) := by
      intro e he
      have defined := definedAt_of_polynomial (v := some ∘ v) (fun _ _ => rfl) he
      exact eval_eq_some_iff.2 ⟨defined, (grouped_keeps e defined).2.symm⟩
    exact ⟨_, kept he, (kept hf).trans (congrArg some (value_eq_of_same h).symm)⟩
  tfae_have 3 → 1 := by
    intro h
    have defined : (e - f).DefinedAt (some ∘ RationalFunction.variable) :=
      (definedAt_sub _ e f).2 ⟨definedAt_of_polynomial (fun _ _ => rfl) he,
        definedAt_of_polynomial (fun _ _ => rfl) hf⟩
    -- different rational functions differ at some choice of the variables
    have equal : e.value (some ∘ RationalFunction.variable) =
        f.value (some ∘ RationalFunction.variable) := by
      by_contra hne
      obtain ⟨v, -, nonzero⟩ := exists_value_ne_zero defined (by rwa [value_sub, sub_ne_zero])
      obtain ⟨q, hq, hq'⟩ := h v
      rw [value_sub, (eval_eq_some_iff.1 hq).2, (eval_eq_some_iff.1 hq').2, sub_self] at nonzero
      exact nonzero rfl
    rw [grouped_eq, grouped_eq, likeTerms_eq_of_value_eq (fun _ _ => rfl) he hf equal]
  tfae_finish

/-- `(x + y) (x - y)`. -/
def conjugates : Expr :=
  (scalar "x" + scalar "y") * (scalar "x" - scalar "y")

/-- `xx - yy`. -/
def differenceOfSquares : Expr :=
  scalar "x" * scalar "x" - scalar "y" * scalar "y"

/-- The two are grouped to the same sum, so they have the same values. -/
theorem grouped_conjugates :
    fractionFree.Within conjugates ∧ fractionFree.Within differenceOfSquares ∧
      conjugates.grouped = differenceOfSquares.grouped ∧
      ∀ v : Atom → ℚ, ∃ q, conjugates.eval (some ∘ v) = some q ∧
        differenceOfSquares.eval (some ∘ v) = some q := by
  have he : fractionFree.Within conjugates := by
    simp [conjugates, scalar, fractionFree, polynomial]
  have hf : fractionFree.Within differenceOfSquares := by
    simp [differenceOfSquares, scalar, fractionFree, polynomial]
  have same : same conjugates.grouped differenceOfSquares.grouped = true := by cbv
  have tfae := grouped_tfae he hf
  exact ⟨he, hf, (tfae.out 0 1).2 same, (tfae.out 1 2).1 same⟩

end Expr

end AreaMethod
