import AreaMethod.Proofs.Order

/-!
# What multiplying out leads to

Multiplied out, an expression is a sum of standard monomials (`standard_expand`): the coefficients
are not zero, and the factors are atoms and fractions in ascending order. Such a sum is read off as
it is (`monomials?_ofMonomials`).

How many monomials there will be is counted beforehand, with sums and products that stop at a
ceiling. To stop on the way is to stop at the end (`expansionTerms_eq_min`), even though a factor
zero can bring a count down from the ceiling. The count without a ceiling is never too low
(`length_expand_le`), and it is exact unless a constant is zero (`length_expand_eq`).
-/

namespace AreaMethod

/-- A coefficient that is not zero in front of atoms and fractions in ascending order. -/
structure Monomial.Standard (m : Monomial) : Prop where
  nonzero : m.coefficient.value ≠ 0
  factors : ∀ f ∈ m.factors, f.isFactor = true
  ascending : m.factors.IsChain fun f g => f.le g = true

namespace Expr

/-! ## Standard monomials -/

/-- Multiplying out leads to standard monomials. -/
theorem standard_expand (e : Expr) : ∀ m ∈ e.expand, m.Standard := by
  have unit : ∀ f : Expr, f.isFactor = true → Monomial.Standard ⟨.ofRat 1, [f]⟩ := fun f hf =>
    ⟨one_ne_zero, by simpa using hf, .singleton f⟩
  refine forall_mem_expand (s := .ofAtoms fun _ => True)
    (Q := fun m => m.coefficient.value ≠ 0 ∧ ∀ f ∈ m.factors, f.isFactor = true)
    ?_ ?_ ?_ ?_ ?_ ?_ ?_ (Shape.within_ofAtoms_iff.2 fun _ _ => trivial)
  · exact fun n _ h0 => ⟨h0, by simp, .nil⟩
  · exact fun a _ => unit (atom a) rfl
  · exact fun n d _ _ _ => unit (fraction n.expanded d.expanded) rfl
  · exact ⟨one_ne_zero, by simp [Monomial.one]⟩
  · exact fun m hm => ⟨hm.nonzero, hm.factors⟩
  · exact fun m n hm hn => ⟨mul_ne_zero hm.1 hn.1,
      fun f hf => (List.mem_append.1 hf).elim (hm.2 f) (hn.2 f)⟩
  · exact fun m hm => ⟨hm.1, fun f hf => hm.2 f ((sort_perm _).mem_iff.1 hf), isChain_sort _⟩

/-- Standard monomials are read off as they are. -/
theorem monomials?_ofMonomials {ms : List Monomial} (h : ∀ m ∈ ms, m.Standard) :
    (ofMonomials ms).monomials? = some ms := by
  have read : ∀ m : Monomial, m.Standard → m.toExpr.monomial? = some m := by
    intro m hm
    rw [Monomial.toExpr, monomial?, List.all_eq_true.2 hm.factors, isAscending_iff.2 hm.ascending]
    rfl
  rw [ofMonomials, monomials?, List.mapM_map]
  induction ms with
  | nil => rfl
  | cons m ms ih =>
    rw [List.forall_mem_cons] at h
    rw [List.mapM_cons, Function.comp, read m h.1, ih h.2]
    rfl

/-- What is grouped are factors in ascending order. -/
theorem factors_of_monomials {e : Expr} {m : Monomial} (hm : m ∈ e.monomials?.getD e.expand) :
    (∀ f ∈ m.factors, f.isFactor = true) ∧ m.factors.IsChain fun f g => le f g = true := by
  cases hms : e.monomials? with
  | none =>
    rw [hms] at hm
    exact ⟨(standard_expand e m hm).factors, (standard_expand e m hm).ascending⟩
  | some ms =>
    rw [hms] at hm
    obtain ⟨hf, ha⟩ := (monomials?_eq_some hms).2 m hm
    exact ⟨List.all_eq_true.1 hf, isAscending_iff.1 ha⟩

/-! ## Counting -/

/-- The number of monomials, without a ceiling and without regard to zeros. -/
def monomialCount : Expr → Nat
  | number _ => 1
  | atom _ => 1
  | product fs => (fs.map monomialCount).prod
  | sum ts => (ts.map monomialCount).sum
  | fraction .. => 1

/-- Is a constant zero, those within fractions aside? -/
def containsZero : Expr → Bool
  | number n => n.value == 0
  | atom _ => false
  | product fs => (fs.map containsZero).any id
  | sum ts => (ts.map containsZero).any id
  | fraction .. => false

/-- Where an operation may be stopped at a ceiling before or after, so may a sequence of them. -/
theorem foldl_min {op : Nat → Nat → Nat} {c : Nat}
    (h : ∀ m n, min (op (min m c) (min n c)) c = min (op m n) c) (ns : List Nat) (n : Nat) :
    (ns.map (min · c)).foldl (fun n k => min (op n k) c) (min n c) = min (ns.foldl op n) c := by
  induction ns generalizing n with
  | nil => rfl
  | cons k ns ih => rw [List.map_cons, List.foldl_cons, List.foldl_cons, h, ih]

/-- A product may be cut off before and after multiplying. -/
theorem min_mul_min (m n c : Nat) : min (min m c * min n c) c = min (m * n) c := by
  have right : ∀ m n : Nat, min (m * min n c) c = min (m * n) c := by
    intro m n
    rcases Nat.le_total n c with h | h
    · rw [Nat.min_eq_left h]
    · rw [Nat.min_eq_right h]
      -- only a factor zero brings a product back below a factor
      rcases Nat.eq_zero_or_pos m with rfl | hm
      · simp
      · rw [Nat.min_eq_right (Nat.le_mul_of_pos_left c hm),
          Nat.min_eq_right (h.trans (Nat.le_mul_of_pos_left n hm))]
  rw [right, Nat.mul_comm, right, Nat.mul_comm]

/-- The bound is the number of monomials, stopped at the ceiling once. -/
theorem expansionTerms_eq_min (e : Expr) :
    e.expansionTerms = min e.monomialCount countCeiling := by
  have members : ∀ {es : List Expr},
      (∀ e ∈ es, e.expansionTerms = min e.monomialCount countCeiling) →
      es.map expansionTerms = (es.map monomialCount).map (min · countCeiling) := fun h => by
    rw [List.map_map]
    exact List.map_congr_left h
  induction e using ind with
  | number n => rw [expansionTerms, monomialCount]; rfl
  | atom a => rw [expansionTerms, monomialCount]; rfl
  | product fs ih =>
    rw [expansionTerms, monomialCount, members ih, List.prod_eq_foldl]
    exact foldl_min (fun m n => min_mul_min m n countCeiling) _ 1
  | sum ts ih =>
    rw [expansionTerms, monomialCount, members ih, List.sum_eq_foldl]
    exact foldl_min (fun m n => by omega) _ 0
  | fraction n d => rw [expansionTerms, monomialCount]; rfl

/-- A product has as many monomials as there are choices of one monomial for each factor. -/
theorem length_expand_product (fs : List Expr) :
    (product fs).expand.length = (fs.map fun f => f.expand.length).prod := by
  have folded : ∀ (mss : List (List Monomial)) (ns : List Monomial),
      (mss.foldl cross ns).length = ns.length * (mss.map List.length).prod := by
    intro mss
    induction mss with
    | nil => simp
    | cons ms mss ih =>
      intro ns
      have crossed : (cross ns ms).length = ns.length * ms.length := by
        simp [cross, List.length_flatMap]
      rw [List.foldl_cons, ih, crossed, List.map_cons, List.prod_cons, Nat.mul_assoc]
  rw [expand_product, List.length_map, folded]
  simp [Function.comp_def]

/-- A sum has the monomials of its terms. -/
theorem length_expand_sum (ts : List Expr) :
    (sum ts).expand.length = (ts.map fun t => t.expand.length).sum := by
  rw [expand, List.length_flatMap]

/-- There are at most as many monomials as are counted. -/
theorem length_expand_le (e : Expr) : e.expand.length ≤ e.monomialCount := by
  induction e using ind with
  | number n =>
    rw [expand, monomialCount]
    split <;> simp
  | atom a => simp [expand, monomialCount]
  | product fs ih =>
    rw [length_expand_product, monomialCount]
    exact List.prod_le_prod' ih
  | sum ts ih =>
    rw [length_expand_sum, monomialCount]
    exact List.sum_le_sum ih
  | fraction n d => simp [expand, monomialCount]

/-- There are as many where no constant is zero. -/
theorem length_expand_eq {e : Expr} (h : e.containsZero = false) :
    e.expand.length = e.monomialCount := by
  induction e using ind with
  | number n =>
    rw [containsZero] at h
    rw [expand, monomialCount, h]
    rfl
  | atom a => simp [expand, monomialCount]
  | product fs ih =>
    simp only [containsZero, List.any_map, List.any_eq_false, Function.comp_apply, id_eq,
      Bool.not_eq_true] at h
    rw [length_expand_product, monomialCount, List.map_congr_left fun f hf => ih f hf (h f hf)]
  | sum ts ih =>
    simp only [containsZero, List.any_map, List.any_eq_false, Function.comp_apply, id_eq,
      Bool.not_eq_true] at h
    rw [length_expand_sum, monomialCount, List.map_congr_left fun t ht => ih t ht (h t ht)]
  | fraction n d => simp [expand, monomialCount]

/-- Multiplied out, an expression has one term for each monomial. -/
theorem length_terms_expanded (e : Expr) : e.expanded.terms.length = e.expand.length := by
  rw [expanded, ofMonomials, terms, List.length_map]

end Expr

end AreaMethod
