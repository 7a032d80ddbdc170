import AreaMethod.Expr.SingleFraction
import AreaMethod.Proofs.Simplify

/-!
# One fraction keeps the value

An expression that has a value is the quotient of the two parts of `overDenominator`, the second of
which is not zero (`overDenominator_keeps`), and so is `singleFraction` (`singleFraction_keeps`).
Going on with the numerator gives up the value and keeps only whether it is zero
(`numerator_keeps_zero`).

For sums the point is that the distinct denominators are listed once each: a term over `d` is
multiplied by all of them but the one that is `d` (`prod_eraseDupsBy_same`).
-/

namespace AreaMethod.Expr

/-- Two expressions are the same if they agree in lowest terms. -/
theorem same_iff {e f : Expr} : same e f = true ↔ e.reduced = f.reduced := by
  rw [same, beq_iff_eq, cmp_eq_iff]

/-- What is listed once was listed before. -/
theorem mem_of_mem_eraseDupsBy {r : Expr → Expr → Bool} {ds : List Expr} {d : Expr}
    (h : d ∈ ds.eraseDupsBy r) : d ∈ ds := by
  induction hk : ds.length using Nat.strong_induction_on generalizing ds with
  | _ k ih =>
    subst hk
    cases ds with
    | nil => simp at h
    | cons a as =>
      rw [List.eraseDupsBy_cons, List.mem_cons] at h
      have hlen := List.length_filter_le (fun b => r b a = false) as
      rcases h with rfl | h
      · exact List.mem_cons_self
      · have hd := ih _ (by simp only [List.length_cons]; omega) h rfl
        exact List.mem_cons_of_mem a (List.mem_filter.1 hd).1

section
variable {F : Type*} [Field F] {v : Atom → Option F}

/-- Of several expressions, each listed once, the product is that of any one of them and of the
others. -/
theorem prod_eraseDupsBy_same {ds : List Expr} {d : Expr} (h : d ∈ ds) :
    d.value v * (((ds.eraseDupsBy same).filter fun c => !same c d).map (value v)).prod =
      ((ds.eraseDupsBy same).map (value v)).prod := by
  induction hk : ds.length using Nat.strong_induction_on generalizing ds with
  | _ k ih =>
    subst hk
    cases ds with
    | nil => simp at h
    | cons a as =>
      rw [List.eraseDupsBy_cons, List.map_cons, List.prod_cons]
      have hlen := List.length_filter_le (fun b => decide (same b a = false)) as
      by_cases had : same a d
      · -- the others differ from `a`, so they differ from `d` too
        have others : ((as.filter fun b => decide (same b a = false)).eraseDupsBy same).filter
            (fun c => !same c d) =
            (as.filter fun b => decide (same b a = false)).eraseDupsBy same := by
          refine List.filter_eq_self.2 fun c hc => ?_
          have hca : same c a = false := by
            have : c ∈ as.filter fun b => decide (same b a = false) := mem_of_mem_eraseDupsBy hc
            simpa using (List.mem_filter.1 this).2
          rw [Bool.not_eq_true', Bool.eq_false_iff]
          intro hcd
          rw [Bool.eq_false_iff] at hca
          exact hca (same_iff.2 ((same_iff.1 hcd).trans (same_iff.1 had).symm))
        rw [List.filter_cons_of_neg (by simp [had]), others, value_eq_of_same had]
      · have hd : d ∈ as.filter fun b => decide (same b a = false) := by
          rcases List.mem_cons.1 h with rfl | h
          · exact absurd (same_iff.2 rfl) had
          · refine List.mem_filter.2 ⟨h, ?_⟩
            rw [decide_eq_true_eq, Bool.eq_false_iff]
            exact fun hda => had (same_iff.2 (same_iff.1 hda).symm)
        rw [List.filter_cons_of_pos (by simp [had]), List.map_cons, List.prod_cons,
          ← ih _ (by simp only [List.length_cons]; omega) hd rfl]
        ring

/-- A numerator over a denominator that may be absent: both have a value, that of the denominator
is not zero, and the quotient is `q`. -/
structure IsQuotient (v : Atom → Option F) (p : Expr × Option Expr) (q : F) : Prop where
  numerator : p.1.DefinedAt v
  denominator : ∀ d ∈ p.2, d.DefinedAt v ∧ d.value v ≠ 0
  quotient : p.1.value v / (p.2.map (value v)).getD 1 = q

/-- An expression that has a value is a quotient without a denominator. -/
theorem IsQuotient.whole {e : Expr} (h : e.DefinedAt v) : IsQuotient v (e, none) (e.value v) :=
  ⟨h, by simp, by simp⟩

/-- The denominator of a quotient is not zero. -/
theorem IsQuotient.ne_zero {p : Expr × Option Expr} {q : F} (h : IsQuotient v p q) :
    (p.2.map (value v)).getD 1 ≠ 0 := by
  obtain ⟨n, d⟩ := p
  cases d with
  | none => simp
  | some d => simpa using (h.denominator d rfl).2

variable [CharZero F]

/-- The value is multiplied by that of the factor, if there is one. -/
theorem timesOption_keeps {e : Expr} {f : Option Expr} (he : e.DefinedAt v)
    (hf : ∀ d ∈ f, d.DefinedAt v) : (timesOption e f).DefinedAt v ∧
      (timesOption e f).value v = e.value v * (f.map (value v)).getD 1 := by
  cases f with
  | none => simpa [timesOption] using he
  | some d =>
    have h : ∀ g ∈ [e, d], g.DefinedAt v := by simpa [he] using hf
    obtain ⟨hm, hv⟩ := multiply_keeps h
    exact ⟨hm, by simpa [timesOption] using hv⟩

/-! ## Products -/

omit [CharZero F] in
/-- Missing denominators count as one. -/
theorem prod_denominators (parts : List (Expr × Option Expr)) :
    ((parts.filterMap (·.2)).map (value v)).prod =
      (parts.map fun p => (p.2.map (value v)).getD 1).prod := by
  induction parts with
  | nil => rfl
  | cons p parts ih =>
    obtain ⟨n, d⟩ := p
    cases d <;> simp [ih]

/-- The value of a product of denominators, none of which vanishes, is the product of their
values. -/
theorem productOption_keeps {ds : List Expr} (h : ∀ d ∈ ds, d.DefinedAt v ∧ d.value v ≠ 0) :
    (∀ d ∈ productOption ds, d.DefinedAt v ∧ d.value v ≠ 0) ∧
      ((productOption ds).map (value v)).getD 1 = (ds.map (value v)).prod := by
  obtain ⟨hm, hv⟩ := multiply_keeps fun d hd => (h d hd).1
  have h0 : (ds.map (value v)).prod ≠ 0 := by
    refine List.prod_ne_zero fun h0 => ?_
    obtain ⟨d, hd, hd0⟩ := List.mem_map.1 h0
    exact (h d hd).2 hd0
  rw [productOption]
  split
  next he =>
    rw [List.isEmpty_iff] at he
    simp [he]
  next => exact ⟨by simpa [hv, h0] using hm, by simpa using hv⟩

/-- Quotients are multiplied numerator by numerator and denominator by denominator. -/
theorem IsQuotient.product {fs : List Expr} {part : Expr → Expr × Option Expr}
    (h : ∀ f ∈ fs, IsQuotient v (part f) (f.value v)) :
    IsQuotient v (multiply ((fs.map part).map (·.1)), productOption ((fs.map part).filterMap (·.2)))
      ((Expr.product fs).value v) := by
  obtain ⟨hm, hv⟩ := multiply_keeps (v := v) (List.forall_mem_map.2
    (List.forall_mem_map.2 fun f hf => (h f hf).numerator) :
      ∀ e ∈ (fs.map part).map (·.1), e.DefinedAt v)
  have hds : ∀ d ∈ (fs.map part).filterMap (·.2), d.DefinedAt v ∧ d.value v ≠ 0 := by
    intro d hd
    obtain ⟨p, hp, hpd⟩ := List.mem_filterMap.1 hd
    obtain ⟨f, hf, rfl⟩ := List.mem_map.1 hp
    exact (h f hf).denominator d hpd
  obtain ⟨hd, hdv⟩ := productOption_keeps hds
  refine ⟨hm, hd, ?_⟩
  rw [hv, hdv, prod_denominators, value_product, List.map_map, List.map_map, List.map_map]
  clear hm hv hds hd hdv
  induction fs with
  | nil => simp
  | cons f fs ih =>
    have hf := (h f List.mem_cons_self).quotient
    simp only [List.map_cons, List.prod_cons, Function.comp_apply]
    rw [← ih fun g hg => h g (List.mem_cons_of_mem f hg), ← hf, div_mul_div_comm]

/-! ## Sums -/

omit [CharZero F] in
/-- Of the distinct denominators, those other than the term's own. -/
theorem prod_other_denominators {parts : List (Expr × Option Expr)} {p : Expr × Option Expr}
    (h : p ∈ parts) {ds : List Expr} (hds : ds = (parts.filterMap (·.2)).eraseDupsBy same) :
    (p.2.map (value v)).getD 1 *
      ((ds.filter fun d => !sameOption (some d) p.2).map (value v)).prod =
      (ds.map (value v)).prod := by
  obtain ⟨n, d⟩ := p
  cases d with
  | none => simp [sameOption, cmpOption]
  | some d =>
    rw [hds]
    exact prod_eraseDupsBy_same (List.mem_filterMap.2 ⟨_, h, rfl⟩)

/-- Quotients are added over the product of their distinct denominators. -/
theorem IsQuotient.sum {ts : List Expr} {part : Expr → Expr × Option Expr}
    (h : ∀ t ∈ ts, IsQuotient v (part t) (t.value v)) :
    IsQuotient v (overCommon (ts.map part)) ((Expr.sum ts).value v) := by
  rw [overCommon]
  generalize hds : ((ts.map part).filterMap (·.2)).eraseDupsBy same = ds
  have hd : ∀ d ∈ ds, d.DefinedAt v ∧ d.value v ≠ 0 := by
    intro d hd
    obtain ⟨p, hp, hpd⟩ := List.mem_filterMap.1 (mem_of_mem_eraseDupsBy (hds ▸ hd))
    obtain ⟨t, ht, rfl⟩ := List.mem_map.1 hp
    exact (h t ht).denominator d hpd
  have others : ∀ t ∈ ts, ((part t).2.map (value v)).getD 1 *
      ((ds.filter fun d => !sameOption (some d) (part t).2).map (value v)).prod =
      (ds.map (value v)).prod := fun t ht =>
    prod_other_denominators (List.mem_map_of_mem ht) hds.symm
  -- a numerator times the other denominators is the term times all of them
  have scaled : ∀ t ∈ ts, (part t).1.value v *
      ((ds.filter fun d => !sameOption (some d) (part t).2).map (value v)).prod =
      t.value v * (ds.map (value v)).prod := by
    intro t ht
    rw [← others t ht, ← mul_assoc, ← (h t ht).quotient, div_mul_cancel₀ _ (h t ht).ne_zero]
  by_cases hempty : ds = []
  · subst hempty
    obtain ⟨ha, hva⟩ := addUp_keeps (v := v) (List.forall_mem_map.2
      (List.forall_mem_map.2 fun t ht => (h t ht).numerator) :
        ∀ e ∈ (ts.map part).map (·.1), e.DefinedAt v)
    refine ⟨ha, by simp, ?_⟩
    simp only [List.filter_nil, List.map_nil, List.prod_nil, mul_one] at scaled
    rw [List.isEmpty_nil, if_pos rfl, hva, value_sum, Option.map_none, Option.getD_none, div_one,
      List.map_map, List.map_map]
    exact congrArg List.sum (List.map_congr_left scaled)
  · have members : ∀ t ∈ ts,
        (∀ e ∈ (part t).1 :: ds.filter fun d => !sameOption (some d) (part t).2, e.DefinedAt v) :=
      fun t ht => List.forall_mem_cons.2
        ⟨(h t ht).numerator, fun d hf => (hd d (List.mem_filter.1 hf).1).1⟩
    obtain ⟨ha, hva⟩ := addUp_keeps (v := v) (List.forall_mem_map.2
      (List.forall_mem_map.2 fun t ht => (multiply_keeps (members t ht)).1) :
        ∀ e ∈ (ts.map part).map
          fun p => multiply (p.1 :: ds.filter fun d => !sameOption (some d) p.2), e.DefinedAt v)
    obtain ⟨hp, hpv⟩ := productOption_keeps hd
    rw [productOption, if_neg (by simpa using hempty)] at hp hpv
    have hne : (ds.map (value v)).prod ≠ 0 := by
      rw [← hpv]
      simpa using (hp _ rfl).2
    rw [if_neg (by simpa using hempty)]
    refine ⟨ha, hp, ?_⟩
    rw [hva, hpv, div_eq_iff hne, value_sum, ← List.sum_map_mul_right, List.map_map, List.map_map]
    refine congrArg List.sum (List.map_congr_left fun t ht => ?_)
    rw [Function.comp_apply, Function.comp_apply, (multiply_keeps (members t ht)).2]
    exact scaled t ht

/-! ## The whole expression -/

/-- An expression that has a value is its numerator over its denominator. -/
theorem overDenominator_keeps {e : Expr} (h : e.DefinedAt v) :
    IsQuotient v e.overDenominator (e.value v) := by
  induction e using ind with
  | number n =>
    rw [overDenominator]
    exact .whole h
  | atom a =>
    rw [overDenominator]
    exact .whole h
  | product fs ih =>
    rw [overDenominator]
    exact .product fun f hf => ih f hf ((definedAt_product v fs).1 h f hf)
  | sum ts ih =>
    rw [overDenominator]
    exact .sum fun t ht => ih t ht ((definedAt_sum v ts).1 h t ht)
  | fraction n d ihn ihd =>
    obtain ⟨hn, hd, hd0⟩ := (definedAt_fraction v n d).1 h
    have qn := ihn hn
    have qd := ihd hd
    obtain ⟨ht, hvt⟩ := timesOption_keeps qn.numerator fun e he => (qd.denominator e he).1
    obtain ⟨hb, hvb⟩ := timesOption_keeps qd.numerator fun e he => (qn.denominator e he).1
    have hdn : d.overDenominator.1.value v ≠ 0 := by
      intro h0
      exact hd0 (by rw [← qd.quotient, h0, zero_div])
    have hb0 := mul_ne_zero hdn qn.ne_zero
    rw [overDenominator]
    refine ⟨ht, fun e he => ?_, ?_⟩
    · obtain rfl := Option.some.inj he
      exact ⟨hb, by rwa [hvb]⟩
    · rw [value_fraction, ← qn.quotient, ← qd.quotient, hvt, Option.map_some, Option.getD_some, hvb,
        div_div_div_eq]
      ring

/-- Bringing an expression over one denominator keeps its value. -/
theorem singleFraction_keeps (e : Expr) : Keeps v e e.singleFraction := by
  intro h
  obtain ⟨hs, hvs⟩ := simplify_keeps e h
  have q := overDenominator_keeps hs
  rw [hvs] at q
  rw [singleFraction]
  match hp : e.simplify.overDenominator with
  | (n, none) =>
    rw [hp] at q
    exact ⟨q.numerator, by simpa using q.quotient⟩
  | (n, some d) =>
    rw [hp] at q
    obtain ⟨hd, hd0⟩ := q.denominator d rfl
    obtain ⟨hq, hvq⟩ := divide_keeps q.numerator hd hd0
    exact ⟨hq, hvq.trans (by simpa using q.quotient)⟩

omit [CharZero F] in
/-- The numerator of an expression that has a value is zero if the expression is. -/
theorem numerator_keeps_zero {e : Expr} (h : e.DefinedAt v) :
    e.numerator.DefinedAt v ∧ (e.numerator.value v = 0 ↔ e.value v = 0) := by
  cases e with
  | fraction n d =>
    obtain ⟨hn, -, hd0⟩ := (definedAt_fraction v n d).1 h
    exact ⟨hn, by rw [numerator, value_fraction, div_eq_zero_iff, or_iff_left hd0]⟩
  | number | atom | product | sum => exact ⟨h, Iff.rfl⟩

end

end AreaMethod.Expr
