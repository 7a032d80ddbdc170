import AreaMethod.Proofs.Stages

/-!
# How constants are written

Statements count as the same if they differ only in how constants are written, `2/4` for `1/2` say.
So does the course of a proof (`Problem.course_eq_of_same`): the passes yield the same up to
spelling from expressions that are the same up to spelling, and what is asked does not depend on it.

The order of members can depend on the spelling before the first simplification, since constants are
compared as they are written. So what has to be shown of sums and products is a little more: they do
not depend on the order of members either (`Expr.reduced_addUp`, `Expr.reduced_multiply`).
-/

namespace AreaMethod

namespace Expr

open Shape

/-! ## Lowest terms -/

@[simp] theorem reduced_number (n : Numeral) : (number n).reduced = rational n.value := by
  rw [reduced]

@[simp] theorem reduced_atom (a : Atom) : (atom a).reduced = atom a := by
  rw [reduced]

@[simp] theorem reduced_product (fs : List Expr) :
    (product fs).reduced = product (fs.map reduced) := by
  rw [reduced]

@[simp] theorem reduced_sum (ts : List Expr) : (sum ts).reduced = sum (ts.map reduced) := by
  rw [reduced]

@[simp] theorem reduced_fraction (n d : Expr) :
    (fraction n d).reduced = fraction n.reduced d.reduced := by
  rw [reduced]

@[simp] theorem reduced_rational (q : Rat) : (rational q).reduced = rational q :=
  reduced_number _

@[simp] theorem reduced_zero : zero.reduced = zero := reduced_rational 0

/-- Whether an expression is zero at sight does not depend on how constants are written. -/
theorem isZero_reduced (e : Expr) : e.reduced.isZero = e.isZero := by
  induction e using ind with
  | number n => simp [isZero, rational, Numeral.ofRat]
  | atom a => simp
  | product fs ih =>
    rw [reduced_product, isZero_product, isZero_product, Bool.eq_iff_iff, List.any_map,
      List.any_eq_true, List.any_eq_true]
    exact exists_congr fun f => and_congr_right fun hf => by rw [Function.comp, ih f hf]
  | sum ts ih => simp [isZero]
  | fraction n d ihn ihd => simp [isZero, ihn]

/-- The factors of an expression in lowest terms are its factors in lowest terms. -/
theorem factors_reduced (e : Expr) : e.reduced.factors = e.factors.map reduced := by
  induction e using factors.induct with
  | case1 fs ih =>
    rw [reduced_product, factors, factors, List.flatMap_map, List.map_flatMap]
    exact List.flatMap_congr fun f hf => ih f hf
  | case2 e h =>
    cases e with
    | product fs => exact absurd rfl (h fs)
    | number | atom | sum | fraction => simp [factors, rational]

/-- Factors are bundled in the same way however their constants are written. -/
theorem bundle?_map_reduced (fs : List Expr) :
    bundle? (fs.map reduced) = (bundle? fs).map reduced := by
  rcases fs with _ | ⟨f, _ | ⟨g, fs⟩⟩
  · rfl
  · rfl
  · simp [bundle?]

/-- In lowest terms an expression has the same coefficient, which multiplies the same. -/
theorem split_reduced (e : Expr) : e.reduced.split = (e.split.1, e.split.2.map reduced) := by
  fun_induction split e with
  | case1 n => simp [split, rational, Numeral.ofRat]
  | case2 n fs => simp [split, rational, Numeral.ofRat, bundle?_map_reduced]
  | case3 n d ih =>
    rw [reduced_fraction, split, ih]
    cases n.split.2 <;> simp [one]
  | case4 e h₁ h₂ h₃ =>
    cases e with
    | number n => exact absurd rfl (h₁ n)
    | fraction n d => exact absurd rfl (h₃ n d)
    | atom | sum => simp [split]
    | product fs =>
      cases fs with
      | nil => simp [split]
      | cons f fs =>
        cases f with
        | number n => exact absurd rfl (h₂ n fs)
        | atom | product | sum | fraction => simp [split]

/-- What is left of an expression without its coefficient, in lowest terms. -/
theorem rest_reduced (e : Expr) : e.reduced.rest = e.rest.reduced := by
  rw [rest, rest, split_reduced]
  cases e.split.2 with
  | none => simp [one]
  | some r => rfl

/-- Whether two coefficients multiply the same does not depend on how constants are written. -/
theorem sameOption_reduced (r s : Option Expr) :
    sameOption (r.map reduced) (s.map reduced) = sameOption r s := by
  have cmp : ∀ e f : Expr, Expr.cmp e.reduced f.reduced = .eq ↔ Expr.cmp e f = .eq := fun e f => by
    rw [cmp_eq_iff, cmp_eq_iff, reduced_reduced, reduced_reduced]
  rw [sameOption, sameOption, Bool.eq_iff_iff, beq_iff_eq, beq_iff_eq]
  cases r <;> cases s <;> simp [cmpOption, cmp]

/-- What is written in lowest terms is what comes of doing so. -/
theorem reduced_eq_self_of_perm {es fs : List Expr} (h : fs.Perm (es.map reduced)) :
    fs.map reduced = fs := by
  have stays : ∀ f ∈ fs, f.reduced = id f := fun f hf => by
    obtain ⟨e, -, rfl⟩ := List.mem_map.1 (h.mem_iff.1 hf)
    exact reduced_reduced e
  exact (List.map_congr_left stays).trans (List.map_id fs)

/-- Expressions with the same codes are the same in lowest terms. -/
theorem map_reduced_eq_of_map_code_eq {es fs : List Expr} (h : es.map code = fs.map code) :
    es.map reduced = fs.map reduced := by
  rw [← List.forall₂_eq_eq_eq, List.forall₂_map_left_iff, List.forall₂_map_right_iff] at h ⊢
  exact h.imp fun _ _ => code_eq_code_iff.1

/-- Sorting does not depend on the order of the members or on how constants are written. -/
theorem sort_eq_map_reduced {es fs : List Expr} (h : ∀ e ∈ es, lowest.Within e)
    (hp : fs.Perm (es.map reduced)) : sort fs = (sort es).map reduced := by
  have hf : ∀ f ∈ fs, lowest.Within f := fun f hf => by
    obtain ⟨e, -, rfl⟩ := List.mem_map.1 (hp.mem_iff.1 hf)
    exact lowest_reduced e
  have codes : (fs.map code).Perm (es.map code) := by
    simpa [code_reduced, Function.comp_def] using hp.map code
  have sorted := map_code_sort_of_perm (fun e he => (h e he).positive)
    (fun f hm => (hf f hm).positive) codes
  rw [← map_reduced_eq_of_map_code_eq sorted]
  exact (reduced_eq_self_of_perm ((sort_perm fs).trans hp)).symm

/-! ## Products and quotients -/

namespace Parts

/-- The parts in lowest terms. -/
def reduced (p : Parts) : Parts :=
  ⟨p.coefficient, p.plain.map Expr.reduced, p.numerators.map Expr.reduced,
    p.denominators.map Expr.reduced⟩

/-- Taking in a factor goes along with writing it in lowest terms. -/
theorem add_reduced (f : Expr) (p : Parts) : p.reduced.add f.reduced = (p.add f).reduced := by
  cases f <;> simp [add, reduced, rational, Numeral.ofRat]

/-- Are the parts the same up to their order? -/
structure Perm (p q : Parts) : Prop where
  coefficient : p.coefficient = q.coefficient
  plain : p.plain.Perm q.plain
  numerators : p.numerators.Perm q.numerators
  denominators : p.denominators.Perm q.denominators

/-- The order of the parts does not matter when a factor is taken in. -/
theorem Perm.add {p q : Parts} (h : p.Perm q) (f : Expr) : (p.add f).Perm (q.add f) := by
  obtain ⟨hc, hp, hn, hd⟩ := h
  cases f with
  | number n => exact ⟨congrArg (n.value * ·) hc, hp, hn, hd⟩
  | fraction n d => exact ⟨hc, hp, hn.cons n, hd.cons d⟩
  | atom | product | sum => exact ⟨hc, hp.cons _, hn, hd⟩

/-- The order in which two factors are taken in does not matter. -/
theorem add_comm (p : Parts) (f g : Expr) : ((p.add f).add g).Perm ((p.add g).add f) := by
  cases f <;> cases g <;>
    refine ⟨?_, ?_, ?_, ?_⟩ <;> simp [add, List.Perm.swap, mul_left_comm]

/-- The order in which factors are taken in does not matter. -/
theorem foldr_perm {es fs : List Expr} (h : es.Perm fs) :
    (es.foldr add empty).Perm (fs.foldr add empty) := by
  induction h with
  | nil => exact ⟨rfl, .refl _, .refl _, .refl _⟩
  | cons e _ ih => exact ih.add e
  | swap e f es => exact add_comm _ e f
  | trans _ _ ih₁ ih₂ =>
    exact ⟨ih₁.coefficient.trans ih₂.coefficient, ih₁.plain.trans ih₂.plain,
      ih₁.numerators.trans ih₂.numerators, ih₁.denominators.trans ih₂.denominators⟩

/-- Taking a product apart goes along with writing it in lowest terms and in another order. -/
theorem ofFactors_perm_reduced {fs gs : List Expr} (h : gs.Perm (fs.map Expr.reduced)) :
    (ofFactors gs).Perm (ofFactors fs).reduced := by
  have folded : ∀ es : List Expr,
      (es.map Expr.reduced).foldr add empty = (es.foldr add empty).reduced := by
    intro es
    induction es with
    | nil => rfl
    | cons e es ih => rw [List.map_cons, List.foldr_cons, ih, add_reduced, List.foldr_cons]
  rw [ofFactors, ofFactors, ← folded]
  refine foldr_perm ?_
  rw [List.map_reverse, List.map_flatMap]
  refine (List.reverse_perm _).trans (.trans ?_ (List.reverse_perm _).symm)
  simpa [List.flatMap_map, factors_reduced] using h.flatMap_right factors

end Parts

/-- Assembling factors goes along with writing them in lowest terms and in another order. -/
theorem reduced_assemble (c : Rat) {es fs : List Expr} (h : ∀ e ∈ es, lowest.Within e)
    (hp : fs.Perm (es.map reduced)) : (assemble c es).reduced = assemble c fs := by
  have empty : fs.isEmpty = es.isEmpty := by
    have := hp.length_eq
    cases fs <;> cases es <;> simp_all
  rw [assemble, assemble, empty, sort_eq_map_reduced h hp]
  split
  · rw [bundle?_map_reduced]
    cases bundle? (sort es) <;> simp
  · simp

/-- To divide by a fraction is to multiply by its denominator and divide by its numerator. -/
theorem divide_fraction {n t b : Expr} (hn : ∀ t b, n ≠ fraction t b)
    (hd0 : (fraction t b).isZero = false) (hn0 : n.isZero = false) :
    divide n (fraction t b) = divide (multiply [n, b]) t := by
  rw [divide_eq, if_neg (by simp [hd0]), if_neg (by simp [hn0])]
  cases n with
  | fraction t b => exact absurd rfl (hn t b)
  | number | atom | product | sum => rfl

/-- To divide by a constant is to multiply by its inverse. -/
theorem divide_number {n : Expr} {c : Numeral} (hn : ∀ t b, n ≠ fraction t b)
    (hc : (number c).isZero = false) (hn0 : n.isZero = false) :
    divide n (number c) = multiply [rational (1 / c.value), n] := by
  rw [divide_eq, if_neg (by simp [hc]), if_neg (by simp [hn0])]
  cases n with
  | fraction t b => exact absurd rfl (hn t b)
  | number | atom | product | sum => rfl

/-- The quotient of what are neither fractions nor, below, a constant. -/
theorem divide_plain {n d : Expr} (hn : ∀ t b, n ≠ fraction t b) (hd : ∀ t b, d ≠ fraction t b)
    (hc : ∀ c, d ≠ number c) (hd0 : d.isZero = false) (hn0 : n.isZero = false) :
    divide n d = if sameOption n.split.2 (some d.rest) then rational (n.split.1 / d.split.1)
      else fraction (multiply [rational (n.split.1 / d.split.1), n.rest]) d.rest := by
  rw [divide_eq, if_neg (by simp [hd0]), if_neg (by simp [hn0])]
  split
  next t b => exact absurd rfl (hn t b)
  next t b _ => exact absurd rfl (hd t b)
  next c _ => exact absurd rfl (hc c)
  next => rfl

/-- What is no fraction is none in lowest terms. -/
theorem reduced_ne_fraction {e : Expr} (h : ∀ t b, e ≠ fraction t b) :
    ∀ t b, e.reduced ≠ fraction t b := by
  cases e with
  | fraction t b => exact absurd rfl (h t b)
  | number | atom | product | sum => simp [rational]

/-- What is no constant is none in lowest terms. -/
theorem reduced_ne_number {e : Expr} (h : ∀ n, e ≠ number n) : ∀ n, e.reduced ≠ number n := by
  cases e with
  | number n => exact absurd rfl (h n)
  | fraction | atom | product | sum => simp

/-- How the quotient of such parts comes about does not depend on how constants are written. -/
theorem divide_reduced_plain {n d : Expr} (hn : ∀ t b, n ≠ fraction t b)
    (hd : ∀ t b, d ≠ fraction t b) (hc : ∀ c, d ≠ number c) (hd0 : d.isZero = false)
    (hn0 : n.isZero = false) : divide n.reduced d.reduced =
      if sameOption n.split.2 (some d.rest) then rational (n.split.1 / d.split.1)
      else fraction (multiply [rational (n.split.1 / d.split.1), n.rest.reduced])
        d.rest.reduced := by
  have same := sameOption_reduced n.split.2 (some d.rest)
  rw [Option.map_some] at same
  rw [divide_plain (reduced_ne_fraction hn) (reduced_ne_fraction hd) (reduced_ne_number hc)
    (by rw [isZero_reduced, hd0]) (by rw [isZero_reduced, hn0]), rest_reduced, rest_reduced,
    split_reduced, split_reduced, same]

/-- Products do not depend on the order of the factors or on how constants are written, nor do
quotients on how constants are written, as long as nothing but lone constants is written in higher
than lowest terms. -/
theorem reduced_multiply_divide :
    (∀ fs : List Expr, (∀ f ∈ fs, lowest.Loose f) → ∀ gs, gs.Perm (fs.map reduced) →
      (multiply fs).reduced = multiply gs) ∧
    ∀ n d : Expr, lowest.Loose n → lowest.Loose d →
      (divide n d).reduced = divide n.reduced d.reduced := by
  apply multiply_divide_induction
    (P := fun fs e => (∀ f ∈ fs, lowest.Loose f) → ∀ gs, gs.Perm (fs.map reduced) →
      e.reduced = multiply gs)
    (Q := fun n d e => lowest.Loose n → lowest.Loose d → e.reduced = divide n.reduced d.reduced)
  case vanishing =>
    intro fs hc _ gs hp
    have parts := Parts.ofFactors_perm_reduced hp
    rw [multiply_eq]
    simp [parts.coefficient, Parts.reduced, hc]
  case plain =>
    intro fs hc hd h gs hp
    have parts := Parts.ofFactors_perm_reduced hp
    have empty : (Parts.ofFactors gs).denominators = [] := by
      simpa [Parts.reduced, hd] using parts.denominators
    rw [multiply_eq, reduced_assemble _ (Parts.within_ofFactors h).plain parts.plain]
    simp [parts.coefficient, Parts.reduced, hc, empty]
  case joined =>
    rintro fs _ _ _ e hc hd rfl rfl rfl iht ihb ihe h gs hp
    have within := Parts.within_ofFactors h
    have parts := Parts.ofFactors_perm_reduced hp
    have nonempty : (Parts.ofFactors gs).denominators ≠ [] := by
      intro h0
      exact hd (by simpa [Parts.reduced, h0] using parts.denominators)
    have top : ∀ f ∈ rational (Parts.ofFactors fs).coefficient ::
        ((Parts.ofFactors fs).plain ++ (Parts.ofFactors fs).numerators), lowest.Loose f := by
      simpa [or_imp, forall_and] using
        ⟨(within_rational _).loose, fun f hf => (within.plain f hf).loose, within.numerators⟩
    have bottom : ∀ f ∈ (Parts.ofFactors fs).denominators, lowest.Loose f := fun f hf =>
      (within.denominators f hf).2.loose
    have permuted : (rational (Parts.ofFactors fs).coefficient ::
        ((Parts.ofFactors gs).plain ++ (Parts.ofFactors gs).numerators)).Perm
          ((rational (Parts.ofFactors fs).coefficient ::
            ((Parts.ofFactors fs).plain ++ (Parts.ofFactors fs).numerators)).map reduced) := by
      simpa [Parts.reduced] using parts.plain.append parts.numerators
    rw [ihe (within_multiply top).loose (within_multiply bottom).loose,
      iht top _ permuted, ihb bottom _ parts.denominators, multiply_eq gs]
    simp [parts.coefficient, Parts.reduced, hc, nonempty]
  case raw =>
    intro n d hz _ _
    rw [divide_eq, if_pos (by rw [isZero_reduced, hz]), reduced_fraction]
  case zero =>
    intro n d hd hn _ _
    rw [divide_eq, if_neg (by rw [isZero_reduced, hd]; simp), if_pos (by rw [isZero_reduced, hn]),
      reduced_zero]
  case overFraction =>
    rintro t b d _ e hd hn rfl ihm ihe h hd'
    obtain ⟨-, hb, ht⟩ := (loose_fraction t b).1 h
    have loose : ∀ f ∈ [b, d], lowest.Loose f := by simp [hb.loose, hd']
    rw [ihe (ht.elim Within.loose And.right) (within_multiply loose).loose,
      ihm loose [b.reduced, d.reduced] (.refl _), divide_eq (fraction t b).reduced,
      if_neg (by simp [isZero_reduced, hd]), if_neg (by rw [isZero_reduced, hn]; simp)]
    simp
  case underFraction =>
    rintro n t b _ e hn hd hn0 rfl ihm ihe hn' h
    obtain ⟨-, hb, ht⟩ := (loose_fraction t b).1 h
    have loose : ∀ f ∈ [n, b], lowest.Loose f := by simp [hb.loose, hn']
    rw [ihe (within_multiply loose).loose (ht.elim Within.loose And.right),
      ihm loose [n.reduced, b.reduced] (.refl _), reduced_fraction,
      divide_fraction (reduced_ne_fraction hn) (by rw [← reduced_fraction, isZero_reduced, hd])
        (by rw [isZero_reduced, hn0])]
  case overConstant =>
    intro n c e hn hc hn0 ihe hn' _
    have loose : ∀ f ∈ [rational (1 / c.value), n], lowest.Loose f := by
      simp [hn', (within_rational _).loose]
    have hc' : (rational c.value).isZero = false := by
      rw [← reduced_number, isZero_reduced, hc]
    rw [ihe loose [rational (1 / c.value), n.reduced] (by simp), reduced_number]
    exact (divide_number (reduced_ne_fraction hn) hc' (by rw [isZero_reduced, hn0])).symm
  case cancelled =>
    intro n d hn hd hc hd0 hn0 same _ _
    rw [divide_reduced_plain hn hd hc hd0 hn0, if_pos same, reduced_rational]
  case general =>
    intro n d e hn hd hc hd0 hn0 same _ ihe hn' _
    have loose : ∀ f ∈ [rational (n.split.1 / d.split.1), n.rest], lowest.Loose f := by
      simp [(within_rest hn').loose, (within_rational _).loose]
    rw [divide_reduced_plain hn hd hc hd0 hn0, if_neg (by simp [same]), reduced_fraction,
      ihe loose [rational (n.split.1 / d.split.1), n.rest.reduced] (by simp)]

/-- Products go along with writing their factors in lowest terms and in another order. -/
theorem reduced_multiply {fs gs : List Expr} (h : ∀ f ∈ fs, lowest.Loose f)
    (hp : gs.Perm (fs.map reduced)) : (multiply fs).reduced = multiply gs :=
  reduced_multiply_divide.1 fs h gs hp

/-- Quotients go along with writing their parts in lowest terms. -/
theorem reduced_divide {n d : Expr} (hn : lowest.Loose n) (hd : lowest.Loose d) :
    (divide n d).reduced = divide n.reduced d.reduced :=
  reduced_multiply_divide.2 n d hn hd

/-! ## Sums -/

/-- Putting a coefficient in front goes along with writing constants in lowest terms. -/
theorem reduced_scale (c : Rat) {r : Option Expr} (h : ∀ e ∈ r, lowest.Within e) :
    (scale c r).reduced = scale c (r.map reduced) := by
  have product : ∀ e : Expr, lowest.Within e →
      (multiply [rational c, e]).reduced = multiply [rational c, e.reduced] := fun e he =>
    reduced_multiply (by simp [he.loose, (within_rational c).loose]) (by simp)
  have other : ∀ e : Expr, (∀ n d, e ≠ fraction n d) →
      scale c (some e) = if c == 1 then e else multiply [rational c, e] := fun e he => by
    rw [scale]
    exact fun n d h => he n d h
  cases r with
  | none => simp [scale]
  | some e =>
    have he : lowest.Within e := h e rfl
    rw [Option.map_some]
    by_cases hf : ∃ n d, e = fraction n d
    · obtain ⟨n, d, rfl⟩ := hf
      obtain ⟨-, hn, hd⟩ := (within_fraction n d).1 he
      have loose : ∀ f ∈ [rational c, n], lowest.Loose f := by
        simp [hn.loose, (within_rational c).loose]
      rw [reduced_fraction, scale, scale]
      split
      · exact reduced_fraction n d
      · rw [reduced_divide (within_multiply loose).loose hd.loose, product n hn]
    · have hf : ∀ n d, e ≠ fraction n d := fun n d h => hf ⟨n, d, h⟩
      rw [other e hf, other _ (reduced_ne_fraction hf)]
      split
      · rfl
      · exact product e he

/-- The terms of an expression in lowest terms are its terms in lowest terms. -/
theorem terms_reduced (e : Expr) : e.reduced.terms = e.terms.map reduced := by
  have other : ∀ e : Expr, (∀ ts, e ≠ sum ts) → e.terms = if e.isZero then [] else [e] :=
    fun e he => by
      rw [terms]
      exact fun ts h => he ts h
  by_cases hs : ∃ ts, e = sum ts
  · obtain ⟨ts, rfl⟩ := hs
    simp [terms]
  · have hs : ∀ ts, e ≠ sum ts := fun ts h => hs ⟨ts, h⟩
    have hr : ∀ ts, e.reduced ≠ sum ts := by
      cases e with
      | sum ts => exact absurd rfl (hs ts)
      | number | atom | product | fraction => simp [rational]
    rw [other e hs, other _ hr, isZero_reduced]
    split <;> rfl

/-- Whether an expression is a sum does not depend on how constants are written. -/
theorem isSum_reduced (e : Expr) : e.reduced.isSum = e.isSum := by
  cases e <;> simp [isSum, rational]

/-- The code of what a coefficient multiplies. -/
def restCode (r : Option Expr) : List Token :=
  r.elim [] code

/-- What coefficients multiply has the same code if it is the same in lowest terms. -/
theorem restCode_eq_iff {r s : Option Expr} :
    restCode r = restCode s ↔ r.map reduced = s.map reduced := by
  cases r with
  | none =>
    cases s with
    | none => simp
    | some f =>
      obtain ⟨ts, h⟩ := exists_code f
      simp [restCode, h]
  | some e =>
    cases s with
    | none =>
      obtain ⟨ts, h⟩ := exists_code e
      simp [restCode, h]
    | some f => simp [restCode, code_eq_code_iff]

/-- What coefficients multiply is compared by its code, as long as there are no negative
denominators. -/
theorem cmpOption_eq_cmpCode_of_positive {r s : Option Expr} (hr : ∀ e ∈ r, positive.Within e)
    (hs : ∀ e ∈ s, positive.Within e) : cmpOption r s = cmpCode (restCode r) (restCode s) := by
  cases r with
  | none =>
    cases s with
    | none => rfl
    | some f =>
      obtain ⟨ts, h⟩ := exists_code f
      rw [restCode, restCode, Option.elim_none, Option.elim_some, h]
      rfl
  | some e =>
    cases s with
    | none =>
      obtain ⟨ts, h⟩ := exists_code e
      rw [restCode, restCode, Option.elim_none, Option.elim_some, h]
      rfl
    | some f => exact cmp_eq_cmpCode_of_positive (hr e rfl) (hs f rfl)

/-- What coefficients multiply is compared by its code if it is in lowest terms. -/
theorem cmpOption_eq_cmpCode {r s : Option Expr} (hr : ∀ e ∈ r, lowest.Within e)
    (hs : ∀ e ∈ s, lowest.Within e) : cmpOption r s = cmpCode (restCode r) (restCode s) :=
  cmpOption_eq_cmpCode_of_positive (fun e he => (hr e he).positive) fun e he => (hs e he).positive

/-- A pair of a rest and a coefficient with the code of the rest in its place. -/
def codedPair (u : Option Expr × Rat) : List Token × Rat :=
  (restCode u.1, u.2)

/-- A pair of a rest and a coefficient with the rest in lowest terms. -/
def reducedPair (u : Option Expr × Rat) : Option Expr × Rat :=
  (u.1.map reduced, u.2)

/-- Pairs have the same code if they are the same in lowest terms. -/
theorem codedPair_eq_iff {u w : Option Expr × Rat} :
    codedPair u = codedPair w ↔ reducedPair u = reducedPair w := by
  rw [codedPair, codedPair, reducedPair, reducedPair, Prod.mk.injEq, Prod.mk.injEq, restCode_eq_iff]

/-- A pair in lowest terms stays as it is. -/
theorem reducedPair_reducedPair (u : Option Expr × Rat) :
    reducedPair (reducedPair u) = reducedPair u := by
  simp [reducedPair, Function.comp_def, reduced_reduced]

/-- The pairs of terms in lowest terms are the pairs of the terms, in lowest terms. -/
theorem restPairs_map_reduced (ts : List Expr) :
    restPairs (ts.map reduced) = (restPairs ts).map reducedPair := by
  simp [restPairs, reducedPair, split_reduced]

/-- The rests of terms are compared by their codes. -/
theorem cmpOption_restPairs {ts : List Expr} (h : ∀ t ∈ ts, lowest.Loose t) :
    ∀ u ∈ restPairs ts, ∀ w ∈ restPairs ts,
      cmpOption u.1 w.1 = cmpCode (restCode u.1) (restCode w.1) := by
  intro u hu w hw
  obtain ⟨t, ht, rfl⟩ := List.mem_map.1 hu
  obtain ⟨t', ht', rfl⟩ := List.mem_map.1 hw
  exact cmpOption_eq_cmpCode (within_split (h t ht)) (within_split (h t' ht'))

/-- To collect like terms is to collect their codes. -/
theorem map_codedPair_collect {ts : List Expr} (h : ∀ t ∈ ts, lowest.Loose t) :
    (collect cmpOption (restPairs ts)).map codedPair =
      collect cmpCode ((restPairs ts).map codedPair) :=
  map_collect cmpCode restCode (cmpOption_restPairs h)

/-- Like terms are collected in whatever order they come and however constants are written. -/
theorem collect_restPairs {ts us : List Expr} (h : ∀ t ∈ ts, lowest.Loose t)
    (hp : us.Perm (ts.map reduced)) :
    collect cmpOption (restPairs us) = (collect cmpOption (restPairs ts)).map reducedPair := by
  have loose : ∀ u ∈ us, lowest.Loose u := fun u hu => by
    obtain ⟨t, -, rfl⟩ := List.mem_map.1 (hp.mem_iff.1 hu)
    exact (lowest_reduced t).loose
  -- The codes of the collected terms are the same, and so are the terms up to spelling.
  have codes : (collect cmpOption (restPairs us)).map codedPair =
      (collect cmpOption (restPairs ts)).map codedPair := by
    rw [map_codedPair_collect loose, map_codedPair_collect h]
    refine collect_eq_collect cmpCode fun w => List.Perm.sum_eq (List.Perm.map _ ?_)
    have stays : ∀ u, codedPair (reducedPair u) = codedPair u := fun u =>
      codedPair_eq_iff.2 (reducedPair_reducedPair u)
    have permuted : ((restPairs us).map codedPair).Perm
        ((restPairs (ts.map reduced)).map codedPair) := (hp.map _).map _
    simpa [restPairs_map_reduced, Function.comp_def, stays] using permuted
  have lower : (collect cmpOption (restPairs us)).map reducedPair =
      (collect cmpOption (restPairs ts)).map reducedPair := by
    rw [← List.forall₂_eq_eq_eq, List.forall₂_map_left_iff, List.forall₂_map_right_iff] at codes ⊢
    exact codes.imp fun _ _ => codedPair_eq_iff.1
  rw [← lower]
  refine ((List.map_congr_left fun u hu => ?_).trans (List.map_id _)).symm
  obtain ⟨v, hv, hu⟩ := exists_split_of_mem_collect hu
  obtain ⟨t, -, rfl⟩ := List.mem_map.1 (hp.mem_iff.1 hv)
  refine Prod.ext ?_ rfl
  change u.1.map reduced = u.1
  rw [← hu, split_reduced]
  simp [Function.comp_def, reduced_reduced]

/-- Like terms are merged in whatever order they come and however constants are written. -/
theorem merged_eq_map_reduced {ts us : List Expr} (h : ∀ t ∈ ts, lowest.Loose t)
    (hp : us.Perm (ts.map reduced)) : merged us = (merged ts).map reduced := by
  rw [merged, ← restPairs, collect_restPairs h hp, merged, ← restPairs, List.map_map, List.map_map]
  refine List.map_congr_left fun u hu => ?_
  obtain ⟨t, ht, hu⟩ := exists_split_of_mem_collect hu
  exact (reduced_scale u.2 (hu ▸ within_split (h t ht))).symm

/-- Taking sums apart goes along with writing them in lowest terms and in another order. -/
theorem termsOf_perm_reduced {ts us : List Expr} (hp : us.Perm (ts.map reduced)) :
    (termsOf us).Perm ((termsOf ts).map reduced) := by
  rw [termsOf, termsOf, List.map_flatMap]
  simpa [List.flatMap_map, terms_reduced] using hp.flatMap_right terms

/-- Sums do not depend on the order of the terms or on how constants are written. -/
theorem reduced_addUp {ts us : List Expr} (h : ∀ t ∈ ts, lowest.Loose t)
    (hp : us.Perm (ts.map reduced)) : (addUp ts).reduced = addUp us := by
  have merged_eq : ∀ {ts us : List Expr}, (∀ t ∈ ts, lowest.Loose t) →
      us.Perm (ts.map reduced) → merged (termsOf us) = (merged (termsOf ts)).map reduced :=
    fun h hp => merged_eq_map_reduced (loose_termsOf h) (termsOf_perm_reduced hp)
  have any_isSum : ∀ vs : List Expr, (vs.map reduced).any isSum = vs.any isSum := fun vs => by
    simp [List.any_map, Function.comp_def, isSum_reduced]
  revert h hp us
  refine addUp_induction (P := fun ts e => ∀ {us : List Expr}, (∀ t ∈ ts, lowest.Loose t) →
    us.Perm (ts.map reduced) → e.reduced = addUp us) ?_ ?_ ?_ ?_ ts
  · intro ts e hs ih us h hp
    rw [addUp, merged_eq h hp, if_pos (by rw [any_isSum, hs])]
    exact ih (fun t ht => (within_merged (loose_termsOf h) t ht).loose) (.refl _)
  · intro ts h0 us h hp
    rw [addUp, merged_eq h hp, h0]
    simp
  · intro ts t hs h1 us h hp
    rw [addUp, merged_eq h hp, if_neg (by rw [any_isSum, hs]; simp), h1]
    rfl
  · intro ts hs several us h hp
    rw [addUp, merged_eq h hp, if_neg (by rw [any_isSum, hs]; simp), reduced_sum]
    rcases hm : merged (termsOf ts) with _ | ⟨t, _ | ⟨u, us⟩⟩
    · simp [hm] at several
    · simp [hm] at several
    · rfl

/-! ## Passes -/

/-- The constants of a simplified expression are in lowest terms, but for one that stands alone. -/
theorem loose_lowest_simplify (e : Expr) : lowest.Loose e.simplify :=
  loose_simplify (within_ofAtoms_iff.2 fun _ _ => trivial)

/-- Simplifying does not depend on how constants are written. -/
theorem reduced_simplify (e : Expr) : e.simplify.reduced = e.reduced.simplify := by
  have members : ∀ es : List Expr, ∀ f ∈ es.map simplify, lowest.Loose f :=
    fun es => List.forall_mem_map.2 fun e _ => loose_lowest_simplify e
  induction e using ind with
  | number n => rw [simplify, reduced_number, rational, simplify]
  | atom a => rw [simplify, reduced_atom, simplify]
  | product fs ih =>
    rw [simplify, reduced_product, simplify]
    refine reduced_multiply (members fs) (.of_eq ?_)
    rw [List.map_map, List.map_map]
    exact List.map_congr_left fun f hf => (ih f hf).symm
  | sum ts ih =>
    rw [simplify, reduced_sum, simplify]
    refine reduced_addUp (members ts) (.of_eq ?_)
    rw [List.map_map, List.map_map]
    exact List.map_congr_left fun t ht => (ih t ht).symm
  | fraction n d ihn ihd =>
    rw [simplify, reduced_fraction, simplify, ← ihn, ← ihd]
    exact reduced_divide (loose_lowest_simplify n) (loose_lowest_simplify d)

/-- Orienting an atom brings in no constants but those in lowest terms. -/
theorem reduced_oriented (a : Atom) : a.oriented.reduced = a.oriented := by
  cases a with
  | area a b c =>
    rw [Atom.oriented]
    split
    · exact reduced_zero
    · simp only [signed]
      split <;> simp [minusOne]
  | pythagoras a b c =>
    rw [Atom.oriented]
    split
    · exact reduced_zero
    · exact reduced_atom _
  | ratio a b c d =>
    rw [Atom.oriented]
    split
    · exact reduced_zero
    · dsimp only
      split
      · split <;> exact reduced_rational _
      · simp only [signed]
        split <;> simp [minusOne]
  | scalar s => exact reduced_atom _
  | coordinate p i => exact reduced_atom _

/-- Orienting sorts members as they are written, but simplifying does not depend on their order. -/
theorem reduced_simplify_oriented_product {fs gs : List Expr}
    (hp : gs.Perm (fs.map fun f => f.oriented.simplify.reduced)) :
    (product fs).oriented.simplify.reduced = multiply gs := by
  rw [oriented, simplify]
  refine reduced_multiply (List.forall_mem_map.2 fun f _ => loose_lowest_simplify f) (hp.trans ?_)
  simpa [Function.comp_def] using (((sort_perm (fs.map oriented)).map simplify).map reduced).symm

/-- A sum is oriented and simplified term by term, in any order. -/
theorem reduced_simplify_oriented_sum {ts us : List Expr}
    (hp : us.Perm (ts.map fun t => t.oriented.simplify.reduced)) :
    (sum ts).oriented.simplify.reduced = addUp us := by
  rw [oriented, simplify]
  refine reduced_addUp (List.forall_mem_map.2 fun t _ => loose_lowest_simplify t) (hp.trans ?_)
  simpa [Function.comp_def] using (((sort_perm (ts.map oriented)).map simplify).map reduced).symm

/-- A fraction is oriented and simplified part by part. -/
theorem reduced_simplify_oriented_fraction (n d : Expr) :
    (fraction n d).oriented.simplify.reduced =
      divide n.oriented.simplify.reduced d.oriented.simplify.reduced := by
  rw [oriented, simplify]
  exact reduced_divide (loose_lowest_simplify _) (loose_lowest_simplify _)

/-- Nor does orienting and simplifying depend on how constants are written. -/
theorem reduced_simplify_oriented (e : Expr) :
    e.oriented.simplify.reduced = e.reduced.oriented.simplify := by
  have permuted : ∀ es : List Expr,
      (∀ e ∈ es, e.oriented.simplify.reduced = e.reduced.oriented.simplify) →
      ((sort ((es.map reduced).map oriented)).map simplify).Perm
        (es.map fun e => e.oriented.simplify.reduced) := by
    intro es ih
    refine ((sort_perm _).map simplify).trans (.of_eq ?_)
    simp only [List.map_map]
    exact List.map_congr_left fun e he => (ih e he).symm
  induction e using ind with
  | number n => rw [reduced_number, rational, oriented, oriented, reduced_simplify, reduced_number,
      rational]
  | atom a => rw [reduced_atom, oriented, reduced_simplify, reduced_oriented]
  | product fs ih =>
    rw [reduced_simplify_oriented_product (permuted fs ih), reduced_product, oriented, simplify]
  | sum ts ih =>
    rw [reduced_simplify_oriented_sum (permuted ts ih), reduced_sum, oriented, simplify]
  | fraction n d ihn ihd =>
    rw [reduced_simplify_oriented_fraction, ihn, ihd, reduced_fraction, oriented, simplify]

/-- Leaving out flat areas does not depend on how constants are written. -/
theorem reduced_flattened (k : CollinearSet) (e : Expr) :
    (e.flattened k).reduced = e.reduced.flattened k := by
  rw [flattened, flattened]
  induction e using ind with
  | number n => rw [mapAtoms, reduced_number, rational, mapAtoms]
  | atom a =>
    rw [mapAtoms, reduced_atom, mapAtoms]
    split
    · exact reduced_zero
    · exact reduced_atom a
  | product fs ih =>
    rw [mapAtoms, reduced_product, reduced_product, mapAtoms, List.map_map, List.map_map]
    exact congrArg product (List.map_congr_left ih)
  | sum ts ih =>
    rw [mapAtoms, reduced_sum, reduced_sum, mapAtoms, List.map_map, List.map_map]
    exact congrArg sum (List.map_congr_left ih)
  | fraction n d ihn ihd =>
    rw [mapAtoms, reduced_fraction, reduced_fraction, mapAtoms, ihn, ihd]

/-- Tidying does not depend on how constants are written. -/
theorem reduced_tidied (k : CollinearSet) (e : Expr) :
    (e.tidied k).reduced = e.reduced.tidied k := by
  rw [tidied, tidied, reduced_simplify_oriented, reduced_flattened]

/-- Leaving out repeated denominators does not depend on how constants are written. -/
theorem eraseDupsBy_same_reduced (ds : List Expr) :
    (ds.map reduced).eraseDupsBy same = (ds.eraseDupsBy same).map reduced := by
  have same_reduced : ∀ d e : Expr, same d.reduced e.reduced = same d e := fun d e => by
    rw [Bool.eq_iff_iff, same_iff, same_iff, reduced_reduced, reduced_reduced]
  induction hk : ds.length using Nat.strong_induction_on generalizing ds with
  | _ k ih =>
    subst hk
    cases ds with
    | nil => rfl
    | cons d ds =>
      have hlen := List.length_filter_le (fun b => decide (same b d = false)) ds
      rw [List.map_cons, List.eraseDupsBy_cons, List.eraseDupsBy_cons, List.map_cons,
        ← ih _ (by simp only [List.length_cons]; omega) _ rfl, List.filter_map]
      simp only [Function.comp_def, same_reduced]

/-- Multiplying by a factor that may be missing goes along with writing constants in lowest
terms. -/
theorem reduced_timesOption {e : Expr} {r : Option Expr} (he : lowest.Loose e)
    (hr : ∀ d ∈ r, lowest.Loose d) :
    (timesOption e r).reduced = timesOption e.reduced (r.map reduced) := by
  cases r with
  | none => rfl
  | some d => exact reduced_multiply (by simp [he, hr d rfl]) (.refl _)

/-- Numerator and denominator in lowest terms. -/
def lowerParts (p : Expr × Option Expr) : Expr × Option Expr := (p.1.reduced, p.2.map reduced)

/-- The denominators in lowest terms are those of the fractions in lowest terms. -/
theorem filterMap_lowerParts (ps : List (Expr × Option Expr)) :
    (ps.map lowerParts).filterMap (·.2) = (ps.filterMap (·.2)).map reduced := by
  rw [List.filterMap_map, List.map_filterMap]
  rfl

/-- Bringing fractions over a common denominator does not depend on how constants are written. -/
theorem reduced_overCommon {ps : List (Expr × Option Expr)}
    (h : ∀ p ∈ ps, lowest.Loose p.1 ∧ ∀ d ∈ p.2, lowest.Loose d) :
    overCommon (ps.map lowerParts) = lowerParts (overCommon ps) := by
  rw [overCommon, overCommon, filterMap_lowerParts, eraseDupsBy_same_reduced, List.isEmpty_map]
  have denominators : ∀ d ∈ (ps.filterMap (·.2)).eraseDupsBy same, lowest.Loose d := fun d hd => by
    obtain ⟨p, hp, hd⟩ := List.mem_filterMap.1 (mem_of_mem_eraseDupsBy hd)
    exact (h p hp).2 d hd
  generalize (ps.filterMap (·.2)).eraseDupsBy same = ds at denominators
  split
  · refine Prod.ext (reduced_addUp ?_ (.of_eq ?_)).symm rfl
    · exact List.forall_mem_map.2 fun p hp => (h p hp).1
    · rw [List.map_map, List.map_map]
      rfl
  · -- Each numerator is multiplied by the denominators that are not its own.
    have others : ∀ p : Expr × Option Expr,
        (ds.map reduced).filter (fun d => !sameOption (some d) (lowerParts p).2) =
          (ds.filter fun d => !sameOption (some d) p.2).map reduced := by
      intro p
      rw [List.filter_map]
      exact congrArg _ (List.filter_congr fun d _ =>
        congrArg not (sameOption_reduced (some d) p.2))
    have factors : ∀ p ∈ ps, ∀ f ∈ p.1 :: ds.filter (fun d => !sameOption (some d) p.2),
        lowest.Loose f := fun p hp => List.forall_mem_cons.2
      ⟨(h p hp).1, fun d hd => denominators d (List.mem_of_mem_filter hd)⟩
    refine Prod.ext (reduced_addUp ?_ (.of_eq ?_)).symm
      (congrArg some (reduced_multiply denominators (.refl _)).symm)
    · exact List.forall_mem_map.2 fun p hp => (within_multiply (factors p hp)).loose
    · rw [List.map_map, List.map_map]
      refine List.map_congr_left fun p hp => ?_
      rw [Function.comp, Function.comp, others]
      exact (reduced_multiply (factors p hp) (.refl _)).symm

/-- The parts over the denominator, in lowest terms. -/
theorem overDenominator_reduced (e : Expr) :
    e.reduced.overDenominator = lowerParts e.overDenominator := by
  have loose : ∀ e : Expr, lowest.Loose e.overDenominator.1 ∧
      ∀ d ∈ e.overDenominator.2, lowest.Loose d :=
    fun e => loose_overDenominator (within_ofAtoms_iff.2 fun _ _ => trivial)
  have parts : ∀ {es : List Expr},
      (∀ e ∈ es, e.reduced.overDenominator = lowerParts e.overDenominator) →
      (es.map reduced).map overDenominator = (es.map overDenominator).map lowerParts := by
    intro es ih
    rw [List.map_map, List.map_map]
    exact List.map_congr_left ih
  induction e using ind with
  | number n => simp [overDenominator, rational, lowerParts]
  | atom a => simp [overDenominator, lowerParts]
  | product fs ih =>
    rw [reduced_product, overDenominator, overDenominator, parts ih]
    rw [filterMap_lowerParts, productOption, productOption, List.isEmpty_map]
    refine Prod.ext (reduced_multiply ?_ (.of_eq ?_)).symm ?_
    · simpa using fun f _ => (loose f).1
    · simp only [List.map_map]
      rfl
    · split
      · rfl
      · refine congrArg some (reduced_multiply (fun d hd => ?_) (.refl _)).symm
        obtain ⟨p, hp, hd⟩ := List.mem_filterMap.1 hd
        obtain ⟨f, -, rfl⟩ := List.mem_map.1 hp
        exact (loose f).2 d hd
  | sum ts ih =>
    rw [reduced_sum, overDenominator, overDenominator, parts ih]
    exact reduced_overCommon (List.forall_mem_map.2 fun t _ => loose t)
  | fraction n d ihn ihd =>
    rw [reduced_fraction, overDenominator, overDenominator, ihn, ihd, lowerParts]
    dsimp only [lowerParts]
    rw [reduced_timesOption (loose n).1 (loose d).2, Option.map_some,
      reduced_timesOption (loose d).1 (loose n).2]

/-- Writing an expression as a single fraction does not depend on how constants are written. -/
theorem reduced_singleFraction (e : Expr) :
    e.singleFraction.reduced = e.reduced.singleFraction := by
  obtain ⟨hn, hd⟩ : lowest.Loose e.simplify.overDenominator.1 ∧
      ∀ d ∈ e.simplify.overDenominator.2, lowest.Loose d :=
    loose_overDenominator (within_ofAtoms_iff.2 fun _ _ => trivial)
  rw [singleFraction, singleFraction, ← reduced_simplify, overDenominator_reduced]
  rcases h : e.simplify.overDenominator with ⟨n, _ | d⟩
  · rfl
  · rw [h] at hn hd
    exact reduced_divide hn (hd d rfl)

/-- The numerator of an expression in lowest terms is its numerator in lowest terms. -/
theorem reduced_numerator (e : Expr) : e.numerator.reduced = e.reduced.numerator := by
  cases e <;> simp [numerator, rational]

/-- Clearing denominators does not depend on how constants are written. -/
theorem reduced_cleared (e : Expr) : e.cleared.reduced = e.reduced.cleared := by
  rw [cleared, cleared, reduced_simplify, reduced_numerator, reduced_singleFraction]

/-- What is multiplied out does not depend on how constants are written. -/
theorem reduced_unitProduct_cleared (e : Expr) :
    e.cleared.unitProduct.reduced = e.reduced.cleared.unitProduct := by
  simp [unitProduct, reduced_cleared, one]

/-- The size of an expression does not depend on how constants are written. -/
theorem size_reduced (e : Expr) : e.reduced.size = e.size := by
  induction e using ind with
  | number n => simp [rational, size]
  | atom a => simp
  | product fs ih | sum fs ih =>
    simp only [reduced_product, reduced_sum, size, List.map_map, Function.comp_def]
    rw [List.map_congr_left ih]
  | fraction n d ihn ihd => simp [size, ihn, ihd]

/-- How many terms multiplying out leads to does not depend on how constants are written. -/
theorem expansionTerms_reduced (e : Expr) : e.reduced.expansionTerms = e.expansionTerms := by
  induction e using ind with
  | number n => simp [rational, expansionTerms]
  | atom a => simp
  | product fs ih | sum fs ih =>
    simp only [reduced_product, reduced_sum, expansionTerms, List.map_map, Function.comp_def]
    rw [List.map_congr_left ih]
  | fraction n d => simp [expansionTerms]

/-- Which points an expression mentions does not depend on how constants are written. -/
theorem mentions_reduced (e : Expr) (p : Point) : e.reduced.mentions p = e.mentions p := by
  rw [mentions, mentions, atomList_reduced]

end Expr

/-! ## Multiplying out -/

/-- The factors of a monomial with its coefficient, however it is written. -/
def Monomial.term (m : Monomial) : List Expr × Rat := (m.factors, m.coefficient.value)

namespace Expr

open Shape

/-- The terms of a product of two sums of monomials. -/
theorem map_term_cross (ms ns : List Monomial) : (cross ms ns).map Monomial.term =
    (ms.map Monomial.term).flatMap fun s =>
      (ns.map Monomial.term).map fun t => (s.1 ++ t.1, s.2 * t.2) := by
  simp [cross, List.map_flatMap, List.flatMap_map, Function.comp_def, Monomial.term, Monomial.mul,
    Numeral.ofRat]

/-- The terms of monomials with their factors in order. -/
theorem map_term_sorted (ms : List Monomial) : (ms.map .sorted).map Monomial.term =
    (ms.map Monomial.term).map fun t => (sort t.1, t.2) := by
  simp [Function.comp_def, Monomial.term, Monomial.sorted]

/-- Multiplying out goes along with writing constants in lowest terms. -/
theorem map_term_expand_reduced {p : Atom → Prop} {e : Expr} (h : (polynomial p).Within e) :
    e.reduced.expand.map Monomial.term = e.expand.map Monomial.term := by
  induction e using ind with
  | number n =>
    rw [reduced_number, rational, expand, expand]
    by_cases h0 : n.value = 0 <;> simp [Numeral.ofRat, h0, Monomial.term]
  | atom a => rw [reduced_atom]
  | product fs ih =>
    have folded : ∀ gs : List Expr, (∀ g ∈ gs, g ∈ fs) → ∀ ms ns : List Monomial,
        ms.map Monomial.term = ns.map Monomial.term →
        (((gs.map reduced).map expand).foldl cross ms).map Monomial.term =
          ((gs.map expand).foldl cross ns).map Monomial.term := by
      intro gs hgs
      induction gs with
      | nil => exact fun ms ns h => h
      | cons g gs ihg =>
        rw [List.forall_mem_cons] at hgs
        intro ms ns same
        refine ihg hgs.2 _ _ ?_
        rw [map_term_cross, map_term_cross, same, ih g hgs.1 ((within_product fs).1 h g hgs.1)]
    rw [reduced_product, expand_product, expand_product, map_term_sorted, map_term_sorted,
      folded fs (fun _ => id) _ _ rfl]
  | sum ts ih =>
    rw [reduced_sum, expand, expand, List.map_flatMap, List.map_flatMap, List.flatMap_map]
    exact List.flatMap_congr fun t ht => ih t ht ((within_sum ts).1 h t ht)
  | fraction n d => exact absurd ((within_fraction n d).1 h).1 id

/-- Regrouping does not depend on how constants are written. -/
theorem regrouped_reduced (e : Expr) : e.reduced.regrouped = e.regrouped := by
  have polynomial : ∀ e : Expr, (Shape.polynomial fun _ => True).Within e.cleared.unitProduct :=
    fun e => (within_product _).2 (by
      simpa [Shape.polynomial] using within_cleared (s := .polynomial fun _ => True)
        (fun _ => trivial) (within_ofAtoms_iff.2 fun _ _ => trivial))
  have grouped_eq : ∀ e : Expr, e.cleared.unitProduct.expanded.grouped = ofMonomials
      ((collect cmpList (e.cleared.unitProduct.expand.map Monomial.term)).map fun t =>
        ⟨.ofRat t.2, t.1⟩) := by
    intro e
    rw [grouped, expanded, monomials?_ofMonomials (standard_expand _)]
    rfl
  rw [regrouped, regrouped, grouped_eq, grouped_eq, ← reduced_unitProduct_cleared,
    map_term_expand_reduced (polynomial e)]

end Expr

/-! ## Courses -/

namespace Inquiry

/-- What goes on in the same way from what is the same up to spelling. -/
theorem bind_eq_of_map_reduced {q q' : Inquiry Expr} {f : Expr → Inquiry α}
    (hq : Expr.reduced <$> q = Expr.reduced <$> q') (hf : ∀ e, f e.reduced = f e) :
    q >>= f = q' >>= f := by
  have through : ∀ q : Inquiry Expr, q >>= f = (Expr.reduced <$> q) >>= f := fun q => by
    rw [bind_map_left]
    exact congrArg (q >>= ·) (funext fun e => (hf e).symm)
  rw [through, hq, ← through]

/-- What is made of the results can be made of each. -/
theorem map_mapM (g : β → γ) (f : α → Inquiry β) (as : List α) :
    List.map g <$> as.mapM f = as.mapM fun a => g <$> f a := by
  induction as with
  | nil => rfl
  | cons a as ih =>
    rw [List.mapM_cons, List.mapM_cons, bind_map_left, map_bind]
    refine congrArg (f a >>= ·) (funext fun b => ?_)
    rw [← ih, bind_map_left, map_bind]
    rfl

end Inquiry

namespace Expr

/-- Asking about every atom does not depend on how constants are written. -/
theorem map_mapAtomsM_reduced (f : Atom → Inquiry Expr) (e : Expr) :
    reduced <$> e.reduced.mapAtomsM f = reduced <$> e.mapAtomsM f := by
  have members : ∀ es : List Expr,
      (∀ e ∈ es, reduced <$> e.reduced.mapAtomsM f = reduced <$> e.mapAtomsM f) →
      List.map reduced <$> (es.map reduced).mapM (mapAtomsM f) =
        List.map reduced <$> es.mapM (mapAtomsM f) := by
    intro es ih
    rw [Inquiry.map_mapM, Inquiry.map_mapM, List.mapM_map]
    induction es with
    | nil => rfl
    | cons e es ihs =>
      rw [List.forall_mem_cons] at ih
      rw [List.mapM_cons, List.mapM_cons, ihs ih.2, Function.comp, ih.1]
  induction e using ind with
  | number n =>
    rw [reduced_number, rational, mapAtomsM, mapAtomsM, map_pure, map_pure, reduced_number,
      reduced_number]
    rfl
  | atom a => rw [reduced_atom]
  | product fs ih =>
    have := congrArg (product <$> ·) (members fs ih)
    simpa [mapAtomsM, Function.comp_def] using this
  | sum ts ih =>
    have := congrArg (sum <$> ·) (members ts ih)
    simpa [mapAtomsM, Function.comp_def] using this
  | fraction n d ihn ihd =>
    have parts : ∀ n d : Expr, reduced <$> (fraction n d).mapAtomsM f = do
        let n ← reduced <$> n.mapAtomsM f
        let d ← reduced <$> d.mapAtomsM f
        return fraction n d := fun n d => by simp [mapAtomsM]
    rw [reduced_fraction, parts, parts, ihn, ihd]

end Expr

/-- Eliminating a point does not depend on how constants are written, in lowest terms. -/
theorem Construction.map_eliminate_reduced (c : Construction) (k : CollinearSet) (y : Point)
    (e : Expr) :
    Expr.reduced <$> c.eliminate k y e.reduced = Expr.reduced <$> c.eliminate k y e := by
  rw [eliminate, eliminate]
  split
  next index kind _ _ =>
    split
    · exact congrArg Inquiry.done e.reduced_reduced
    next shift _ =>
      rw [Expr.mentions_reduced]
      split
      · rw [map_bind, map_bind]
        refine Inquiry.bind_eq_of_map_reduced (Expr.map_mapAtomsM_reduced _ e) fun e => ?_
        split
        · exact congrArg (Inquiry.rely _ ∘ .done) e.reduced_reduced
        · exact congrArg Inquiry.done e.reduced_reduced
      · exact congrArg Inquiry.done e.reduced_reduced
  · rfl

namespace Course

variable (problem : Problem) (k : CollinearSet)

/-- Eliminating a point and clearing denominators does not depend on how constants are written. -/
theorem map_eliminate_reduced (y : Point) (e : Expr) :
    Expr.reduced <$> eliminate problem k y e.reduced =
      Expr.reduced <$> eliminate problem k y e := by
  rw [eliminate, eliminate, map_bind, map_bind, ← Expr.reduced_tidied]
  refine Inquiry.bind_eq_of_map_reduced
    (problem.construction.map_eliminate_reduced k y (e.tidied k)) fun e => ?_
  rw [Expr.size_reduced, ← Expr.reduced_tidied, ← Expr.reduced_cleared]
  split
  · rfl
  · exact congrArg Inquiry.done (Expr.reduced_reduced _)

/-- Eliminating the points of several steps does not depend on how constants are written. -/
theorem map_eliminateAll_reduced (steps : List Step) (e : Expr) :
    Expr.reduced <$> eliminateAll problem k steps e.reduced =
      Expr.reduced <$> eliminateAll problem k steps e := by
  induction steps generalizing e with
  | nil => exact congrArg Inquiry.done e.reduced_reduced
  | cons step steps ih =>
    cases step with
    | point y kind =>
      rw [eliminateAll, eliminateAll, Expr.isZero_reduced, Expr.mentions_reduced]
      split
      · exact congrArg Inquiry.done e.reduced_reduced
      · split
        · exact ih e
        · rw [map_bind, map_bind]
          exact Inquiry.bind_eq_of_map_reduced (map_eliminate_reduced problem k y e) ih
    | line l a b =>
      rw [eliminateAll, eliminateAll, Expr.isZero_reduced]
      split
      · exact congrArg Inquiry.done e.reduced_reduced
      · exact ih e

/-- Multiplying out and grouping does not depend on how constants are written. -/
theorem regroup_reduced (e : Expr) : regroup problem e.reduced = regroup problem e := by
  have terms : e.reduced.cleared.unitProduct.expansionTerms =
      e.cleared.unitProduct.expansionTerms := by
    rw [← Expr.reduced_unitProduct_cleared, Expr.expansionTerms_reduced]
  have regrouped := e.regrouped_reduced
  rw [Expr.regrouped, Expr.regrouped] at regrouped
  rw [regroup, regroup, terms, regrouped]

/-- Whether an expression is found to vanish does not depend on how constants are written. -/
theorem vanishes_reduced (steps : List Step) (e : Expr) :
    vanishes problem k steps e.reduced = vanishes problem k steps e := by
  rw [vanishes, vanishes, ← Expr.reduced_simplify_oriented]
  refine Inquiry.bind_eq_of_map_reduced (map_eliminateAll_reduced problem k steps _) fun e => ?_
  rw [regroup_reduced]

/-- Whether several expressions are found to vanish does not depend on how constants are written. -/
theorem allVanish_reduced (steps : List Step) (es : List Expr) :
    allVanish problem k steps (es.map Expr.reduced) = allVanish problem k steps es := by
  induction es with
  | nil => rfl
  | cons e es ih => rw [List.map_cons, allVanish, allVanish, vanishes_reduced, ih]

end Course

/-- The course of a proof does not depend on how the constants of the statement are written. -/
theorem Problem.course_eq_of_same (problem : Problem) (n : Nat) {es fs : List Expr}
    (h : Expr.sameList es fs = true) : problem.course n es = problem.course n fs := by
  have same : es.map Expr.reduced = fs.map Expr.reduced := Expr.sameList_iff.1 h
  rw [course, course, ← Course.allVanish_reduced, same, Course.allVanish_reduced]

end AreaMethod
