import AreaMethod.Expr.Sum
import AreaMethod.Proofs.Value

/-!
# Simplification keeps values

`simplify` rebuilds an expression with `multiply`, `divide` and `addUp`, each of which yields the
product, the quotient or the sum of what it is given (`multiply_keeps`, `divide_keeps`,
`addUp_keeps`). So an expression that has a value keeps it (`simplify_keeps`, and over the rationals
`eval_simplify`). The converse fails: `x / x` becomes one, which has a value also where `x` is zero.

`multiply` and `divide` call each other; `multiply_divide_induction` is the induction that follows
their recursion, once for all the properties of the two. In the same way what a product is taken
apart into is described once for all properties of the parts (`forall_mem_factors`,
`Parts.ofFactors_induction`).
-/

namespace AreaMethod.Expr

/-! ## Inductions -/

/-- What a product hands on to its members holds of its factors, those of nested products among
them. -/
theorem forall_mem_factors {p : Expr → Prop} (hp : ∀ fs, p (product fs) → ∀ f ∈ fs, p f) {e : Expr}
    (h : p e) : ∀ f ∈ e.factors, p f := by
  induction e using factors.induct with
  | case1 fs ih =>
    intro f hf
    rw [factors, List.mem_flatMap] at hf
    obtain ⟨g, hg, hf⟩ := hf
    exact ih g hg (hp fs h g hg) f hf
  | case2 e he => simpa [factors] using h

/-- What holds of the members of a bundle holds of the bundle, if it holds of constants and goes
over to products. -/
theorem bundle?_induction {p : Expr → Prop} (constant : ∀ q, p (rational q))
    (product : ∀ fs, (∀ f ∈ fs, p f) → p (product fs)) {fs : List Expr} (q : Rat)
    (h : ∀ f ∈ fs, p f) : p ((bundle? fs).getD (rational q)) := by
  match fs with
  | [] => exact constant q
  | [f] => exact h f (by simp)
  | f :: g :: fs => exact product (f :: g :: fs) h

/-- What holds of no parts at all, and still holds when a factor is taken in, holds of the parts of
a product. -/
theorem Parts.ofFactors_induction {P : Parts → Prop} {p : Expr → Prop} (empty : P Parts.empty)
    (add : ∀ q f, P q → p f → P (q.add f)) {fs : List Expr}
    (h : ∀ f ∈ fs, ∀ g ∈ f.factors, p g) : P (ofFactors fs) := by
  have key : ∀ es : List Expr, (∀ e ∈ es, p e) → P (es.foldr Parts.add Parts.empty) := by
    intro es
    induction es with
    | nil => exact fun _ => empty
    | cons e es ih =>
      exact fun he => add _ e (ih fun f hf => he f (by simp [hf])) (he e (by simp))
  refine key _ fun e he => ?_
  obtain ⟨f, hf, he⟩ := List.mem_flatMap.1 (List.mem_reverse.1 he)
  exact h f hf e he

/-- Numerators and denominators come in pairs. -/
theorem Parts.length_numerators (fs : List Expr) :
    (Parts.ofFactors fs).numerators.length = (Parts.ofFactors fs).denominators.length := by
  refine ofFactors_induction (p := fun _ => True)
    (P := fun q => q.numerators.length = q.denominators.length) rfl ?_ fun _ _ _ _ => trivial
  intro q f hq _
  cases f <;> simp [add, hq]

/-- Without denominators there are no numerators. -/
theorem Parts.numerators_eq_nil {fs : List Expr} (h : (Parts.ofFactors fs).denominators = []) :
    (Parts.ofFactors fs).numerators = [] :=
  List.length_eq_zero_iff.1 (by rw [Parts.length_numerators, h, List.length_nil])

/-- Induction over the ways in which products and quotients come about: `P fs e` if the product of
`fs` is `e`, and `Q n d e` if the quotient of `n` and `d` is `e`. -/
theorem multiply_divide_induction {P : List Expr → Expr → Prop} {Q : Expr → Expr → Expr → Prop}
    (vanishing : ∀ fs, (Parts.ofFactors fs).coefficient = 0 → P fs zero)
    (plain : ∀ fs, (Parts.ofFactors fs).coefficient ≠ 0 →
      (Parts.ofFactors fs).denominators = [] →
      P fs (assemble (Parts.ofFactors fs).coefficient (Parts.ofFactors fs).plain))
    (joined : ∀ fs gs top bottom e, (Parts.ofFactors fs).coefficient ≠ 0 →
      (Parts.ofFactors fs).denominators ≠ [] →
      gs = rational (Parts.ofFactors fs).coefficient ::
        ((Parts.ofFactors fs).plain ++ (Parts.ofFactors fs).numerators) →
      top = multiply gs → bottom = multiply (Parts.ofFactors fs).denominators → P gs top →
      P (Parts.ofFactors fs).denominators bottom → Q top bottom e → P fs e)
    (raw : ∀ n d, d.isZero = true → Q n d (fraction n d))
    (zero : ∀ n d, d.isZero = false → n.isZero = true → Q n d zero)
    (overFraction : ∀ t b d m e, d.isZero = false → (fraction t b).isZero = false →
      m = multiply [b, d] → P [b, d] m → Q t m e → Q (fraction t b) d e)
    (underFraction : ∀ n t b m e, (∀ t' b', n ≠ fraction t' b') → (fraction t b).isZero = false →
      n.isZero = false → m = multiply [n, b] → P [n, b] m → Q m t e → Q n (fraction t b) e)
    (overConstant : ∀ n c e, (∀ t b, n ≠ fraction t b) → (number c).isZero = false →
      n.isZero = false → P [rational (1 / c.value), n] e → Q n (number c) e)
    (cancelled : ∀ n d, (∀ t b, n ≠ fraction t b) → (∀ t b, d ≠ fraction t b) →
      (∀ c, d ≠ number c) → d.isZero = false → n.isZero = false →
      sameOption n.split.2 (some d.rest) = true → Q n d (rational (n.split.1 / d.split.1)))
    (general : ∀ n d e, (∀ t b, n ≠ fraction t b) → (∀ t b, d ≠ fraction t b) →
      (∀ c, d ≠ number c) → d.isZero = false → n.isZero = false →
      sameOption n.split.2 (some d.rest) = false →
      e = multiply [rational (n.split.1 / d.split.1), n.rest] →
      P [rational (n.split.1 / d.split.1), n.rest] e → Q n d (fraction e d.rest)) :
    (∀ fs, P fs (multiply fs)) ∧ ∀ n d, Q n d (divide n d) := by
  have product : ∀ fs, (∀ gs, weights gs < weights fs → P gs (multiply gs)) →
      (∀ n d, n.weight + d.weight < weights fs → Q n d (divide n d)) → P fs (multiply fs) := by
    intro fs ihm ihd
    rw [multiply_eq]
    dsimp only
    by_cases hc : (Parts.ofFactors fs).coefficient = 0
    · rw [if_pos (beq_iff_eq.2 hc)]
      exact vanishing fs hc
    rw [if_neg (mt beq_iff_eq.1 hc)]
    by_cases hd : (Parts.ofFactors fs).denominators = []
    · rw [if_pos (List.isEmpty_iff.2 hd)]
      exact plain fs hc hd
    rw [if_neg (mt List.isEmpty_iff.1 hd)]
    have hlt := Parts.weights_lt (Parts.ofFactors fs).coefficient (mt List.isEmpty_iff.1 hd)
    have ht := weight_multiply_le (rational (Parts.ofFactors fs).coefficient ::
      ((Parts.ofFactors fs).plain ++ (Parts.ofFactors fs).numerators))
    have hb := weight_multiply_le (Parts.ofFactors fs).denominators
    exact joined fs _ _ _ _ hc hd rfl rfl rfl (ihm _ (by omega)) (ihm _ (by omega))
      (ihd _ _ (by omega))
  have quotient : ∀ n d, (∀ gs, weights gs ≤ n.weight + d.weight → P gs (multiply gs)) →
      (∀ n' d', n'.weight + d'.weight < n.weight + d.weight → Q n' d' (divide n' d')) →
      Q n d (divide n d) := by
    intro n d ihm ihd
    rw [divide_eq]
    by_cases hd : d.isZero
    · rw [if_pos hd]
      exact raw n d hd
    rw [if_neg hd]
    rw [Bool.not_eq_true] at hd
    by_cases hn : n.isZero
    · rw [if_pos hn]
      exact zero n d hd hn
    rw [if_neg hn]
    rw [Bool.not_eq_true] at hn
    split
    · rename_i t b
      have hw := weight_multiply_le [b, d]
      simp only [weight_fraction, weights_cons, weights_nil] at hw ihm ihd
      exact overFraction t b d _ _ hd hn rfl
        (ihm _ (by simp only [weights_cons, weights_nil]; omega)) (ihd _ _ (by omega))
    · rename_i t b hn'
      have hw := weight_multiply_le [n, b]
      simp only [weight_fraction, weights_cons, weights_nil] at hw ihm ihd
      exact underFraction n t b _ _ hn' hd hn rfl
        (ihm _ (by simp only [weights_cons, weights_nil]; omega)) (ihd _ _ (by omega))
    · rename_i c hn'
      exact overConstant n c _ hn' hd hn (ihm _ (by simp))
    · rename_i hn' hd' hc
      have hw := weight_rest_le n
      split
      · exact cancelled n d hn' hd' hc hd hn ‹_›
      · exact general n d _ hn' hd' hc hd hn (Bool.eq_false_iff.2 ‹_›) rfl
          (ihm _ (by simp only [weights_cons, weights_nil, weight_rational]; omega))
  have key : ∀ k, (∀ fs, weights fs < k → P fs (multiply fs)) ∧
      ∀ n d, n.weight + d.weight < k → Q n d (divide n d) := by
    intro k
    induction k with
    | zero =>
      exact ⟨fun _ h => absurd h (Nat.not_lt_zero _), fun _ _ h => absurd h (Nat.not_lt_zero _)⟩
    | succ k ih =>
      have hP : ∀ fs, weights fs < k + 1 → P fs (multiply fs) := fun fs h =>
        product fs (fun gs hg => ih.1 gs (by omega)) (fun n d hnd => ih.2 n d (by omega))
      refine ⟨hP, fun n d h => ?_⟩
      exact quotient n d (fun gs hg => hP gs (by omega)) (fun n' d' hnd => ih.2 n' d' (by omega))
  exact ⟨fun fs => (key (weights fs + 1)).1 fs (by omega),
    fun n d => (key (n.weight + d.weight + 1)).2 n d (by omega)⟩

/-- Induction over the ways in which a sum comes about: `P ts e` if the sum of `ts` is `e`. -/
theorem addUp_induction {P : List Expr → Expr → Prop}
    (again : ∀ ts e, (merged (termsOf ts)).any isSum = true → P (merged (termsOf ts)) e → P ts e)
    (empty : ∀ ts, merged (termsOf ts) = [] → P ts zero)
    (single : ∀ ts t, (merged (termsOf ts)).any isSum = false → merged (termsOf ts) = [t] → P ts t)
    (several : ∀ ts, (merged (termsOf ts)).any isSum = false → 2 ≤ (merged (termsOf ts)).length →
      P ts (sum (merged (termsOf ts)))) (ts : List Expr) : P ts (addUp ts) := by
  rw [addUp]
  split
  next h => exact again ts _ h (addUp_induction again empty single several _)
  next h =>
    split
    next hu => exact empty ts hu
    next t hu => exact single ts t (Bool.eq_false_iff.2 h) hu
    next h0 h1 =>
      refine several ts (Bool.eq_false_iff.2 h) ?_
      rcases hu : merged (termsOf ts) with _ | ⟨t, _ | ⟨u, us⟩⟩
      · exact absurd hu h0
      · exact absurd hu (h1 t)
      · simp
termination_by weights (termsOf ts)
decreasing_by
  exact Nat.lt_of_lt_of_le (weights_termsOf_lt ‹(merged (termsOf ts)).any isSum = true›)
    (weights_merged_le (termsOf ts))

section
variable {F : Type*} [Field F] {v : Atom → Option F}

/-! ## Constants in lowest terms -/

@[simp] theorem value_reduced (e : Expr) : e.reduced.value v = e.value v := by
  induction e using ind with
  | number n => simp [reduced, rational, Numeral.ofRat]
  | atom a => simp [reduced]
  | product fs ih =>
    rw [reduced, value_product, value_product, List.map_map]
    exact congrArg List.prod (List.map_congr_left ih)
  | sum ts ih =>
    rw [reduced, value_sum, value_sum, List.map_map]
    exact congrArg List.sum (List.map_congr_left ih)
  | fraction n d ihn ihd => simp [reduced, ihn, ihd]

/-- Expressions that are the same have the same value. -/
theorem value_eq_of_same {e f : Expr} (h : same e f) : e.value v = f.value v := by
  have h : e.reduced = f.reduced := cmp_eq_iff.1 (by simpa [same] using h)
  rw [← value_reduced e, h, value_reduced f]

/-! ## Factors -/

@[simp] theorem prod_factors (e : Expr) : (e.factors.map (value v)).prod = e.value v := by
  induction e using factors.induct with
  | case1 fs ih =>
    rw [factors, value_product]
    induction fs with
    | nil => simp
    | cons f fs ihs =>
      rw [List.flatMap_cons, List.map_append, List.prod_append, List.map_cons, List.prod_cons,
        ih f (by simp), ihs fun g hg => ih g (by simp [hg])]
  | case2 e h => simp [factors]

/-- The factors of an expression are defined where it is. -/
theorem definedAt_factors {e : Expr} (h : e.DefinedAt v) : ∀ f ∈ e.factors, f.DefinedAt v :=
  forall_mem_factors (fun fs => (definedAt_product v fs).1) h

/-- The parts of a product that has a value: all of them have one, and no denominator is zero. -/
structure Parts.DefinedAt (v : Atom → Option F) (p : Parts) : Prop where
  plain : ∀ f ∈ p.plain, f.DefinedAt v
  numerators : ∀ f ∈ p.numerators, f.DefinedAt v
  denominators : ∀ f ∈ p.denominators, f.DefinedAt v ∧ f.value v ≠ 0

/-- The value of a product that is taken apart. -/
def Parts.value (v : Atom → Option F) (p : Parts) : F :=
  p.coefficient * (p.plain.map (Expr.value v)).prod * (p.numerators.map (Expr.value v)).prod /
    (p.denominators.map (Expr.value v)).prod

/-- The members of a list keep their product in another order. -/
theorem prod_sort (es : List Expr) :
    ((sort es).map (value v)).prod = (es.map (value v)).prod :=
  ((sort_perm es).map _).prod_eq

/-- Bundled factors have the value of their product. -/
theorem value_bundle? (fs : List Expr) (q : Rat) (h : fs = [] → q = 1) :
    ((bundle? fs).getD (rational q)).value v = (fs.map (value v)).prod := by
  match fs with
  | [] => simp [bundle?, h]
  | [f] => simp [bundle?]
  | _ :: _ :: _ => simp [bundle?]

/-- Bundled factors are defined where each of them is. -/
theorem definedAt_bundle? {fs : List Expr} (q : Rat) (h : ∀ f ∈ fs, f.DefinedAt v) :
    ((bundle? fs).getD (rational q)).DefinedAt v :=
  bundle?_induction (definedAt_rational v) (fun fs => (definedAt_product v fs).2) q h

/-- Assembled factors have the value of their product times the coefficient. -/
theorem assemble_keeps (c : Rat) {fs : List Expr} (h : ∀ f ∈ fs, f.DefinedAt v) :
    (assemble c fs).DefinedAt v ∧ (assemble c fs).value v = c * (fs.map (value v)).prod := by
  have hs : ∀ f ∈ sort fs, f.DefinedAt v := fun f hf => h f ((sort_perm fs).mem_iff.1 hf)
  rw [assemble]
  split
  next hc =>
    refine ⟨definedAt_bundle? c hs, ?_⟩
    rw [Bool.or_eq_true, beq_iff_eq, List.isEmpty_iff] at hc
    rcases hc with rfl | rfl
    · rw [value_bundle? _ _ fun _ => rfl, prod_sort]
      simp
    · have : sort [] = [] := List.perm_nil.1 (sort_perm [])
      simp [this, bundle?]
  next => exact ⟨by simpa using hs, by simp [prod_sort]⟩

/-! ## Coefficients -/

/-- A term is its coefficient times the rest. -/
theorem split_mul_rest (e : Expr) : (e.split.1 : F) * e.rest.value v = e.value v := by
  fun_induction split e with
  | case1 n => simp [rest, split]
  | case2 n fs =>
    rw [rest, split, one, value_bundle? fs 1 fun _ => rfl]
    simp
  | case3 n d ih =>
    rw [rest, split, Option.getD_some, value_fraction, value_fraction, ← ih, rest]
    ring
  | case4 e h₁ h₂ h₃ => simp [rest, split]

/-- Without its coefficient an expression is defined where it was. -/
theorem definedAt_rest {e : Expr} (h : e.DefinedAt v) : e.rest.DefinedAt v := by
  fun_induction split e with
  | case1 n => simp [rest, split]
  | case2 n fs =>
    rw [rest, split]
    exact definedAt_bundle? 1 fun f hf => (definedAt_product v _).1 h f (by simp [hf])
  | case3 n d ih =>
    obtain ⟨hn, hd, hd0⟩ := (definedAt_fraction v n d).1 h
    rw [rest, split, Option.getD_some, definedAt_fraction]
    exact ⟨ih hn, hd, hd0⟩
  | case4 e h₁ h₂ h₃ => simpa [rest, split] using h

/-- What a coefficient multiplies is what is left without it. -/
theorem rest_eq_of_mem_split {e r : Expr} (h : r ∈ e.split.2) : e.rest = r := by
  rw [rest, Option.mem_def.1 h, Option.getD_some]

/-- What the coefficient multiplies is defined where the expression is. -/
theorem definedAt_split {e : Expr} (h : e.DefinedAt v) : ∀ r ∈ e.split.2, r.DefinedAt v :=
  fun _ hr => rest_eq_of_mem_split hr ▸ definedAt_rest h

/-! ## Products and quotients -/

variable [CharZero F]

/-- Taking in a factor multiplies the value of the parts by it. -/
theorem Parts.add_keeps {p : Parts} {f : Expr} (hp : p.DefinedAt v) (hf : f.DefinedAt v) :
    (p.add f).DefinedAt v ∧ (p.add f).value v = f.value v * p.value v := by
  cases f with
  | number n =>
    refine ⟨⟨hp.plain, hp.numerators, hp.denominators⟩, ?_⟩
    simp only [add, Parts.value, value_number, Rat.cast_mul]
    ring
  | fraction n d =>
    obtain ⟨hn, hd, hd0⟩ := (definedAt_fraction v n d).1 hf
    refine ⟨⟨hp.plain, ?_, ?_⟩, ?_⟩
    · exact List.forall_mem_cons.2 ⟨hn, hp.numerators⟩
    · exact List.forall_mem_cons.2 ⟨⟨hd, hd0⟩, hp.denominators⟩
    · simp only [add, Parts.value, value_fraction, List.map_cons, List.prod_cons]
      rw [div_mul_div_comm]
      ring
  | atom | product | sum =>
    refine ⟨⟨List.forall_mem_cons.2 ⟨hf, hp.plain⟩, hp.numerators, hp.denominators⟩, ?_⟩
    simp only [add, Parts.value, List.map_cons, List.prod_cons]
    ring

/-- Taking a product apart keeps its value. -/
theorem Parts.ofFactors_keeps {fs : List Expr} (h : ∀ f ∈ fs, f.DefinedAt v) :
    (ofFactors fs).DefinedAt v ∧ (ofFactors fs).value v = (fs.map (Expr.value v)).prod := by
  have key : ∀ es : List Expr, (∀ e ∈ es, e.DefinedAt v) →
      (es.foldr add empty).DefinedAt v ∧
        (es.foldr add empty).value v = (es.map (Expr.value v)).prod := by
    intro es
    induction es with
    | nil =>
      intro _
      exact ⟨⟨by simp [empty], by simp [empty], by simp [empty]⟩, by simp [empty, Parts.value]⟩
    | cons e es ih =>
      intro he
      obtain ⟨hd, hv⟩ := ih fun f hf => he f (by simp [hf])
      obtain ⟨hd', hv'⟩ := add_keeps hd (he e (by simp))
      exact ⟨hd', by rw [List.foldr_cons, hv', hv, List.map_cons, List.prod_cons]⟩
  obtain ⟨hd, hv⟩ := key (fs.flatMap factors).reverse fun e he => by
    obtain ⟨f, hf, he⟩ := List.mem_flatMap.1 (List.mem_reverse.1 he)
    exact definedAt_factors (h f hf) e he
  refine ⟨hd, hv.trans ?_⟩
  rw [List.map_reverse, List.prod_reverse]
  clear hd hv h key
  induction fs with
  | nil => rfl
  | cons f fs ih => simp [ih]

/-- The quotient of two terms over the same rest is that of their coefficients. -/
theorem div_eq_of_same_rest {n d : Expr} (h : sameOption n.split.2 (some d.rest))
    (hd : d.value v ≠ 0) : ((n.split.1 / d.split.1 : Rat) : F) = n.value v / d.value v := by
  have hrest : n.rest.value v = d.rest.value v := by
    cases hn : n.split.2 with
    | none => simp [hn, sameOption, cmpOption] at h
    | some r =>
      rw [rest, hn, Option.getD_some]
      exact value_eq_of_same (by simpa [hn, sameOption, cmpOption, same] using h)
  rw [← split_mul_rest d] at hd
  rw [← split_mul_rest n, ← split_mul_rest d, hrest,
    mul_div_mul_right _ _ (right_ne_zero_of_mul hd),
    Rat.cast_div]

/-- `multiply` yields the product, and `divide` the quotient if the denominator is not zero. -/
theorem multiply_divide_keeps :
    (∀ fs : List Expr, (∀ f ∈ fs, f.DefinedAt v) →
      (multiply fs).DefinedAt v ∧ (multiply fs).value v = (fs.map (value v)).prod) ∧
    ∀ n d : Expr, n.DefinedAt v → d.DefinedAt v → d.value v ≠ 0 →
      (divide n d).DefinedAt v ∧ (divide n d).value v = n.value v / d.value v := by
  apply multiply_divide_induction
    (P := fun fs e => (∀ f ∈ fs, f.DefinedAt v) →
      e.DefinedAt v ∧ e.value v = (fs.map (value v)).prod)
    (Q := fun n d e => n.DefinedAt v → d.DefinedAt v → d.value v ≠ 0 →
      e.DefinedAt v ∧ e.value v = n.value v / d.value v)
  case vanishing =>
    intro fs hc h
    obtain ⟨-, hv⟩ := Parts.ofFactors_keeps h
    exact ⟨definedAt_zero v, by rw [← hv, Parts.value, hc]; simp⟩
  case plain =>
    intro fs hc hd h
    obtain ⟨hp, hv⟩ := Parts.ofFactors_keeps h
    obtain ⟨ha, hva⟩ := assemble_keeps (Parts.ofFactors fs).coefficient hp.plain
    refine ⟨ha, ?_⟩
    rw [hva, ← hv, Parts.value, hd, Parts.numerators_eq_nil hd]
    simp
  case joined =>
    rintro fs _ top bottom e hc hd rfl - - iht ihb ihe h
    obtain ⟨hp, hv⟩ := Parts.ofFactors_keeps h
    obtain ⟨ht, hvt⟩ := iht (by simpa [or_imp, forall_and] using ⟨hp.plain, hp.numerators⟩)
    obtain ⟨hb, hvb⟩ := ihb fun d hd => (hp.denominators d hd).1
    have hb0 : bottom.value v ≠ 0 := by
      rw [hvb]
      refine List.prod_ne_zero fun h0 => ?_
      obtain ⟨d, hd, hd0⟩ := List.mem_map.1 h0
      exact (hp.denominators d hd).2 hd0
    obtain ⟨he, hve⟩ := ihe ht hb hb0
    refine ⟨he, ?_⟩
    rw [hve, hvt, hvb, ← hv, Parts.value]
    simp [mul_assoc]
  case raw => exact fun n d hz hn hd hd0 => absurd (value_eq_zero_of_isZero hz) hd0
  case zero =>
    exact fun n d _ hz _ _ _ => ⟨definedAt_zero v, by simp [value_eq_zero_of_isZero hz]⟩
  case overFraction =>
    intro t b d m e _ _ _ ihm ihe hn hd hd0
    obtain ⟨ht, hb, hb0⟩ := (definedAt_fraction v t b).1 hn
    obtain ⟨hm, hvm⟩ := ihm (by simp [hb, hd])
    obtain ⟨he, hve⟩ := ihe ht hm (by simp [hvm, hb0, hd0])
    refine ⟨he, ?_⟩
    rw [hve, hvm, value_fraction]
    simp [div_div]
  case underFraction =>
    intro n t b m e _ _ _ _ ihm ihe hn hd hd0
    obtain ⟨ht, hb, hb0⟩ := (definedAt_fraction v t b).1 hd
    obtain ⟨hm, hvm⟩ := ihm (by simp [hn, hb])
    obtain ⟨he, hve⟩ := ihe hm ht fun h => hd0 (by simp [h])
    refine ⟨he, ?_⟩
    rw [hve, hvm, value_fraction]
    simp [div_div_eq_mul_div]
  case overConstant =>
    intro n c e _ _ _ ihe hn _ _
    obtain ⟨he, hve⟩ := ihe (by simp [hn])
    refine ⟨he, ?_⟩
    rw [hve, value_number]
    simp [div_eq_inv_mul]
  case cancelled =>
    intro n d _ _ _ _ _ hs hn hd hd0
    exact ⟨definedAt_rational v _, by rw [value_rational, div_eq_of_same_rest hs hd0]⟩
  case general =>
    intro n d e _ _ _ _ _ _ _ ihe hn hd hd0
    obtain ⟨he, hve⟩ := ihe (by simp [definedAt_rest hn])
    have hd1 := hd0
    rw [← split_mul_rest d] at hd1
    refine ⟨(definedAt_fraction v _ _).2 ⟨he, definedAt_rest hd, right_ne_zero_of_mul hd1⟩, ?_⟩
    rw [value_fraction, hve, ← split_mul_rest n, ← split_mul_rest d]
    simp only [List.map_cons, List.map_nil, List.prod_cons, List.prod_nil, value_rational,
      Rat.cast_div, mul_one]
    field_simp

/-- The value of a product is the product of the values. -/
theorem multiply_keeps {fs : List Expr} (h : ∀ f ∈ fs, f.DefinedAt v) :
    (multiply fs).DefinedAt v ∧ (multiply fs).value v = (fs.map (value v)).prod :=
  multiply_divide_keeps.1 fs h

/-- The value of a quotient is the quotient of the values, where the denominator does not vanish. -/
theorem divide_keeps {n d : Expr} (hn : n.DefinedAt v) (hd : d.DefinedAt v) (h0 : d.value v ≠ 0) :
    (divide n d).DefinedAt v ∧ (divide n d).value v = n.value v / d.value v :=
  multiply_divide_keeps.2 n d hn hd h0

/-! ## Like terms -/

section
variable {κ : Type*} {cmp : κ → κ → Ordering} {ts : List (κ × Rat)} {t : κ × Rat}

/-- Adding a term adds no key but its own. -/
theorem Adds.key_mem {us vs : List (κ × Rat)} (h : Adds cmp t us vs) {u : κ × Rat} (hu : u ∈ vs) :
    ∃ w ∈ t :: us, w.1 = u.1 := by
  induction h with
  | new us => exact ⟨u, hu, rfl⟩
  | like us equal key =>
    rcases List.mem_cons.1 hu with rfl | hu
    · rcases key with rfl | rfl <;> simp
    · exact ⟨u, by simp [hu], rfl⟩
  | further v rest ih =>
    rcases List.mem_cons.1 hu with rfl | hu
    · exact ⟨u, by simp, rfl⟩
    · obtain ⟨w, hw, hwu⟩ := ih hu
      refine ⟨w, ?_, hwu⟩
      rcases List.mem_cons.1 hw with rfl | hw <;> simp [*]

/-- Adding terms adds no keys but theirs. -/
theorem Gathers.key_mem {us : List (κ × Rat)} (h : Gathers cmp ts us) {u : κ × Rat} (hu : u ∈ us) :
    ∃ w ∈ ts, w.1 = u.1 := by
  induction h generalizing u with
  | nil => cases hu
  | cons before adds ih =>
    obtain ⟨w, hw, hwu⟩ := adds.key_mem hu
    rcases List.mem_cons.1 hw with rfl | hw
    · exact ⟨w, by simp, hwu⟩
    · obtain ⟨x, hx, hxw⟩ := ih hw
      exact ⟨x, by simp [hx], hxw.trans hwu⟩

/-- Collecting like terms invents no keys. -/
theorem mem_collect (h : t ∈ collect cmp ts) : ∃ u ∈ ts, u.1 = t.1 := by
  obtain ⟨us, perm, gathers⟩ := exists_gathers cmp ts
  obtain ⟨u, hu, hut⟩ := gathers.key_mem (List.mem_filter.1 h).1
  exact ⟨u, perm.mem_iff.1 hu, hut⟩

/-- Terms that cancel are left out. -/
theorem ne_zero_of_mem_collect (h : t ∈ collect cmp ts) : t.2 ≠ 0 := by
  simpa using (List.mem_filter.1 h).2

variable {w : κ → F}

/-- Adding a term adds its value, for keys that have the same value whenever they compare equal. -/
theorem Adds.sum_eq (hw : ∀ k l, cmp k l = .eq → w k = w l) {us vs : List (κ × Rat)}
    (h : Adds cmp t us vs) :
    (vs.map fun t => (t.2 : F) * w t.1).sum =
      (t.2 : F) * w t.1 + (us.map fun t => (t.2 : F) * w t.1).sum := by
  induction h with
  | new us => simp
  | @like u us k equal key =>
    have hk : w k = w u.1 := by
      rcases key with rfl | rfl
      · exact hw _ _ equal
      · rfl
    simp only [List.map_cons, List.sum_cons, Rat.cast_add, hk, hw _ _ equal]
    ring
  | further u rest ih =>
    simp only [List.map_cons, List.sum_cons, ih]
    ring

/-- Collecting like terms keeps the sum of the terms, for keys that have the same value whenever
they compare equal. -/
theorem sum_collect (hw : ∀ k l, cmp k l = .eq → w k = w l) (ts : List (κ × Rat)) :
    ((collect cmp ts).map fun t => (t.2 : F) * w t.1).sum =
      (ts.map fun t => (t.2 : F) * w t.1).sum := by
  have filtered : ∀ us : List (κ × Rat),
      ((us.filter fun t => t.2 != 0).map fun t => (t.2 : F) * w t.1).sum =
        (us.map fun t => (t.2 : F) * w t.1).sum := by
    intro us
    induction us with
    | nil => rfl
    | cons u us ih => by_cases h : u.2 = 0 <;> simp [h, ih]
  have added : ∀ {us vs : List (κ × Rat)}, Gathers cmp us vs →
      (vs.map fun t => (t.2 : F) * w t.1).sum = (us.map fun t => (t.2 : F) * w t.1).sum := by
    intro us vs h
    induction h with
    | nil => rfl
    | cons before adds ih => rw [adds.sum_eq hw, ih, List.map_cons, List.sum_cons]
  obtain ⟨us, perm, gathers⟩ := exists_gathers cmp ts
  rw [collect, filtered, added gathers]
  exact (perm.map _).sum_eq

end

/-! ## Sums -/

/-- The value of what a coefficient multiplies. -/
def restValue (v : Atom → Option F) (r : Option Expr) : F :=
  (r.getD one).value v

omit [CharZero F] in
/-- Keys that compare equal have the same value. -/
theorem restValue_eq_of_same {r s : Option Expr} (h : cmpOption r s = .eq) :
    restValue v r = restValue v s := by
  cases r <;> cases s <;> simp [cmpOption] at h
  · rfl
  · exact value_eq_of_same (by simp [same, h])

/-- `scale` yields the product of the coefficient and the rest. -/
theorem scale_keeps (c : Rat) {r : Option Expr} (h : ∀ e ∈ r, e.DefinedAt v) :
    (scale c r).DefinedAt v ∧ (scale c r).value v = c * restValue v r := by
  rw [scale.eq_def, restValue.eq_def]
  split
  next => simp
  next e =>
    have he : e.DefinedAt v := h e rfl
    rw [Option.getD_some]
    split
    next hc => exact ⟨he, by simp [beq_iff_eq.1 hc]⟩
    next =>
      split
      next n d =>
        obtain ⟨hn, hd, hd0⟩ := (definedAt_fraction v n d).1 he
        have members : ∀ f ∈ [rational c, n], f.DefinedAt v := by simp [hn]
        obtain ⟨hm, hvm⟩ := multiply_keeps members
        obtain ⟨hq, hvq⟩ := divide_keeps hm hd hd0
        refine ⟨hq, ?_⟩
        rw [hvq, hvm]
        simp [mul_div_assoc]
      next =>
        have members : ∀ f ∈ [rational c, e], f.DefinedAt v := by simp [he]
        obtain ⟨hm, hvm⟩ := multiply_keeps members
        exact ⟨hm, by simpa using hvm⟩

omit [CharZero F] in
/-- The value of an expression is the sum of the values of its terms. -/
theorem terms_keeps {e : Expr} (h : e.DefinedAt v) :
    (∀ t ∈ e.terms, t.DefinedAt v) ∧ (e.terms.map (value v)).sum = e.value v := by
  rw [terms.eq_def]
  split
  · exact ⟨(definedAt_sum v _).1 h, (value_sum v _).symm⟩
  · split
    next hz => exact ⟨by simp, by simp [value_eq_zero_of_isZero hz]⟩
    next => exact ⟨by simpa using h, by simp⟩

omit [CharZero F] in
/-- Flattening a sum keeps it. -/
theorem termsOf_keeps {es : List Expr} (h : ∀ e ∈ es, e.DefinedAt v) :
    (∀ t ∈ termsOf es, t.DefinedAt v) ∧
      ((termsOf es).map (value v)).sum = (es.map (value v)).sum := by
  induction es with
  | nil => exact ⟨by simp [termsOf], rfl⟩
  | cons e es ih =>
    obtain ⟨he, hve⟩ := terms_keeps (h e (by simp))
    obtain ⟨hes, hves⟩ := ih fun f hf => h f (by simp [hf])
    rw [termsOf] at hes hves ⊢
    rw [List.flatMap_cons]
    refine ⟨fun t ht => (List.mem_append.1 ht).elim (he t) (hes t), ?_⟩
    rw [List.map_append, List.sum_append, hve, hves, List.map_cons, List.sum_cons]

/-- The pairs of a rest and a coefficient that like terms are collected in. -/
def restPairs (ts : List Expr) : List (Option Expr × Rat) :=
  ts.map fun t => (t.split.2, t.split.1)

/-- Like terms are collected under the rest of one of them. -/
theorem exists_split_of_mem_collect {ts : List Expr} {u : Option Expr × Rat}
    (h : u ∈ collect cmpOption (restPairs ts)) : ∃ t ∈ ts, t.split.2 = u.1 := by
  obtain ⟨w, hw, hwu⟩ := mem_collect h
  obtain ⟨t, ht, rfl⟩ := List.mem_map.1 hw
  exact ⟨t, ht, hwu⟩

/-- Merging like terms keeps their sum. -/
theorem merged_keeps {ts : List Expr} (h : ∀ t ∈ ts, t.DefinedAt v) :
    (∀ t ∈ merged ts, t.DefinedAt v) ∧
      ((merged ts).map (value v)).sum = (ts.map (value v)).sum := by
  have keys : ∀ u ∈ collect cmpOption (restPairs ts), ∀ e ∈ u.1, e.DefinedAt v := by
    intro u hu
    obtain ⟨t, ht, hu⟩ := exists_split_of_mem_collect hu
    exact hu ▸ definedAt_split (h t ht)
  constructor
  · intro t ht
    obtain ⟨u, hu, rfl⟩ := List.mem_map.1 ht
    exact (scale_keeps u.2 (keys u hu)).1
  · have scaled : (merged ts).map (value v) =
        (collect cmpOption (restPairs ts)).map fun u => (u.2 : F) * restValue v u.1 := by
      rw [merged, List.map_map]
      exact List.map_congr_left fun u hu => (scale_keeps u.2 (keys u hu)).2
    rw [scaled, sum_collect (w := restValue v) (fun _ _ => restValue_eq_of_same), restPairs,
      List.map_map]
    exact congrArg List.sum (List.map_congr_left fun t _ => split_mul_rest t)

/-- `addUp` yields the sum. -/
theorem addUp_keeps {ts : List Expr} (h : ∀ t ∈ ts, t.DefinedAt v) :
    (addUp ts).DefinedAt v ∧ (addUp ts).value v = (ts.map (value v)).sum := by
  have like : ∀ us : List Expr, (∀ t ∈ us, t.DefinedAt v) →
      (∀ t ∈ merged (termsOf us), t.DefinedAt v) ∧
        ((merged (termsOf us)).map (value v)).sum = (us.map (value v)).sum := by
    intro us hus
    obtain ⟨ht, hvt⟩ := termsOf_keeps hus
    obtain ⟨hm, hvm⟩ := merged_keeps ht
    exact ⟨hm, hvm.trans hvt⟩
  revert h
  refine addUp_induction (P := fun ts e => (∀ t ∈ ts, t.DefinedAt v) →
    e.DefinedAt v ∧ e.value v = (ts.map (value v)).sum) ?_ ?_ ?_ ?_ ts
  · intro us e _ ih hus
    obtain ⟨hm, hvm⟩ := like us hus
    obtain ⟨he, hve⟩ := ih hm
    exact ⟨he, hve.trans hvm⟩
  · intro us hu hus
    exact ⟨definedAt_zero v, by rw [← (like us hus).2, hu]; simp⟩
  · intro us t _ hu hus
    obtain ⟨hm, hvm⟩ := like us hus
    exact ⟨hm t (by simp [hu]), by rw [← hvm, hu]; simp⟩
  · intro us _ _ hus
    obtain ⟨hm, hvm⟩ := like us hus
    exact ⟨(definedAt_sum v _).2 hm, by rw [value_sum, hvm]⟩

/-- Simplification keeps the value of an expression that has one. -/
theorem simplify_keeps (e : Expr) : Keeps v e e.simplify := by
  induction e using ind with
  | number n => rw [simplify]; exact .refl _
  | atom a => rw [simplify]; exact .refl _
  | product fs ih =>
    intro h
    rw [definedAt_product] at h
    have members : ∀ f ∈ fs.map simplify, f.DefinedAt v := by
      intro f hf
      obtain ⟨g, hg, rfl⟩ := List.mem_map.1 hf
      exact (ih g hg (h g hg)).1
    obtain ⟨hm, hvm⟩ := multiply_keeps members
    rw [simplify]
    refine ⟨hm, ?_⟩
    rw [hvm, value_product, List.map_map]
    exact congrArg List.prod (List.map_congr_left fun f hf => (ih f hf (h f hf)).2)
  | sum ts ih =>
    intro h
    rw [definedAt_sum] at h
    have members : ∀ t ∈ ts.map simplify, t.DefinedAt v := by
      intro t ht
      obtain ⟨u, hu, rfl⟩ := List.mem_map.1 ht
      exact (ih u hu (h u hu)).1
    obtain ⟨ha, hva⟩ := addUp_keeps members
    rw [simplify]
    refine ⟨ha, ?_⟩
    rw [hva, value_sum, List.map_map]
    exact congrArg List.sum (List.map_congr_left fun t ht => (ih t ht (h t ht)).2)
  | fraction n d ihn ihd =>
    intro h
    obtain ⟨hn, hd, hd0⟩ := (definedAt_fraction v n d).1 h
    obtain ⟨hn', hvn⟩ := ihn hn
    obtain ⟨hd', hvd⟩ := ihd hd
    obtain ⟨hq, hvq⟩ := divide_keeps hn' hd' (by rwa [hvd])
    rw [simplify]
    exact ⟨hq, by rw [hvq, hvn, hvd, value_fraction]⟩

end

/-- Simplification keeps values, whatever shape an expression has and however many atoms are given a
value: where the expression evaluates to a number, the simplified one evaluates to that number. -/
theorem eval_simplify {v : Atom → Option Rat} {e : Expr} {q : Rat} (h : e.eval v = some q) :
    e.simplify.eval v = some q := by
  obtain ⟨defined, rfl⟩ := eval_eq_some_iff.1 h
  exact eval_eq_some_iff.2 (simplify_keeps e defined)

/-- An empty product, a sum of one term, a product with zero and a fraction of fractions. -/
def unnormalized : Expr :=
  let x := scalar "x"
  let y := scalar "y"
  .sum [.product [], .sum [x], .product [zero, y], .fraction (.fraction x y) (.fraction y x)]

/-- Two for `x`, four for `y` and no value for other atoms. -/
def twoAndFour (a : Atom) : Option Rat :=
  if a = .scalar "x" then some 2 else if a = .scalar "y" then some 4 else none

/-- Before and after it is `1 + 2 + 0 + 1 / 4`. -/
theorem eval_simplify_unnormalized :
    unnormalized.eval twoAndFour = some (13 / 4) ∧
      unnormalized.simplify.eval twoAndFour = some (13 / 4) := by
  have h : unnormalized.eval twoAndFour = some (13 / 4) := by cbv
  exact ⟨h, eval_simplify h⟩

end AreaMethod.Expr
