import AreaMethod.Expr.LikeTerms

/-!
# Normal products and quotients

`multiply` and `divide` build products and fractions in normal form out of expressions in normal
form: nested products are flattened, constants are multiplied into one leading coefficient,
fractions among the factors are joined into a single fraction, a constant denominator becomes a
coefficient, and equal numerators and denominators cancel. A denominator that is zero at sight is
left standing in a plain fraction.

The two call each other. Every round removes a fraction node from what is still to be joined, and
neither result has more sum and fraction nodes (`weight`) than went in, one fraction node for a
quotient apart. The definitions carry that bound with them, as `multiplyWithin` and `divideWithin`.
-/

namespace AreaMethod.Expr

/-- The number of sum and fraction nodes. -/
def weight : Expr → Nat
  | number _ => 0
  | atom _ => 0
  | product fs => total (fs.map weight)
  | sum ts => total (ts.map weight) + 1
  | fraction n d => n.weight + d.weight + 1

/-- The number of sum and fraction nodes in a list of expressions. -/
def weights (es : List Expr) : Nat :=
  total (es.map weight)

@[simp] theorem weight_number (n : Numeral) : (number n).weight = 0 := by
  rw [weight]

@[simp] theorem weight_rational (q : Rat) : (rational q).weight = 0 :=
  weight_number _

@[simp] theorem weight_product (fs : List Expr) : (product fs).weight = weights fs := by
  rw [weight, weights]

@[simp] theorem weight_sum (ts : List Expr) : (sum ts).weight = weights ts + 1 := by
  rw [weight, weights]

@[simp] theorem weight_fraction (n d : Expr) :
    (fraction n d).weight = n.weight + d.weight + 1 := by
  rw [weight]

@[simp] theorem weights_nil : weights [] = 0 := rfl

@[simp] theorem weights_cons (e : Expr) (es : List Expr) :
    weights (e :: es) = e.weight + weights es := rfl

@[simp] theorem weights_append (es fs : List Expr) :
    weights (es ++ fs) = weights es + weights fs := by
  simp [weights, total_append]

theorem weights_perm {es fs : List Expr} (h : es.Perm fs) : weights es = weights fs :=
  total_perm (h.map _)

@[simp] theorem weights_sort (es : List Expr) : weights (sort es) = weights es :=
  weights_perm (sort_perm es)

/-- The factors of an expression, those of nested products among them. -/
def factors : Expr → List Expr
  | product fs => fs.flatMap factors
  | e => [e]

@[simp] theorem weights_factors (e : Expr) : weights e.factors = e.weight := by
  induction e using factors.induct with
  | case1 fs ih =>
    rw [factors, weight_product]
    induction fs with
    | nil => simp
    | cons f fs ihs =>
      simp only [List.flatMap_cons, weights_append, weights_cons]
      rw [ih f (by simp), ihs fun g hg => ih g (by simp [hg])]
  | case2 e h => simp [factors]

/-- The factors of a product by kind: the constants multiplied together, the numerators and the
denominators of the fractions, and all the others. -/
structure Parts where
  coefficient : Rat
  plain : List Expr
  numerators : List Expr
  denominators : List Expr

namespace Parts

/-- The parts of a product without factors. -/
def empty : Parts := ⟨1, [], [], []⟩

/-- Takes one more factor in. -/
def add (f : Expr) (p : Parts) : Parts :=
  match f with
  | number n => { p with coefficient := n.value * p.coefficient }
  | fraction n d => { p with numerators := n :: p.numerators, denominators := d :: p.denominators }
  | f => { p with plain := f :: p.plain }

/-- Sorts the factors of a product by kind, from the last to the first. -/
def ofFactors (fs : List Expr) : Parts :=
  (fs.flatMap factors).reverse.foldr add empty

/-- Taking a product apart loses the fraction nodes among its factors and nothing else. -/
theorem weights_ofFactors (fs : List Expr) :
    weights (ofFactors fs).plain + weights (ofFactors fs).numerators +
      weights (ofFactors fs).denominators + (ofFactors fs).denominators.length = weights fs := by
  have key : ∀ es : List Expr,
      weights (es.foldr add empty).plain + weights (es.foldr add empty).numerators +
        weights (es.foldr add empty).denominators + (es.foldr add empty).denominators.length =
      weights es := by
    intro es
    induction es with
    | nil => rfl
    | cons e es ih =>
      rw [List.foldr_cons, weights_cons]
      cases e <;> simp [add] <;> omega
  rw [ofFactors, key, weights_perm (List.reverse_perm _)]
  induction fs with
  | nil => rfl
  | cons f fs ih => simp [ih]

end Parts

/-- The product of factors none of which is a constant or a product, if there are any. -/
def bundle? : List Expr → Option Expr
  | [] => none
  | [f] => some f
  | fs => some (product fs)

/-- A coefficient in front of factors, in ascending order; a coefficient of one is not written. -/
def assemble (c : Rat) (fs : List Expr) : Expr :=
  if c == 1 || fs.isEmpty then (bundle? (sort fs)).getD (rational c)
  else product (rational c :: sort fs)

/-- Splits a term into its rational coefficient and what the coefficient multiplies, if anything. -/
def split : Expr → Rat × Option Expr
  | number n => (n.value, none)
  | product (number n :: fs) => (n.value, bundle? fs)
  | fraction n d => (n.split.1, some (fraction (n.split.2.getD one) d))
  | e => (1, some e)

/-- What a term's coefficient multiplies, one if there is nothing. -/
def rest (e : Expr) : Expr :=
  e.split.2.getD one

theorem weight_bundle?_le (fs : List Expr) (q : Rat) :
    ((bundle? fs).getD (rational q)).weight ≤ weights fs := by
  match fs with
  | [] => simp [bundle?]
  | [f] => simp [bundle?]
  | _ :: _ :: _ => simp [bundle?]

theorem weight_assemble_le (c : Rat) (fs : List Expr) : (assemble c fs).weight ≤ weights fs := by
  rw [assemble, ← weights_sort fs]
  split
  · exact weight_bundle?_le (sort fs) c
  · simp

theorem weight_rest_le (e : Expr) : e.rest.weight ≤ e.weight := by
  fun_induction split e with
  | case1 q => simp [rest, split, one]
  | case2 q fs => simpa [rest, split, one] using weight_bundle?_le fs 1
  | case3 n d ih => simpa [rest, split] using ih
  | case4 e h₁ h₂ h₃ => simp [rest, split]

/-! The bounds that the two definitions carry along, one for each way they go on. -/

namespace Parts

variable {fs : List Expr} {top bottom e : Expr}

theorem zero_le (fs : List Expr) : zero.weight ≤ weights fs := by
  simp [zero]

theorem assemble_le (c : Rat) (fs : List Expr) :
    (assemble c (ofFactors fs).plain).weight ≤ weights fs := by
  have := weights_ofFactors fs
  have := weight_assemble_le c (ofFactors fs).plain
  omega

/-- The parts of a product with denominators weigh less than the product. -/
theorem weights_lt (c : Rat) (h : ¬(ofFactors fs).denominators.isEmpty) :
    weights (rational c :: ((ofFactors fs).plain ++ (ofFactors fs).numerators)) +
      weights (ofFactors fs).denominators < weights fs := by
  have := weights_ofFactors fs
  have := List.length_pos_iff.2 (mt List.isEmpty_iff.2 h)
  simp only [weights_cons, weight_rational, weights_append]
  omega

theorem quotient_le {c : Rat} (h : ¬(ofFactors fs).denominators.isEmpty)
    (ht : top.weight ≤ weights (rational c :: ((ofFactors fs).plain ++ (ofFactors fs).numerators)))
    (hb : bottom.weight ≤ weights (ofFactors fs).denominators)
    (he : e.weight ≤ top.weight + bottom.weight + 1) : e.weight ≤ weights fs := by
  have := weights_lt c h
  omega

theorem top_lt (c : Rat) (h : ¬(ofFactors fs).denominators.isEmpty) :
    Prod.Lex (· < ·) (· < ·)
      (weights (rational c :: ((ofFactors fs).plain ++ (ofFactors fs).numerators)), 0)
      (weights fs, 0) :=
  Prod.Lex.left _ _ (Nat.lt_of_le_of_lt (Nat.le_add_right _ _) (weights_lt c h))

theorem bottom_lt (h : ¬(ofFactors fs).denominators.isEmpty) :
    Prod.Lex (· < ·) (· < ·) (weights (ofFactors fs).denominators, 0) (weights fs, 0) :=
  Prod.Lex.left _ _ (Nat.lt_of_le_of_lt (Nat.le_add_left _ _) (weights_lt 0 h))

theorem quotient_lt {c : Rat} (h : ¬(ofFactors fs).denominators.isEmpty)
    (ht : top.weight ≤ weights (rational c :: ((ofFactors fs).plain ++ (ofFactors fs).numerators)))
    (hb : bottom.weight ≤ weights (ofFactors fs).denominators) :
    Prod.Lex (· < ·) (· < ·) (top.weight + bottom.weight, 1) (weights fs, 0) :=
  Prod.Lex.left _ _ (Nat.lt_of_le_of_lt (Nat.add_le_add ht hb) (weights_lt c h))

end Parts

namespace Quotient

variable {n d t b e : Expr}

theorem plain_le (n d : Expr) : (fraction n d).weight ≤ n.weight + d.weight + 1 := by
  simp

theorem zero_le (n d : Expr) : zero.weight ≤ n.weight + d.weight + 1 := by
  simp [zero]

theorem number_le (q : Rat) (n d : Expr) : (rational q).weight ≤ n.weight + d.weight + 1 := by
  simp

theorem bottom_lt (t b d : Expr) :
    Prod.Lex (· < ·) (· < ·) (weights [b, d], 0) ((fraction t b).weight + d.weight, 1) := by
  apply Prod.Lex.left
  rw [weights_cons, weights_cons, weights_nil, weight_fraction]
  omega

theorem over_bottom_lt (t : Expr) (h : e.weight ≤ weights [b, d]) :
    Prod.Lex (· < ·) (· < ·) (t.weight + e.weight, 1) ((fraction t b).weight + d.weight, 1) := by
  rw [weights_cons, weights_cons, weights_nil] at h
  apply Prod.Lex.left
  rw [weight_fraction]
  omega

theorem over_bottom_le {f : Expr} (h : e.weight ≤ weights [b, d])
    (hf : f.weight ≤ t.weight + e.weight + 1) :
    f.weight ≤ (fraction t b).weight + d.weight + 1 := by
  rw [weights_cons, weights_cons, weights_nil] at h
  rw [weight_fraction]
  omega

theorem top_lt (n t b : Expr) :
    Prod.Lex (· < ·) (· < ·) (weights [n, b], 0) (n.weight + (fraction t b).weight, 1) := by
  apply Prod.Lex.left
  rw [weights_cons, weights_cons, weights_nil, weight_fraction]
  omega

theorem top_over_lt (t : Expr) (h : e.weight ≤ weights [n, b]) :
    Prod.Lex (· < ·) (· < ·) (e.weight + t.weight, 1) (n.weight + (fraction t b).weight, 1) := by
  rw [weights_cons, weights_cons, weights_nil] at h
  apply Prod.Lex.left
  rw [weight_fraction]
  omega

theorem top_over_le {f : Expr} (h : e.weight ≤ weights [n, b])
    (hf : f.weight ≤ e.weight + t.weight + 1) :
    f.weight ≤ n.weight + (fraction t b).weight + 1 := by
  rw [weights_cons, weights_cons, weights_nil] at h
  rw [weight_fraction]
  omega

theorem scaled_lt (c : Rat) (d : Expr) (h : e.weight ≤ n.weight) :
    Prod.Lex (· < ·) (· < ·) (weights [rational c, e], 0) (n.weight + d.weight, 1) := by
  have : weights [rational c, e] ≤ n.weight + d.weight := by
    rw [weights_cons, weights_cons, weights_nil, weight_rational]
    omega
  rcases Nat.lt_or_eq_of_le this with hlt | heq
  · exact Prod.Lex.left _ _ hlt
  · rw [heq]
    exact Prod.Lex.right _ Nat.zero_lt_one

theorem scaled_le {c : Rat} (d : Expr) (h : e.weight ≤ weights [rational c, n]) :
    e.weight ≤ n.weight + d.weight + 1 := by
  rw [weights_cons, weights_cons, weights_nil, weight_rational] at h
  omega

theorem rest_le {c : Rat} (n d : Expr) (h : e.weight ≤ weights [rational c, n.rest]) :
    (fraction e d.rest).weight ≤ n.weight + d.weight + 1 := by
  rw [weights_cons, weights_cons, weights_nil, weight_rational] at h
  have := weight_rest_le n
  have := weight_rest_le d
  rw [weight_fraction]
  omega

end Quotient

mutual

/-- `multiply`, with the bound on its result. -/
def multiplyWithin (fs : List Expr) : { e : Expr // e.weight ≤ weights fs } :=
  let p := Parts.ofFactors fs
  if p.coefficient == 0 then ⟨zero, Parts.zero_le fs⟩
  else if h : p.denominators.isEmpty then
    ⟨assemble p.coefficient p.plain, Parts.assemble_le p.coefficient fs⟩
  else
    match multiplyWithin (rational p.coefficient :: (p.plain ++ p.numerators)),
      multiplyWithin p.denominators with
    | ⟨top, ht⟩, ⟨bottom, hb⟩ =>
      match divideWithin top bottom with
      | ⟨e, he⟩ => ⟨e, Parts.quotient_le h ht hb he⟩
termination_by (weights fs, 0)
decreasing_by
  · exact Parts.top_lt p.coefficient h
  · exact Parts.bottom_lt h
  · exact Parts.quotient_lt h ht hb

/-- `divide`, with the bound on its result. -/
def divideWithin (n d : Expr) : { e : Expr // e.weight ≤ n.weight + d.weight + 1 } :=
  if d.isZero then ⟨fraction n d, Quotient.plain_le n d⟩
  else if n.isZero then ⟨zero, Quotient.zero_le n d⟩
  else match n, d with
    | fraction t b, d =>
      match multiplyWithin [b, d] with
      | ⟨bottom, hb⟩ =>
        match divideWithin t bottom with
        | ⟨e, he⟩ => ⟨e, Quotient.over_bottom_le hb he⟩
    | n, fraction t b =>
      match multiplyWithin [n, b] with
      | ⟨top, ht⟩ =>
        match divideWithin top t with
        | ⟨e, he⟩ => ⟨e, Quotient.top_over_le ht he⟩
    | n, number v =>
      match multiplyWithin [rational (1 / v.value), n] with
      | ⟨e, he⟩ => ⟨e, Quotient.scaled_le (number v) he⟩
    | n, d =>
      if sameOption n.split.2 (some d.rest) then
        ⟨rational (n.split.1 / d.split.1), Quotient.number_le _ n d⟩
      else
        match multiplyWithin [rational (n.split.1 / d.split.1), n.rest] with
        | ⟨top, ht⟩ => ⟨fraction top d.rest, Quotient.rest_le n d ht⟩
termination_by (n.weight + d.weight, 1)
decreasing_by
  · exact Quotient.bottom_lt t b d
  · exact Quotient.over_bottom_lt t hb
  · exact Quotient.top_lt n t b
  · exact Quotient.top_over_lt t ht
  · exact Quotient.scaled_lt _ (number v) (Nat.le_refl n.weight)
  · exact Quotient.scaled_lt _ d (weight_rest_le n)

end

/-- The product of expressions, in normal form. -/
def multiply (fs : List Expr) : Expr :=
  (multiplyWithin fs).1

/-- The quotient of two expressions, in normal form. -/
def divide (n d : Expr) : Expr :=
  (divideWithin n d).1

/-- How a product is built. -/
theorem multiply_eq (fs : List Expr) :
    multiply fs =
      let p := Parts.ofFactors fs
      if p.coefficient == 0 then zero
      else if p.denominators.isEmpty then assemble p.coefficient p.plain
      else divide (multiply (rational p.coefficient :: (p.plain ++ p.numerators)))
        (multiply p.denominators) := by
  rw [multiply, multiplyWithin.eq_def]
  dsimp only
  split
  · rfl
  · split <;> simp [multiply, divide]

/-- How a quotient is built. -/
theorem divide_eq (n d : Expr) :
    divide n d =
      if d.isZero then fraction n d
      else if n.isZero then zero
      else match n, d with
        | fraction t b, d => divide t (multiply [b, d])
        | n, fraction t b => divide (multiply [n, b]) t
        | n, number v => multiply [rational (1 / v.value), n]
        | n, d =>
          if sameOption n.split.2 (some d.rest) then rational (n.split.1 / d.split.1)
          else fraction (multiply [rational (n.split.1 / d.split.1), n.rest]) d.rest := by
  rw [divide, divideWithin.eq_def]
  split
  · rfl
  · split
    · rfl
    · split
      · simp [multiply, divide]
      · simp [multiply, divide]
      · simp [multiply]
      · split <;> simp [multiply]

theorem weight_multiply_le (fs : List Expr) : (multiply fs).weight ≤ weights fs :=
  (multiplyWithin fs).2

theorem weight_divide_le (n d : Expr) : (divide n d).weight ≤ n.weight + d.weight + 1 :=
  (divideWithin n d).2

end AreaMethod.Expr
