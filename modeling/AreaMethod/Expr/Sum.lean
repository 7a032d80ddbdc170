import AreaMethod.Expr.Product

/-!
# Normal sums and simplification

`addUp` builds a sum in normal form out of terms in normal form: sums among the terms are
flattened, zero terms dropped and like terms merged. Merging can leave a sum with the coefficient
one, which is a sum among the terms again; the terms are then added up once more. Each such round
flattens a sum node and adds none, so the rounds come to an end.

`simplify` rebuilds a whole tree from the leaves with `addUp`, `multiply` and `divide`.
-/

namespace AreaMethod.Expr

/-- The product of a coefficient and the rest of a term, in normal form. -/
def scale (c : Rat) : Option Expr → Expr
  | none => rational c
  | some e =>
    if c == 1 then e
    else match e with
      | fraction n d => divide (multiply [rational c, n]) d
      | e => multiply [rational c, e]

/-- The terms that an expression brings to a sum: those of a sum, and none if it is zero. -/
def terms : Expr → List Expr
  | sum ts => ts
  | e => if e.isZero then [] else [e]

/-- The terms that a list of expressions brings to a sum. -/
def termsOf (es : List Expr) : List Expr :=
  es.flatMap terms

/-- The like terms of a list, merged. -/
def merged (ts : List Expr) : List Expr :=
  (collect cmpOption (ts.map fun t => (t.split.2, t.split.1))).map fun u => scale u.2 u.1

/-- Is the expression a sum? -/
def isSum : Expr → Bool
  | sum _ => true
  | _ => false

/-- The weight of what a coefficient multiplies. -/
def restWeight : Option Expr → Nat
  | none => 0
  | some e => e.weight

theorem weight_scale_le (c : Rat) (rest : Option Expr) :
    (scale c rest).weight ≤ restWeight rest := by
  rw [scale.eq_def, restWeight.eq_def]
  split
  · simp
  · split
    · exact Nat.le_refl _
    · split
      next n d =>
        have h := weight_multiply_le [rational c, n]
        have := weight_divide_le (multiply [rational c, n]) d
        simp at h ⊢
        omega
      next e _ _ _ =>
        simpa using weight_multiply_le [rational c, e]

theorem restWeight_split_le (e : Expr) : restWeight e.split.2 ≤ e.weight := by
  have h := weight_rest_le e
  rw [rest] at h
  cases hs : e.split.2 with
  | none => simp [restWeight]
  | some r => simpa [restWeight, hs] using h

theorem total_restWeight_split_le (ts : List Expr) :
    total ((ts.map fun t => (t.split.2, t.split.1)).map fun u => restWeight u.1) ≤ weights ts := by
  induction ts with
  | nil => simp
  | cons t ts ih =>
    have := restWeight_split_le t
    simp only [List.map_cons, weights_cons, total_cons]
    omega

theorem weights_merged_le (ts : List Expr) : weights (merged ts) ≤ weights ts := by
  have scaled : ∀ us : List (Option Expr × Rat),
      weights (us.map fun u => scale u.2 u.1) ≤
        total (us.map fun u => restWeight u.1) := by
    intro us
    induction us with
    | nil => simp
    | cons u us ih =>
      have := weight_scale_le u.2 u.1
      simp only [List.map_cons, weights_cons, total_cons]
      omega
  exact Nat.le_trans (scaled _)
    (Nat.le_trans (total_collect_le restWeight _ _) (total_restWeight_split_le ts))

theorem weights_terms_le (e : Expr) : weights e.terms ≤ e.weight := by
  rw [terms.eq_def]
  split
  · simp
  · split <;> simp

theorem weights_termsOf_le (ts : List Expr) : weights (termsOf ts) ≤ weights ts := by
  induction ts with
  | nil => simp [termsOf]
  | cons t ts ih =>
    have := weights_terms_le t
    simp [termsOf] at ih ⊢
    omega

/-- Flattening a list with a sum in it takes away at least that sum's node. -/
theorem weights_termsOf_lt {ts : List Expr} (h : ts.any isSum) :
    weights (termsOf ts) < weights ts := by
  induction ts with
  | nil => simp at h
  | cons t ts ih =>
    have ht := weights_terms_le t
    have hts := weights_termsOf_le ts
    rw [List.any_cons, Bool.or_eq_true] at h
    rw [termsOf, List.flatMap_cons, weights_append, weights_cons, ← termsOf]
    rcases h with h | h
    · have : weights t.terms < t.weight := by
        cases t <;> simp_all [isSum, terms]
      omega
    · have := ih h
      omega

/-- The sum of expressions, in normal form. -/
def addUp (ts : List Expr) : Expr :=
  let us := merged (termsOf ts)
  if us.any isSum then addUp us
  else match us with
    | [] => zero
    | [t] => t
    | us => sum us
termination_by weights (termsOf ts)
decreasing_by
  exact Nat.lt_of_lt_of_le (weights_termsOf_lt ‹us.any isSum = true›)
    (weights_merged_le (termsOf ts))

/-- Folds constants, flattens sums and products, merges like terms and joins nested fractions. -/
def simplify : Expr → Expr
  | number n => number n
  | atom a => atom a
  | product fs => multiply (fs.map simplify)
  | sum ts => addUp (ts.map simplify)
  | fraction n d => divide n.simplify d.simplify

end AreaMethod.Expr
