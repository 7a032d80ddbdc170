import AreaMethod.Proofs.Spelling

/-!
# Nested calls of the builders

`multiply`, `divide` and `addUp` call each other, and `divide` divides one rational by another. Here
a call is written down once more as an open body (`Builder.body`), in which the ways to divide and
to make further calls are parameters. With plain division, and with the builders themselves for the
further calls, the body yields what the builder yields. `Builder.run` carries calls out by the body
alone, with divisions that fail where the divisor is zero and calls that fail where they are nested
too deep; it does not fail if as many nested calls are allowed as there are sum and fraction nodes,
twice over (`Builder.run_of_height_lt`).

What makes this work is `Builder.height`: it decreases from each call to the calls within it. Nodes
as such would not do, because coefficients are added on the way.
-/

namespace AreaMethod

open AreaMethod.Expr

/-- A call of one of the operations that build normal forms. -/
inductive Builder where
  | product (factors : List Expr)
  | quotient (numerator denominator : Expr)
  | sum (terms : List Expr)

namespace Builder

/-- What a call yields. -/
def result : Builder → Expr
  | product fs => multiply fs
  | quotient n d => divide n d
  | sum ts => addUp ts

section
variable {m : Type → Type} [Monad m] (div : Rat → Rat → m Rat) (call : Builder → m Expr)

/-- The product of a coefficient and the rest of a term. -/
def scaled (c : Rat) : Option Expr → m Expr
  | none => pure (rational c)
  | some e =>
    if c == 1 then pure e
    else match e with
      | fraction n d => do
        let top ← call (product [rational c, n])
        call (quotient top d)
      | e => call (product [rational c, e])

/-- One call, with the given ways to divide and to make further calls. -/
def body : Builder → m Expr
  | product fs =>
    let p := Parts.ofFactors fs
    if p.coefficient == 0 then pure zero
    else if p.denominators.isEmpty then pure (assemble p.coefficient p.plain)
    else do
      let top ← call (product (rational p.coefficient :: (p.plain ++ p.numerators)))
      let bottom ← call (product p.denominators)
      call (quotient top bottom)
  | quotient n d =>
    if d.isZero then pure (fraction n d)
    else if n.isZero then pure zero
    else match n, d with
      | fraction t b, d => do
        let bottom ← call (product [b, d])
        call (quotient t bottom)
      | n, fraction t b => do
        let top ← call (product [n, b])
        call (quotient top t)
      | n, number v => do
        let c ← div 1 v.value
        call (product [rational c, n])
      | n, d => do
        let c ← div n.split.1 d.split.1
        if sameOption n.split.2 (some d.rest) then return rational c
        else
          let top ← call (product [rational c, n.rest])
          return fraction top d.rest
  | sum ts => do
    let like := collect cmpOption ((termsOf ts).map fun t => (t.split.2, t.split.1))
    let us ← like.mapM fun u => scaled call u.2 u.1
    if us.any isSum then call (sum us)
    else match us with
      | [] => return zero
      | [t] => return t
      | us => return Expr.sum us

end

/-- Division that fails if the divisor is zero. -/
def divide? (p q : Rat) : Option Rat :=
  if q = 0 then none else some (p / q)

/-- Carries a call out, with calls nested less than `fuel` deep, if no division is by zero. -/
def run : (fuel : Nat) → Builder → Option Expr
  | 0, _ => none
  | fuel + 1, b => b.body divide? (run fuel)

/-- A bound on how deep calls are nested in a call. -/
def height : Builder → Nat
  | product fs => 2 * weights fs
  | quotient n d => 2 * (n.weight + d.weight) + 1
  | sum ts => 2 * weights (termsOf ts) + 1

/-! ## One call -/

/-- The coefficient of a denominator is zero only if that shows at sight, fractions apart. -/
theorem split_ne_zero {d : Expr} (h : d.isZero = false) (plain : ∀ t b, d ≠ fraction t b) :
    d.split.1 ≠ 0 := by
  fun_cases split d with
  | case1 n => simpa [isZero] using h
  | case2 n fs =>
    rw [isZero_product, List.any_cons, Bool.or_eq_false_iff] at h
    simpa [isZero] using h.1
  | case3 n d => exact absurd rfl (plain n d)
  | case4 => exact one_ne_zero

section
variable {m : Type → Type} [Monad m] [LawfulMonad m] {div : Rat → Rat → m Rat}
  {call : Builder → m Expr}

/-- Operations that all return without an effect do so one after another. -/
theorem mapM_eq_pure {α β : Type} {f : α → m β} {g : α → β} {as : List α}
    (h : ∀ a ∈ as, f a = pure (g a)) : as.mapM f = pure (as.map g) := by
  induction as with
  | nil => rfl
  | cons a as ih =>
    rw [List.mapM_cons, h a List.mem_cons_self, ih fun b hb => h b (List.mem_cons_of_mem a hb)]
    simp

/-- The rest of like terms weighs no more than all the terms. -/
theorem restWeight_le_of_mem_collect {ts : List Expr} {u : Option Expr × Rat}
    (h : u ∈ collect cmpOption (restPairs ts)) : restWeight u.1 ≤ weights ts := by
  have member : ∀ us : List (Option Expr × Rat), u ∈ us →
      restWeight u.1 ≤ total (us.map fun u => restWeight u.1) := by
    intro us hu
    induction us with
    | nil => cases hu
    | cons v us ih =>
      rw [List.map_cons, total_cons]
      rcases List.mem_cons.1 hu with rfl | hu
      · omega
      · have := ih hu
        omega
  exact (member _ h).trans
    ((total_collect_le restWeight _ _).trans (total_restWeight_split_le ts))

/-- Scaling yields what it should if the calls it makes do. -/
theorem scaled_eq_pure {k : Nat} (hc : ∀ b : Builder, b.height < k → call b = pure b.result)
    (c : Rat) (rest : Option Expr) (hr : 2 * restWeight rest < k) :
    scaled call c rest = pure (scale c rest) := by
  cases rest with
  | none => rfl
  | some e =>
    rw [restWeight] at hr
    rw [scaled.eq_def, scale.eq_def]
    dsimp only
    split
    · rfl
    cases e with
    | fraction n d =>
      have top := weight_multiply_le [rational c, n]
      simp only [weights_cons, weights_nil, weight_rational, weight_fraction] at top hr
      dsimp only
      rw [hc (product [rational c, n]) (by simp [height]; omega), pure_bind,
        hc _ (by simp only [height, result]; omega)]
      rfl
    | number | atom | product | sum => exact hc _ (by simpa [height] using hr)

/-! A call yields what it should if the calls within it do, all of which are of lower height, and if
division by what is not zero is as it should be. -/

/-- Building a product returns it, if building smaller expressions does. -/
theorem product_eq_pure {fs : List Expr}
    (hc : ∀ b : Builder, b.height < (product fs).height → call b = pure b.result) :
    (product fs).body div call = pure (multiply fs) := by
  rw [body, multiply_eq]
  dsimp only
  split
  · rfl
  split
  · rfl
  next h =>
    have lt := Parts.weights_lt (Parts.ofFactors fs).coefficient h
    have top := weight_multiply_le (rational (Parts.ofFactors fs).coefficient ::
      ((Parts.ofFactors fs).plain ++ (Parts.ofFactors fs).numerators))
    have bottom := weight_multiply_le (Parts.ofFactors fs).denominators
    rw [hc _ (by simp only [height]; omega), pure_bind, hc _ (by simp only [height]; omega),
      pure_bind, hc _ (by simp only [height, result]; omega)]
    rfl

/-- Building a quotient returns it, if division by numbers other than zero and building smaller
expressions do. -/
theorem quotient_eq_pure {n d : Expr} (hd : ∀ p q, q ≠ 0 → div p q = pure (p / q))
    (hc : ∀ b : Builder, b.height < (quotient n d).height → call b = pure b.result) :
    (quotient n d).body div call = pure (divide n d) := by
  rw [body.eq_def]
  dsimp only
  split
  next hd0 => rw [divide_eq, if_pos hd0]
  next hd0 =>
  split
  next hn0 => rw [divide_eq, if_neg hd0, if_pos hn0]
  next hn0 =>
  have hd0' := Bool.eq_false_iff.2 hd0
  have hn0' := Bool.eq_false_iff.2 hn0
  split
  next t b =>
    have bottom := weight_multiply_le [b, d]
    rw [weights_cons, weights_cons, weights_nil] at bottom
    rw [hc _ (by simp [height]; omega), pure_bind, hc _ (by simp [height, result]; omega),
      divide_eq, if_neg hd0, if_neg hn0]
    rfl
  next t b hn =>
    have top := weight_multiply_le [n, b]
    rw [weights_cons, weights_cons, weights_nil] at top
    rw [hc _ (by simp [height]; omega), pure_bind, hc _ (by simp [height, result]; omega),
      divide_fraction hn hd0' hn0']
    rfl
  next v hn =>
    rw [hd _ _ (by simpa [isZero] using hd0), pure_bind, hc _ (by simp [height]),
      divide_number hn hd0' hn0']
    rfl
  next hn hf hv =>
    have rest := weight_rest_le n
    rw [hd _ _ (split_ne_zero hd0' hf), pure_bind, divide_plain hn hf hv hd0' hn0']
    split
    · rfl
    · rw [hc _ (by simp [height]; omega), pure_bind]
      rfl

/-- Building a sum returns it, if building smaller expressions does. -/
theorem sum_eq_pure {ts : List Expr}
    (hc : ∀ b : Builder, b.height < (sum ts).height → call b = pure b.result) :
    (sum ts).body div call = pure (addUp ts) := by
  have like : ∀ u ∈ collect cmpOption (restPairs (termsOf ts)),
      scaled call u.2 u.1 = pure (scale u.2 u.1) := by
    intro u hu
    have le := restWeight_le_of_mem_collect hu
    exact scaled_eq_pure hc u.2 u.1 (by simp only [height]; omega)
  rw [body, addUp, ← restPairs, mapM_eq_pure like, pure_bind, restPairs, ← merged]
  split
  next again =>
    have lt := weights_termsOf_lt again
    have le := weights_merged_le (termsOf ts)
    exact hc (sum (merged (termsOf ts))) (by simp only [height]; omega)
  next =>
    rcases merged (termsOf ts) with _ | ⟨t, _ | ⟨u, us⟩⟩
    · rfl
    · rfl
    · rfl

/-- One step of a builder returns, if the calls it makes do. -/
theorem body_eq_pure (b : Builder) (hd : ∀ p q, q ≠ 0 → div p q = pure (p / q))
    (hc : ∀ b' : Builder, b'.height < b.height → call b' = pure b'.result) :
    b.body div call = pure b.result := by
  cases b with
  | product fs => exact product_eq_pure hc
  | quotient n d => exact quotient_eq_pure hd hc
  | sum ts => exact sum_eq_pure hc

end

/-! ## Calls within calls -/

/-- Building normal forms comes to an end and never divides by zero, whatever it is given. The body
of a call yields what the builder does, with plain division and the builders themselves for the
calls within it. Carried out by the body alone, with divisions that fail if the divisor is zero, a
call ends with the same result if calls may be nested as deep as its height. -/
theorem run_of_height_lt (b : Builder) :
    Id.run (b.body (fun p q => pure (p / q)) fun b => pure b.result) = b.result ∧
      ∀ fuel, b.height < fuel → b.run fuel = some b.result := by
  refine ⟨body_eq_pure b (fun _ _ _ => rfl) fun _ _ => rfl, fun fuel h => ?_⟩
  induction fuel generalizing b with
  | zero => cases h
  | succ fuel ih =>
    refine body_eq_pure b (fun p q hq => if_neg hq) fun b' h' => ih b' ?_
    omega

/-- Factors that are not in normal form, with zero below two fractions. -/
def zeroBelow : List Expr :=
  [fraction (scalar "x") (fraction zero (scalar "y")),
    .product [rational 2, fraction (fraction (scalar "y") (scalar "x"))
      (.product [rational 3, scalar "x"])],
    .sum [fraction (scalar "x") (.sum [])]]

/-- Terms that leave a sum when they are merged, and one with zero below. -/
def sumLeft : List Expr :=
  [.product [rational 2, .sum [scalar "x", scalar "y"]],
    .product [rational (-1), .sum [scalar "x", scalar "y"]],
    fraction (.product [rational 2, scalar "x"]) (.product [rational 4, scalar "y"]),
    fraction one (.sum [])]

/-- The factors weigh 7 and the terms 5. The terms are added up twice. -/
theorem run_zeroBelow_sumLeft :
    (product zeroBelow).run 15 = some (multiply zeroBelow) ∧
      (sum sumLeft).run 12 = some (.sum [scalar "x", scalar "y", fraction one (.sum []),
        fraction (.product [rational (1 / 2), scalar "x"]) (scalar "y")]) := by
  have factors : (product zeroBelow).height = 14 := by cbv
  have terms : (sum sumLeft).height = 11 := by cbv
  have added : addUp sumLeft = .sum [scalar "x", scalar "y", fraction one (.sum []),
      fraction (.product [rational (1 / 2), scalar "x"]) (scalar "y")] := by cbv
  rw [← added]
  exact ⟨(run_of_height_lt _).2 15 (by omega), (run_of_height_lt (sum sumLeft)).2 12 (by omega)⟩

end Builder

end AreaMethod
