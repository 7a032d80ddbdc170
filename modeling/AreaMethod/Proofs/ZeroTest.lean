import AreaMethod.Proofs.Generic
import AreaMethod.Proofs.Stages

/-!
# The zero test is exact

Brought over one denominator, with its numerator multiplied out and like terms grouped, an
expression shows at sight whether it vanishes wherever it has a value (`regrouped_isZero_tfae`).
The atoms are independent here: a valuation may give them any values, whatever they speak of.

With the atoms as variables the expression is a rational function, and the passes decide whether it
is zero. A function that is zero has the value zero everywhere (`definedAt_variables`), and one that
is not has another value at some choice of the variables, where the expression is defined too
(`exists_value_ne_zero`). The test is about expressions that are defined somewhere: one whose
denominators vanish identically, like `1 / (x - x)`, has no value at all and need not show it.
-/

namespace AreaMethod.Expr

variable {e : Expr}

/-- An expression that is defined under some valuation is defined with its atoms as variables, and
its value is that of the rational function. -/
theorem definedAt_variables {v : Atom → Option ℚ} (h : e.DefinedAt v) :
    e.DefinedAt (some ∘ RationalFunction.variable) ∧
      Specializes (fun a => (v a).getD 0) (e.value (some ∘ RationalFunction.variable))
        (e.value v) := by
  refine definedAt_specializes (fun a q hq => ⟨_, rfl, ?_⟩) h
  simpa [hq] using Specializes.of_variable (fun a => (v a).getD 0) a

/-- A rational function other than zero has a value other than zero, at some choice of the variables
for which the expression is defined. -/
theorem exists_value_ne_zero (hd : e.DefinedAt (some ∘ RationalFunction.variable))
    (hv : e.value (some ∘ RationalFunction.variable) ≠ 0) :
    ∃ ρ : Atom → ℚ, e.DefinedAt (some ∘ ρ) ∧ e.value (some ∘ ρ) ≠ 0 := by
  have values := eventually_specializes (S := fun ρ σ => σ = ρ)
    (v := some ∘ RationalFunction.variable) (w := fun σ => some ∘ σ)
    (fun a => Filter.Eventually.of_forall fun ρ σ same =>
      ⟨same ▸ Specializes.of_variable ρ a, fun _ => rfl⟩) e
  obtain ⟨ρ, specializes, nonzero⟩ := (values.and (eventually_ne_zero hv)).exists
  exact ⟨ρ, (specializes ρ rfl).2 hd, nonzero _ (specializes ρ rfl).1⟩

/-- The zero test is exact. Take an expression that is defined under some valuation of all atoms.
Its numerator as a single fraction, simplified, expanded and with like terms grouped, is zero at
sight if and only if the expression has the value zero under every valuation under which it is
defined, be it one of some atoms or of all. -/
theorem regrouped_isZero_tfae {ρ : Atom → ℚ} {q : ℚ} (defined : e.eval (some ∘ ρ) = some q) :
    List.TFAE [
      e.singleFraction.numerator.simplify.unitProduct.expanded.grouped.simplify.isZero = true,
      ∀ (v : Atom → Option ℚ) (r : ℚ), e.eval v = some r → r = 0,
      ∀ (σ : Atom → ℚ) (r : ℚ), e.eval (some ∘ σ) = some r → r = 0] := by
  have generic := (definedAt_variables (eval_eq_some_iff.1 defined).1).1
  have test : e.regrouped.isZero = true ↔ e.value (some ∘ RationalFunction.variable) = 0 :=
    isZero_regrouped_iff (p := fun _ => True) (fun _ _ => rfl)
      (Shape.within_ofAtoms_iff.2 fun _ _ => trivial) generic
  tfae_have 1 → 2 := by
    intro zero v r hr
    obtain ⟨hd, rfl⟩ := eval_eq_some_iff.1 hr
    have specializes := (definedAt_variables hd).2
    rw [test.1 zero] at specializes
    exact specializes.eq_zero
  tfae_have 2 → 3 := fun vanishes σ => vanishes (some ∘ σ)
  tfae_have 3 → 1 := by
    intro vanishes
    refine test.2 ?_
    by_contra hne
    obtain ⟨σ, hd, nonzero⟩ := exists_value_ne_zero generic hne
    exact nonzero (vanishes σ _ (eval_eq_some_iff.2 ⟨hd, rfl⟩))
  tfae_finish

/-- `1 / (1/x + 1/y) - xy / (x + y)`. -/
def parallelResistances : Expr :=
  let x := scalar "x"
  let y := scalar "y"
  one / (one / x + one / y) - x * y / (x + y)

/-- The two ways to write it come to the same wherever both have a value. -/
theorem parallelResistances_vanish :
    parallelResistances.eval (some ∘ fun _ => 1) = some 0 ∧
      parallelResistances.regrouped.isZero = true ∧
      ∀ (v : Atom → Option ℚ) (r : ℚ), parallelResistances.eval v = some r → r = 0 := by
  have defined : parallelResistances.eval (some ∘ fun _ => 1) = some 0 := by cbv
  have zero : parallelResistances.regrouped.isZero = true := by cbv
  exact ⟨defined, zero, ((regrouped_isZero_tfae defined).out 0 1).1 zero⟩

end AreaMethod.Expr
