import AreaMethod.Expr.Polynomial
import AreaMethod.Proofs.SingleFraction

/-!
# What expressions are made of

A `Shape` says which constants and which atoms an expression may have, and whether it may have
fractions. The passes bring no atoms in and no fractions but those they start from, and a constant
that they calculate is in lowest terms, so they stay within a shape.

One thing is left as it is written: a constant that is the whole expression, alone or over a
denominator that is zero at sight. `Loose` allows for it. Whatever is built out of loose
expressions as a product or a sum is within the shape (`within_multiply`, `within_addUp`), and
a simplified expression is loose whatever the constants it came from (`loose_simplify`).

A single fraction has no fractions above (`loose_numerator_singleFraction`), and with what is known
of its value its numerator is a polynomial that is zero where the expression is
(`eval_singleFraction`).
-/

namespace AreaMethod

/-- Conditions on the constants, atoms and fractions of an expression. Constants in lowest terms and
those that are zero are always admitted. -/
structure Shape where
  number : Numeral → Prop
  atom : Atom → Prop
  fraction : Prop
  number_ofRat : ∀ q, number (.ofRat q)
  number_of_zero : ∀ n, n.value = 0 → number n

namespace Shape

/-- Any constants, and atoms with a property. -/
def ofAtoms (p : Atom → Prop) : Shape :=
  ⟨fun _ => True, p, True, fun _ => trivial, fun _ _ => trivial⟩

/-- Any constants, atoms with a property and no fractions. -/
def polynomial (p : Atom → Prop) : Shape :=
  ⟨fun _ => True, p, False, fun _ => trivial, fun _ _ => trivial⟩

/-- Any constants and atoms, and no fractions. -/
def fractionFree : Shape := polynomial fun _ => True

/-- The shape with any constants. -/
def anyNumber (s : Shape) : Shape :=
  ⟨fun _ => True, s.atom, s.fraction, fun _ => trivial, fun _ _ => trivial⟩

/-- Does the whole expression keep to the shape? -/
def Within (s : Shape) : Expr → Prop
  | .number n => s.number n
  | .atom a => s.atom a
  | .product fs => ∀ f ∈ fs, s.Within f
  | .sum ts => ∀ t ∈ ts, s.Within t
  | .fraction n d => s.fraction ∧ s.Within n ∧ s.Within d

/-- Does the expression keep to the shape, but for a constant that stands alone or over a
denominator that is zero? -/
def Loose (s : Shape) : Expr → Prop
  | .number _ => True
  | .fraction n d => s.fraction ∧ s.Within d ∧ (s.Within n ∨ d.isZero = true ∧ s.Loose n)
  | .atom a => s.Within (.atom a)
  | .product fs => s.Within (.product fs)
  | .sum ts => s.Within (.sum ts)

variable {s : Shape}

@[simp] theorem within_number (n : Numeral) : s.Within (.number n) ↔ s.number n := by
  rw [Within]

@[simp] theorem within_rational (q : Rat) : s.Within (.rational q) :=
  (within_number _).2 (s.number_ofRat q)

@[simp] theorem within_atom (a : Atom) : s.Within (.atom a) ↔ s.atom a := by
  rw [Within]

@[simp] theorem within_product (fs : List Expr) :
    s.Within (.product fs) ↔ ∀ f ∈ fs, s.Within f := by
  rw [Within]

@[simp] theorem within_sum (ts : List Expr) : s.Within (.sum ts) ↔ ∀ t ∈ ts, s.Within t := by
  rw [Within]

@[simp] theorem within_fraction (n d : Expr) :
    s.Within (.fraction n d) ↔ s.fraction ∧ s.Within n ∧ s.Within d := by
  rw [Within]

@[simp] theorem within_zero : s.Within .zero := within_rational 0

@[simp] theorem within_one : s.Within .one := within_rational 1

@[simp] theorem within_add (e f : Expr) : s.Within (e + f) ↔ s.Within e ∧ s.Within f := by
  change s.Within (.sum [e, f]) ↔ _
  simp

@[simp] theorem within_mul (e f : Expr) : s.Within (e * f) ↔ s.Within e ∧ s.Within f := by
  change s.Within (.product [e, f]) ↔ _
  simp

@[simp] theorem within_neg (e : Expr) : s.Within (-e) ↔ s.Within e := by
  change s.Within (.product [.minusOne, e]) ↔ _
  simp [Expr.minusOne]

@[simp] theorem within_sub (e f : Expr) : s.Within (e - f) ↔ s.Within e ∧ s.Within f := by
  change s.Within (.sum [e, -f]) ↔ _
  simp

@[simp] theorem within_div (e f : Expr) :
    s.Within (e / f) ↔ s.fraction ∧ s.Within e ∧ s.Within f :=
  within_fraction e f

@[simp] theorem loose_number (n : Numeral) : s.Loose (.number n) := by
  rw [Loose]
  trivial

@[simp] theorem loose_fraction (n d : Expr) : s.Loose (.fraction n d) ↔
    s.fraction ∧ s.Within d ∧ (s.Within n ∨ d.isZero = true ∧ s.Loose n) := by
  rw [Loose]

@[simp] theorem loose_atom (a : Atom) : s.Loose (.atom a) ↔ s.atom a := by
  rw [Loose, within_atom]

@[simp] theorem loose_product (fs : List Expr) :
    s.Loose (.product fs) ↔ ∀ f ∈ fs, s.Within f := by
  rw [Loose, within_product]

@[simp] theorem loose_sum (ts : List Expr) : s.Loose (.sum ts) ↔ ∀ t ∈ ts, s.Within t := by
  rw [Loose, within_sum]

/-- What keeps to a shape keeps to one that admits more. -/
theorem Within.mono {t : Shape} (number : ∀ n, s.number n → t.number n)
    (atom : ∀ a, s.atom a → t.atom a) (fraction : s.fraction → t.fraction) {e : Expr}
    (h : s.Within e) : t.Within e := by
  induction e using Expr.ind with
  | number n => exact (within_number n).2 (number n ((within_number n).1 h))
  | atom a => exact (within_atom a).2 (atom a ((within_atom a).1 h))
  | product fs ih =>
    exact (within_product fs).2 fun f hf => ih f hf ((within_product fs).1 h f hf)
  | sum ts ih => exact (within_sum ts).2 fun t ht => ih t ht ((within_sum ts).1 h t ht)
  | fraction n d ihn ihd =>
    rw [within_fraction] at h ⊢
    exact ⟨fraction h.1, ihn h.2.1, ihd h.2.2⟩

/-- What keeps to a shape does so loosely. -/
theorem Within.loose {e : Expr} (h : s.Within e) : s.Loose e := by
  cases e with
  | number n => simp
  | fraction n d =>
    rw [within_fraction] at h
    exact (loose_fraction n d).2 ⟨h.1, h.2.2, .inl h.2.1⟩
  | atom | product | sum => simpa using h

/-- An expression that is zero at sight keeps to the shape as soon as it does so loosely. -/
theorem Loose.within_of_isZero {e : Expr} (h : s.Loose e) (h0 : e.isZero = true) : s.Within e := by
  induction e using Expr.ind with
  | number n => exact (within_number n).2 (s.number_of_zero n (by simpa [Expr.isZero] using h0))
  | fraction n d ihn _ =>
    rw [loose_fraction] at h
    rw [Expr.isZero] at h0
    obtain ⟨hf, hd, hn⟩ := h
    exact (within_fraction n d).2 ⟨hf, hn.elim id fun hn => ihn hn.2 h0, hd⟩
  | atom | product | sum => simpa using h

/-- With all constants admitted there is nothing to be loose about. -/
theorem Loose.within (hs : ∀ n, s.number n) {e : Expr} (h : s.Loose e) : s.Within e := by
  induction e using Expr.ind with
  | number n => exact (within_number n).2 (hs n)
  | fraction n d ihn _ =>
    obtain ⟨hf, hd, hn⟩ := (loose_fraction n d).1 h
    exact (within_fraction n d).2 ⟨hf, hn.elim id fun hn => ihn hn.2, hd⟩
  | atom | product | sum => simpa using h

/-- What keeps loosely to a shape keeps to it but for the constants. -/
theorem Loose.anyNumber {e : Expr} (h : s.Loose e) : s.anyNumber.Within e := by
  have within : ∀ {f : Expr}, s.Within f → s.anyNumber.Within f :=
    Within.mono (s := s) (t := s.anyNumber) (fun _ _ => trivial) (fun _ => id) id
  induction e using Expr.ind with
  | number n => exact (within_number n).2 trivial
  | fraction n d ihn _ =>
    obtain ⟨hf, hd, hn⟩ := (loose_fraction n d).1 h
    exact (within_fraction n d).2 ⟨hf, hn.elim within fun hn => ihn hn.2, within hd⟩
  | atom | product | sum => exact within (by simpa using h)

/-- An expression over atoms with a property is one all of whose atoms have the property. -/
theorem within_ofAtoms_iff {p : Atom → Prop} {e : Expr} :
    (ofAtoms p).Within e ↔ ∀ a ∈ e.atomList, p a := by
  induction e using Expr.ind with
  | number n => simp [ofAtoms, Expr.atomList]
  | atom a => simp [ofAtoms, Expr.atomList]
  | product fs ih | sum fs ih =>
    simp only [within_product, within_sum, Expr.atomList, List.mem_flatMap]
    constructor
    · rintro h a ⟨f, hf, ha⟩
      exact (ih f hf).1 (h f hf) a ha
    · exact fun h f hf => (ih f hf).2 fun a ha => h a ⟨f, hf, ha⟩
  | fraction n d ihn ihd =>
    simp only [within_fraction, ihn, ihd, Expr.atomList, List.mem_append, or_imp, forall_and]
    exact and_iff_right trivial

/-- Two properties of all atoms are one. -/
theorem within_ofAtoms_and {p q : Atom → Prop} {e : Expr} (hp : (ofAtoms p).Within e)
    (hq : (ofAtoms q).Within e) : (ofAtoms fun a => p a ∧ q a).Within e := by
  rw [within_ofAtoms_iff] at *
  exact fun a ha => ⟨hp a ha, hq a ha⟩

/-- Atoms with a property have those that it implies. -/
theorem within_ofAtoms_mono {p q : Atom → Prop} (hpq : ∀ a, p a → q a) {e : Expr}
    (h : (ofAtoms p).Within e) : (ofAtoms q).Within e :=
  Within.mono (s := ofAtoms p) (t := ofAtoms q) (fun _ => id) hpq id h

end Shape

namespace Expr

open Shape

variable {s : Shape}

/-! ## Products and quotients -/

/-- The factors of an expression keep to its shape. -/
theorem within_factors {e : Expr} (h : s.Within e) : ∀ f ∈ e.factors, s.Within f :=
  forall_mem_factors (fun fs => (within_product fs).1) h

/-- The factors of a loose expression are loose. -/
theorem loose_factors {e : Expr} (h : s.Loose e) : ∀ f ∈ e.factors, s.Loose f := by
  cases e with
  | product fs =>
    intro f hf
    exact (within_factors ((within_product fs).2 ((loose_product fs).1 h)) f hf).loose
  | number n => simp [factors]
  | atom | sum | fraction => simpa [factors] using h

/-- The parts of a product of loose factors: only the numerators are still loose. -/
structure Parts.Within (s : Shape) (p : Parts) : Prop where
  plain : ∀ f ∈ p.plain, s.Within f
  numerators : ∀ f ∈ p.numerators, s.Loose f
  denominators : ∀ f ∈ p.denominators, s.fraction ∧ s.Within f

/-- Taking in a loose factor keeps the parts to the shape. -/
theorem Parts.within_add {p : Parts} {f : Expr} (hp : p.Within s) (hf : s.Loose f) :
    (p.add f).Within s := by
  cases f with
  | number n => exact ⟨hp.plain, hp.numerators, hp.denominators⟩
  | fraction n d =>
    obtain ⟨hs, hd, hn⟩ := (loose_fraction n d).1 hf
    refine ⟨hp.plain, List.forall_mem_cons.2 ⟨?_, hp.numerators⟩,
      List.forall_mem_cons.2 ⟨⟨hs, hd⟩, hp.denominators⟩⟩
    exact hn.elim Within.loose And.right
  | atom | product | sum =>
    refine ⟨List.forall_mem_cons.2 ⟨?_, hp.plain⟩, hp.numerators, hp.denominators⟩
    simpa using hf

/-- The parts of loose factors keep to the shape. -/
theorem Parts.within_ofFactors {fs : List Expr} (h : ∀ f ∈ fs, s.Loose f) :
    (ofFactors fs).Within s :=
  ofFactors_induction ⟨by simp [empty], by simp [empty], by simp [empty]⟩
    (fun _ _ => within_add) fun f hf => loose_factors (h f hf)

/-- Bundled factors keep to the shape. -/
theorem within_bundle? {fs : List Expr} (q : Rat) (h : ∀ f ∈ fs, s.Within f) :
    s.Within ((bundle? fs).getD (rational q)) :=
  bundle?_induction within_rational (fun fs => (within_product fs).2) q h

/-- Assembled factors keep to the shape. -/
theorem within_assemble (c : Rat) {fs : List Expr} (h : ∀ f ∈ fs, s.Within f) :
    s.Within (assemble c fs) := by
  have hs : ∀ f ∈ sort fs, s.Within f := fun f hf => h f ((sort_perm fs).mem_iff.1 hf)
  rw [assemble]
  split
  · exact within_bundle? c hs
  · simpa using hs

/-- Without its coefficient a term keeps to the shape: the coefficient was all that was loose. -/
theorem within_rest {e : Expr} (h : s.Loose e) : s.Within e.rest := by
  fun_induction split e with
  | case1 n => simp [rest, split, one]
  | case2 n fs =>
    rw [rest, split]
    exact within_bundle? 1 fun f hf => (loose_product _).1 h f (by simp [hf])
  | case3 n d ih =>
    obtain ⟨hf, hd, hn⟩ := (loose_fraction n d).1 h
    rw [rest, split, Option.getD_some, within_fraction]
    exact ⟨hf, ih (hn.elim Within.loose And.right), hd⟩
  | case4 e h₁ h₂ h₃ =>
    cases e with
    | number n => exact absurd rfl (h₁ n)
    | fraction n d => exact absurd rfl (h₃ n d)
    | atom | product | sum => simpa [rest, split] using h

/-- What a coefficient multiplies keeps to the shape, even if the expression does so loosely. -/
theorem within_split {e : Expr} (h : s.Loose e) : ∀ r ∈ e.split.2, s.Within r :=
  fun _ hr => rest_eq_of_mem_split hr ▸ within_rest h

/-- The numerator of a loose expression is loose. -/
theorem loose_numerator {e : Expr} (h : s.Loose e) : s.Loose e.numerator := by
  cases e with
  | fraction t b =>
    obtain ⟨-, -, ht⟩ := (loose_fraction t b).1 h
    exact ht.elim Within.loose And.right
  | number | atom | product | sum => exact h

/-- The shape of a quotient: loose if its parts are, with a loose numerator also where fractions are
not admitted, and within the shape if its parts are. -/
structure QuotientShape (s : Shape) (n d e : Expr) : Prop where
  loose : s.fraction → s.Loose n → s.Loose d → s.Loose e
  numerator : s.Loose n → s.Loose d → s.Loose e.numerator
  within : s.fraction → s.Within n → s.Within d → s.Within e

/-- What keeps to the shape of loose parts has the shape of their quotient. -/
theorem QuotientShape.of_within {n d e : Expr} (h : s.Loose n → s.Loose d → s.Within e) :
    QuotientShape s n d e where
  loose _ hn hd := (h hn hd).loose
  numerator hn hd := loose_numerator (h hn hd).loose
  within _ hn hd := h hn.loose hd.loose

/-- Products of loose factors keep to the shape, and quotients have that of a quotient. The two are
defined by each other, so they are proved together. -/
theorem within_multiply_divide :
    (∀ fs : List Expr, (∀ f ∈ fs, s.Loose f) → s.Within (multiply fs)) ∧
    ∀ n d : Expr, QuotientShape s n d (divide n d) := by
  apply multiply_divide_induction
    (P := fun fs e => (∀ f ∈ fs, s.Loose f) → s.Within e) (Q := fun n d e => QuotientShape s n d e)
  case vanishing => exact fun _ _ _ => within_rational 0
  case plain => exact fun fs _ _ h => within_assemble _ (Parts.within_ofFactors h).plain
  case joined =>
    rintro fs _ top bottom e _ hd rfl - - iht ihb ihe h
    have hp := Parts.within_ofFactors h
    obtain ⟨d, hd⟩ := List.exists_mem_of_ne_nil _ hd
    refine ihe.within (hp.denominators d hd).1 (iht ?_) (ihb fun d hd => ?_)
    · simpa [or_imp, forall_and] using
        ⟨(within_rational _).loose, fun f hf => (hp.plain f hf).loose, hp.numerators⟩
    · exact (hp.denominators d hd).2.loose
  case raw =>
    intro n d hz
    exact ⟨fun hs hn hd => (loose_fraction n d).2 ⟨hs, hd.within_of_isZero hz, .inr ⟨hz, hn⟩⟩,
      fun hn _ => hn, fun hs hn hd => (within_fraction n d).2 ⟨hs, hn, hd⟩⟩
  case zero => exact fun n d _ _ => .of_within fun _ _ => within_rational 0
  case overFraction =>
    intro t b d m e _ _ _ ihm ihe
    have hm : s.Within b → s.Loose d → s.Within m := fun hb hd => ihm (by simp [hb.loose, hd])
    refine ⟨fun hs hn hd => ?_, fun hn hd => ?_, fun hs hn hd => ?_⟩
    · obtain ⟨-, hb, ht⟩ := (loose_fraction t b).1 hn
      exact ihe.loose hs (ht.elim Within.loose And.right) (hm hb hd).loose
    · obtain ⟨-, hb, ht⟩ := (loose_fraction t b).1 hn
      exact ihe.numerator (ht.elim Within.loose And.right) (hm hb hd).loose
    · obtain ⟨-, ht, hb⟩ := (within_fraction t b).1 hn
      exact ihe.within hs ht (hm hb hd.loose)
  case underFraction =>
    intro n t b m e _ _ _ _ ihm ihe
    have hm : s.Loose n → s.Within b → s.Within m := fun hn hb => ihm (by simp [hn, hb.loose])
    refine ⟨fun hs hn hd => ?_, fun hn hd => ?_, fun hs hn hd => ?_⟩
    · obtain ⟨-, hb, ht⟩ := (loose_fraction t b).1 hd
      exact ihe.loose hs (hm hn hb).loose (ht.elim Within.loose And.right)
    · obtain ⟨-, hb, ht⟩ := (loose_fraction t b).1 hd
      exact ihe.numerator (hm hn hb).loose (ht.elim Within.loose And.right)
    · obtain ⟨-, ht, hb⟩ := (within_fraction t b).1 hd
      exact ihe.within hs (hm hn.loose hb) ht
  case overConstant =>
    exact fun n c e _ _ _ ihe => .of_within fun hn _ =>
      ihe (by simp [hn, (within_rational _).loose])
  case cancelled => exact fun n d _ _ _ _ _ _ => .of_within fun _ _ => within_rational _
  case general =>
    intro n d e _ _ _ _ _ _ _ ihe
    have he : s.Loose n → s.Within e := fun hn =>
      ihe (by simp [(within_rest hn).loose, (within_rational _).loose])
    have both : s.fraction → s.Loose n → s.Loose d → s.Within (fraction e d.rest) :=
      fun hs hn hd => (within_fraction _ _).2 ⟨hs, he hn, within_rest hd⟩
    exact ⟨fun hs hn hd => (both hs hn hd).loose, fun hn _ => (he hn).loose,
      fun hs hn hd => both hs hn.loose hd.loose⟩

/-- Products of loose factors keep to the shape. -/
theorem within_multiply {fs : List Expr} (h : ∀ f ∈ fs, s.Loose f) : s.Within (multiply fs) :=
  within_multiply_divide.1 fs h

/-- Quotients have the shape of a quotient. -/
theorem quotientShape_divide (n d : Expr) : QuotientShape s n d (divide n d) :=
  within_multiply_divide.2 n d

/-! ## Sums -/

/-- A coefficient in front keeps to the shape. -/
theorem within_scale (c : Rat) {r : Option Expr} (h : ∀ e ∈ r, s.Within e) :
    s.Within (scale c r) := by
  rw [scale.eq_def]
  split
  next => exact within_rational c
  next e =>
    have he : s.Within e := h e rfl
    split
    next => exact he
    next =>
      split
      next n d =>
        obtain ⟨hs, hn, hd⟩ := (within_fraction n d).1 he
        have hm : s.Within (multiply [rational c, n]) :=
          within_multiply (by simp [hn.loose, (within_rational c).loose])
        exact (quotientShape_divide _ d).within hs hm hd
      next => exact within_multiply (by simp [he.loose, (within_rational c).loose])

/-- Merged like terms keep to the shape. -/
theorem within_merged {ts : List Expr} (h : ∀ t ∈ ts, s.Loose t) :
    ∀ t ∈ merged ts, s.Within t := by
  intro t ht
  obtain ⟨u, hu, rfl⟩ := List.mem_map.1 ht
  obtain ⟨t, ht, hu⟩ := exists_split_of_mem_collect hu
  exact within_scale u.2 (hu ▸ within_split (h t ht))

/-- The terms of loose expressions are loose. -/
theorem loose_termsOf {es : List Expr} (h : ∀ e ∈ es, s.Loose e) :
    ∀ t ∈ termsOf es, s.Loose t := by
  intro t ht
  obtain ⟨e, he, ht⟩ := List.mem_flatMap.1 ht
  rw [terms.eq_def] at ht
  split at ht
  · exact ((loose_sum _).1 (h _ he) t ht).loose
  · split at ht
    · cases ht
    · rw [List.mem_singleton.1 ht]
      exact h _ he

/-- Sums of loose terms keep to the shape. -/
theorem within_addUp {ts : List Expr} (h : ∀ t ∈ ts, s.Loose t) : s.Within (addUp ts) := by
  revert h
  refine addUp_induction (P := fun ts e => (∀ t ∈ ts, s.Loose t) → s.Within e) ?_ ?_ ?_ ?_ ts
  · exact fun us e _ ih h => ih fun t ht => (within_merged (loose_termsOf h) t ht).loose
  · exact fun us _ _ => within_rational 0
  · exact fun us t _ hu h => within_merged (loose_termsOf h) t (by simp [hu])
  · exact fun us _ _ h => (within_sum _).2 (within_merged (loose_termsOf h))

/-! ## The passes -/

/-- A simplified expression keeps to the shape loosely, whatever constants it came from. -/
theorem loose_simplify {e : Expr} (h : s.anyNumber.Within e) : s.Loose e.simplify := by
  induction e using ind with
  | number n =>
    rw [simplify]
    exact loose_number n
  | atom a =>
    rw [simplify]
    simpa [anyNumber] using h
  | product fs ih =>
    rw [simplify]
    refine (within_multiply fun f hf => ?_).loose
    obtain ⟨g, hg, rfl⟩ := List.mem_map.1 hf
    exact ih g hg ((within_product fs).1 h g hg)
  | sum ts ih =>
    rw [simplify]
    refine (within_addUp fun t ht => ?_).loose
    obtain ⟨u, hu, rfl⟩ := List.mem_map.1 ht
    exact ih u hu ((within_sum ts).1 h u hu)
  | fraction n d ihn ihd =>
    obtain ⟨hs, hn, hd⟩ := (within_fraction n d).1 h
    rw [simplify]
    exact (quotientShape_divide _ _).loose hs (ihn hn) (ihd hd)

/-- What constants have, and the atoms of an expression, and what products and sums hand on, the two
parts of the expression over its denominator have. -/
theorem forall_overDenominator {P : Expr → Prop} {p : Atom → Prop}
    (number : ∀ n, P (number n)) (atom : ∀ a, p a → P (atom a))
    (multiplied : ∀ {fs : List Expr}, (∀ f ∈ fs, P f) → P (multiply fs))
    (added : ∀ {ts : List Expr}, (∀ t ∈ ts, P t) → P (addUp ts)) {e : Expr}
    (h : (ofAtoms p).Within e) :
    P e.overDenominator.1 ∧ ∀ d ∈ e.overDenominator.2, P d := by
  have times : ∀ {f : Expr} {g : Option Expr}, P f → (∀ d ∈ g, P d) → P (timesOption f g) := by
    intro f g hf hg
    cases g with
    | none => exact hf
    | some d => exact multiplied (by simp [hf, hg d rfl])
  induction e using ind with
  | number n => simpa [overDenominator] using number n
  | atom a => simpa [overDenominator] using atom a ((within_atom a).1 h)
  | product fs ih =>
    have parts := fun f hf => ih f hf ((within_product fs).1 h f hf)
    rw [overDenominator, productOption]
    refine ⟨multiplied ?_, ?_⟩
    · simpa using fun f hf => (parts f hf).1
    · split
      · simp
      · have hd : ∀ d ∈ (fs.map overDenominator).filterMap (·.2), P d := by
          simpa using fun d f hf hd => (parts f hf).2 d hd
        simpa using multiplied hd
  | sum ts ih =>
    have parts := fun t ht => ih t ht ((within_sum ts).1 h t ht)
    have hds : ∀ d ∈ ((ts.map overDenominator).filterMap (·.2)).eraseDupsBy same, P d := by
      intro d hd
      have hd := mem_of_mem_eraseDupsBy hd
      simp only [List.mem_filterMap, List.mem_map, exists_exists_and_eq_and] at hd
      obtain ⟨t, ht, hd⟩ := hd
      exact (parts t ht).2 d hd
    rw [overDenominator, overCommon]
    split
    · refine ⟨added ?_, by simp⟩
      simpa using fun t ht => (parts t ht).1
    · refine ⟨added ?_, by simpa using multiplied hds⟩
      simp only [List.mem_map, exists_exists_and_eq_and, forall_exists_index, and_imp]
      rintro _ t ht rfl
      refine multiplied (List.forall_mem_cons.2 ⟨(parts t ht).1, ?_⟩)
      exact fun d hd => hds d (List.mem_filter.1 hd).1
  | fraction n d ihn ihd =>
    obtain ⟨-, hn, hd⟩ := (within_fraction n d).1 h
    rw [overDenominator]
    refine ⟨times (ihn hn).1 (ihd hd).2, fun e he => ?_⟩
    obtain rfl := Option.some.inj he
    exact times (ihd hd).1 (ihn hn).2

/-- The parts of an expression over its denominator have no fractions, whatever the expression has:
they are loosely of any shape that admits its atoms. -/
theorem loose_overDenominator {e : Expr} (h : (ofAtoms s.atom).Within e) :
    s.Loose e.overDenominator.1 ∧ ∀ d ∈ e.overDenominator.2, s.Loose d :=
  forall_overDenominator loose_number (fun a => (loose_atom a).2)
    (fun h => (within_multiply h).loose) (fun h => (within_addUp h).loose) h

/-- The numerator of a single fraction has no fractions. -/
theorem loose_numerator_singleFraction {e : Expr} (h : (ofAtoms s.atom).Within e) :
    s.Loose e.singleFraction.numerator := by
  have hs : (ofAtoms s.atom).Within e.simplify :=
    (loose_simplify (s := ofAtoms s.atom) h).within fun _ => trivial
  obtain ⟨hn, hd⟩ := loose_overDenominator hs
  rw [singleFraction]
  rcases hp : e.simplify.overDenominator with ⟨n, _ | d⟩
  · rw [hp] at hn
    exact loose_numerator hn
  · rw [hp] at hn hd
    exact (quotientShape_divide n d).numerator hn (hd d rfl)

/-- Where an expression evaluates to a number, its single fraction evaluates to that number, and the
numerator of the single fraction, a polynomial in the atoms of the expression, to one that is zero
if and only if that number is. -/
theorem eval_singleFraction {v : Atom → Option Rat} {e : Expr} {q : Rat} (h : e.eval v = some q) :
    e.singleFraction.eval v = some q ∧
      (polynomial fun a => a ∈ e.atomList).Within e.singleFraction.numerator ∧
      ∃ p, e.singleFraction.numerator.eval v = some p ∧ (p = 0 ↔ q = 0) := by
  obtain ⟨defined, rfl⟩ := eval_eq_some_iff.1 h
  obtain ⟨single, value⟩ := singleFraction_keeps e defined
  obtain ⟨numerator, zero_iff⟩ := numerator_keeps_zero single
  have atoms : (ofAtoms fun a => a ∈ e.atomList).Within e := within_ofAtoms_iff.2 fun _ ha => ha
  have polynomial := loose_numerator_singleFraction (s := polynomial fun a => a ∈ e.atomList) atoms
  exact ⟨eval_eq_some_iff.2 ⟨single, value⟩, polynomial.within fun _ => trivial, _,
    eval_eq_some_iff.2 ⟨numerator, rfl⟩, by rw [zero_iff, value]⟩

/-- Two terms over the same denominator and a fraction with a fraction below. -/
def nestedFractions : Expr :=
  let x := scalar "x"
  let y := scalar "y"
  .sum [.fraction one x, .fraction (.product [minusOne, y]) x,
    .fraction x (.sum [one, .fraction x y])]

/-- It is `1 / 2 - 4 / 2 + 2 / (1 + 2 / 4)`. -/
theorem eval_singleFraction_nestedFractions :
    nestedFractions.eval twoAndFour = some (-1 / 6) ∧
      nestedFractions.singleFraction.eval twoAndFour = some (-1 / 6) ∧
      (polynomial fun a => a ∈ nestedFractions.atomList).Within
        nestedFractions.singleFraction.numerator ∧
      ∃ p, nestedFractions.singleFraction.numerator.eval twoAndFour = some p ∧
        (p = 0 ↔ (-1 / 6 : Rat) = 0) := by
  have h : nestedFractions.eval twoAndFour = some (-1 / 6) := by cbv
  exact ⟨h, eval_singleFraction h⟩

/-! ## Monomials -/

/-- A sum of monomials keeps to a shape if each of them does. -/
theorem within_ofMonomials {ms : List Monomial} :
    s.Within (ofMonomials ms) ↔ ∀ m ∈ ms, s.Within m.toExpr := by
  rw [ofMonomials, within_sum, List.forall_mem_map]

/-- A monomial keeps to a shape if its coefficient and its factors do. -/
theorem within_toExpr {m : Monomial} :
    s.Within m.toExpr ↔ s.number m.coefficient ∧ ∀ f ∈ m.factors, s.Within f := by
  rw [Monomial.toExpr, within_product, List.forall_mem_cons, within_number]

/-- Stopping at a factor without monomials makes no difference. -/
theorem expand_product (fs : List Expr) :
    (product fs).expand = ((fs.map expand).foldl cross [.one]).map .sorted := by
  have step : ∀ (ms : List Monomial) (f : Expr),
      (if ms.isEmpty then [] else cross ms f.expand) = cross ms f.expand := by
    intro ms f
    cases ms <;> simp [cross]
  rw [expand, List.foldl_map]
  simp only [step]

/-- A property of monomials that products inherit holds of all that a product is expanded into. -/
theorem forall_mem_foldl_cross {P : Monomial → Prop} (hP : ∀ m n, P m → P n → P (m.mul n))
    {mss : List (List Monomial)} (h : ∀ ms ∈ mss, ∀ m ∈ ms, P m) {ns : List Monomial}
    (hns : ∀ m ∈ ns, P m) : ∀ m ∈ mss.foldl cross ns, P m := by
  induction mss generalizing ns with
  | nil => exact hns
  | cons ms mss ih =>
    refine ih (fun ks hks => h ks (by simp [hks])) fun m hm => ?_
    obtain ⟨k, hk, hm⟩ := List.mem_flatMap.1 hm
    obtain ⟨l, hl, rfl⟩ := List.mem_map.1 hm
    exact hP k l (hns k hk) (h ms (by simp) l hl)

/-- What holds of constants, atoms and multiplied out fractions, and of products with their factors
sorted, holds of all monomials. Before its factors are sorted a product may have less to say for
itself (`Q`). -/
theorem forall_mem_expand {P Q : Monomial → Prop}
    (number : ∀ n, s.number n → n.value ≠ 0 → P ⟨n, []⟩)
    (atom : ∀ a, s.atom a → P ⟨.ofRat 1, [.atom a]⟩)
    (fraction : ∀ n d, s.Within (.fraction n d) → (∀ m ∈ n.expand, P m) → (∀ m ∈ d.expand, P m) →
      P ⟨.ofRat 1, [.fraction n.expanded d.expanded]⟩)
    (one : Q .one) (factor : ∀ m, P m → Q m) (mul : ∀ m n, Q m → Q n → Q (m.mul n))
    (sorted : ∀ m, Q m → P m.sorted) {e : Expr} (h : s.Within e) : ∀ m ∈ e.expand, P m := by
  induction e using ind with
  | number n =>
    rw [expand]
    split
    next => simp
    next h0 => simpa using number n ((within_number n).1 h) (by simpa using h0)
  | atom a =>
    rw [expand]
    simpa using atom a ((within_atom a).1 h)
  | product fs ih =>
    rw [expand_product]
    refine List.forall_mem_map.2 fun m hm => sorted m ?_
    refine forall_mem_foldl_cross mul (List.forall_mem_map.2 fun f hf k hk => factor k ?_)
      (by simpa using one) m hm
    exact ih f hf ((within_product fs).1 h f hf) k hk
  | sum ts ih =>
    rw [expand]
    intro m hm
    obtain ⟨t, ht, hm⟩ := List.mem_flatMap.1 hm
    exact ih t ht ((within_sum ts).1 h t ht) m hm
  | fraction n d ihn ihd =>
    obtain ⟨-, hn, hd⟩ := (within_fraction n d).1 h
    rw [expand, ← expanded, ← expanded]
    simpa using fraction n d h (ihn hn) (ihd hd)

/-- Multiplying out stays within a shape. -/
theorem within_expand {e : Expr} (h : s.Within e) : ∀ m ∈ e.expand, s.Within m.toExpr := by
  have unit : ∀ {f : Expr}, s.Within f → s.Within (Monomial.toExpr ⟨.ofRat 1, [f]⟩) := fun hf =>
    within_toExpr.2 ⟨s.number_ofRat 1, by simpa using hf⟩
  refine forall_mem_expand (Q := fun m => s.Within m.toExpr) ?_ ?_ ?_ ?_ (fun _ => id) ?_ ?_ h
  · exact fun n hn _ => within_toExpr.2 ⟨hn, by simp⟩
  · exact fun a ha => unit ((within_atom a).2 ha)
  · exact fun n d h hn hd => unit ((within_fraction _ _).2 ⟨((within_fraction n d).1 h).1,
      within_ofMonomials.2 hn, within_ofMonomials.2 hd⟩)
  · exact within_toExpr.2 ⟨s.number_ofRat 1, by simp [Monomial.one]⟩
  · intro m n hm hn
    rw [within_toExpr] at hm hn ⊢
    exact ⟨s.number_ofRat _, fun f hf => (List.mem_append.1 hf).elim (hm.2 f) (hn.2 f)⟩
  · intro m hm
    rw [within_toExpr] at hm ⊢
    exact ⟨hm.1, fun f hf => hm.2 f ((sort_perm _).mem_iff.1 hf)⟩

/-- A product that stands for a monomial is that monomial, its factors being atoms and fractions in
ascending order. -/
theorem monomial?_eq_some {e : Expr} {m : Monomial} (h : e.monomial? = some m) :
    e = m.toExpr ∧ m.factors.all isFactor = true ∧ isAscending m.factors = true := by
  rw [monomial?.eq_def] at h
  split at h
  next c fs =>
    split at h
    next hc =>
      obtain rfl := Option.some.inj h
      exact ⟨rfl, by simpa using hc⟩
    next => cases h
  next => cases h

/-- The monomials read off an expression make it up. -/
theorem monomials?_eq_some {e : Expr} {ms : List Monomial} (h : e.monomials? = some ms) :
    e = ofMonomials ms ∧
      ∀ m ∈ ms, m.factors.all isFactor = true ∧ isAscending m.factors = true := by
  have key : ∀ {ts : List Expr} {ms : List Monomial}, ts.mapM monomial? = some ms →
      ts = ms.map Monomial.toExpr ∧
        ∀ m ∈ ms, m.factors.all isFactor = true ∧ isAscending m.factors = true := by
    intro ts
    induction ts with
    | nil =>
      intro ms h
      simp at h
      simp [h]
    | cons t ts ih =>
      intro ms h
      rw [List.mapM_cons, Option.bind_eq_bind, Option.bind_eq_some_iff] at h
      obtain ⟨m, hm, h⟩ := h
      rw [Option.bind_eq_bind, Option.bind_eq_some_iff] at h
      obtain ⟨ks, hks, h⟩ := h
      obtain rfl := Option.some.inj h
      obtain ⟨rfl, hts⟩ := ih hks
      obtain ⟨rfl, ht⟩ := monomial?_eq_some hm
      exact ⟨rfl, List.forall_mem_cons.2 ⟨ht, hts⟩⟩
  cases e with
  | sum ts =>
    obtain ⟨rfl, hms⟩ := key h
    exact ⟨rfl, hms⟩
  | number | atom | product | fraction => cases h

/-- The monomials that are grouped stay within the shape. -/
theorem within_monomials {e : Expr} (h : s.Within e) :
    ∀ m ∈ e.monomials?.getD e.expand, s.Within m.toExpr := by
  cases hms : e.monomials? with
  | none => exact within_expand h
  | some ms =>
    obtain ⟨rfl, -⟩ := monomials?_eq_some hms
    exact within_ofMonomials.1 h

/-- Grouping like terms stays within a shape. -/
theorem within_grouped {e : Expr} (h : s.Within e) : s.Within e.grouped := by
  rw [grouped]
  refine within_ofMonomials.2 fun m hm => within_toExpr.2 ?_
  obtain ⟨u, hu, rfl⟩ := List.mem_map.1 hm
  obtain ⟨w, hw, hwu⟩ := mem_collect hu
  obtain ⟨k, hk, rfl⟩ := List.mem_map.1 hw
  have hwu : k.factors = u.1 := hwu
  exact ⟨s.number_ofRat _, hwu ▸ (within_toExpr.1 (within_monomials h k hk)).2⟩

/-! ## Replacing atoms -/

/-- The second expression is the first with every atom replaced by an expression that `R` admits for
it. -/
inductive Rebuilt (R : Atom → Expr → Prop) : Expr → Expr → Prop
  | number (n : Numeral) : Rebuilt R (.number n) (.number n)
  | atom {a : Atom} {g : Expr} : R a g → Rebuilt R (.atom a) g
  | product {fs gs : List Expr} : List.Forall₂ (Rebuilt R) fs gs →
      Rebuilt R (.product fs) (.product gs)
  | sum {ss ts : List Expr} : List.Forall₂ (Rebuilt R) ss ts → Rebuilt R (.sum ss) (.sum ts)
  | fraction {n m d e : Expr} : Rebuilt R n m → Rebuilt R d e →
      Rebuilt R (.fraction n d) (.fraction m e)

/-- Replacing atoms by a function rebuilds the expression. -/
theorem rebuilt_mapAtoms (f : Atom → Expr) (e : Expr) :
    Rebuilt (fun a g => g = f a) e (e.mapAtoms f) := by
  induction e using ind with
  | number n =>
    rw [mapAtoms]
    exact .number n
  | atom a =>
    rw [mapAtoms]
    exact .atom rfl
  | product fs ih =>
    rw [mapAtoms]
    exact .product (List.forall₂_map_right_iff.2 (List.forall₂_same.2 ih))
  | sum ts ih =>
    rw [mapAtoms]
    exact .sum (List.forall₂_map_right_iff.2 (List.forall₂_same.2 ih))
  | fraction n d ihn ihd =>
    rw [mapAtoms]
    exact .fraction ihn ihd

/-- What a relation implies for the members of a list holds pointwise. -/
theorem forall₂_of_mem {α β : Type*} {R Q : α → β → Prop} {as : List α} {bs : List β}
    (h : List.Forall₂ R as bs) (hQ : ∀ a ∈ as, ∀ b, R a b → Q a b) : List.Forall₂ Q as bs := by
  induction h with
  | nil => exact .nil
  | cons hab _ ih =>
    rw [List.forall_mem_cons] at hQ
    exact .cons (hQ.1 _ hab) (ih hQ.2)

/-- Replacing atoms stays within a shape if the replacements do. -/
theorem Rebuilt.within {R : Atom → Expr → Prop} {p q : Atom → Prop}
    (hR : ∀ a g, p a → R a g → (ofAtoms q).Within g) {e f : Expr} (h : Rebuilt R e f)
    (he : (ofAtoms p).Within e) : (ofAtoms q).Within f := by
  have members : ∀ {es fs : List Expr},
      List.Forall₂ (fun _ f => (ofAtoms q).Within f) es fs → ∀ f ∈ fs, (ofAtoms q).Within f := by
    intro es fs h
    induction h with
    | nil => simp
    | cons hf _ ih => exact List.forall_mem_cons.2 ⟨hf, ih⟩
  induction e using ind generalizing f with
  | number n =>
    cases h
    exact (within_number n).2 trivial
  | atom a =>
    cases h with
    | atom h => exact hR a f ((within_atom a).1 he) h
  | product fs ih =>
    cases h with
    | product h =>
      rw [within_product] at he ⊢
      exact members (forall₂_of_mem h fun e hm f hf => ih e hm hf (he e hm))
  | sum ts ih =>
    cases h with
    | sum h =>
      rw [within_sum] at he ⊢
      exact members (forall₂_of_mem h fun e hm f hf => ih e hm hf (he e hm))
  | fraction n d ihn ihd =>
    cases h with
    | fraction hn hd =>
      obtain ⟨-, hn', hd'⟩ := (within_fraction n d).1 he
      exact (within_fraction _ _).2 ⟨trivial, ihn hn hn', ihd hd hd'⟩

/-- Replacing atoms keeps the value of an expression if each replacement keeps that of its atom. -/
theorem Rebuilt.keeps {F : Type*} [Field F] {v : Atom → Option F} {R : Atom → Expr → Prop}
    {p : Atom → Prop} (hR : ∀ a g, p a → R a g → Keeps v (Expr.atom a) g) {e f : Expr}
    (h : Rebuilt R e f) (he : (ofAtoms p).Within e) : Keeps v e f := by
  have members : ∀ {es fs : List Expr}, List.Forall₂ (Keeps v) es fs → (∀ e ∈ es, e.DefinedAt v) →
      (∀ f ∈ fs, f.DefinedAt v) ∧ fs.map (value v) = es.map (value v) := by
    intro es fs h
    induction h with
    | nil => simp
    | cons hf _ ih =>
      intro hes
      rw [List.forall_mem_cons] at hes
      obtain ⟨hd, hv⟩ := hf hes.1
      obtain ⟨hds, hvs⟩ := ih hes.2
      exact ⟨List.forall_mem_cons.2 ⟨hd, hds⟩, by rw [List.map_cons, List.map_cons, hv, hvs]⟩
  induction e using ind generalizing f with
  | number n =>
    cases h
    exact .refl _
  | atom a =>
    cases h with
    | atom h => exact hR a f ((within_atom a).1 he) h
  | product fs ih =>
    cases h with
    | product h =>
      rw [within_product] at he
      rw [Keeps, definedAt_product, definedAt_product, value_product, value_product]
      intro hd
      obtain ⟨hds, hvs⟩ := members (forall₂_of_mem h fun e hm f hf => ih e hm hf (he e hm)) hd
      exact ⟨hds, by rw [hvs]⟩
  | sum ts ih =>
    cases h with
    | sum h =>
      rw [within_sum] at he
      rw [Keeps, definedAt_sum, definedAt_sum, value_sum, value_sum]
      intro hd
      obtain ⟨hds, hvs⟩ := members (forall₂_of_mem h fun e hm f hf => ih e hm hf (he e hm)) hd
      exact ⟨hds, by rw [hvs]⟩
  | fraction n d ihn ihd =>
    cases h with
    | fraction hn hd =>
      obtain ⟨-, hn', hd'⟩ := (within_fraction n d).1 he
      rw [Keeps, definedAt_fraction, definedAt_fraction, value_fraction, value_fraction]
      rintro ⟨hn₀, hd₀, hne⟩
      obtain ⟨hnd, hnv⟩ := ihn hn hn' hn₀
      obtain ⟨hdd, hdv⟩ := ihd hd hd' hd₀
      rw [hnv, hdv]
      exact ⟨⟨hnd, hdd, hne⟩, rfl⟩

/-- Where the rebuilt expression is defined, so is all that atoms are replaced by. -/
theorem Rebuilt.restrict {F : Type*} [Field F] {v : Atom → Option F} {R : Atom → Expr → Prop}
    {e f : Expr} (h : Rebuilt R e f) (hf : f.DefinedAt v) :
    Rebuilt (fun a g => R a g ∧ g.DefinedAt v) e f := by
  have members : ∀ {es fs : List Expr}, List.Forall₂ (Rebuilt R) es fs →
      (∀ f ∈ fs, f.DefinedAt v) →
      List.Forall₂ (fun e f => Rebuilt R e f ∧ f.DefinedAt v) es fs := by
    intro es fs h
    induction h with
    | nil => exact fun _ => .nil
    | cons hr _ ih =>
      intro hfs
      rw [List.forall_mem_cons] at hfs
      exact .cons ⟨hr, hfs.1⟩ (ih hfs.2)
  induction e using ind generalizing f with
  | number n =>
    cases h
    exact .number n
  | atom a =>
    cases h with
    | atom h => exact .atom ⟨h, hf⟩
  | product fs ih =>
    cases h with
    | product h =>
      exact .product (forall₂_of_mem (members h ((definedAt_product _ _).1 hf))
        fun e hm f hr => ih e hm hr.1 hr.2)
  | sum ts ih =>
    cases h with
    | sum h =>
      exact .sum (forall₂_of_mem (members h ((definedAt_sum _ _).1 hf))
        fun e hm f hr => ih e hm hr.1 hr.2)
  | fraction n d ihn ihd =>
    cases h with
    | fraction hn hd =>
      obtain ⟨hn', hd', -⟩ := (definedAt_fraction _ _ _).1 hf
      exact .fraction (ihn hn hn') (ihd hd hd')

end Expr

end AreaMethod
