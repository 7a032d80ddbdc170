import AreaMethod.Expr.Eval
import Mathlib

/-!
# Values in a field

`Expr.eval` gives an expression a rational value, or none. Proofs about the passes need two more
things: values in other fields, because a figure in general position has coordinates that are
rational functions, and a value that is there to calculate with before it is known to be defined.
So a value comes here in two parts, the total `value` and the proposition `DefinedAt`, and over the
rationals the two together are `eval` (`eval_eq_some_iff`).

`Keeps v e f` says that `f` has the value of `e` wherever `e` has one. Every pass that only rewrites
an expression keeps its value in this sense; it may well give a value to more expressions.
-/

namespace AreaMethod.Expr

/-- Induction over an expression, with a hypothesis for each member of a sum or a product. -/
@[elab_as_elim]
theorem ind {motive : Expr → Prop} (number : ∀ n, motive (Expr.number n))
    (atom : ∀ a, motive (Expr.atom a))
    (product : ∀ fs, (∀ f ∈ fs, motive f) → motive (Expr.product fs))
    (sum : ∀ ts, (∀ t ∈ ts, motive t) → motive (Expr.sum ts))
    (fraction : ∀ n d, motive n → motive d → motive (Expr.fraction n d)) (e : Expr) : motive e := by
  refine @Expr.rec motive (fun es => ∀ e ∈ es, motive e) number atom product sum fraction ?_ ?_ e
  · intro e he
    cases he
  · intro e es he hes f hf
    rcases List.mem_cons.1 hf with rfl | hf
    · exact he
    · exact hes f hf

section
variable {F : Type*} [Field F] (v : Atom → Option F)

/-- The value of an expression, with zero for atoms without a value and for quotients by zero. -/
def value : Expr → F
  | number n => (n.value : F)
  | atom a => (v a).getD 0
  | product fs => (fs.map value).prod
  | sum ts => (ts.map value).sum
  | fraction n d => n.value / d.value

/-- Does every atom have a value, and is no denominator zero? -/
def DefinedAt : Expr → Prop
  | number _ => True
  | atom a => (v a).isSome
  | product fs => ∀ f ∈ fs, f.DefinedAt
  | sum ts => ∀ t ∈ ts, t.DefinedAt
  | fraction n d => n.DefinedAt ∧ d.DefinedAt ∧ d.value v ≠ 0

@[simp] theorem value_number (n : Numeral) : (number n).value v = (n.value : F) := by
  rw [value]

@[simp] theorem value_rational (q : Rat) : (rational q).value v = (q : F) :=
  value_number v _

@[simp] theorem value_atom (a : Atom) : (atom a).value v = (v a).getD 0 := by
  rw [value]

@[simp] theorem value_product (fs : List Expr) :
    (product fs).value v = (fs.map (value v)).prod := by
  rw [value]

@[simp] theorem value_sum (ts : List Expr) : (sum ts).value v = (ts.map (value v)).sum := by
  rw [value]

@[simp] theorem value_fraction (n d : Expr) :
    (fraction n d).value v = n.value v / d.value v := by
  rw [value]

@[simp] theorem value_zero : zero.value v = 0 := by
  simp [zero]

@[simp] theorem value_one : one.value v = 1 := by
  simp [one]

@[simp] theorem value_minusOne : minusOne.value v = -1 := by
  simp [minusOne]

@[simp] theorem value_add (e f : Expr) : (e + f).value v = e.value v + f.value v := by
  show (sum [e, f]).value v = _
  simp

@[simp] theorem value_mul (e f : Expr) : (e * f).value v = e.value v * f.value v := by
  show (product [e, f]).value v = _
  simp

@[simp] theorem value_neg (e : Expr) : (-e).value v = -e.value v := by
  show (product [minusOne, e]).value v = _
  simp

@[simp] theorem value_sub (e f : Expr) : (e - f).value v = e.value v - f.value v := by
  show (sum [e, -f]).value v = _
  simp [sub_eq_add_neg]

@[simp] theorem value_div (e f : Expr) : (e / f).value v = e.value v / f.value v :=
  value_fraction v e f

@[simp] theorem definedAt_number (n : Numeral) : (number n).DefinedAt v := by
  rw [DefinedAt]; trivial

@[simp] theorem definedAt_rational (q : Rat) : (rational q).DefinedAt v :=
  definedAt_number v _

@[simp] theorem definedAt_atom (a : Atom) : (atom a).DefinedAt v ↔ (v a).isSome := by
  rw [DefinedAt]

@[simp] theorem definedAt_product (fs : List Expr) :
    (product fs).DefinedAt v ↔ ∀ f ∈ fs, f.DefinedAt v := by
  rw [DefinedAt]

@[simp] theorem definedAt_sum (ts : List Expr) :
    (sum ts).DefinedAt v ↔ ∀ t ∈ ts, t.DefinedAt v := by
  rw [DefinedAt]

@[simp] theorem definedAt_fraction (n d : Expr) :
    (fraction n d).DefinedAt v ↔ n.DefinedAt v ∧ d.DefinedAt v ∧ d.value v ≠ 0 := by
  rw [DefinedAt]

@[simp] theorem definedAt_zero : zero.DefinedAt v := definedAt_rational v 0

@[simp] theorem definedAt_one : one.DefinedAt v := definedAt_rational v 1

@[simp] theorem definedAt_minusOne : minusOne.DefinedAt v := definedAt_rational v (-1)

@[simp] theorem definedAt_add (e f : Expr) :
    (e + f).DefinedAt v ↔ e.DefinedAt v ∧ f.DefinedAt v := by
  show (sum [e, f]).DefinedAt v ↔ _
  simp

@[simp] theorem definedAt_mul (e f : Expr) :
    (e * f).DefinedAt v ↔ e.DefinedAt v ∧ f.DefinedAt v := by
  show (product [e, f]).DefinedAt v ↔ _
  simp

@[simp] theorem definedAt_neg (e : Expr) : (-e).DefinedAt v ↔ e.DefinedAt v := by
  show (product [minusOne, e]).DefinedAt v ↔ _
  simp

@[simp] theorem definedAt_sub (e f : Expr) :
    (e - f).DefinedAt v ↔ e.DefinedAt v ∧ f.DefinedAt v := by
  show (sum [e, -f]).DefinedAt v ↔ _
  simp

@[simp] theorem definedAt_div (e f : Expr) :
    (e / f).DefinedAt v ↔ e.DefinedAt v ∧ f.DefinedAt v ∧ f.value v ≠ 0 :=
  definedAt_fraction v e f

end

section
variable {F : Type*} [Field F] {v : Atom → Option F}

/-- `f` has the value of `e` wherever `e` has one. -/
def Keeps (v : Atom → Option F) (e f : Expr) : Prop :=
  e.DefinedAt v → f.DefinedAt v ∧ f.value v = e.value v

/-- An expression keeps its own value. -/
theorem Keeps.refl (e : Expr) : Keeps v e e := fun h => ⟨h, rfl⟩

/-- Values are kept step by step. -/
theorem Keeps.trans {e f g : Expr} (hef : Keeps v e f) (hfg : Keeps v f g) : Keeps v e g := by
  intro he
  obtain ⟨hf, hvf⟩ := hef he
  obtain ⟨hg, hvg⟩ := hfg hf
  exact ⟨hg, hvg.trans hvf⟩

/-- Values depend on those of the atoms that occur. -/
theorem value_congr {v w : Atom → Option F} {e : Expr} (h : ∀ a ∈ e.atomList, v a = w a) :
    e.value v = e.value w ∧ (e.DefinedAt v ↔ e.DefinedAt w) := by
  induction e using ind with
  | number n => simp
  | atom a => simp [h a (by simp [atomList])]
  | product fs ih =>
    have each := fun f hf => ih f hf fun a ha => h a (by
      rw [atomList]
      exact List.mem_flatMap.2 ⟨f, hf, ha⟩)
    rw [value_product, value_product, definedAt_product, definedAt_product]
    exact ⟨congrArg List.prod (List.map_congr_left fun f hf => (each f hf).1),
      forall₂_congr fun f hf => (each f hf).2⟩
  | sum ts ih =>
    have each := fun t ht => ih t ht fun a ha => h a (by
      rw [atomList]
      exact List.mem_flatMap.2 ⟨t, ht, ha⟩)
    rw [value_sum, value_sum, definedAt_sum, definedAt_sum]
    exact ⟨congrArg List.sum (List.map_congr_left fun t ht => (each t ht).1),
      forall₂_congr fun t ht => (each t ht).2⟩
  | fraction n d ihn ihd =>
    rw [atomList] at h
    obtain ⟨hn, hn'⟩ := ihn fun a ha => h a (List.mem_append_left _ ha)
    obtain ⟨hd, hd'⟩ := ihd fun a ha => h a (List.mem_append_right _ ha)
    simp only [value_fraction, definedAt_fraction, hn, hd, hn', hd', and_self]

/-- What a tree shows to be zero at sight has the value zero. -/
theorem value_eq_zero_of_isZero {e : Expr} (h : e.isZero) : e.value v = 0 := by
  induction e using ind with
  | number n => simp_all [isZero]
  | atom a => simp [isZero] at h
  | product fs ih =>
    rw [isZero_product, List.any_eq_true] at h
    obtain ⟨f, hf, hz⟩ := h
    rw [value_product, List.prod_eq_zero_iff]
    exact List.mem_map.2 ⟨f, hf, ih f hf hz⟩
  | sum ts ih =>
    rw [isZero, List.isEmpty_iff] at h
    simp [h]
  | fraction n d ihn ihd =>
    rw [isZero] at h
    simp [ihn h]

end

/-! ## The rationals -/

/-- An operation has a result if and only if both operands have values. -/
theorem lift_eq_some_iff {op : Rat → Rat → Rat} {x y : Option Rat} {q : Rat} :
    lift op x y = some q ↔ ∃ a b, x = some a ∧ y = some b ∧ op a b = q := by
  cases x <;> cases y <;> simp [lift]

/-- A quotient has a value if both parts have one and the second is not zero. -/
theorem quotient_eq_some_iff {x y : Option Rat} {q : Rat} :
    quotient x y = some q ↔ ∃ a b, x = some a ∧ y = some b ∧ b ≠ 0 ∧ a / b = q := by
  cases x with
  | none => simp [quotient]
  | some a =>
    cases y with
    | none => simp [quotient]
    | some b => by_cases hb : b = 0 <;> simp [quotient, hb]

/-- Over the rationals, an expression has the value `q` if it is defined and comes to `q`. -/
theorem eval_eq_some_iff {v : Atom → Option Rat} {e : Expr} {q : Rat} :
    e.eval v = some q ↔ e.DefinedAt v ∧ e.value v = q := by
  induction e using ind generalizing q with
  | number n => simp [eval]
  | atom a => cases h : v a <;> simp [eval, h]
  | product fs ih =>
    rw [eval, definedAt_product, value_product]
    induction fs generalizing q with
    | nil => simp
    | cons f fs ihs =>
      have tail := fun {r} => @ihs (fun g hg => ih g (by simp [hg])) r
      simp only [List.map_cons, List.foldr_cons, lift_eq_some_iff, tail, ih f (by simp),
        List.forall_mem_cons, List.prod_cons]
      constructor
      · rintro ⟨a, b, ⟨hf, rfl⟩, ⟨hfs, rfl⟩, rfl⟩
        exact ⟨⟨hf, hfs⟩, rfl⟩
      · rintro ⟨⟨hf, hfs⟩, rfl⟩
        exact ⟨_, _, ⟨hf, rfl⟩, ⟨hfs, rfl⟩, rfl⟩
  | sum ts ih =>
    rw [eval, definedAt_sum, value_sum]
    induction ts generalizing q with
    | nil => simp
    | cons t ts ihs =>
      have tail := fun {r} => @ihs (fun g hg => ih g (by simp [hg])) r
      simp only [List.map_cons, List.foldr_cons, lift_eq_some_iff, tail, ih t (by simp),
        List.forall_mem_cons, List.sum_cons]
      constructor
      · rintro ⟨a, b, ⟨ht, rfl⟩, ⟨hts, rfl⟩, rfl⟩
        exact ⟨⟨ht, hts⟩, rfl⟩
      · rintro ⟨⟨ht, hts⟩, rfl⟩
        exact ⟨_, _, ⟨ht, rfl⟩, ⟨hts, rfl⟩, rfl⟩
  | fraction n d ihn ihd =>
    simp only [eval, quotient_eq_some_iff, ihn, ihd, definedAt_fraction, value_fraction]
    constructor
    · rintro ⟨a, b, ⟨hn, rfl⟩, ⟨hd, rfl⟩, hb, rfl⟩
      exact ⟨⟨hn, hd, hb⟩, rfl⟩
    · rintro ⟨⟨hn, hd, hb⟩, rfl⟩
      exact ⟨_, _, ⟨hn, rfl⟩, ⟨hd, rfl⟩, hb, rfl⟩

end AreaMethod.Expr
