import AreaMethod.Proofs.Spelling

/-!
# The order of expressions is a total order

Expressions, optional expressions and lists of expressions are compared by codes of theirs
(`Expr.ByCode`), where constants other than zero have positive denominators. The order of codes is a
total order, so the comparisons are total orders there (`ByCode.totalOrder`), and like terms are
merged if their keys are the same tree and not otherwise (`ByCode.merges`). Of all expressions the
comparison still is reflexive, antisymmetric and total, and tells different trees apart. It is not
transitive once the denominators of constants can be negative (`Expr.halves_go_round`).

Constants come in the order of their values, and names in that of the bytes they are stored as
(`Utf8.compare_eq_compare_bytes`). All is put together in `Expr.cmp_totalOrder`.
-/

namespace AreaMethod

open Std (OrientedCmp TransCmp ReflCmp)

/-! ## Names

A text is stored as the encodings of its characters, one to four bytes each. The first byte of an
encoding is the greater the longer it is, and encodings of the same length are numbers written to
base 64, so the greater of two characters has the greater encoding.
-/

namespace Utf8

open String (utf8EncodeChar)

/-- The bytes of a text are those of its characters. -/
theorem bytes_eq_flatMap (s : String) :
    s.toUTF8.data.toList = s.toList.flatMap utf8EncodeChar := by
  rw [String.toUTF8_eq_toByteArray, ← String.utf8Encode_toList, List.utf8Encode,
    List.data_toByteArray]

/-- Bytes are compared like the numbers they stand for. -/
theorem compare_ofNat {m n : Nat} (hm : m < 256) (hn : n < 256) :
    compare (UInt8.ofNat m) (UInt8.ofNat n) = compare m n := by
  rw [UInt8.compare_eq_toNat_compare_toNat, UInt8.toNat_ofNat_of_lt' hm,
    UInt8.toNat_ofNat_of_lt' hn]

/-- The number of a character is below `0x110000`. -/
theorem toNat_val_lt (c : Char) : c.val.toNat < 1114112 := by
  have := c.valid
  simp only [UInt32.isValidChar, Nat.isValidChar] at this
  omega

/-- The greater of two characters has the greater encoding, whatever follows. -/
theorem compare_utf8EncodeChar_of_lt {a b : Char} (h : a < b) (xs ys : List UInt8) :
    compare (utf8EncodeChar a ++ xs) (utf8EncodeChar b ++ ys) = .lt := by
  have hlt : a.val.toNat < b.val.toNat := h
  have ha := toNat_val_lt a
  have hb := toNat_val_lt b
  simp only [utf8EncodeChar]
  generalize a.val.toNat = m at *
  generalize b.val.toNat = n at *
  -- the digits to base 64, from the last one on, down to the first that tells the numbers apart
  have last : m / 64 < n / 64 ∨ m / 64 = n / 64 ∧ m % 64 < n % 64 := by omega
  have third : m / 64 < n / 64 →
      m / 4096 < n / 4096 ∨ m / 4096 = n / 4096 ∧ m / 64 % 64 < n / 64 % 64 := by omega
  have second : m / 4096 < n / 4096 →
      m / 262144 < n / 262144 ∨ m / 262144 = n / 262144 ∧ m / 4096 % 64 < n / 4096 % 64 := by omega
  have first : m / 262144 % 8 = m / 262144 ∧ n / 262144 % 8 = n / 262144 := by omega
  split_ifs <;> try omega
  all_goals
    simp (disch := omega) only [List.cons_append, List.nil_append, List.compare_cons_cons,
      compare_ofNat, Ordering.then_eq_lt, Nat.compare_eq_lt, Nat.compare_eq_eq]
    omega

/-- What two lists of bytes begin with in common does not count. -/
theorem compare_append_left (zs xs ys : List UInt8) :
    compare (zs ++ xs) (zs ++ ys) = compare xs ys := by
  induction zs with
  | nil => rfl
  | cons z zs ih =>
    rw [List.cons_append, List.cons_append, List.compare_cons_cons, ih,
      (ReflCmp.compare_self : compare z z = .eq), Ordering.eq_then]

/-- The greater of two texts has the greater encoding. -/
theorem compare_flatMap_utf8EncodeChar_of_lt {s t : List Char} (h : s < t) :
    compare (s.flatMap utf8EncodeChar) (t.flatMap utf8EncodeChar) = .lt := by
  induction h with
  | @nil c t =>
    obtain ⟨b, bs, hb⟩ := List.exists_cons_of_ne_nil (String.utf8EncodeChar_ne_nil (c := c))
    rw [List.flatMap_nil, List.flatMap_cons, hb]
    exact List.compare_nil_cons
  | rel hab => exact compare_utf8EncodeChar_of_lt hab _ _
  | cons _ ih => rw [List.flatMap_cons, List.flatMap_cons, compare_append_left, ih]

/-- Texts are compared by their bytes. -/
theorem compare_eq_compare_bytes (s t : String) :
    compare s t = compare s.toUTF8.data.toList t.toUTF8.data.toList := by
  have below : ∀ {s t : String}, s < t →
      compare s.toUTF8.data.toList t.toUTF8.data.toList = .lt := by
    intro s t h
    rw [bytes_eq_flatMap, bytes_eq_flatMap]
    exact compare_flatMap_utf8EncodeChar_of_lt (String.lt_iff_toList_lt.1 h)
  rcases lt_trichotomy s t with h | rfl | h
  · rw [below h]
    exact compare_lt_iff_lt.2 h
  · simp
  · have turned : compare s.toUTF8.data.toList t.toUTF8.data.toList =
        (compare t.toUTF8.data.toList s.toUTF8.data.toList).swap := OrientedCmp.eq_swap
    rw [turned, below h]
    exact compare_gt_iff_gt.2 h

end Utf8

/-! ## Keys and their codes -/

namespace Expr

open Shape

section
variable {κ μ : Type*}

/-- The comparison is a total order of the keys in `S`, and but for transitivity of all keys. Keys
compare equal if and only if they are the same tree. -/
structure TotalOrder (cmp : κ → κ → Ordering) (S : κ → Prop) (tree : κ → μ) : Prop where
  refl : ∀ a, (cmp a a).isLE
  antisymm : ∀ a b, (cmp a b).isLE → (cmp b a).isLE → tree a = tree b
  total : ∀ a b, (cmp a b).isLE ∨ (cmp b a).isLE
  trans : ∀ a b c, S a → S b → S c → (cmp a b).isLE → (cmp b c).isLE → (cmp a c).isLE
  eq_iff : ∀ a b, cmp a b = .eq ↔ tree a = tree b

/-- The coefficients of the terms whose keys compare equal to a given one. -/
def coefficients (cmp : κ → κ → Ordering) (k : κ) (ts : List (κ × Rat)) : List Rat :=
  (ts.filter fun t => cmp t.1 k == .eq).map (·.2)

/-- The like terms are merged and no others: they come in strictly ascending order, and there is one
for each key, with the sum of the coefficients of that key, unless that is zero. -/
structure Merges (cmp : κ → κ → Ordering) (ts : List (κ × Rat)) : Prop where
  ascending : (collect cmp ts).Pairwise fun s t => cmp s.1 t.1 = .lt
  coefficients_eq : ∀ k,
    coefficients cmp k (collect cmp ts) = [(coefficients cmp k ts).sum].filter (· != 0)

/-- Keys compare equal if they have the same code, and those in `S` are compared by their codes. -/
structure ByCode (cmp : κ → κ → Ordering) (S : κ → Prop) (codeOf : κ → List Token) : Prop where
  eq_iff : ∀ a b, cmp a b = .eq ↔ codeOf a = codeOf b
  eq_cmpCode : ∀ a b, S a → S b → cmp a b = cmpCode (codeOf a) (codeOf b)

variable {cmp : κ → κ → Ordering} {S : κ → Prop} {codeOf : κ → List Token}

/-- A comparison by codes is a total order, codes being totally ordered. -/
theorem ByCode.totalOrder [OrientedCmp cmp] (h : ByCode cmp S codeOf) {tree : κ → μ}
    (same : ∀ a b, codeOf a = codeOf b ↔ tree a = tree b) : TotalOrder cmp S tree where
  refl a := by
    rw [(h.eq_iff a a).2 rfl]
    rfl
  antisymm a b hab hba := (same a b).1 ((h.eq_iff a b).1 (OrientedCmp.isLE_antisymm hab hba))
  total a b := by simpa using isLE_total cmp a b
  trans a b c ha hb hc hab hbc := by
    rw [h.eq_cmpCode a b ha hb] at hab
    rw [h.eq_cmpCode b c hb hc] at hbc
    rw [h.eq_cmpCode a c ha hc]
    exact TransCmp.isLE_trans hab hbc
  eq_iff a b := (h.eq_iff a b).trans (same a b)

/-- The sum of the coefficients of a key as one over all terms. -/
theorem sum_coefficients (k : κ) (ts : List (κ × Rat)) : (coefficients cmp k ts).sum =
    (ts.map fun t => t.2 * if cmp t.1 k == .eq then 1 else 0).sum := by
  induction ts with
  | nil => rfl
  | cons t ts ih =>
    rw [coefficients] at ih
    rw [coefficients, List.filter_cons, List.map_cons, List.sum_cons, ← ih]
    split <;> simp

/-- Numbers of which there is at most one, and that not zero, are what is left of their sum. -/
theorem eq_filter_sum {qs : List Rat} (single : qs.Pairwise fun _ _ => False)
    (nonzero : ∀ q ∈ qs, q ≠ 0) : qs = [qs.sum].filter (· != 0) := by
  rcases qs with _ | ⟨q, _ | ⟨r, qs⟩⟩
  · rfl
  · have hq : q ≠ 0 := nonzero q (by simp)
    simp [hq]
  · exact ((List.pairwise_cons.1 single).1 r (by simp)).elim

/-- Collecting keeps the sum of the coefficients of each key, since keys that compare equal are
alike to it. -/
theorem ByCode.sum_coefficients_collect (h : ByCode cmp S codeOf) (k : κ) (ts : List (κ × Rat)) :
    (coefficients cmp k (collect cmp ts)).sum = (coefficients cmp k ts).sum := by
  have alike : ∀ a b, cmp a b = .eq →
      (if cmp a k == .eq then (1 : Rat) else 0) = if cmp b k == .eq then 1 else 0 := by
    intro a b hab
    have hk : cmp a k = .eq ↔ cmp b k = .eq := by
      rw [h.eq_iff, h.eq_iff, (h.eq_iff a b).1 hab]
    simp only [beq_iff_eq, hk]
  have sums := sum_collect alike ts
  simp only [Rat.cast_id] at sums
  rw [sum_coefficients, sum_coefficients, sums]

/-- Terms with keys in `S` are merged if their keys compare equal, and not otherwise. -/
theorem ByCode.merges (h : ByCode cmp S codeOf) {ts : List (κ × Rat)} (hts : ∀ t ∈ ts, S t.1) :
    Merges cmp ts := by
  have ascending : (collect cmp ts).Pairwise fun s t => cmp s.1 t.1 = .lt :=
    pairwise_collect_of_code cmpCode codeOf fun s hs t ht => h.eq_cmpCode _ _ (hts s hs) (hts t ht)
  refine ⟨ascending, fun k => ?_⟩
  -- two terms with keys like `k` would not be in strictly ascending order
  have single : (coefficients cmp k (collect cmp ts)).Pairwise fun _ _ => False := by
    refine List.pairwise_map.2 ((ascending.filter _).imp_of_mem fun {s t} hs ht hlt => ?_)
    have hs := (h.eq_iff _ _).1 (beq_iff_eq.1 (List.mem_filter.1 hs).2)
    have ht := (h.eq_iff _ _).1 (beq_iff_eq.1 (List.mem_filter.1 ht).2)
    rw [(h.eq_iff _ _).2 (hs.trans ht.symm)] at hlt
    cases hlt
  have nonzero : ∀ q ∈ coefficients cmp k (collect cmp ts), q ≠ 0 := by
    intro q hq
    obtain ⟨t, ht, rfl⟩ := List.mem_map.1 hq
    exact ne_zero_of_mem_collect (List.mem_filter.1 ht).1
  rw [eq_filter_sum single nonzero, h.sum_coefficients_collect]

end

/-! ## Expressions -/

/-- What coefficients multiply compares equal if it is the same in lowest terms. -/
theorem cmpOption_eq_iff {r s : Option Expr} :
    cmpOption r s = .eq ↔ r.map reduced = s.map reduced := by
  cases r <;> cases s <;> simp [cmpOption, cmp_eq_iff]

/-- Factors have the same code if they are the same in lowest terms. -/
theorem code_product_eq_iff {es fs : List Expr} :
    (product es).code = (product fs).code ↔ es.map reduced = fs.map reduced := by
  rw [code_eq_code_iff, reduced_product, reduced_product, product.injEq]

section
variable {S : Expr → Prop} (h : ∀ e, S e → positive.Within e)
include h

/-- Expressions without negative denominators are compared by their codes. -/
theorem byCode_cmp : ByCode cmp S code where
  eq_iff _ _ := cmp_eq_iff.trans code_eq_code_iff.symm
  eq_cmpCode e f he hf := cmp_eq_cmpCode_of_positive (h e he) (h f hf)

/-- What coefficients multiply is compared by its code. -/
theorem byCode_cmpOption : ByCode cmpOption (fun r => ∀ e ∈ r, S e) restCode where
  eq_iff _ _ := cmpOption_eq_iff.trans restCode_eq_iff.symm
  eq_cmpCode _ _ hr hs :=
    cmpOption_eq_cmpCode_of_positive (fun e he => h e (hr e he)) fun e he => h e (hs e he)

/-- Lists of factors are compared by the codes of their products. -/
theorem byCode_cmpList :
    ByCode cmpList (fun es => ∀ e ∈ es, S e) (fun es => (product es).code) where
  eq_iff _ _ := cmpList_eq_iff.trans code_product_eq_iff.symm
  eq_cmpCode _ _ hes hfs :=
    cmpList_eq_cmpCode (fun e he => h e (hes e he)) fun e he => h e (hfs e he)

/-- Sorting puts expressions in ascending order. -/
theorem sort_ascending {es : List Expr} (hes : ∀ e ∈ es, S e) :
    (sort es).Pairwise fun e f => le e f = true := by
  have within : ∀ e ∈ sort es, positive.Within e := fun e he =>
    h e (hes e ((sort_perm es).mem_iff.1 he))
  refine (pairwise_sort fun e he => h e (hes e he)).imp_of_mem fun {e f} he hf hle => ?_
  rwa [le, cmp_eq_cmpCode_of_positive (within e he) (within f hf)]

/-- The order in which they come before does not matter. -/
theorem map_reduced_sort_of_perm {es fs : List Expr} (hes : ∀ e ∈ es, S e) (hp : fs.Perm es) :
    (sort fs).map reduced = (sort es).map reduced :=
  map_reduced_eq_of_map_code_eq (map_code_sort_of_perm (fun e he => h e (hes e he))
    (fun f hf => h f (hes f (hp.mem_iff.1 hf))) (hp.map code))

end

/-- The comparisons of expressions, optional expressions and lists of expressions are reflexive,
antisymmetric and total, and two compare equal if and only if they are the same tree. They are
transitive among expressions whose constants other than zero have positive denominators. Of those
the constants come in the order of their values, sorting leads to one ascending list whatever order
the members come in, and like terms are merged if and only if their keys are the same tree. Names
come in the order of their bytes. -/
theorem cmp_totalOrder {S : Expr → Prop} (h : ∀ e, S e → positive.Within e) :
    TotalOrder cmp S reduced ∧
      TotalOrder cmpOption (fun r => ∀ e ∈ r, S e) (Option.map reduced) ∧
      TotalOrder cmpList (fun es => ∀ e ∈ es, S e) (List.map reduced) ∧
      (∀ m n : Numeral, S (number m) → S (number n) →
        cmp (number m) (number n) = compare m.value n.value) ∧
      (∀ s t : String, cmp (scalar s) (scalar t) =
        compare s.toUTF8.data.toList t.toUTF8.data.toList) ∧
      (∀ es fs : List Expr, (∀ e ∈ es, S e) → fs.Perm es →
        (sort es).Perm es ∧ ((sort es).Pairwise fun e f => le e f = true) ∧
          (sort fs).map reduced = (sort es).map reduced) ∧
      (∀ ts : List (Option Expr × Rat), (∀ t ∈ ts, ∀ e ∈ t.1, S e) → Merges cmpOption ts) ∧
      ∀ ts : List (List Expr × Rat), (∀ t ∈ ts, ∀ e ∈ t.1, S e) → Merges cmpList ts := by
  refine ⟨(byCode_cmp h).totalOrder fun _ _ => code_eq_code_iff,
    (byCode_cmpOption h).totalOrder fun _ _ => restCode_eq_iff,
    (byCode_cmpList h).totalOrder fun _ _ => code_product_eq_iff, fun m n hm hn => ?_,
    fun s t => ?_,
    fun es fs hes hp => ⟨sort_perm es, sort_ascending h hes, map_reduced_sort_of_perm h hes hp⟩,
    fun ts hts => (byCode_cmpOption h).merges hts, fun ts hts => (byCode_cmpList h).merges hts⟩
  · rw [cmp]
    exact Numeral.cmp_eq_compare ((within_number m).1 (h _ hm)) ((within_number n).1 (h _ hn))
  · rw [scalar, scalar, cmp, Atom.cmp]
    exact Utf8.compare_eq_compare_bytes s t

/-- `x` over a half that is written `2/4`. -/
def overHalf : Expr := fraction (scalar "x") (number ⟨1 / 2, 2, by decide⟩)

/-- Terms in `x` over a half, however it is written, in `x` and in no atom. -/
def termsOverHalf : List (Option Expr × Rat) :=
  [(some overHalf, 1), (none, 5), (some (scalar "x"), 2), (some overHalf.reduced, 3), (none, -5)]

/-- The half comes before `x` and that before `x` over the half, so the half comes before it too.
The two spellings of the half make like terms, and the terms in no atom cancel. -/
theorem cmp_totalOrder_overHalf :
    (positive.Within overHalf ∧ le (rational (1 / 2)) overHalf = true) ∧
      (∀ t ∈ termsOverHalf, ∀ e ∈ t.1, positive.Within e) ∧
      coefficients cmpOption (some overHalf) (collect cmpOption termsOverHalf) = [4] ∧
      coefficients cmpOption none (collect cmpOption termsOverHalf) = [] := by
  have atom : positive.Within (scalar "x") := (within_atom _).2 trivial
  have within : positive.Within overHalf :=
    (within_fraction _ _).2 ⟨trivial, atom, (within_number _).2 (.inl (by simp [Numeral.den]))⟩
  have terms : ∀ t ∈ termsOverHalf, ∀ e ∈ t.1, positive.Within e := by
    simp [termsOverHalf, atom, within, (lowest_reduced overHalf).positive]
  obtain ⟨ordered, -, -, -, -, -, merges, -⟩ := cmp_totalOrder (S := positive.Within) fun _ => id
  refine ⟨⟨within, ?_⟩, terms, ?_, ?_⟩
  · exact ordered.trans _ (scalar "x") _ (within_rational _) atom within rfl rfl
  · rw [(merges _ terms).coefficients_eq]
    cbv
  · rw [(merges _ terms).coefficients_eq]
    cbv

/-! ## Negative denominators -/

/-- Minus a half, written with numerator 1 and denominator -2. -/
def halfBelow : Expr := number ⟨-1 / 2, -1, by decide⟩

/-- Minus a half comes before zero, zero before a half, and a half before minus a half if that is
written with a negative denominator. So the comparison is not a total order of all expressions. -/
theorem halves_go_round :
    (cmp halfBelow zero = .lt ∧ cmp zero (rational (1 / 2)) = .lt ∧
        cmp (rational (1 / 2)) halfBelow = .lt) ∧
      ¬TotalOrder cmp (fun _ => True) reduced := by
  have below : cmp halfBelow zero = .lt := by cbv
  have above : cmp zero (rational (1 / 2)) = .lt := by cbv
  have back : cmp (rational (1 / 2)) halfBelow = .lt := by cbv
  refine ⟨⟨below, above, back⟩, fun ordered => ?_⟩
  have between := ordered.trans halfBelow zero (rational (1 / 2)) trivial trivial trivial
    (by rw [below]; rfl) (by rw [above]; rfl)
  rw [cmp_swap, back] at between
  cases between

end Expr

end AreaMethod
