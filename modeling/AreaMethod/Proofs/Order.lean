import AreaMethod.Proofs.Shape

/-!
# The order of expressions by value

Turned over, a comparison of two expressions gives the opposite answer (`cmp_swap`), so that sorting
brings at least neighbours into order (`isChain_sort`). Constants with negative denominators keep
the comparison from being transitive. Where all others than zero have positive denominators
(`Shape.positive`), they are compared by value, and then the comparison is the lexicographic one of
two lists of tokens, the codes of the expressions (`cmp_eq_cmpCode_of_positive`). So it is a total
order there, up to the way in which constants are written, and the outcome of `sort` does not depend
on the order in which the members come (`map_code_sort_of_perm`). In particular that is so where all
constants other than zero are in lowest terms (`Shape.lowest`). Like terms are collected by their
codes in the same way (`collect_eq_collect`).
-/

namespace AreaMethod

open Std (TransCmp LawfulEqCmp TransOrd LawfulEqOrd OrientedCmp ReflCmp)

/-- The order of numbers is that of the rationals. -/
theorem Numeral.cmpRat_eq_compare (p q : Rat) : cmpRat p q = compare p q := by
  have blt_iff : ∀ a b : Rat, a.blt b = true ↔ a < b := fun _ _ => Iff.rfl
  rw [cmpRat]
  rcases lt_trichotomy p q with h | rfl | h
  · rw [compare_lt_iff_lt.2 h, if_pos ((blt_iff p q).2 h)]
  · simp [blt_iff]
  · rw [compare_gt_iff_gt.2 h, if_neg (mt (blt_iff p q).1 h.not_gt), if_pos ((blt_iff q p).2 h)]

/-- The other way round, constants compare the other way round. -/
theorem Numeral.cmp_swap (m n : Numeral) : cmp m n = (cmp n m).swap := by
  have turned : ∀ i j : Int, compare i j = (compare j i).swap := fun _ _ => OrientedCmp.eq_swap
  rw [cmp, cmp, cmpRat_eq_compare, cmpRat_eq_compare]
  by_cases h : m.num = n.num
  · rw [if_pos h, if_pos h.symm, h]
    split
    · rfl
    · split
      · exact turned _ _
      · exact turned _ _
  · rw [if_neg h, if_neg (Ne.symm h)]
    exact OrientedCmp.eq_swap

/-- Points are compared by their numbers. -/
theorem Point.compare_eq (p q : Point) :
    compare p q = compare p.number.toNat q.number.toNat :=
  UInt32.compare_eq_toNat_compare_toNat p.number q.number

namespace Atom

/-- The numbers that atoms of a kind are compared by. -/
def numbers : Atom → List Nat
  | coordinate p axis => [p.number.toNat, axis.rank]
  | a => a.points.map fun p => p.number.toNat

/-- The name of a scalar. -/
def name : Atom → String
  | scalar s => s
  | _ => ""

/-- Atoms are compared by kind, then by numbers and then by name. -/
theorem cmp_eq_compareLex (a b : Atom) : cmp a b =
    compareLex (compareOn rank) (compareLex (compareOn numbers) (compareOn name)) a b := by
  cases a <;> cases b <;>
    simp [cmp, compareLex, compareOn, rank, numbers, name, points, Point.compare_eq,
      Ordering.then_eq]
  -- what is left are atoms of different kinds
  all_goals rfl

instance : TransCmp cmp := by
  rw [show cmp = _ from funext₂ cmp_eq_compareLex]
  infer_instance

instance : LawfulEqCmp cmp where
  eq_of_compare := cmp_eq_iff.1
  compare_self := cmp_eq_iff.2 rfl

instance : TransOrd Atom := inferInstanceAs (TransCmp cmp)

instance : LawfulEqOrd Atom := inferInstanceAs (LawfulEqCmp cmp)

end Atom

namespace Expr

mutual

/-- The greater of two expressions is the one that the other is less than. -/
theorem cmp_swap : ∀ e f : Expr, cmp e f = (cmp f e).swap
  | number m, f => by
    cases f with
    | number n => exact Numeral.cmp_swap m n
    | atom | product | sum | fraction => rfl
  | atom a, f => by
    cases f with
    | atom b => exact (inferInstance : OrientedCmp Atom.cmp).eq_swap
    | number | product | sum | fraction => rfl
  | product fs, f => by
    cases f with
    | product gs => exact cmpList_swap fs gs
    | number | atom | sum | fraction => rfl
  | sum ss, f => by
    cases f with
    | sum ts => exact cmpList_swap ss ts
    | number | atom | product | fraction => rfl
  | fraction n d, f => by
    cases f with
    | fraction n' d' => rw [cmp, cmp, cmp_swap n n', cmp_swap d d', Ordering.swap_then]
    | number | atom | product | sum => rfl

/-- The other way round, lists of expressions compare the other way round. -/
theorem cmpList_swap : ∀ es fs : List Expr, cmpList es fs = (cmpList fs es).swap
  | [], [] => rfl
  | [], _ :: _ => rfl
  | _ :: _, [] => rfl
  | e :: es, f :: fs => by
    rw [cmpList, cmpList, cmp_swap e f, cmpList_swap es fs, Ordering.swap_then]

end

instance : OrientedCmp cmp := ⟨cmp_swap _ _⟩

instance : OrientedCmp cmpList := ⟨cmpList_swap _ _⟩

instance : OrientedCmp cmpOption where
  eq_swap {r s} := by
    cases r with
    | none =>
      cases s with
      | none | some => rfl
    | some e =>
      cases s with
      | none => rfl
      | some f => exact cmp_swap e f

end Expr

/-! ## Codes -/

/-- A mark in the code of an expression: the start of a node, with its constant or atom if it has
one, or the end of a list of members. -/
structure Token where
  rank : Nat
  value : Rat
  atom : Option Atom

namespace Token

/-- The end of a list, which comes before all else. -/
def stop : Token := ⟨0, 0, none⟩

/-- The start of an expression. -/
def start (e : Expr) : Token :=
  match e with
  | .number n => ⟨1, n.value, none⟩
  | .atom a => ⟨2, 0, some a⟩
  | .product _ => ⟨3, 0, none⟩
  | .sum _ => ⟨4, 0, none⟩
  | .fraction .. => ⟨5, 0, none⟩

/-- Tokens are compared by rank and then by what they carry. -/
def cmp : Token → Token → Ordering :=
  compareLex (compareOn rank) (compareLex (compareOn value) (compareOn atom))

instance : TransCmp cmp :=
  inferInstanceAs (TransCmp (compareLex _ (compareLex _ _)))

instance : LawfulEqCmp cmp where
  eq_of_compare {s t} h := by
    simp only [cmp, compareLex_eq_eq, compareOn, LawfulEqOrd.compare_eq_iff_eq] at h
    obtain ⟨h₁, h₂, h₃⟩ := h
    cases s
    cases t
    simp_all
  compare_self := (inferInstance : ReflCmp cmp).compare_self

end Token

namespace Expr

/-- An expression as a list of tokens, from left to right. -/
def code : Expr → List Token
  | number n => [.start (number n)]
  | atom a => [.start (atom a)]
  | product fs => .start (product fs) :: (fs.flatMap code ++ [.stop])
  | sum ts => .start (sum ts) :: (ts.flatMap code ++ [.stop])
  | fraction n d => .start (fraction n d) :: (n.code ++ d.code)

/-- Codes are compared lexicographically. -/
def cmpCode : List Token → List Token → Ordering :=
  List.compareLex Token.cmp

instance : TransCmp cmpCode :=
  inferInstanceAs (TransCmp (List.compareLex Token.cmp))

instance : LawfulEqCmp cmpCode :=
  inferInstanceAs (LawfulEqCmp (List.compareLex Token.cmp))

/-- Codes compare equal if and only if they are equal. -/
theorem cmpCode_eq_iff {ss ts : List Token} : cmpCode ss ts = .eq ↔ ss = ts :=
  LawfulEqCmp.compare_eq_iff_eq

/-- Codes are compared by their first tokens, and by what follows if those are equal. -/
theorem cmpCode_cons (s t : Token) (ss ts : List Token) :
    cmpCode (s :: ss) (t :: ts) = (s.cmp t).then (cmpCode ss ts) :=
  List.compareLex_cons_cons

end Expr

/-- The shape of expressions whose constants are in lowest terms, but for zeros. -/
def Shape.lowest : Shape where
  number n := n.common = 1 ∨ n.value = 0
  atom _ := True
  fraction := True
  number_ofRat _ := .inl rfl
  number_of_zero _ := .inr

/-- The shape of expressions whose constants have positive denominators, but for zeros. -/
def Shape.positive : Shape where
  number n := 0 < n.den ∨ n.value = 0
  atom _ := True
  fraction := True
  number_ofRat q := .inl (by simp [Numeral.den, Numeral.ofRat, q.den_pos])
  number_of_zero _ := .inr

open Shape

/-- Lowest terms have positive denominators. -/
theorem Shape.Within.positive {e : Expr} (h : Shape.lowest.Within e) : Shape.positive.Within e := by
  refine Within.mono (s := lowest) (t := Shape.positive) (fun n hn => hn.imp_left fun h1 => ?_)
    (fun _ => id) id h
  simp [Numeral.den, h1, n.value.den_pos]

/-- Numbers written with positive denominators are compared by multiplying across. -/
theorem Numeral.value_lt_iff {m n : Numeral} (hm : 0 < m.den) (hn : 0 < n.den) :
    m.value < n.value ↔ m.num * n.den < n.num * m.den := by
  have common : ∀ {k : Numeral}, 0 < k.den → 0 < k.common := fun {k} h =>
    (mul_pos_iff_of_pos_right (Int.natCast_pos.2 k.value.den_pos)).1 h
  have across : ∀ k l : Numeral, k.num * l.den =
      k.common * l.common * (k.value.num * l.value.den) := fun k l => by rw [num, den]; ring
  rw [across m, across n, mul_comm n.common, Rat.lt_iff,
    mul_lt_mul_iff_right₀ (mul_pos (common hm) (common hn))]

/-- Constants with positive denominators are compared by value. -/
theorem Numeral.cmp_eq_compare {m n : Numeral} (hm : Shape.positive.number m)
    (hn : Shape.positive.number n) : cmp m n = compare m.value n.value := by
  by_cases hmn : m.value = n.value
  · rw [cmp_eq_iff.2 hmn, compare_eq_iff_eq.2 hmn]
  rw [cmp, cmpRat_eq_compare]
  split
  next h =>
    have h0 : m.num ≠ 0 := fun h0 =>
      hmn ((num_eq_zero_iff.1 h0).trans (num_eq_zero_iff.1 (h ▸ h0)).symm)
    have hm : 0 < m.den := hm.resolve_right (mt num_eq_zero_iff.2 h0)
    have hn : 0 < n.den := hn.resolve_right (mt num_eq_zero_iff.2 (h ▸ h0))
    have agree : ∀ i j : Int, (i < j ↔ m.value < n.value) → (j < i ↔ n.value < m.value) →
        compare i j = compare m.value n.value := by
      intro i j hlt hgt
      rcases lt_or_gt_of_ne hmn with hv | hv
      · rw [compare_lt_iff_lt.2 hv, compare_lt_iff_lt.2 (hlt.2 hv)]
      · rw [compare_gt_iff_gt.2 hv, compare_gt_iff_gt.2 (hgt.2 hv)]
    rw [if_neg h0]
    -- with a positive numerator, the greater denominator belongs to the lesser number
    split
    next hpos =>
      refine agree _ _ ?_ ?_ <;>
        rw [value_lt_iff ‹_› ‹_›, ← h, mul_lt_mul_iff_right₀ hpos]
    next hneg =>
      have hneg := lt_of_le_of_ne (not_lt.1 hneg) h0
      refine agree _ _ ?_ ?_ <;>
        rw [value_lt_iff ‹_› ‹_›, ← h, mul_lt_mul_left_of_neg hneg]
  next => rfl

namespace Expr

/-- The code of an expression begins with its start. -/
theorem exists_code (e : Expr) : ∃ ts, e.code = .start e :: ts := by
  cases e <;> exact ⟨_, by rw [code]⟩

/-- The kind of an expression does not depend on how constants are written. -/
theorem rank_reduced (e : Expr) : e.reduced.rank = e.rank := by
  cases e <;> simp [reduced, rational, rank]

/-- Where a comparison tells apart, what comes next does not matter. -/
theorem then_eq_of_ne_eq {o : Ordering} (h : o ≠ .eq) (p q : Ordering) : o.then p = o.then q := by
  cases o <;> first | rfl | exact absurd rfl h

/-- Expressions of different kinds are told apart by the first tokens of their codes. -/
theorem cmpCode_code_of_rank_ne {e f : Expr} (h : e.rank ≠ f.rank) (ss ts : List Token) :
    cmpCode (e.code ++ ss) (f.code ++ ts) = (cmp e f).then (cmpCode ss ts) := by
  obtain ⟨es, he⟩ := exists_code e
  obtain ⟨fs, hf⟩ := exists_code f
  rw [he, hf, List.cons_append, List.cons_append, cmpCode_cons]
  have first : (Token.start e).cmp (.start f) = cmp e f := by
    cases e <;> cases f <;> simp only [rank, ne_eq, not_true_eq_false] at h <;> rfl
  have differ : cmp e f ≠ .eq := by
    intro h'
    exact h (by rw [← rank_reduced e, cmp_eq_iff.1 h', rank_reduced])
  rw [first]
  exact then_eq_of_ne_eq differ _ _

/-- Comparing lists of members is comparing their codes up to the ends of the lists, if that is so
for the members. -/
theorem cmpCode_flatMap_append {es fs : List Expr}
    (h : ∀ e ∈ es, ∀ f ∈ fs, ∀ ss ts : List Token,
      cmpCode (e.code ++ ss) (f.code ++ ts) = (cmp e f).then (cmpCode ss ts)) (ss ts : List Token) :
    cmpCode (es.flatMap code ++ .stop :: ss) (fs.flatMap code ++ .stop :: ts) =
      (cmpList es fs).then (cmpCode ss ts) := by
  induction es generalizing fs with
  | nil =>
    cases fs with
    | nil => rw [cmpList, List.flatMap_nil, List.nil_append, List.nil_append, cmpCode_cons]; rfl
    | cons f fs =>
      obtain ⟨us, hf⟩ := exists_code f
      rw [cmpList, List.flatMap_nil, List.nil_append, List.flatMap_cons, hf, List.cons_append,
        List.cons_append, cmpCode_cons]
      cases f <;> rfl
  | cons e es ih =>
    cases fs with
    | nil =>
      obtain ⟨us, he⟩ := exists_code e
      rw [cmpList, List.flatMap_nil, List.nil_append, List.flatMap_cons, he, List.cons_append,
        List.cons_append, cmpCode_cons]
      cases e <;> rfl
    | cons f fs =>
      rw [cmpList, List.flatMap_cons, List.flatMap_cons, List.append_assoc, List.append_assoc,
        h e List.mem_cons_self f List.mem_cons_self, Ordering.then_assoc]
      rw [ih fun e he f hf => h e (List.mem_cons_of_mem _ he) f (List.mem_cons_of_mem _ hf)]

/-- Comparing expressions whose constants have positive denominators is comparing their codes,
whatever follows them. -/
theorem cmpCode_code_append {e f : Expr} (he : Shape.positive.Within e)
    (hf : Shape.positive.Within f) (ss ts : List Token) :
    cmpCode (e.code ++ ss) (f.code ++ ts) = (cmp e f).then (cmpCode ss ts) := by
  induction e using ind generalizing f ss ts with
  | number m =>
    cases f with
    | number n =>
      rw [within_number] at he hf
      rw [code, code, cmp, Numeral.cmp_eq_compare he hf, List.singleton_append,
        List.singleton_append, cmpCode_cons]
      simp [Token.start, Token.cmp, compareLex, compareOn]
    | atom | product | sum | fraction => exact cmpCode_code_of_rank_ne (by simp [rank]) ss ts
  | atom a =>
    cases f with
    | atom b =>
      rw [code, code, cmp, List.singleton_append, List.singleton_append, cmpCode_cons]
      simp only [Token.start, Token.cmp, compareLex, compareOn, ReflCmp.compare_self,
        Ordering.eq_then]
      rfl
    | number | product | sum | fraction => exact cmpCode_code_of_rank_ne (by simp [rank]) ss ts
  | product fs ih =>
    cases f with
    | product gs =>
      rw [within_product] at he hf
      rw [code, code, cmp, List.cons_append, List.cons_append, cmpCode_cons, List.append_assoc,
        List.append_assoc]
      exact cmpCode_flatMap_append (fun e h f h' => ih e h (he e h) (hf f h')) ss ts
    | number | atom | sum | fraction => exact cmpCode_code_of_rank_ne (by simp [rank]) ss ts
  | sum us ih =>
    cases f with
    | sum vs =>
      rw [within_sum] at he hf
      rw [code, code, cmp, List.cons_append, List.cons_append, cmpCode_cons, List.append_assoc,
        List.append_assoc]
      exact cmpCode_flatMap_append (fun e h f h' => ih e h (he e h) (hf f h')) ss ts
    | number | atom | product | fraction => exact cmpCode_code_of_rank_ne (by simp [rank]) ss ts
  | fraction n d ihn ihd =>
    cases f with
    | fraction n' d' =>
      rw [within_fraction] at he hf
      rw [code, code, cmp, List.cons_append, List.cons_append, cmpCode_cons, List.append_assoc,
        List.append_assoc, ihn he.2.1 hf.2.1, ihd he.2.2 hf.2.2, Ordering.then_assoc]
      rfl
    | number | atom | product | sum => exact cmpCode_code_of_rank_ne (by simp [rank]) ss ts

/-- Expressions whose constants have positive denominators are compared by their codes. -/
theorem cmp_eq_cmpCode_of_positive {e f : Expr} (he : Shape.positive.Within e)
    (hf : Shape.positive.Within f) : cmp e f = cmpCode e.code f.code := by
  simpa [cmpCode, List.compareLex_nil_nil] using (cmpCode_code_append he hf [] []).symm

/-- Lists of such expressions are compared by their codes as products. -/
theorem cmpList_eq_cmpCode {es fs : List Expr} (he : ∀ e ∈ es, Shape.positive.Within e)
    (hf : ∀ f ∈ fs, Shape.positive.Within f) :
    cmpList es fs = cmpCode (product es).code (product fs).code := by
  rw [← cmp_eq_cmpCode_of_positive ((within_product es).2 he) ((within_product fs).2 hf), cmp]

/-- In lowest terms expressions are compared by their codes. -/
theorem cmp_eq_cmpCode {e f : Expr} (he : Shape.lowest.Within e) (hf : Shape.lowest.Within f) :
    cmp e f = cmpCode e.code f.code :=
  cmp_eq_cmpCode_of_positive he.positive hf.positive

/-- Writing constants in lowest terms leaves no others. -/
theorem lowest_reduced (e : Expr) : Shape.lowest.Within e.reduced := by
  induction e using ind with
  | number n => simp [reduced]
  | atom a => simp [reduced, lowest]
  | product fs ih => simpa [reduced] using ih
  | sum ts ih => simpa [reduced] using ih
  | fraction n d ihn ihd =>
    rw [reduced]
    exact (within_fraction _ _).2 ⟨trivial, ihn, ihd⟩

/-- What is in lowest terms stays as it is. -/
theorem reduced_reduced (e : Expr) : e.reduced.reduced = e.reduced := by
  induction e using ind with
  | number n => simp [reduced, rational, Numeral.ofRat]
  | atom a => simp [reduced]
  | product fs ih => simpa [reduced] using ih
  | sum ts ih => simpa [reduced] using ih
  | fraction n d ihn ihd => simp [reduced, ihn, ihd]

/-- Lists of expressions are the same if they are so in lowest terms. -/
theorem sameList_iff {es fs : List Expr} :
    sameList es fs = true ↔ es.map reduced = fs.map reduced := by
  rw [sameList, beq_iff_eq, cmpList_eq_iff]

/-- The atoms do not depend on how constants are written. -/
theorem atomList_reduced (e : Expr) : e.reduced.atomList = e.atomList := by
  induction e using ind with
  | number n => simp [reduced, rational, atomList]
  | atom a => simp [reduced]
  | product fs ih | sum fs ih =>
    rw [reduced, atomList, atomList, List.flatMap_map, List.flatMap_congr ih]
  | fraction n d ihn ihd => rw [reduced, atomList, atomList, ihn, ihd]

@[simp] theorem code_reduced (e : Expr) : e.reduced.code = e.code := by
  induction e using ind with
  | number n => simp [reduced, rational, code, Token.start, Numeral.ofRat]
  | atom a => simp [reduced]
  | product fs ih | sum fs ih =>
    rw [reduced, code, code, List.flatMap_map, List.flatMap_congr ih]
    rfl
  | fraction n d ihn ihd =>
    rw [reduced, code, code, ihn, ihd]
    rfl

/-- The code of an expression is the expression with its constants in lowest terms. -/
theorem code_eq_code_iff {e f : Expr} : e.code = f.code ↔ e.reduced = f.reduced := by
  rw [← code_reduced e, ← code_reduced f, ← cmpCode_eq_iff,
    ← cmp_eq_cmpCode (lowest_reduced e) (lowest_reduced f), cmp_eq_iff, reduced_reduced,
    reduced_reduced]

/-- What is not below is above or equal. -/
theorem isLE_of_ne_lt {κ : Type*} {cmp : κ → κ → Ordering} [OrientedCmp cmp] {a b : κ}
    (h : cmp a b ≠ .lt) : (cmp b a).isLE := by
  have hs : cmp b a = (cmp a b).swap := OrientedCmp.eq_swap
  rw [hs, Ordering.isLE_swap]
  exact Ordering.isGE_iff_ne_lt.2 h

/-- Of two keys one is at most the other. -/
theorem isLE_total {κ : Type*} (cmp : κ → κ → Ordering) [OrientedCmp cmp] (a b : κ) :
    ((cmp a b).isLE || (cmp b a).isLE) = true := by
  by_cases h : cmp a b = .lt
  · simp [h]
  · simp [isLE_of_ne_lt h]

/-! ## Sorting

Merging and inserting put a member next to one that it was compared with, or leave two neighbours
where they were. So the neighbours in a sorted list are in order, even if the comparison is not
transitive.
-/

section
variable {α : Type*} {le : α → α → Bool}

/-- Merging starts with what one of the lists starts with. -/
theorem mem_head?_merge {xs ys : List α} {z : α} (h : z ∈ (xs.merge ys le).head?) :
    z ∈ xs.head? ∨ z ∈ ys.head? := by
  rcases xs with _ | ⟨x, xs⟩
  · simp_all
  · rcases ys with _ | ⟨y, ys⟩
    · simp_all
    · rw [List.cons_merge_cons] at h
      split at h
      · exact .inl h
      · exact .inr h

variable (total : ∀ a b, (le a b || le b a) = true)
include total

/-- Merging lists whose neighbours ascend gives one. -/
theorem isChain_merge {xs ys : List α} (hx : xs.IsChain fun a b => le a b = true)
    (hy : ys.IsChain fun a b => le a b = true) :
    (xs.merge ys le).IsChain fun a b => le a b = true := by
  induction xs generalizing ys with
  | nil => simpa using hy
  | cons x xs ihx =>
    induction ys with
    | nil => simpa using hx
    | cons y ys ihy =>
      rw [List.isChain_cons] at hx hy
      rw [List.cons_merge_cons]
      split
      next hxy =>
        refine List.isChain_cons.2 ⟨fun z hz => ?_, ihx hx.2 (List.isChain_cons.2 hy)⟩
        rcases mem_head?_merge hz with hz | hz
        · exact hx.1 z hz
        · exact Option.some.inj hz ▸ hxy
      next hxy =>
        refine List.isChain_cons.2 ⟨fun z hz => ?_, ihy hy.2⟩
        rcases mem_head?_merge hz with hz | hz
        · rw [← Option.some.inj hz]
          simpa [hxy] using total x y
        · exact hy.1 z hz

/-- After sorting neighbours ascend, also where the order is not transitive. -/
theorem isChain_mergeSort (xs : List α) : (xs.mergeSort le).IsChain fun a b => le a b = true := by
  fun_induction List.mergeSort xs le with
  | case1 => exact .nil
  | case2 => exact .singleton _
  | case3 a b xs le halves _ _ ihl ihr => exact isChain_merge total (ihl total) (ihr total)

end

/-- Inserting keeps neighbours descending. -/
theorem isChain_insertDescending (e : Expr) {fs : List Expr}
    (h : fs.IsChain fun f g => le g f = true) :
    (insertDescending e fs).IsChain fun f g => le g f = true := by
  have head : ∀ fs : List Expr, ∀ g ∈ (insertDescending e fs).head?, g = e ∨ g ∈ fs.head? := by
    intro fs g hg
    rcases fs with _ | ⟨f, fs⟩
    · simp_all [insertDescending]
    · rw [insertDescending] at hg
      split at hg <;> simp_all
  induction fs with
  | nil => simp [insertDescending]
  | cons f fs ih =>
    rw [insertDescending]
    split
    next hlt =>
      rw [List.isChain_cons] at h
      refine List.isChain_cons.2 ⟨fun g hg => ?_, ih h.2⟩
      rcases head fs g hg with rfl | hg
      · simp [le, beq_iff_eq.1 hlt]
      · exact h.1 g hg
    next hlt =>
      exact List.isChain_cons_cons.2 ⟨isLE_of_ne_lt (mt beq_iff_eq.2 hlt), h⟩

/-- A list is ascending if its neighbours are. -/
theorem isAscending_iff {es : List Expr} :
    isAscending es = true ↔ es.IsChain fun e f => le e f = true := by
  fun_induction isAscending es with
  | case1 e f es ih => rw [Bool.and_eq_true, ih, List.isChain_cons_cons]
  | case2 es hne =>
    rcases es with _ | ⟨e, _ | ⟨f, es⟩⟩
    · simp
    · simp
    · exact absurd rfl (hne e f es)

/-- Sorting brings neighbours into order. -/
theorem isChain_sort (es : List Expr) : (sort es).IsChain fun e f => le e f = true := by
  rw [sort]
  split
  · have key : ∀ (es : List Expr) {fs : List Expr}, (fs.IsChain fun f g => le g f = true) →
        (es.foldl (fun fs e => insertDescending e fs) fs).IsChain fun f g => le g f = true := by
      intro es
      induction es with
      | nil => exact id
      | cons e es ih => exact fun h => ih (isChain_insertDescending e h)
    exact List.isChain_reverse.2 (key es .nil)
  · split
    next h => exact isAscending_iff.1 h
    next => exact isChain_mergeSort (isLE_total cmp) es

/-- The weak order of codes, as a test. -/
def leCode (s t : List Token) : Bool :=
  (cmpCode s t).isLE

/-- The order of codes is transitive. -/
theorem leCode_trans (r s t : List Token) (h : leCode r s) (h' : leCode s t) : leCode r t :=
  TransCmp.isLE_trans h h'

/-- The order of codes is antisymmetric. -/
theorem leCode_antisymm {s t : List Token} (h : leCode s t) (h' : leCode t s) : s = t :=
  cmpCode_eq_iff.1 (OrientedCmp.isLE_antisymm h h')

/-- Codes in ascending order. -/
def sortCodes (cs : List (List Token)) : List (List Token) :=
  cs.mergeSort leCode

/-- In ascending order a list is determined by its members. -/
theorem eq_sortCodes {cs ds : List (List Token)} (h : cs.Pairwise fun s t => leCode s t)
    (hp : cs.Perm ds) : cs = sortCodes ds :=
  List.Perm.eq_of_pairwise (fun _ _ _ _ => leCode_antisymm) h
    (List.pairwise_mergeSort leCode_trans (isLE_total cmpCode) ds)
    (hp.trans (List.mergeSort_perm ds _).symm)

/-- With positive denominators the order is transitive, so a list is ascending if its neighbours are
in order. -/
theorem pairwise_of_isChain {fs : List Expr} (h : ∀ f ∈ fs, positive.Within f)
    (hc : fs.IsChain fun f g => le f g = true) :
    fs.Pairwise fun f g => leCode f.code g.code := by
  induction fs with
  | nil => exact .nil
  | cons f fs ih =>
    have hp := ih (List.forall_mem_cons.1 h).2 hc.tail
    cases fs with
    | nil => exact List.pairwise_singleton _ f
    | cons g fs =>
      have hfg : leCode f.code g.code := by
        rw [leCode, ← cmp_eq_cmpCode_of_positive (h f (by simp)) (h g (by simp))]
        exact (List.isChain_cons_cons.1 hc).1
      refine List.pairwise_cons.2 ⟨List.forall_mem_cons.2 ⟨hfg, fun e he => ?_⟩, hp⟩
      exact leCode_trans _ _ _ hfg ((List.pairwise_cons.1 hp).1 e he)

/-- Sorting puts expressions in ascending order. -/
theorem pairwise_sort {es : List Expr} (h : ∀ e ∈ es, positive.Within e) :
    (sort es).Pairwise fun e f => leCode e.code f.code :=
  pairwise_of_isChain (fun e he => h e ((sort_perm es).mem_iff.1 he)) (isChain_sort es)

/-- Sorting expressions is sorting their codes. -/
theorem map_code_sort {es : List Expr} (h : ∀ e ∈ es, positive.Within e) :
    (sort es).map code = sortCodes (es.map code) :=
  eq_sortCodes (List.pairwise_map.2 (pairwise_sort h)) ((sort_perm es).map code)

/-- The order of the members before sorting does not matter. -/
theorem map_code_sort_of_perm {es fs : List Expr} (he : ∀ e ∈ es, positive.Within e)
    (hf : ∀ f ∈ fs, positive.Within f) (h : (fs.map code).Perm (es.map code)) :
    (sort fs).map code = (sort es).map code := by
  rw [map_code_sort hf, map_code_sort he]
  exact eq_sortCodes (List.pairwise_mergeSort leCode_trans (isLE_total cmpCode) _)
    ((List.mergeSort_perm _ _).trans h)

/-- Sorting leaves a list as it is if its neighbours are in order. -/
theorem sort_eq_self {es : List Expr} (h : es.IsChain fun e f => le e f = true) :
    sort es = es := by
  rw [sort]
  split
  · -- each member goes in front of those that come before it
    have key : ∀ (es fs : List Expr), (fs.reverse ++ es).IsChain (fun e f => le e f = true) →
        es.foldl (fun fs e => insertDescending e fs) fs = es.reverse ++ fs := by
      intro es
      induction es with
      | nil => exact fun fs _ => rfl
      | cons e es ih =>
        intro fs h
        have inserted : insertDescending e fs = e :: fs := by
          cases fs with
          | nil => rfl
          | cons f fs =>
            have hfe : le f e = true := (List.isChain_append.1 h).2.2 f (by simp) e (by simp)
            have hlt : cmp e f ≠ .lt := fun hlt => by
              rw [le, cmp_swap f e, hlt] at hfe
              cases hfe
            rw [insertDescending, if_neg (mt beq_iff_eq.1 hlt)]
        rw [List.foldl_cons, inserted, ih _ (by simpa using h)]
        simp
    rw [key es [] (by simpa using h), List.append_nil, List.reverse_reverse]
  · rw [if_pos (isAscending_iff.2 h)]

/-! ## Like terms -/

section
variable {κ μ : Type*} {cmp : κ → κ → Ordering}

/-- The term with its key changed. -/
def recoded (c : κ → μ) (t : κ × Rat) : μ × Rat := (c t.1, t.2)

/-- Adding a term goes along with a change of keys that keeps how they compare with its own. -/
theorem map_addTerm (cmp' : μ → μ → Ordering) (c : κ → μ) (t : κ × Rat) {us : List (κ × Rat)}
    (h : ∀ u ∈ us, cmp t.1 u.1 = cmp' (c t.1) (c u.1)) :
    (addTerm cmp t us).map (recoded c) = addTerm cmp' (recoded c t) (us.map (recoded c)) := by
  induction us with
  | nil => rfl
  | cons u us ih =>
    obtain ⟨hu, hus⟩ := List.forall_mem_cons.1 h
    rw [List.map_cons, addTerm, addTerm, hu]
    simp only [recoded]
    split
    · rfl
    · rfl
    · rw [List.map_cons, ih hus]
      rfl

/-- Putting a term in front goes along with a change of keys that keeps how they compare with its
own. -/
theorem map_absorb (cmp' : μ → μ → Ordering) (c : κ → μ) (t : κ × Rat) {us : List (κ × Rat)}
    (h : ∀ u ∈ us, cmp t.1 u.1 = cmp' (c t.1) (c u.1)) :
    (absorb cmp t us).map (recoded c) = absorb cmp' (recoded c t) (us.map (recoded c)) := by
  cases us with
  | nil => rfl
  | cons u us =>
    rw [List.map_cons, absorb, absorb, h u (by simp), apply_ite (List.map (recoded c))]
    rfl

section
variable (cmp' : μ → μ → Ordering) (c : κ → μ) {S : κ → Prop}
  (h : ∀ a b, S a → S b → cmp a b = cmp' (c a) (c b))
include h

/-- Adding terms goes along with a change of keys that keeps how those in `S` compare. -/
theorem map_addTerms? {us ts : List (κ × Rat)} (hus : ∀ u ∈ us, S u.1) (hts : ∀ t ∈ ts, S t.1) :
    (addTerms? cmp us ts).map (List.map (recoded c)) =
      addTerms? cmp' (us.map (recoded c)) (ts.map (recoded c)) := by
  induction ts generalizing us with
  | nil => rfl
  | cons t ts ih =>
    obtain ⟨ht, hts⟩ := List.forall_mem_cons.1 hts
    have added := map_addTerm cmp' c t fun u hu => h t.1 u.1 ht (hus u hu)
    have keys : ∀ v ∈ addTerm cmp t us, S v.1 := by
      intro v hv
      obtain ⟨u, hu, huv⟩ := (adds_addTerm cmp t us).key_mem hv
      rw [← huv]
      rcases List.mem_cons.1 hu with rfl | hu
      · exact ht
      · exact hus u hu
    rw [List.map_cons, addTerms?, addTerms?, ← added, List.length_map]
    split
    · exact ih keys hts
    · rfl

/-- Putting terms in front of each other goes along with such a change of keys. -/
theorem map_foldr_absorb {ts : List (κ × Rat)} (hts : ∀ t ∈ ts, S t.1) :
    (ts.foldr (absorb cmp) []).map (recoded c) =
      (ts.map (recoded c)).foldr (absorb cmp') [] := by
  induction ts with
  | nil => rfl
  | cons t ts ih =>
    obtain ⟨ht, hts⟩ := List.forall_mem_cons.1 hts
    rw [List.map_cons, List.foldr_cons, List.foldr_cons, ← ih hts]
    refine map_absorb cmp' c t fun u hu => ?_
    obtain ⟨w, hw, hwu⟩ := (gathers_foldr_absorb cmp ts).key_mem hu
    rw [← hwu]
    exact h t.1 w.1 ht (hts w hw)

end

/-- Collecting like terms goes along with a change of keys that keeps their order. -/
theorem map_collect (cmp' : μ → μ → Ordering) (c : κ → μ) {ts : List (κ × Rat)}
    (h : ∀ s ∈ ts, ∀ t ∈ ts, cmp s.1 t.1 = cmp' (c s.1) (c t.1)) :
    (collect cmp ts).map (recoded c) = collect cmp' (ts.map (recoded c)) := by
  have keys : ∀ a b, (∃ s ∈ ts, s.1 = a) → (∃ t ∈ ts, t.1 = b) → cmp a b = cmp' (c a) (c b) := by
    rintro _ _ ⟨s, hs, rfl⟩ ⟨t, ht, rfl⟩
    exact h s hs t ht
  have added : (addTerms? cmp [] ts).map (List.map (recoded c)) =
      addTerms? cmp' [] (ts.map (recoded c)) :=
    map_addTerms? cmp' c keys (by simp) fun t ht => ⟨t, ht, rfl⟩
  have sorted : (ts.mergeSort fun s t => (cmp s.1 t.1).isLE).map (recoded c) =
      (ts.map (recoded c)).mergeSort fun s t => (cmp' s.1 t.1).isLE :=
    List.map_mergeSort fun s hs t ht => by rw [h s hs t ht]; rfl
  have gather : (gathered cmp ts).map (recoded c) = gathered cmp' (ts.map (recoded c)) := by
    rw [gathered, gathered, ← added, ← sorted]
    cases addTerms? cmp [] ts with
    | some us => rfl
    | none =>
      exact map_foldr_absorb cmp' c keys fun t ht =>
        ⟨t, (List.mergeSort_perm ts _).mem_iff.1 ht, rfl⟩
  rw [collect, collect, ← gather, List.filter_map]
  rfl

/-- A term with the greatest key is added at the end. -/
theorem addTerm_eq_append [OrientedCmp cmp] {t : κ × Rat} {us : List (κ × Rat)}
    (h : ∀ u ∈ us, cmp u.1 t.1 = .lt) : addTerm cmp t us = us ++ [t] := by
  induction us with
  | nil => rfl
  | cons u us ih =>
    obtain ⟨hu, hus⟩ := List.forall_mem_cons.1 h
    rw [addTerm, OrientedCmp.gt_iff_lt.2 hu, ih hus]
    rfl

/-- Adding terms with strictly ascending keys lists them. -/
theorem addTerms?_eq_append [OrientedCmp cmp] {us ts vs : List (κ × Rat)}
    (ascending : (us ++ ts).Pairwise fun s t => cmp s.1 t.1 = .lt)
    (h : addTerms? cmp us ts = some vs) : vs = us ++ ts := by
  induction ts generalizing us with
  | nil =>
    rw [addTerms?, Option.some.injEq] at h
    rw [← h, List.append_nil]
  | cons t ts ih =>
    obtain ⟨-, -, greater⟩ := List.pairwise_append.1 ascending
    rw [addTerms?, addTerm_eq_append fun u hu => greater u hu t (by simp)] at h
    rw [List.append_cons] at ascending ⊢
    split at h
    · exact ih ascending h
    · cases h

/-- Collecting leaves terms with strictly ascending keys as they are. -/
theorem collect_eq_self [OrientedCmp cmp] {ts : List (κ × Rat)}
    (ascending : ts.Pairwise fun s t => cmp s.1 t.1 = .lt) (nonzero : ∀ t ∈ ts, t.2 ≠ 0) :
    collect cmp ts = ts := by
  have sorted : (ts.mergeSort fun s t => (cmp s.1 t.1).isLE) = ts := by
    refine List.mergeSort_of_pairwise (ascending.imp fun hlt => ?_)
    rw [hlt]
    rfl
  have absorbed : ts.foldr (absorb cmp) [] = ts := by
    clear nonzero sorted
    induction ts with
    | nil => rfl
    | cons t ts ih =>
      obtain ⟨ht, hts⟩ := List.pairwise_cons.1 ascending
      rw [List.foldr_cons, ih hts]
      cases ts with
      | nil => rfl
      | cons u us => simp [absorb, ht u (by simp)]
  have gathers : gathered cmp ts = ts := by
    rw [gathered, sorted, absorbed]
    split
    next us h => exact addTerms?_eq_append ascending h
    next => rfl
  rw [collect, gathers, List.filter_eq_self]
  exact fun t ht => by simpa using nonzero t ht

/-- No key occurs twice in strictly ascending order. -/
theorem distinct_of_ascending [ReflCmp cmp] {ts : List (κ × Rat)}
    (h : ts.Pairwise fun s t => cmp s.1 t.1 = .lt) : ts.Pairwise fun s t => s.1 ≠ t.1 := by
  refine h.imp fun {s t} hlt heq => ?_
  have hself : cmp t.1 t.1 = .eq := ReflCmp.compare_self
  rw [heq, hself] at hlt
  cases hlt

/-- Terms in strictly ascending order are given by which terms there are. -/
theorem eq_of_mem_iff [OrientedCmp cmp] {ts us : List (κ × Rat)}
    (ht : ts.Pairwise fun s t => cmp s.1 t.1 = .lt) (hu : us.Pairwise fun s t => cmp s.1 t.1 = .lt)
    (h : ∀ t, t ∈ ts ↔ t ∈ us) : ts = us := by
  have nodup : ∀ {ts : List (κ × Rat)}, (ts.Pairwise fun s t => cmp s.1 t.1 = .lt) → ts.Nodup :=
    fun hp => (distinct_of_ascending hp).imp fun hne heq => hne (congrArg Prod.fst heq)
  refine ((List.perm_ext_iff_of_nodup (nodup ht) (nodup hu)).2 h).eq_of_pairwise
    (fun s t _ _ hst hts => ?_) ht hu
  exact absurd hst (OrientedCmp.not_lt_of_lt hts)

/-- Of terms with different keys, those with a given key add up to its coefficient. -/
theorem sum_of_key [DecidableEq κ] {ts : List (κ × Rat)} (h : ts.Pairwise fun s t => s.1 ≠ t.1)
    {t : κ × Rat} (ht : t ∈ ts) : (ts.map fun s => s.2 * if s.1 = t.1 then 1 else 0).sum = t.2 := by
  induction ts with
  | nil => cases ht
  | cons s ts ih =>
    obtain ⟨hs, hts⟩ := List.pairwise_cons.1 h
    rw [List.map_cons, List.sum_cons]
    rcases List.mem_cons.1 ht with rfl | ht
    · have rest : (ts.map fun s => s.2 * if s.1 = t.1 then (1 : Rat) else 0).sum = 0 :=
        List.sum_eq_zero (List.forall_mem_map.2 fun s h => by simp [(hs s h).symm])
      rw [rest, if_pos rfl, mul_one, add_zero]
    · rw [ih hts ht, if_neg (hs t ht), mul_zero, zero_add]

/-- Linear combinations with different keys that agree for all values of the keys share the terms
that are not zero. -/
theorem mem_of_sums_eq {ts us : List (κ × Rat)} (hts : ts.Pairwise fun s t => s.1 ≠ t.1)
    (hus : us.Pairwise fun s t => s.1 ≠ t.1)
    (h : ∀ w : κ → Rat, (ts.map fun t => t.2 * w t.1).sum = (us.map fun t => t.2 * w t.1).sum)
    {t : κ × Rat} (ht : t ∈ ts) (ht0 : t.2 ≠ 0) : t ∈ us := by
  classical
  have hsum := h fun k => if k = t.1 then 1 else 0
  rw [sum_of_key hts ht] at hsum
  obtain ⟨u, hu, hut⟩ : ∃ u ∈ us, u.1 = t.1 := by
    by_contra hno
    refine ht0 (hsum.trans (List.sum_eq_zero (List.forall_mem_map.2 fun u hu => ?_)))
    rw [if_neg fun hut => hno ⟨u, hu, hut⟩, mul_zero]
  rw [← hut, sum_of_key hus hu] at hsum
  rwa [show t = u from Prod.ext hut.symm hsum]

variable (cmp) [TransCmp cmp]

/-- Terms stay in strictly ascending order when one is added. -/
theorem pairwise_addTerm (t : κ × Rat) {us : List (κ × Rat)}
    (h : us.Pairwise fun s t => cmp s.1 t.1 = .lt) :
    (addTerm cmp t us).Pairwise fun s t => cmp s.1 t.1 = .lt := by
  induction us with
  | nil => simp [addTerm]
  | cons u us ih =>
    obtain ⟨hu, hus⟩ := List.pairwise_cons.1 h
    rw [addTerm]
    split
    next hlt =>
      refine List.pairwise_cons.2 ⟨List.forall_mem_cons.2 ⟨hlt, fun v hv => ?_⟩, h⟩
      exact TransCmp.lt_trans hlt (hu v hv)
    next => exact List.pairwise_cons.2 ⟨hu, hus⟩
    next hgt =>
      refine List.pairwise_cons.2 ⟨fun v hv => ?_, ih hus⟩
      obtain ⟨w, hw, hwv⟩ := (adds_addTerm cmp t us).key_mem hv
      rw [← hwv]
      rcases List.mem_cons.1 hw with rfl | hw
      · exact OrientedCmp.gt_iff_lt.1 hgt
      · exact hu w hw

/-- Terms get into strictly ascending order when one that is not greater than any of them is put in
front. -/
theorem pairwise_absorb {t : κ × Rat} {us : List (κ × Rat)}
    (ht : ∀ u ∈ us, (cmp t.1 u.1).isLE) (h : us.Pairwise fun s t => cmp s.1 t.1 = .lt) :
    (absorb cmp t us).Pairwise fun s t => cmp s.1 t.1 = .lt := by
  cases us with
  | nil => simp [absorb]
  | cons u us =>
    obtain ⟨hu, hus⟩ := List.pairwise_cons.1 h
    rw [absorb]
    split
    next heq =>
      refine List.pairwise_cons.2 ⟨fun v hv => ?_, hus⟩
      exact TransCmp.lt_of_eq_of_lt (beq_iff_eq.1 heq) (hu v hv)
    next hne =>
      have hlt : cmp t.1 u.1 = .lt := by
        have hle := ht u (by simp)
        have hne : cmp t.1 u.1 ≠ .eq := mt beq_iff_eq.2 hne
        cases hc : cmp t.1 u.1 <;> simp_all
      refine List.pairwise_cons.2 ⟨List.forall_mem_cons.2 ⟨hlt, fun v hv => ?_⟩, h⟩
      exact TransCmp.lt_trans hlt (hu v hv)

/-- The collected keys are in strictly ascending order. -/
theorem pairwise_collect (ts : List (κ × Rat)) :
    (collect cmp ts).Pairwise fun s t => cmp s.1 t.1 = .lt := by
  have added : ∀ {us vs : List (κ × Rat)} (ts : List (κ × Rat)),
      (us.Pairwise fun s t => cmp s.1 t.1 = .lt) → addTerms? cmp us ts = some vs →
      vs.Pairwise fun s t => cmp s.1 t.1 = .lt := by
    intro us vs ts hus h
    induction ts generalizing us with
    | nil =>
      rw [addTerms?, Option.some.injEq] at h
      exact h ▸ hus
    | cons t ts ih =>
      rw [addTerms?] at h
      split at h
      · exact ih (pairwise_addTerm cmp t hus) h
      · cases h
  have absorbed : ∀ us : List (κ × Rat), (us.Pairwise fun s t => (cmp s.1 t.1).isLE) →
      (us.foldr (absorb cmp) []).Pairwise fun s t => cmp s.1 t.1 = .lt := by
    intro us
    induction us with
    | nil => exact fun _ => List.Pairwise.nil
    | cons u us ih =>
      intro h
      obtain ⟨hu, hus⟩ := List.pairwise_cons.1 h
      refine pairwise_absorb cmp (fun r hr => ?_) (ih hus)
      obtain ⟨w, hw, hwr⟩ := (gathers_foldr_absorb cmp us).key_mem hr
      rw [← hwr]
      exact hu w hw
  have sorted : (ts.mergeSort fun s t => (cmp s.1 t.1).isLE).Pairwise
      fun s t => (cmp s.1 t.1).isLE :=
    List.pairwise_mergeSort (fun _ _ _ => TransCmp.isLE_trans)
      (fun s t => isLE_total cmp s.1 t.1) ts
  rw [collect, gathered]
  split
  next us h => exact (added ts .nil h).filter _
  next => exact (absorbed _ sorted).filter _

omit [TransCmp cmp] in
variable {cmp} in
/-- The same holds if the keys are compared by codes of theirs. -/
theorem pairwise_collect_of_code (cmp' : μ → μ → Ordering) [TransCmp cmp'] (c : κ → μ)
    {ts : List (κ × Rat)} (h : ∀ s ∈ ts, ∀ t ∈ ts, cmp s.1 t.1 = cmp' (c s.1) (c t.1)) :
    (collect cmp ts).Pairwise fun s t => cmp s.1 t.1 = .lt := by
  have coded := pairwise_collect cmp' (ts.map (recoded c))
  rw [← map_collect cmp' c h, List.pairwise_map] at coded
  refine coded.imp_of_mem fun {s t} hs ht hlt => ?_
  obtain ⟨u, hu, hus⟩ := mem_collect hs
  obtain ⟨w, hw, hwt⟩ := mem_collect ht
  rwa [← hus, ← hwt, h u hu w hw, hus, hwt]

variable [LawfulEqCmp cmp]

/-- Linear combinations that agree for all values of the keys have the same collected terms. -/
theorem collect_eq_collect {ts us : List (κ × Rat)}
    (h : ∀ w : κ → Rat, (ts.map fun t => t.2 * w t.1).sum = (us.map fun t => t.2 * w t.1).sum) :
    collect cmp ts = collect cmp us := by
  have sums : ∀ w : κ → Rat, ((collect cmp ts).map fun t => t.2 * w t.1).sum =
      ((collect cmp us).map fun t => t.2 * w t.1).sum := by
    intro w
    have hw : ∀ k l, cmp k l = .eq → w k = w l := fun k l hkl => by
      rw [LawfulEqCmp.eq_of_compare hkl]
    have hts := sum_collect hw ts
    have hus := sum_collect hw us
    simp only [Rat.cast_id] at hts hus
    rw [hts, hus, h w]
  have distinct : ∀ ts, (collect cmp ts).Pairwise fun s t => s.1 ≠ t.1 := fun ts =>
    distinct_of_ascending (pairwise_collect cmp ts)
  refine eq_of_mem_iff (pairwise_collect cmp ts) (pairwise_collect cmp us) fun t =>
    ⟨fun ht => ?_, fun hu => ?_⟩
  · exact mem_of_sums_eq (distinct ts) (distinct us) sums ht (ne_zero_of_mem_collect ht)
  · exact mem_of_sums_eq (distinct us) (distinct ts) (fun w => (sums w).symm) hu
      (ne_zero_of_mem_collect hu)

end

end Expr

end AreaMethod
