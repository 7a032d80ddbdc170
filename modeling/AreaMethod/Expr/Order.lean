import AreaMethod.Expr.Basic

/-!
# The order of expressions

Expressions are compared by kind (constants, atoms, products, sums, fractions) and then by their
contents: constants and atoms in their own order, members of sums and products lexicographically,
fractions by numerator and then denominator. Two expressions compare equal if and only if they are
the same tree once their constants are in lowest terms (`cmp_eq_iff`), and only then does the
library take them for the same (`same`).
-/

namespace AreaMethod.Expr

/-- The rank of an expression's kind in the order of expressions. -/
def rank : Expr → Nat
  | number _ => 0
  | atom _ => 1
  | product _ => 2
  | sum _ => 3
  | fraction .. => 4

mutual

/-- The three-way comparison of expressions. -/
def cmp : Expr → Expr → Ordering
  | number m, number n => m.cmp n
  | atom a, atom b => a.cmp b
  | product fs, product gs => cmpList fs gs
  | sum ss, sum ts => cmpList ss ts
  | fraction n d, fraction n' d' => (cmp n n').then (cmp d d')
  | e, f => compare e.rank f.rank

/-- Lists of expressions are compared lexicographically. -/
def cmpList : List Expr → List Expr → Ordering
  | [], [] => .eq
  | [], _ :: _ => .lt
  | _ :: _, [] => .gt
  | e :: es, f :: fs => (cmp e f).then (cmpList es fs)

end

instance : Ord Expr := ⟨cmp⟩

/-- The weak order of expressions, as a test. -/
def le (e f : Expr) : Bool :=
  (cmp e f).isLE

/-- Are the two expressions the same, however their constants are written? -/
def same (e f : Expr) : Bool :=
  cmp e f == .eq

/-- Are the two lists of expressions the same, however their constants are written? -/
def sameList (es fs : List Expr) : Bool :=
  cmpList es fs == .eq

/-- No expression at all comes before every expression. -/
def cmpOption : Option Expr → Option Expr → Ordering
  | none, none => .eq
  | none, some _ => .lt
  | some _, none => .gt
  | some e, some f => cmp e f

/-- Are the two expressions the same, or both absent? -/
def sameOption (e f : Option Expr) : Bool :=
  cmpOption e f == .eq

/-- Puts an expression into a descending list, past those that are greater. -/
def insertDescending (e : Expr) : List Expr → List Expr
  | [] => [e]
  | f :: fs => if cmp e f == .lt then f :: insertDescending e fs else e :: f :: fs

/-- The greatest length of a list that is sorted by insertion. -/
def insertionLimit : Nat := 20

/-- Are the expressions in ascending order, repetitions allowed? -/
def isAscending : List Expr → Bool
  | e :: f :: es => le e f && isAscending (f :: es)
  | _ => true

/-- Arranges expressions in ascending order. Those that compare equal stay in their order. A short
list is sorted by insertion from left to right, and a long one is left as it is if it is ascending
already. That fixes the outcome also for constants with negative denominators, whose order is not
transitive (`Numeral.cmp`). -/
def sort (es : List Expr) : List Expr :=
  if es.length ≤ insertionLimit then
    (es.foldl (fun fs e => insertDescending e fs) []).reverse
  else if isAscending es then es
  else es.mergeSort le

theorem insertDescending_perm (e : Expr) (fs : List Expr) :
    (insertDescending e fs).Perm (e :: fs) := by
  induction fs with
  | nil => exact List.Perm.refl _
  | cons f fs ih =>
    rw [insertDescending]
    split
    · exact (ih.cons f).trans (List.Perm.swap e f fs)
    · exact List.Perm.refl _

/-- Sorting keeps the members, each as often as it occurs. -/
theorem sort_perm (es : List Expr) : (sort es).Perm es := by
  have key : ∀ fs : List Expr,
      (es.foldl (fun fs e => insertDescending e fs) fs).Perm (es ++ fs) := by
    induction es with
    | nil => exact fun fs => List.Perm.refl fs
    | cons e es ih =>
      intro fs
      exact (ih _).trans (((insertDescending_perm e fs).append_left es).trans List.perm_middle)
  rw [sort]
  split
  · exact (List.reverse_perm _).trans ((key []).trans (List.Perm.of_eq (List.append_nil es)))
  · split
    · exact List.Perm.refl es
    · exact List.mergeSort_perm es le

mutual

/-- Expressions compare equal if they agree in lowest terms. -/
theorem cmp_eq_iff : ∀ {e f : Expr}, cmp e f = .eq ↔ e.reduced = f.reduced
  | number m, f => by
    cases f <;> simp [cmp, rank, reduced, rational, Numeral.cmp_eq_iff, Numeral.ofRat]
  | atom a, f => by cases f <;> simp [cmp, rank, reduced, rational, Atom.cmp_eq_iff]
  | product fs, f => by cases f <;> simp [cmp, rank, reduced, rational, cmpList_eq_iff]
  | sum ts, f => by cases f <;> simp [cmp, rank, reduced, rational, cmpList_eq_iff]
  | fraction n d, f => by
    cases f <;> simp [cmp, rank, reduced, rational, Ordering.then_eq_eq, cmp_eq_iff]

theorem cmpList_eq_iff : ∀ {es fs : List Expr},
    cmpList es fs = .eq ↔ es.map reduced = fs.map reduced
  | [], fs => by cases fs <;> simp [cmpList]
  | e :: es, fs => by
    cases fs <;> simp [cmpList, Ordering.then_eq_eq, cmp_eq_iff, cmpList_eq_iff]

end

end AreaMethod.Expr
