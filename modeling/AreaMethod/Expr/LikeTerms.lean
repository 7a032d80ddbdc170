import AreaMethod.Expr.Order

/-!
# Like terms

A linear combination is a list of pairs of a key and a rational coefficient. `collect` adds up the
coefficients of equal keys, drops the keys whose coefficients cancel and lists the others in
ascending order. Sums are simplified with terms as keys, polynomials are grouped with factor lists
as keys.

Whatever the order of the keys is like, terms come together by being added one after the other, in
one order or another (`exists_gathers`). So what adding one term keeps, collecting keeps.
-/

namespace AreaMethod.Expr

/-- Adds a term to a list of terms, whose keys are compared with its own from the first on. The term
goes in front of the first key that is greater. At a key that compares equal its coefficient is
added to the one there. -/
def addTerm (cmp : κ → κ → Ordering) (t : κ × Rat) : List (κ × Rat) → List (κ × Rat)
  | [] => [t]
  | u :: us =>
    match cmp t.1 u.1 with
    | .lt => t :: u :: us
    | .eq => (u.1, t.2 + u.2) :: us
    | .gt => u :: addTerm cmp t us

/-- Puts a pair in front of a list, adding to its coefficient that of the first entry if the keys
compare equal. -/
def absorb (cmp : κ → κ → Ordering) (t : κ × Rat) : List (κ × Rat) → List (κ × Rat)
  | [] => [t]
  | u :: us => if cmp t.1 u.1 == .eq then (t.1, t.2 + u.2) :: us else t :: u :: us

/-- The greatest number of keys that a term is compared with one after the other. -/
def additionLimit : Nat := 11

/-- Adds terms one after the other, unless there get to be too many keys. -/
def addTerms? (cmp : κ → κ → Ordering) (us : List (κ × Rat)) :
    List (κ × Rat) → Option (List (κ × Rat))
  | [] => some us
  | t :: ts =>
    let vs := addTerm cmp t us
    if vs.length ≤ additionLimit then addTerms? cmp vs ts else none

/-- The terms with the coefficients of keys that compare equal added up, under the first of them.
Where there are few keys terms are added one after the other, and otherwise they are sorted first.
That fixes the outcome also for keys that hold constants with negative denominators, whose order is
not transitive (`Numeral.cmp`). -/
def gathered (cmp : κ → κ → Ordering) (terms : List (κ × Rat)) : List (κ × Rat) :=
  match addTerms? cmp [] terms with
  | some us => us
  | none => (terms.mergeSort fun s t => (cmp s.1 t.1).isLE).foldr (absorb cmp) []

/-- Adds up the coefficients of keys that compare equal and leaves out those that come to zero. -/
def collect (cmp : κ → κ → Ordering) (terms : List (κ × Rat)) : List (κ × Rat) :=
  (gathered cmp terms).filter fun t => t.2 != 0

@[simp] theorem collect_nil (cmp : κ → κ → Ordering) : collect cmp [] = [] := by
  simp [collect, gathered, addTerms?]

/-! ## Adding terms -/

/-- The second list comes from the first by adding a term: it stands somewhere in between, or its
coefficient is added to that of an equal key, under one of the two keys. -/
inductive Adds (cmp : κ → κ → Ordering) (t : κ × Rat) : List (κ × Rat) → List (κ × Rat) → Prop
  | new (us : List (κ × Rat)) : Adds cmp t us (t :: us)
  | like {u : κ × Rat} (us : List (κ × Rat)) {k : κ} (equal : cmp t.1 u.1 = .eq)
      (key : k = t.1 ∨ k = u.1) : Adds cmp t (u :: us) ((k, t.2 + u.2) :: us)
  | further (u : κ × Rat) {us vs : List (κ × Rat)} (rest : Adds cmp t us vs) :
      Adds cmp t (u :: us) (u :: vs)

/-- `addTerm` adds a term. -/
theorem adds_addTerm (cmp : κ → κ → Ordering) (t : κ × Rat) (us : List (κ × Rat)) :
    Adds cmp t us (addTerm cmp t us) := by
  induction us with
  | nil => exact .new []
  | cons u us ih =>
    rw [addTerm]
    split
    next => exact .new (u :: us)
    next h => exact .like us h (.inr rfl)
    next => exact .further u ih

/-- `absorb` adds a term. -/
theorem adds_absorb (cmp : κ → κ → Ordering) (t : κ × Rat) (us : List (κ × Rat)) :
    Adds cmp t us (absorb cmp t us) := by
  cases us with
  | nil => exact .new []
  | cons u us =>
    rw [absorb]
    split
    next h => exact .like us (by simpa using h) (.inl rfl)
    next => exact .new (u :: us)

/-- The second list comes from adding the terms of the first to none at all, from the last on. -/
inductive Gathers (cmp : κ → κ → Ordering) : List (κ × Rat) → List (κ × Rat) → Prop
  | nil : Gathers cmp [] []
  | cons {t : κ × Rat} {ts us vs : List (κ × Rat)} (before : Gathers cmp ts us)
      (adds : Adds cmp t us vs) : Gathers cmp (t :: ts) vs

/-- Terms that are added to what others have come to come to the same as all of them. -/
theorem gathers_addTerms? {cmp : κ → κ → Ordering} {rs us ts vs : List (κ × Rat)}
    (before : Gathers cmp rs us) (h : addTerms? cmp us ts = some vs) :
    Gathers cmp (ts.reverse ++ rs) vs := by
  induction ts generalizing rs us with
  | nil =>
    rw [addTerms?, Option.some.injEq] at h
    exact h ▸ before
  | cons t ts ih =>
    rw [addTerms?] at h
    split at h
    next =>
      rw [List.reverse_cons, List.append_assoc]
      exact ih (.cons before (adds_addTerm cmp t us)) h
    next => cases h

/-- Terms that are put in front of each other are added. -/
theorem gathers_foldr_absorb (cmp : κ → κ → Ordering) (ts : List (κ × Rat)) :
    Gathers cmp ts (ts.foldr (absorb cmp) []) := by
  induction ts with
  | nil => exact .nil
  | cons t ts ih => exact .cons ih (adds_absorb cmp t _)

/-- The terms are added one after the other, in one order or another. -/
theorem exists_gathers (cmp : κ → κ → Ordering) (terms : List (κ × Rat)) :
    ∃ ts : List (κ × Rat), ts.Perm terms ∧ Gathers cmp ts (gathered cmp terms) := by
  rw [gathered]
  split
  next us h =>
    refine ⟨terms.reverse ++ [], ?_, gathers_addTerms? .nil h⟩
    rw [List.append_nil]
    exact List.reverse_perm terms
  next => exact ⟨_, List.mergeSort_perm terms _, gathers_foldr_absorb cmp _⟩

/-! ## Measures of the keys -/

@[simp] theorem total_nil : total [] = 0 := rfl

@[simp] theorem total_cons (n : Nat) (ns : List Nat) : total (n :: ns) = n + total ns := rfl

theorem total_append (ms ns : List Nat) : total (ms ++ ns) = total ms + total ns := by
  induction ms with
  | nil => simp [total_nil]
  | cons m ms ih => simp [total_cons, ih, Nat.add_assoc]

theorem total_perm {ms ns : List Nat} (h : ms.Perm ns) : total ms = total ns :=
  h.sum_nat

/-- Leaving out terms leaves out keys. -/
theorem total_filter_le (w : κ → Nat) (p : κ × Rat → Bool) (ts : List (κ × Rat)) :
    total ((ts.filter p).map fun t => w t.1) ≤ total (ts.map fun t => w t.1) := by
  induction ts with
  | nil => simp
  | cons t ts ih => by_cases h : p t <;> simp [h] <;> omega

/-- Adding a term adds at most its own key. -/
theorem Adds.total_le {cmp : κ → κ → Ordering} {t : κ × Rat} {us vs : List (κ × Rat)}
    (h : Adds cmp t us vs) (w : κ → Nat) :
    total (vs.map fun t => w t.1) ≤ w t.1 + total (us.map fun t => w t.1) := by
  induction h with
  | new us => simp
  | @like u us k equal key =>
    have : w k ≤ w t.1 + w u.1 := by
      rcases key with rfl | rfl
      · exact Nat.le_add_right _ _
      · exact Nat.le_add_left _ _
    simp only [List.map_cons, total_cons]
    omega
  | further u rest ih => simp only [List.map_cons, total_cons]; omega

/-- Adding terms adds at most their keys. -/
theorem Gathers.total_le {cmp : κ → κ → Ordering} {ts us : List (κ × Rat)}
    (h : Gathers cmp ts us) (w : κ → Nat) :
    total (us.map fun t => w t.1) ≤ total (ts.map fun t => w t.1) := by
  induction h with
  | nil => simp
  | cons before adds ih =>
    have := adds.total_le w
    simp only [List.map_cons, total_cons]
    omega

/-- Collecting like terms keeps at most one copy of each key, so no measure of the keys grows. -/
theorem total_collect_le (w : κ → Nat) (cmp : κ → κ → Ordering) (terms : List (κ × Rat)) :
    total ((collect cmp terms).map fun t => w t.1) ≤ total (terms.map fun t => w t.1) := by
  obtain ⟨ts, perm, gathers⟩ := exists_gathers cmp terms
  exact Nat.le_trans (total_filter_le w _ _)
    (Nat.le_trans (gathers.total_le w) (Nat.le_of_eq (total_perm (perm.map _))))

end AreaMethod.Expr
