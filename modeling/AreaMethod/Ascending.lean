/-!
# Ascending lists

Finite sets are shown as ascending lists without repetition. `ascending` makes one of any list,
given a three-way comparison that calls two members equal only when they are the same.
-/

namespace AreaMethod

/-- Puts `x` in front of a list unless the list already starts with it. -/
def consDistinct [DecidableEq α] (x : α) : List α → List α
  | [] => [x]
  | y :: ys => if x = y then y :: ys else x :: y :: ys

/-- The members of a list, each once, in ascending order. -/
def ascending [Ord α] [DecidableEq α] (xs : List α) : List α :=
  (xs.mergeSort fun x y => (compare x y).isLE).foldr consDistinct []

theorem mem_consDistinct [DecidableEq α] {x y : α} {ys : List α} :
    x ∈ consDistinct y ys ↔ x = y ∨ x ∈ ys := by
  cases ys with
  | nil => simp [consDistinct]
  | cons z zs =>
    by_cases h : y = z
    · subst h; simp [consDistinct]
    · simp [consDistinct, h]

/-- Sorting and dropping repetitions keeps the members. -/
theorem mem_ascending [Ord α] [DecidableEq α] {x : α} {xs : List α} :
    x ∈ ascending xs ↔ x ∈ xs := by
  have keep : ∀ ys : List α, x ∈ ys.foldr consDistinct [] ↔ x ∈ ys := by
    intro ys
    induction ys with
    | nil => simp
    | cons y ys ih => simp [mem_consDistinct, ih]
  rw [ascending, keep]
  exact (List.mergeSort_perm xs _).mem_iff

end AreaMethod
