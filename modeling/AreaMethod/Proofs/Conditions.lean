import AreaMethod.Condition
import AreaMethod.Proofs.Points
import Mathlib.Data.List.Induction
import Mathlib.Logic.Relation

/-!
# Collected conditions

Conditions say the same if one becomes the other by exchanging the two points of a pair or the two
pairs (`Condition.Equivalent`). A condition comes to its normal form by such exchanges
(`equivalent_normalize`), and none of them changes the normal form (`Swap.normalize_eq`), so the
normal forms tell apart the conditions that do not say the same and no others
(`normalize_eq_iff`).

A collection is made of the empty one by adding conditions and other collections made in that way
(`Conditions.History`). However deep they are nested, it holds the conditions that have been added,
each in its normal form and where it first came up (`Conditions.collection_holds_added`).
-/

namespace AreaMethod

/-! ## Conditions that say the same -/

namespace Condition

/-- The second condition is the first with the points of a pair, or the two pairs, exchanged. -/
inductive Swap : Condition → Condition → Prop where
  | points (a b : Point) : Swap (distinct a b) (distinct b a)
  | first (a b c d : Point) : Swap (notParallel a b c d) (notParallel b a c d)
  | second (a b c d : Point) : Swap (notParallel a b c d) (notParallel a b d c)
  | pairs (a b c d : Point) : Swap (notParallel a b c d) (notParallel c d a b)

/-- One condition becomes the other by exchanges. -/
def Equivalent : Condition → Condition → Prop :=
  Relation.ReflTransGen Swap

/-- An exchange can be undone by another one. -/
theorem Swap.symm {c d : Condition} (h : Swap c d) : Swap d c := by
  cases h with
  | points a b => exact .points b a
  | first a b c d => exact .first b a c d
  | second a b c d => exact .second a b d c
  | pairs a b c d => exact .pairs c d a b

instance : Std.Symm Swap := ⟨fun _ _ => Swap.symm⟩

/-- Saying the same is symmetric. -/
theorem Equivalent.symm {c d : Condition} (h : c.Equivalent d) : d.Equivalent c :=
  Relation.ReflTransGen.stdSymm.symm c d h

/-- Saying the same is transitive. -/
theorem Equivalent.trans {c d e : Condition} (h : c.Equivalent d) (h' : d.Equivalent e) :
    c.Equivalent e :=
  Relation.ReflTransGen.trans h h'

/-- What no exchange changes does not tell conditions apart that say the same. -/
theorem Equivalent.iff {P : Condition → Prop} (keeps : ∀ {c d}, Swap c d → P c → P d)
    {c d : Condition} (h : c.Equivalent d) : P c ↔ P d := by
  have onward : ∀ {c d : Condition}, c.Equivalent d → P c → P d := by
    intro c d h hc
    induction h with
    | refl => exact hc
    | tail _ swap ih => exact keeps swap ih
  exact ⟨onward h, onward h.symm⟩

/-- A condition comes to its normal form by exchanges. -/
theorem equivalent_normalize (c : Condition) : c.Equivalent c.normalize := by
  cases c with
  | distinct a b =>
    exact Point.pair_induction (P := fun p q _ => (distinct a b).Equivalent (distinct p q)) .refl
      (.single (.points a b))
  | notParallel a b c d =>
    have first : (notParallel a b c d).Equivalent
        (notParallel (a.pair b).1 (a.pair b).2.1 c d) :=
      Point.pair_induction
        (P := fun p q _ => (notParallel a b c d).Equivalent (notParallel p q c d)) .refl
        (.single (.first a b c d))
    have second : (notParallel a b c d).Equivalent
        (notParallel (a.pair b).1 (a.pair b).2.1 (c.pair d).1 (c.pair d).2.1) :=
      Point.pair_induction
        (P := fun p q _ => (notParallel a b c d).Equivalent (notParallel _ _ p q)) first
        (first.tail (.second _ _ c d))
    simp only [normalize]
    split
    · exact second
    · exact second.tail (.pairs _ _ _ _)

/-- Which of two pairs of points comes first does not depend on which is named first. -/
theorem arranged_swap (a b c d : Point) :
    (if ((compare a c).then (compare b d)).isLE then notParallel a b c d
      else notParallel c d a b) =
    if ((compare c a).then (compare d b)).isLE then notParallel c d a b
      else notParallel a b c d := by
  have turned : (compare c a).then (compare d b) =
      ((compare a c).then (compare b d)).swap := by
    rw [Ordering.swap_then, ← Point.compare_swap, ← Point.compare_swap]
  rw [turned]
  cases h : (compare a c).then (compare b d) with
  | lt | gt => rfl
  | eq =>
    obtain ⟨hac, hbd⟩ := Ordering.then_eq_eq.1 h
    rw [Point.compare_eq_iff.1 hac, Point.compare_eq_iff.1 hbd]
    rfl

/-- An exchange does not change the normal form. -/
theorem Swap.normalize_eq {c d : Condition} (h : Swap c d) : c.normalize = d.normalize := by
  cases h with
  | points a b | first a b c d => simp only [normalize, Point.pair_comm a b]
  | second a b c d => simp only [normalize, Point.pair_comm c d]
  | pairs a b c d => exact arranged_swap _ _ _ _

/-- Conditions have the same normal form if and only if they say the same. -/
theorem normalize_eq_iff {c d : Condition} : c.normalize = d.normalize ↔ c.Equivalent d := by
  constructor
  · intro h
    exact (h ▸ c.equivalent_normalize).trans d.equivalent_normalize.symm
  · intro h
    exact (h.iff (P := fun e => c.normalize = e.normalize) fun swap hc =>
      hc.trans swap.normalize_eq).1 rfl

/-- A normal form is its own normal form. -/
theorem normalize_normalize (c : Condition) : c.normalize.normalize = c.normalize :=
  normalize_eq_iff.2 c.equivalent_normalize.symm

end Condition

/-! ## Collections -/

/-- One more member at the end is dropped if it has been there before. -/
theorem eraseDups_concat {α : Type*} [BEq α] [LawfulBEq α] (xs : List α) (y : α) :
    (xs ++ [y]).eraseDups = if xs.contains y then xs.eraseDups else xs.eraseDups ++ [y] := by
  rw [List.eraseDups_append, List.cons_removeAll, List.nil_removeAll]
  cases xs.contains y <;> simp [List.eraseDups_cons]

/-- What is dropped from a list appended to another would be dropped from the whole. -/
theorem eraseDups_append_eraseDups {α : Type*} [BEq α] [LawfulBEq α] (xs ys : List α) :
    (xs ++ ys.eraseDups).eraseDups = (xs ++ ys).eraseDups := by
  induction ys using List.reverseRecOn with
  | nil => rfl
  | append_singleton ys y ih =>
    rw [← List.append_assoc, eraseDups_concat (xs ++ ys), ← ih, eraseDups_concat ys]
    by_cases h : y ∈ ys
    · simp [h]
    · simp only [List.contains_iff_mem, h, if_false]
      rw [← List.append_assoc, eraseDups_concat]
      simp [List.mem_eraseDups]

namespace Conditions

/-- Adding a condition adds its normal form and nothing else. -/
theorem mem_push {cs : Conditions} {c x : Condition} :
    x ∈ (cs.push c).toList ↔ x ∈ cs.toList ∨ x = c.normalize := by
  rw [push]
  split
  next h =>
    rw [contains, List.contains_iff_mem] at h
    constructor
    · exact .inl
    · rintro (hx | rfl)
      · exact hx
      · exact h
  next => simp

/-- Adding all conditions of a collection of normal forms. -/
theorem mem_extend {cs ds : Conditions} (hd : ∀ d ∈ ds.toList, d.normalize = d) {x : Condition} :
    x ∈ (cs.extend ds).toList ↔ x ∈ cs.toList ∨ x ∈ ds.toList := by
  obtain ⟨ds⟩ := ds
  rw [extend]
  induction ds generalizing cs with
  | nil => simp
  | cons d ds ih =>
    rw [List.forall_mem_cons] at hd
    rw [List.foldl_cons, ih hd.2, mem_push, hd.1, or_assoc, List.mem_cons]

/-- A condition that is said to be new is added at the end; otherwise the collection stays as it
is. -/
theorem toList_tryPush (cs : Conditions) (c : Condition) : (cs.tryPush c).2.toList =
    cs.toList ++ if (cs.tryPush c).1 then [c.normalize] else [] := by
  rw [tryPush, push]
  cases cs.contains c <;> simp

/-- A condition is new if and only if adding it changes the collection. -/
theorem tryPush_isNew_iff {cs : Conditions} {c : Condition} :
    (cs.tryPush c).1 = true ↔ (cs.tryPush c).2 ≠ cs := by
  have members := toList_tryPush cs c
  cases h : (cs.tryPush c).1 with
  | true =>
    simp only [h, if_true] at members
    refine iff_of_true rfl fun same => ?_
    simp [same] at members
  | false =>
    simp only [h, Bool.false_eq_true, if_false, List.append_nil] at members
    exact iff_of_false (by simp) fun differ => differ (congrArg Conditions.mk members)

/-- How a collection has come about from the empty one: what has been added, one after the other. -/
inductive History where
  | empty
  | push (before : History) (c : Condition)
  | extend (before other : History)

namespace History

/-- The collection that has come about. -/
def collection : History → Conditions
  | empty => .empty
  | push before c => (before.collection.tryPush c).2
  | extend before other => before.collection.extend other.collection

/-- The conditions that have been added, in their order and with repetitions, those that were added
to other collections first among them. -/
def added : History → List Condition
  | empty => []
  | push before c => before.added ++ [c]
  | extend before other => before.added ++ other.added

end History

/-- Adding to conditions listed by first occurrence lists one more by first occurrence. -/
theorem toList_push {cs : Conditions} {xs : List Condition} (h : cs.toList = xs.eraseDups)
    (c : Condition) : (cs.push c).toList = (xs ++ [c.normalize]).eraseDups := by
  rw [eraseDups_concat, push, contains, h]
  by_cases hc : c.normalize ∈ xs
  · simp [hc, h]
  · simp [hc]

/-- Adding conditions to a collection without repetitions adds their normal forms without
repetitions. -/
theorem toList_foldl_push (ds : List Condition) {cs : Conditions} {xs : List Condition}
    (h : cs.toList = xs.eraseDups) :
    (ds.foldl push cs).toList = (xs ++ ds.map Condition.normalize).eraseDups := by
  induction ds generalizing cs xs with
  | nil => simpa using h
  | cons d ds ih =>
    rw [List.foldl_cons, ih (toList_push h d), List.append_assoc, List.singleton_append,
      List.map_cons]

/-- A collection lists the normal forms of the conditions that have been added, by first
occurrence. -/
theorem toList_collection (h : History) :
    h.collection.toList = (h.added.map Condition.normalize).eraseDups := by
  induction h with
  | empty => rfl
  | push before c ih =>
    rw [History.added, List.map_append]
    exact toList_push ih c
  | extend before other ih ih' =>
    -- what the other collection holds is in normal form and stays as it is
    have normal : other.collection.toList.map Condition.normalize =
        (other.added.map Condition.normalize).eraseDups := by
      rw [ih']
      refine (List.map_congr_left fun d hd => ?_).trans (List.map_id _)
      obtain ⟨c, -, rfl⟩ := List.mem_map.1 (List.mem_eraseDups.1 hd)
      exact c.normalize_normalize
    rw [History.collection, extend, toList_foldl_push _ ih, normal, eraseDups_append_eraseDups,
      History.added, List.map_append]

/-- A collection contains the conditions that say the same as one that has been added. -/
theorem contains_collection {h : History} {c : Condition} :
    h.collection.contains c = true ↔ ∃ d ∈ h.added, d.Equivalent c := by
  rw [contains, toList_collection, List.contains_iff_mem, List.mem_eraseDups, List.mem_map]
  simp only [Condition.normalize_eq_iff]

/-- However a collection has come about from the empty one, it holds the normal forms of the
conditions that have been added, in the order they first came up and each once. A condition is said
to be new if and only if adding it changes the collection, and then it stands at the end. The
conditions found in the collection are those that say the same as one that has been added, and
conditions say the same if and only if they have the same normal form. -/
theorem collection_holds_added (h : History) (c d : Condition) :
    h.collection.toList = (h.added.map Condition.normalize).eraseDups ∧
      ((h.collection.tryPush c).1 = true ↔ (h.collection.tryPush c).2 ≠ h.collection) ∧
      (h.collection.tryPush c).2.toList =
        h.collection.toList ++ (if (h.collection.tryPush c).1 then [c.normalize] else []) ∧
      (h.collection.contains c = true ↔ ∃ d ∈ h.added, d.Equivalent c) ∧
      (c.normalize = d.normalize ↔ c.Equivalent d) :=
  ⟨toList_collection h, tryPush_isNew_iff, toList_tryPush _ c, contains_collection,
    Condition.normalize_eq_iff⟩

/-- A line named by one point twice is a pair like others, and two such lines can be exchanged. -/
example :
    let other := History.push (.push .empty (.distinct ⟨1⟩ ⟨0⟩)) (.notParallel ⟨3⟩ ⟨3⟩ ⟨2⟩ ⟨2⟩)
    let whole := History.extend (.push .empty (.notParallel ⟨2⟩ ⟨2⟩ ⟨3⟩ ⟨3⟩)) (.extend other other)
    whole.collection.toList = [.notParallel ⟨2⟩ ⟨2⟩ ⟨3⟩ ⟨3⟩, .distinct ⟨0⟩ ⟨1⟩] := by decide

end Conditions

end AreaMethod
