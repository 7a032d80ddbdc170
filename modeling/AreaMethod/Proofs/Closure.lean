import AreaMethod.Collinear
import AreaMethod.Proofs.Points
import Mathlib

/-!
# The least family of collinear triples

What a construction makes collinear can be said without a search: a family of sets of points is
closed under the construction (`Construction.Closes`) if it has the triples of every intersection
and of every foot, and those of a point that is given by a ratio as soon as it has the triple that
takes. The search by rounds finds the least such family (`isLeast_ofConstruction`).

A round draws every conclusion whose premise was known before (`mem_round_of_premise`), so the set
that a round leaves as it is has all of them; and a property that every rule preserves holds of all
that is ever added (`forall_mem_close`), so no closed family lacks any of it. The family is given by
the points of the construction alone, in whatever order they are made.
-/

namespace AreaMethod

/-! ## Triples as sets -/

namespace Triple

/-- The points of a triple, in no order. -/
def points (t : Triple) : Finset Point := {t.a, t.b, t.c}

/-- Are the points different, and listed in ascending order? -/
def Ascending (t : Triple) : Prop := t.a < t.b ∧ t.b < t.c

@[simp] theorem points_of (p q r : Point) : (of p q r).points = {p, q, r} :=
  Point.triple_induction (P := fun a b c _ => ({a, b, c} : Finset Point) = {p, q, r}) rfl
    (fun a b c _ h => (Finset.insert_comm b a {c}).trans h)
    (fun a b c _ h => (congrArg (insert a) (Finset.pair_comm c b)).trans h)

/-- Three points make a triple if and only if they are different. -/
theorem of?_eq_some_iff {p q r : Point} {t : Triple} :
    of? p q r = some t ↔ (p ≠ q ∧ q ≠ r ∧ p ≠ r) ∧ of p q r = t := by
  rw [of?]
  split <;> grind

/-- The triple of three different points lists them in ascending order. -/
theorem ascending_of {p q r : Point} (hpq : p ≠ q) (hqr : q ≠ r) (hpr : p ≠ r) :
    (of p q r).Ascending :=
  Point.triple_ascending hpq hqr hpr

namespace Ascending

variable {s t : Triple}

/-- Each point of a triple is less than those after it. -/
theorem pairwise (h : t.Ascending) : [t.a, t.b, t.c].Pairwise (· < ·) := by
  have hac : t.a < t.c := UInt32.lt_trans h.1 h.2
  simp [h.1, h.2, hac]

/-- The points of a triple are different. -/
theorem nodup (h : t.Ascending) : [t.a, t.b, t.c].Nodup :=
  h.pairwise.imp Point.ne_of_lt

/-- Triples in ascending order are the same if they have the same points. -/
theorem eq_of_points (hs : s.Ascending) (ht : t.Ascending) (h : s.points = t.points) : s = t := by
  have perm : [s.a, s.b, s.c].Perm [t.a, t.b, t.c] :=
    List.perm_of_nodup_nodup_toFinset_eq hs.nodup ht.nodup (by simpa [points] using h)
  have equal := perm.eq_of_pairwise (fun _ _ _ _ hlt hgt => absurd hgt (UInt32.lt_asymm hlt))
    hs.pairwise ht.pairwise
  cases s
  cases t
  simpa using equal

/-- A triple in ascending order is the one made of its points, in whatever order they come. -/
theorem eq_of (ht : t.Ascending) {p q r : Point} (h : t.points = {p, q, r}) : t = of p q r := by
  have card : ({p, q, r} : Finset Point).card = 3 := by
    have := List.toFinset_card_of_nodup ht.nodup
    rw [← h]
    simpa [points] using this
  have distinct : p ≠ q ∧ q ≠ r ∧ p ≠ r := by grind [Finset.card_le_two]
  exact ht.eq_of_points (ascending_of distinct.1 distinct.2.1 distinct.2.2) (by rw [h, points_of])

end Ascending

end Triple

namespace CollinearSet

/-! ## Rules and rounds -/

/-- Does the rule lead from triples with the property to triples with the property? -/
def Rule.Preserves (P : Triple → Prop) (r : Rule) : Prop :=
  (∀ t ∈ r.premise, P t) → ∀ t ∈ r.conclusions, P t

variable {rs : List Rule} {k : CollinearSet} {P : Triple → Prop}

/-- A set has the triples it is known to have. -/
theorem has_iff {t : Triple} : k.has t = true ↔ t ∈ k.known := by
  simp [has]

/-- Adding a triple adds it and no other. -/
theorem mem_add {s t : Triple} : s ∈ (k.add t).known ↔ s ∈ k.known ∨ s = t := by
  rw [add]
  split
  next h =>
    refine ⟨.inl, fun hs => hs.elim id fun he => ?_⟩
    exact he ▸ has_iff.1 h
  next => simp

/-- Adding triples adds them and no others. -/
theorem mem_foldl_add {ts : List Triple} {s : Triple} :
    s ∈ (ts.foldl add k).known ↔ s ∈ k.known ∨ s ∈ ts := by
  induction ts generalizing k with
  | nil => simp
  | cons t ts ih => rw [List.foldl_cons, ih, mem_add, List.mem_cons, or_assoc]

/-- A rule adds its conclusions if its premise is known. -/
theorem mem_apply {r : Rule} {s : Triple} : s ∈ (k.apply r).known ↔
    s ∈ k.known ∨ (∀ t ∈ r.premise, t ∈ k.known) ∧ s ∈ r.conclusions := by
  have premise : r.premise.all k.has = true ↔ ∀ t ∈ r.premise, t ∈ k.known := by
    cases r.premise <;> simp [has_iff]
  rw [apply]
  split
  next h => rw [mem_foldl_add, and_iff_right (premise.1 h)]
  next h => rw [or_iff_left fun hs => h (premise.2 hs.1)]

/-- A round keeps what is known. -/
theorem mem_round_of_mem {t : Triple} (h : t ∈ k.known) : t ∈ (round rs k).known := by
  induction rs generalizing k with
  | nil => exact h
  | cons r rs ih => exact ih (mem_apply.2 (.inl h))

/-- A round draws every conclusion whose premise was known before it. -/
theorem mem_round_of_premise {r : Rule} (hr : r ∈ rs) (premise : ∀ t ∈ r.premise, t ∈ k.known)
    {t : Triple} (ht : t ∈ r.conclusions) : t ∈ (round rs k).known := by
  induction rs generalizing k with
  | nil => cases hr
  | cons r' rs ih =>
    rcases List.mem_cons.1 hr with rfl | hr
    · have drawn : t ∈ (k.apply r).known := mem_apply.2 (.inr ⟨premise, ht⟩)
      exact (mem_round_of_mem drawn : t ∈ (round rs (k.apply r)).known)
    · exact ih hr fun t ht => mem_apply.2 (.inl (premise t ht))

/-- What every rule preserves, a round preserves. -/
theorem forall_mem_round (hrs : ∀ r ∈ rs, r.Preserves P) (hk : ∀ t ∈ k.known, P t) :
    ∀ t ∈ (round rs k).known, P t := by
  induction rs generalizing k with
  | nil => exact hk
  | cons r rs ih =>
    rw [List.forall_mem_cons] at hrs
    refine ih hrs.2 fun t ht => ?_
    rcases mem_apply.1 ht with ht | ⟨premise, ht⟩
    · exact hk t ht
    · exact hrs.1 (fun s hs => hk s (premise s hs)) t ht

/-- A round only appends to what is known. -/
theorem exists_append_round (rs : List Rule) (k : CollinearSet) :
    ∃ new, (round rs k).known = k.known ++ new := by
  obtain ⟨new, e, -⟩ := grows_round (fun r hr t ht => List.mem_flatMap.2 ⟨r, hr, ht⟩) k
  exact ⟨new, e⟩

/-- A round does not make the set smaller. -/
theorem size_le_round (rs : List Rule) (k : CollinearSet) : k.size ≤ (round rs k).size := by
  obtain ⟨new, e⟩ := exists_append_round rs k
  simp [size, e]

/-- A round after which the set is no larger leaves it as it is. -/
theorem round_eq_of_size (h : (round rs k).size = k.size) : round rs k = k := by
  obtain ⟨new, e⟩ := exists_append_round rs k
  rw [size, size, e, List.length_append, Nat.add_eq_left, List.length_eq_zero_iff] at h
  rw [h, List.append_nil] at e
  exact congrArg CollinearSet.mk e

/-- The search goes on as long as rounds add something, and each such round adds a conclusion that
was missing. -/
theorem close_eq_iterate (rs : List Rule) (k : CollinearSet) :
    ∃ n, close rs k = ((round rs)^[n] k, n + 1) ∧
      round rs ((round rs)^[n] k) = (round rs)^[n] k ∧
      (∀ m < n, ((round rs)^[m] k).size < ((round rs)^[m + 1] k).size) ∧ n ≤ missing rs k := by
  fun_induction close rs k with
  | case1 k h => exact ⟨0, rfl, round_eq_of_size h, by simp, Nat.zero_le _⟩
  | case2 k h final rounds he ih =>
    obtain ⟨n, closed, fixed, grows, bound⟩ := ih
    obtain ⟨rfl, rfl⟩ := Prod.mk.inj (he.symm.trans closed)
    refine ⟨n + 1, rfl, fixed, fun m hm => ?_, ?_⟩
    · cases m with
      | zero => exact lt_of_le_of_ne (size_le_round rs k) (Ne.symm h)
      | succ m => exact grows m (by omega)
    · have := missing_round_lt h
      omega

/-- What every rule preserves, the search preserves. -/
theorem forall_mem_close (hrs : ∀ r ∈ rs, r.Preserves P) (hk : ∀ t ∈ k.known, P t) :
    ∀ t ∈ (close rs k).1.known, P t := by
  obtain ⟨n, e, -⟩ := close_eq_iterate rs k
  rw [e]
  exact Function.Iterate.rec (fun k : CollinearSet => ∀ t ∈ k.known, P t) hk
    (fun _ => forall_mem_round hrs) n

/-- The search ends with a set that has the conclusions of the rules whose premises it has. -/
theorem preserves_mem_close {r : Rule} (hr : r ∈ rs) :
    r.Preserves (· ∈ (close rs k).1.known) := by
  obtain ⟨n, e, fixed, -⟩ := close_eq_iterate rs k
  rw [e]
  intro premise t ht
  rw [← fixed]
  exact mem_round_of_premise hr premise ht

end CollinearSet

/-! ## Families of triples -/

/-- Does the relation hold of the three points, unless two of them are the same? -/
def IfDistinct (T : Point → Point → Point → Prop) (p q r : Point) : Prop :=
  p ≠ q → q ≠ r → p ≠ r → T p q r

/-- Does the relation hold of the points that a point `y` of this kind is collinear with? One that
is given by a ratio is on the line of `u` and `v` if `w` is. -/
def PointKind.Closes (T : Point → Point → Point → Prop) (y : Point) : PointKind → Prop
  | .free => True
  | .intersection u v p q => IfDistinct T u v y ∧ IfDistinct T p q y
  | .foot _ u v => IfDistinct T u v y
  | .ratio w u v _ => w = u ∨ w = v ∨ T w u v →
      IfDistinct T u v y ∧ IfDistinct T u w y ∧ IfDistinct T v w y

/-- Does the family of sets of points have all triples that the construction makes collinear? -/
def Construction.Closes (c : Construction) (S : Set (Finset Point)) : Prop :=
  ∀ q ∈ c.points, q.2.Closes (fun a b c => {a, b, c} ∈ S) q.1

/-- Which families are closed does not depend on the order of the steps. -/
theorem Construction.closes_iff_of_perm {c c' : Construction} (h : c'.steps.Perm c.steps)
    {S : Set (Finset Point)} : c'.Closes S ↔ c.Closes S :=
  forall_congr' fun _ => imp_congr_left (h.filterMap Step.point?).mem_iff

namespace CollinearSet

/-- The known triples as sets of points. -/
def members (k : CollinearSet) : Set (Finset Point) :=
  {s | ∃ t ∈ k.known, t.points = s}

variable {k : CollinearSet} {P : Triple → Prop}

/-- To say something of the triple that three points make is to say it in case they are
different. -/
theorem forall_mem_of? {p q r : Point} :
    (∀ t ∈ Triple.of? p q r, P t) ↔ IfDistinct (fun p q r => P (.of p q r)) p q r := by
  simp only [Option.mem_def, Triple.of?_eq_some_iff, IfDistinct]
  grind

/-- A property of triples is preserved by the rule of a point if it holds of those that the point is
collinear with. -/
theorem preserves_ofPoint_iff {y : Point} {kind : PointKind} :
    (Rule.ofPoint y kind).Preserves P ↔ kind.Closes (fun p q r => P (.of p q r)) y := by
  have conclusions : ∀ os : List (Option Triple),
      (∀ t ∈ os.filterMap id, P t) ↔ ∀ o ∈ os, ∀ t ∈ o, P t := by
    intro os
    simp only [List.mem_filterMap, id, Option.mem_def]
    grind
  cases kind with
  | free => simp [Rule.Preserves, Rule.ofPoint, PointKind.Closes]
  | intersection u v p q | foot p u v =>
    simp only [Rule.Preserves, Rule.ofPoint, PointKind.Closes, conclusions, List.forall_mem_cons,
      List.not_mem_nil, false_imp_iff, implies_true, and_true, forall_mem_of?, Option.not_mem_none,
      true_imp_iff]
  | ratio w u v r =>
    have premise : (∀ t ∈ if w = u ∨ w = v then none else some (Triple.of w u v), P t) ↔
        w = u ∨ w = v ∨ P (.of w u v) := by
      split <;> grind
    simp only [Rule.Preserves, Rule.ofPoint, PointKind.Closes, conclusions, List.forall_mem_cons,
      List.not_mem_nil, false_imp_iff, implies_true, and_true, forall_mem_of?, premise]

/-- A point leads to three conclusions at most. -/
theorem length_conclusions_ofPoint_le (y : Point) (kind : PointKind) :
    (Rule.ofPoint y kind).conclusions.length ≤ 3 := by
  cases kind with
  | free => simp [Rule.ofPoint]
  | intersection | foot | ratio =>
    exact (List.length_filterMap_le _ _).trans (by simp)

/-- At most three conclusions are missing for each point of the construction. -/
theorem missing_rules_le (c : Construction) : missing (rules c) k ≤ 3 * c.points.length := by
  refine List.countP_le_length.trans ?_
  rw [rules, List.length_flatMap, List.map_map]
  refine (List.sum_le_card_nsmul _ 3 fun n hn => ?_).trans (by simp [mul_comm])
  obtain ⟨q, -, rfl⟩ := List.mem_map.1 hn
  exact length_conclusions_ofPoint_le q.1 q.2

variable {c : Construction}

/-- Only triples of different points are ever added. -/
theorem ascending_of_mem_ofConstruction {t : Triple} (ht : t ∈ (ofConstruction c).known) :
    t.Ascending := by
  refine forall_mem_close (fun r hr => ?_) (by simp [empty]) t ht
  obtain ⟨q, -, rfl⟩ := List.mem_map.1 hr
  have distinct : ∀ p q r, IfDistinct (fun p q r => (Triple.of p q r).Ascending) p q r :=
    fun _ _ _ => Triple.ascending_of
  refine preserves_ofPoint_iff.2 ?_
  cases q.2 <;> simp [PointKind.Closes, distinct]

/-- Points are found to be collinear in whatever order they are asked about. -/
theorem contains_ofConstruction_iff {p q r : Point} :
    (ofConstruction c).contains p q r = true ↔ {p, q, r} ∈ (ofConstruction c).members := by
  rw [contains, has_iff]
  constructor
  · exact fun h => ⟨_, h, Triple.points_of p q r⟩
  · rintro ⟨t, ht, h⟩
    rwa [← (ascending_of_mem_ofConstruction ht).eq_of h]

/-- The search ends with a closed family. -/
theorem closes_members_ofConstruction (c : Construction) :
    c.Closes (ofConstruction c).members := by
  intro q hq
  have relation : (fun a b c' => Triple.of a b c' ∈ (ofConstruction c).known) =
      fun a b c' => {a, b, c'} ∈ (ofConstruction c).members := by
    funext a b c'
    rw [← contains_ofConstruction_iff, contains, has_iff]
  rw [← relation]
  exact preserves_ofPoint_iff.1 (preserves_mem_close (List.mem_map.2 ⟨q, hq, rfl⟩))

/-- All that the search finds is in every closed family. -/
theorem members_ofConstruction_subset {S : Set (Finset Point)} (hS : c.Closes S) :
    (ofConstruction c).members ⊆ S := by
  have found : ∀ t ∈ (ofConstruction c).known, t.points ∈ S := by
    refine forall_mem_close (fun r hr => ?_) (by simp [empty])
    obtain ⟨q, hq, rfl⟩ := List.mem_map.1 hr
    refine preserves_ofPoint_iff.2 ?_
    simp only [Triple.points_of]
    exact hS q hq
  rintro s ⟨t, ht, rfl⟩
  exact found t ht

/-- The search finds the least closed family. -/
theorem isLeast_ofConstruction (c : Construction) :
    IsLeast {S | c.Closes S} (ofConstruction c).members :=
  ⟨closes_members_ofConstruction c, fun _ => members_ofConstruction_subset⟩

/-- The search ends, and what it finds is the least family of triples that is closed under the
construction, whatever the construction refers to. Every round but the last adds a triple, and the
last finds nothing to add. So the family is the same for every order of the steps. -/
theorem ofConstruction_least_closed (c : Construction) :
    (∃ n ≤ 3 * c.points.length, search c = ((round (rules c))^[n] empty, n + 1) ∧
      (∀ m < n, ((round (rules c))^[m] empty).size < ((round (rules c))^[m + 1] empty).size) ∧
      round (rules c) (ofConstruction c) = ofConstruction c) ∧
    (∀ p q r, (ofConstruction c).contains p q r = true ↔
      {p, q, r} ∈ (ofConstruction c).members) ∧
    IsLeast {S | c.Closes S} (ofConstruction c).members ∧
    ∀ c' : Construction, c'.steps.Perm c.steps →
      (ofConstruction c').members = (ofConstruction c).members := by
  refine ⟨?_, fun _ _ _ => contains_ofConstruction_iff, isLeast_ofConstruction c,
    fun c' h => ?_⟩
  · obtain ⟨n, e, fixed, grows, bound⟩ := close_eq_iterate (rules c) empty
    refine ⟨n, bound.trans (missing_rules_le c), e, grows, ?_⟩
    rw [ofConstruction, search, e]
    exact fixed
  · have least := isLeast_ofConstruction c'
    simp only [Construction.closes_iff_of_perm h] at least
    exact least.unique (isLeast_ofConstruction c)

end CollinearSet

namespace Construction

/-- A midpoint of two points, a point measured from it along their line and one measured from that
one. -/
def chain : Construction where
  symbols := .empty
  steps := [.point ⟨0⟩ .free, .point ⟨1⟩ .free,
    .point ⟨2⟩ (.ratio ⟨0⟩ ⟨0⟩ ⟨1⟩ (.rational (1 / 2))),
    .point ⟨3⟩ (.ratio ⟨2⟩ ⟨0⟩ ⟨1⟩ (.rational (1 / 4))),
    .point ⟨4⟩ (.ratio ⟨3⟩ ⟨0⟩ ⟨1⟩ (.rational (1 / 8)))]

/-- The same steps backwards, so that they refer to later ones. -/
def chainBackwards : Construction :=
  ⟨.empty, chain.steps.reverse⟩

/-- Backwards a round finds the triples of one point only, but in the end they are the same. -/
theorem chainBackwards_members :
    (CollinearSet.search chain).2 = 2 ∧ (CollinearSet.search chainBackwards).2 = 4 ∧
      chainBackwards.steps.Perm chain.steps ∧
      (CollinearSet.ofConstruction chainBackwards).members =
        (CollinearSet.ofConstruction chain).members := by
  have perm : chainBackwards.steps.Perm chain.steps := List.reverse_perm _
  exact ⟨by cbv, by cbv, perm, (CollinearSet.ofConstruction_least_closed chain).2.2.2 _ perm⟩

end Construction

end AreaMethod
