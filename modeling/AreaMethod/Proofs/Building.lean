import AreaMethod.Construction.Build
import AreaMethod.Proofs.Construction

/-!
# Built constructions

Whatever requests are made, also some that fail, a construction changes in four ways only: a label
is given to a point or to a line, a point is appended, or a line is (`Construction.Grows`). A
request is a sequence of such changes (`Build.extends_run`), so that an invariant of built
constructions is one that each change keeps (`Built.grown`).

Every step refers to earlier ones, however many there are (`Built.grounded`). No point is made twice
either as long as there are numbers for the labels, of which there are `2 ^ 32` (`Built.ordered`); a
construction with more labels may make the same point twice. `Construction.WellFormed` is all that
elimination and proofs rely on.

A request that fails changes nothing at all (`Built.perform_of_error`). Most requests make their
checks first, so they do so over any construction (`Build.Harmless`); a reflection adds two points,
and that the second can be added after the first depends on the numbers of labels being different.
-/

namespace AreaMethod

open Relation (ReflTransGen)

/-! ## Labels -/

namespace Labels

/-- The labels are paired with their numbers, and those in the list, all different, have labels. -/
structure Numbers (t : Labels) (ns : List UInt32) : Prop where
  paired : ∀ label n, t.number? label = some n → t.label? n = some label
  named : ∀ n ∈ ns, ∃ label, t.number? label = some n
  nodup : ns.Nodup

variable {t : Labels} {ns : List UInt32} {label : String}

/-- Without labels no number is taken. -/
theorem numbers_empty : empty.Numbers [] where
  paired label n h := by simp [empty, number?] at h
  named n h := by cases h
  nodup := List.nodup_nil

/-- Giving a label takes none away. -/
theorem count_le_count_intern (t : Labels) (label : String) :
    t.count ≤ (t.intern label).2.count := by
  rw [intern]
  split
  · exact le_rfl
  · simp [count]

/-- One label is given at a time. -/
theorem count_intern_le (t : Labels) (label : String) : (t.intern label).2.count ≤ t.count + 1 := by
  rw [intern]
  split
  · exact Nat.le_succ _
  · simp [count]

/-- The label that is given has the number that is returned. -/
theorem number?_intern (t : Labels) (label : String) :
    (t.intern label).2.number? label = some (t.intern label).1 := by
  rw [intern]
  split
  next n hn => exact hn
  next => simp [number?]

/-- Labels that have numbers keep them. -/
theorem number?_intern_of_some {l : String} {n : UInt32} (h : t.number? l = some n) :
    (t.intern label).2.number? l = some n := by
  rw [intern]
  split
  next => exact h
  next new =>
    rw [number?, Std.ExtTreeMap.getElem?_insert, if_neg]
    · exact h
    · rintro same
      rw [compare_eq_iff_eq.1 same, h] at new
      cases new

/-- Other labels keep their numbers, and get none. -/
theorem number?_intern_of_ne {l : String} (h : l ≠ label) :
    (t.intern label).2.number? l = t.number? l := by
  rw [intern]
  split
  next => rfl
  next =>
    rw [number?, Std.ExtTreeMap.getElem?_insert, if_neg]
    · rfl
    · rintro same
      exact h (compare_eq_iff_eq.1 same).symm

/-- A number that has a label is below the count of labels. -/
theorem Numbers.lt_count (h : t.Numbers ns) {n : UInt32} (hn : t.number? label = some n) :
    n.toNat < t.count :=
  (List.getElem?_eq_some_iff.1 (h.paired label n hn)).1

/-- Giving a label keeps labels paired with their numbers, as long as there is a number for it. -/
theorem Numbers.intern (h : t.Numbers ns) (hc : (t.intern label).2.count ≤ 2 ^ 32) :
    (t.intern label).2.Numbers ns where
  paired l n hn := by
    rw [Labels.intern] at hn hc ⊢
    split at hn
    next k hk => simpa [hk] using h.paired l n hn
    next new =>
      simp only [new, count, List.length_append, List.length_singleton] at hc hn ⊢
      rw [number?, Std.ExtTreeMap.getElem?_insert] at hn
      split at hn
      next same =>
        obtain rfl := Option.some.inj hn
        obtain rfl := compare_eq_iff_eq.1 same
        rw [label?, Nat.toUInt32_eq, UInt32.toNat_ofNat', Nat.mod_eq_of_lt (by omega)]
        simp
      next =>
        have old := h.paired l n hn
        exact (List.getElem?_append_left (List.getElem?_eq_some_iff.1 old).1).trans old
  named n hn := (h.named n hn).imp fun _ => number?_intern_of_some
  nodup := h.nodup

/-- Different labels have different numbers. -/
theorem Numbers.intern_ne (h : t.Numbers ns) (hc : (t.intern label).2.count ≤ 2 ^ 32) {l : String}
    (hl : l ≠ label) {n : UInt32} (hn : t.number? l = some n) : (t.intern label).1 ≠ n := by
  rintro rfl
  have named := (h.intern hc).paired label _ (number?_intern t label)
  have other := (h.intern hc).paired l _ (number?_intern_of_some hn)
  exact hl (Option.some.inj (other.symm.trans named))

/-- The number of a label is not among the numbers that are taken, unless the label is. -/
theorem Numbers.intern_not_mem (h : t.Numbers ns) (hc : (t.intern label).2.count ≤ 2 ^ 32)
    (free : ∀ n, t.number? label = some n → n ∉ ns) : (t.intern label).1 ∉ ns := by
  rw [Labels.intern] at hc ⊢
  split at hc
  next n hn => simpa [hn] using free n hn
  next new =>
    simp only [count, List.length_append, List.length_singleton] at hc ⊢
    intro hn
    obtain ⟨l, hl⟩ := h.named _ hn
    have := h.lt_count hl
    rw [Nat.toUInt32_eq, UInt32.toNat_ofNat', Nat.mod_eq_of_lt (by omega)] at this
    exact this.false

/-- Taking the number of a label that is not taken. -/
theorem Numbers.append (h : t.Numbers ns) (hc : (t.intern label).2.count ≤ 2 ^ 32)
    (free : ∀ n, t.number? label = some n → n ∉ ns) :
    (t.intern label).2.Numbers (ns ++ [(t.intern label).1]) where
  paired := (h.intern hc).paired
  named n hn := by
    rcases List.mem_append.1 hn with hn | hn
    · exact (h.intern hc).named n hn
    · obtain rfl := List.mem_singleton.1 hn
      exact ⟨label, number?_intern t label⟩
  nodup := h.nodup.append (List.nodup_singleton _)
    (List.disjoint_singleton.2 (h.intern_not_mem hc free))

/-- What can happen to labels and the numbers that are taken: nothing, or there is one more label,
or the number of a label that is not taken is taken as well. -/
inductive Change (t : Labels) (ns : List UInt32) : Labels → List UInt32 → Prop
  | none : Change t ns t ns
  | intern (label : String) : Change t ns (t.intern label).2 ns
  | take (label : String) (free : ∀ n, t.number? label = some n → n ∉ ns) :
    Change t ns (t.intern label).2 (ns ++ [(t.intern label).1])

/-- Labels stay paired with their numbers, as long as there are numbers for them. -/
theorem Change.numbers {t' : Labels} {ns' : List UInt32} (change : Change t ns t' ns')
    (h : t.count ≤ 2 ^ 32 → t.Numbers ns) (hc : t'.count ≤ 2 ^ 32) : t'.Numbers ns' := by
  cases change with
  | none => exact h hc
  | intern label => exact (h ((t.count_le_count_intern label).trans hc)).intern hc
  | take label free => exact (h ((t.count_le_count_intern label).trans hc)).append hc free

end Labels

/-! ## How constructions grow -/

/-- The line that a step draws. -/
def Step.line? : Step → Option Line
  | point .. => none
  | line l _ _ => some l

/-- Are the lines that a point is constructed from drawn by the steps? -/
def PointKind.DrawnBy (steps : List Step) : PointKind → Prop
  | intersection u v p q => ∃ l m, l ≠ m ∧ .line l u v ∈ steps ∧ .line m p q ∈ steps
  | foot _ u v => ∃ l, .line l u v ∈ steps
  | _ => True

namespace Construction

/-- The lines in the order they are drawn. -/
def lines (c : Construction) : List Line := c.steps.filterMap Step.line?

/-- A line of the construction is one that a step draws. -/
theorem mem_lines_iff {c : Construction} {l : Line} :
    l ∈ c.lines ↔ ∃ a b, .line l a b ∈ c.steps := by
  rw [lines, List.mem_filterMap]
  constructor
  · rintro ⟨s, hs, h⟩
    cases s with
    | point p kind => cases h
    | line l a b =>
      cases h
      exact ⟨a, b, hs⟩
  · rintro ⟨a, b, h⟩
    exact ⟨_, h, rfl⟩

/-- The ends of a line are those of a step that draws it. -/
theorem mem_of_line? {c : Construction} {l : Line} {a b : Point} (h : c.line? l = some (a, b)) :
    .line l a b ∈ c.steps := by
  obtain ⟨s, hs, h⟩ := List.exists_of_findSome?_eq_some h
  cases s with
  | point p kind => cases h
  | line l' a' b' =>
    dsimp only at h
    split at h
    next same =>
      cases h
      exact same ▸ hs
    next => cases h

/-- A line has ends if and only if it is drawn. -/
theorem isSome_line?_iff {c : Construction} {l : Line} : (c.line? l).isSome ↔ l ∈ c.lines := by
  rw [mem_lines_iff, line?, List.findSome?_isSome_iff]
  constructor
  · rintro ⟨s, hs, h⟩
    cases s with
    | point p kind => cases h
    | line l' a b =>
      dsimp only at h
      split at h
      next same => exact ⟨a, b, same ▸ hs⟩
      next => cases h
  · rintro ⟨a, b, h⟩
    exact ⟨_, h, by simp⟩

/-- One change that requests make to a construction. -/
inductive Grows : Construction → Construction → Prop
  | internPoint (c : Construction) (label : String) :
    Grows c { c with symbols := (c.symbols.internPoint label).2 }
  | internLine (c : Construction) (label : String) :
    Grows c { c with symbols := (c.symbols.internLine label).2 }
  | point (c : Construction) (label : String) (kind : PointKind)
    (made : ∀ q ∈ kind.support, MadeBy c.steps q) (drawn : kind.DrawnBy c.steps)
    (free : Build.pointTaken c label = false) :
    Grows c ⟨(c.symbols.internPoint label).2,
      c.steps ++ [.point (c.symbols.internPoint label).1 kind]⟩
  | line (c : Construction) (label : String) (a b : Point) (ha : MadeBy c.steps a)
    (hb : MadeBy c.steps b) (hab : a ≠ b) (free : Build.lineTaken c label = false) :
    Grows c ⟨(c.symbols.internLine label).2,
      c.steps ++ [.line (c.symbols.internLine label).1 a b]⟩

end Construction

/-- Running one operation after another. -/
theorem run_bind {ε σ α β : Type} (m : ExceptT ε (StateM σ) α) (f : α → ExceptT ε (StateM σ) β)
    (s : σ) :
    (m >>= f).run s = match m.run s with
      | (.ok a, s') => (f a).run s'
      | (.error e, s') => (.error e, s') := by
  change (m.run >>= ExceptT.bindCont f : StateM _ _) s = _
  change (match m.run s with | (r, s') => (ExceptT.bindCont f r : StateM _ _) s') = _
  rcases m.run s with ⟨r | a, s'⟩ <;> rfl

/-- A result that is kept when errors are forgotten was a success. -/
theorem eq_ok_of_toOption {ε α : Type} {x : Except ε α} {a : α} (h : x.toOption = some a) :
    x = .ok a := by
  cases x with
  | error e => cases h
  | ok b => exact congrArg _ (Option.some.inj h)

namespace Build

/-- The operation makes changes to the construction one after another, also if it fails, and where
it succeeds its result and the construction after it satisfy the condition. -/
def Extends (m : Build α) (c : Construction) (Q : α → Construction → Prop) : Prop :=
  ReflTransGen Construction.Grows c (m.run c).2 ∧ ∀ a, (m.run c).1 = .ok a → Q a (m.run c).2

section
variable {c : Construction} {Q : α → Construction → Prop}

/-- Nothing changes if nothing is done. -/
theorem extends_pure {a : α} (h : Q a c) : Extends (pure a) c Q :=
  ⟨.refl, fun b hb => by
    cases hb
    exact h⟩

/-- A failure on its own changes nothing. -/
theorem extends_throw (e : ConstructionFault) : Extends (throw e) c Q :=
  ⟨.refl, fun b hb => by cases hb⟩

/-- The changes of one operation after another, the second starting from what the first has
ensured. -/
theorem extends_bind {m : Build α} {f : α → Build β} {R : β → Construction → Prop}
    (hm : Extends m c Q) (hf : ∀ a c', Q a c' → Extends (f a) c' R) :
    Extends (m >>= f) c R := by
  obtain ⟨grown, ok⟩ := hm
  rw [Extends, run_bind]
  revert grown ok
  rcases m.run c with ⟨e | a, c'⟩ <;> intro grown ok
  · exact ⟨grown, fun b hb => by cases hb⟩
  · obtain ⟨grown', ok'⟩ := hf a c' (ok a rfl)
    exact ⟨grown.trans grown', ok'⟩

/-- The changes do not depend on what is made of the result. -/
theorem extends_map {m : Build α} (hm : Extends m c Q) (f : α → β) :
    Extends (f <$> m) c fun _ _ => True := by
  rw [← bind_pure_comp]
  exact extends_bind hm fun _ _ _ => extends_pure trivial

end

section
variable {c : Construction}

/-- Looking at the construction does not change it. -/
theorem extends_get {Q : Construction → Construction → Prop} (h : Q c c) :
    Extends get c Q :=
  ⟨.refl, fun b hb => by
    cases hb
    exact h⟩

/-- After a check, what is checked can be relied on. -/
theorem extends_check {Q : Unit → Construction → Prop} {ok : Bool} {fault : ConstructionFault}
    (h : ok = true → Q () c) : Extends (check ok fault) c Q := by
  cases ok with
  | true => exact extends_pure (h rfl)
  | false => exact extends_throw fault

/-- A line that is required is drawn by a step. -/
theorem extends_requireLine {Q : Point × Point → Construction → Prop} {l : Line}
    (h : ∀ a b, .line l a b ∈ c.steps → Q (a, b) c) : Extends (requireLine l) c Q := by
  refine extends_bind (Q := fun c' c'' => c = c' ∧ c = c'') (extends_get ⟨rfl, rfl⟩) ?_
  rintro _ _ ⟨rfl, rfl⟩
  cases hl : c.line? l with
  | none => exact extends_throw _
  | some ends => exact extends_pure (h ends.1 ends.2 (Construction.mem_of_line? hl))

/-- Nothing is wrong with a definition if and only if its points are constructed. -/
theorem kindFault?_eq_none_iff {label : String} {kind : PointKind} :
    kindFault? c label kind = none ↔ ∀ q ∈ kind.support, MadeBy c.steps q := by
  simp only [← Construction.contains_iff, PointKind.support, List.forall_mem_append]
  rw [kindFault?]
  cases defining : kind.definingPoints.find? (!c.contains ·) with
  | some p =>
    have missing := List.find?_some defining
    have mem := List.mem_of_find?_eq_some defining
    simp only [reduceCtorEq, false_iff]
    rintro ⟨h, -⟩
    simp [h p mem] at missing
  | none =>
    have made : ∀ p ∈ kind.definingPoints, c.contains p = true := fun p hp => by
      simpa using List.find?_eq_none.1 defining p hp
    cases kind.coefficient? with
    | none => simpa using made
    | some r => simpa [List.find?_eq_none] using fun _ => made

/-- A point is added by one change, once its kind has been checked. -/
theorem extends_point (label : String) (kind : PointKind) (drawn : kind.DrawnBy c.steps) :
    Extends (point label kind) c fun _ _ => True := by
  refine extends_bind (Q := fun c' c'' => c = c' ∧ c = c'') (extends_get ⟨rfl, rfl⟩) ?_
  rintro _ _ ⟨rfl, rfl⟩
  cases fault : kindFault? c label kind with
  | some f => exact extends_throw f
  | none =>
    refine extends_bind (extends_check (Q := fun _ c => pointTaken c label = false ∧
      kindFault? c label kind = none ∧ kind.DrawnBy c.steps) fun h => ?_) ?_
    · exact ⟨by simpa using h, fault, drawn⟩
    · rintro _ c ⟨free, fault, drawn⟩
      exact ⟨.single (.point c label kind (kindFault?_eq_none_iff.1 fault) drawn free),
        fun _ _ => trivial⟩

/-- A line is added by one change, once its ends have been checked. -/
theorem extends_line (label : String) (a b : Point) :
    Extends (line label a b) c fun _ _ => True := by
  refine extends_bind (Q := fun c' c'' => c = c' ∧ c = c'') (extends_get ⟨rfl, rfl⟩) ?_
  rintro _ _ ⟨rfl, rfl⟩
  refine extends_bind (extends_check (Q := fun _ c' => c = c' ∧ c.contains a = true)
    fun h => ⟨rfl, h⟩) ?_
  rintro _ _ ⟨rfl, ha⟩
  refine extends_bind (extends_check (Q := fun _ c' => c = c' ∧ c.contains b = true)
    fun h => ⟨rfl, h⟩) ?_
  rintro _ _ ⟨rfl, hb⟩
  refine extends_bind (extends_check (Q := fun _ c' => c = c' ∧ (a != b) = true)
    fun h => ⟨rfl, h⟩) ?_
  rintro _ _ ⟨rfl, hab⟩
  refine extends_bind (extends_check (Q := fun _ c' => c = c' ∧ (!lineTaken c label) = true)
    fun h => ⟨rfl, h⟩) ?_
  rintro _ _ ⟨rfl, free⟩
  exact ⟨.single (.line c label a b (Construction.contains_iff.1 ha)
    (Construction.contains_iff.1 hb) (by simpa using hab) (by simpa using free)),
    fun _ _ => trivial⟩

/-- A point at a ratio needs no lines. -/
theorem extends_ratioPoint (label : String) (w u v : Point) (r : Expr) :
    Extends (ratioPoint label w u v r) c fun _ _ => True :=
  extends_point label (.ratio w u v r) trivial

/-- The foot on a line is a point whose line is drawn. -/
theorem extends_foot (label : String) (p : Point) (l : Line) :
    Extends (foot label p l) c fun _ _ => True := by
  refine extends_bind (extends_requireLine (Q := fun ends c =>
    .line l ends.1 ends.2 ∈ c.steps) fun a b h => h) ?_
  rintro ⟨u, v⟩ c drawn
  exact extends_point label _ ⟨l, drawn⟩

/-- The intersection of two lines is a point whose lines are drawn and different. -/
theorem extends_intersection (label : String) (l m : Line) :
    Extends (intersection label l m) c fun _ _ => True := by
  refine extends_bind (extends_requireLine (Q := fun ends c =>
    .line l ends.1 ends.2 ∈ c.steps) fun a b h => h) ?_
  rintro ⟨u, v⟩ c drawn
  refine extends_bind (extends_requireLine (Q := fun ends c => .line l u v ∈ c.steps ∧
    .line m ends.1 ends.2 ∈ c.steps) fun a b h => ⟨drawn, h⟩) ?_
  rintro ⟨p, q⟩ c ⟨drawn, drawn'⟩
  refine extends_bind (extends_check (Q := fun _ c => l ≠ m ∧ .line l u v ∈ c.steps ∧
    .line m p q ∈ c.steps) fun h => ⟨by simpa using h, drawn, drawn'⟩) ?_
  rintro _ c ⟨different, drawn, drawn'⟩
  exact extends_point label _ ⟨l, m, different, drawn, drawn'⟩

/-- A reflection adds the foot and then the point beyond it. -/
theorem extends_reflection (label : String) (p : Point) (l : Line) :
    Extends (reflection label p l) c fun _ _ => True := by
  refine extends_bind (Q := fun _ _ => True) (extends_get trivial) fun _ _ _ => ?_
  refine extends_bind (Q := fun _ _ => True) (extends_check fun _ => trivial) fun _ _ _ => ?_
  refine extends_bind (Q := fun _ _ => True) (extends_requireLine fun _ _ _ => trivial)
    fun _ _ _ => ?_
  refine extends_bind (Q := fun _ _ => True) (extends_check fun _ => trivial) fun _ _ _ => ?_
  exact extends_bind (extends_foot _ p l) fun _ _ _ => extends_ratioPoint label _ _ _ _

/-- Every request makes such changes only. -/
theorem extends_run (request : Command) : Extends request.run c fun _ _ => True := by
  cases request with
  | free label => exact extends_map (extends_point label .free trivial) _
  | line label a b => exact extends_map (extends_line label a b) _
  | intersection label l m => exact extends_map (extends_intersection label l m) _
  | foot label p l => exact extends_map (extends_foot label p l) _
  | ratioPoint label w u v r => exact extends_map (extends_ratioPoint label w u v r) _
  | midpoint label a b => exact extends_map (extends_ratioPoint label _ _ _ _) _
  | pointOnLine label l parameter =>
    exact extends_map (extends_bind (Q := fun _ _ => True)
      (extends_requireLine fun _ _ _ => trivial) fun _ _ _ => extends_ratioPoint label _ _ _ _) _
  | reflection label p l => exact extends_map (extends_reflection label p l) _
  | internPoint label =>
    exact extends_map (Q := fun _ _ => True)
      ⟨.single (.internPoint c label), fun _ _ => trivial⟩ _
  | internLine label =>
    exact extends_map (Q := fun _ _ => True)
      ⟨.single (.internLine c label), fun _ _ => trivial⟩ _

end

end Build

/-! ## Built constructions -/

namespace Construction

/-- The constructions that requests lead to, from the empty one; a request that fails may have given
labels before, or made a point. -/
inductive Built : Construction → Prop
  | empty : Built .empty
  | perform (request : Command) {c : Construction} (h : Built c) : Built (c.perform request).2

/-- The construction that requests lead to, one after another, from the empty one. -/
def after (requests : List Command) : Construction :=
  requests.foldl (fun c request => (c.perform request).2) .empty

/-- Requests that are made one after another build a construction. -/
theorem built_after (requests : List Command) : (after requests).Built :=
  List.foldlRecOn requests (motive := Built) (fun c request => (c.perform request).2) .empty
    fun _ h request _ => h.perform request

/-- What holds of the empty construction and is kept by every change holds of every construction
that is built. -/
theorem Built.grown {P : Construction → Prop} (empty : P .empty)
    (grows : ∀ c c', Grows c c' → P c → P c') {c : Construction} (h : c.Built) : P c := by
  induction h with
  | empty => exact empty
  | @perform request c _ ih =>
    have changes := (Build.extends_run request (c := c)).1
    rw [Construction.perform]
    generalize (request.run.run c).2 = c' at changes
    induction changes with
    | refl => exact ih
    | tail _ change ih => exact grows _ _ change ih

/-- What each step is required to satisfy, given the steps before, is satisfied by one more. -/
theorem forall_append {P : List Step → Step → Prop} {steps : List Step} {last : Step}
    (h : ∀ before s after, steps = before ++ s :: after → P before s) (hlast : P steps last) :
    ∀ before s after, steps ++ [last] = before ++ s :: after → P before s := by
  intro before s after he
  rcases List.eq_nil_or_concat after with rfl | ⟨after, s', rfl⟩
  · obtain ⟨rfl, hs⟩ := List.append_inj' he rfl
    exact (List.cons.inj hs).1 ▸ hlast
  · rw [List.concat_eq_append, ← List.cons_append, ← List.append_assoc] at he
    exact h before s after (List.append_inj' he rfl).1

/-- Is the step about what the steps before have made and drawn, and is a line drawn through two
different points? -/
def Follows (before : List Step) (s : Step) : Prop :=
  (∀ q ∈ s.support, MadeBy before q) ∧
    match s with
    | .point _ kind => kind.DrawnBy before
    | .line _ a b => a ≠ b

/-- Every step of a construction that is built follows from those before it. -/
theorem Built.follows {c : Construction} (h : c.Built) :
    ∀ before s after, c.steps = before ++ s :: after → Follows before s := by
  refine Built.grown (P := fun c => ∀ before s after, c.steps = before ++ s :: after →
    Follows before s) (fun before s after h => ?_) (fun c c' change follows => ?_) h
  · simp [Construction.empty] at h
  · cases change with
    | internPoint label => exact follows
    | internLine label => exact follows
    | point label kind made drawn free => exact forall_append follows ⟨made, drawn⟩
    | line label a b ha hb hab free =>
      refine forall_append follows ⟨?_, hab⟩
      simpa [Step.support] using ⟨ha, hb⟩

/-- In a construction that is built every step refers to points made before. -/
theorem Built.grounded {c : Construction} (h : c.Built) : Grounded c.steps :=
  fun before s after hs => (h.follows before s after hs).1

/-- In a construction that is built labels of one kind are paired with their numbers, and those that
are taken have labels, if that is so at first and labels change in no other way than they can. -/
theorem Built.numbers (table : Construction → Labels) (taken : Construction → List UInt32)
    (empty : table .empty = .empty ∧ taken .empty = [])
    (change : ∀ c c', Grows c c' → (table c).Change (taken c) (table c') (taken c'))
    {c : Construction} (h : c.Built) (hc : (table c).count ≤ 2 ^ 32) :
    (table c).Numbers (taken c) := by
  revert hc
  refine Built.grown (P := fun c => (table c).count ≤ 2 ^ 32 → (table c).Numbers (taken c))
    (fun _ => ?_) (fun c c' grows => (change c c' grows).numbers) h
  rw [empty.1, empty.2]
  exact Labels.numbers_empty

/-- The points of a construction that is built are made once and have labels, as long as there are
numbers for the labels. -/
theorem Built.pointNumbers {c : Construction} (h : c.Built)
    (hc : c.symbols.points.count ≤ 2 ^ 32) :
    c.symbols.points.Numbers (c.points.map (·.1.number)) := by
  refine Built.numbers (·.symbols.points) (·.points.map (·.1.number)) ⟨rfl, rfl⟩
    (fun c c' grows => ?_) h hc
  cases grows with
  | internPoint label => exact .intern label
  | internLine label => exact .none
  | point label kind made drawn free =>
    have taken : c.symbols.points.Change (c.points.map (·.1.number)) _ _ :=
      .take label fun n hn hmem => by
        rw [Build.pointTaken, SymbolTable.point?, hn] at free
        obtain ⟨⟨p, k⟩, hp, rfl⟩ := List.mem_map.1 hmem
        exact Bool.false_ne_true (free.symm.trans (contains_iff.2 ⟨k, mem_points_iff.1 hp⟩))
    simpa [points, Step.point?, SymbolTable.internPoint] using taken
  | line label a b ha hb hab free =>
    simpa [points, Step.point?, List.filterMap_cons, SymbolTable.internLine] using
      Labels.Change.none

/-- The lines of a construction that is built are drawn once and have labels, as long as there are
numbers for the labels. -/
theorem Built.lineNumbers {c : Construction} (h : c.Built)
    (hc : c.symbols.lines.count ≤ 2 ^ 32) :
    c.symbols.lines.Numbers (c.lines.map (·.number)) := by
  refine Built.numbers (·.symbols.lines) (·.lines.map (·.number)) ⟨rfl, rfl⟩
    (fun c c' grows => ?_) h hc
  cases grows with
  | internPoint label => exact .none
  | internLine label => exact .intern label
  | point label kind made drawn free =>
    simpa [lines, Step.line?, List.filterMap_cons, SymbolTable.internPoint] using
      Labels.Change.none
  | line label a b ha hb hab free =>
    have taken : c.symbols.lines.Change (c.lines.map (·.number)) _ _ :=
      .take label fun n hn hmem => by
        rw [Build.lineTaken, SymbolTable.line?, hn] at free
        obtain ⟨l, hl, rfl⟩ := List.mem_map.1 hmem
        exact Bool.false_ne_true (free.symm.trans (isSome_line?_iff.2 hl))
    simpa [lines, Step.line?, SymbolTable.internLine] using taken

/-- In a construction that is built every point is made once and from points made before, as long as
there are numbers for the labels. -/
theorem Built.ordered {c : Construction} (h : c.Built) (hc : c.symbols.points.count ≤ 2 ^ 32) :
    Ordered c.steps := by
  refine h.grounded.ordered (List.Nodup.of_map Point.number ?_)
  rw [List.map_map]
  exact (h.pointNumbers hc).nodup

/-- Points and lines have different numbers and their labels lead back to them, every step refers to
points made before, lines go through two points, and intersections and feet are on lines drawn
before. -/
structure WellFormed (c : Construction) : Prop where
  points_nodup : (c.points.map Prod.fst).Nodup
  lines_nodup : c.lines.Nodup
  support : ∀ before s after, c.steps = before ++ s :: after → ∀ p ∈ s.support, MadeBy before p
  ends : ∀ l a b, .line l a b ∈ c.steps → a ≠ b
  drawn : ∀ before p kind after, c.steps = before ++ .point p kind :: after → kind.DrawnBy before
  pointLabel : ∀ p kind, .point p kind ∈ c.steps →
    ∃ label, c.symbols.pointLabel? p = some label ∧ c.symbols.point? label = some p
  lineLabel : ∀ l a b, .line l a b ∈ c.steps →
    ∃ label, c.symbols.lineLabel? l = some label ∧ c.symbols.line? label = some l

/-- A construction that is built is well-formed, whatever requests have been made and whichever of
them have failed, as long as there are numbers for the labels. -/
theorem Built.wellFormed {c : Construction} (h : c.Built)
    (hp : c.symbols.points.count ≤ 2 ^ 32) (hl : c.symbols.lines.count ≤ 2 ^ 32) :
    c.WellFormed where
  points_nodup := by
    refine List.Nodup.of_map Point.number ?_
    rw [List.map_map]
    exact (h.pointNumbers hp).nodup
  lines_nodup := (h.lineNumbers hl).nodup.of_map _
  support := h.grounded
  ends l a b hs := by
    obtain ⟨before, after, hs⟩ := List.append_of_mem hs
    exact (h.follows before _ after hs).2
  drawn before p kind after hs := (h.follows before _ after hs).2
  pointLabel p kind hs := by
    have numbers := h.pointNumbers hp
    obtain ⟨label, hn⟩ := numbers.named p.number
      (List.mem_map.2 ⟨(p, kind), mem_points_iff.2 hs, rfl⟩)
    exact ⟨label, numbers.paired label _ hn, by simp [SymbolTable.point?, hn]⟩
  lineLabel l a b hs := by
    have numbers := h.lineNumbers hl
    obtain ⟨label, hn⟩ := numbers.named l.number
      (List.mem_map.2 ⟨l, mem_lines_iff.2 ⟨a, b, hs⟩, rfl⟩)
    exact ⟨label, numbers.paired label _ hn, by simp [SymbolTable.line?, hn]⟩

/-- A label given before its point is made, and requests that fail: a label is taken, or a line has
one point only. -/
def partlyFailing : List Command :=
  [.internPoint "M", .free "A", .free "B", .line "l" ⟨1⟩ ⟨2⟩, .free "A", .line "m" ⟨1⟩ ⟨1⟩,
    .free "C", .foot "F" ⟨3⟩ ⟨0⟩, .midpoint "M" ⟨1⟩ ⟨2⟩, .reflection "R" ⟨3⟩ ⟨0⟩]

/-- Requests that fail among others leave a construction that is well formed. -/
theorem wellFormed_partlyFailing :
    (after partlyFailing).points.map Prod.fst = [⟨1⟩, ⟨2⟩, ⟨3⟩, ⟨4⟩, ⟨0⟩, ⟨5⟩, ⟨6⟩] ∧
      (after partlyFailing).WellFormed := by
  have made : (after partlyFailing).points.map Prod.fst =
      [⟨1⟩, ⟨2⟩, ⟨3⟩, ⟨4⟩, ⟨0⟩, ⟨5⟩, ⟨6⟩] := by cbv
  have points : (after partlyFailing).symbols.points.count = 7 := by cbv
  have lines : (after partlyFailing).symbols.lines.count = 1 := by cbv
  exact ⟨made, Built.wellFormed (built_after partlyFailing) (points ▸ by decide)
    (lines ▸ by decide)⟩

end Construction

/-! ## Requests that fail -/

namespace Build

variable {c : Construction}

/-- A check either succeeds or fails, over the same construction. -/
theorem run_check (ok : Bool) (fault : ConstructionFault) :
    (check ok fault).run c = (if ok then .ok () else .error fault, c) := by
  cases ok <;> rfl

/-- A line is looked up without a change of the construction. -/
theorem run_requireLine (l : Line) :
    (requireLine l).run c =
      (match c.line? l with
        | some ends => .ok ends
        | none => .error (.lineMissing l), c) := by
  have current : (get : Build Construction).run c = (.ok c, c) := rfl
  rw [requireLine, run_bind, current]
  dsimp only
  cases c.line? l <;> rfl

/-- The construction with one more point of that label. -/
def withPoint (c : Construction) (label : String) (kind : PointKind) : Construction :=
  ⟨(c.symbols.internPoint label).2, c.steps ++ [.point (c.symbols.internPoint label).1 kind]⟩

/-- A point is added, or what is wrong with it is told, before anything is changed. -/
theorem run_point (label : String) (kind : PointKind) :
    (point label kind).run c =
      match kindFault? c label kind with
      | some fault => (.error fault, c)
      | none =>
        if pointTaken c label then (.error (.pointTaken label), c)
        else (.ok (c.symbols.internPoint label).1, withPoint c label kind) := by
  have current : (get : Build Construction).run c = (.ok c, c) := rfl
  rw [point, run_bind, current]
  dsimp only
  cases kindFault? c label kind with
  | some fault => rfl
  | none =>
    cases taken : pointTaken c label with
    | true => rfl
    | false => rfl

/-- The operation leaves the construction as it was if it fails. -/
def Harmless (m : Build α) (c : Construction) : Prop :=
  ∀ fault, (m.run c).1 = .error fault → (m.run c).2 = c

/-- What succeeds is harmless. -/
theorem harmless_of_ok {m : Build α} {a : α} (h : (m.run c).1 = .ok a) : Harmless m c := by
  intro fault failed
  rw [h] at failed
  cases failed

/-- What comes after an operation that changes nothing is all that counts. -/
theorem harmless_bind {m : Build α} {f : α → Build β} (looks : (m.run c).2 = c)
    (hf : ∀ a, (m.run c).1 = .ok a → Harmless (f a) c) : Harmless (m >>= f) c := by
  rw [Harmless, run_bind]
  revert looks hf
  rcases m.run c with ⟨e | a, c'⟩ <;> rintro rfl hf
  · exact fun _ _ => rfl
  · exact hf a rfl

/-- What is made of the result does no harm. -/
theorem harmless_map {m : Build α} (h : Harmless m c) (f : α → β) : Harmless (f <$> m) c := by
  intro fault failed
  rw [← bind_pure_comp, run_bind] at failed ⊢
  rcases run : m.run c with ⟨e | a, c'⟩ <;> rw [run] at failed
  · exact (congrArg Prod.snd run).symm.trans (h e (congrArg Prod.fst run))
  · cases failed

/-- A check does no harm. -/
theorem harmless_check {ok : Bool} {fault : ConstructionFault} {f : Unit → Build α}
    (hf : ok = true → Harmless (f ()) c) : Harmless (check ok fault >>= f) c := by
  refine harmless_bind (by rw [run_check]) fun _ h => hf ?_
  rw [run_check] at h
  cases ok with
  | true => rfl
  | false => cases h

/-- Looking up a line does no harm. -/
theorem harmless_requireLine {l : Line} {f : Point × Point → Build α}
    (hf : ∀ ends, c.line? l = some ends → Harmless (f ends) c) :
    Harmless (requireLine l >>= f) c := by
  refine harmless_bind (by rw [run_requireLine]) fun ends h => hf ends ?_
  rw [run_requireLine] at h
  cases hl : c.line? l with
  | some ends' =>
    rw [hl] at h
    cases h
    rfl
  | none =>
    rw [hl] at h
    cases h

/-- A point that cannot be added is not. -/
theorem harmless_point (label : String) (kind : PointKind) : Harmless (point label kind) c := by
  intro fault
  rw [run_point]
  cases kindFault? c label kind with
  | some fault => exact fun _ => rfl
  | none =>
    cases pointTaken c label with
    | true => exact fun _ => rfl
    | false => exact fun failed => by cases failed

/-- A line that cannot be added is not. -/
theorem harmless_line (label : String) (a b : Point) : Harmless (line label a b) c := by
  refine harmless_bind rfl fun c' h => ?_
  cases h
  refine harmless_check fun _ => harmless_check fun _ => harmless_check fun _ =>
    harmless_check fun _ => ?_
  exact harmless_of_ok rfl

/-- A foot that cannot be added is not. -/
theorem harmless_foot (label : String) (p : Point) (l : Line) : Harmless (foot label p l) c :=
  harmless_requireLine fun _ _ => harmless_point label _

/-- After a point has been made, another one can be made from it and from points that were there,
under a label that was not taken: the new point has another number than the label. -/
theorem run_point_withPoint {ns : List UInt32} (numbers : c.symbols.points.Numbers ns)
    (room : c.symbols.points.count < 2 ^ 32) {label label' : String} (kind kind' : PointKind)
    (other : label ≠ label') (free : pointTaken c label = false)
    (support : ∀ p ∈ kind.support, c.contains p = true ∨ p = (c.symbols.internPoint label').1) :
    ∃ p c', (point label kind).run (withPoint c label' kind') = (.ok p, c') := by
  have count : (c.symbols.points.intern label').2.count ≤ 2 ^ 32 :=
    (Labels.count_intern_le _ _).trans room
  have contains : ∀ p, (withPoint c label' kind').contains p = true ↔
      c.contains p = true ∨ p = (c.symbols.internPoint label').1 := by
    intro p
    simp only [Construction.contains_iff, MadeBy, withPoint, List.mem_append, List.mem_singleton,
      Step.point.injEq]
    constructor
    · rintro ⟨k, h | ⟨rfl, rfl⟩⟩
      · exact .inl ⟨k, h⟩
      · exact .inr rfl
    · rintro (⟨k, h⟩ | rfl)
      · exact ⟨k, .inl h⟩
      · exact ⟨kind', .inr ⟨rfl, rfl⟩⟩
  have fault : kindFault? (withPoint c label' kind') label kind = none :=
    kindFault?_eq_none_iff.2 fun p hp =>
      Construction.contains_iff.1 ((contains p).2 (support p hp))
  have taken : pointTaken (withPoint c label' kind') label = false := by
    rw [pointTaken, SymbolTable.point?] at free ⊢
    change Option.any _ (Option.map _ ((c.symbols.points.intern label').2.number? label)) = false
    rw [Labels.number?_intern_of_ne other]
    cases hn : c.symbols.points.number? label with
    | none => rfl
    | some n =>
      rw [hn] at free
      rw [Option.map_some, Option.any_some, ← Bool.not_eq_true, contains]
      rintro (h | h)
      · exact Bool.false_ne_true (free.symm.trans h)
      · exact numbers.intern_ne count other hn (congrArg Point.number h).symm
  rw [run_point, fault, taken]
  exact ⟨_, _, rfl⟩

/-- A reflection adds both its points or nothing: once the foot has been added under a label of its
own, nothing keeps the image from being added. -/
theorem harmless_reflection {ns : List UInt32} (numbers : c.symbols.points.Numbers ns)
    (room : c.symbols.points.count < 2 ^ 32) (label : String) (p : Point) (l : Line) :
    Harmless (reflection label p l) c := by
  refine harmless_bind rfl fun c' h => ?_
  cases h
  refine harmless_check fun hp => harmless_requireLine fun ends hl => harmless_check fun free => ?_
  have other : label ≠ label ++ "_foot" := fun h => by simpa using congrArg String.length h
  obtain ⟨q, c', image⟩ := run_point_withPoint numbers room
    (.ratio p p (c.symbols.internPoint (label ++ "_foot")).1 (.rational 2))
    (.foot p ends.1 ends.2) other (by simpa using free)
    (by simp [PointKind.support, PointKind.definingPoints, PointKind.coefficient?, Expr.points,
      Expr.rational, Expr.atomList, ascending, hp])
  rw [Harmless, run_bind, foot, run_bind, run_requireLine, hl]
  dsimp only
  rw [run_point]
  cases kindFault? c (label ++ "_foot") (.foot p ends.1 ends.2) with
  | some fault => exact fun _ _ => rfl
  | none =>
    cases pointTaken c (label ++ "_foot") with
    | true => exact fun _ _ => rfl
    | false =>
      intro fault failed
      cases (congrArg Prod.fst image).symm.trans failed

end Build

namespace Construction

/-- A request that fails leaves the steps and all labels as they were, as long as there is a number
for one more label. -/
theorem Built.perform_of_error {c : Construction} (h : c.Built)
    (room : c.symbols.points.count < 2 ^ 32) {request : Command} {fault : ConstructionFault}
    (failed : (c.perform request).1 = .error fault) : (c.perform request).2 = c := by
  suffices harmless : Build.Harmless request.run c from harmless fault failed
  cases request with
  | free label => exact Build.harmless_map (Build.harmless_point label .free) _
  | line label a b => exact Build.harmless_map (Build.harmless_line label a b) _
  | intersection label l m =>
    exact Build.harmless_map (Build.harmless_requireLine fun _ _ => Build.harmless_requireLine
      fun _ _ => Build.harmless_check fun _ => Build.harmless_point label _) _
  | foot label p l => exact Build.harmless_map (Build.harmless_foot label p l) _
  | ratioPoint label w u v r => exact Build.harmless_map (Build.harmless_point label _) _
  | midpoint label a b => exact Build.harmless_map (Build.harmless_point label _) _
  | pointOnLine label l parameter =>
    exact Build.harmless_map (Build.harmless_requireLine fun _ _ => Build.harmless_point label _) _
  | reflection label p l =>
    exact Build.harmless_map
      (Build.harmless_reflection (h.pointNumbers room.le) room label p l) _
  | internPoint label => exact Build.harmless_of_ok rfl
  | internLine label => exact Build.harmless_of_ok rfl

/-- The label for the foot of a reflection is that of a point already. -/
def footTaken : List Command :=
  [.free "A", .free "B", .free "C", .line "l" ⟨0⟩ ⟨1⟩, .internPoint "R", .free "R_foot"]

/-- Where the label of the foot is taken, a reflection fails and the construction stays as it
was. -/
theorem reflection_onto_taken_foot :
    ((after footTaken).perform (.reflection "R" ⟨2⟩ ⟨0⟩)).1 = .error (.pointTaken "R_foot") ∧
      ((after footTaken).perform (.reflection "R" ⟨2⟩ ⟨0⟩)).2 = after footTaken := by
  have failed : ((after footTaken).perform (.reflection "R" ⟨2⟩ ⟨0⟩)).1 =
      .error (.pointTaken "R_foot") := by cbv
  have points : (after footTaken).symbols.points.count = 5 := by cbv
  exact ⟨failed, Built.perform_of_error (built_after footTaken) (points ▸ by decide) failed⟩

end Construction

end AreaMethod
