import AreaMethod.Proofs.Building

/-!
# Symbol tables

A symbol table is asked for the point or the line of a label, which is new if the label is, and for
what it knows already. Whatever it is asked, labels and numbers stay paired one to one, and the
numbers in use are those below the count, as long as there are numbers for the labels
(`Labels.Paired.intern` for one label, `Labels.Paired.internAll` for any number of them). What is
known already is never changed, so each reply stays true (`SymbolTable.replies_stay_true`).
-/

namespace AreaMethod

/-! ## Labels of one sort -/

namespace Labels

/-- Is each label that of its number, and each number that of its label? -/
def Paired (t : Labels) : Prop :=
  ∀ label n, t.number? label = some n ↔ t.label? n = some label

/-- The labels after some more have been asked for. -/
def internAll (t : Labels) (labels : List String) : Labels :=
  labels.foldl (fun t label => (t.intern label).2) t

variable {t : Labels} {label : String}

/-- Without labels there is nothing to pair. -/
theorem paired_empty : empty.Paired := by
  simp [Paired, empty, number?, label?]

/-- A label that has a number changes nothing. -/
theorem intern_of_some {n : UInt32} (h : t.number? label = some n) : t.intern label = (n, t) := by
  rw [intern, h]

/-- A label that has no number comes last. -/
theorem label?_intern_of_none (new : t.number? label = none) {n : UInt32} {l : String} :
    (t.intern label).2.label? n = some l ↔
      t.label? n = some l ∨ n.toNat = t.count ∧ label = l := by
  rw [intern, new, label?, label?, count]
  rcases lt_trichotomy n.toNat t.labels.length with before | last | after
  · rw [List.getElem?_append_left before]
    exact (or_iff_left fun h => before.ne h.1).symm
  · simp [last]
  · rw [List.getElem?_eq_none (by simpa using after), List.getElem?_eq_none after.le]
    simp [after.ne']

/-- The number of a label that had none is the count of labels. -/
theorem toNat_intern_of_none (new : t.number? label = none)
    (hc : (t.intern label).2.count ≤ 2 ^ 32) : (t.intern label).1.toNat = t.count := by
  rw [intern, new] at hc ⊢
  have room : t.count < 2 ^ 32 := by simpa [count] using hc
  rw [Nat.toUInt32_eq, UInt32.toNat_ofNat', Nat.mod_eq_of_lt room]

/-- One more label keeps labels and numbers paired. -/
theorem Paired.intern (h : t.Paired) (hc : (t.intern label).2.count ≤ 2 ^ 32) :
    (t.intern label).2.Paired := by
  cases hn : t.number? label with
  | some n =>
    rw [intern_of_some hn]
    exact h
  | none =>
    have last := toNat_intern_of_none hn hc
    intro l n
    rw [label?_intern_of_none hn, ← h]
    by_cases hl : l = label
    · subst hl
      rw [number?_intern, hn, Option.some.injEq, ← UInt32.toNat_inj, last]
      simp [eq_comm]
    · rw [number?_intern_of_ne hl]
      exact (or_iff_left fun h => hl h.2.symm).symm

/-- The numbers in use are those below the count. -/
theorem Paired.exists_number?_iff (h : t.Paired) (n : UInt32) :
    (∃ label, t.number? label = some n) ↔ n.toNat < t.count := by
  simp only [h _ n]
  constructor
  · rintro ⟨label, hl⟩
    exact (List.getElem?_eq_some_iff.1 hl).1
  · exact fun hn => ⟨_, List.getElem?_eq_getElem hn⟩

/-- Labels do not get fewer. -/
theorem count_le_count_internAll (t : Labels) (ls : List String) :
    t.count ≤ (t.internAll ls).count := by
  induction ls generalizing t with
  | nil => exact le_rfl
  | cons l ls ih => exact (count_le_count_intern t l).trans (ih _)

/-- Numbers stay with their labels. -/
theorem number?_internAll_of_some {n : UInt32} (h : t.number? label = some n) (ls : List String) :
    (t.internAll ls).number? label = some n := by
  induction ls generalizing t with
  | nil => exact h
  | cons l ls ih => exact ih (number?_intern_of_some h)

/-- Any number of labels keeps labels and numbers paired. -/
theorem Paired.internAll (h : t.Paired) {ls : List String}
    (hc : (t.internAll ls).count ≤ 2 ^ 32) : (t.internAll ls).Paired := by
  induction ls generalizing t with
  | nil => exact h
  | cons l ls ih => exact ih (h.intern ((count_le_count_internAll _ ls).trans hc)) hc

end Labels

/-! ## Tables of points and lines -/

/-- Are labels paired one to one with what they are found to stand for, and are the numbers of that
those below the count? -/
structure Pairing (find : String → Option α) (name : α → Option String) (number : α → Nat)
    (count : Nat) : Prop where
  find_iff : ∀ label a, find label = some a ↔ name a = some label
  used_iff : ∀ a, (∃ label, find label = some a) ↔ number a < count

/-- Paired labels and numbers, if things are made of numbers one to one. -/
theorem Labels.Paired.pairing {t : Labels} (h : t.Paired) {f : UInt32 → α} {g : α → UInt32}
    (hg : ∀ a n, f n = a ↔ n = g a) :
    Pairing (fun label => (t.number? label).map f) (fun a => t.label? (g a))
      (fun a => (g a).toNat) t.count := by
  have find : ∀ label a, (t.number? label).map f = some a ↔ t.number? label = some (g a) := by
    intro label a
    rw [Option.map_eq_some_iff]
    simp only [hg, exists_eq_right]
  exact ⟨fun label a => (find label a).trans (h label (g a)), fun a =>
    (exists_congr fun label => find label a).trans (h.exists_number?_iff (g a))⟩

namespace SymbolTable

/-- What a symbol table can be asked. -/
inductive Request where
  | internPoint (label : String)
  | internLine (label : String)
  | findPoint (label : String)
  | findLine (label : String)
  | namePoint (p : Point)
  | nameLine (l : Line)

/-- A reply says what a label stands for, or nothing. -/
inductive Reply where
  | point (label : String) (p : Point)
  | line (label : String) (l : Line)
  | nothing

namespace Request

/-- The label of which a point is wanted, also if the label is new. -/
def pointLabel? : Request → Option String
  | internPoint label => some label
  | _ => none

/-- The label of which a line is wanted, also if the label is new. -/
def lineLabel? : Request → Option String
  | internLine label => some label
  | _ => none

end Request

/-- Answers a request: the reply, and the table after it. -/
def perform (t : SymbolTable) : Request → Reply × SymbolTable
  | .internPoint label => ((.point label (t.internPoint label).1), (t.internPoint label).2)
  | .internLine label => ((.line label (t.internLine label).1), (t.internLine label).2)
  | .findPoint label => ((t.point? label).elim .nothing (.point label), t)
  | .findLine label => ((t.line? label).elim .nothing (.line label), t)
  | .namePoint p => ((t.pointLabel? p).elim .nothing (.point · p), t)
  | .nameLine l => ((t.lineLabel? l).elim .nothing (.line · l), t)

/-- The table after some requests. -/
def afterAll (t : SymbolTable) (requests : List Request) : SymbolTable :=
  requests.foldl (fun t request => (t.perform request).2) t

variable {t : SymbolTable}

/-- Points and lines do not depend on each other, and looking up has no effect on either. -/
theorem afterAll_eq (t : SymbolTable) (requests : List Request) :
    t.afterAll requests = ⟨t.points.internAll (requests.filterMap Request.pointLabel?),
      t.lines.internAll (requests.filterMap Request.lineLabel?)⟩ := by
  induction requests generalizing t with
  | nil => rfl
  | cons request requests ih =>
    refine (ih _).trans ?_
    cases request with
    | internPoint | internLine | findPoint | findLine | namePoint | nameLine => rfl

/-- A reply is true of a table that knows both the label and what it stands for, and to which the
label is not new. -/
def Knows (t : SymbolTable) : Reply → Prop
  | .point label p =>
    t.point? label = some p ∧ t.pointLabel? p = some label ∧ t.internPoint label = (p, t)
  | .line label l =>
    t.line? label = some l ∧ t.lineLabel? l = some label ∧ t.internLine label = (l, t)
  | .nothing => True

/-- The labels of points are paired with points. -/
theorem pairing_points (h : t.points.Paired) :
    Pairing t.point? t.pointLabel? (fun p => p.number.toNat) t.points.count :=
  h.pairing (f := Point.mk) fun p n => by cases p; simp

/-- The labels of lines are paired with lines. -/
theorem pairing_lines (h : t.lines.Paired) :
    Pairing t.line? t.lineLabel? (fun l => l.number.toNat) t.lines.count :=
  h.pairing (f := Line.mk) fun l n => by cases l; simp

/-- Are the labels of points and those of lines paired with their numbers? -/
structure Paired (t : SymbolTable) : Prop where
  points : t.points.Paired
  lines : t.lines.Paired

/-- Requests keep labels and numbers paired. -/
theorem Paired.afterAll (h : t.Paired) {requests : List Request}
    (hp : (t.afterAll requests).points.count ≤ 2 ^ 32)
    (hl : (t.afterAll requests).lines.count ≤ 2 ^ 32) : (t.afterAll requests).Paired := by
  rw [afterAll_eq] at hp hl ⊢
  exact ⟨h.points.internAll hp, h.lines.internAll hl⟩

/-- In a table of pairs, a label that has a number has all that a reply says. -/
theorem Paired.knows_point (h : t.Paired) {label : String} {p : Point}
    (hn : t.points.number? label = some p.number) : t.Knows (.point label p) := by
  have found : t.point? label = some p := by rw [point?, hn, Option.map_some]
  refine ⟨found, ((pairing_points h.points).find_iff label p).1 found, ?_⟩
  rw [internPoint, Labels.intern_of_some hn]

/-- In a table of pairs, a label of a line that has a number has all that a reply says. -/
theorem Paired.knows_line (h : t.Paired) {label : String} {l : Line}
    (hn : t.lines.number? label = some l.number) : t.Knows (.line label l) := by
  have found : t.line? label = some l := by rw [line?, hn, Option.map_some]
  refine ⟨found, ((pairing_lines h.lines).find_iff label l).1 found, ?_⟩
  rw [internLine, Labels.intern_of_some hn]

/-- A reply is true of the table after it. -/
theorem Paired.knows_perform (h : t.Paired) (request : Request)
    (h' : (t.perform request).2.Paired) : (t.perform request).2.Knows (t.perform request).1 := by
  cases request with
  | internPoint label => exact h'.knows_point (Labels.number?_intern t.points label)
  | internLine label => exact h'.knows_line (Labels.number?_intern t.lines label)
  | findPoint label =>
    rw [perform, point?]
    cases hn : t.points.number? label with
    | none => trivial
    | some n => exact h.knows_point hn
  | findLine label =>
    rw [perform, line?]
    cases hn : t.lines.number? label with
    | none => trivial
    | some n => exact h.knows_line hn
  | namePoint p =>
    rw [perform]
    cases hp : t.pointLabel? p with
    | none => trivial
    | some label => exact h.knows_point ((h.points label p.number).2 hp)
  | nameLine l =>
    rw [perform]
    cases hl : t.lineLabel? l with
    | none => trivial
    | some label => exact h.knows_line ((h.lines label l.number).2 hl)

/-- What is true of a table stays true, whatever is asked. -/
theorem Knows.afterAll {reply : Reply} (known : t.Knows reply) {requests : List Request}
    (h : (t.afterAll requests).Paired) : (t.afterAll requests).Knows reply := by
  cases reply with
  | point label p =>
    obtain ⟨n, hn, rfl⟩ := Option.map_eq_some_iff.1 known.1
    refine h.knows_point ?_
    rw [afterAll_eq]
    exact Labels.number?_internAll_of_some hn _
  | line label l =>
    obtain ⟨n, hn, rfl⟩ := Option.map_eq_some_iff.1 known.1
    refine h.knows_line ?_
    rw [afterAll_eq]
    exact Labels.number?_internAll_of_some hn _
  | nothing => trivial

/-- Requests can be made in two goes. -/
theorem afterAll_append (t : SymbolTable) (requests later : List Request) :
    t.afterAll (requests ++ later) = (t.afterAll requests).afterAll later :=
  List.foldl_append

/-- All tables on the way to one whose labels have numbers have numbers for theirs. -/
theorem Paired.of_later (h : t.Paired) (requests : List Request) {later : List Request}
    (hp : (t.afterAll (requests ++ later)).points.count ≤ 2 ^ 32)
    (hl : (t.afterAll (requests ++ later)).lines.count ≤ 2 ^ 32) :
    (t.afterAll requests).Paired := by
  rw [afterAll_append, afterAll_eq] at hp hl
  exact h.afterAll ((Labels.count_le_count_internAll _ _).trans hp)
    ((Labels.count_le_count_internAll _ _).trans hl)

/-- Whatever a table is asked, from the empty one on, labels and points stay paired one to one, the
points in use being numbered up to their count, and so do labels and lines. Points come of requests
for points alone, lines of requests for lines alone, and looking up changes nothing. Each reply ever
given stays true. -/
theorem replies_stay_true (requests : List Request)
    (hp : (empty.afterAll requests).points.count ≤ 2 ^ 32)
    (hl : (empty.afterAll requests).lines.count ≤ 2 ^ 32) :
    Pairing (empty.afterAll requests).point? (empty.afterAll requests).pointLabel?
        (fun p => p.number.toNat) (empty.afterAll requests).points.count ∧
      Pairing (empty.afterAll requests).line? (empty.afterAll requests).lineLabel?
        (fun l => l.number.toNat) (empty.afterAll requests).lines.count ∧
      empty.afterAll requests =
        ⟨Labels.empty.internAll (requests.filterMap Request.pointLabel?),
          Labels.empty.internAll (requests.filterMap Request.lineLabel?)⟩ ∧
      ∀ earlier request later, requests = earlier ++ request :: later →
        (empty.afterAll requests).Knows ((empty.afterAll earlier).perform request).1 := by
  have start : empty.Paired := ⟨Labels.paired_empty, Labels.paired_empty⟩
  have paired := start.afterAll hp hl
  refine ⟨pairing_points paired.points, pairing_lines paired.lines, afterAll_eq _ _, ?_⟩
  rintro earlier request later rfl
  have here := start.of_later earlier hp hl
  rw [List.append_cons] at hp hl
  have next := start.of_later (earlier ++ [request]) hp hl
  rw [afterAll_append] at next paired ⊢
  exact (here.knows_perform request next).afterAll paired

/-- The same labels for points and for a line, asked for again and looked up before and after. -/
def mixedRequests : List Request :=
  [.findPoint "b", .internPoint "a", .internLine "b", .internPoint "b", .internPoint "a",
    .nameLine ⟨0⟩, .findPoint "c", .internPoint "c"]

/-- The label `b` stands for the second point and for the first line. -/
theorem mixedRequests_stay_true :
    (empty.afterAll mixedRequests).points.labels = ["a", "b", "c"] ∧
      (empty.afterAll mixedRequests).lines.labels = ["b"] ∧
      (empty.afterAll mixedRequests).point? "b" = some ⟨1⟩ ∧
      (empty.afterAll mixedRequests).line? "b" = some ⟨0⟩ := by
  have points : (empty.afterAll mixedRequests).points.labels = ["a", "b", "c"] := by cbv
  have lines : (empty.afterAll mixedRequests).lines.labels = ["b"] := by cbv
  obtain ⟨pairedPoints, pairedLines, -⟩ := replies_stay_true mixedRequests
    (by rw [Labels.count, points]; decide) (by rw [Labels.count, lines]; decide)
  refine ⟨points, lines, (pairedPoints.find_iff _ _).2 ?_, (pairedLines.find_iff _ _).2 ?_⟩
  · rw [pointLabel?, Labels.label?, points]
    rfl
  · rw [lineLabel?, Labels.label?, lines]
    rfl

end SymbolTable

end AreaMethod
