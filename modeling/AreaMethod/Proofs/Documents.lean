import AreaMethod.Proofs.Value
import AreaMethod.Stored.Decode
import AreaMethod.Stored.Encode
import Mathlib.Data.List.DropRight
import Mathlib.Data.List.Perm.Basic
import Mathlib.Data.Nat.Digits.Lemmas
import Mathlib.Data.Rat.Lemmas

/-!
# Documents are read back

What is written for a value is read back as that value. Reading takes two steps. A format brings a
document into its standard spelling, in which it is also written; so documents are to come out of
it as they are (`Format.Restores`). Nothing may depend on the order in which members of an object
are listed, which only the writer of a document decides (`Json.Reordered`). The rules for lists,
records and the rest carry over from parts to the whole. Then the value is made out of the
standard spelling.
-/

namespace AreaMethod

/-! ## Lists and dictionaries -/

/-- Reading the items of a list one by one. -/
theorem mapM_eq_some_iff {α β : Type} {f : α → Option β} {as : List α} {bs : List β} :
    as.mapM f = some bs ↔ List.Forall₂ (fun a b => f a = some b) as bs := by
  induction as generalizing bs with
  | nil => simp [eq_comm]
  | cons a as ih =>
    simp only [List.mapM_cons, Option.bind_eq_bind, Option.bind_eq_some_iff, ih,
      List.forall₂_cons_left_iff]
    constructor
    · rintro ⟨b, hb, bs, hbs, h⟩
      exact ⟨b, bs, hb, hbs, (Option.some.inj h).symm⟩
    · rintro ⟨b, bs, hb, hbs, rfl⟩
      exact ⟨b, hb, bs, hbs, rfl⟩

/-- What is written item by item is read item by item. -/
theorem mapM_map_eq_some {α β : Type} {write : α → β} {read : β → Option α} {as : List α}
    (h : ∀ a ∈ as, read (write a) = some a) : (as.map write).mapM read = some as := by
  rw [mapM_eq_some_iff, List.forall₂_map_left_iff, List.forall₂_same]
  exact h

/-- If no name occurs twice, the order of entries does not matter for finding those of a name. -/
theorem filter_eq_of_perm {α : Type} {ks ms : List (String × α)} (h : ks.Perm ms)
    (distinct : (ms.map Prod.fst).Nodup) (name : String) :
    ks.filter (·.1 == name) = ms.filter (·.1 == name) := by
  have distinct : ((ms.filter (·.1 == name)).map Prod.fst).Nodup :=
    (List.filter_sublist.map _).nodup distinct
  have named : ∀ m ∈ ms.filter (·.1 == name), m.1 = name := by simp
  have h := h.filter (·.1 == name)
  generalize ms.filter (·.1 == name) = found at distinct named h ⊢
  match found with
  | [] => exact h.eq_nil
  | [m] => exact List.perm_singleton.1 h
  | m :: m' :: _ => simp_all

/-- A dictionary is made of its entries, in any order. -/
theorem ofList_of_perm {α : Type} {t : Std.ExtTreeMap String α} {entries : List (String × α)}
    (h : entries.Perm t.toList) : Std.ExtTreeMap.ofList entries compare = t := by
  have distinct : entries.Pairwise fun a b => ¬compare a.1 b.1 = .eq :=
    (h.pairwise_iff fun hab hba => hab (Std.OrientedCmp.eq_comm.1 hba)).2 t.distinct_keys_toList
  refine Std.ExtTreeMap.ext_getElem? fun k => ?_
  cases hk : t[k]? with
  | none =>
    refine Std.ExtTreeMap.getElem?_ofList_of_contains_eq_false ?_
    rw [List.contains_eq_mem, decide_eq_false_iff_not, List.mem_map]
    rintro ⟨⟨k, a⟩, ha, rfl⟩
    have found := Std.ExtTreeMap.mem_toList_iff_getElem?_eq_some.1 (h.subset ha)
    cases hk.symm.trans found
  | some a =>
    exact Std.ExtTreeMap.getElem?_ofList_of_mem Std.ReflCmp.compare_self distinct
      (h.mem_iff.2 (Std.ExtTreeMap.mem_toList_iff_getElem?_eq_some.2 hk))

/-! ## The order of members -/

namespace Json

/-- Do the values differ at most in the order of the members of objects? -/
inductive Reordered : Json → Json → Prop
  | refl (j : Json) : Reordered j j
  | array {js ks : List Json} (items : List.Forall₂ Reordered js ks) : Reordered (.arr js) (.arr ks)
  | object {ms ns ls : List (String × Json)} (names : ms.map Prod.fst = ns.map Prod.fst)
    (values : List.Forall₂ Reordered (ms.map Prod.snd) (ns.map Prod.snd)) (shuffled : ns.Perm ls) :
    Reordered (.obj ms) (.obj ls)

/-- Is the first member the second, but for the order of members in its value? -/
def Matches (l m : String × Json) : Prop := l.1 = m.1 ∧ m.2.Reordered l.2

namespace Reordered

/-- A text has no other order. -/
theorem of_str {s : String} {j : Json} (h : (str s).Reordered j) : j = str s := by
  cases h
  rfl

/-- A number has no other order. -/
theorem of_int {n : Int} {j : Json} (h : (int n).Reordered j) : j = int n := by
  cases h
  rfl

/-- Only null is null in another order. -/
theorem eq_null {j : Json} (h : j.Reordered null) : j = null := by
  cases h
  rfl

/-- The items of an array keep their places. -/
theorem of_arr {js : List Json} {j : Json} (h : (arr js).Reordered j) :
    ∃ ks, j = arr ks ∧ List.Forall₂ Reordered js ks := by
  cases h with
  | refl => exact ⟨js, rfl, List.forall₂_same.2 fun j _ => .refl j⟩
  | array items => exact ⟨_, rfl, items⟩

/-- A list of values in which there is nothing to reorder. -/
theorem eq_of_items {js : List Json} {k : Json} (h : (arr js).Reordered k)
    (fixed : ∀ j ∈ js, ∀ k, j.Reordered k → k = j) : k = arr js := by
  obtain ⟨ks, rfl, items⟩ := h.of_arr
  have same := ((List.forall₂_and_left _ _).2 ⟨fixed, items⟩).imp
    fun j k hj => (hj.1 k hj.2).symm
  rw [List.forall₂_eq_eq_eq] at same
  rw [same]

/-- An object in another order, with its members put into the order of the first. -/
theorem of_obj {ms : List (String × Json)} {j : Json} (h : (obj ms).Reordered j) :
    ∃ ls ks, j = obj ls ∧ List.Forall₂ Matches ls ks ∧ ks.Perm ms := by
  cases h with
  | refl => exact ⟨ms, ms, rfl, List.forall₂_same.2 fun m _ => ⟨rfl, .refl _⟩, .refl ms⟩
  | @object _ ns ls names values shuffled =>
    have matched : List.Forall₂ Matches ns ms := by
      clear shuffled
      induction ms generalizing ns with
      | nil =>
        obtain rfl : ns = [] := by simpa using names.symm
        exact .nil
      | cons m ms ih =>
        cases ns with
        | nil => cases names
        | cons n ns =>
          obtain ⟨name, names⟩ := List.cons.inj names
          cases values with
          | cons value values => exact .cons ⟨name.symm, value⟩ (ih names values)
    obtain ⟨ks, hk, hp⟩ := List.perm_comp_forall₂ shuffled.symm matched
    exact ⟨ls, ks, rfl, hk, hp⟩

/-- An object with one member keeps it. -/
theorem of_single {name : String} {i j : Json} (h : (obj [(name, i)]).Reordered j) :
    ∃ k, j = obj [(name, k)] ∧ i.Reordered k := by
  obtain ⟨ls, ks, rfl, matched, shuffled⟩ := h.of_obj
  obtain rfl := List.perm_singleton.1 shuffled
  obtain ⟨⟨n, k⟩, ls, ⟨rfl, value⟩, rest, rfl⟩ := List.forall₂_cons_right_iff.1 matched
  obtain rfl := List.forall₂_nil_right_iff.1 rest
  exact ⟨k, rfl, value⟩

/-- The members of a name, where no name occurs twice. -/
theorem filter {ms : List (String × Json)} {j : Json} (h : (obj ms).Reordered j)
    (distinct : (ms.map Prod.fst).Nodup) : ∃ ls, j = obj ls ∧ ∀ name,
      List.Forall₂ Matches (ls.filter (·.1 == name)) (ms.filter (·.1 == name)) := by
  obtain ⟨ls, ks, rfl, matched, shuffled⟩ := h.of_obj
  refine ⟨ls, rfl, fun name => ?_⟩
  rw [← filter_eq_of_perm shuffled distinct name]
  clear h shuffled
  induction matched with
  | nil => exact .nil
  | @cons l k ls ks hm _ ih =>
    rw [List.filter_cons, List.filter_cons, hm.1]
    split
    · exact .cons hm ih
    · exact ih

end Reordered

end Json

/-! ## Formats -/

namespace Format

/-- Is this the standard spelling of itself, with members in any order? -/
def Restores (f : Format) (j : Json) : Prop := ∀ k, j.Reordered k → f k = some j

/-- A text is read back. -/
theorem restores_text (s : String) : text.Restores (.str s) := by
  intro k hk
  rw [hk.of_str, text]

/-- A number within the limit is read back. -/
theorem restores_natUpTo {limit n : Nat} (hn : n ≤ limit) : (natUpTo limit).Restores (.nat n) := by
  intro k hk
  rw [Json.nat] at hk
  simp [hk.of_int, natUpTo, hn, Json.nat]

/-- A number of 32 bits is read back. -/
theorem restores_word32 (n : UInt32) : word32.Restores (.nat n.toNat) :=
  restores_natUpTo (Nat.le_of_lt_succ n.toNat_lt)

/-- A number of 64 bits is read back. -/
theorem restores_word64 (n : UInt64) : word64.Restores (.nat n.toNat) :=
  restores_natUpTo (Nat.le_of_lt_succ n.toNat_lt)

/-- An optional value is read back, present or absent. -/
theorem restores_option {α : Type} {f : Format} {write : α → Json} (h : ∀ a, f.Restores (write a))
    (o : Option α) : (optional f).Restores (Json.option write o) := by
  intro k hk
  rw [optional.eq_def]
  split
  · rw [hk.eq_null]
  next present =>
    cases o with
    | none =>
      cases hk
      exact absurd rfl present
    | some a => exact h a k hk

/-- Values that are each read back are read back one after another. -/
theorem mapM_of_restores {f : Format} {js ks : List Json} (h : ∀ j ∈ js, f.Restores j)
    (items : List.Forall₂ Json.Reordered js ks) : ks.mapM f = some js := by
  have restored := (List.forall₂_and_left _ _).2 ⟨h, items⟩
  exact mapM_eq_some_iff.2 (restored.imp fun j k hj => hj.1 k hj.2).flip

/-- A list of values is read back. -/
theorem restores_list {f : Format} {js : List Json} (h : ∀ j ∈ js, f.Restores j) :
    (list f).Restores (.arr js) := by
  intro k hk
  obtain ⟨ks, rfl, items⟩ := hk.of_arr
  rw [list, mapM_of_restores h items]
  rfl

/-- A tuple of values is read back. -/
theorem restores_tuple {fs : List Format} {js : List Json} (h : List.Forall₂ Restores fs js) :
    (tuple fs).Restores (.arr js) := by
  intro k hk
  obtain ⟨ks, rfl, reordered⟩ := hk.of_arr
  have read : items fs ks = some js := by
    clear hk
    induction h generalizing ks with
    | nil =>
      cases reordered
      rfl
    | cons hf _ ih =>
      cases reordered with
      | cons hj reordered => simp [items, hf _ hj, ih _ reordered]
  rw [tuple, read]
  rfl

/-- A dictionary is restored if its values are: the order of its entries is that of their names,
wherever they were listed. -/
theorem restores_dictionary {f : Format} {t : Std.ExtTreeMap String Json}
    (h : ∀ m ∈ t.toList, f.Restores m.2) : (dictionary f).Restores (.obj t.toList) := by
  intro k hk
  obtain ⟨ls, ks, rfl, matched, shuffled⟩ := hk.of_obj
  have read : ∀ {entry : String × Json → Option (String × Json)},
      (∀ name j, entry (name, j) = do return (name, ← f j)) → ls.mapM entry = some ks := by
    intro entry hentry
    have restored := (List.forall₂_and_left _ _).2
      ⟨fun m hm => h m (shuffled.subset hm), matched.flip⟩
    refine mapM_eq_some_iff.2 (restored.imp ?_).flip
    rintro ⟨name, j⟩ ⟨name', k⟩ ⟨hj, rfl, hk⟩
    simp only [flip, hentry, hj k hk]
    rfl
  rw [dictionary, read fun _ _ => rfl]
  exact congrArg (fun t => some (Json.obj t.toList)) (ofList_of_perm shuffled)

namespace Field

/-- Is the value of the field restored? One that is left out has to be what holds if the field is
missing. -/
def Restores (field : Field) (j : Json) : Prop :=
  field.format.Restores j ∧ (field.skipsNull = true → j.isNull = true → field.absent = some j)

/-- A required member is read back. -/
theorem Restores.required {name : String} {f : Format} {j : Json} (h : f.Restores j) :
    (required name f).Restores j :=
  ⟨h, nofun⟩

/-- A member that may be null is read back. -/
theorem Restores.nullable {name : String} {α : Type} {f : Format} {write : α → Json}
    (h : ∀ a, f.Restores (write a)) (o : Option α) :
    (nullable name f).Restores (Json.option write o) :=
  ⟨restores_option h o, nofun⟩

/-- A member that may be left out is read back. -/
theorem Restores.omittable {name : String} {α : Type} {f : Format} {write : α → Json}
    (h : ∀ a, f.Restores (write a)) (o : Option α) :
    (omittable name f).Restores (Json.option write o) := by
  refine ⟨restores_option h o, fun _ hj => ?_⟩
  revert hj
  cases Json.option write o <;> simp [Json.isNull, Field.omittable]

/-- The members that are written come in the order of the fields. -/
theorem names_members_sublist (fields : List Field) (js : List Json) :
    ((members fields js).map Prod.fst).Sublist (fields.map Field.name) := by
  fun_induction members fields js with
  | case1 field fields j js _ ih => exact ih.cons _
  | case2 field fields j js _ ih => exact ih.cons_cons _
  | case3 => simp

/-- Every field is found among members that agree with those of the standard spelling. -/
theorem mapM_find? {ls : List (String × Json)} {fields : List Field} {js : List Json}
    (restored : List.Forall₂ Restores fields js) (distinct : (fields.map Field.name).Nodup)
    (agree : ∀ field ∈ fields, List.Forall₂ Json.Matches
      (ls.filter (·.1 == field.name)) ((members fields js).filter (·.1 == field.name))) :
    fields.mapM (find? ls) = some js := by
  induction restored with
  | nil => rfl
  | @cons field j fields js hj _ ih =>
    rw [List.map_cons, List.nodup_cons] at distinct
    rw [List.forall_mem_cons, members] at agree
    obtain ⟨this, others⟩ := agree
    -- No other member has the name of the first field, so it decides what is found for that field
    -- and is passed over for the others.
    have alone : (members fields js).filter (·.1 == field.name) = [] := by
      refine List.filter_eq_nil_iff.2 fun m hm => ?_
      rw [beq_iff_eq]
      intro same
      exact distinct.1 (same ▸ (names_members_sublist fields js).subset (List.mem_map_of_mem hm))
    have rest : fields.mapM (find? ls) = some js := by
      refine ih distinct.2 fun field' hf => ?_
      have different : field.name ≠ field'.name := fun same =>
        distinct.1 (same ▸ List.mem_map_of_mem hf)
      have agree := others field' hf
      split at agree
      · exact agree
      · simpa [List.filter_cons, different] using agree
    have first : find? ls field = some j := by
      split at this
      next skipped =>
        rw [Bool.and_eq_true] at skipped
        rw [alone, List.forall₂_nil_right_iff] at this
        rw [find?, this]
        exact hj.2 skipped.1 skipped.2
      next =>
        rw [List.filter_cons_of_pos (by simp), alone] at this
        obtain ⟨⟨name, k⟩, rest, ⟨-, hk⟩, nothing, found⟩ := List.forall₂_cons_right_iff.1 this
        obtain rfl := List.forall₂_nil_right_iff.1 nothing
        rw [find?, found]
        exact hj.1 k hk
    simp [first, rest]

end Field

/-- A record is restored if its fields are. -/
theorem restores_record {fields : List Field} {js : List Json}
    (distinct : (fields.map Field.name).Nodup)
    (restored : List.Forall₂ Field.Restores fields js) :
    (record fields).Restores (.obj (Field.members fields js)) := by
  intro k hk
  obtain ⟨ls, rfl, agree⟩ := hk.filter ((Field.names_members_sublist fields js).nodup distinct)
  have found := Field.mapM_find? restored distinct fun field _ => agree field.name
  simp [record, recordWith, found]

/-- An object with one member is read back if its member is. -/
theorem restores_single {f : Format} {name : String} {j : Json}
    (h : ∀ k, j.Reordered k → f (.obj [(name, k)]) = some (.obj [(name, j)])) :
    f.Restores (.obj [(name, j)]) := by
  intro k hk
  obtain ⟨k, rfl, value⟩ := hk.of_single
  exact h k value

/-- An alternative with contents is read back. -/
theorem restores_oneOf {alternatives : List (String × Option Format)} {name : String} {f : Format}
    (found : alternatives.lookup name = some (some f)) {j : Json} (h : f.Restores j) :
    (oneOf alternatives).Restores (.obj [(name, j)]) := by
  refine restores_single fun k hk => ?_
  simp [oneOf, found, h k hk]

/-- An alternative without contents is read back. -/
theorem restores_oneOf_name {alternatives : List (String × Option Format)} {name : String}
    (found : alternatives.lookup name = some none) : (oneOf alternatives).Restores (.str name) := by
  intro k hk
  rw [hk.of_str, oneOf, found]

end Format

/-! ## Numbers -/

/-- The digits are the library's, to the base 2³². -/
theorem digits_eq (n : Nat) : digits n = Nat.digits 4294967296 n := by
  fun_induction digits n with
  | case1 => rw [Nat.digits_zero]
  | case2 n h ih => rw [ih, ← Nat.digits_def' (by decide) (Nat.pos_of_ne_zero h)]

/-- A number is the number of its digits. -/
theorem ofDigits_digits (n : Nat) : ofDigits (digits n) = n := by
  rw [digits_eq, ofDigits]
  refine Eq.trans ?_ (Nat.ofDigits_digits 4294967296 n)
  rw [Nat.ofDigits_eq_foldr]
  rfl

/-- No stored denominator is zero. -/
theorem Numeral.den_ne_zero (n : Numeral) : n.den ≠ 0 :=
  Int.mul_ne_zero n.common_ne_zero (Int.natCast_ne_zero.2 n.value.den_nz)

/-- A numeral is made of its numerator and its denominator. -/
theorem Numeral.ofInts?_num_den (n : Numeral) : ofInts? n.num n.den = some n := by
  rw [ofInts?, dif_neg n.den_ne_zero]
  obtain ⟨q, c, hc⟩ := n
  have value : Rat.divInt (c * q.num) (c * q.den) = q := by
    rw [Rat.divInt_mul_left hc, Rat.num_divInt_den]
  have coprime : Int.gcd q.num q.den = 1 := q.reduced
  have common : (c * (q.den : Int)).sign * (Int.gcd (c * q.num) (c * q.den) : Int) = c := by
    rw [Int.gcd_mul_left, coprime, mul_one, Int.sign_mul,
      Int.sign_eq_one_of_pos (Int.natCast_pos.2 q.pos), mul_one, Int.sign_mul_natAbs]
  simp only [num, den, value, common]

namespace Format

/-- The highest digit is not zero. -/
theorem dropZeros_digits (n : Nat) :
    (((digits n).map Json.nat).reverse.dropWhile isZeroDigit).reverse = (digits n).map .nat := by
  refine List.rdropWhile_eq_self_iff.2 fun nonempty => ?_
  rw [ne_eq, List.map_eq_nil_iff] at nonempty
  have nonzero : (digits n).getLast nonempty ≠ 0 := by
    simp only [digits_eq] at nonempty ⊢
    exact Nat.getLast_digit_ne_zero _ (Nat.digits_ne_nil_iff_ne_zero.1 nonempty)
  rw [List.getLast_map]
  simpa [Json.nat, isZeroDigit] using nonzero

/-- A written integer is read as it is. -/
theorem integer_ofInteger (n : Int) : integer (.ofInteger n) = some (.ofInteger n) := by
  have small : ((digits n.natAbs).map Json.nat).mapM word32 =
      some ((digits n.natAbs).map .nat) := by
    refine mapM_eq_some_iff.2 (List.forall₂_same.2 (List.forall_mem_map.2 fun d hd => ?_))
    rw [digits_eq] at hd
    have := Nat.digits_lt_base (by decide) hd
    exact restores_natUpTo (Nat.le_of_lt_succ this) _ (.refl _)
  have sign : ¬(n.sign < -1 ∨ 1 < n.sign) := by
    rcases Int.sign_trichotomy n with h | h | h <;> omega
  have zero : n.sign = 0 ∨ ((digits n.natAbs).map Json.nat).isEmpty = true ↔ n = 0 := by
    rw [Int.sign_eq_zero_iff_zero, List.isEmpty_iff, List.map_eq_nil_iff, digits_eq,
      Nat.digits_eq_nil_iff_eq_zero, Int.natAbs_eq_zero, or_self]
  rw [Json.ofInteger, integer, small]
  simp only [Option.bind_eq_bind, Option.bind_some, dropZeros_digits, sign, if_false, zero]
  split
  next h => simp [h, digits]
  next => rfl

/-- A written constant is read as it is, not in lowest terms. -/
theorem rational_ofNumeral (n : Numeral) : rational (.ofNumeral n) = some (.ofNumeral n) := by
  have nonzero : n.den.sign ≠ 0 := mt Int.sign_eq_zero_iff_zero.1 n.den_ne_zero
  have proper : isZeroInteger (.ofInteger n.den) = false := by
    rw [Json.ofInteger, isZeroInteger]
    simpa using nonzero
  simp [Json.ofNumeral, rational, integer_ofInteger, proper]

/-- A constant is read back as it was written. -/
theorem restores_rational (n : Numeral) : rational.Restores (.ofNumeral n) := by
  have integers : ∀ (m : Int) (k : Json), (Json.ofInteger m).Reordered k → k = .ofInteger m := by
    intro m k hk
    refine hk.eq_of_items (List.forall_mem_cons.2 ⟨fun k hk => hk.of_int, ?_⟩)
    refine List.forall_mem_singleton.2 fun k hk => hk.eq_of_items ?_
    exact List.forall_mem_map.2 fun d _ k hk => hk.of_int
  intro k hk
  obtain rfl := hk.eq_of_items
    (List.forall_mem_cons.2 ⟨integers n.num, List.forall_mem_singleton.2 (integers n.den)⟩)
  exact rational_ofNumeral n

/-! ## Documents in their standard spelling -/

/-- A point is read back. -/
theorem restores_point (p : Point) : word32.Restores (.ofPoint p) := restores_word32 p.number

/-- An axis is read back. -/
theorem restores_axis (i : Axis) : axis.Restores (.ofAxis i) := by
  cases i with
  | x => exact restores_oneOf_name rfl
  | y => exact restores_oneOf_name rfl

/-- An atom is read back. -/
theorem restores_atom (a : Atom) : atom.Restores (.ofAtom a) := by
  cases a with
  | area a b c =>
    exact restores_oneOf rfl (restores_tuple
      (.cons (restores_point a) (.cons (restores_point b) (.cons (restores_point c) .nil))))
  | pythagoras a b c =>
    exact restores_oneOf rfl (restores_tuple
      (.cons (restores_point a) (.cons (restores_point b) (.cons (restores_point c) .nil))))
  | ratio a b c d =>
    exact restores_oneOf rfl (restores_tuple (.cons (restores_point a) (.cons (restores_point b)
      (.cons (restores_point c) (.cons (restores_point d) .nil)))))
  | scalar s => exact restores_oneOf rfl (restores_text s)
  | coordinate p i =>
    exact restores_oneOf rfl (restores_tuple (.cons (restores_point p)
      (.cons (restores_axis i) .nil)))

/-- Expressions are read one after another. -/
theorem exprs_eq (js : List Json) : exprs js = js.mapM expr := by
  induction js with
  | nil => rfl
  | cons j js ih => rw [exprs, ih, List.mapM_cons]

/-- An expression is restored, at any depth. -/
theorem restores_expr (e : Expr) : Restores expr (.ofExpr e) := by
  induction e using Expr.ind with
  | number n =>
    rw [Json.ofExpr]
    refine restores_single fun k hk => ?_
    rw [expr, restores_rational n k hk]
    rfl
  | atom a =>
    rw [Json.ofExpr]
    refine restores_single fun k hk => ?_
    rw [expr, restores_atom a k hk]
    rfl
  | product es ih =>
    rw [Json.ofExpr]
    refine restores_single fun k hk => ?_
    obtain ⟨ks, rfl, items⟩ := hk.of_arr
    rw [expr, exprs_eq, mapM_of_restores (List.forall_mem_map.2 ih) items]
    rfl
  | sum es ih =>
    rw [Json.ofExpr]
    refine restores_single fun k hk => ?_
    obtain ⟨ks, rfl, items⟩ := hk.of_arr
    rw [expr, exprs_eq, mapM_of_restores (List.forall_mem_map.2 ih) items]
    rfl
  | fraction n d ihn ihd =>
    rw [Json.ofExpr]
    refine restores_single fun k hk => ?_
    obtain ⟨ks, rfl, items⟩ := hk.of_arr
    obtain ⟨k, _, hn, rest, rfl⟩ := List.forall₂_cons_left_iff.1 items
    obtain ⟨k', _, hd, nothing, rfl⟩ := List.forall₂_cons_left_iff.1 rest
    obtain rfl := List.forall₂_nil_left_iff.1 nothing
    rw [expr, ihn k hn, ihd k' hd]
    rfl

/-- The kind of a point is read back. -/
theorem restores_kind (k : PointKind) : kind.Restores (.ofKind k) := by
  cases k with
  | free => exact restores_oneOf_name rfl
  | ratio w u v r =>
    exact restores_oneOf rfl (restores_record (by decide) (.cons (.required (restores_point w))
      (.cons (.required (restores_point u)) (.cons (.required (restores_point v))
        (.cons (.required (restores_expr r)) .nil)))))
  | intersection u v p q =>
    exact restores_oneOf rfl (restores_record (by decide) (.cons (.required (restores_point u))
      (.cons (.required (restores_point v)) (.cons (.required (restores_point p))
        (.cons (.required (restores_point q)) .nil)))))
  | foot p u v =>
    exact restores_oneOf rfl (restores_record (by decide) (.cons (.required (restores_point p))
      (.cons (.required (restores_point u)) (.cons (.required (restores_point v)) .nil))))

/-- A step is read back. -/
theorem restores_step (s : Step) : step.Restores (.ofStep s) := by
  cases s with
  | point p k =>
    exact restores_oneOf rfl (restores_record (by decide) (.cons (.required (restores_point p))
      (.cons (.required (restores_kind k)) .nil)))
  | line l a b =>
    exact restores_oneOf rfl (restores_record (by decide)
      (.cons (.required (restores_word32 l.number)) (.cons (.required (restores_tuple
        (.cons (restores_point a) (.cons (restores_point b) .nil)))) .nil)))

/-- A dictionary of values that are restored when they are written. -/
theorem restores_entries {α : Type} {f : Format} {write : α → Json} (h : ∀ a, f.Restores (write a))
    (t : Std.ExtTreeMap String α) :
    (dictionary f).Restores (.obj (t.toList.map fun (name, a) => (name, write a))) := by
  have written : (t.toList.map fun (name, a) => (name, write a)) =
      (t.map fun _ a => write a).toList := by
    rw [Std.ExtTreeMap.toList_map]
  rw [written]
  refine restores_dictionary ?_
  rw [← written]
  exact List.forall_mem_map.2 fun m _ => h m.2

/-- Texts are read back. -/
theorem restores_texts (ss : List String) : (list text).Restores (.arr (ss.map .str)) :=
  restores_list (List.forall_mem_map.2 fun s _ => restores_text s)

/-- A table of labels is read back. -/
theorem restores_symbols (t : SymbolTable) : symbols.Restores (.ofSymbols t) :=
  restores_record (by decide)
    (.cons (.required (restores_entries restores_word32 t.points.numbers))
      (.cons (.required (restores_entries restores_word32 t.lines.numbers))
        (.cons (.required (restores_texts t.points.labels))
          (.cons (.required (restores_texts t.lines.labels)) .nil))))

/-- A construction is read back. -/
theorem restores_construction (c : Construction) : construction.Restores (.ofConstruction c) :=
  restores_record (by decide) (.cons (.required (restores_symbols c.symbols))
    (.cons (.required (restores_list (List.forall_mem_map.2 fun s _ => restores_step s))) .nil))

/-- A verdict is read back. -/
theorem restores_verdict (v : Verdict) : verdict.Restores (.ofVerdict v) := by
  cases v with
  | proved => exact restores_oneOf_name rfl
  | refuted => exact restores_oneOf_name rfl
  | unknown => exact restores_oneOf_name rfl

/-- A step of a trace is read back. -/
theorem restores_traceStep (s : TraceStep) : traceStep.Restores (.ofTraceStep s) := by
  obtain ⟨id, pass, index, size, expression, explanation⟩ := s
  -- What is written leaves out what the record skips, whichever of the two texts are missing.
  have restored : traceStep.Restores _ := restores_record (by decide)
    (.cons (.required (restores_word32 id)) (.cons (.required (restores_text pass))
      (.cons (.required (restores_word64 index)) (.cons (.required (restores_word64 size))
        (.cons (.omittable restores_text expression)
          (.cons (.omittable restores_text explanation) .nil))))))
  cases expression <;> cases explanation <;> exact restored

/-- A trace is read back. -/
theorem restores_trace (t : Trace) : trace.Restores (.ofTrace t) :=
  restores_record (by decide)
    (.cons (.required (restores_list (List.forall_mem_map.2 fun s _ => restores_traceStep s)))
      (.cons (.nullable restores_verdict t.verdict)
        (.cons (.required (restores_entries restores_text t.metadata)) .nil)))

end Format

/-! ## Reading the standard spelling -/

namespace Json

/-- A written number stands for itself. -/
theorem toNat?_nat (n : Nat) : (Json.nat n).toNat? = some n := by
  simp [nat, toNat?]

/-- A written integer stands for itself. -/
theorem toInteger?_ofInteger (n : Int) : (ofInteger n).toInteger? = some n := by
  have read : ((digits n.natAbs).map nat).mapM toNat? = some (digits n.natAbs) :=
    mapM_map_eq_some fun d _ => toNat?_nat d
  rw [ofInteger, toInteger?, toList?, read]
  exact congrArg some (by rw [ofDigits_digits, Int.sign_mul_natAbs])

/-- A written constant stands for itself, numerator and denominator. -/
theorem toNumeral?_ofNumeral (n : Numeral) : (ofNumeral n).toNumeral? = some n := by
  simp [ofNumeral, toNumeral?, toInteger?_ofInteger, Numeral.ofInts?_num_den]

/-- A written number of 32 bits stands for itself. -/
theorem toWord32?_nat (n : UInt32) : (Json.nat n.toNat).toWord32? = some n := by
  simp [toWord32?, toNat?_nat]

/-- A written number of 64 bits stands for itself. -/
theorem toWord64?_nat (n : UInt64) : (Json.nat n.toNat).toWord64? = some n := by
  simp [toWord64?, toNat?_nat]

/-- A written point stands for itself. -/
theorem toPoint?_ofPoint (p : Point) : (ofPoint p).toPoint? = some p := by
  simp [ofPoint, toPoint?, toWord32?_nat]

/-- A written line stands for itself. -/
theorem toLine?_ofLine (l : Line) : (ofLine l).toLine? = some l := by
  simp [ofLine, toLine?, toWord32?_nat]

/-- A written axis stands for itself. -/
theorem toAxis?_ofAxis (i : Axis) : (ofAxis i).toAxis? = some i := by
  cases i <;> rfl

/-- A written atom stands for itself. -/
theorem toAtom?_ofAtom (a : Atom) : (ofAtom a).toAtom? = some a := by
  cases a <;> simp [ofAtom, toAtom?, toPoint?_ofPoint, toAxis?_ofAxis]

/-- Written expressions are decoded one after another. -/
theorem toExprs?_eq (js : List Json) : toExprs? js = js.mapM toExpr? := by
  induction js with
  | nil => rfl
  | cons j js ih => rw [toExprs?, ih, List.mapM_cons]

/-- A written expression stands for itself, with its constants as they were. -/
theorem toExpr?_ofExpr (e : Expr) : (ofExpr e).toExpr? = some e := by
  induction e using Expr.ind with
  | number n => simp [ofExpr, toExpr?, toNumeral?_ofNumeral]
  | atom a => simp [ofExpr, toExpr?, toAtom?_ofAtom]
  | product es ih => simp [ofExpr, toExpr?, toExprs?_eq, mapM_map_eq_some ih]
  | sum es ih => simp [ofExpr, toExpr?, toExprs?_eq, mapM_map_eq_some ih]
  | fraction n d ihn ihd => simp [ofExpr, toExpr?, ihn, ihd]

/-- A written kind of point stands for itself. -/
theorem toKind?_ofKind (k : PointKind) : (ofKind k).toKind? = some k := by
  cases k <;> simp [ofKind, toKind?, field?, member?, List.findRev?, toPoint?_ofPoint,
    toExpr?_ofExpr]

/-- A written step stands for itself. -/
theorem toStep?_ofStep (s : Step) : (ofStep s).toStep? = some s := by
  cases s <;> simp [ofStep, toStep?, toEnds?, field?, member?, List.findRev?, toPoint?_ofPoint,
    toLine?_ofLine, toKind?_ofKind]

/-- A dictionary of which the entries are read back is read back. -/
theorem toDictionary?_map {α : Type} (write : α → Json) (read : Json → Option α)
    (h : ∀ a, read (write a) = some a) (t : Std.ExtTreeMap String α) :
    (obj (t.toList.map fun (name, a) => (name, write a))).toDictionary? read = some t := by
  rw [toDictionary?, mapM_map_eq_some fun m _ => by simp [h]]
  exact congrArg some (ofList_of_perm (.refl _))

/-- Written texts stand for themselves. -/
theorem toTexts?_map (ss : List String) : (arr (ss.map str)).toList? toText? = some ss :=
  mapM_map_eq_some fun _ _ => rfl

/-- A written table of labels stands for itself. -/
theorem toSymbols?_ofSymbols (t : SymbolTable) : (ofSymbols t).toSymbols? = some t := by
  have numbers := toDictionary?_map (fun n : UInt32 => nat n.toNat) toWord32? toWord32?_nat
  simp [ofSymbols, toSymbols?, field?, member?, List.findRev?, ofNumbers, ofLabels, numbers,
    toTexts?_map]

/-- A written construction stands for itself. -/
theorem toConstruction?_ofConstruction (c : Construction) :
    (ofConstruction c).toConstruction? = some c := by
  have steps : (arr (c.steps.map ofStep)).toList? toStep? = some c.steps :=
    mapM_map_eq_some fun s _ => toStep?_ofStep s
  simp [ofConstruction, toConstruction?, field?, member?, List.findRev?, toSymbols?_ofSymbols,
    steps]

/-- A written step of a trace stands for itself. -/
theorem toTraceStep?_ofTraceStep (s : TraceStep) : (ofTraceStep s).toTraceStep? = some s := by
  obtain ⟨id, pass, index, size, expression, explanation⟩ := s
  cases expression <;> cases explanation <;>
    simp [ofTraceStep, toTraceStep?, memberOf, field?, fieldOr?, member?, List.findRev?, toText?,
      toWord32?_nat, toWord64?_nat]

/-- A written trace stands for itself. -/
theorem toTrace?_ofTrace (t : Trace) : (ofTrace t).toTrace? = some t := by
  obtain ⟨steps, verdict, metadata⟩ := t
  have read : (arr (steps.map ofTraceStep)).toList? toTraceStep? = some steps :=
    mapM_map_eq_some fun s _ => toTraceStep?_ofTraceStep s
  have remarks := toDictionary?_map str toText? (fun _ => rfl) metadata
  have decided : (ofTrace ⟨steps, verdict, metadata⟩).fieldOr? "verdict" toVerdict? =
      some verdict := by
    cases verdict with
    | none => rfl
    | some v => cases v <;> rfl
  rw [toTrace?, decided]
  simp [ofTrace, field?, member?, List.findRev?, read, remarks]

end Json

/-- Expressions, constructions and traces are read back as they were, whatever the order in which
the members of an object are listed. -/
theorem documents_read_back :
    (∀ (e : Expr) (j : Json), (Json.ofExpr e).Reordered j → readExpr? j = some e) ∧
    (∀ (c : Construction) (j : Json), (Json.ofConstruction c).Reordered j →
      readConstruction? j = some c) ∧
    (∀ (t : Trace) (j : Json), (Json.ofTrace t).Reordered j → readTrace? j = some t) := by
  refine ⟨fun e j h => ?_, fun c j h => ?_, fun t j h => ?_⟩
  · rw [readExpr?, Format.restores_expr e j h]
    exact Json.toExpr?_ofExpr e
  · rw [readConstruction?, Format.restores_construction c j h]
    exact Json.toConstruction?_ofConstruction c
  · rw [readTrace?, Format.restores_trace t j h]
    exact Json.toTrace?_ofTrace t

/-- A construction with a point that is made twice and refers to points that are not made, a numeral
that is not in lowest terms, and labels that do not fit each other. -/
def Construction.loose : Construction where
  symbols := ⟨⟨.ofList [("A", 0), ("B", 7)] compare, ["C"]⟩, .empty⟩
  steps := [.point ⟨1⟩ (.ratio ⟨5⟩ ⟨1⟩ ⟨2⟩ (.number ⟨1 / 2, -2, by decide⟩)), .point ⟨1⟩ .free]

/-- A document of that construction, with members in another order than the standard one. -/
def Json.looseDocument : Json :=
  .obj [("steps", .arr (Construction.loose.steps.map ofStep)),
    ("symbols", .obj [("point_map", .obj [("B", .nat 7), ("A", .nat 0)]), ("line_map", .obj []),
      ("point_labels", .arr [.str "C"]), ("line_labels", .arr [])])]

/-- A document with its members in another order is read as the construction. -/
theorem Construction.loose_read_back : readConstruction? .looseDocument = some loose := by
  have spelled : Json.ofSymbols loose.symbols = .obj [
      ("point_map", .obj [("A", .nat 0), ("B", .nat 7)]), ("line_map", .obj []),
      ("point_labels", .arr [.str "C"]), ("line_labels", .arr [])] := by cbv
  have numbers : (Json.obj [("A", .nat 0), ("B", .nat 7)]).Reordered
      (.obj [("B", .nat 7), ("A", .nat 0)]) := by
    refine .object ?_ ?_ (.swap _ _ _)
    · rfl
    · exact .cons (.refl _) (.cons (.refl _) .nil)
  refine documents_read_back.2.1 loose _ ?_
  rw [Json.ofConstruction, spelled]
  refine .object ?_ ?_ (.swap _ _ _)
  · rfl
  · refine .cons (.object ?_ ?_ (.refl _)) (.cons (.refl _) .nil)
    · rfl
    · exact .cons numbers (.cons (.refl _) (.cons (.refl _) (.cons (.refl _) .nil)))

end AreaMethod
