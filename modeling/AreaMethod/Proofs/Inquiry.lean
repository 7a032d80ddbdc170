import AreaMethod.Elimination.Inquiry
import AreaMethod.Proofs.Shape

/-!
# What inquiries lead to

An inquiry is a tree of questions, and what can be said of it is said of its paths. `Leads` says
that some path ends in a result, when questions are answered and conditions are met in given ways;
`Only` says that on no path anything else is asked, reported, or goes wrong, than may be. Both go
through sequences of inquiries step by step (`leads_bind`, `only_bind`). The answers determine the
path (`Leads.and`).
-/

namespace AreaMethod

namespace Inquiry

/-- The inquiry can end with the given result, if questions are answered as `answers` admits and the
conditions it relies on satisfy `relies`. -/
def Leads (answers : Statement → Nat → Bool → Prop) (relies : Condition → Prop) :
    Inquiry α → α → Prop
  | done a, r => a = r
  | fail _, _ => False
  | ask s n next, r => ∃ b, answers s n b ∧ (next b).Leads answers relies r
  | rely c next, r => relies c ∧ next.Leads answers relies r
  | report _ next, r => next.Leads answers relies r

variable {answers : Statement → Nat → Bool → Prop} {relies : Condition → Prop}

/-- What a sequence leads to is what the second inquiry leads to from what the first one does. -/
theorem leads_andThen {q : Inquiry α} {f : α → Inquiry β} {r : β} :
    (q.andThen f).Leads answers relies r ↔
      ∃ a, q.Leads answers relies a ∧ (f a).Leads answers relies r := by
  induction q with
  | done a => simp [andThen, Leads]
  | fail e => simp [andThen, Leads]
  | ask s n next ih =>
    simp only [andThen, Leads, ih]
    constructor
    · rintro ⟨b, hb, a, ha, hr⟩
      exact ⟨a, ⟨b, hb, ha⟩, hr⟩
    · rintro ⟨a, ⟨b, hb, ha⟩, hr⟩
      exact ⟨b, hb, a, ha, hr⟩
  | rely c next ih =>
    simp only [andThen, Leads, ih]
    constructor
    · rintro ⟨hc, a, ha, hr⟩
      exact ⟨a, ⟨hc, ha⟩, hr⟩
    · rintro ⟨a, ⟨hc, ha⟩, hr⟩
      exact ⟨hc, a, ha, hr⟩
  | report e next ih => simp only [andThen, Leads, ih]

/-- What a sequence in the monad leads to. -/
theorem leads_bind {q : Inquiry α} {f : α → Inquiry β} {r : β} :
    (q >>= f).Leads answers relies r ↔
      ∃ a, q.Leads answers relies a ∧ (f a).Leads answers relies r := by
  rw [bind_eq_andThen, leads_andThen]

/-- Nothing to ask leads to what is returned. -/
theorem leads_pure {a r : α} : (pure a : Inquiry α).Leads answers relies r ↔ a = r := Iff.rfl

/-- A function of the result leads to its values. -/
theorem leads_map {q : Inquiry α} {f : α → β} {r : β} :
    (f <$> q).Leads answers relies r ↔ ∃ a, q.Leads answers relies a ∧ f a = r := by
  rw [← bind_pure_comp, leads_bind]
  exact Iff.rfl

/-- Carrying an inquiry out for each member of a list, one after another. -/
theorem leads_mapM {f : α → Inquiry β} {as : List α} {bs : List β} :
    (as.mapM f).Leads answers relies bs ↔
      List.Forall₂ (fun a b => (f a).Leads answers relies b) as bs := by
  induction as generalizing bs with
  | nil =>
    rw [List.mapM_nil, leads_pure, List.forall₂_nil_left_iff]
    exact eq_comm
  | cons a as ih =>
    simp only [List.mapM_cons, leads_bind, ih, leads_pure, List.forall₂_cons_left_iff]
    constructor
    · rintro ⟨b, hb, bs, hbs, rfl⟩
      exact ⟨b, bs, hb, hbs, rfl⟩
    · rintro ⟨b, bs, hb, hbs, rfl⟩
      exact ⟨b, hb, bs, hbs, rfl⟩

/-- What some answers and conditions lead to, more of them do. -/
theorem Leads.mono {answers' : Statement → Nat → Bool → Prop} {relies' : Condition → Prop}
    {q : Inquiry α} {r : α} (h : q.Leads answers relies r)
    (ha : ∀ s n b, answers s n b → answers' s n b) (hr : ∀ c, relies c → relies' c) :
    q.Leads answers' relies' r := by
  induction q with
  | done a => exact h
  | fail e => exact h
  | ask s n next ih =>
    obtain ⟨b, hb, h⟩ := h
    exact ⟨b, ha s n b hb, ih b h⟩
  | rely c next ih => exact ⟨hr c h.1, ih h.2⟩
  | report e next ih => exact ih h

/-- Paths are determined by the answers, so two paths with answers that agree are one. -/
theorem Leads.and {answers' : Statement → Nat → Bool → Prop} {relies' : Condition → Prop}
    (unique : ∀ s n b b', answers s n b → answers' s n b' → b = b') {q : Inquiry α} {r r' : α}
    (h : q.Leads answers relies r) (h' : q.Leads answers' relies' r') : r = r' ∧
      q.Leads (fun s n b => answers s n b ∧ answers' s n b) (fun c => relies c ∧ relies' c) r := by
  induction q with
  | done a => exact ⟨h.symm.trans h', h⟩
  | fail e => exact h.elim
  | ask s n next ih =>
    obtain ⟨b, hb, h⟩ := h
    obtain ⟨b', hb', h'⟩ := h'
    obtain rfl := unique s n b b' hb hb'
    obtain ⟨eq, path⟩ := ih b h h'
    exact ⟨eq, b, ⟨hb, hb'⟩, path⟩
  | rely c next ih =>
    obtain ⟨eq, path⟩ := ih h.2 h'.2
    exact ⟨eq, ⟨h.1, h'.1⟩, path⟩
  | report e next ih => exact ih h h'

/-! ## What an inquiry may ask -/

/-- Every question of the inquiry is one that may be asked, and every failure one that may occur. On
request the same is said of what it reports. -/
def Only (asked : Statement → Nat → Prop) (failed : ProofError → Prop) (q : Inquiry α)
    (reported : Event → Prop := fun _ => True) : Prop :=
  match q with
  | done _ => True
  | fail e => failed e
  | ask s n next => asked s n ∧ ∀ b, (next b).Only asked failed reported
  | rely _ next => next.Only asked failed reported
  | report e next => reported e ∧ next.Only asked failed reported

variable {asked : Statement → Nat → Prop} {failed : ProofError → Prop} {reported : Event → Prop}

/-- Nothing is said of an inquiry that may ask, report and go wrong as it likes. -/
theorem only_trivial (q : Inquiry α) : q.Only (fun _ _ => True) fun _ => True := by
  induction q with
  | done | fail => trivial
  | ask s n next ih => exact ⟨trivial, ih⟩
  | rely c next ih => exact ih
  | report e next ih => exact ⟨trivial, ih⟩

/-- What is allowed in either way is allowed in both. -/
theorem Only.and {asked' : Statement → Nat → Prop} {failed' : ProofError → Prop}
    {reported' : Event → Prop} {q : Inquiry α} (h : q.Only asked failed reported)
    (h' : q.Only asked' failed' reported') :
    q.Only (fun s n => asked s n ∧ asked' s n) (fun e => failed e ∧ failed' e)
      fun e => reported e ∧ reported' e := by
  induction q with
  | done a => exact trivial
  | fail e => exact ⟨h, h'⟩
  | ask s n next ih => exact ⟨⟨h.1, h'.1⟩, fun b => ih b (h.2 b) (h'.2 b)⟩
  | rely c next ih => exact ih h h'
  | report e next ih => exact ⟨⟨h.1, h'.1⟩, ih h.2 h'.2⟩

/-- What is allowed stays so if more is allowed. -/
theorem Only.mono {asked' : Statement → Nat → Prop} {failed' : ProofError → Prop}
    {reported' : Event → Prop} {q : Inquiry α} (h : q.Only asked failed reported)
    (ha : ∀ s n, asked s n → asked' s n) (hf : ∀ e, failed e → failed' e)
    (hr : ∀ e, reported e → reported' e) : q.Only asked' failed' reported' := by
  induction q with
  | done a => exact trivial
  | fail e => exact hf e h
  | ask s n next ih => exact ⟨ha s n h.1, fun b => ih b (h.2 b)⟩
  | rely c next ih => exact ih h
  | report e next ih => exact ⟨hr e h.1, ih h.2⟩

/-- A sequence keeps to what is admitted if the first inquiry does, and the second after whatever
the first leads to. -/
theorem only_andThen {q : Inquiry α} {f : α → Inquiry β} (hq : q.Only asked failed reported)
    (hf : ∀ a, q.Leads (fun s n _ => asked s n) (fun _ => True) a →
      (f a).Only asked failed reported) : (q.andThen f).Only asked failed reported := by
  induction q with
  | done a => exact hf a rfl
  | fail e => exact hq
  | ask s n next ih => exact ⟨hq.1, fun b => ih b (hq.2 b) fun a ha => hf a ⟨b, hq.1, ha⟩⟩
  | rely c next ih => exact ih hq fun a ha => hf a ⟨trivial, ha⟩
  | report e next ih => exact ⟨hq.1, ih hq.2 hf⟩

/-- Two inquiries, one after the other: the second has to be looked at only for what the first can
lead to. -/
theorem only_bind {q : Inquiry α} {f : α → Inquiry β} (hq : q.Only asked failed reported)
    (hf : ∀ a, q.Leads (fun s n _ => asked s n) (fun _ => True) a →
      (f a).Only asked failed reported) : (q >>= f).Only asked failed reported := by
  rw [bind_eq_andThen]
  exact only_andThen hq hf

/-- A function of the result keeps to what is admitted if the inquiry does. -/
theorem only_map {q : Inquiry α} {f : α → β} (hq : q.Only asked failed reported) :
    (f <$> q).Only asked failed reported := by
  rw [← bind_pure_comp]
  exact only_bind hq fun _ _ => trivial

/-- Inquiries one after another keep to what is admitted if each of them does. -/
theorem only_mapM {f : α → Inquiry β} {as : List α}
    (h : ∀ a ∈ as, (f a).Only asked failed reported) :
    (as.mapM f).Only asked failed reported := by
  induction as with
  | nil => exact trivial
  | cons a as ih =>
    rw [List.forall_mem_cons] at h
    rw [List.mapM_cons]
    exact only_bind h.1 fun _ _ => only_bind (ih h.2) fun _ _ => trivial

end Inquiry

namespace Expr

variable {answers : Statement → Nat → Bool → Prop} {relies : Condition → Prop}

/-- Asking about every atom, one after another. -/
theorem only_mapAtomsM {asked : Statement → Nat → Prop} {failed : ProofError → Prop}
    {reported : Event → Prop} {f : Atom → Inquiry Expr} {p : Atom → Prop}
    (hf : ∀ a, p a → (f a).Only asked failed reported) {e : Expr}
    (he : (Shape.ofAtoms p).Within e) : (e.mapAtomsM f).Only asked failed reported := by
  induction e using ind with
  | number n =>
    rw [mapAtomsM]
    exact trivial
  | atom a =>
    rw [mapAtomsM]
    exact hf a ((Shape.within_atom a).1 he)
  | product fs ih =>
    rw [mapAtomsM]
    exact Inquiry.only_map (Inquiry.only_mapM fun e _ =>
      ih e.1 e.2 ((Shape.within_product fs).1 he e.1 e.2))
  | sum ts ih =>
    rw [mapAtomsM]
    exact Inquiry.only_map (Inquiry.only_mapM fun e _ =>
      ih e.1 e.2 ((Shape.within_sum ts).1 he e.1 e.2))
  | fraction n d ihn ihd =>
    obtain ⟨-, hn, hd⟩ := (Shape.within_fraction n d).1 he
    rw [mapAtomsM]
    exact Inquiry.only_bind (ihn hn) fun _ _ => Inquiry.only_bind (ihd hd) fun _ _ => trivial

/-- Replacing every atom by what an inquiry about it leads to. -/
theorem rebuilt_of_leads {f : Atom → Inquiry Expr} {e g : Expr}
    (h : (e.mapAtomsM f).Leads answers relies g) :
    Rebuilt (fun a g => (f a).Leads answers relies g) e g := by
  have members : ∀ {es gs : List Expr},
      (es.attach.mapM fun e => mapAtomsM f e.1).Leads answers relies gs →
      List.Forall₂ (fun e g => (e.mapAtomsM f).Leads answers relies g) es gs := by
    intro es gs h
    have h := (List.forall₂_map_left_iff (f := Subtype.val)
      (R := fun e g => (mapAtomsM f e).Leads answers relies g)).2 (Inquiry.leads_mapM.1 h)
    rwa [List.attach_map_subtype_val] at h
  induction e using ind generalizing g with
  | number n =>
    rw [mapAtomsM] at h
    obtain rfl := Inquiry.leads_pure.1 h
    exact .number n
  | atom a =>
    rw [mapAtomsM] at h
    exact .atom h
  | product fs ih =>
    rw [mapAtomsM] at h
    obtain ⟨gs, hgs, rfl⟩ := Inquiry.leads_map.1 h
    exact .product (forall₂_of_mem (members hgs) fun e he g => ih e he)
  | sum ts ih =>
    rw [mapAtomsM] at h
    obtain ⟨gs, hgs, rfl⟩ := Inquiry.leads_map.1 h
    exact .sum (forall₂_of_mem (members hgs) fun e he g => ih e he)
  | fraction n d ihn ihd =>
    rw [mapAtomsM] at h
    obtain ⟨m, hm, h⟩ := Inquiry.leads_bind.1 h
    obtain ⟨e, he, h⟩ := Inquiry.leads_bind.1 h
    obtain rfl := Inquiry.leads_pure.1 h
    exact .fraction (ihn hm) (ihd he)

end Expr

end AreaMethod
