import AreaMethod.Condition
import AreaMethod.Log

/-!
# Inquiries

To eliminate a point one may have to know whether some statement holds. An `Inquiry` is a
computation that asks: a tree whose inner nodes are questions, with a branch for either answer, and
whose leaves are results. On the way it also names the conditions it comes to rely on and reports
events. Who answers, by a proof or otherwise, is left open until the inquiry is carried out
(`Inquiry.run`).
-/

namespace AreaMethod

/-- A computation that may ask whether statements hold. -/
inductive Inquiry (α : Type) where
  /-- The result. -/
  | done (a : α)
  /-- The computation cannot go on. -/
  | fail (e : ProofError)
  /-- Does the statement hold over the first steps of the construction, of the given number? -/
  | ask (s : Statement) (prefixLength : Nat) (next : Bool → Inquiry α)
  /-- The result relies on a condition. -/
  | rely (c : Condition) (next : Inquiry α)
  /-- Something is worth reporting. -/
  | report (e : Event) (next : Inquiry α)

namespace Inquiry

/-- Goes on with the result of an inquiry. -/
def andThen : Inquiry α → (α → Inquiry β) → Inquiry β
  | done a, f => f a
  | fail e, _ => fail e
  | ask s n next, f => ask s n fun b => (next b).andThen f
  | rely c next, f => rely c (next.andThen f)
  | report e next, f => report e (next.andThen f)

instance : Monad Inquiry where
  pure := done
  bind q f :=
    match q with
    | done a => f a
    | q => q.andThen f

theorem bind_eq_andThen (q : Inquiry α) (f : α → Inquiry β) : q >>= f = q.andThen f := by
  cases q <;> rfl

theorem andThen_done (q : Inquiry α) : q.andThen done = q := by
  induction q with
  | done | fail => rfl
  | ask s n next ih => exact congrArg (ask s n) (funext ih)
  | rely c next ih => exact congrArg (rely c) ih
  | report e next ih => exact congrArg (report e) ih

theorem andThen_andThen (q : Inquiry α) (f : α → Inquiry β) (g : β → Inquiry γ) :
    (q.andThen f).andThen g = q.andThen fun a => (f a).andThen g := by
  induction q with
  | done | fail => rfl
  | ask s n next ih => exact congrArg (ask s n) (funext ih)
  | rely c next ih => exact congrArg (rely c) ih
  | report e next ih => exact congrArg (report e) ih

instance : LawfulMonad Inquiry :=
  LawfulMonad.mk' Inquiry
    (fun q => (bind_eq_andThen q done).trans (andThen_done q))
    (fun _ _ => rfl)
    (fun q f g => by
      simp only [bind_eq_andThen]
      exact andThen_andThen q f g)

/-- Carries out an inquiry in a monad that can answer questions, note conditions and report
events. -/
def run [Monad m] [MonadExceptOf ProofError m] (answer : Statement → Nat → m Bool)
    (note : Condition → m Unit) (log : Event → m Unit) : Inquiry α → m α
  | done a => pure a
  | fail e => throw e
  | ask s n next => do
    let b ← answer s n
    (next b).run answer note log
  | rely c next => do
    note c
    next.run answer note log
  | report e next => do
    log e
    next.run answer note log

end Inquiry

end AreaMethod
