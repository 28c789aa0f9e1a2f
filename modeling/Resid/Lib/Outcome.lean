import Mathlib.Logic.Relation
import Mathlib.Tactic.Common

/-!
# Answers, errors and traps

A step answers, reports an error, or traps.  The first that does not answer ends the run.

    x >>= f = ok b ↔ ∃ a, x = ok a ∧ f a = ok b                      (Outcome.bind_ok)
    x >>= f = trap ↔ x = trap ∨ ∃ a, x = ok a ∧ f a = trap           (Outcome.bind_trap)
    a loop ends so ↔ its steps lead to a state where it does         (Outcome.loop_iff)
-/

inductive Outcome (ε α : Type)
  | ok (a : α)
  | err (e : ε)
  | trap
  deriving DecidableEq, Repr

namespace Outcome

variable {ε α β : Type}

def bind (x : Outcome ε α) (f : α → Outcome ε β) : Outcome ε β :=
  match x with
  | ok a => f a
  | err e => err e
  | trap => trap

instance : Monad (Outcome ε) where
  pure := ok
  bind := bind

/-- A checked operation: nothing where it traps. -/
def checked : Option α → Outcome ε α
  | some a => ok a
  | none => trap

@[simp] theorem ok_bind (a : α) (f : α → Outcome ε β) : (ok a >>= f) = f a := rfl

@[simp] theorem err_bind (e : ε) (f : α → Outcome ε β) : (err e >>= f) = err e := rfl

@[simp] theorem trap_bind (f : α → Outcome ε β) : ((trap : Outcome ε α) >>= f) = trap := rfl

@[simp] theorem pure_eq (a : α) : (pure a : Outcome ε α) = ok a := rfl

@[simp] theorem checked_some (a : α) : (checked (some a) : Outcome ε α) = ok a := rfl

theorem bind_ok {x : Outcome ε α} {f : α → Outcome ε β} {b : β} :
    (x >>= f) = ok b ↔ ∃ a, x = ok a ∧ f a = ok b := by
  cases x with
  | ok a => simp
  | err e => simp
  | trap => simp

theorem bind_trap {x : Outcome ε α} {f : α → Outcome ε β} :
    (x >>= f) = trap ↔ x = trap ∨ ∃ a, x = ok a ∧ f a = trap := by
  cases x with
  | ok a => simp
  | err e => simp
  | trap => simp

theorem checked_ok {x : Option α} {a : α} : (checked x : Outcome ε α) = ok a ↔ x = some a := by
  cases x with
  | none => simp [checked]
  | some b => simp [checked]

/-! ## Loops -/

/-- A loop that ends so where `here` says, or where it ends so after a step `next`, whatever it
carries along, does exactly when its steps lead to such a state; every step brings the measure
down. -/
theorem loop_iff {σ ι : Type} {ends : σ → ι → Prop} {here : σ → Prop} {next : σ → σ → Prop}
    (measure : σ → Nat) (hdown : ∀ s s', next s s' → measure s' < measure s)
    (hends : ∀ s i, ends s i → here s ∨ ∃ s' i', next s s' ∧ ends s' i')
    (hhere : ∀ s i, here s → ends s i)
    (hnext : ∀ s s', next s s' → (∀ i, ends s' i) → ∀ i, ends s i) (s : σ) (i : ι) :
    ends s i ↔ ∃ s', Relation.ReflTransGen next s s' ∧ here s' := by
  constructor
  · intro h
    induction hn : measure s using Nat.strongRecOn generalizing s i with
    | ind n ih =>
      subst hn
      rcases hends s i h with hb | ⟨s', i', hstep, h'⟩
      · exact ⟨s, .refl, hb⟩
      · obtain ⟨t, hpath, ht⟩ := ih _ (hdown s s' hstep) s' i' h' rfl
        exact ⟨t, .head hstep hpath, ht⟩
  · rintro ⟨t, hpath, ht⟩
    have hall : ∀ i, ends s i := by
      induction hpath using Relation.ReflTransGen.head_induction_on with
      | refl => exact fun i => hhere t i ht
      | head hstep _ ih => exact hnext _ _ hstep ih
    exact hall i

end Outcome
