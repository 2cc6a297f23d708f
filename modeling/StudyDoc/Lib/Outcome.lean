import Mathlib.Logic.Basic

/-!
# What a C call comes to

A call returns, ends the process with a message, does something that C leaves undefined, or is still
running when the turns that its loops were given are used up.  A sequence of calls returns exactly
when each of them does (bind_eq_returns).
-/

inductive Outcome (α : Type) where
  | returns (a : α)
  | exits (text : String)
  | undefined
  | running
  deriving DecidableEq

namespace Outcome

variable {α β : Type}

def bind : Outcome α → (α → Outcome β) → Outcome β
  | returns a, f => f a
  | exits text, _ => exits text
  | undefined, _ => undefined
  | running, _ => running

instance : Monad Outcome where
  pure := returns
  bind := bind

@[simp] theorem returns_bind (a : α) (f : α → Outcome β) : returns a >>= f = f a := rfl

@[simp] theorem pure_eq (a : α) : (pure a : Outcome α) = returns a := rfl

theorem bind_eq_returns {t : Outcome α} {f : α → Outcome β} {b : β} :
    t >>= f = returns b ↔ ∃ a, t = returns a ∧ f a = returns b := by
  constructor
  · intro h
    cases t with
    | returns a => exact ⟨a, rfl, h⟩
    | exits text => cases h
    | undefined => cases h
    | running => cases h
  · rintro ⟨a, rfl, h⟩
    exact h

end Outcome
