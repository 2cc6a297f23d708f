import Mathlib.Logic.Function.Basic
import Mathlib.Tactic.Common

/-!
# Data behind one mutex

Threads of any type `T` share data; thread `t` is at a point in `L t`.  A point is inside or
outside the critical sections.  `resource` holds of the data while the mutex is free, and all that
a thread may do to the data is in `guarantee`.  Each point has an assertion that the thread there
can rely on; outside it must survive the `guarantee`, inside it need not:

    free → resource d      t is inside ↔ t owns the mutex      t at l → knows t l d     (Inv.step)

Both kinds of steps keep this: a step outside that leaves the data, and a step of a thread that
nobody else is inside with.  A step of no thread keeps it too, if no thread can tell
(`Inv.environment`).
-/

namespace Guarded

structure Protocol (T S : Type) (L : T → Type) where
  owner : S → Option T
  inside : ∀ t, L t → Bool
  knows : ∀ t, L t → S → Prop
  resource : S → Prop
  guarantee : S → S → Prop
  stable : ∀ {t : T} {l : L t} {d d' : S}, inside t l = false → guarantee d d' → knows t l d →
    knows t l d'

namespace Protocol

variable {T S : Type} {L : T → Type} {P : Protocol T S L}

structure Inv (P : Protocol T S L) (pc : ∀ t, L t) (d : S) : Prop where
  owner : ∀ t, P.owner d = some t ↔ P.inside t (pc t) = true
  free : P.owner d = none → P.resource d
  knows : ∀ t, P.knows t (pc t) d

/-- What the step of thread `t` from `l` and `d` to `l'` and `d'` must be. -/
inductive Step (P : Protocol T S L) (t : T) : L t → S → L t → S → Prop
  | outside {l l' : L t} {d : S} : P.inside t l = false → P.inside t l' = false →
      P.knows t l' d → Step P t l d l' d
  /-- The mutex is free or `t` has it, and then `t` has it exactly inside. -/
  | alone {l l' : L t} {d d' : S} : P.owner d = none ∨ P.owner d = some t → P.guarantee d d' →
      P.owner d' = (if P.inside t l' = true then some t else none) →
      (P.inside t l' = false → P.resource d') → P.knows t l' d' → Step P t l d l' d'

/-- Into the critical section, or a step inside it. -/
theorem Step.into {t : T} {l l' : L t} {d d' : S} (hown : P.owner d = none ∨ P.owner d = some t)
    (hG : P.guarantee d d') (hown' : P.owner d' = some t) (hl' : P.inside t l' = true)
    (hk : P.knows t l' d') : P.Step t l d l' d' := by
  refine .alone hown hG ?_ (fun hout => ?_) hk
  · rw [if_pos hl']
    exact hown'
  · rw [hl'] at hout
    cases hout

/-- Out of the critical section: the resource must be as the next thread expects it. -/
theorem Step.leave {t : T} {l l' : L t} {d d' : S} (hown : P.owner d = some t)
    (hG : P.guarantee d d') (hown' : P.owner d' = none) (hl' : P.inside t l' = false)
    (hr : P.resource d') (hk : P.knows t l' d') : P.Step t l d l' d' := by
  refine .alone (Or.inr hown) hG ?_ (fun _ => hr) hk
  rw [if_neg (by rw [hl']; exact Bool.false_ne_true)]
  exact hown'

theorem Inv.others {pc : ∀ t, L t} {d : S} (h : P.Inv pc d) {t : T}
    (ht : P.owner d = none ∨ P.owner d = some t) {u : T} (hu : u ≠ t) :
    P.inside u (pc u) = false := by
  rw [← Bool.not_eq_true, ← h.owner u]
  intro hown
  rcases ht with hfree | hown'
  · rw [hfree] at hown
    exact absurd hown (by simp)
  · rw [hown'] at hown
    exact hu (Option.some.inj hown).symm

/-- **The mutex rule.** -/
theorem Inv.step [DecidableEq T] {pc : ∀ t, L t} {d d' : S} (h : P.Inv pc d) {t : T} {l' : L t}
    (hs : P.Step t (pc t) d l' d') : P.Inv (Function.update pc t l') d' := by
  cases hs with
  | outside hl hl' hk =>
    refine ⟨fun u => ?_, h.free, fun u => ?_⟩
    · by_cases hu : u = t
      · subst hu
        rw [Function.update_self, h.owner u, hl, hl']
      · rw [Function.update_of_ne hu]
        exact h.owner u
    · by_cases hu : u = t
      · subst hu
        rw [Function.update_self]
        exact hk
      · rw [Function.update_of_ne hu]
        exact h.knows u
  | alone hown hG hown' hfree hk =>
    refine ⟨fun u => ?_, fun hn => hfree ?_, fun u => ?_⟩
    · by_cases hu : u = t
      · subst hu
        rw [Function.update_self, hown']
        simp
      · rw [Function.update_of_ne hu, h.others hown hu, hown']
        simp [Ne.symm hu]
    · rw [hown'] at hn
      simpa using hn
    · by_cases hu : u = t
      · subst hu
        rw [Function.update_self]
        exact hk
      · rw [Function.update_of_ne hu]
        exact P.stable (h.others hown hu) hG (h.knows u)

/-- A step of nobody's that every thread can bear. -/
theorem Inv.environment {pc : ∀ t, L t} {d d' : S} (h : P.Inv pc d)
    (hown : P.owner d' = P.owner d) (hr : P.resource d → P.resource d')
    (hk : ∀ t, P.knows t (pc t) d → P.knows t (pc t) d') : P.Inv pc d' where
  owner t := by rw [hown, h.owner t]
  free hn := hr (h.free (hown ▸ hn))
  knows t := hk t (h.knows t)

end Protocol

end Guarded
