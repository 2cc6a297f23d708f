import StudyDoc.Lib.Transition
import Mathlib.Data.List.Basic
import Mathlib.Data.Multiset.AddSub
import Mathlib.Logic.Function.Basic
import Mathlib.Tactic.Common

/-!
# `demoOne/Observer.cc`, `Observrable.cc`: observers and their subjects

An `Observer` lives at an address and knows the subject it observed last; a subject keeps the
addresses of its observers.  `unregister_` writes the last pointer over the one it finds.

    p ++ x :: q ++ [b]  ↦  p ++ b :: q                                   (unregister_middle)
    as a multiset: unregister_ takes away one copy of x, if there is one (calls_multiset)
    no dangling pointer ↔ one observe between construction and destruction (noDangling_iff)

`Observer` has no constructor: `subject` is not set before the first `observe`.
-/

namespace StudyDoc.Observer

open Transition

/-! ## Algorithm -/

section

variable {A : Type} [DecidableEq A]

def register_ (observers_ : List A) (x : A) : List A := observers_ ++ [x]

/-- `std::find`, `std::swap(*it, observers_.back())`, `pop_back`. -/
def unregister_ (observers_ : List A) (x : A) : List A :=
  let it := observers_.idxOf x
  match observers_.getLast? with
  | some back =>
    if it = observers_.length then observers_
    else ((observers_.set it back).set (observers_.length - 1) x).dropLast
  | none => observers_

end

structure World (A S : Type) where
  alive : A → Bool
  /-- `none`: never set. -/
  subject : A → Option S
  observers_ : S → List A

inductive Event (A S : Type) where
  | construct (x : A)
  | observe (x : A) (s : S)
  /-- `~Observer` -/
  | destroy (x : A)
  | notifyObservers (s : S)

namespace World

variable {A S : Type} [DecidableEq A] [DecidableEq S]

def construct (w : World A S) (x : A) : World A S :=
  { w with alive := Function.update w.alive x true, subject := Function.update w.subject x none }

def observe (w : World A S) (x : A) (s : S) : World A S :=
  { w with
    observers_ := Function.update w.observers_ s (register_ (w.observers_ s) x)
    subject := Function.update w.subject x (some s) }

def destroy (w : World A S) (x : A) (subject : S) : World A S :=
  { w with
    observers_ := Function.update w.observers_ subject (unregister_ (w.observers_ subject) x)
    alive := Function.update w.alive x false }

/-- `none`: not possible, or undefined. -/
def step (w : World A S) : Event A S → Option (World A S)
  | .construct x => if w.alive x then none else some (w.construct x)
  | .observe x s => if w.alive x then some (w.observe x s) else none
  | .destroy x =>
    match w.alive x, w.subject x with
    | true, some subject => some (w.destroy x subject)
    | _, _ => none
  | .notifyObservers s => if (w.observers_ s).all w.alive then some w else none

end World

/-- Observers and subjects, from before the first observer on. -/
def world (A S : Type) [DecidableEq A] [DecidableEq S] : System (World A S) (Event A S) where
  init w := w = ⟨fun _ => false, fun _ => none, fun _ => []⟩
  step w e w' := w.step e = some w'

/-! ## `unregister_` -/

section

variable {A : Type} [DecidableEq A]

theorem unregister_notMem {l : List A} {x : A} (h : x ∉ l) : unregister_ l x = l := by
  unfold unregister_
  cases hl : l.getLast? with
  | none => rfl
  | some back => simp [List.idxOf_eq_length_iff.mpr h]

theorem unregister_last {p : List A} {x : A} (h : x ∉ p) : unregister_ (p ++ [x]) x = p := by
  have hit : (p ++ [x]).idxOf x = p.length := by
    rw [List.idxOf_append_of_notMem h, List.idxOf_cons_self, Nat.add_zero]
  unfold unregister_
  simp [hit]

theorem unregister_middle {p q : List A} {x b : A} (h : x ∉ p) :
    unregister_ (p ++ x :: (q ++ [b])) x = p ++ b :: q := by
  have hit : (p ++ x :: (q ++ [b])).idxOf x = p.length := by
    rw [List.idxOf_append_of_notMem h, List.idxOf_cons_self, Nat.add_zero]
  have hback : (p ++ x :: (q ++ [b])).getLast? = some b := by
    rw [show p ++ x :: (q ++ [b]) = (p ++ x :: q) ++ [b] by simp]
    exact List.getLast?_concat
  unfold unregister_
  simp [hit, hback, List.dropLast_cons_of_ne_nil]

example : unregister_ [1, 2, 3] 1 = [3, 2] := rfl

/-- The two ways in which a pointer can stand in `observers_`. -/
theorem unregister_cases {l : List A} {x : A} (h : x ∈ l) : ∃ p, x ∉ p ∧
    (l = p ++ [x] ∧ unregister_ l x = p ∨
      ∃ q b, l = p ++ x :: (q ++ [b]) ∧ unregister_ l x = p ++ b :: q) := by
  obtain ⟨p, q, hp, rfl, -⟩ := List.exists_erase_eq h
  refine ⟨p, hp, ?_⟩
  rcases List.eq_nil_or_concat q with rfl | ⟨q, b, rfl⟩
  · exact Or.inl ⟨rfl, unregister_last hp⟩
  · rw [List.concat_eq_append]
    exact Or.inr ⟨q, b, rfl, unregister_middle hp⟩

theorem unregister_perm (l : List A) (x : A) : (unregister_ l x).Perm (l.erase x) := by
  by_cases hx : x ∈ l
  · obtain ⟨p, hp, ⟨rfl, h⟩ | ⟨q, b, rfl, h⟩⟩ := unregister_cases hx
    · rw [h, List.erase_append_right _ hp, List.erase_cons_head, List.append_nil]
    · rw [h, List.erase_append_right _ hp, List.erase_cons_head]
      exact (List.perm_append_singleton b q).symm.append_left p
  · rw [unregister_notMem hx, List.erase_of_not_mem hx]

theorem count_unregister_self (l : List A) (x : A) :
    (unregister_ l x).count x = l.count x - 1 := by
  rw [(unregister_perm l x).count_eq, List.count_erase_self]

theorem count_unregister_of_ne {x y : A} (h : x ≠ y) (l : List A) :
    (unregister_ l y).count x = l.count x := by
  rw [(unregister_perm l y).count_eq, List.count_erase_of_ne h]

end

/-! ## Sequences of calls -/

section

variable {A : Type} [DecidableEq A]

inductive Call (A : Type) where
  | register (x : A)
  | unregister (x : A)

/-- `observers_` after the call. -/
def Call.apply (observers_ : List A) : Call A → List A
  | .register x => register_ observers_ x
  | .unregister x => unregister_ observers_ x

/-- What the call is for: one copy more, or one copy less if there is any. -/
def Call.change (registered : Multiset A) : Call A → Multiset A
  | .register x => x ::ₘ registered
  | .unregister x => registered.erase x

theorem apply_multiset (l : List A) (c : Call A) :
    ((c.apply l : List A) : Multiset A) = c.change (l : Multiset A) := by
  cases c with
  | register x => exact Multiset.coe_eq_coe.mpr (List.perm_append_singleton x l)
  | unregister x =>
    show ((unregister_ l x : List A) : Multiset A) = (l : Multiset A).erase x
    rw [Multiset.coe_erase]
    exact Multiset.coe_eq_coe.mpr (unregister_perm l x)

/-- **Registrations.**  After any calls the pointers in `observers_` are those of the multiset that
each `register_` adds a copy to and each `unregister_` takes a copy from. -/
theorem calls_multiset (observers_ : List A) (calls : List (Call A)) :
    ((calls.foldl Call.apply observers_ : List A) : Multiset A) =
      calls.foldl Call.change (observers_ : Multiset A) := by
  induction calls generalizing observers_ with
  | nil => rfl
  | cons c calls ih =>
    show ((calls.foldl Call.apply (c.apply observers_) : List A) : Multiset A) =
      calls.foldl Call.change (c.change (observers_ : Multiset A))
    rw [ih, apply_multiset]

end

/-! ## What an observer has observed -/

section

variable {A S : Type} [DecidableEq A] [DecidableEq S]

def seenStep (x : A) (ss : List S) : Event A S → List S
  | .construct y => if y = x then [] else ss
  | .observe y s => if y = x then ss ++ [s] else ss
  | _ => ss

/-- The subjects that `x` has observed since it was constructed. -/
def seen (x : A) (es : List (Event A S)) : List S := es.foldl (seenStep x) []

omit [DecidableEq S] in
theorem seen_append (x : A) (es : List (Event A S)) (e : Event A S) :
    seen x (es ++ [e]) = seenStep x (seen x es) e := by
  unfold seen
  rw [List.foldl_append]
  rfl

/-- A living observer is registered as often as it has observed, and knows the latest subject. -/
def Tracked (es : List (Event A S)) (w : World A S) : Prop :=
  ∀ x, w.alive x = true →
    w.subject x = (seen x es).getLast? ∧ ∀ s, (w.observers_ s).count x = (seen x es).count s

/-- No subject keeps a pointer to a destroyed observer. -/
def NoDangling (w : World A S) : Prop := ∀ s x, x ∈ w.observers_ s → w.alive x = true

/-- All that a step does. -/
def Effect (w w' : World A S) : Event A S → Prop
  | .construct x => w.alive x = false ∧ w' = w.construct x
  | .observe x s => w.alive x = true ∧ w' = w.observe x s
  | .destroy x => w.alive x = true ∧ ∃ subject, w.subject x = some subject ∧
      w' = w.destroy x subject
  | .notifyObservers _ => w' = w

theorem step_effect {w w' : World A S} {e : Event A S} (hs : w.step e = some w') :
    Effect w w' e := by
  cases e <;> dsimp only [World.step] at hs
  case construct x =>
    split at hs
    · cases hs
    · next h => exact ⟨by simpa using h, (Option.some.inj hs).symm⟩
  case observe x s => exact guard_iff.mp hs
  case destroy x =>
    split at hs
    · next subject halive hsubject => exact ⟨halive, subject, hsubject, (Option.some.inj hs).symm⟩
    · cases hs
  case notifyObservers s =>
    split at hs
    · exact (Option.some.inj hs).symm
    · cases hs

theorem step_tracked {es : List (Event A S)} {w w' : World A S} {e : Event A S}
    (h : Tracked es w) (hdangling : NoDangling w) (hs : w.step e = some w') :
    Tracked (es ++ [e]) w' := by
  have heff := step_effect hs
  intro x hx
  rw [seen_append]
  cases e with
  | construct y =>
    obtain ⟨hdead, rfl⟩ := heff
    by_cases hxy : x = y
    · subst hxy
      refine ⟨by simp [World.construct, seenStep], fun s => ?_⟩
      have hnot : x ∉ w.observers_ s := by
        intro hmem
        rw [hdangling s x hmem] at hdead
        cases hdead
      show (w.observers_ s).count x = (seenStep x (seen x es) (.construct x)).count s
      rw [List.count_eq_zero_of_not_mem hnot]
      simp [seenStep]
    · have halive : w.alive x = true := by simpa [World.construct, hxy] using hx
      obtain ⟨hsubject, hcount⟩ := h x halive
      simpa [World.construct, seenStep, hxy, Ne.symm hxy] using ⟨hsubject, hcount⟩
  | observe y t =>
    obtain ⟨-, rfl⟩ := heff
    obtain ⟨hsubject, hcount⟩ := h x hx
    by_cases hxy : x = y
    · subst hxy
      refine ⟨by simp [World.observe, seenStep], fun s => ?_⟩
      by_cases hst : s = t
      · subst hst
        simp [World.observe, seenStep, register_, hcount]
      · simp [World.observe, seenStep, hst, Ne.symm hst, hcount]
    · refine ⟨by simpa [World.observe, seenStep, hxy, Ne.symm hxy] using hsubject, fun s => ?_⟩
      by_cases hst : s = t
      · subst hst
        simp [World.observe, seenStep, register_, hcount, Ne.symm hxy]
      · simp [World.observe, seenStep, hst, Ne.symm hxy, hcount]
  | destroy y =>
    obtain ⟨-, t, -, rfl⟩ := heff
    have hxy : x ≠ y := by
      rintro rfl
      simp [World.destroy] at hx
    have halive : w.alive x = true := by simpa [World.destroy, hxy] using hx
    obtain ⟨hsubject, hcount⟩ := h x halive
    refine ⟨hsubject, fun s => ?_⟩
    by_cases hst : s = t
    · subst hst
      simp [World.destroy, seenStep, count_unregister_of_ne hxy, hcount]
    · simp [World.destroy, seenStep, hst, hcount]
  | notifyObservers t =>
    obtain rfl := heff
    exact h x hx

/-- The destructor leaves no pointer behind exactly if it had one registration to undo. -/
theorem noDangling_destroy_iff {es : List (Event A S)} {w : World A S} (h : Tracked es w)
    (hdangling : NoDangling w) {x : A} {t : S} (halive : w.alive x = true)
    (hsubject : w.subject x = some t) :
    NoDangling (w.destroy x t) ↔ (seen x es).length = 1 := by
  obtain ⟨hlast, hcount⟩ := h x halive
  rw [hsubject] at hlast
  obtain ⟨before, hseen⟩ := List.getLast?_eq_some_iff.mp hlast.symm
  -- what is left of `x` in each list: its registrations but the last
  have hleft : ∀ s, ((w.destroy x t).observers_ s).count x = before.count s := by
    intro s
    have hs := hcount s
    rw [hseen, List.count_append] at hs
    by_cases hst : s = t
    · subst hst
      simp [World.destroy, count_unregister_self, hs]
    · simpa [World.destroy, hst, Ne.symm hst] using hs
  have hone : (seen x es).length = 1 ↔ before = [] := by
    rw [hseen, List.length_append, List.length_singleton]
    simp
  rw [hone]
  constructor
  · intro hnone
    apply List.eq_nil_iff_forall_not_mem.mpr
    intro s hs
    have hpos : 0 < ((w.destroy x t).observers_ s).count x := by
      rw [hleft s]
      exact List.count_pos_iff.mpr hs
    have hx := hnone s x (List.count_pos_iff.mp hpos)
    simp [World.destroy] at hx
  · rintro rfl s y hy
    have hyx : y ≠ x := by
      rintro rfl
      have hpos := List.count_pos_iff.mpr hy
      rw [hleft s] at hpos
      simp at hpos
    have hmem : y ∈ w.observers_ s := by
      by_cases hst : s = t
      · subst hst
        have hy' : y ∈ unregister_ (w.observers_ s) x := by simpa [World.destroy] using hy
        exact List.mem_of_mem_erase ((unregister_perm _ x).mem_iff.mp hy')
      · simpa [World.destroy, hst] using hy
    show Function.update w.alive x false y = true
    rw [Function.update_of_ne hyx]
    exact hdangling s y hmem

/-- No step but a destructor leaves a dangling pointer. -/
theorem step_noDangling {es : List (Event A S)} {w w' : World A S} {e : Event A S}
    (h : Tracked es w) (hdangling : NoDangling w)
    (honce : ∀ x, e = .destroy x → (seen x es).length = 1) (hs : w.step e = some w') :
    NoDangling w' := by
  have heff := step_effect hs
  cases e with
  | construct x =>
    obtain ⟨-, rfl⟩ := heff
    intro s y hy
    have halive : w.alive y = true := hdangling s y hy
    by_cases hyx : y = x <;> simp [World.construct, hyx, halive]
  | observe x t =>
    obtain ⟨hx, rfl⟩ := heff
    intro s y hy
    by_cases hst : s = t
    · subst hst
      have hy' : y ∈ w.observers_ s ∨ y = x := by
        simpa [World.observe, register_] using hy
      rcases hy' with hy' | rfl
      · exact hdangling s y hy'
      · exact hx
    · exact hdangling s y (by simpa [World.observe, hst] using hy)
  | destroy x =>
    obtain ⟨hx, t, hsubject, rfl⟩ := heff
    exact (noDangling_destroy_iff h hdangling hx hsubject).mpr (honce x rfl)
  | notifyObservers t =>
    obtain rfl := heff
    exact hdangling

/-! ## Destroyed observers -/

/-- `update` is called on living objects only, `unregister_` through a pointer that was set. -/
def Safe (w : World A S) : Event A S → Prop
  | .notifyObservers s => ∀ x ∈ w.observers_ s, w.alive x = true
  | .destroy x => w.alive x = true → ∃ s, w.subject x = some s
  | _ => True

/-- Every observer that the run destroys has observed once, no more and no less. -/
def ObservedOnce (es : List (Event A S)) : Prop :=
  ∀ pre x post w, es = pre ++ .destroy x :: post → (world A S).Run pre w → w.alive x = true →
    (seen x pre).length = 1

theorem run_tracked {es : List (Event A S)} {w : World A S} (h : (world A S).Run es w)
    (halways : (world A S).Always es NoDangling) : Tracked es w := by
  induction h with
  | start hi =>
    intro x hx
    rw [show _ = _ from hi] at hx
    cases hx
  | @next es w e w' hr hs ih =>
    have hpre : (world A S).Always es NoDangling := by
      rintro pre post v rfl hv
      exact halways pre (post ++ [e]) v (by simp) hv
    exact step_tracked (ih hpre) (halways es [e] w rfl hr) hs

theorem run_noDangling {es : List (Event A S)} {w : World A S} (h : (world A S).Run es w)
    (honce : ObservedOnce es) : Tracked es w ∧ NoDangling w := by
  induction h with
  | start hi =>
    rw [show _ = _ from hi]
    constructor
    · intro x hx
      cases hx
    · intro s x hx
      cases hx
  | @next es w e w' hr hs ih =>
    have hpre : ObservedOnce es := by
      rintro pre x post v rfl
      exact honce pre x (post ++ [e]) v (by simp)
    obtain ⟨htracked, hdangling⟩ := ih hpre
    refine ⟨step_tracked htracked hdangling hs, step_noDangling htracked hdangling ?_ hs⟩
    rintro x rfl
    obtain ⟨halive, -⟩ := step_effect hs
    exact honce es x [] w rfl hr halive

/-- **No dangling observer.**  A run never keeps a pointer to a destroyed observer, calls `update`
on one, or unregisters through a pointer not set, exactly if it destroys no observer but those
that have observed once. -/
theorem noDangling_iff (es : List (Event A S)) :
    (world A S).Always es NoDangling ∧ (world A S).Along es Safe ↔ ObservedOnce es := by
  constructor
  · rintro ⟨halways, hsafe⟩ pre x post w rfl hr halive
    have hdangling : NoDangling w := halways pre _ w rfl hr
    have htracked : Tracked pre w := by
      refine run_tracked hr ?_
      rintro pre' post' v rfl hv
      exact halways pre' (post' ++ .destroy x :: post) v (by simp) hv
    obtain ⟨t, ht⟩ := hsafe pre (.destroy x) post w rfl hr halive
    have hstep : (world A S).step w (.destroy x) (w.destroy x t) := by
      show w.step (.destroy x) = some (w.destroy x t)
      simp [World.step, halive, ht]
    have hnext : NoDangling (w.destroy x t) :=
      halways (pre ++ [.destroy x]) post _ (by simp) (hr.next hstep)
    exact (noDangling_destroy_iff htracked hdangling halive ht).mp hnext
  · intro honce
    have hfront : ∀ pre post, es = pre ++ post → ObservedOnce pre := by
      rintro pre post rfl pre' x post' w rfl
      exact honce pre' x (post' ++ post) w (by simp)
    constructor
    · intro pre post w he hr
      exact (run_noDangling hr (hfront pre post he)).2
    · intro pre e post w he hr
      obtain ⟨htracked, hdangling⟩ := run_noDangling hr (hfront pre _ he)
      cases e with
      | notifyObservers s => exact fun x hx => hdangling s x hx
      | destroy x =>
        intro halive
        have hone := honce pre x post w he hr halive
        obtain ⟨t, ht⟩ := List.length_eq_one_iff.mp hone
        refine ⟨t, ?_⟩
        rw [(htracked x halive).1, ht]
        rfl
      | _ => trivial

/-- Observing one subject twice leaves a pointer to the destroyed observer behind. -/
theorem observe_twice_dangles :
    ¬ ((world Nat Nat).Always [.construct 1, .observe 1 0, .observe 1 0, .destroy 1] NoDangling ∧
      (world Nat Nat).Along [.construct 1, .observe 1 0, .observe 1 0, .destroy 1] Safe) := by
  rintro ⟨halways, -⟩
  have hstep : ∀ (w : World Nat Nat) e w', w.step e = some w' → (world Nat Nat).step w e w' :=
    fun _ _ _ h => h
  have r : (world Nat Nat).Run [] ⟨fun _ => false, fun _ => none, fun _ => []⟩ := .start rfl
  have r := r.next (hstep _ (.construct 1) _ rfl)
  have r := r.next (hstep _ (.observe 1 0) _ rfl)
  have r := r.next (hstep _ (.observe 1 0) _ rfl)
  have r := r.next (hstep _ (.destroy 1) _ rfl)
  have hdangling := halways _ [] _ rfl r 0 1 (List.mem_singleton_self 1)
  cases hdangling

end

end StudyDoc.Observer
