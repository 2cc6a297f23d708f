import StudyDoc.Thread.Observer
import Mathlib.Data.List.Nodup

/-!
# `demoOne/Observerable.h`: `notifyObservers` while its observers unregister

One call of `notifyObservers`, cut where `update` enters and leaves and where it unregisters an
observer.  `passed` counts the positions the cursor has read; `ahead` is what it still has to.

    called = observers_.take passed, while none unregisters              (called_in_order)
    called and ahead are disjoint                                        (reachable_ordered)
    registered = called or ahead, always ↔ no called observer goes
      while one is waiting                                               (noneSkipped_iff)

`observers_` holds addresses of observers, so `if (x)` always holds.
-/

namespace StudyDoc.Notify

open Transition Observer

/-! ## Algorithm -/

structure Loop (A : Type) where
  observers_ : List A
  i : Nat
  /-- Every `update` so far, in order. -/
  called : List A
  /-- Inside `x->update()`. -/
  updating : Bool

inductive Event (A : Type) where
  /-- The loop reads `observers_[i]` and calls its `update`. -/
  | update
  /-- That `update` unregisters `x`. -/
  | unregister (x : A)
  /-- That `update` returns. -/
  | ret

namespace Loop

variable {A : Type}

def passed (s : Loop A) : Nat := if s.updating then s.i + 1 else s.i

def ahead (s : Loop A) : List A := s.observers_.drop s.passed

/-- The loop has ended. -/
def done (s : Loop A) : Prop := s.updating = false ∧ s.observers_.length ≤ s.i

/-- `none` when the step is not possible. -/
def step [DecidableEq A] (s : Loop A) : Event A → Option (Loop A)
  | .update =>
    match s.updating, s.observers_[s.i]? with
    | false, some x => some { s with called := s.called ++ [x], updating := true }
    | _, _ => none
  | .unregister x =>
    if s.updating ∧ x ∈ s.observers_ then
      some { s with observers_ := unregister_ s.observers_ x }
    else none
  | .ret => if s.updating then some { s with i := s.i + 1, updating := false } else none

end Loop

/-- `notifyObservers` on any list of distinct observers. -/
def notifyObservers (A : Type) [DecidableEq A] : System (Loop A) (Event A) where
  init s := s.observers_.Nodup ∧ s.i = 0 ∧ s.called = [] ∧ s.updating = false
  step s e s' := s.step e = some s'

section

variable {A : Type} [DecidableEq A]

/-! ## What is ahead of the cursor -/

/-- Nothing moves away from the front. -/
theorem drop_unregister_subset (l : List A) (y : A) (k : Nat) :
    (unregister_ l y).drop k ⊆ l.drop k := by
  by_cases hy : y ∈ l
  · obtain ⟨p, -, ⟨hl, hun⟩ | ⟨q, b, hl, hun⟩⟩ := unregister_cases hy
    · rw [hun, hl, List.drop_append]
      exact List.subset_append_left _ _
    · have htail : (b :: q).drop (k - p.length) ⊆ (y :: (q ++ [b])).drop (k - p.length) := by
        cases k - p.length with
        | zero =>
          intro x hx
          simp only [List.drop_zero, List.mem_cons, List.mem_append] at hx ⊢
          tauto
        | succ n =>
          rw [List.drop_succ_cons, List.drop_succ_cons, List.drop_append]
          exact List.subset_append_left _ _
      rw [hun, hl, List.drop_append, List.drop_append]
      intro x hx
      rw [List.mem_append] at hx ⊢
      exact hx.imp_right fun h => htail h
  · rw [unregister_notMem hy]
    exact List.Subset.refl _

/-- An observer removed from ahead of the cursor leaves the others there. -/
theorem mem_drop_unregister {l : List A} {x y : A} {k : Nat} (hnd : l.Nodup)
    (hy : y ∈ l.drop k) (hx : x ∈ l.drop k) (hxy : x ≠ y) : x ∈ (unregister_ l y).drop k := by
  obtain ⟨p, hp, ⟨rfl, hun⟩ | ⟨q, b, rfl, hun⟩⟩ := unregister_cases (List.mem_of_mem_drop hy)
  · rw [List.drop_append, List.mem_append] at hx
    rw [hun]
    refine hx.resolve_right fun hlast => hxy ?_
    exact List.mem_singleton.mp (List.mem_of_mem_drop hlast)
  · have hk : k - p.length = 0 := by
      rw [List.drop_append, List.mem_append] at hy
      have hy := hy.resolve_left fun h => hp (List.mem_of_mem_drop h)
      cases hk : k - p.length with
      | zero => rfl
      | succ n =>
        rw [hk, List.drop_succ_cons] at hy
        have hnot := (List.nodup_cons.mp (List.nodup_append.mp hnd).2.1).1
        exact absurd (List.mem_of_mem_drop hy) hnot
    rw [hun, List.drop_append, hk]
    rw [List.drop_append, hk] at hx
    simp only [List.drop_zero, List.mem_append, List.mem_cons, List.not_mem_nil, or_false] at hx ⊢
    tauto

/-- An observer removed from behind the cursor pulls the last one there. -/
theorem back_notMem_drop_unregister {l : List A} {y b : A} {k : Nat} (hnd : l.Nodup)
    (hy : y ∈ l) (hpassed : y ∉ l.drop k) (hback : l.getLast? = some b) :
    b ∉ (unregister_ l y).drop k := by
  obtain ⟨p, hp, ⟨rfl, hun⟩ | ⟨q, c, rfl, hun⟩⟩ := unregister_cases hy
  · obtain rfl : y = b := by simpa using hback
    rw [hun]
    exact fun h => hp (List.mem_of_mem_drop h)
  · obtain rfl : c = b := by
      rw [show p ++ y :: (q ++ [c]) = (p ++ y :: q) ++ [c] by simp, List.getLast?_concat] at hback
      exact Option.some.inj hback
    rw [show p ++ y :: (q ++ [c]) = (p ++ y :: q) ++ [c] by simp, List.nodup_append] at hnd
    obtain ⟨-, -, hne⟩ := hnd
    rw [hun, List.drop_append, List.mem_append]
    rw [List.drop_append, List.mem_append] at hpassed
    cases hk : k - p.length with
    | zero =>
      rw [hk, List.drop_zero] at hpassed
      exact absurd (Or.inr (List.mem_cons_self ..)) hpassed
    | succ n =>
      rw [List.drop_succ_cons]
      rintro (h | h)
      · exact hne c (List.mem_append_left _ (List.mem_of_mem_drop h)) c
          (List.mem_singleton_self c) rfl
      · exact hne c (List.mem_append_right _ (List.mem_cons_of_mem _ (List.mem_of_mem_drop h))) c
          (List.mem_singleton_self c) rfl

/-! ## One call of `update` each -/

/-- All that a step does. -/
def Effect (s s' : Loop A) : Event A → Prop
  | .update => s.updating = false ∧ ∃ x, s.observers_[s.i]? = some x ∧
      s' = { s with called := s.called ++ [x], updating := true }
  | .unregister x => s.updating = true ∧ x ∈ s.observers_ ∧
      s' = { s with observers_ := unregister_ s.observers_ x }
  | .ret => s.updating = true ∧ s' = { s with i := s.i + 1, updating := false }

theorem step_effect {s s' : Loop A} {e : Event A} (hs : s.step e = some s') : Effect s s' e := by
  cases e <;> dsimp only [Loop.step] at hs
  case update =>
    split at hs
    · next x hrun hx => exact ⟨hrun, x, hx, (Option.some.inj hs).symm⟩
    · cases hs
  case unregister x =>
    obtain ⟨⟨hupdating, hmem⟩, hs'⟩ := guard_iff.mp hs
    exact ⟨hupdating, hmem, hs'⟩
  case ret => exact guard_iff.mp hs

/-- What a step leaves ahead of the cursor. -/
theorem step_ahead {s s' : Loop A} {e : Event A} (hs : s.step e = some s') :
    match e with
    | .update => ∃ x, s.ahead = x :: s'.ahead ∧ s'.called = s.called ++ [x] ∧
        s'.observers_ = s.observers_
    | .unregister x => s'.ahead = (unregister_ s.observers_ x).drop s.passed
    | .ret => s'.ahead = s.ahead := by
  have heff := step_effect hs
  cases e with
  | update =>
    obtain ⟨hrun, x, hx, rfl⟩ := heff
    obtain ⟨hi, hget⟩ := List.getElem?_eq_some_iff.mp hx
    refine ⟨x, ?_, rfl, rfl⟩
    unfold Loop.ahead Loop.passed
    simp [hrun, List.drop_eq_getElem_cons hi, hget]
  | unregister x =>
    obtain ⟨-, -, rfl⟩ := heff
    rfl
  | ret =>
    obtain ⟨hrun, rfl⟩ := heff
    unfold Loop.ahead Loop.passed
    simp [hrun]

structure Ordered (s : Loop A) : Prop where
  observers_ : s.observers_.Nodup
  called : s.called.Nodup
  ahead : ∀ x ∈ s.called, x ∉ s.ahead

theorem step_ordered {s s' : Loop A} {e : Event A} (h : Ordered s) (hs : s.step e = some s') :
    Ordered s' := by
  have heff := step_effect hs
  have hahead := step_ahead hs
  cases e with
  | update =>
    obtain ⟨x, hcons, hcalled, hsame⟩ := hahead
    have hnd : (x :: s'.ahead).Nodup := by
      rw [← hcons]
      exact h.observers_.sublist (List.drop_sublist ..)
    have hfresh : x ∉ s.called := fun hx => h.ahead x hx (hcons ▸ List.mem_cons_self)
    refine ⟨hsame ▸ h.observers_, ?_, fun y hy hin => ?_⟩
    · rw [hcalled, ← List.concat_eq_append]
      exact List.Nodup.concat hfresh h.called
    · rw [hcalled, List.mem_append, List.mem_singleton] at hy
      rcases hy with hy | rfl
      · exact h.ahead y hy (hcons ▸ List.mem_cons_of_mem _ hin)
      · exact (List.nodup_cons.mp hnd).1 hin
  | unregister y =>
    obtain ⟨-, -, rfl⟩ := heff
    refine ⟨?_, h.called, fun x hx hin => ?_⟩
    · exact (unregister_perm _ y).nodup_iff.mpr (h.observers_.erase y)
    · rw [hahead] at hin
      exact h.ahead x hx (drop_unregister_subset _ _ _ hin)
  | ret =>
    obtain ⟨-, rfl⟩ := heff
    exact ⟨h.observers_, h.called, fun x hx => hahead ▸ h.ahead x hx⟩

theorem reachable_ordered {s : Loop A} (h : (notifyObservers A).Reachable s) : Ordered s :=
  h.invariant (I := Ordered)
    (fun s hi => by
      obtain ⟨hnd, -, hcalled, -⟩ := hi
      exact ⟨hnd, by simp [hcalled], by simp [hcalled]⟩)
    (fun _ _ _ _ hi hs => step_ordered hi hs)

def unregisters : Event A → Bool
  | .unregister _ => true
  | _ => false

/-- As long as no `update` unregisters, the observers are called in the order of the list. -/
theorem called_in_order {es : List (Event A)} {s : Loop A} (h : (notifyObservers A).Run es s)
    (hquiet : ∀ e ∈ es, unregisters e = false) : s.called = s.observers_.take s.passed := by
  induction h with
  | start hi =>
    obtain ⟨-, hzero, hcalled, hrun⟩ := hi
    unfold Loop.passed
    simp [hzero, hcalled, hrun]
  | @next es s e s' hr hs ih =>
    have hs : s.step e = some s' := hs
    rw [List.forall_mem_append] at hquiet
    have ih := ih hquiet.1
    have heff := step_effect hs
    cases e with
    | update =>
      obtain ⟨hrun, x, hx, rfl⟩ := heff
      unfold Loop.passed at ih ⊢
      simp only [hrun, Bool.false_eq_true, if_false] at ih
      simp [ih, List.take_add_one, hx]
    | unregister x =>
      have := hquiet.2 _ (List.mem_singleton_self _)
      cases this
    | ret =>
      obtain ⟨hrun, rfl⟩ := heff
      unfold Loop.passed at ih ⊢
      simpa [hrun] using ih

/-- No observer is called twice; a registered one is called or ahead, and called at the end. -/
def NoneSkipped (s : Loop A) : Prop :=
  s.called.Nodup ∧ (∀ x ∈ s.observers_, x ∈ s.called ∨ x ∈ s.ahead) ∧
    (s.done → ∀ x ∈ s.observers_, s.called.count x = 1)

/-- An observer that has been called, also the one in its `update`, is not unregistered while a
registered one has not. -/
def CalledStay (s : Loop A) : Event A → Prop
  | .unregister y => s.updating = true → y ∈ s.observers_ → y ∈ s.called →
      ∀ x ∈ s.observers_, x ∈ s.called
  | _ => True

theorem noneSkipped_of {s : Loop A} (h : Ordered s)
    (hcover : ∀ x ∈ s.observers_, x ∈ s.called ∨ x ∈ s.ahead) : NoneSkipped s := by
  refine ⟨h.called, hcover, fun hdone x hx => ?_⟩
  obtain ⟨hrun, hi⟩ := hdone
  have hnone : s.ahead = [] := by
    unfold Loop.ahead Loop.passed
    simpa [hrun] using hi
  have hcalled : x ∈ s.called := by
    have := hcover x hx
    simpa [hnone] using this
  exact List.count_eq_one_of_mem h.called hcalled

theorem step_noneSkipped {s s' : Loop A} {e : Event A} (hord : Ordered s) (h : NoneSkipped s)
    (hs : s.step e = some s') : NoneSkipped s' ↔ CalledStay s e := by
  have hord' := step_ordered hord hs
  have heff := step_effect hs
  have hahead := step_ahead hs
  obtain ⟨-, hcover, -⟩ := h
  cases e with
  | update =>
    obtain ⟨x, hcons, hcalled, hsame⟩ := hahead
    refine iff_of_true (noneSkipped_of hord' fun y hy => ?_) trivial
    have hy := hcover y (hsame ▸ hy)
    rw [hcons, List.mem_cons] at hy
    rw [hcalled, List.mem_append, List.mem_singleton]
    tauto
  | ret =>
    obtain ⟨-, rfl⟩ := heff
    refine iff_of_true (noneSkipped_of hord' fun x hx => ?_) trivial
    rw [hahead]
    exact hcover x hx
  | unregister y =>
    obtain ⟨hrun, hy, rfl⟩ := heff
    have hperm : ∀ x, x ∈ unregister_ s.observers_ y → x ∈ s.observers_ := fun x hx =>
      List.mem_of_mem_erase ((unregister_perm _ y).mem_iff.mp hx)
    constructor
    · -- the last registered observer, not called yet, would land behind the cursor
      rintro ⟨-, hcover', -⟩ - - hcalled x hx
      have hpassed := hord.ahead y hcalled
      by_contra hwait
      have hx' : x ∈ s.ahead := (hcover x hx).resolve_left hwait
      obtain ⟨b, hlast⟩ : ∃ b, s.ahead.getLast? = some b :=
        Option.isSome_iff_exists.mp (by simpa using List.ne_nil_of_mem hx')
      have hb : b ∈ s.ahead := List.mem_of_getLast? hlast
      have hfresh : b ∉ s.called := fun hmem => hord.ahead b hmem hb
      have hback : s.observers_.getLast? = some b := by
        unfold Loop.ahead at hlast
        rw [List.getLast?_drop] at hlast
        split at hlast
        · cases hlast
        · exact hlast
      have hne : b ≠ y := by
        rintro rfl
        exact hfresh hcalled
      have hstill : b ∈ unregister_ s.observers_ y := by
        rw [(unregister_perm _ y).mem_iff, List.mem_erase_of_ne hne]
        exact List.mem_of_mem_drop hb
      rcases hcover' b hstill with hmem | hmem
      · exact hfresh hmem
      · rw [hahead] at hmem
        exact back_notMem_drop_unregister hord.observers_ hy hpassed hback hmem
    · intro hstay
      refine noneSkipped_of hord' fun x hx => ?_
      by_cases hcalled : y ∈ s.called
      · exact Or.inl (hstay hrun hy hcalled x (hperm x hx))
      · have hy' : y ∈ s.ahead := (hcover y hy).resolve_left hcalled
        refine (hcover x (hperm x hx)).imp_right fun hx' => ?_
        rw [hahead]
        apply mem_drop_unregister hord.observers_ hy' hx'
        rintro rfl
        exact (hord.observers_.mem_erase_iff.mp ((unregister_perm _ x).mem_iff.mp hx)).1 rfl

/-- **Every observer is notified once.**  A call of `notifyObservers` calls no observer twice and
skips none exactly if no observer that has been called is unregistered while one is waiting. -/
theorem noneSkipped_iff (es : List (Event A)) :
    (notifyObservers A).Always es NoneSkipped ↔ (notifyObservers A).Along es CalledStay := by
  refine System.always_iff_along (fun s hi => ?_) (fun s e s' hreach hi hs => ?_)
    (fun s e hstuck => ?_) es
  · have hord : Ordered s := reachable_ordered (.init hi)
    obtain ⟨-, hzero, -, hrun⟩ := hi
    refine noneSkipped_of hord fun x hx => Or.inr ?_
    unfold Loop.ahead Loop.passed
    simpa [hrun, hzero] using hx
  · exact step_noneSkipped (reachable_ordered hreach) hi hs
  · cases e with
    | unregister y =>
      intro hrun hy
      refine absurd ?_ (hstuck { s with observers_ := unregister_ s.observers_ y })
      show s.step (.unregister y) = _
      unfold Loop.step
      exact if_pos ⟨hrun, hy⟩
    | _ => trivial

/-- Three observers; the first unregisters itself, and the third is never called. -/
theorem notify_skips_third : ∃ s : Loop Nat,
    (notifyObservers Nat).Run [.update, .unregister 1, .ret, .update, .ret] s ∧ s.done ∧
    s.observers_ = [3, 2] ∧ s.called = [1, 2] ∧
    ¬ (notifyObservers Nat).Always [.update, .unregister 1, .ret, .update, .ret] NoneSkipped := by
  have hstep : ∀ (s : Loop Nat) e s', s.step e = some s' → (notifyObservers Nat).step s e s' :=
    fun _ _ _ h => h
  have r : (notifyObservers Nat).Run [] ⟨[1, 2, 3], 0, [], false⟩ :=
    .start ⟨by decide, rfl, rfl, rfl⟩
  have r := r.next (hstep _ .update _ rfl)
  have r := r.next (hstep _ (.unregister 1) _ rfl)
  have r := r.next (hstep _ .ret _ rfl)
  have r := r.next (hstep _ .update _ rfl)
  have r := r.next (hstep _ .ret _ rfl)
  have hdone : Loop.done ⟨[3, 2], 2, [1, 2], false⟩ := ⟨rfl, Nat.le_refl 2⟩
  refine ⟨_, r, hdone, rfl, rfl, fun halways => ?_⟩
  have hone := (halways _ [] _ rfl r).2.2 hdone 3 (List.mem_cons_self ..)
  cases hone

end

end StudyDoc.Notify
