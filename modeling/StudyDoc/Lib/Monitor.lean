import StudyDoc.Lib.Counting
import StudyDoc.Lib.Transition
import Mathlib.Algebra.BigOperators.Group.Finset.Basic
import Mathlib.Logic.Function.Basic
import Mathlib.Tactic.Common

/-!
# Threads, mutexes and condition variables

A program `P` gives each point `l` of a thread's code one `Instr`.  Threads of any type `T` run
it together over shared data: `Step` interleaves their instructions, a `wait` gives the mutex
back and sleeps in one step, a sleeper may wake for no reason, and a woken thread takes the
mutex again before it goes on.  For every program:

    Disciplined P held → Reachable s → (holds t m ↔ owner m = some t)      (reachable_lockInv)
    Outlined P held m A → Reachable s → status t = running l → A l data    (reachable_outline)

`held` says which mutexes a thread holds at each point, `A` what it knows of the data there.
Both sides are checked once per instruction of `P`.
-/

namespace Monitor

open Transition

variable {M C S K L T : Type}

/-- What a thread does at a point.  `call` is a thread between two calls: it may start any. -/
inductive Instr (M C S K L : Type) where
  | call (enter : K → L)
  | lock (m : M) (next : L)
  | unlock (m : M) (next : L)
  | wait (c : C) (m : M) (next : L)
  | signal (c : C) (next : L)
  | broadcast (c : C) (next : L)
  /-- A step on the data; `none` is undefined behaviour. -/
  | act (f : S → Option (S × L))

inductive Status (M C L : Type) where
  | running (l : L)
  /-- Blocked in `wait`, not signalled. -/
  | asleep (c : C) (m : M) (next : L)
  /-- Signalled or woken spuriously; it needs `m` to go on. -/
  | woken (m : M) (next : L)

structure Config (M C S L T : Type) where
  owner : M → Option T
  data : S
  status : T → Status M C L

/-- `exec t l`: thread `t` did the instruction at `l`. -/
inductive Label (K L T : Type) where
  | call (t : T) (k : K)
  | exec (t : T) (l : L)
  | spurious (t : T)
  | relock (t : T)

def Status.wake [DecidableEq C] (c : C) : Status M C L → Status M C L
  | asleep c' m next => if c' = c then woken m next else asleep c' m next
  | st => st

namespace Config

def set [DecidableEq T] (s : Config M C S L T) (t : T) (st : Status M C L) : Config M C S L T :=
  { s with status := Function.update s.status t st }

def own [DecidableEq M] (s : Config M C S L T) (m : M) (o : Option T) : Config M C S L T :=
  { s with owner := Function.update s.owner m o }

variable (s : Config M C S L T) (t : T) (st : Status M C L) (m : M) (o : Option T)

@[simp] theorem set_data [DecidableEq T] : (s.set t st).data = s.data := rfl
@[simp] theorem set_owner [DecidableEq T] : (s.set t st).owner = s.owner := rfl
@[simp] theorem set_status [DecidableEq T] :
    (s.set t st).status = Function.update s.status t st := rfl
@[simp] theorem own_data [DecidableEq M] : (s.own m o).data = s.data := rfl
@[simp] theorem own_status [DecidableEq M] : (s.own m o).status = s.status := rfl
@[simp] theorem own_owner [DecidableEq M] : (s.own m o).owner = Function.update s.owner m o := rfl

end Config

theorem Status.wake_eq_running [DecidableEq C] (st : Status M C L) (c : C) (l : L) :
    st.wake c = .running l ↔ st = .running l := by
  cases st with
  | asleep c' m next =>
    rw [Status.wake]
    split <;> simp
  | running l' => rfl
  | woken m next => rfl

theorem Status.ne_of_wake_asleep [DecidableEq C] {st : Status M C L} {c c' : C} {m : M} {k : L}
    (h : st.wake c = .asleep c' m k) : c' ≠ c := by
  cases st with
  | running l => cases h
  | woken m' k' => cases h
  | asleep c'' m' k' =>
    rw [Status.wake] at h
    split at h
    · cases h
    · next hne =>
      cases h
      exact hne

section Semantics

variable [DecidableEq M] [DecidableEq C] [DecidableEq T]

inductive Step (P : L → Instr M C S K L) :
    Config M C S L T → Label K L T → Config M C S L T → Prop
  | call {s t l enter} (k : K) : s.status t = .running l → P l = .call enter →
      Step P s (.call t k) (s.set t (.running (enter k)))
  | lock {s t l m next} : s.status t = .running l → P l = .lock m next → s.owner m = none →
      Step P s (.exec t l) ((s.set t (.running next)).own m (some t))
  | unlock {s t l m next} : s.status t = .running l → P l = .unlock m next →
      s.owner m = some t → Step P s (.exec t l) ((s.set t (.running next)).own m none)
  | wait {s t l c m next} : s.status t = .running l → P l = .wait c m next →
      s.owner m = some t → Step P s (.exec t l) ((s.set t (.asleep c m next)).own m none)
  /-- `signal` wakes one sleeper, whichever. -/
  | signal {s t l c next u m k} : s.status t = .running l → P l = .signal c next →
      s.status u = .asleep c m k →
      Step P s (.exec t l) ((s.set t (.running next)).set u (.woken m k))
  /-- A signal to nobody is lost. -/
  | signalNone {s t l c next} : s.status t = .running l → P l = .signal c next →
      (∀ u m k, s.status u ≠ .asleep c m k) → Step P s (.exec t l) (s.set t (.running next))
  | broadcast {s t l c next} : s.status t = .running l → P l = .broadcast c next →
      Step P s (.exec t l)
        { s with status := Function.update (fun u => (s.status u).wake c) t (.running next) }
  | act {s t l f d next} : s.status t = .running l → P l = .act f → f s.data = some (d, next) →
      Step P s (.exec t l) (Config.set { s with data := d } t (.running next))
  | spurious {s t c m k} : s.status t = .asleep c m k →
      Step P s (.spurious t) (s.set t (.woken m k))
  | relock {s t m k} : s.status t = .woken m k → s.owner m = none →
      Step P s (.relock t) ((s.set t (.running k)).own m (some t))

/-- All threads at the point `rest`, all mutexes free. -/
structure Start (rest : L) (data : S) (s : Config M C S L T) : Prop where
  owner : ∀ m, s.owner m = none
  data : s.data = data
  status : ∀ t, s.status t = .running rest

def system (T : Type) [DecidableEq T] (P : L → Instr M C S K L) (rest : L) (data : S) :
    System (Config M C S L T) (Label K L T) where
  init := Start rest data
  step := Step P

end Semantics

/-! ## Parked threads -/

/-- A thread that is not running left from a `wait`. -/
def ParkedAt (P : L → Instr M C S K L) : Status M C L → Prop
  | .running _ => True
  | .asleep c m next => ∃ l, P l = .wait c m next
  | .woken m next => ∃ c l, P l = .wait c m next

theorem ParkedAt.wake [DecidableEq C] {P : L → Instr M C S K L} {st : Status M C L}
    (h : ParkedAt P st) (c : C) : ParkedAt P (st.wake c) := by
  cases st with
  | running l => exact h
  | woken m next => exact h
  | asleep c' m next =>
    by_cases hc : c' = c
    · rw [Status.wake, if_pos hc]
      exact ⟨c', h⟩
    · rw [Status.wake, if_neg hc]
      exact h

theorem forall_update [DecidableEq T] {α : Type} {Q : α → Prop} {f : T → α} {u : T} {a : α}
    (hf : ∀ t, Q (f t)) (ha : Q a) (t : T) : Q (Function.update f u a t) := by
  by_cases ht : t = u
  · subst ht; simpa using ha
  · simpa [ht] using hf t

/-! ## Sleepers -/

/-- Some thread is in `wait` and not signalled. -/
def Asleep (s : Config M C S L T) : Prop := ∃ t c m k, s.status t = .asleep c m k

theorem Asleep.of_set [DecidableEq T] {s : Config M C S L T} {t : T} {st : Status M C L}
    (hst : ∀ c m k, st ≠ .asleep c m k) (h : Asleep (s.set t st)) : Asleep s := by
  obtain ⟨u, c, m, k, hu⟩ := h
  by_cases hut : u = t
  · subst hut
    exact absurd (by simpa using hu) (hst c m k)
  · exact ⟨u, c, m, k, by simpa [hut] using hu⟩

/-! ## Locks -/

/-- `held l m`: a thread at `l` holds the mutex `m`.  What each instruction must do to it. -/
def DisciplinedAt (held : L → M → Prop) (l : L) : Instr M C S K L → Prop
  | .call enter => ∀ k m, held (enter k) m ↔ held l m
  | .lock m next => ¬ held l m ∧ ∀ m', held next m' ↔ held l m' ∨ m' = m
  | .unlock m next => held l m ∧ ∀ m', held next m' ↔ held l m' ∧ m' ≠ m
  | .wait _ m next => held l m ∧ ∀ m', held next m' ↔ held l m'
  | .signal _ next => ∀ m, held next m ↔ held l m
  | .broadcast _ next => ∀ m, held next m ↔ held l m
  | .act f => ∀ d d' next, f d = some (d', next) → ∀ m, held next m ↔ held l m

def Disciplined (P : L → Instr M C S K L) (held : L → M → Prop) : Prop :=
  ∀ l, DisciplinedAt held l (P l)

/-- The mutexes a thread holds; one that left from `wait` has given its mutex back. -/
def Status.Holds (held : L → M → Prop) : Status M C L → M → Prop
  | running l, m => held l m
  | asleep _ m' next, m => held next m ∧ m ≠ m'
  | woken m' next, m => held next m ∧ m ≠ m'

def LockInv (held : L → M → Prop) (s : Config M C S L T) : Prop :=
  ∀ t m, (s.status t).Holds held m ↔ s.owner m = some t

variable {held : L → M → Prop}

theorem LockInv.set [DecidableEq T] {s : Config M C S L T} (h : LockInv held s) {t : T}
    {st : Status M C L} (hst : ∀ m, st.Holds held m ↔ (s.status t).Holds held m) :
    LockInv held (s.set t st) := by
  intro u m
  by_cases hu : u = t
  · subst hu
    simpa [hst m] using h u m
  · simpa [hu] using h u m

theorem LockInv.acquire [DecidableEq M] [DecidableEq T] {s : Config M C S L T}
    (h : LockInv held s) {t : T} {m : M} {st : Status M C L} (hfree : s.owner m = none)
    (hst : ∀ m', st.Holds held m' ↔ (s.status t).Holds held m' ∨ m' = m) :
    LockInv held ((s.set t st).own m (some t)) := by
  intro u m'
  have hu' := h u m'
  by_cases hu : u = t <;> by_cases hm : m' = m
  · subst hu hm
    simp [hst m']
  · subst hu
    simpa [hst m', hm] using hu'
  · subst hm
    rw [hfree] at hu'
    simpa [hu, Ne.symm hu] using hu'
  · simpa [hu, hm] using hu'

theorem LockInv.release [DecidableEq M] [DecidableEq T] {s : Config M C S L T}
    (h : LockInv held s) {t : T} {m : M} {st : Status M C L} (howner : s.owner m = some t)
    (hst : ∀ m', st.Holds held m' ↔ (s.status t).Holds held m' ∧ m' ≠ m) :
    LockInv held ((s.set t st).own m none) := by
  intro u m'
  have hu' := h u m'
  by_cases hu : u = t <;> by_cases hm : m' = m
  · subst hu hm
    simp [hst m']
  · subst hu
    simpa [hst m', hm] using hu'
  · subst hm
    rw [howner] at hu'
    simpa [hu, Ne.symm hu] using hu'
  · simpa [hu, hm] using hu'

theorem Status.wake_holds [DecidableEq C] (st : Status M C L) (c : C) (m : M) :
    (st.wake c).Holds held m ↔ st.Holds held m := by
  cases st with
  | running l => rfl
  | woken m' next => rfl
  | asleep c' m' next =>
    by_cases hc : c' = c
    · rw [Status.wake, if_pos hc]
      rfl
    · rw [Status.wake, if_neg hc]

/-! ## Proof outlines -/

/-- `A l` is what a thread at `l` knows of the data that `m` protects.  What each instruction
must do to it. -/
def OutlinedAt (held : L → M → Prop) (m : M) (A : L → S → Prop) (l : L) : Instr M C S K L → Prop
  | .call enter => ∀ k d, A (enter k) d
  | .lock m' next => ∀ d, m' = m ∨ A l d → A next d
  | .unlock _ next => ∀ d, A l d → A next d
  | .wait _ _ next => ∀ d, A next d
  | .signal _ next => ∀ d, A l d → A next d
  | .broadcast _ next => ∀ d, A l d → A next d
  | .act f => ∀ d d' next, f d = some (d', next) → A l d → A next d' ∧ (d' = d ∨ held l m)

/-- A proof outline: only a thread that holds `m` knows anything, or changes the data. -/
structure Outlined (P : L → Instr M C S K L) (rest : L) (held : L → M → Prop) (m : M)
    (A : L → S → Prop) : Prop where
  rest : ∀ d, A rest d
  known : ∀ l, held l m ∨ ∀ d, A l d
  instr : ∀ l, OutlinedAt held m A l (P l)

def OutlineInv (A : L → S → Prop) (s : Config M C S L T) : Prop :=
  ∀ t l, s.status t = .running l → A l s.data

theorem OutlineInv.set [DecidableEq T] {A : L → S → Prop} {s : Config M C S L T}
    (h : OutlineInv A s) {t : T} {st : Status M C L} (hst : ∀ l, st = .running l → A l s.data) :
    OutlineInv A (s.set t st) := by
  intro u l hu
  by_cases hut : u = t
  · subst hut
    exact hst l (by simpa using hu)
  · exact h u l (by simpa [hut] using hu)

theorem OutlineInv.goto [DecidableEq T] {A : L → S → Prop} {s : Config M C S L T}
    (h : OutlineInv A s) {t : T} {next : L} (hA : A next s.data) :
    OutlineInv A (s.set t (.running next)) :=
  h.set fun _ hl => by
    cases hl
    exact hA

/-! ## What every run keeps -/

section Runs

variable [DecidableEq M] [DecidableEq C] [DecidableEq T] {P : L → Instr M C S K L} {rest : L}
  {data : S}

/-! ### What one step does -/

/-- The data and the status of the thread after its instruction; `none` at undefined behaviour
and between calls. -/
def Instr.after (d : S) : Instr M C S K L → Option (S × Status M C L)
  | .call _ => none
  | .lock _ next => some (d, .running next)
  | .unlock _ next => some (d, .running next)
  | .wait c m next => some (d, .asleep c m next)
  | .signal _ next => some (d, .running next)
  | .broadcast _ next => some (d, .running next)
  | .act f => (f d).map fun r => (r.1, .running r.2)

def Effect (P : L → Instr M C S K L) (s s' : Config M C S L T) : Label K L T → Prop
  | .call t k => ∃ l enter, s.status t = .running l ∧ P l = .call enter ∧ s'.data = s.data ∧
      s'.status t = .running (enter k)
  | .exec t l => s.status t = .running l ∧ (P l).after s.data = some (s'.data, s'.status t)
  | .spurious t => ∃ c m k, s.status t = .asleep c m k ∧ s'.data = s.data ∧ s'.status t = .woken m k
  | .relock t => ∃ m k, s.status t = .woken m k ∧ s'.data = s.data ∧ s'.status t = .running k

theorem step_effect {s s' : Config M C S L T} {e : Label K L T} (h : Step P s e s') :
    Effect P s s' e := by
  cases h with
  | call k ht hl => exact ⟨_, _, ht, hl, rfl, by simp⟩
  | lock ht hl _ => exact ⟨ht, by rw [hl]; simp [Instr.after]⟩
  | unlock ht hl _ => exact ⟨ht, by rw [hl]; simp [Instr.after]⟩
  | wait ht hl _ => exact ⟨ht, by rw [hl]; simp [Instr.after]⟩
  | @signal t l c next u m k ht hl hu =>
    have hut : t ≠ u := fun e => by rw [← e, ht] at hu; cases hu
    exact ⟨ht, by rw [hl]; simp [Instr.after, hut]⟩
  | signalNone ht hl _ => exact ⟨ht, by rw [hl]; simp [Instr.after]⟩
  | broadcast ht hl => exact ⟨ht, by rw [hl]; simp [Instr.after]⟩
  | act ht hl hf => exact ⟨ht, by rw [hl]; simp [Instr.after, hf]⟩
  | spurious ht => exact ⟨_, _, _, ht, rfl, by simp⟩
  | relock ht _ => exact ⟨_, _, ht, rfl, by simp⟩

/-- Only the instructions of `exec` touch the data. -/
theorem step_data {s s' : Config M C S L T} {e : Label K L T} (h : Step P s e s') :
    match e with
    | .exec _ l => ∃ st, (P l).after s.data = some (s'.data, st)
    | _ => s'.data = s.data := by
  have he := step_effect h
  cases e with
  | exec t l => exact ⟨_, he.2⟩
  | call t k =>
    obtain ⟨_, _, -, -, hdata, -⟩ := he
    exact hdata
  | spurious t =>
    obtain ⟨_, _, _, -, hdata, -⟩ := he
    exact hdata
  | relock t =>
    obtain ⟨_, _, -, hdata, -⟩ := he
    exact hdata

def Label.thread : Label K L T → T
  | call t _ | exec t _ | spurious t | relock t => t

/-- All a step can do to another thread is wake it. -/
theorem step_other {s s' : Config M C S L T} {e : Label K L T} (h : Step P s e s') {u : T}
    (hu : u ≠ e.thread) : s'.status u = s.status u ∨
      ∃ c m k, s.status u = .asleep c m k ∧ s'.status u = .woken m k := by
  cases h with
  | @signal t l c next v m k ht hl hv =>
    have hut : u ≠ t := hu
    by_cases huv : u = v
    · exact Or.inr ⟨c, m, k, huv ▸ hv, by simp [huv]⟩
    · exact Or.inl (by simp [huv, hut])
  | @broadcast t l c next ht hl =>
    have hut : u ≠ t := hu
    simp only [Function.update_of_ne hut]
    cases hst : s.status u with
    | running k => exact Or.inl rfl
    | woken m k => exact Or.inl rfl
    | asleep c' m k =>
      by_cases hc : c' = c
      · exact Or.inr ⟨c', m, k, rfl, if_pos hc⟩
      · exact Or.inl (if_neg hc)
  | call _ _ _ => exact Or.inl (Function.update_of_ne hu _ _)
  | lock _ _ _ => exact Or.inl (Function.update_of_ne hu _ _)
  | unlock _ _ _ => exact Or.inl (Function.update_of_ne hu _ _)
  | wait _ _ _ => exact Or.inl (Function.update_of_ne hu _ _)
  | signalNone _ _ _ => exact Or.inl (Function.update_of_ne hu _ _)
  | act _ _ _ => exact Or.inl (Function.update_of_ne hu _ _)
  | spurious _ => exact Or.inl (Function.update_of_ne hu _ _)
  | relock _ _ => exact Or.inl (Function.update_of_ne hu _ _)

theorem step_running {s s' : Config M C S L T} {e : Label K L T} (h : Step P s e s') {u : T} {l : L}
    (hu : s'.status u = .running l) : u = e.thread ∨ s.status u = .running l := by
  by_cases hue : u = e.thread
  · exact Or.inl hue
  · right
    rcases step_other h hue with hsame | ⟨c, m, k, -, hwoken⟩
    · rw [← hsame, hu]
    · rw [hu] at hwoken
      cases hwoken

theorem step_parked {s s' : Config M C S L T} {e : Label K L T} (h : Step P s e s')
    (hp : ∀ t, ParkedAt P (s.status t)) : ∀ t, ParkedAt P (s'.status t) := by
  cases h with
  | call _ _ _ => exact forall_update hp trivial
  | lock _ _ _ => exact forall_update hp trivial
  | unlock _ _ _ => exact forall_update hp trivial
  | wait _ hl _ => exact forall_update hp ⟨_, hl⟩
  | @signal _ _ _ _ u _ _ _ _ hu =>
    have hpu := hp u
    rw [hu] at hpu
    exact forall_update (forall_update hp trivial) ⟨_, hpu⟩
  | signalNone _ _ _ => exact forall_update hp trivial
  | broadcast _ _ => exact forall_update (fun u => (hp u).wake _) trivial
  | act _ _ _ => exact forall_update hp trivial
  | @spurious t _ _ _ ht =>
    have hpt := hp t
    rw [ht] at hpt
    exact forall_update hp ⟨_, hpt⟩
  | relock _ _ => exact forall_update hp trivial

theorem reachable_parked {s : Config M C S L T} (h : (system T P rest data).Reachable s) (t : T) :
    ParkedAt P (s.status t) :=
  h.invariant (I := fun s => ∀ t, ParkedAt P (s.status t))
    (fun s hs t => by rw [hs.status t]; trivial) (fun _ _ _ _ hi hs => step_parked hs hi) t

theorem step_lockInv {s s' : Config M C S L T} {e : Label K L T} (hd : Disciplined P held)
    (hp : ∀ t, ParkedAt P (s.status t)) (h : Step P s e s') (hi : LockInv held s) :
    LockInv held s' := by
  cases h with
  | @call t l enter k ht hl =>
    have hdl := hd l
    rw [hl] at hdl
    exact hi.set fun m => by rw [ht]; exact hdl k m
  | @lock t l m next ht hl hfree =>
    have hdl := hd l
    rw [hl] at hdl
    exact hi.acquire hfree fun m' => by rw [ht]; exact hdl.2 m'
  | @unlock t l m next ht hl howner =>
    have hdl := hd l
    rw [hl] at hdl
    exact hi.release howner fun m' => by rw [ht]; exact hdl.2 m'
  | @wait t l c m next ht hl howner =>
    have hdl := hd l
    rw [hl] at hdl
    exact hi.release howner fun m' => by
      rw [ht]
      exact and_congr_left fun _ => hdl.2 m'
  | @signal t l c next u m k ht hl hu =>
    have hdl := hd l
    rw [hl] at hdl
    have hut : u ≠ t := fun e => by rw [e, ht] at hu; cases hu
    refine (hi.set fun m' => ?_).set fun m' => ?_
    · rw [ht]
      exact hdl m'
    · simp [hut, hu, Status.Holds]
  | @signalNone t l c next ht hl _ =>
    have hdl := hd l
    rw [hl] at hdl
    exact hi.set fun m => by rw [ht]; exact hdl m
  | @broadcast t l c next ht hl =>
    have hdl := hd l
    rw [hl] at hdl
    have hwake : LockInv held { s with status := fun u => (s.status u).wake c } :=
      fun u m => (Status.wake_holds _ c m).trans (hi u m)
    refine hwake.set fun m => ?_
    show held next m ↔ ((s.status t).wake c).Holds held m
    rw [ht]
    exact hdl m
  | @act t l f d next ht hl hf =>
    have hdl := hd l
    rw [hl] at hdl
    have hdata : LockInv held { s with data := d } := hi
    refine hdata.set fun m => ?_
    show held next m ↔ (s.status t).Holds held m
    rw [ht]
    exact hdl _ _ _ hf m
  | @spurious t c m k ht =>
    exact hi.set fun m' => by rw [ht]; rfl
  | @relock t m k ht hfree =>
    have hpt := hp t
    rw [ht] at hpt
    obtain ⟨c, l, hl⟩ := hpt
    have hdl := hd l
    rw [hl] at hdl
    have hk : held k m := (hdl.2 m).mpr hdl.1
    refine hi.acquire hfree fun m' => ?_
    rw [ht]
    simp only [Status.Holds]
    by_cases hm : m' = m
    · simp [hm, hk]
    · simp [hm]

/-- **Locks.**  In a disciplined program the threads at points that hold `m` are its owner. -/
theorem reachable_lockInv {s : Config M C S L T} (hd : Disciplined P held)
    (hrest : ∀ m, ¬ held rest m) (h : (system T P rest data).Reachable s) : LockInv held s :=
  h.invariant (I := LockInv held)
    (fun s hs t m => by simp [hs.status t, hs.owner m, Status.Holds, hrest m])
    (fun _ _ _ hr hi hs => step_lockInv hd (reachable_parked hr) hs hi)

variable {A : L → S → Prop} {m : M}

theorem step_outlineInv {s s' : Config M C S L T} {e : Label K L T} (ho : Outlined P rest held m A)
    (hp : ∀ t, ParkedAt P (s.status t)) (hlock : LockInv held s) (h : Step P s e s')
    (hi : OutlineInv A s) : OutlineInv A s' := by
  cases h with
  | @call t l enter k ht hl =>
    have hol := ho.instr l
    rw [hl] at hol
    exact hi.goto (hol k s.data)
  | @lock t l m' next ht hl _ =>
    have hol := ho.instr l
    rw [hl] at hol
    exact hi.goto (hol s.data (Or.inr (hi t l ht)))
  | @unlock t l m' next ht hl _ =>
    have hol := ho.instr l
    rw [hl] at hol
    exact hi.goto (hol s.data (hi t l ht))
  | wait _ _ _ => exact hi.set nofun
  | @signal t l c next u m' k ht hl _ =>
    have hol := ho.instr l
    rw [hl] at hol
    exact (hi.goto (hol s.data (hi t l ht))).set nofun
  | @signalNone t l c next ht hl _ =>
    have hol := ho.instr l
    rw [hl] at hol
    exact hi.goto (hol s.data (hi t l ht))
  | @broadcast t l c next ht hl =>
    have hol := ho.instr l
    rw [hl] at hol
    have hwake : OutlineInv A { s with status := fun u => (s.status u).wake c } := by
      intro u k hu
      exact hi u k ((Status.wake_eq_running _ c k).mp hu)
    exact hwake.goto (hol s.data (hi t l ht))
  | @act t l f d next ht hl hf =>
    have hol := ho.instr l
    rw [hl] at hol
    obtain ⟨hA, hsame⟩ := hol _ _ _ hf (hi t l ht)
    have hdata : ∀ u k, u ≠ t → s.status u = .running k → A k d := by
      intro u k hut hu
      rcases hsame with rfl | hheld
      · exact hi u k hu
      · rcases ho.known k with hk | hk
        · -- two threads cannot both hold `m`
          have h1 := (hlock t m).mp (by rw [ht]; exact hheld)
          have h2 := (hlock u m).mp (by rw [hu]; exact hk)
          exact absurd (Option.some.inj (h2.symm.trans h1)) hut
        · exact hk d
    intro u k hu
    by_cases hut : u = t
    · subst hut
      have hk : next = k := by simpa using hu
      exact hk ▸ hA
    · exact hdata u k hut (by simpa [hut] using hu)
  | spurious _ => exact hi.set nofun
  | @relock t m' k ht _ =>
    have hpt := hp t
    rw [ht] at hpt
    obtain ⟨c, l, hl⟩ := hpt
    have hol := ho.instr l
    rw [hl] at hol
    exact hi.goto (hol s.data)

/-- **Outlines.**  In every reachable state a thread's assertion holds where the thread is. -/
theorem reachable_outline {s : Config M C S L T} (hd : Disciplined P held)
    (hrest : ∀ m, ¬ held rest m) (ho : Outlined P rest held m A)
    (h : (system T P rest data).Reachable s) : OutlineInv A s :=
  h.invariant (I := OutlineInv A)
    (fun s hs t l hl => by
      rw [hs.status t] at hl
      cases hl
      exact ho.rest s.data)
    (fun _ _ _ hr hi hs =>
      step_outlineInv ho (reachable_parked hr) (reachable_lockInv hd hrest hr) hs hi)

end Runs

/-! ## Counting threads -/

section Counting

variable [Fintype T]

/-- The sum of the weights `w` of all threads. -/
def Config.total (w : Status M C L → Nat) (s : Config M C S L T) : Nat := ∑ t, w (s.status t)

theorem Config.total_set [DecidableEq T] (w : Status M C L → Nat) (s : Config M C S L T) (t : T)
    (st : Status M C L) : (s.set t st).total w + w (s.status t) = s.total w + w st :=
  Counting.sum_update w s.status t st

end Counting

end Monitor
