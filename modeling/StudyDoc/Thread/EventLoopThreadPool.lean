import StudyDoc.Lib.Transition
import Mathlib.Data.List.Basic
import Mathlib.Logic.Function.Basic
import Mathlib.Logic.Relation
import Mathlib.Tactic.Common

/-!
# `muduo源码分析.md`: `EventLoopThreadPool::start`

The pool starts one thread after the other.  Each makes its `EventLoop`, hands it to the callback
and then, under its mutex, to `startLoop`, which waits for it with a condition variable.  In all
orders of the steps

    loops_  =  the loops of the threads 0, 1, …  in this order, none of them NULL       (run_loops)

`start` can hang only in one way: a thread's `loop.loop()` has returned, and `loop_` is `NULL`
again, before `startLoop` looked at it (run_stuck_iff); without this it gets to its end
(run_finishes).
-/

namespace StudyDoc.EventLoopThreadPool

open Transition

/-! ## Algorithm -/

inductive Loop where
  | base
  | of (thread : Nat)
  deriving DecidableEq

inductive Holder where
  | main
  | thread
  deriving DecidableEq

/-- Where a thread is in `threadFunc`. -/
inductive ThreadPoint where
  | notCreated
  | makeLoop
  | callback
  | lock
  | setLoop
  | notify
  | unlock
  /-- `loop.loop()` -/
  | looping
  | lockAgain
  | clearLoop
  | unlockAgain
  | ended
  deriving DecidableEq

structure EventLoopThread where
  loop_ : Option Loop
  mutex_ : Option Holder
  point : ThreadPoint

/-- Where the main thread is in `start` and in the `startLoop` it calls. -/
inductive MainPoint where
  | forLoop
  | threadStart
  | lock
  | testLoop
  | condWait
  /-- Blocked in `cond_.wait()`, not signalled. -/
  | asleep
  | woken
  | readLoop
  | unlock (loop : Option Loop)
  | pushBack (loop : Option Loop)
  | returned
  deriving DecidableEq

structure State where
  main : MainPoint
  i : Nat
  thread : Nat → EventLoopThread
  loops_ : List (Option Loop)
  /-- The loops that the callback was called with, in order. -/
  called : List Loop

def State.set (s : State) (j : Nat) (t : EventLoopThread) : State :=
  { s with thread := Function.update s.thread j t }

/-- `EventLoopThreadPool::start` for `numThreads_` threads, with or without a callback. -/
def State.mainStep (numThreads : Nat) (cb : Bool) (s : State) : Option State :=
  let t := s.thread s.i
  match s.main with
  | .forLoop =>
    if s.i < numThreads then
      some { s.set s.i ⟨none, none, .notCreated⟩ with main := .threadStart }
    else if numThreads = 0 ∧ cb then
      some { s with called := s.called ++ [.base], main := .returned }
    else some { s with main := .returned }
  | .threadStart => some { s.set s.i { t with point := .makeLoop } with main := .lock }
  | .lock =>
    if t.mutex_ = none then
      some { s.set s.i { t with mutex_ := some .main } with main := .testLoop }
    else none
  | .testLoop => some { s with main := if t.loop_ = none then .condWait else .readLoop }
  | .condWait => some { s.set s.i { t with mutex_ := none } with main := .asleep }
  | .asleep => none
  | .woken =>
    if t.mutex_ = none then
      some { s.set s.i { t with mutex_ := some .main } with main := .testLoop }
    else none
  | .readLoop => some { s with main := .unlock t.loop_ }
  | .unlock loop => some { s.set s.i { t with mutex_ := none } with main := .pushBack loop }
  | .pushBack loop => some { s with loops_ := s.loops_ ++ [loop], i := s.i + 1, main := .forLoop }
  | .returned => none

/-- `threadFunc` of the thread `j`. -/
def State.threadStep (cb : Bool) (j : Nat) (s : State) : Option State :=
  let t := s.thread j
  match t.point with
  | .notCreated => none
  | .makeLoop => some (s.set j { t with point := .callback })
  | .callback =>
    let s' := s.set j { t with point := .lock }
    some (if cb then { s' with called := s.called ++ [.of j] } else s')
  | .lock =>
    if t.mutex_ = none then some (s.set j { t with mutex_ := some .thread, point := .setLoop })
    else none
  | .setLoop => some (s.set j { t with loop_ := some (.of j), point := .notify })
  | .notify =>
    let s' := s.set j { t with point := .unlock }
    some (if s.main = .asleep ∧ s.i = j then { s' with main := .woken } else s')
  | .unlock => some (s.set j { t with mutex_ := none, point := .looping })
  | .looping => some (s.set j { t with point := .lockAgain })
  | .lockAgain =>
    if t.mutex_ = none then some (s.set j { t with mutex_ := some .thread, point := .clearLoop })
    else none
  | .clearLoop => some (s.set j { t with loop_ := none, point := .unlockAgain })
  | .unlockAgain => some (s.set j { t with mutex_ := none, point := .ended })
  | .ended => none

inductive Event where
  | main
  | thread (j : Nat)
  /-- `cond_.wait()` returns for no reason. -/
  | spurious

def State.step (numThreads : Nat) (cb : Bool) (s : State) : Event → Option State
  | .main => s.mainStep numThreads cb
  | .thread j => s.threadStep cb j
  | .spurious => if s.main = .asleep then some { s with main := .woken } else none

/-- No thread is there before `start`. -/
def started : State := ⟨.forLoop, 0, fun _ => ⟨none, none, .notCreated⟩, [], []⟩

def pool (numThreads : Nat) (cb : Bool) : System State Event where
  init s := s = started
  step s e s' := s.step numThreads cb e = some s'

/-! ## What each thread knows -/

/-- How far a thread is. -/
def ThreadPoint.rank : ThreadPoint → Nat
  | notCreated => 0
  | makeLoop => 1
  | callback => 2
  | lock => 3
  | setLoop => 4
  | notify => 5
  | unlock => 6
  | looping => 7
  | lockAgain => 8
  | clearLoop => 9
  | unlockAgain => 10
  | ended => 11

theorem ThreadPoint.rank_le (p : ThreadPoint) : p.rank ≤ 11 := by
  cases p <;> decide

/-- The scope of one of the guards of `threadFunc`. -/
def Inside (rank : Nat) : Prop := rank = 4 ∨ rank = 5 ∨ rank = 6 ∨ rank = 9 ∨ rank = 10

instance (rank : Nat) : Decidable (Inside rank) :=
  inferInstanceAs (Decidable (rank = 4 ∨ rank = 5 ∨ rank = 6 ∨ rank = 9 ∨ rank = 10))

/-- The scope of the guard of `startLoop`. -/
def MainPoint.inside : MainPoint → Bool
  | testLoop | condWait | readLoop | unlock _ => true
  | _ => false

/-- The thread that `start` is at is not there yet. -/
def MainPoint.early : MainPoint → Bool
  | forLoop | threadStart | returned => true
  | _ => false

/-- A thread by how far it is; `start` is at the thread `s.i`. -/
structure ThreadOk (cb : Bool) (s : State) (j : Nat) : Prop where
  loop_some : 5 ≤ (s.thread j).point.rank → (s.thread j).point.rank ≤ 9 →
    (s.thread j).loop_ = some (.of j)
  loop_none : (s.thread j).point.rank < 5 ∨ 9 < (s.thread j).point.rank → (s.thread j).loop_ = none
  mutex_thread : Inside (s.thread j).point.rank → (s.thread j).mutex_ = some .thread
  mutex_main : j = s.i → s.main.inside = true → (s.thread j).mutex_ = some .main
  mutex_none : ¬ Inside (s.thread j).point.rank → ¬ (j = s.i ∧ s.main.inside = true) →
    (s.thread j).mutex_ = none
  called : s.called.count (.of j) = if cb = true ∧ 3 ≤ (s.thread j).point.rank then 1 else 0
  before : j < s.i → 7 ≤ (s.thread j).point.rank
  after : s.i < j ∨ j = s.i ∧ s.main.early = true → (s.thread j).point.rank = 0
  created : j = s.i → s.main.early = false → 1 ≤ (s.thread j).point.rank
  condWait : j = s.i → s.main = .condWait →
    (s.thread j).point.rank ≤ 3 ∨ (s.thread j).point.rank = 11
  asleep : j = s.i → s.main = .asleep →
    (s.thread j).point.rank ≤ 5 ∨ (s.thread j).point.rank = 11
  readLoop : j = s.i → s.main = .readLoop →
    (s.thread j).point.rank = 7 ∨ (s.thread j).point.rank = 8
  taken : ∀ loop, j = s.i → s.main = .unlock loop ∨ s.main = .pushBack loop →
    7 ≤ (s.thread j).point.rank ∧ loop = some (.of j)

structure Inv (numThreads : Nat) (cb : Bool) (s : State) : Prop where
  thread : ∀ j, ThreadOk cb s j
  loops_ : s.loops_ = (List.range s.i).map fun j => some (.of j)
  le : s.i ≤ numThreads
  lt : s.main ≠ .forLoop → s.main ≠ .returned → s.i < numThreads
  returned : s.main = .returned → s.i = numThreads

variable {numThreads : Nat} {cb : Bool} {s s' : State} {j : Nat}

/-- What a step of a thread does. -/
structure ThreadStep (cb : Bool) (j : Nat) (s s' : State) (t : EventLoopThread) : Prop where
  thread : s'.thread = Function.update s.thread j t
  i : s'.i = s.i
  loops_ : s'.loops_ = s.loops_
  pos : 1 ≤ (s.thread j).point.rank
  le : (s.thread j).point.rank ≤ 10
  rank : t.point.rank = (s.thread j).point.rank + 1
  loop_ : t.loop_ = if (s.thread j).point.rank = 4 then some (.of j)
    else if (s.thread j).point.rank = 9 then none else (s.thread j).loop_
  free : (s.thread j).point.rank = 3 ∨ (s.thread j).point.rank = 8 → (s.thread j).mutex_ = none
  mutex_ : t.mutex_ = if (s.thread j).point.rank = 3 ∨ (s.thread j).point.rank = 8 then some .thread
    else if (s.thread j).point.rank = 6 ∨ (s.thread j).point.rank = 10 then none
    else (s.thread j).mutex_
  called : s'.called = if cb = true ∧ (s.thread j).point.rank = 2 then s.called ++ [.of j]
    else s.called
  main : s'.main = if (s.thread j).point.rank = 5 ∧ s.main = .asleep ∧ s.i = j then .woken
    else s.main

theorem threadStep_cases (h : s.threadStep cb j = some s') : ∃ t, ThreadStep cb j s s' t := by
  unfold State.threadStep at h
  cases hp : (s.thread j).point <;> simp only [hp] at h
  case notCreated => cases h
  case ended => cases h
  case lock | lockAgain =>
    obtain ⟨hfree, rfl⟩ := guard_iff.mp h
    refine ⟨_, ⟨rfl, rfl, rfl, ?_, ?_, ?_, ?_, fun _ => hfree, ?_, ?_, ?_⟩⟩ <;>
      simp [hp, ThreadPoint.rank, State.set]
  case callback =>
    cases h
    refine ⟨{ s.thread j with point := .lock }, ⟨?_, ?_, ?_, ?_, ?_, ?_, ?_, ?_, ?_, ?_, ?_⟩⟩ <;>
      cases cb <;> simp [hp, ThreadPoint.rank, State.set]
  case notify =>
    cases h
    refine ⟨{ s.thread j with point := .unlock }, ⟨?_, ?_, ?_, ?_, ?_, ?_, ?_, ?_, ?_, ?_, ?_⟩⟩ <;>
      by_cases hm : s.main = .asleep ∧ s.i = j <;> simp [hp, ThreadPoint.rank, State.set, hm]
  all_goals
    cases h
    refine ⟨_, ⟨rfl, rfl, rfl, ?_, ?_, ?_, ?_, ?_, ?_, ?_, ?_⟩⟩ <;>
      simp [hp, ThreadPoint.rank, State.set]

/-- A step of the thread itself: the claims about it go on with its rank. -/
theorem ThreadOk.thread_self {t : EventLoopThread} (h : ThreadOk cb s j)
    (hs : ThreadStep cb j s s' t) : ThreadOk cb s' j := by
  obtain ⟨h1, h2, h3, h4, h5, h6, h7, h8, h9, h10, h11, h12, h13⟩ := h
  obtain ⟨g1, g2, g3, g4, g11, g5, g6, g7, g8, g9, g10⟩ := hs
  have ht : s'.thread j = t := by rw [g1, Function.update_self]
  generalize (s.thread j).point.rank = r at *
  constructor <;> rw [ht]
  case mutex_thread =>
    intro h
    unfold Inside at h
    rw [g5] at h
    rw [g8]
    by_cases h38 : r = 3 ∨ r = 8
    · exact if_pos h38
    · rw [if_neg h38, if_neg (by omega)]
      exact h3 (by unfold Inside; omega)
  case condWait =>
    intro hj hm
    have hm : s.main = .condWait := by grind
    have hmutex := h4 (by omega) (by rw [hm]; rfl)
    have hr := h10 (by omega) hm
    have : r ≠ 3 := by
      rintro rfl
      rw [g7 (Or.inl rfl)] at hmutex
      cases hmutex
    omega
  case asleep =>
    intro hj hm
    have hm' : s.main = .asleep ∧ r ≠ 5 := by grind
    have := h11 (by omega) hm'.1
    omega
  case loop_some => grind
  case loop_none => grind
  case mutex_main => grind [Inside, MainPoint.inside]
  case mutex_none => grind [Inside, MainPoint.inside]
  case called => grind [List.count_singleton]
  case before => grind
  case after => grind [MainPoint.early]
  case created => grind [MainPoint.early]
  case readLoop => grind [MainPoint.inside, Inside]
  case taken => grind [MainPoint.inside, Inside]

/-- A step of another thread. -/
theorem ThreadOk.thread_other {t : EventLoopThread} {k : Nat} (h : ThreadOk cb s j)
    (hs : ThreadStep cb k s s' t) (hk : j ≠ k) : ThreadOk cb s' j := by
  obtain ⟨h1, h2, h3, h4, h5, h6, h7, h8, h9, h10, h11, h12, h13⟩ := h
  have ht : s'.thread j = s.thread j := by rw [hs.thread, Function.update_of_ne hk]
  have hcalled : s'.called.count (.of j) = s.called.count (.of j) := by
    rw [hs.called]
    split
    · rw [List.count_append, List.count_singleton, if_neg (by simpa using Ne.symm hk),
        Nat.add_zero]
    · rfl
  have hmain : j = s'.i → s'.main = s.main := by
    intro hj
    rw [hs.main, if_neg]
    rintro ⟨-, -, hik⟩
    exact hk (hj.trans (hs.i.trans hik))
  have hi := hs.i
  constructor <;> rw [ht]
  case called => rw [hcalled]; exact h6
  case mutex_none => grind
  all_goals grind

/-! ## The steps of the main thread -/

/-- A thread that `start` is not at. -/
theorem ThreadOk.main_other (h : ThreadOk cb s j) (ht : s'.thread j = s.thread j)
    (hi : s'.i = s.i) (hj : j ≠ s.i)
    (hcalled : s'.called.count (.of j) = s.called.count (.of j)) : ThreadOk cb s' j := by
  obtain ⟨h1, h2, h3, h4, h5, h6, h7, h8, h9, h10, h11, h12, h13⟩ := h
  constructor <;> rw [ht]
  case called => rw [hcalled]; exact h6
  all_goals grind

/-- A step of `start` that changes the thread it is at. -/
theorem threadOk_set (h : ∀ j, ThreadOk cb s j) {t : EventLoopThread} {main : MainPoint}
    (hi : ThreadOk cb { s.set s.i t with main := main } s.i) (j : Nat) :
    ThreadOk cb { s.set s.i t with main := main } j := by
  by_cases hj : j = s.i
  · subst hj
    exact hi
  · exact (h j).main_other (Function.update_of_ne hj _ _) rfl hj rfl

/-- A step of `start` that changes no thread. -/
theorem threadOk_goto (h : ∀ j, ThreadOk cb s j) {main : MainPoint}
    (hi : ThreadOk cb { s with main := main } s.i) (j : Nat) :
    ThreadOk cb { s with main := main } j := by
  by_cases hj : j = s.i
  · subst hj
    exact hi
  · exact (h j).main_other rfl rfl hj rfl

theorem ThreadOk.create (h : ThreadOk cb s s.i) (hm : s.main = .forLoop) :
    ThreadOk cb { s.set s.i ⟨none, none, .notCreated⟩ with main := .threadStart } s.i := by
  obtain ⟨h1, h2, h3, h4, h5, h6, h7, h8, h9, h10, h11, h12, h13⟩ := h
  constructor <;> simp only [State.set, Function.update_self]
  all_goals grind [Inside, MainPoint.inside, MainPoint.early, ThreadPoint.rank]

theorem ThreadOk.start (h : ThreadOk cb s s.i) (hm : s.main = .threadStart) :
    ThreadOk cb { s.set s.i { s.thread s.i with point := .makeLoop } with main := .lock } s.i := by
  obtain ⟨h1, h2, h3, h4, h5, h6, h7, h8, h9, h10, h11, h12, h13⟩ := h
  constructor <;> simp only [State.set, Function.update_self]
  all_goals grind [Inside, MainPoint.inside, MainPoint.early, ThreadPoint.rank]

theorem ThreadOk.acquire (h : ThreadOk cb s s.i) (hm : s.main = .lock ∨ s.main = .woken)
    (hfree : (s.thread s.i).mutex_ = none) :
    ThreadOk cb { s.set s.i { s.thread s.i with mutex_ := some .main } with main := .testLoop }
      s.i := by
  obtain ⟨h1, h2, h3, h4, h5, h6, h7, h8, h9, h10, h11, h12, h13⟩ := h
  constructor <;> simp only [State.set, Function.update_self]
  all_goals grind [MainPoint.inside, MainPoint.early]

theorem ThreadOk.wait (h : ThreadOk cb s s.i) (hm : s.main = .condWait) :
    ThreadOk cb { s.set s.i { s.thread s.i with mutex_ := none } with main := .asleep } s.i := by
  obtain ⟨h1, h2, h3, h4, h5, h6, h7, h8, h9, h10, h11, h12, h13⟩ := h
  constructor <;> simp only [State.set, Function.update_self]
  all_goals grind [Inside, MainPoint.inside, MainPoint.early]

theorem ThreadOk.release {loop : Option Loop} (h : ThreadOk cb s s.i)
    (hm : s.main = .unlock loop) :
    ThreadOk cb { s.set s.i { s.thread s.i with mutex_ := none } with main := .pushBack loop }
      s.i := by
  obtain ⟨h1, h2, h3, h4, h5, h6, h7, h8, h9, h10, h11, h12, h13⟩ := h
  constructor <;> simp only [State.set, Function.update_self]
  all_goals grind [Inside, MainPoint.inside, MainPoint.early]

theorem ThreadOk.test (h : ThreadOk cb s s.i) (hm : s.main = .testLoop) :
    ThreadOk cb { s with main := if (s.thread s.i).loop_ = none then .condWait else .readLoop }
      s.i := by
  have hle := (s.thread s.i).point.rank_le
  obtain ⟨h1, h2, h3, h4, h5, h6, h7, h8, h9, h10, h11, h12, h13⟩ := h
  constructor
  all_goals grind [Inside, MainPoint.inside, MainPoint.early]

theorem ThreadOk.read (h : ThreadOk cb s s.i) (hm : s.main = .readLoop) :
    ThreadOk cb { s with main := .unlock (s.thread s.i).loop_ } s.i := by
  obtain ⟨h1, h2, h3, h4, h5, h6, h7, h8, h9, h10, h11, h12, h13⟩ := h
  constructor
  all_goals grind [Inside, MainPoint.inside, MainPoint.early]

theorem ThreadOk.pushBack {loop : Option Loop} {loops : List (Option Loop)}
    (h : ThreadOk cb s j) (hm : s.main = .pushBack loop) :
    ThreadOk cb { s with loops_ := loops, i := s.i + 1, main := .forLoop } j := by
  obtain ⟨h1, h2, h3, h4, h5, h6, h7, h8, h9, h10, h11, h12, h13⟩ := h
  constructor
  all_goals grind [Inside, MainPoint.inside, MainPoint.early]

theorem ThreadOk.finish {called : List Loop} (h : ThreadOk cb s j) (hm : s.main = .forLoop)
    (hcalled : called.count (.of j) = s.called.count (.of j)) :
    ThreadOk cb { s with called := called, main := .returned } j := by
  obtain ⟨h1, h2, h3, h4, h5, h6, h7, h8, h9, h10, h11, h12, h13⟩ := h
  constructor
  case called => rw [hcalled]; exact h6
  all_goals grind [Inside, MainPoint.inside, MainPoint.early]

theorem threadOk_mainStep (h : ∀ j, ThreadOk cb s j) (hst : s.mainStep numThreads cb = some s')
    (j : Nat) : ThreadOk cb s' j := by
  have hi := h s.i
  unfold State.mainStep at hst
  cases hm : s.main <;> simp only [hm] at hst
  case forLoop =>
    by_cases hlt : s.i < numThreads
    · rw [if_pos hlt] at hst
      cases hst
      exact threadOk_set h (hi.create hm) j
    · rw [if_neg hlt] at hst
      by_cases hcb : numThreads = 0 ∧ cb = true
      · rw [if_pos hcb] at hst
        cases hst
        exact (h j).finish hm (by simp)
      · rw [if_neg hcb] at hst
        cases hst
        exact (h j).finish hm rfl
  case threadStart => cases hst; exact threadOk_set h (hi.start hm) j
  case lock =>
    obtain ⟨hfree, rfl⟩ := guard_iff.mp hst
    exact threadOk_set h (hi.acquire (Or.inl hm) hfree) j
  case testLoop => cases hst; exact threadOk_goto h (hi.test hm) j
  case condWait => cases hst; exact threadOk_set h (hi.wait hm) j
  case asleep => cases hst
  case woken =>
    obtain ⟨hfree, rfl⟩ := guard_iff.mp hst
    exact threadOk_set h (hi.acquire (Or.inr hm) hfree) j
  case readLoop => cases hst; exact threadOk_goto h (hi.read hm) j
  case unlock => cases hst; exact threadOk_set h (hi.release hm) j
  case pushBack => cases hst; exact (h j).pushBack hm
  case returned => cases hst

/-! ## Every step -/

theorem inv_started (numThreads : Nat) (cb : Bool) : Inv numThreads cb started := by
  refine ⟨fun j => ?_, rfl, Nat.zero_le _, fun h => absurd rfl h, nofun⟩
  constructor <;> simp [started, ThreadPoint.rank, Inside, MainPoint.inside, MainPoint.early]

theorem Inv.mainStep (h : Inv numThreads cb s) (hst : s.mainStep numThreads cb = some s') :
    Inv numThreads cb s' := by
  have hthread := threadOk_mainStep h.thread hst
  have htaken := (h.thread s.i).taken
  have hloops := h.loops_
  have hle := h.le
  have hlt := h.lt
  unfold State.mainStep at hst
  cases hm : s.main <;> simp only [hm] at hst hlt
  case asleep => cases hst
  case returned => cases hst
  case lock | woken =>
    obtain ⟨-, rfl⟩ := guard_iff.mp hst
    exact ⟨hthread, hloops, hle, fun _ _ => hlt nofun nofun, nofun⟩
  case forLoop =>
    by_cases hn : s.i < numThreads
    · rw [if_pos hn] at hst
      cases hst
      exact ⟨hthread, hloops, hle, fun _ _ => hn, nofun⟩
    · rw [if_neg hn] at hst
      by_cases hcb : numThreads = 0 ∧ cb = true
      · rw [if_pos hcb] at hst
        cases hst
        exact ⟨hthread, hloops, hle, fun _ hr => absurd rfl hr, fun _ => by show s.i = _; omega⟩
      · rw [if_neg hcb] at hst
        cases hst
        exact ⟨hthread, hloops, hle, fun _ hr => absurd rfl hr, fun _ => by show s.i = _; omega⟩
  case testLoop =>
    cases hst
    refine ⟨hthread, hloops, hle, fun _ _ => hlt nofun nofun, fun hr => ?_⟩
    have hr : (if (s.thread s.i).loop_ = none then MainPoint.condWait else .readLoop) =
      .returned := hr
    split at hr <;> cases hr
  case pushBack loop =>
    cases hst
    have hloop := (htaken loop rfl (Or.inr hm)).2
    refine ⟨hthread, ?_, hlt nofun nofun, fun hf => absurd rfl hf, nofun⟩
    show s.loops_ ++ [loop] = (List.range (s.i + 1)).map _
    rw [List.range_succ, List.map_append, hloops, hloop]
    rfl
  all_goals
    cases hst
    exact ⟨hthread, hloops, hle, fun _ _ => hlt nofun nofun, nofun⟩

theorem Inv.step {e : Event} (h : Inv numThreads cb s) (hst : s.step numThreads cb e = some s') :
    Inv numThreads cb s' := by
  cases e with
  | main => exact h.mainStep hst
  | thread k =>
    obtain ⟨t, ht⟩ := threadStep_cases hst
    refine ⟨fun j => ?_, ?_, ?_, ?_, ?_⟩
    · by_cases hjk : j = k
      · subst hjk
        exact (h.thread j).thread_self ht
      · exact (h.thread j).thread_other ht hjk
    · rw [ht.loops_, ht.i]
      exact h.loops_
    · rw [ht.i]
      exact h.le
    · rw [ht.i, ht.main]
      have hlt := h.lt
      split
      · next hw =>
        rw [hw.2.1] at hlt
        exact fun _ _ => hlt nofun nofun
      · exact hlt
    · rw [ht.i, ht.main]
      split
      · nofun
      · exact h.returned
  | spurious =>
    obtain ⟨hm, rfl⟩ := guard_iff.mp hst
    have hlt := h.lt
    rw [hm] at hlt
    refine ⟨fun j => ?_, h.loops_, h.le, fun _ _ => hlt nofun nofun, nofun⟩
    obtain ⟨h1, h2, h3, h4, h5, h6, h7, h8, h9, h10, h11, h12, h13⟩ := h.thread j
    rw [hm] at h4 h5 h8 h9
    exact ⟨h1, h2, h3, nofun, h5, h6, h7, h8, h9, nofun, nofun, nofun, nofun⟩

theorem inv_reachable (h : (pool numThreads cb).Reachable s) : Inv numThreads cb s := by
  refine h.invariant (fun _ hi => ?_) fun _ _ _ _ hi hst => hi.step hst
  rw [show _ = started from hi]
  exact inv_started numThreads cb

/-! ## Who can go on -/

theorem threadStep_eq_none : s.threadStep cb j = none ↔
    (s.thread j).point = .notCreated ∨ (s.thread j).point = .ended ∨
      ((s.thread j).point = .lock ∨ (s.thread j).point = .lockAgain) ∧
        (s.thread j).mutex_ ≠ none := by
  unfold State.threadStep
  cases hp : (s.thread j).point <;> simp [hp]

theorem mainStep_eq_none : s.mainStep numThreads cb = none ↔
    s.main = .asleep ∨ s.main = .returned ∨
      (s.main = .lock ∨ s.main = .woken) ∧ (s.thread s.i).mutex_ ≠ none := by
  unfold State.mainStep
  cases s.main <;> simp
  split
  · simp
  · split <;> simp

/-- A mutex is taken by the thread, or by `startLoop`. -/
theorem ThreadOk.of_mutex (h : ThreadOk cb s j) (hm : (s.thread j).mutex_ ≠ none) :
    Inside (s.thread j).point.rank ∨ j = s.i ∧ s.main.inside = true := by
  by_contra hno
  rw [not_or] at hno
  exact hm (h.mutex_none hno.1 hno.2)

/-- A step in which no `loop.loop()` returns and nothing wakes up for no reason. -/
def Quiet (numThreads : Nat) (cb : Bool) (s s' : State) : Prop :=
  s.mainStep numThreads cb = some s' ∨
    ∃ j, (s.thread j).point ≠ .looping ∧ s.threadStep cb j = some s'

def MainPoint.left : MainPoint → Nat
  | forLoop => 12
  | threadStart => 11
  | lock | woken => 10
  | testLoop => 9
  | condWait => 8
  | asleep => 7
  | readLoop => 6
  | unlock _ => 5
  | pushBack _ => 4
  | returned => 0

/-- What is left to do: the threads, then the steps of this one, then those of `start`. -/
def left (numThreads : Nat) (s : State) : Nat :=
  (numThreads - s.i) * 1000 + (7 - (s.thread s.i).point.rank) * 20 + s.main.left

theorem left_mainStep (h : Inv numThreads cb s) (hr : (s.thread s.i).point.rank ≤ 7)
    (hst : s.mainStep numThreads cb = some s') :
    (s'.thread s'.i).point.rank ≤ 7 ∧ left numThreads s' < left numThreads s := by
  have hnow := (h.thread s.i).after
  have hnext := (h.thread (s.i + 1)).after (Or.inl (Nat.lt_succ_self _))
  have hlt := h.lt
  unfold State.mainStep at hst
  unfold left
  cases hm : s.main <;> simp only [hm] at hst hlt
  case asleep => cases hst
  case returned => cases hst
  case lock | woken =>
    obtain ⟨-, rfl⟩ := guard_iff.mp hst
    simp only [State.set, Function.update_self, MainPoint.left]
    omega
  case forLoop =>
    have h0 := hnow (Or.inr ⟨rfl, by rw [hm]; rfl⟩)
    by_cases hn : s.i < numThreads
    · rw [if_pos hn] at hst
      cases hst
      have hrank : ThreadPoint.notCreated.rank = 0 := rfl
      simp only [State.set, Function.update_self, MainPoint.left, hrank]
      omega
    · rw [if_neg hn] at hst
      by_cases hcb : numThreads = 0 ∧ cb = true
      · rw [if_pos hcb] at hst
        cases hst
        simp only [MainPoint.left]
        omega
      · rw [if_neg hcb] at hst
        cases hst
        simp only [MainPoint.left]
        omega
  case threadStart =>
    have h0 := hnow (Or.inr ⟨rfl, by rw [hm]; rfl⟩)
    cases hst
    have hrank : ThreadPoint.makeLoop.rank = 1 := rfl
    simp only [State.set, Function.update_self, MainPoint.left, hrank]
    omega
  case testLoop =>
    cases hst
    by_cases hl : (s.thread s.i).loop_ = none
    · simp only [hl, if_true, MainPoint.left]
      omega
    · simp only [hl, if_false, MainPoint.left]
      omega
  case pushBack =>
    cases hst
    have := hlt nofun nofun
    simp only [MainPoint.left]
    omega
  all_goals
    cases hst
    simp only [State.set, Function.update_self, MainPoint.left]
    omega

/-- When `start` cannot go on, the thread that it waits for is on its way. -/
theorem waiting_of_mainStep (h : Inv numThreads cb s) (hr : (s.thread s.i).point.rank ≤ 7)
    (hm : s.main ≠ .returned) (hst : s.mainStep numThreads cb = none) :
    1 ≤ (s.thread s.i).point.rank ∧ (s.thread s.i).point.rank ≤ 6 ∧ s.main.inside = false ∧
      7 ≤ s.main.left := by
  have ht := h.thread s.i
  rcases mainStep_eq_none.mp hst with hw | hw | ⟨hw, hmutex⟩
  · have h1 := ht.created rfl (by rw [hw]; rfl)
    have h2 := ht.asleep rfl hw
    rw [hw]
    exact ⟨h1, by omega, rfl, Nat.le_refl 7⟩
  · exact absurd hw hm
  · have hout : s.main.inside = false ∧ 7 ≤ s.main.left := by
      rcases hw with hw | hw
      · rw [hw]
        decide
      · rw [hw]
        decide
    rcases ht.of_mutex hmutex with hin | ⟨-, hin⟩
    · unfold Inside at hin
      exact ⟨by omega, by omega, hout⟩
    · rw [hout.1] at hin
      cases hin

theorem exists_quiet (h : Inv numThreads cb s) (hr : (s.thread s.i).point.rank ≤ 7)
    (hm : s.main ≠ .returned) : ∃ s', Quiet numThreads cb s s' ∧
      Inv numThreads cb s' ∧ (s'.thread s'.i).point.rank ≤ 7 ∧
      left numThreads s' < left numThreads s := by
  cases hst : s.mainStep numThreads cb with
  | some s' => exact ⟨s', Or.inl hst, h.mainStep hst, left_mainStep h hr hst⟩
  | none =>
    obtain ⟨h1, h6, hout, hleft⟩ := waiting_of_mainStep h hr hm hst
    have hgo : s.threadStep cb s.i ≠ none := by
      rw [Ne, threadStep_eq_none]
      rintro (hp | hp | ⟨hp, hmutex⟩)
      · rw [hp] at h1
        exact absurd h1 (by decide)
      · rw [hp] at h6
        exact absurd h6 (by decide)
      · rcases (h.thread s.i).of_mutex hmutex with hin | ⟨-, hin⟩
        · rcases hp with hp | hp <;> rw [hp] at hin <;> revert hin <;> decide
        · rw [hout] at hin
          cases hin
    obtain ⟨s', hs'⟩ := Option.ne_none_iff_exists'.mp hgo
    obtain ⟨t, hstep⟩ := threadStep_cases hs'
    have hrank : (s'.thread s'.i).point.rank = (s.thread s.i).point.rank + 1 := by
      rw [hstep.i, hstep.thread, Function.update_self]
      exact hstep.rank
    have hleft' : s'.main.left ≤ 10 ∨ s'.main.left = s.main.left := by
      rw [hstep.main]
      split
      · exact Or.inl (Nat.le_refl 10)
      · exact Or.inr rfl
    refine ⟨s', Or.inr ⟨s.i, fun hl => ?_, hs'⟩, h.step (e := .thread s.i) hs', by omega, ?_⟩
    · rw [hl] at h6
      exact absurd h6 (by decide)
    · unfold left
      rw [hrank, hstep.i]
      omega

theorem exists_returned (h : Inv numThreads cb s) (hr : (s.thread s.i).point.rank ≤ 7) :
    ∃ s', Relation.ReflTransGen (Quiet numThreads cb) s s' ∧ s'.main = .returned ∧
      s'.loops_.length = numThreads := by
  generalize hn : left numThreads s = n
  induction n using Nat.strongRecOn generalizing s with
  | _ n ih =>
    by_cases hm : s.main = .returned
    · refine ⟨s, .refl, hm, ?_⟩
      rw [h.loops_, List.length_map, List.length_range]
      exact h.returned hm
    · obtain ⟨s1, hq, h1, hr1, hlt⟩ := exists_quiet h hr hm
      obtain ⟨s', hgoes, hend⟩ := ih (left numThreads s1) (by omega) h1 hr1 rfl
      exact ⟨s', .head hq hgoes, hend⟩

/-! ## Main results -/

/-- Whatever order the steps come in, `loops_` holds the loop of each thread, in the order of the
threads; each has been set, and the callback was called with it once, if there is one. -/
theorem run_loops (numThreads : Nat) (cb : Bool) {s : State}
    (h : (pool numThreads cb).Reachable s) :
    s.loops_ = (List.range s.loops_.length).map (fun j => some (.of j)) ∧
    (s.main = .returned → s.loops_.length = numThreads) ∧
    (∀ j < s.loops_.length, (s.thread j).point ∈ [.looping, .lockAgain, .clearLoop, .unlockAgain,
      .ended] ∧ s.called.count (.of j) = if cb then 1 else 0) ∧
    ∀ j, s.called.count (.of j) ≤ 1 := by
  have hi := inv_reachable h
  have hlen : s.loops_.length = s.i := by rw [hi.loops_, List.length_map, List.length_range]
  rw [hlen]
  refine ⟨hi.loops_, hi.returned, fun j hj => ?_, fun j => ?_⟩
  · have h7 := (hi.thread j).before hj
    constructor
    · cases hp : (s.thread j).point <;> rw [hp] at h7 <;> revert h7 <;> decide
    · rw [(hi.thread j).called]
      cases cb with
      | true => rw [if_pos ⟨rfl, by omega⟩]; rfl
      | false => rw [if_neg (fun hc => by cases hc.1)]; rfl
  · rw [(hi.thread j).called]
    split <;> omega

theorem reachable_of_eval {es : List Event}
    (h : es.foldlM (State.step numThreads cb) started = some s) :
    (pool numThreads cb).Reachable s :=
  ⟨es, System.Run.exec (State.step numThreads cb) (fun _ _ _ h => h) (.start rfl) es h⟩

/-- One thread; `startLoop` waits for it, and is woken. -/
def oneThread : List Event :=
  List.replicate 5 .main ++ List.replicate 6 (.thread 0) ++ List.replicate 6 .main

theorem run_loops_oneThread : ∃ s, (pool 1 true).Reachable s ∧ s.main = .returned ∧
    s.loops_ = (List.range s.loops_.length).map (fun j => some (.of j)) ∧
    (s.main = .returned → s.loops_.length = 1) ∧
    (∀ j < s.loops_.length, (s.thread j).point ∈ [.looping, .lockAgain, .clearLoop, .unlockAgain,
      .ended] ∧ s.called.count (.of j) = if true then 1 else 0) ∧
    ∀ j, s.called.count (.of j) ≤ 1 := by
  obtain ⟨s, hs, hm⟩ : ∃ s, oneThread.foldlM (State.step 1 true) started = some s ∧
      s.main = .returned := ⟨_, rfl, rfl⟩
  have hr := reachable_of_eval hs
  exact ⟨s, hr, hm, run_loops 1 true hr⟩

/-- `start` hangs in one case only. -/
theorem run_stuck_iff (numThreads : Nat) (cb : Bool) {s : State}
    (h : (pool numThreads cb).Reachable s) :
    (s.mainStep numThreads cb = none ∧
      ∀ j, s.threadStep cb j = none ∨ (s.thread j).point = .looping) ↔
    (s.main = .returned ∨ s.main = .asleep ∧ (s.thread s.i).point = .ended) ∧
      ∀ j, (s.thread j).point ∈ [.notCreated, .looping, .ended] := by
  have hi := inv_reachable h
  constructor
  · rintro ⟨hmain, hthread⟩
    have hpoint : ∀ j, (s.thread j).point ∈ [.notCreated, .looping, .ended] := by
      intro j
      rcases hthread j with hnone | hp
      · rcases threadStep_eq_none.mp hnone with hp | hp | ⟨hp, hmutex⟩
        · simp [hp]
        · simp [hp]
        · -- only `startLoop` can have the mutex, and it would go on
          exfalso
          rcases (hi.thread j).of_mutex hmutex with hin | ⟨-, hin⟩
          · rcases hp with hp | hp <;> rw [hp] at hin <;> revert hin <;> decide
          · rcases mainStep_eq_none.mp hmain with hm | hm | ⟨hm | hm, -⟩ <;>
              rw [hm] at hin <;> cases hin
      · simp [hp]
    refine ⟨?_, hpoint⟩
    rcases mainStep_eq_none.mp hmain with hm | hm | ⟨hm, hmutex⟩
    · refine Or.inr ⟨hm, ?_⟩
      have h1 := (hi.thread s.i).created rfl (by rw [hm]; rfl)
      have h2 := (hi.thread s.i).asleep rfl hm
      have hp := hpoint s.i
      cases hq : (s.thread s.i).point <;> rw [hq] at h1 h2 hp <;> revert h1 h2 hp <;> decide
    · exact Or.inl hm
    · exfalso
      have hp := hpoint s.i
      rcases (hi.thread s.i).of_mutex hmutex with hin | ⟨-, hin⟩
      · cases hq : (s.thread s.i).point <;> rw [hq] at hin hp <;> revert hin hp <;> decide
      · rcases hm with hm | hm <;> rw [hm] at hin <;> cases hin
  · rintro ⟨hm, hpoint⟩
    refine ⟨mainStep_eq_none.mpr ?_, fun j => ?_⟩
    · rcases hm with hm | ⟨hm, -⟩
      · exact Or.inr (Or.inl hm)
      · exact Or.inl hm
    · rw [threadStep_eq_none]
      have hp := hpoint j
      simp only [List.mem_cons, List.not_mem_nil, or_false] at hp
      rcases hp with hp | hp | hp
      · exact Or.inl (Or.inl hp)
      · exact Or.inr hp
      · exact Or.inl (Or.inr (Or.inl hp))

/-- The loop of the thread returns before `startLoop` looks at `loop_`. -/
def earlyReturn : List Event :=
  List.replicate 2 .main ++ List.replicate 10 (.thread 0) ++ List.replicate 3 .main

theorem run_stuck_iff_earlyReturn : ∃ s, (pool 1 false).Reachable s ∧ s.main = .asleep ∧
    ((s.mainStep 1 false = none ∧
      ∀ j, s.threadStep false j = none ∨ (s.thread j).point = .looping) ↔
    (s.main = .returned ∨ s.main = .asleep ∧ (s.thread s.i).point = .ended) ∧
      ∀ j, (s.thread j).point ∈ [.notCreated, .looping, .ended]) := by
  have hs : earlyReturn.foldlM (State.step 1 false) started =
      some ⟨.asleep, 0, Function.update started.thread 0 ⟨none, none, .ended⟩, [], []⟩ := by
    simp [earlyReturn, State.step, State.mainStep, State.threadStep, State.set, started]
  have hr := reachable_of_eval hs
  exact ⟨_, hr, rfl, run_stuck_iff 1 false hr⟩

/-- As long as the loop that `start` is at has not returned, `start` can come to its end without
any loop returning, and has all loops then. -/
theorem run_finishes (numThreads : Nat) (cb : Bool) {s : State}
    (h : (pool numThreads cb).Reachable s)
    (hloop : (s.thread s.i).point ∉ [.lockAgain, .clearLoop, .unlockAgain, .ended]) :
    ∃ s', Relation.ReflTransGen (Quiet numThreads cb) s s' ∧ s'.main = .returned ∧
      s'.loops_.length = numThreads := by
  apply exists_returned (inv_reachable h)
  cases hp : (s.thread s.i).point <;> rw [hp] at hloop <;> revert hloop <;> decide

theorem run_finishes_started : (pool 3 true).Reachable started ∧
    (started.thread started.i).point ∉ [.lockAgain, .clearLoop, .unlockAgain, .ended] ∧
    ∃ s', Relation.ReflTransGen (Quiet 3 true) started s' ∧ s'.main = .returned ∧
      s'.loops_.length = 3 :=
  ⟨.init rfl, by decide, run_finishes 3 true (.init rfl) (by decide)⟩

end StudyDoc.EventLoopThreadPool
