import StudyDoc.Lib.Guarded
import StudyDoc.Lib.Transition
import Mathlib.Tactic.Common

/-!
# Section 7.5: `produce` and `consume` over `put` and `nready`

Producers and one consumer, any of which may take the next step; a step is one statement, and a
sleeper in `pthread_cond_wait` may wake for no reason.  `put.mutex` and `nready.mutex` are two
protocols over the same threads:

    put.mutex is free → nput = nval and buff[j] = j for j < nput               (putProtocol)
    the consumer reads buff[i] → i = 0 and 0 < nready, so 0 < nput    (readyProtocol, Inv.read)

The exit path of `produce` locks `put.mutex` once more in the place of unlocking it, and
`consume` neither counts `nready` down nor unlocks `nready.mutex`.  Until one of these is reached
all is in order, and from then on it is not                                  (always_law_iff).
-/

namespace StudyDoc.NReady

open Transition Guarded

/-! ## Algorithm -/

def MAXNITEM : Nat := 1000000

inductive Thread where
  /-- Runs `produce`. -/
  | produce (i : Nat)
  | consume
  deriving DecidableEq

/-- The next statement of `produce`. -/
inductive Produce where
  | lock
  /-- `if(put.nput >= nitems)` -/
  | test
  /-- `pthread_mutex_lock(&put.mutex)` before the `return`. -/
  | lockReturn
  | store
  | incNput
  | incNval
  | unlock
  | lockReady
  /-- `if(nready.nready == 0)` -/
  | testReady
  | signal
  | incReady
  | unlockReady
  | count
  | returned
  deriving DecidableEq

/-- The next statement of `consume`, with its `i`. -/
inductive Consume where
  | loop (i : Nat)
  | lock (i : Nat)
  /-- `while(nready.nready == 0)` -/
  | test (i : Nat)
  | wait (i : Nat)
  /-- In `pthread_cond_wait`, not signalled. -/
  | asleep (i : Nat)
  /-- In `pthread_cond_wait`, which locks the mutex before it returns. -/
  | woken (i : Nat)
  /-- `if(buff[i] != i)` -/
  | compare (i : Nat)
  | printf (i : Nat)
  | returned (i : Nat)
  deriving DecidableEq

abbrev Thread.Pc : Thread → Type
  | produce _ => Produce
  | consume => Consume

structure Put where
  mutex : Option Thread
  nput : Nat
  nval : Nat

structure Ready where
  mutex : Option Thread
  nready : Nat

structure Shared where
  buff : Nat → Nat
  put : Put
  nready : Ready
  /-- The `*arg` of each producer. -/
  count : Nat → Nat
  /-- How many times `nready.nready++` was done; the program does not keep this. -/
  signalled : Nat
  /-- How many items `consume` has looked at; the program does not keep this. -/
  consumed : Nat

def Put.lock (m : Put) (t : Thread) : Option Put :=
  if m.mutex = none then some { m with mutex := some t } else none

def Put.unlock (m : Put) : Put := { m with mutex := none }

def Ready.lock (m : Ready) (t : Thread) : Option Ready :=
  if m.mutex = none then some { m with mutex := some t } else none

def Ready.unlock (m : Ready) : Ready := { m with mutex := none }

/-- One statement of `produce` in the thread `produce i`; `pthread_mutex_lock` on a mutex that is
taken does not return.  A store behind the end of `buff` is undefined. -/
def Produce.step (nitems : Int) (i : Nat) (m : Shared) : Produce → Option (Produce × Shared)
  | lock => (m.put.lock (.produce i)).map fun put => (test, { m with put := put })
  | test => some (if (m.put.nput : Int) ≥ nitems then lockReturn else store, m)
  | lockReturn => (m.put.lock (.produce i)).map fun put => (returned, { m with put := put })
  | store =>
    if m.put.nput < MAXNITEM then
      some (incNput, { m with buff := Function.update m.buff m.put.nput m.put.nval })
    else none
  | incNput => some (incNval, { m with put := { m.put with nput := m.put.nput + 1 } })
  | incNval => some (unlock, { m with put := { m.put with nval := m.put.nval + 1 } })
  | unlock => some (lockReady, { m with put := m.put.unlock })
  | lockReady => (m.nready.lock (.produce i)).map fun r => (testReady, { m with nready := r })
  | testReady => some (if m.nready.nready = 0 then signal else incReady, m)
  | signal => some (incReady, m)
  | incReady => some (unlockReady, { m with
      nready := { m.nready with nready := m.nready.nready + 1 }
      signalled := m.signalled + 1 })
  | unlockReady => some (count, { m with nready := m.nready.unlock })
  | count => some (lock, { m with count := Function.update m.count i (m.count i + 1) })
  | returned => none

/-- One statement of `consume`.  A read behind the end of `buff` is undefined. -/
def Consume.step (nitems : Int) (m : Shared) : Consume → Option (Consume × Shared)
  | loop i => some (if (i : Int) < nitems then lock i else returned i, m)
  | lock i => (m.nready.lock .consume).map fun r => (test i, { m with nready := r })
  | test i => some (if m.nready.nready = 0 then wait i else compare i, m)
  | wait i => some (asleep i, { m with nready := m.nready.unlock })
  | asleep _ => none
  | woken i => (m.nready.lock .consume).map fun r => (test i, { m with nready := r })
  | compare i =>
    if i < MAXNITEM then
      some (if m.buff i ≠ i then printf i else loop (i + 1), { m with consumed := m.consumed + 1 })
    else none
  | printf i => some (loop (i + 1), m)
  | returned _ => none

/-- What a signal, or nothing at all, does to a sleeper. -/
def Consume.wake : Consume → Consume
  | asleep i => woken i
  | l => l

structure State where
  threads : ∀ t : Thread, t.Pc
  shared : Shared

namespace State

def goto (s : State) (t : Thread) (pc : t.Pc) : State :=
  { s with threads := Function.update s.threads t pc }

theorem goto_self (s : State) (t : Thread) (pc : t.Pc) : (s.goto t pc).threads t = pc :=
  Function.update_self t pc s.threads

theorem goto_of_ne (s : State) {t u : Thread} (pc : t.Pc) (hu : u ≠ t) :
    (s.goto t pc).threads u = s.threads u :=
  Function.update_of_ne hu pc s.threads

/-- `pthread_cond_signal(&nready.cond)`: nobody but `consume` waits there. -/
def wake (s : State) : State := s.goto .consume (s.threads .consume).wake

def stepProduce (nitems : Int) (i : Nat) (s : State) : Option State :=
  ((s.threads (.produce i)).step nitems i s.shared).map fun r =>
    let s' := { s with shared := r.2 }.goto (.produce i) r.1
    if s.threads (.produce i) = .signal then s'.wake else s'

def stepConsume (nitems : Int) (s : State) : Option State :=
  ((s.threads .consume).step nitems s.shared).map fun r =>
    { s with shared := r.2 }.goto .consume r.1

end State

inductive Event where
  /-- The thread takes its next step. -/
  | run (t : Thread)
  /-- `pthread_cond_wait` is about to return for no reason. -/
  | spurious

def State.step (nitems : Int) (nthreads : Nat) (s : State) : Event → Option State
  | .run (.produce i) => if i < nthreads then s.stepProduce nitems i else none
  | .run .consume => s.stepConsume nitems
  | .spurious => some s.wake

/-- What is static is zero. -/
def start (count : Nat → Nat) : State where
  threads
    | .produce _ => .lock
    | .consume => .loop 0
  shared := ⟨fun _ => 0, ⟨none, 0, 0⟩, ⟨none, 0⟩, count, 0, 0⟩

def program (nitems : Int) (nthreads : Nat) : System State Event where
  init s := ∃ count, s = start count
  step s e s' := s.step nitems nthreads e = some s'

/-! ## The two mutexes -/

/-- `a` items are stored and not in `nput` yet, `b` are in `nput` and not in `nval` yet. -/
structure Filled (a b : Nat) (put : Put) (buff : Nat → Nat) : Prop where
  buff : ∀ j < put.nput + a, buff j = j
  nval : put.nput = put.nval + b

def Produce.insidePut : Produce → Bool
  | test | lockReturn | store | incNput | incNval | unlock => true
  | _ => false

/-- From `put.nput++` to `nready.nready++` there is an item that was put. -/
def Produce.KnowsPut : Produce → Put → (Nat → Nat) → Prop
  | test, m, buff | lockReturn, m, buff | store, m, buff => Filled 0 0 m buff
  | incNput, m, buff => Filled 1 0 m buff
  | incNval, m, buff => Filled 0 1 m buff ∧ 0 < m.nput
  | unlock, m, buff => Filled 0 0 m buff ∧ 0 < m.nput
  | lockReady, m, _ | testReady, m, _ | signal, m, _ | incReady, m, _ => 0 < m.nput
  | _, _, _ => True

def insidePut : ∀ t : Thread, t.Pc → Bool
  | .produce _, pc => pc.insidePut
  | .consume, _ => false

def KnowsPut : ∀ t : Thread, t.Pc → Put × (Nat → Nat) → Prop
  | .produce _, pc, d => pc.KnowsPut d.1 d.2
  | .consume, _, _ => True

theorem knowsPut_stable {t : Thread} {pc : t.Pc} {d d' : Put × (Nat → Nat)}
    (ho : insidePut t pc = false) (hg : d.1.nput ≤ d'.1.nput) (hk : KnowsPut t pc d) :
    KnowsPut t pc d' := by
  cases t with
  | consume => trivial
  | produce i =>
    cases pc with
    | lock | unlockReady | count | returned => trivial
    | lockReady | testReady | signal | incReady => exact Nat.lt_of_lt_of_le hk hg
    | test | lockReturn | store | incNput | incNval | unlock => cases ho

def putProtocol : Protocol Thread (Put × (Nat → Nat)) Thread.Pc where
  owner d := d.1.mutex
  inside := insidePut
  knows := KnowsPut
  resource d := Filled 0 0 d.1 d.2
  guarantee d d' := d.1.nput ≤ d'.1.nput
  stable := knowsPut_stable

def Produce.insideReady : Produce → Bool
  | testReady | signal | incReady | unlockReady => true
  | _ => false

/-- After the first item `consume` does not let go of the mutex. -/
def Consume.insideReady : Consume → Bool
  | test _ | wait _ | compare _ | printf _ => true
  | asleep _ | woken _ => false
  | loop i | lock i | returned i => decide (0 < i)

def Consume.KnowsReady : Consume → Ready → Prop
  | test i, _ | wait i, _ | asleep i, _ | woken i, _ => i = 0
  | compare i, m => i = 0 ∧ 0 < m.nready
  | loop _, _ | lock _, _ | printf _, _ | returned _, _ => True

def insideReady : ∀ t : Thread, t.Pc → Bool
  | .produce _, pc => pc.insideReady
  | .consume, pc => pc.insideReady

def KnowsReady : ∀ t : Thread, t.Pc → Ready → Prop
  | .produce _, _, _ => True
  | .consume, pc, m => pc.KnowsReady m

theorem knowsReady_stable {t : Thread} {pc : t.Pc} {m m' : Ready}
    (ho : insideReady t pc = false) (hk : KnowsReady t pc m) : KnowsReady t pc m' := by
  cases t with
  | produce i => trivial
  | consume =>
    cases pc with
    | loop i | lock i | printf i | returned i => trivial
    | test i | wait i | asleep i | woken i => exact hk
    | compare i => cases ho

def readyProtocol : Protocol Thread Ready Thread.Pc where
  owner := Ready.mutex
  inside := insideReady
  knows := KnowsReady
  resource _ := True
  guarantee _ _ := True
  stable ho _ hk := knowsReady_stable ho hk

/-- The items that `consume` has looked at. -/
def Consume.taken : Consume → Nat
  | loop i | lock i | test i | wait i | asleep i | woken i | compare i | returned i => i
  | printf i => i + 1

/-! ### One statement -/

/-- What a statement of the thread `t` does, for each mutex and for the counters. -/
structure Moves (t : Thread) (pc : t.Pc) (m : Shared) (pc' : t.Pc) (m' : Shared) : Prop where
  put : putProtocol.Step t pc (m.put, m.buff) pc' (m'.put, m'.buff)
  ready : readyProtocol.Step t pc m.nready pc' m'.nready
  counted : m.nready.nready = m.signalled → m'.nready.nready = m'.signalled
  stored : (0 < m.nready.nready → 0 < m.put.nput) → 0 < m'.nready.nready → 0 < m'.put.nput

theorem Put.lock_eq_some_iff {m m' : Put} {t : Thread} :
    m.lock t = some m' ↔ m.mutex = none ∧ m' = { m with mutex := some t } := by
  unfold Put.lock
  exact guard_iff

theorem Ready.lock_eq_some_iff {m m' : Ready} {t : Thread} :
    m.lock t = some m' ↔ m.mutex = none ∧ m' = { m with mutex := some t } := by
  unfold Ready.lock
  exact guard_iff

/-- `Filled` says nothing of the mutex. -/
theorem Filled.mutex {a b : Nat} {put : Put} {buff : Nat → Nat} (h : Filled a b put buff)
    (o : Option Thread) : Filled a b { put with mutex := o } buff := ⟨h.buff, h.nval⟩

theorem Filled.store {put : Put} {buff : Nat → Nat} (h : Filled 0 0 put buff) :
    Filled 1 0 put (Function.update buff put.nput put.nval) where
  buff j hj := by
    by_cases hjn : j = put.nput
    · rw [hjn, Function.update_self]
      exact h.nval.symm
    · rw [Function.update_of_ne hjn]
      exact h.buff j (by omega)
  nval := h.nval

theorem Filled.incNput {put : Put} {buff : Nat → Nat} (h : Filled 1 0 put buff) :
    Filled 0 1 { put with nput := put.nput + 1 } buff :=
  ⟨h.buff, congrArg (· + 1) h.nval⟩

theorem Filled.incNval {put : Put} {buff : Nat → Nat} (h : Filled 0 1 put buff) :
    Filled 0 0 { put with nval := put.nval + 1 } buff :=
  ⟨h.buff, h.nval⟩

theorem produce_step {nitems : Int} {i : Nat} {m m' : Shared} {pc pc' : Produce}
    (hs : pc.step nitems i m = some (pc', m')) (hk : pc.KnowsPut m.put m.buff)
    (hput : m.put.mutex = some (.produce i) ↔ pc.insidePut = true)
    (hready : m.nready.mutex = some (.produce i) ↔ pc.insideReady = true)
    (hfree : m.put.mutex = none → Filled 0 0 m.put m.buff) :
    Moves (.produce i) pc m pc' m' := by
  cases pc with
  | lock =>
    obtain ⟨put, hlock, heq⟩ := Option.map_eq_some_iff.mp hs
    obtain ⟨hnone, rfl⟩ := Put.lock_eq_some_iff.mp hlock
    cases heq
    exact ⟨.into (Or.inl hnone) (Nat.le_refl _) rfl rfl ((hfree hnone).mutex _),
      .outside rfl rfl trivial, id, id⟩
  | test =>
    have hm := hput.mpr rfl
    by_cases hfull : (m.put.nput : Int) ≥ nitems
    · rw [Produce.step, if_pos hfull] at hs
      cases hs
      exact ⟨.into (Or.inr hm) (Nat.le_refl _) hm rfl hk, .outside rfl rfl trivial, id, id⟩
    · rw [Produce.step, if_neg hfull] at hs
      cases hs
      exact ⟨.into (Or.inr hm) (Nat.le_refl _) hm rfl hk, .outside rfl rfl trivial, id, id⟩
  | lockReturn =>
    -- the thread itself has the mutex
    obtain ⟨put, hlock, -⟩ := Option.map_eq_some_iff.mp hs
    have hnone := (Put.lock_eq_some_iff.mp hlock).1
    exact absurd (hnone.symm.trans (hput.mpr rfl)) (by simp)
  | store =>
    have hm := hput.mpr rfl
    obtain ⟨-, hs⟩ := Option.ite_none_right_eq_some.mp hs
    cases hs
    exact ⟨.into (Or.inr hm) (Nat.le_refl _) hm rfl (Filled.store hk),
      .outside rfl rfl trivial, id, id⟩
  | incNput =>
    have hm := hput.mpr rfl
    cases hs
    exact ⟨.into (Or.inr hm) (Nat.le_succ _) hm rfl ⟨Filled.incNput hk, Nat.succ_pos _⟩,
      .outside rfl rfl trivial, id, fun _ _ => Nat.succ_pos _⟩
  | incNval =>
    have hm := hput.mpr rfl
    cases hs
    exact ⟨.into (Or.inr hm) (Nat.le_refl _) hm rfl ⟨Filled.incNval hk.1, hk.2⟩,
      .outside rfl rfl trivial, id, id⟩
  | unlock =>
    cases hs
    exact ⟨.leave (hput.mpr rfl) (Nat.le_refl _) rfl rfl (hk.1.mutex none) hk.2,
      .outside rfl rfl trivial, id, id⟩
  | lockReady =>
    obtain ⟨r, hlock, heq⟩ := Option.map_eq_some_iff.mp hs
    obtain ⟨hnone, rfl⟩ := Ready.lock_eq_some_iff.mp hlock
    cases heq
    exact ⟨.outside rfl rfl hk, .into (Or.inl hnone) trivial rfl rfl trivial, id, id⟩
  | testReady =>
    have hm := hready.mpr rfl
    by_cases hzero : m.nready.nready = 0
    · rw [Produce.step, if_pos hzero] at hs
      cases hs
      exact ⟨.outside rfl rfl hk, .into (Or.inr hm) trivial hm rfl trivial, id, id⟩
    · rw [Produce.step, if_neg hzero] at hs
      cases hs
      exact ⟨.outside rfl rfl hk, .into (Or.inr hm) trivial hm rfl trivial, id, id⟩
  | signal =>
    have hm := hready.mpr rfl
    cases hs
    exact ⟨.outside rfl rfl hk, .into (Or.inr hm) trivial hm rfl trivial, id, id⟩
  | incReady =>
    have hm := hready.mpr rfl
    cases hs
    exact ⟨.outside rfl rfl trivial, .into (Or.inr hm) trivial hm rfl trivial,
      congrArg (· + 1), fun _ _ => hk⟩
  | unlockReady =>
    cases hs
    exact ⟨.outside rfl rfl trivial, .leave (hready.mpr rfl) trivial rfl rfl trivial trivial,
      id, id⟩
  | count =>
    cases hs
    exact ⟨.outside rfl rfl trivial, .outside rfl rfl trivial, id, id⟩
  | returned => cases hs

theorem produce_consumed {nitems : Int} {i : Nat} {m m' : Shared} {pc pc' : Produce}
    (hs : pc.step nitems i m = some (pc', m')) : m'.consumed = m.consumed := by
  cases pc with
  | lock | lockReturn | lockReady =>
    obtain ⟨_, _, heq⟩ := Option.map_eq_some_iff.mp hs
    cases heq
    rfl
  | store =>
    obtain ⟨-, hs⟩ := Option.ite_none_right_eq_some.mp hs
    cases hs
    rfl
  | returned => cases hs
  | _ =>
    cases hs
    rfl

/-- Only a full buffer leads to the exit path. -/
theorem produce_exit_iff {nitems : Int} {i : Nat} {m m' : Shared} {pc pc' : Produce}
    (hs : pc.step nitems i m = some (pc', m')) :
    pc' = .lockReturn ↔ pc = .test ∧ nitems ≤ m.put.nput := by
  cases pc with
  | test =>
    by_cases hfull : (m.put.nput : Int) ≥ nitems
    · rw [Produce.step, if_pos hfull] at hs
      cases hs
      exact iff_of_true rfl ⟨rfl, hfull⟩
    · rw [Produce.step, if_neg hfull] at hs
      cases hs
      exact iff_of_false nofun fun h => hfull h.2
  | testReady =>
    rw [Produce.step] at hs
    split at hs <;> cases hs <;> exact iff_of_false nofun nofun
  | lock | lockReturn | lockReady =>
    obtain ⟨_, _, heq⟩ := Option.map_eq_some_iff.mp hs
    cases heq
    exact iff_of_false nofun nofun
  | store =>
    obtain ⟨-, hs⟩ := Option.ite_none_right_eq_some.mp hs
    cases hs
    exact iff_of_false nofun nofun
  | returned => cases hs
  | _ =>
    cases hs
    exact iff_of_false nofun nofun

/-- Between the turns: the mutex is held, or it is not. -/
theorem consume_outside {i : Nat} {pc pc' : Consume} {m : Ready}
    (hin : pc.insideReady = decide (0 < i)) (hin' : pc'.insideReady = decide (0 < i))
    (hready : m.mutex = some .consume ↔ pc.insideReady = true) (hk : pc'.KnowsReady m) :
    readyProtocol.Step .consume pc m pc' m := by
  by_cases hi : 0 < i
  · have hm := hready.mpr (hin.trans (decide_eq_true hi))
    exact .into (Or.inr hm) trivial hm (hin'.trans (decide_eq_true hi)) hk
  · exact .outside (hin.trans (decide_eq_false hi)) (hin'.trans (decide_eq_false hi)) hk

theorem consume_step {nitems : Int} {m m' : Shared} {pc pc' : Consume}
    (hs : pc.step nitems m = some (pc', m')) (hk : pc.KnowsReady m.nready)
    (hready : m.nready.mutex = some .consume ↔ pc.insideReady = true)
    (htaken : m.consumed = pc.taken) :
    Moves .consume pc m pc' m' ∧ m'.consumed = pc'.taken := by
  have hput : ∀ {d : Put × (Nat → Nat)} {l l' : Consume},
      putProtocol.Step .consume l d l' d := .outside rfl rfl trivial
  cases pc with
  | loop i =>
    by_cases hi : (i : Int) < nitems
    · rw [Consume.step, if_pos hi] at hs
      cases hs
      exact ⟨⟨hput, consume_outside (i := i) rfl rfl hready trivial, id, id⟩, htaken⟩
    · rw [Consume.step, if_neg hi] at hs
      cases hs
      exact ⟨⟨hput, consume_outside (i := i) rfl rfl hready trivial, id, id⟩, htaken⟩
  | lock i =>
    obtain ⟨r, hlock, heq⟩ := Option.map_eq_some_iff.mp hs
    obtain ⟨hnone, rfl⟩ := Ready.lock_eq_some_iff.mp hlock
    cases heq
    have hi : i = 0 := by
      by_contra hne
      have hm := hready.mpr (decide_eq_true (Nat.pos_of_ne_zero hne))
      exact absurd (hnone.symm.trans hm) (by simp)
    exact ⟨⟨hput, .into (Or.inl hnone) trivial rfl rfl hi, id, id⟩, htaken⟩
  | test i =>
    have hm := hready.mpr rfl
    by_cases hzero : m.nready.nready = 0
    · rw [Consume.step, if_pos hzero] at hs
      cases hs
      exact ⟨⟨hput, .into (Or.inr hm) trivial hm rfl hk, id, id⟩, htaken⟩
    · rw [Consume.step, if_neg hzero] at hs
      cases hs
      exact ⟨⟨hput, .into (Or.inr hm) trivial hm rfl ⟨hk, Nat.pos_of_ne_zero hzero⟩, id, id⟩,
        htaken⟩
  | wait i =>
    cases hs
    exact ⟨⟨hput, .leave (hready.mpr rfl) trivial rfl rfl trivial hk, id, id⟩, htaken⟩
  | asleep i => cases hs
  | woken i =>
    obtain ⟨r, hlock, heq⟩ := Option.map_eq_some_iff.mp hs
    obtain ⟨hnone, rfl⟩ := Ready.lock_eq_some_iff.mp hlock
    cases heq
    exact ⟨⟨hput, .into (Or.inl hnone) trivial rfl rfl hk, id, id⟩, htaken⟩
  | compare i =>
    have hm := hready.mpr rfl
    obtain ⟨-, hs⟩ := Option.ite_none_right_eq_some.mp hs
    by_cases hbuff : m.buff i ≠ i
    · rw [if_pos hbuff] at hs
      cases hs
      exact ⟨⟨hput, .into (Or.inr hm) trivial hm rfl trivial, id, id⟩,
        congrArg (· + 1) htaken⟩
    · rw [if_neg hbuff] at hs
      cases hs
      exact ⟨⟨hput, .into (Or.inr hm) trivial hm (decide_eq_true (Nat.succ_pos i)) trivial,
        id, id⟩, congrArg (· + 1) htaken⟩
  | printf i =>
    have hm := hready.mpr rfl
    cases hs
    exact ⟨⟨hput, .into (Or.inr hm) trivial hm (decide_eq_true (Nat.succ_pos i)) trivial, id, id⟩,
      htaken⟩
  | returned i => cases hs

theorem consume_consumed {nitems : Int} {m m' : Shared} {pc pc' : Consume}
    (hs : pc.step nitems m = some (pc', m')) :
    (∃ i < MAXNITEM, pc = .compare i ∧ m'.consumed = m.consumed + 1) ∨
      (∀ i, pc ≠ .compare i) ∧ m'.consumed = m.consumed := by
  cases pc with
  | compare i =>
    obtain ⟨hi, hs⟩ := Option.ite_none_right_eq_some.mp hs
    cases hs
    exact Or.inl ⟨i, hi, rfl, rfl⟩
  | lock i | woken i =>
    obtain ⟨_, _, heq⟩ := Option.map_eq_some_iff.mp hs
    cases heq
    exact Or.inr ⟨nofun, rfl⟩
  | asleep i | returned i => cases hs
  | _ =>
    cases hs
    exact Or.inr ⟨nofun, rfl⟩

/-! ### One step of the program -/

structure Inv (s : State) : Prop where
  put : putProtocol.Inv s.threads (s.shared.put, s.shared.buff)
  ready : readyProtocol.Inv s.threads s.shared.nready
  counted : s.shared.nready.nready = s.shared.signalled
  stored : 0 < s.shared.nready.nready → 0 < s.shared.put.nput
  taken : s.shared.consumed = (s.threads .consume).taken

theorem Inv.move {s : State} (h : Inv s) {t : Thread} {pc' : t.Pc} {m' : Shared}
    (hm : Moves t (s.threads t) s.shared pc' m')
    (htaken : m'.consumed = (Function.update s.threads t pc' .consume).taken) :
    Inv ({ s with shared := m' }.goto t pc') :=
  ⟨h.put.step hm.put, h.ready.step hm.ready, hm.counted h.counted, hm.stored h.stored, htaken⟩

theorem Inv.wake {s : State} (h : Inv s) : Inv s.wake := by
  have hk := h.ready.knows .consume
  have hpass : ∀ {l l' : Consume}, l.insideReady = false → l'.insideReady = false →
      l'.KnowsReady s.shared.nready → Moves .consume l s.shared l' s.shared :=
    fun hl hl' hk => ⟨.outside rfl rfl trivial, .outside hl hl' hk, id, id⟩
  cases hpc : s.threads .consume with
  | asleep i =>
    rw [hpc] at hk
    have hwake : s.wake = { s with shared := s.shared }.goto .consume (.woken i) := by
      rw [State.wake, hpc]
      rfl
    rw [hwake]
    refine h.move ?_ ?_
    · rw [hpc]
      exact hpass rfl rfl hk
    · rw [Function.update_self, h.taken, hpc]
      rfl
  | _ =>
    have hwake : s.wake = s := by
      unfold State.wake State.goto
      rw [hpc]
      show { s with threads := Function.update s.threads .consume _ } = s
      rw [Consume.wake, ← hpc, Function.update_eq_self]
      simp
    rw [hwake]
    exact h

variable {nitems : Int} {nthreads : Nat}

theorem inv_stepProduce {s s' : State} {i : Nat} (h : Inv s)
    (hs : s.stepProduce nitems i = some s') : Inv s' := by
  obtain ⟨⟨pc', m'⟩, hr, rfl⟩ := Option.map_eq_some_iff.mp hs
  have hmoves := produce_step hr (h.put.knows (.produce i)) (h.put.owner (.produce i))
    (h.ready.owner (.produce i)) h.put.free
  have hconsumed : m'.consumed = s.shared.consumed := produce_consumed hr
  have hmoved : Inv ({ s with shared := m' }.goto (.produce i) pc') := by
    refine h.move hmoves ?_
    rw [Function.update_of_ne (by simp), hconsumed]
    exact h.taken
  dsimp only
  split
  · exact hmoved.wake
  · exact hmoved

theorem inv_stepConsume {s s' : State} (h : Inv s) (hs : s.stepConsume nitems = some s') :
    Inv s' := by
  obtain ⟨⟨pc', m'⟩, hr, rfl⟩ := Option.map_eq_some_iff.mp hs
  obtain ⟨hmoves, htaken⟩ := consume_step hr (h.ready.knows .consume) (h.ready.owner .consume)
    h.taken
  refine h.move hmoves ?_
  rw [Function.update_self]
  exact htaken

theorem inv_step {s s' : State} {e : Event} (h : Inv s)
    (hs : s.step nitems nthreads e = some s') : Inv s' := by
  cases e with
  | spurious =>
    rw [← Option.some.inj hs]
    exact h.wake
  | run t =>
    cases t with
    | produce i => exact inv_stepProduce h (Option.ite_none_right_eq_some.mp hs).2
    | consume => exact inv_stepConsume h hs

theorem inv_start (count : Nat → Nat) : Inv (start count) where
  put := by
    refine ⟨fun t => ?_, fun _ => ⟨fun j hj => absurd hj (Nat.not_lt_zero j), rfl⟩, fun t => ?_⟩
    · cases t <;> simp [putProtocol, start, insidePut, Produce.insidePut]
    · cases t <;> trivial
  ready := by
    refine ⟨fun t => ?_, fun _ => trivial, fun t => ?_⟩
    · cases t <;> simp [readyProtocol, start, insideReady, Produce.insideReady,
        Consume.insideReady]
    · cases t <;> trivial
  counted := rfl
  stored h := absurd h (Nat.lt_irrefl 0)
  taken := rfl

theorem inv {s : State} (h : (program nitems nthreads).Reachable s) : Inv s := by
  apply h.invariant
  · rintro s ⟨count, rfl⟩
    exact inv_start count
  · intro s e s' _ hi hs
    exact inv_step hi hs

/-! ## In order -/

/-- The mutex that a thread's next statement, or the `pthread_cond_wait` it is in, locks. -/
def LocksPut : ∀ t : Thread, t.Pc → Prop
  | .produce _, pc => pc = .lock ∨ pc = .lockReturn
  | .consume, _ => False

def LocksReady : ∀ t : Thread, t.Pc → Prop
  | .produce _, pc => pc = .lockReady
  | .consume, pc => ∃ i, pc = .lock i ∨ pc = .woken i

def Returned : ∀ t : Thread, t.Pc → Prop
  | .produce _, pc => pc = .returned
  | .consume, pc => ∃ i, pc = .returned i

structure Law (s : State) : Prop where
  /-- No thread locks a mutex that it has. -/
  lockPut : ∀ t, LocksPut t (s.threads t) → s.shared.put.mutex ≠ some t
  lockReady : ∀ t, LocksReady t (s.threads t) → s.shared.nready.mutex ≠ some t
  /-- A thread that returned has no mutex. -/
  returned : ∀ t, Returned t (s.threads t) →
    s.shared.put.mutex ≠ some t ∧ s.shared.nready.mutex ≠ some t
  /-- `nready` is what was signalled and not consumed. -/
  counted : s.shared.nready.nready + s.shared.consumed = s.shared.signalled
  /-- The consumer reads what was stored. -/
  stored : ∀ i, s.threads .consume = .compare i →
    i < s.shared.put.nput ∧ s.shared.buff i = i

/-- No producer is on its exit path, and no item was taken. -/
structure Clean (s : State) : Prop where
  exit : ∀ i, s.threads (.produce i) ≠ .lockReturn
  consumed : s.shared.consumed = 0

/-- What was counted in `nput` is in `buff`, whoever has the mutex. -/
theorem Inv.buff {s : State} (h : Inv s) {j : Nat} (hj : j < s.shared.put.nput) :
    s.shared.buff j = j := by
  cases hm : s.shared.put.mutex with
  | none => exact (h.put.free hm).buff j hj
  | some t =>
    have hin := (h.put.owner t).mp hm
    have hk := h.put.knows t
    cases t with
    | consume => cases hin
    | produce i =>
      change (s.threads (.produce i)).KnowsPut s.shared.put s.shared.buff at hk
      change (s.threads (.produce i)).insidePut = true at hin
      cases hpc : s.threads (.produce i) with
      | test | lockReturn | store =>
        rw [hpc] at hk
        exact hk.buff j hj
      | incNput =>
        rw [hpc] at hk
        exact hk.buff j (Nat.lt_succ_of_lt hj)
      | incNval | unlock =>
        rw [hpc] at hk
        exact hk.1.buff j hj
      | _ =>
        rw [hpc] at hin
        cases hin

theorem Inv.read {s : State} (h : Inv s) {i : Nat} (hi : s.threads .consume = .compare i) :
    i < s.shared.put.nput ∧ s.shared.buff i = i := by
  have hk := h.ready.knows .consume
  rw [hi] at hk
  have hpos : 0 < s.shared.put.nput := h.stored hk.2
  have hlt : i < s.shared.put.nput := by rw [hk.1]; exact hpos
  exact ⟨hlt, h.buff hlt⟩

theorem law_iff_clean {s : State} (h : Inv s) : Law s ↔ Clean s := by
  constructor
  · intro hlaw
    constructor
    · intro i hi
      apply hlaw.lockPut (.produce i) (Or.inr hi)
      apply (h.put.owner (.produce i)).mpr
      show (s.threads (.produce i)).insidePut = true
      rw [hi]
      rfl
    · have hcounted := hlaw.counted
      have hsignalled := h.counted
      omega
  · intro hclean
    have hzero : (s.threads .consume).taken = 0 := h.taken.symm.trans hclean.consumed
    have hput : ∀ t, insidePut t (s.threads t) = false → s.shared.put.mutex ≠ some t := by
      intro t hout hown
      exact absurd (hout.symm.trans ((h.put.owner t).mp hown)) (by decide)
    have hready : ∀ t, insideReady t (s.threads t) = false → s.shared.nready.mutex ≠ some t := by
      intro t hout hown
      exact absurd (hout.symm.trans ((h.ready.owner t).mp hown)) (by decide)
    constructor
    · intro t hl
      cases t with
      | consume => exact hl.elim
      | produce i =>
        rcases hl with hl | hl
        · exact hput _ (congrArg Produce.insidePut hl)
        · exact absurd hl (hclean.exit i)
    · intro t hl
      cases t with
      | produce i => exact hready _ (congrArg Produce.insideReady hl)
      | consume =>
        obtain ⟨i, hl | hl⟩ := hl
        · rw [hl] at hzero
          obtain rfl : i = 0 := hzero
          exact hready _ (congrArg Consume.insideReady hl)
        · exact hready _ (congrArg Consume.insideReady hl)
    · intro t hl
      cases t with
      | produce i =>
        exact ⟨hput _ (congrArg Produce.insidePut hl), hready _ (congrArg Produce.insideReady hl)⟩
      | consume =>
        obtain ⟨i, hl⟩ := hl
        rw [hl] at hzero
        obtain rfl : i = 0 := hzero
        exact ⟨hput _ rfl, hready _ (congrArg Consume.insideReady hl)⟩
    · rw [hclean.consumed]
      exact h.counted
    · exact fun i => h.read

/-- A producer that looks at `put.nput` finds room, and the consumer does not look at an item. -/
def Good (nitems : Int) (nthreads : Nat) (s : State) : Event → Prop
  | .run (.produce i) =>
    i < nthreads → s.threads (.produce i) = .test → (s.shared.put.nput : Int) < nitems
  | .run .consume => ∀ i < MAXNITEM, s.threads .consume ≠ .compare i
  | .spurious => True

theorem clean_wake (s : State) : Clean s.wake ↔ Clean s :=
  ⟨fun h => ⟨h.exit, h.consumed⟩, fun h => ⟨h.exit, h.consumed⟩⟩

theorem clean_produce {s s' : State} {i : Nat} (hc : Clean s)
    (hs : s.stepProduce nitems i = some s') :
    Clean s' ↔ (s.threads (.produce i) = .test → (s.shared.put.nput : Int) < nitems) := by
  obtain ⟨⟨pc', m'⟩, hr, rfl⟩ := Option.map_eq_some_iff.mp hs
  have hexit := produce_exit_iff hr
  have hmoved : Clean ({ s with shared := m' }.goto (.produce i) pc') ↔
      (s.threads (.produce i) = .test → (s.shared.put.nput : Int) < nitems) := by
    constructor
    · intro hc' htest
      by_contra hge
      apply hc'.exit i
      rw [State.goto_self]
      exact hexit.mpr ⟨htest, Int.not_lt.mp hge⟩
    · intro hroom
      refine ⟨fun j hj => ?_, (produce_consumed hr).trans hc.consumed⟩
      by_cases hji : j = i
      · subst hji
        rw [State.goto_self] at hj
        obtain ⟨htest, hfull⟩ := hexit.mp hj
        exact absurd (hroom htest) (Int.not_lt.mpr hfull)
      · rw [State.goto_of_ne _ _ (by simpa using hji)] at hj
        exact hc.exit j hj
  dsimp only
  split
  · exact (clean_wake _).trans hmoved
  · exact hmoved

theorem clean_consume {s s' : State} (hc : Clean s) (hs : s.stepConsume nitems = some s') :
    Clean s' ↔ ∀ i < MAXNITEM, s.threads .consume ≠ .compare i := by
  obtain ⟨⟨pc', m'⟩, hr, rfl⟩ := Option.map_eq_some_iff.mp hs
  rcases consume_consumed hr with ⟨i, hi, hpc, hconsumed⟩ | ⟨hpc, hconsumed⟩
  · refine iff_of_false (fun hc' => ?_) fun h => h i hi hpc
    have hzero : m'.consumed = 0 := hc'.consumed
    omega
  · refine iff_of_true ⟨hc.exit, hconsumed.trans hc.consumed⟩ fun i _ => hpc i

theorem clean_step {s s' : State} {e : Event} (hc : Clean s)
    (hs : s.step nitems nthreads e = some s') : Clean s' ↔ Good nitems nthreads s e := by
  cases e with
  | spurious =>
    rw [← Option.some.inj hs]
    exact iff_of_true ⟨hc.exit, hc.consumed⟩ trivial
  | run t =>
    cases t with
    | produce i =>
      obtain ⟨hi, hs⟩ := Option.ite_none_right_eq_some.mp hs
      rw [clean_produce hc hs]
      exact ⟨fun h _ => h, fun h => h hi⟩
    | consume => exact clean_consume hc hs

/-- A step that is not good can be taken. -/
theorem good_of_stuck {s : State} {e : Event}
    (h : ∀ s', ¬ (program nitems nthreads).step s e s') : Good nitems nthreads s e := by
  have hnone : ¬ (s.step nitems nthreads e).isSome = true := by
    rw [Option.isSome_iff_exists]
    exact not_exists.mpr h
  cases e with
  | spurious => trivial
  | run t =>
    cases t with
    | produce i =>
      intro hi htest
      refine absurd ?_ hnone
      rw [State.step, if_pos hi, State.stepProduce, htest]
      rfl
    | consume =>
      intro i hi hpc
      apply hnone
      rw [State.step, State.stepConsume, hpc, Consume.step, if_pos hi]
      rfl

/-- **In every run the mutexes and the counter are in order exactly as long as no producer finds
`put.nput >= nitems` and the consumer does not take an item.** -/
theorem always_law_iff (nitems : Int) (nthreads : Nat) (es : List Event) :
    (program nitems nthreads).Always es Law ↔
      (program nitems nthreads).Along es (Good nitems nthreads) := by
  apply System.always_iff_along
  · rintro s ⟨count, rfl⟩
    exact (law_iff_clean (inv_start count)).mpr ⟨nofun, rfl⟩
  · intro s e s' hr hlaw hs
    have hinv := inv hr
    rw [law_iff_clean (inv_step hinv hs)]
    exact clean_step ((law_iff_clean hinv).mp hlaw) hs
  · exact fun s e h => good_of_stuck h

/-- One producer puts the only item and comes back. -/
def oneItem : List Event := List.replicate 14 (.run (.produce 0))

theorem run_oneItem {s : State}
    (h : oneItem.foldlM (State.step 1 1) (start fun _ => 0) = some s) :
    (program 1 1).Run oneItem s := by
  have hstart : (program 1 1).Run [] (start fun _ => 0) := .start ⟨_, rfl⟩
  exact hstart.exec (State.step 1 1) (fun _ _ _ h => h) oneItem h

/-- It finds the item put, and locks `put.mutex`, which it has. -/
theorem not_always_law : ¬ ∀ nitems nthreads es s, (program nitems nthreads).Run es s →
    Law s := by
  intro hall
  obtain ⟨s, hs⟩ : ∃ s, oneItem.foldlM (State.step 1 1) (start fun _ => 0) = some s := ⟨_, rfl⟩
  have hpc : (oneItem.foldlM (State.step 1 1) (start fun _ => 0)).map
    (fun s => s.threads (.produce 0)) = some .lockReturn := rfl
  have hown : (oneItem.foldlM (State.step 1 1) (start fun _ => 0)).map
    (fun s => s.shared.put.mutex) = some (some (.produce 0)) := rfl
  rw [hs] at hpc hown
  exact (hall 1 1 oneItem s (run_oneItem hs)).lockPut (.produce 0)
    (Or.inr (Option.some.inj hpc)) (Option.some.inj hown)

end StudyDoc.NReady
