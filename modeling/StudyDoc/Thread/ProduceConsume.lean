import StudyDoc.Lib.Guarded
import StudyDoc.Lib.Transition
import Mathlib.Algebra.BigOperators.Group.Finset.Basic
import Mathlib.Tactic.Common

/-!
# Section 7.4: `produce`, `consume_wait` and `consume` over `shared`

`main` starts `nthreads` producers and then the consumer, and joins them in that order.  Any thread
may take the next step; a step is one statement.  `shared` is consistent while its mutex is free,
and nobody takes an item back, so what the consumer saw under the mutex holds when it reads
`buf[i]` without:

    nobody owns the mutex → nput = nval ≤ nitems and buf[j] = j for j < nput
    the consumer reads buf[i] → i < nput, and buf[i] = i
    nput = sum of count[i] + items put and not counted yet                  (reachable_tally)

With no producer at all nothing is ever put, and all of them have returned.
-/

namespace StudyDoc.ProduceConsume

open Transition Guarded

/-! ## Algorithm -/

def MAXNITEM : Nat := 1000000

inductive Thread where
  | main
  /-- Runs `produce` with `arg = &count[i]`. -/
  | produce (i : Nat)
  | consume
  deriving DecidableEq

/-- The next statement of `produce`. -/
inductive Produce where
  | lock
  | test
  | unlockReturn
  | store
  | incNput
  | incNval
  | unlock
  | count
  | returned
  deriving DecidableEq

/-- The next statement of `consume` with its `i`, or of the `consume_wait(i)` it calls. -/
inductive Consume where
  | loop (i : Nat)
  | lock (i : Nat)
  | test (i : Nat)
  | unlockReturn (i : Nat)
  | unlock (i : Nat)
  /-- `if(shared.buf[i] != i)` -/
  | compare (i : Nat)
  | printf (i : Nat)
  | returned
  deriving DecidableEq

inductive Main where
  | create (i : Nat)
  | createConsume
  | join (i : Nat)
  | joinConsume
  | returned
  deriving DecidableEq

abbrev Thread.Pc : Thread → Type
  | main => Main
  | produce _ => Produce
  | consume => Consume

structure Shared where
  mutex : Option Thread
  buf : Nat → Nat
  nput : Nat
  nval : Nat

structure State where
  /-- `none`: not created yet. -/
  threads : ∀ t : Thread, Option t.Pc
  shared : Shared
  count : Nat → Nat

/-- `shared` is static and so zero; `count` of `main` has no value yet. -/
def start (count : Nat → Nat) : State where
  threads
    | .main => some (.create 0)
    | .produce _ => none
    | .consume => none
  shared := ⟨none, fun _ => 0, 0, 0⟩
  count := count

def Shared.lock (m : Shared) (t : Thread) : Option Shared :=
  if m.mutex = none then some { m with mutex := some t } else none

def Shared.unlock (m : Shared) : Shared := { m with mutex := none }

/-- One statement of `produce` in the thread `produce i`; `arg` is `*arg`.  A store behind the end
of `buf` is undefined. -/
def Produce.step (nitems i : Nat) (m : Shared) (arg : Nat) :
    Produce → Option (Produce × Shared × Nat)
  | lock => (m.lock (.produce i)).map fun m' => (test, m', arg)
  | test => some (if m.nput ≥ nitems then unlockReturn else store, m, arg)
  | unlockReturn => some (returned, m.unlock, arg)
  | store =>
    if m.nput < MAXNITEM then
      some (incNput, { m with buf := Function.update m.buf m.nput m.nval }, arg)
    else none
  | incNput => some (incNval, { m with nput := m.nput + 1 }, arg)
  | incNval => some (unlock, { m with nval := m.nval + 1 }, arg)
  | unlock => some (count, m.unlock, arg)
  | count => some (lock, m, arg + 1)
  | returned => none

/-- One statement of `consume`.  A read behind the end of `buf` is undefined. -/
def Consume.step (nitems : Nat) (m : Shared) : Consume → Option (Consume × Shared)
  | loop i => some (if i < nitems then lock i else returned, m)
  | lock i => (m.lock .consume).map fun m' => (test i, m')
  | test i => some (if i < m.nput then unlockReturn i else unlock i, m)
  | unlockReturn i => some (compare i, m.unlock)
  | unlock i => some (lock i, m.unlock)
  | compare i =>
    if i < MAXNITEM then some (if m.buf i ≠ i then printf i else loop (i + 1), m) else none
  | printf i => some (loop (i + 1), m)
  | returned => none

namespace State

def goto (s : State) (t : Thread) (pc : t.Pc) : State :=
  { s with threads := Function.update s.threads t (some pc) }

section

variable (s : State) (t : Thread) (pc : t.Pc)

@[simp] theorem goto_self : (s.goto t pc).threads t = some pc := by
  unfold goto
  exact Function.update_self t (some pc) s.threads

theorem goto_of_ne {u : Thread} (hu : u ≠ t) : (s.goto t pc).threads u = s.threads u := by
  unfold goto
  exact Function.update_of_ne hu (some pc) s.threads

@[simp] theorem goto_shared : (s.goto t pc).shared = s.shared := rfl
@[simp] theorem goto_count : (s.goto t pc).count = s.count := rfl

end

/-- `pthread_create` succeeds; `pthread_join` waits. -/
def stepMain (nthreads : Nat) (s : State) : Main → Option State
  | .create i =>
    if i < nthreads then
      some (({ s with count := Function.update s.count i 0 }.goto (.produce i) .lock).goto .main
        (.create (i + 1)))
    else some (s.goto .main .createConsume)
  | .createConsume => some ((s.goto .consume (.loop 0)).goto .main (.join 0))
  | .join i =>
    if i < nthreads then
      if s.threads (.produce i) = some .returned then some (s.goto .main (.join (i + 1))) else none
    else some (s.goto .main .joinConsume)
  | .joinConsume =>
    if s.threads .consume = some .returned then some (s.goto .main .returned) else none
  | .returned => none

def stepProduce (nitems i : Nat) (s : State) (pc : Produce) : Option State :=
  (pc.step nitems i s.shared (s.count i)).map fun r =>
    { s with shared := r.2.1, count := Function.update s.count i r.2.2 }.goto (.produce i) r.1

def stepConsume (nitems : Nat) (s : State) (pc : Consume) : Option State :=
  (pc.step nitems s.shared).map fun r => { s with shared := r.2 }.goto .consume r.1

/-- The thread `t` takes its next step. -/
def step (nitems nthreads : Nat) (s : State) : Thread → Option State
  | .main => (s.threads .main).bind (s.stepMain nthreads)
  | .produce i => (s.threads (.produce i)).bind (s.stepProduce nitems i)
  | .consume => (s.threads .consume).bind (s.stepConsume nitems)

end State

def program (nitems nthreads : Nat) : System State Thread where
  init s := ∃ count, s = start count
  step s t s' := s.step nitems nthreads t = some s'

/-! ## What the threads know of `shared` -/

/-- `a` items are stored and not in `nput` yet, `b` are in `nput` and not in `nval` yet. -/
structure Filled (nitems a b : Nat) (m : Shared) : Prop where
  buf : ∀ j < m.nput + a, m.buf j = j
  nval : m.nput = m.nval + b
  nput : m.nput + a ≤ nitems

def Produce.inside : Produce → Bool
  | lock | count | returned => false
  | test | unlockReturn | store | incNput | incNval | unlock => true

def Produce.Knows (nitems : Nat) : Produce → Shared → Prop
  | lock, _ | count, _ => True
  | test, m | unlock, m => Filled nitems 0 0 m
  | unlockReturn, m => Filled nitems 0 0 m ∧ nitems ≤ m.nput
  | store, m => Filled nitems 0 0 m ∧ m.nput < nitems
  | incNput, m => Filled nitems 1 0 m
  | incNval, m => Filled nitems 0 1 m
  | returned, m => nitems ≤ m.nput

def Consume.inside : Consume → Bool
  | loop _ | lock _ | compare _ | printf _ | returned => false
  | test _ | unlockReturn _ | unlock _ => true

def Consume.Knows (nitems : Nat) : Consume → Shared → Prop
  | loop _, _ | lock _, _ | returned, _ => True
  | test _, m | unlock _, m => Filled nitems 0 0 m
  | unlockReturn i, m => Filled nitems 0 0 m ∧ i < m.nput
  | compare i, m => i < m.nput ∧ m.buf i = i
  | printf _, _ => False

def inside : ∀ t : Thread, Option t.Pc → Bool
  | .main, _ => false
  | .produce _, pc => pc.any Produce.inside
  | .consume, pc => pc.any Consume.inside

def Knows (nitems : Nat) : ∀ t : Thread, Option t.Pc → Shared → Prop
  | .main, _, _ => True
  | .produce _, pc, m => ∀ l : Produce, pc = some l → l.Knows nitems m
  | .consume, pc, m => ∀ l : Consume, pc = some l → l.Knows nitems m

/-- No item is taken back. -/
structure Grows (m m' : Shared) : Prop where
  nput : m.nput ≤ m'.nput
  buf : ∀ j < m.nput, m'.buf j = m.buf j

theorem knows_stable {nitems : Nat} {t : Thread} {pc : Option t.Pc} {m m' : Shared}
    (ho : inside t pc = false) (hg : Grows m m') (hk : Knows nitems t pc m) :
    Knows nitems t pc m' := by
  cases t with
  | main => trivial
  | produce i =>
    rintro l rfl
    have hl := hk l rfl
    cases l with
    | lock | count => trivial
    | returned => exact Nat.le_trans hl hg.nput
    | test | unlockReturn | store | incNput | incNval | unlock => cases ho
  | consume =>
    rintro l rfl
    have hl := hk l rfl
    cases l with
    | loop i | lock i | returned => trivial
    | printf i => exact hl
    | compare i => exact ⟨Nat.lt_of_lt_of_le hl.1 hg.nput, (hg.buf i hl.1).trans hl.2⟩
    | test i | unlockReturn i | unlock i => cases ho

def protocol (nitems : Nat) : Protocol Thread Shared fun t => Option t.Pc where
  owner := Shared.mutex
  inside := inside
  knows := Knows nitems
  resource := Filled nitems 0 0
  guarantee := Grows
  stable := knows_stable

/-! ### One statement of a thread -/

variable {nitems nthreads : Nat} {m m' : Shared}

theorem lock_eq_some_iff {t : Thread} :
    m.lock t = some m' ↔ m.mutex = none ∧ m' = { m with mutex := some t } := by
  unfold Shared.lock
  exact guard_iff

theorem grows_of_eq (hn : m'.nput = m.nput) (hb : m'.buf = m.buf) : Grows m m' where
  nput := Nat.le_of_eq hn.symm
  buf j _ := congrFun hb j

theorem knows_produce {i : Nat} {pc : Produce} (h : pc.Knows nitems m) :
    Knows nitems (.produce i) (some pc) m := by
  intro l hl
  rw [← Option.some.inj hl]
  exact h

theorem knows_consume {pc : Consume} (h : pc.Knows nitems m) :
    Knows nitems .consume (some pc) m := by
  intro l hl
  rw [← Option.some.inj hl]
  exact h

/-- `Filled` says nothing of the mutex. -/
theorem Filled.mutex {a b : Nat} (h : Filled nitems a b m) (o : Option Thread) :
    Filled nitems a b { m with mutex := o } := ⟨h.buf, h.nval, h.nput⟩

theorem Filled.store (h : Filled nitems 0 0 m) (hlt : m.nput < nitems) :
    Filled nitems 1 0 { m with buf := Function.update m.buf m.nput m.nval } where
  buf j hj := by
    show Function.update m.buf m.nput m.nval j = j
    have hnval : m.nput = m.nval := h.nval
    by_cases hjn : j = m.nput
    · rw [hjn, Function.update_self]
      exact hnval.symm
    · rw [Function.update_of_ne hjn]
      have hj' : j < m.nput + 1 := hj
      exact h.buf j (by omega)
  nval := h.nval
  nput := hlt

theorem Filled.incNput (h : Filled nitems 1 0 m) :
    Filled nitems 0 1 { m with nput := m.nput + 1 } where
  buf := h.buf
  nval := congrArg (· + 1) h.nval
  nput := h.nput

theorem Filled.incNval (h : Filled nitems 0 1 m) :
    Filled nitems 0 0 { m with nval := m.nval + 1 } where
  buf := h.buf
  nval := h.nval
  nput := h.nput

/-- Items in `nput` that the thread has not counted yet. -/
def Produce.inflight : Produce → Nat
  | incNval | unlock | count => 1
  | lock | test | unlockReturn | store | incNput | returned => 0

theorem produce_step {i c c' : Nat} {pc pc' : Produce}
    (hs : pc.step nitems i m c = some (pc', m', c')) (hk : pc.Knows nitems m)
    (hown : m.mutex = some (.produce i) ↔ pc.inside = true)
    (hfree : m.mutex = none → Filled nitems 0 0 m) :
    (protocol nitems).Step (.produce i) (some pc) m (some pc') m' ∧
      m'.nput + (c + pc.inflight) = m.nput + (c' + pc'.inflight) := by
  cases pc with
  | lock =>
    obtain ⟨m1, hm1, heq⟩ := Option.map_eq_some_iff.mp hs
    obtain ⟨hnone, rfl⟩ := lock_eq_some_iff.mp hm1
    cases heq
    exact ⟨.into (Or.inl hnone) (grows_of_eq rfl rfl) rfl rfl
      (knows_produce ((hfree hnone).mutex _)), rfl⟩
  | test =>
    have hm := hown.mpr rfl
    by_cases hfull : m.nput ≥ nitems
    · rw [Produce.step, if_pos hfull] at hs
      cases hs
      exact ⟨.into (Or.inr hm) (grows_of_eq rfl rfl) hm rfl (knows_produce ⟨hk, hfull⟩), rfl⟩
    · rw [Produce.step, if_neg hfull] at hs
      cases hs
      have hlt : m.nput < nitems := by omega
      exact ⟨.into (Or.inr hm) (grows_of_eq rfl rfl) hm rfl (knows_produce ⟨hk, hlt⟩), rfl⟩
  | unlockReturn =>
    cases hs
    exact ⟨.leave (hown.mpr rfl) (grows_of_eq rfl rfl) rfl rfl (hk.1.mutex none)
      (knows_produce hk.2), rfl⟩
  | store =>
    have hm := hown.mpr rfl
    obtain ⟨-, hs⟩ := Option.ite_none_right_eq_some.mp hs
    cases hs
    have hg : Grows m { m with buf := Function.update m.buf m.nput m.nval } :=
      ⟨Nat.le_refl _, fun j hj => Function.update_of_ne (Nat.ne_of_lt hj) _ _⟩
    exact ⟨.into (Or.inr hm) hg hm rfl (knows_produce (hk.1.store hk.2)), rfl⟩
  | incNput =>
    have hm := hown.mpr rfl
    cases hs
    have hg : Grows m { m with nput := m.nput + 1 } := ⟨Nat.le_succ _, fun _ _ => rfl⟩
    refine ⟨.into (Or.inr hm) hg hm rfl (knows_produce hk.incNput), ?_⟩
    show m.nput + 1 + (c + 0) = m.nput + (c + 1)
    omega
  | incNval =>
    have hm := hown.mpr rfl
    cases hs
    exact ⟨.into (Or.inr hm) (grows_of_eq rfl rfl) hm rfl (knows_produce hk.incNval), rfl⟩
  | unlock =>
    cases hs
    exact ⟨.leave (hown.mpr rfl) (grows_of_eq rfl rfl) rfl rfl (hk.mutex none)
      (knows_produce trivial), rfl⟩
  | count =>
    cases hs
    exact ⟨.outside rfl rfl (knows_produce trivial), rfl⟩
  | returned => cases hs

theorem consume_step {pc pc' : Consume} (hs : pc.step nitems m = some (pc', m'))
    (hk : pc.Knows nitems m) (hown : m.mutex = some .consume ↔ pc.inside = true)
    (hfree : m.mutex = none → Filled nitems 0 0 m) :
    (protocol nitems).Step .consume (some pc) m (some pc') m' ∧ m'.nput = m.nput := by
  cases pc with
  | loop i =>
    by_cases hi : i < nitems
    · rw [Consume.step, if_pos hi] at hs
      cases hs
      exact ⟨.outside rfl rfl (knows_consume trivial), rfl⟩
    · rw [Consume.step, if_neg hi] at hs
      cases hs
      exact ⟨.outside rfl rfl (knows_consume trivial), rfl⟩
  | lock i =>
    obtain ⟨m1, hm1, heq⟩ := Option.map_eq_some_iff.mp hs
    obtain ⟨hnone, rfl⟩ := lock_eq_some_iff.mp hm1
    cases heq
    exact ⟨.into (Or.inl hnone) (grows_of_eq rfl rfl) rfl rfl
      (knows_consume ((hfree hnone).mutex _)), rfl⟩
  | test i =>
    have hm := hown.mpr rfl
    by_cases hi : i < m.nput
    · rw [Consume.step, if_pos hi] at hs
      cases hs
      exact ⟨.into (Or.inr hm) (grows_of_eq rfl rfl) hm rfl (knows_consume ⟨hk, hi⟩), rfl⟩
    · rw [Consume.step, if_neg hi] at hs
      cases hs
      exact ⟨.into (Or.inr hm) (grows_of_eq rfl rfl) hm rfl (knows_consume hk), rfl⟩
  | unlockReturn i =>
    cases hs
    exact ⟨.leave (hown.mpr rfl) (grows_of_eq rfl rfl) rfl rfl (hk.1.mutex none)
      (knows_consume ⟨hk.2, hk.1.buf i hk.2⟩), rfl⟩
  | unlock i =>
    cases hs
    exact ⟨.leave (hown.mpr rfl) (grows_of_eq rfl rfl) rfl rfl (hk.mutex none)
      (knows_consume trivial), rfl⟩
  | compare i =>
    obtain ⟨-, hs⟩ := Option.ite_none_right_eq_some.mp hs
    rw [if_neg (not_not.mpr hk.2)] at hs
    cases hs
    exact ⟨.outside rfl rfl (knows_consume trivial), rfl⟩
  | printf i => exact hk.elim
  | returned => cases hs

/-! ### One step of the program -/

/-- The threads that `main` has still to create. -/
def Main.Ahead : Main → Thread → Prop
  | create k, .produce i => k ≤ i
  | create _, .consume => True
  | createConsume, .consume => True
  | _, _ => False

/-- What the producer `i` has put. -/
def State.tally (s : State) (i : Nat) : Nat :=
  match s.threads (.produce i) with
  | none => 0
  | some pc => s.count i + pc.inflight

structure Inv (nitems nthreads : Nat) (s : State) : Prop where
  shared : (protocol nitems).Inv s.threads s.shared
  ahead : ∀ pc t, s.threads .main = some pc → pc.Ahead t → s.threads t = none
  producers : ∀ i, nthreads ≤ i → s.threads (.produce i) = none
  tally : ∑ i ∈ Finset.range nthreads, s.tally i = s.shared.nput

theorem sum_range_add_eq {n i : Nat} {f g : Nat → Nat} (hi : i < n) (hfg : ∀ j, j ≠ i → g j = f j) :
    (∑ j ∈ Finset.range n, g j) + f i = (∑ j ∈ Finset.range n, f j) + g i := by
  have hmem : i ∈ Finset.range n := Finset.mem_range.mpr hi
  rw [← Finset.add_sum_erase _ g hmem, ← Finset.add_sum_erase _ f hmem]
  have hrest : ∑ j ∈ (Finset.range n).erase i, g j = ∑ j ∈ (Finset.range n).erase i, f j :=
    Finset.sum_congr rfl fun j hj => hfg j (Finset.ne_of_mem_erase hj)
  omega

theorem Inv.owner_iff {s : State} (h : Inv nitems nthreads s) {t : Thread} {pc : t.Pc}
    (hpc : s.threads t = some pc) : s.shared.mutex = some t ↔ inside t (some pc) = true := by
  have hown := h.shared.owner t
  rw [hpc] at hown
  exact hown

/-- A thread other than `main` moves on. -/
theorem Inv.move {s : State} (h : Inv nitems nthreads s) {t : Thread} (ht0 : t ≠ .main)
    {pc pc' : t.Pc} {count : Nat → Nat} (hpc : s.threads t = some pc)
    (hstep : (protocol nitems).Step t (some pc) s.shared (some pc') m')
    (htally : ∑ i ∈ Finset.range nthreads,
      State.tally ({ s with shared := m', count := count }.goto t pc') i = m'.nput) :
    Inv nitems nthreads ({ s with shared := m', count := count }.goto t pc') := by
  rw [← hpc] at hstep
  refine ⟨h.shared.step hstep, fun main u hmain hu => ?_, fun j hj => ?_, htally⟩
  · rw [State.goto_of_ne _ _ _ (Ne.symm ht0)] at hmain
    have hnone := h.ahead main u hmain hu
    have hut : u ≠ t := by
      rintro rfl
      rw [hnone] at hpc
      cases hpc
    rw [State.goto_of_ne _ _ _ hut]
    exact hnone
  · have hnone := h.producers j hj
    have hjt : Thread.produce j ≠ t := by
      rintro rfl
      rw [hnone] at hpc
      cases hpc
    rw [State.goto_of_ne _ _ _ hjt]
    exact hnone

theorem tally_some {s : State} {i : Nat} {pc : Produce} (h : s.threads (.produce i) = some pc) :
    s.tally i = s.count i + pc.inflight := by
  unfold State.tally
  rw [h]

theorem tally_congr {s s' : State} {i : Nat} (ht : s'.threads (.produce i) = s.threads (.produce i))
    (hc : s'.count i = s.count i) : s'.tally i = s.tally i := by
  unfold State.tally
  rw [ht, hc]

theorem inv_stepProduce {s s' : State} {i : Nat} {pc : Produce} (h : Inv nitems nthreads s)
    (hpc : s.threads (.produce i) = some pc) (hs : s.stepProduce nitems i pc = some s') :
    Inv nitems nthreads s' := by
  obtain ⟨⟨pc', m', c'⟩, hr, rfl⟩ := Option.map_eq_some_iff.mp hs
  have hk : pc.Knows nitems s.shared := h.shared.knows (.produce i) pc hpc
  obtain ⟨hstep, hnput⟩ := produce_step hr hk (h.owner_iff hpc) h.shared.free
  refine h.move (by simp) hpc hstep ?_
  have hi : i < nthreads := by
    apply Classical.byContradiction
    intro hge
    rw [h.producers i (Nat.le_of_not_lt hge)] at hpc
    cases hpc
  have hother : ∀ j, j ≠ i → (State.goto { s with
      shared := m', count := Function.update s.count i c' } (.produce i) pc').tally j =
      s.tally j := by
    intro j hj
    exact tally_congr (State.goto_of_ne _ _ _ (by simpa using hj)) (Function.update_of_ne hj ..)
  have hsum := sum_range_add_eq hi hother
  have hself : (State.goto { s with
      shared := m', count := Function.update s.count i c' } (.produce i) pc').tally i =
      c' + pc'.inflight := by
    rw [tally_some (State.goto_self _ (.produce i) pc')]
    show Function.update s.count i c' i + _ = _
    rw [Function.update_self]
  rw [h.tally, tally_some hpc, hself] at hsum
  dsimp only
  omega

theorem inv_stepConsume {s s' : State} {pc : Consume} (h : Inv nitems nthreads s)
    (hpc : s.threads .consume = some pc) (hs : s.stepConsume nitems pc = some s') :
    Inv nitems nthreads s' := by
  obtain ⟨⟨pc', m'⟩, hr, rfl⟩ := Option.map_eq_some_iff.mp hs
  have hk : pc.Knows nitems s.shared := h.shared.knows .consume pc hpc
  obtain ⟨hstep, hnput⟩ := consume_step hr hk (h.owner_iff hpc) h.shared.free
  refine h.move (by simp) hpc hstep ?_
  rw [hnput, ← h.tally]
  exact Finset.sum_congr rfl fun j _ => tally_congr (State.goto_of_ne _ _ _ (by simp)) rfl

/-- `main` moves on, and no further thread is left to create. -/
theorem Inv.goto_main {s : State} (h : Inv nitems nthreads s) {pc pc' : Main}
    (hpc : s.threads .main = some pc) (hle : ∀ t, pc'.Ahead t → pc.Ahead t) :
    Inv nitems nthreads (s.goto .main pc') := by
  refine ⟨h.shared.step (.outside rfl rfl trivial), fun pc1 t hpc1 ht => ?_, fun j hj => ?_, ?_⟩
  · obtain rfl := Option.some.inj ((s.goto_self .main pc').symm.trans hpc1)
    have ht0 : t ≠ .main := by
      rintro rfl
      cases pc' <;> exact ht
    rw [s.goto_of_ne .main pc' ht0]
    exact h.ahead pc t hpc (hle t ht)
  · rw [s.goto_of_ne .main pc' (by simp)]
    exact h.producers j hj
  · rw [State.goto_shared, ← h.tally]
    exact Finset.sum_congr rfl fun j _ => tally_congr (s.goto_of_ne .main pc' (by simp)) rfl

/-- `main` creates the thread `t`, the next one. -/
theorem Inv.create {s : State} (h : Inv nitems nthreads s) {pc pc' : Main} {t : Thread} {l : t.Pc}
    {count : Nat → Nat} (hpc : s.threads .main = some pc) (ht0 : t ≠ .main) (ht : pc.Ahead t)
    (hle : ∀ u, pc'.Ahead u → pc.Ahead u ∧ u ≠ t) (hout : inside t (some l) = false)
    (hk : Knows nitems t (some l) s.shared) (hi : ∀ i, t = .produce i → i < nthreads)
    (htally : ∀ i,
      State.tally (({ s with count := count }.goto t l).goto .main pc') i = s.tally i) :
    Inv nitems nthreads (({ s with count := count }.goto t l).goto .main pc') := by
  have hnone := h.ahead pc t hpc ht
  have hout0 : inside t (s.threads t) = false := by
    rw [hnone]
    cases t <;> rfl
  have hcreated : (protocol nitems).Inv (Function.update s.threads t (some l)) s.shared :=
    h.shared.step (.outside hout0 hout hk)
  refine ⟨hcreated.step (.outside rfl rfl trivial), fun pc1 u hpc1 hu => ?_, fun j hj => ?_, ?_⟩
  · obtain rfl := Option.some.inj ((State.goto_self _ .main pc').symm.trans hpc1)
    obtain ⟨hu1, hut⟩ := hle u hu
    have hu0 : u ≠ .main := by
      rintro rfl
      cases pc <;> exact hu1
    rw [State.goto_of_ne _ _ _ hu0, State.goto_of_ne _ _ _ hut]
    exact h.ahead pc u hpc hu1
  · have hjt : Thread.produce j ≠ t := by
      rintro rfl
      exact absurd (hi j rfl) (by omega)
    rw [State.goto_of_ne _ _ _ (by simp), State.goto_of_ne _ _ _ hjt]
    exact h.producers j hj
  · show _ = s.shared.nput
    rw [← h.tally]
    exact Finset.sum_congr rfl fun j _ => htally j

theorem ahead_create {i : Nat} {u : Thread} (hu : (Main.create (i + 1)).Ahead u) :
    (Main.create i).Ahead u ∧ u ≠ .produce i := by
  cases u with
  | main => exact hu.elim
  | consume => exact ⟨trivial, by simp⟩
  | produce j =>
    have hij : i + 1 ≤ j := hu
    refine ⟨Nat.le_of_succ_le hij, ?_⟩
    rintro ⟨⟩
    omega

/-- A thread that was just created has put nothing. -/
theorem tally_create {s : State} {i : Nat} (hnone : s.threads (.produce i) = none) (pc : Main)
    (j : Nat) : State.tally (({ s with count := Function.update s.count i 0 }.goto
      (.produce i) .lock).goto .main pc) j = s.tally j := by
  by_cases hj : j = i
  · subst hj
    unfold State.tally
    rw [State.goto_of_ne _ _ _ (by simp), State.goto_self, hnone]
    simp [Produce.inflight]
  · refine tally_congr ?_ (Function.update_of_ne hj ..)
    rw [State.goto_of_ne _ _ _ (by simp), State.goto_of_ne _ _ _ (by simpa using hj)]

theorem inv_stepMain {s s' : State} {pc : Main} (h : Inv nitems nthreads s)
    (hpc : s.threads .main = some pc) (hs : s.stepMain nthreads pc = some s') :
    Inv nitems nthreads s' := by
  cases pc with
  | create i =>
    by_cases hi : i < nthreads
    · rw [State.stepMain, if_pos hi] at hs
      obtain rfl := Option.some.inj hs
      have hahead : (Main.create i).Ahead (.produce i) := Nat.le_refl i
      refine h.create hpc (by simp) hahead (fun u hu => ahead_create hu) rfl
        (knows_produce trivial) ?_ (tally_create (h.ahead _ _ hpc hahead) _)
      rintro j ⟨⟩
      exact hi
    · rw [State.stepMain, if_neg hi] at hs
      obtain rfl := Option.some.inj hs
      refine h.goto_main hpc fun u hu => ?_
      cases u with
      | consume => trivial
      | main | produce j => exact hu.elim
  | createConsume =>
    obtain rfl := Option.some.inj hs
    refine h.create hpc (by simp) trivial ?_ rfl (knows_consume trivial) (by simp) fun j => ?_
    · intro u hu
      cases u <;> exact hu.elim
    · refine tally_congr ?_ rfl
      rw [State.goto_of_ne _ _ _ (by simp), State.goto_of_ne _ _ _ (by simp)]
  | join i =>
    by_cases hi : i < nthreads
    · rw [State.stepMain, if_pos hi] at hs
      obtain ⟨-, hs⟩ := Option.ite_none_right_eq_some.mp hs
      obtain rfl := Option.some.inj hs
      exact h.goto_main hpc fun u hu => by cases u <;> exact hu.elim
    · rw [State.stepMain, if_neg hi] at hs
      obtain rfl := Option.some.inj hs
      exact h.goto_main hpc fun u hu => by cases u <;> exact hu.elim
  | joinConsume =>
    obtain ⟨-, hs⟩ := Option.ite_none_right_eq_some.mp hs
    obtain rfl := Option.some.inj hs
    exact h.goto_main hpc fun u hu => by cases u <;> exact hu.elim
  | returned => cases hs

theorem inv_step {s s' : State} {t : Thread} (h : Inv nitems nthreads s)
    (hs : s.step nitems nthreads t = some s') : Inv nitems nthreads s' := by
  cases t with
  | main =>
    obtain ⟨pc, hpc, hs⟩ := Option.bind_eq_some_iff.mp hs
    exact inv_stepMain h hpc hs
  | produce i =>
    obtain ⟨pc, hpc, hs⟩ := Option.bind_eq_some_iff.mp hs
    exact inv_stepProduce h hpc hs
  | consume =>
    obtain ⟨pc, hpc, hs⟩ := Option.bind_eq_some_iff.mp hs
    exact inv_stepConsume h hpc hs

theorem inv_start (count : Nat → Nat) : Inv nitems nthreads (start count) where
  shared := by
    refine ⟨fun t => ?_, fun _ => ⟨fun j hj => ?_, rfl, Nat.zero_le _⟩, fun t => ?_⟩
    · cases t <;> simp [protocol, start, inside]
    · exact absurd hj (Nat.not_lt_zero j)
    · cases t with
      | main => trivial
      | produce i => rintro l ⟨⟩
      | consume => rintro l ⟨⟩
  ahead := by
    rintro pc t hpc ht
    obtain rfl := Option.some.inj hpc
    cases t with
    | main => exact ht.elim
    | produce i => rfl
    | consume => rfl
  producers _ _ := rfl
  tally := Finset.sum_eq_zero fun _ _ => rfl

/-! ### Every run -/

theorem inv {s : State} (h : (program nitems nthreads).Reachable s) : Inv nitems nthreads s := by
  apply h.invariant
  · rintro s ⟨count, rfl⟩
    exact inv_start count
  · intro s t s' _ hi hs
    exact inv_step hi hs

theorem nput_le_of_inside {t : Thread} {pc : Option t.Pc} (hin : inside t pc = true)
    (hk : Knows nitems t pc m) : m.nput ≤ nitems := by
  cases t with
  | main => cases hin
  | produce i =>
    cases pc with
    | none => cases hin
    | some l =>
      have hl := hk l rfl
      cases l with
      | lock | count | returned => cases hin
      | test | unlock => exact hl.nput
      | unlockReturn | store => exact hl.1.nput
      | incNput => exact Nat.le_of_succ_le hl.nput
      | incNval => exact hl.nput
  | consume =>
    cases pc with
    | none => cases hin
    | some l =>
      have hl := hk l rfl
      cases l with
      | loop i | lock i | compare i | printf i | returned => cases hin
      | test i | unlock i => exact hl.nput
      | unlockReturn i => exact hl.1.nput

theorem nput_le {s : State} (h : (program nitems nthreads).Reachable s) :
    s.shared.nput ≤ nitems := by
  cases hm : s.shared.mutex with
  | none => exact ((inv h).shared.free hm).nput
  | some t => exact nput_le_of_inside (((inv h).shared.owner t).mp hm) ((inv h).shared.knows t)

theorem reachable_tally {s : State} (h : (program nitems nthreads).Reachable s) :
    ∑ i ∈ Finset.range nthreads, s.tally i = s.shared.nput :=
  (inv h).tally

/-- No access behind the end of `buf`. -/
theorem in_bounds {s : State} (hmax : nitems ≤ MAXNITEM)
    (h : (program nitems nthreads).Reachable s) :
    (∀ i, s.threads (.produce i) = some .store → s.shared.nput < MAXNITEM) ∧
      ∀ i, s.threads .consume = some (.compare i) → i < MAXNITEM := by
  constructor
  · intro i hpc
    have hk : Filled nitems 0 0 s.shared ∧ s.shared.nput < nitems :=
      (inv h).shared.knows (.produce i) .store hpc
    exact Nat.lt_of_lt_of_le hk.2 hmax
  · intro i hpc
    have hk : i < s.shared.nput ∧ s.shared.buf i = i :=
      (inv h).shared.knows .consume (.compare i) hpc
    have hle := nput_le h
    omega

/-! ## Main result -/

def State.AllReturned (nthreads : Nat) (s : State) : Prop :=
  ∀ i < nthreads, s.threads (.produce i) = some .returned

/-- **Producers and consumer.**  With the mutex free `shared` is consistent; the consumer reads
`buf[i] = i` and never prints; once all producers have returned, all items are put and counted. -/
theorem produce_consume {s : State} (h : (program nitems nthreads).Reachable s) :
    (s.shared.mutex = none → s.shared.nput = s.shared.nval ∧ s.shared.nput ≤ nitems ∧
        ∀ j < s.shared.nput, s.shared.buf j = j) ∧
      (∀ i, s.threads .consume = some (.compare i) → s.shared.buf i = i) ∧
      (∀ i, s.threads .consume ≠ some (.printf i)) ∧
      (0 < nthreads → s.AllReturned nthreads →
        s.shared.nput = nitems ∧ ∑ i ∈ Finset.range nthreads, s.count i = nitems) := by
  refine ⟨fun hm => ?_, fun i hpc => ?_, fun i hpc => ?_, fun hpos hret => ?_⟩
  · have hfilled : Filled nitems 0 0 s.shared := (inv h).shared.free hm
    exact ⟨hfilled.nval, hfilled.nput, hfilled.buf⟩
  · have hk : i < s.shared.nput ∧ s.shared.buf i = i :=
      (inv h).shared.knows .consume (.compare i) hpc
    exact hk.2
  · exact (inv h).shared.knows .consume (.printf i) hpc
  · have hfull : nitems ≤ s.shared.nput :=
      (inv h).shared.knows (.produce 0) .returned (hret 0 hpos)
    have hnput : s.shared.nput = nitems := Nat.le_antisymm (nput_le h) hfull
    have hcount : ∑ i ∈ Finset.range nthreads, s.count i =
        ∑ i ∈ Finset.range nthreads, s.tally i :=
      Finset.sum_congr rfl fun i hi => (tally_some (hret i (Finset.mem_range.mp hi))).symm
    exact ⟨hnput, by rw [hcount, reachable_tally h, hnput]⟩

/-- `main` creates one producer and the consumer; the producer puts the only item, finds `shared`
full and returns. -/
def oneProducer : Option State :=
  (.main :: .main :: .main :: List.replicate 10 (.produce 0)).foldlM (State.step 1 1)
    (start fun _ => 0)

/-- `main` has joined all producers: there are none. -/
def noProducer : Option State :=
  [.main, .main, .main].foldlM (State.step 1 0) (start fun _ => 0)

theorem reachable_of_run {s : State} {ts : List Thread}
    (h : ts.foldlM (State.step nitems nthreads) (start fun _ => 0) = some s) :
    (program nitems nthreads).Reachable s :=
  have hrun : (program nitems nthreads).Run [] (start fun _ => 0) := .start ⟨_, rfl⟩
  ⟨_, hrun.exec (State.step nitems nthreads) (fun _ _ _ hs => hs) ts h⟩

theorem produce_consume_oneProducer : ∃ s, oneProducer = some s ∧
    (s.shared.mutex = none → s.shared.nput = s.shared.nval ∧ s.shared.nput ≤ 1 ∧
        ∀ j < s.shared.nput, s.shared.buf j = j) ∧
      (∀ i, s.threads .consume = some (.compare i) → s.shared.buf i = i) ∧
      (∀ i, s.threads .consume ≠ some (.printf i)) ∧ s.AllReturned 1 ∧
      s.shared.nput = 1 ∧ ∑ i ∈ Finset.range 1, s.count i = 1 := by
  obtain ⟨s, hs⟩ : ∃ s, oneProducer = some s := ⟨_, rfl⟩
  have hret : s.AllReturned 1 := by
    have hall : oneProducer.map (fun s => s.threads (.produce 0)) = some (some .returned) := rfl
    rw [hs] at hall
    intro i hi
    obtain rfl : i = 0 := by omega
    exact Option.some.inj hall
  obtain ⟨hfree, hread, hprint, hall⟩ := produce_consume (reachable_of_run hs)
  exact ⟨s, hs, hfree, hread, hprint, hret, hall Nat.one_pos hret⟩

/-- With no producer at all, all have returned and nothing is put. -/
theorem not_produce_consume : ¬ ∀ (nitems nthreads : Nat) (s : State), nitems ≤ MAXNITEM →
    (program nitems nthreads).Reachable s → s.AllReturned nthreads →
      s.shared.nput = nitems ∧ ∑ i ∈ Finset.range nthreads, s.count i = nitems := by
  intro hall
  obtain ⟨s, hs⟩ : ∃ s, noProducer = some s := ⟨_, rfl⟩
  have hnput : noProducer.map (fun s => s.shared.nput) = some 0 := rfl
  rw [hs] at hnput
  have hzero : s.shared.nput = 0 := Option.some.inj hnput
  have hone := (hall 1 0 s (by decide) (reachable_of_run hs) fun i hi => by omega).1
  omega

end StudyDoc.ProduceConsume
