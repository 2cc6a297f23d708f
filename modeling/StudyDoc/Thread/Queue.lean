import StudyDoc.Lib.Monitor
import Mathlib.Algebra.BigOperators.Group.Finset.Piecewise
import Mathlib.Data.Fintype.Basic
import Mathlib.Tactic.Common

/-!
# `queue.cc`: the blocking queue

`prog` is `dequeue` and `enqueue` as a monitor program, one point for each statement on the
shared `queue`.  Any number of threads call either method any number of times.  A run's labels
give its history: `pushed`, `popped` and what each thread's calls returned.

    pushed tr = popped tr ++ queue                                       (run_fifo)
    a thread sleeps → queue.length ≤ credit of all threads               (reachable_covered)

A thread that was woken, or is about to take an item or to signal one, is a credit of 1.
-/

namespace StudyDoc.Queue

open Monitor Transition

/-! ## Algorithm -/

inductive Point where
  | idle
  /-- `dequeue` -/
  | lock
  | testEmpty
  | condWait
  | front
  | popFront (top : Int32)
  | unLock (top : Int32)
  | returnTop (top : Int32)
  /-- `enqueue` -/
  | lockFor (x : Int32)
  | pushBack (x : Int32)
  | notify
  | unLockPushed
  | returnPushed

inductive Method where
  | dequeue
  | enqueue (x : Int32)

/-- `front` and `pop_front` of an empty `deque` are undefined. -/
def prog : Point → Instr Unit Unit (List Int32) Method Point
  | .idle => .call fun
    | .dequeue => .lock
    | .enqueue x => .lockFor x
  | .lock => .lock () .testEmpty
  | .testEmpty => .act fun queue => some (queue, if queue.isEmpty then .condWait else .front)
  | .condWait => .wait () () .testEmpty
  | .front => .act fun queue => queue.head?.map fun top => (queue, .popFront top)
  | .popFront top => .act fun
    | [] => none
    | _ :: queue => some (queue, .unLock top)
  | .unLock top => .unlock () (.returnTop top)
  | .returnTop _ => .act fun queue => some (queue, .idle)
  | .lockFor x => .lock () (.pushBack x)
  | .pushBack x => .act fun queue => some (queue ++ [x], .notify)
  | .notify => .signal () .unLockPushed
  | .unLockPushed => .unlock () .returnPushed
  | .returnPushed => .act fun queue => some (queue, .idle)

section

variable {T : Type} [DecidableEq T]

abbrev State (T : Type) := Config Unit Unit (List Int32) Point T
abbrev Event (T : Type) := Label Method Point T

def threads (T : Type) [DecidableEq T] : System (State T) (Event T) := system T prog .idle []

/-- The values pushed, in the order of the pushes. -/
def pushed (tr : List (Event T)) : List Int32 :=
  tr.filterMap fun
    | .exec _ (.pushBack x) => some x
    | _ => none

/-- The values of `top`, in the order of the pops. -/
def popped (tr : List (Event T)) : List Int32 :=
  tr.filterMap fun
    | .exec _ (.popFront top) => some top
    | _ => none

def poppedBy (t : T) (tr : List (Event T)) : List Int32 :=
  tr.filterMap fun
    | .exec u (.popFront top) => if u = t then some top else none
    | _ => none

/-- What the calls of thread `t` returned, in order. -/
def returnedBy (t : T) (tr : List (Event T)) : List Int32 :=
  tr.filterMap fun
    | .exec u (.returnTop top) => if u = t then some top else none
    | _ => none

/-! ## The outline -/

/-- Between `mutex.lock` and `mutex.unLock`. -/
def Point.inside : Point → Bool
  | idle | lock | returnTop _ | lockFor _ | returnPushed => false
  | testEmpty | condWait | front | popFront _ | unLock _ => true
  | pushBack _ | notify | unLockPushed => true

def held (l : Point) (_ : Unit) : Prop := l.inside = true

theorem disciplined : Disciplined prog held := by
  intro l
  cases l <;> simp [DisciplinedAt, prog, held, Point.inside]
  case idle => intro k; cases k <;> rfl
  case testEmpty =>
    intro queue
    by_cases hq : queue = [] <;> simp [hq]
  case front =>
    rintro queue _ _ top - - rfl
    rfl
  case popFront =>
    intro queue _ _ h
    cases queue with
    | nil => cases h
    | cons _ _ =>
      cases h
      rfl

/-- What a thread knows of the queue. -/
def Known : Point → List Int32 → Prop
  | .condWait, queue => queue = []
  | .front, queue => queue ≠ []
  | .popFront top, queue => queue.head? = some top
  | _, _ => True

theorem outlined : Outlined prog .idle held () Known := by
  constructor
  case rest => intro d; trivial
  case known => intro l; cases l <;> simp [held, Point.inside, Known]
  case instr =>
    intro l
    cases l <;> simp [OutlinedAt, prog, Known, held, Point.inside]
    case idle => intro k _; cases k <;> trivial
    case testEmpty =>
      intro queue
      by_cases hq : queue = [] <;> simp [hq]
    case front =>
      rintro queue _ _ top htop rfl rfl -
      exact htop
    case popFront =>
      intro queue _ _ h _
      cases queue with
      | nil => cases h
      | cons _ _ =>
        cases h
        trivial

theorem idle_holds_nothing : ∀ m, ¬ held .idle m := by
  intro m h
  cases h

theorem reachable_lock {s : State T} (h : (threads T).Reachable s) : LockInv held s :=
  reachable_lockInv disciplined idle_holds_nothing h

theorem reachable_known {s : State T} (h : (threads T).Reachable s) : OutlineInv Known s :=
  reachable_outline disciplined idle_holds_nothing outlined h

/-! ## First in, first out -/

theorem after_queue {l : Point} {queue queue' : List Int32} {st : Status Unit Unit Point}
    (h : (prog l).after queue = some (queue', st)) :
    queue' = match l with
      | .pushBack x => queue ++ [x]
      | .popFront _ => queue.tail
      | _ => queue := by
  cases l <;> simp only [Instr.after, prog] at h
  case idle => cases h
  case front =>
    cases queue with
    | nil => cases h
    | cons top queue => exact (Prod.mk.inj (Option.some.inj h)).1.symm
  case popFront =>
    cases queue with
    | nil => cases h
    | cons top queue => exact (Prod.mk.inj (Option.some.inj h)).1.symm
  all_goals exact (Prod.mk.inj (Option.some.inj h)).1.symm

/-- What a step does to the queue. -/
theorem step_queue {s s' : State T} {e : Event T} (h : Step prog s e s') :
    s'.data = match e with
      | .exec _ (.pushBack x) => s.data ++ [x]
      | .exec _ (.popFront _) => s.data.tail
      | _ => s.data := by
  have hdata := step_data h
  cases e with
  | exec t l =>
    obtain ⟨st, hafter⟩ := hdata
    rw [after_queue hafter]
    cases l <;> rfl
  | _ => exact hdata

/-- What was pushed is what was popped, and then what is still queued. -/
theorem run_fifo {tr : List (Event T)} {s : State T} (h : (threads T).Run tr s) :
    pushed tr = popped tr ++ s.data := by
  refine h.invariant (I := fun tr s => pushed tr = popped tr ++ s.data) (fun s hs => ?_)
    (fun tr s e s' hr hi hs => ?_)
  · rw [hs.data]
    rfl
  · have hq := step_queue hs
    unfold pushed popped at hi ⊢
    rw [List.filterMap_append, List.filterMap_append, hi]
    cases e with
    | call t k => simp [hq]
    | spurious t => simp [hq]
    | relock t => simp [hq]
    | exec t l =>
      cases l with
      | popFront top =>
        have ht : s.status t = .running (.popFront top) := (step_effect hs).1
        have hknown : s.data.head? = some top := reachable_known ⟨tr, hr⟩ t _ ht
        obtain ⟨queue, hqueue⟩ := List.head?_eq_some_iff.mp hknown
        rw [hqueue] at hq ⊢
        simp [hq]
      | _ => simp [hq]

/-! ## What a call returns -/

/-- The value a thread has popped and not returned. -/
def inHand : Status Unit Unit Point → List Int32
  | .running (.unLock top) | .running (.returnTop top) => [top]
  | _ => []

/-- An instruction of `t` itself. -/
theorem exec_inHand {l : Point} {queue queue' : List Int32} {st : Status Unit Unit Point}
    (h : (prog l).after queue = some (queue', st)) (t : T) :
    inHand (.running l) ++ poppedBy t [.exec t l] = returnedBy t [.exec t l] ++ inHand st := by
  cases l <;> simp only [Instr.after, prog] at h
  case idle => cases h
  case testEmpty =>
    obtain ⟨-, rfl⟩ := Prod.mk.inj (Option.some.inj h)
    show [] = inHand (.running (if queue.isEmpty then .condWait else .front))
    split <;> rfl
  case front =>
    cases queue with
    | nil => cases h
    | cons top queue =>
      obtain ⟨-, rfl⟩ := Prod.mk.inj (Option.some.inj h)
      rfl
  case popFront top =>
    cases queue with
    | nil => cases h
    | cons _ queue =>
      obtain ⟨-, rfl⟩ := Prod.mk.inj (Option.some.inj h)
      simp [inHand, poppedBy, returnedBy]
  all_goals
    obtain ⟨-, rfl⟩ := Prod.mk.inj (Option.some.inj h)
    simp [inHand, poppedBy, returnedBy]

/-- A step of another thread. -/
theorem other_inHand {s s' : State T} {e : Event T} (h : Step prog s e s') {t : T}
    (ht : t ≠ e.thread) :
    inHand (s'.status t) = inHand (s.status t) ∧ poppedBy t [e] = [] ∧ returnedBy t [e] = [] := by
  refine ⟨?_, ?_, ?_⟩
  · rcases step_other h ht with hs' | ⟨c, m, k, hasleep, hwoken⟩
    · rw [hs']
    · rw [hasleep, hwoken]
      rfl
  · cases e with
    | exec u l =>
      have hu : u ≠ t := Ne.symm ht
      cases l <;> simp [poppedBy, hu]
    | _ => rfl
  · cases e with
    | exec u l =>
      have hu : u ≠ t := Ne.symm ht
      cases l <;> simp [returnedBy, hu]
    | _ => rfl

/-- One step of any thread, as `t` sees it. -/
theorem step_inHand {s s' : State T} {e : Event T} (hp : ∀ t, ParkedAt prog (s.status t))
    (h : Step prog s e s') (t : T) :
    inHand (s.status t) ++ poppedBy t [e] = returnedBy t [e] ++ inHand (s'.status t) := by
  by_cases ht : t = e.thread
  · have he := step_effect h
    cases e with
    | call u k =>
      obtain ⟨l, enter, hu, hl, -, hu'⟩ := he
      obtain rfl : t = u := ht
      cases l <;> cases hl
      rw [hu, hu']
      cases k <;> rfl
    | spurious u =>
      obtain ⟨c, m, k, hu, -, hu'⟩ := he
      obtain rfl : t = u := ht
      rw [hu, hu']
      rfl
    | relock u =>
      obtain ⟨m, k, hu, -, hu'⟩ := he
      obtain rfl : t = u := ht
      have hpt := hp t
      rw [hu] at hpt
      obtain ⟨c, l, hl⟩ := hpt
      cases l <;> cases hl
      rw [hu, hu']
      rfl
    | exec u l =>
      obtain ⟨hu, he⟩ := he
      obtain rfl : t = u := ht
      rw [hu]
      exact exec_inHand he t
  · obtain ⟨hsame, hpop, hret⟩ := other_inHand h ht
    rw [hsame, hpop, hret, List.append_nil, List.nil_append]

/-- A thread returns what it popped, in that order. -/
theorem run_returned {tr : List (Event T)} {s : State T} (h : (threads T).Run tr s) (t : T) :
    poppedBy t tr = returnedBy t tr ++ inHand (s.status t) := by
  refine h.invariant (I := fun tr s => poppedBy t tr = returnedBy t tr ++ inHand (s.status t))
    (fun s hs => ?_) (fun tr s e s' hr hi hs => ?_)
  · rw [hs.status t]
    rfl
  · have hstep := step_inHand (reachable_parked ⟨tr, hr⟩) hs t
    unfold poppedBy returnedBy at hi hstep ⊢
    rw [List.filterMap_append, List.filterMap_append, hi, List.append_assoc, List.append_assoc,
      hstep]

/-- **First in, first out.**  What is popped is a prefix of what was pushed and the rest is
still queued; each call returns the value it popped; `front` and `pop_front` never meet an
empty queue. -/
theorem dequeue_fifo {tr : List (Event T)} {s : State T} (h : (threads T).Run tr s) :
    popped tr <+: pushed tr ∧ pushed tr = popped tr ++ s.data ∧
    (∀ t, poppedBy t tr = returnedBy t tr ++ inHand (s.status t)) ∧
    (∀ t, s.status t = .running .front → s.data ≠ []) ∧
    (∀ t top, s.status t = .running (.popFront top) → s.data.head? = some top) := by
  have hknown : OutlineInv Known s := reachable_known ⟨tr, h⟩
  refine ⟨?_, run_fifo h, run_returned h, ?_, ?_⟩
  · rw [run_fifo h]
    exact List.prefix_append _ _
  · intro t ht
    exact hknown t _ ht
  · intro t top ht
    exact hknown t _ ht

/-- Two items from one thread, the first of which another one has taken. -/
theorem dequeue_fifo_twoItems : ∃ (tr : List (Event Bool)) (s : State Bool),
    pushed tr = [3, 5] ∧ returnedBy true tr = [3] ∧ s.data = [5] ∧
    popped tr <+: pushed tr ∧ pushed tr = popped tr ++ s.data := by
  have r : (threads Bool).Run [] ⟨fun _ => none, [], fun _ => .running .idle⟩ :=
    .start ⟨fun _ => rfl, rfl, fun _ => rfl⟩
  have r := r.next (.call (t := false) (.enqueue 3) rfl rfl)
  have r := r.next (.lock (t := false) rfl rfl rfl)
  have r := r.next (.act (t := false) rfl rfl rfl)
  have r := r.next (.signalNone (t := false) rfl rfl nofun)
  have r := r.next (.unlock (t := false) rfl rfl rfl)
  have r := r.next (.act (t := false) rfl rfl rfl)
  have r := r.next (.call (t := false) (.enqueue 5) rfl rfl)
  have r := r.next (.lock (t := false) rfl rfl rfl)
  have r := r.next (.act (t := false) rfl rfl rfl)
  have r := r.next (.signalNone (t := false) rfl rfl nofun)
  have r := r.next (.unlock (t := false) rfl rfl rfl)
  have r := r.next (.call (t := true) .dequeue rfl rfl)
  have r := r.next (.lock (t := true) rfl rfl rfl)
  have r := r.next (.act (t := true) rfl rfl rfl)
  have r := r.next (.act (t := true) rfl rfl rfl)
  have r := r.next (.act (t := true) rfl rfl rfl)
  have r := r.next (.unlock (t := true) rfl rfl rfl)
  have r := r.next (.act (t := true) rfl rfl rfl)
  exact ⟨_, _, rfl, rfl, rfl, (dequeue_fifo r).1, (dequeue_fifo r).2.1⟩

/-! ## Wakeups -/

/-- A thread that will test the queue, take an item or signal for one. -/
def credit : Status Unit Unit Point → Nat
  | .woken _ _ => 1
  | .running .testEmpty | .running .front | .running (.popFront _) | .running .notify => 1
  | _ => 0

variable [Fintype T]

def Covered (s : State T) : Prop := Asleep s → s.data.length ≤ s.total credit

/-- Thread `t` goes on to `l` and leaves `queue`. -/
theorem Covered.goto {s : State T} (h : Covered s) {t : T} {l : Point} {queue : List Int32}
    (hle : queue.length + credit (s.status t) ≤ s.data.length + credit (.running l)) :
    Covered (Config.set { s with data := queue } t (.running l)) := by
  intro hasleep
  have hs : Asleep s := Asleep.of_set (s := { s with data := queue }) (by nofun) hasleep
  have hlen : s.data.length ≤ s.total credit := h hs
  have htotal : (s.set t (.running l)).total credit + credit (s.status t) =
    s.total credit + credit (.running l) := Config.total_set credit s t (.running l)
  show queue.length ≤ (s.set t (.running l)).total credit
  omega

omit [DecidableEq T] in
theorem Covered.of_nil {s : State T} (h : s.data = []) : Covered s := by
  intro _
  rw [h]
  exact Nat.zero_le _

/-- One item more comes with one signal more; a taker takes its item along. -/
theorem act_covered {s : State T} (h : Covered s) (hknown : OutlineInv Known s) {t : T}
    {l next : Point} {f : List Int32 → Option (List Int32 × Point)} {queue : List Int32}
    (ht : s.status t = .running l) (hl : prog l = .act f) (hf : f s.data = some (queue, next)) :
    Covered (Config.set { s with data := queue } t (.running next)) := by
  cases l <;> cases hl
  case testEmpty =>
    obtain ⟨rfl, hnext⟩ := Prod.mk.inj (Option.some.inj hf)
    by_cases hq : s.data = []
    · exact Covered.of_nil hq
    · obtain rfl : next = .front := by simpa [hq] using hnext.symm
      apply h.goto
      rw [ht]
      exact Nat.le_refl _
  case front =>
    obtain ⟨top, -, hnext⟩ := Option.map_eq_some_iff.mp hf
    obtain ⟨rfl, rfl⟩ := Prod.mk.inj hnext
    apply h.goto
    rw [ht]
    exact Nat.le_refl _
  case popFront top =>
    have hhead : s.data.head? = some top := hknown t _ ht
    obtain ⟨rest, hrest⟩ := List.head?_eq_some_iff.mp hhead
    rw [hrest] at hf
    obtain ⟨rfl, rfl⟩ := Prod.mk.inj (Option.some.inj hf)
    apply h.goto
    rw [ht, hrest, List.length_cons]
    simp only [credit]
    omega
  case pushBack x =>
    obtain ⟨rfl, rfl⟩ := Prod.mk.inj (Option.some.inj hf)
    apply h.goto
    rw [ht, List.length_append]
    simp only [credit, List.length_singleton]
    omega
  all_goals
    obtain ⟨rfl, rfl⟩ := Prod.mk.inj (Option.some.inj hf)
    apply h.goto
    rw [ht]
    exact Nat.le_refl _

theorem step_covered {s s' : State T} {e : Event T} (hp : ∀ t, ParkedAt prog (s.status t))
    (hknown : OutlineInv Known s) (hs : Step prog s e s') (h : Covered s) : Covered s' := by
  cases hs with
  | @call t l enter k ht hl =>
    cases l <;> cases hl
    apply h.goto
    rw [ht]
    exact Nat.add_le_add_left (Nat.zero_le _) _
  | @lock t l m next ht hl _ =>
    apply h.goto
    rw [ht]
    cases l <;> cases hl <;> exact Nat.add_le_add_left (Nat.zero_le _) _
  | @unlock t l m next ht hl _ =>
    apply h.goto
    rw [ht]
    cases l <;> cases hl <;> exact Nat.le_refl _
  | @wait t l c m next ht hl _ =>
    -- only an empty queue sends a thread to sleep
    cases l <;> cases hl
    have hnil : s.data = [] := hknown t _ ht
    exact Covered.of_nil hnil
  | @signal t l c next u m k ht hl hu =>
    intro _
    have hut : u ≠ t := fun e => by
      rw [e, ht] at hu
      cases hu
    have hlen : s.data.length ≤ s.total credit := h ⟨u, c, m, k, hu⟩
    have h1 := Config.total_set credit s t (.running next)
    have h2 := Config.total_set credit (s.set t (.running next)) u (.woken m k)
    have hu' : (s.set t (.running next)).status u = .asleep c m k := by simp [hut, hu]
    rw [ht] at h1
    rw [hu'] at h2
    cases l <;> cases hl
    simp only [credit] at h1 h2
    show s.data.length ≤ _
    omega
  | @signalNone t l c next ht hl hnone =>
    intro hasleep
    have hs : Asleep s := hasleep.of_set (by nofun)
    obtain ⟨u, c, m, k, hu⟩ := hs
    exact absurd hu (hnone u m k)
  | @broadcast t l c next ht hl => cases l <;> cases hl
  | act ht hl hf => exact act_covered h hknown ht hl hf
  | @spurious t c m k ht =>
    intro _
    have hlen : s.data.length ≤ s.total credit := h ⟨t, c, m, k, ht⟩
    have htotal := Config.total_set credit s t (.woken m k)
    rw [ht] at htotal
    simp only [credit] at htotal
    show s.data.length ≤ _
    omega
  | @relock t m k ht _ =>
    have hpt := hp t
    rw [ht] at hpt
    obtain ⟨c, l, hl⟩ := hpt
    apply h.goto
    rw [ht]
    cases l <;> cases hl
    exact Nat.le_refl _

theorem reachable_covered {s : State T} (h : (threads T).Reachable s) : Covered s :=
  h.invariant (I := Covered) (fun _ (hs : Start .idle [] _) => Covered.of_nil hs.data)
    (fun _ _ _ hr hi hs => step_covered (reachable_parked hr) (reachable_known hr) hs hi)

/-- Woken, and `queue.empty()` not tested again yet. -/
def isWoken : Status Unit Unit Point → Bool
  | .woken _ _ => true
  | _ => false

def wokenThreads (s : State T) : Finset T := Finset.univ.filter fun t => isWoken (s.status t)

theorem credit_outside {l : Point} (h : l.inside = false) : credit (.running l) = 0 := by
  cases l <;> first | rfl | cases h

/-- While the mutex is free only woken threads count. -/
theorem total_credit_of_free {s : State T} (h : (threads T).Reachable s)
    (hfree : s.owner () = none) : s.total credit = (wokenThreads s).card := by
  have hpoint : ∀ t, credit (s.status t) = if isWoken (s.status t) then 1 else 0 := by
    intro t
    have hlock := reachable_lock h t ()
    rw [hfree] at hlock
    cases hst : s.status t with
    | asleep c m k => rfl
    | woken m k => rfl
    | running l =>
      rw [hst] at hlock
      apply credit_outside
      exact Bool.eq_false_iff.mpr fun hl => nomatch hlock.mp hl
  unfold Config.total wokenThreads
  rw [Finset.card_filter]
  exact Finset.sum_congr rfl fun t _ => hpoint t

/-- **No lost wakeup.**  While some thread sleeps unsignalled and the mutex is free, the woken
threads are at least as many as the queued items; so someone is woken, or inside, whenever
there is an item and a sleeper. -/
theorem sleeper_covered {s : State T} (h : (threads T).Reachable s) (hasleep : Asleep s) :
    (s.owner () = none → s.data.length ≤ (wokenThreads s).card) ∧
    (s.data ≠ [] → (∃ t, s.owner () = some t) ∨ (wokenThreads s).Nonempty) := by
  have hfree : s.owner () = none → s.data.length ≤ (wokenThreads s).card := by
    intro hfree
    rw [← total_credit_of_free h hfree]
    exact reachable_covered h hasleep
  refine ⟨hfree, ?_⟩
  intro hq
  cases howner : s.owner () with
  | some t => exact Or.inl ⟨t, rfl⟩
  | none =>
    right
    apply Finset.card_pos.mp
    have hlen := List.length_pos_iff.mpr hq
    have := hfree howner
    omega

/-- Two sleepers, one item: one of them is woken for it. -/
theorem sleeper_covered_twoConsumers : ∃ s : State (Fin 3), Asleep s ∧ s.owner () = none ∧
    s.data = [3] ∧ s.data.length ≤ (wokenThreads s).card ∧
    ((∃ t, s.owner () = some t) ∨ (wokenThreads s).Nonempty) := by
  have r : (threads (Fin 3)).Run [] ⟨fun _ => none, [], fun _ => .running .idle⟩ :=
    .start ⟨fun _ => rfl, rfl, fun _ => rfl⟩
  have r := r.next (.call (t := 0) .dequeue rfl rfl)
  have r := r.next (.lock (t := 0) rfl rfl rfl)
  have r := r.next (.act (t := 0) rfl rfl rfl)
  have r := r.next (.wait (t := 0) rfl rfl rfl)
  have r := r.next (.call (t := 1) .dequeue rfl rfl)
  have r := r.next (.lock (t := 1) rfl rfl rfl)
  have r := r.next (.act (t := 1) rfl rfl rfl)
  have r := r.next (.wait (t := 1) rfl rfl rfl)
  have r := r.next (.call (t := 2) (.enqueue 3) rfl rfl)
  have r := r.next (.lock (t := 2) rfl rfl rfl)
  have r := r.next (.act (t := 2) rfl rfl rfl)
  have r := r.next (.signal (t := 2) (u := 1) rfl rfl rfl)
  have r := r.next (.unlock (t := 2) rfl rfl rfl)
  have hasleep := sleeper_covered ⟨_, r⟩ ⟨0, (), (), .testEmpty, rfl⟩
  exact ⟨_, ⟨0, (), (), .testEmpty, rfl⟩, rfl, rfl, hasleep.1 rfl, hasleep.2 nofun⟩

end

end StudyDoc.Queue
