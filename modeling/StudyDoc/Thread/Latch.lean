import StudyDoc.Lib.Monitor
import Mathlib.Tactic.Common

/-!
# `countDownLatch.cc`: the count-down latch

`prog` is `wait`, `countDOwn` and `getCount` of one `CountDownLatch` as a monitor program over
`count_`.  The broadcast comes only with the step to exactly zero, so the two facts a latch is
for rest on `count_` never going up and on who may sleep at which count:

    count_ = n - decrements tr                                           (run_count)
    a thread is out of its loop → count_ ≤ 0                             (reachable_opened)
    a thread sleeps → 0 < count_, or a broadcast is on its way           (reachable_watched)
-/

namespace StudyDoc.Latch

open Monitor Transition

/-! ## Algorithm -/

inductive Point where
  | idle
  /-- `wait` -/
  | lock
  | testCount
  | condWait
  | unlock
  | returnWait
  /-- `countDOwn` -/
  | lockDown
  | decrement
  | testZero
  | notifyAll
  | unlockDown
  | returnDown
  /-- `getCount` -/
  | lockGet
  | readCount
  | unlockGet (count : Int)
  | returnCount (count : Int)

inductive Method where
  | wait
  | countDOwn
  | getCount

def INT_MIN : Int := -2 ^ 31

/-- The guard takes the mutex first and gives it back at the end of the body.  `--count_` at
`INT_MIN` is undefined. -/
def prog : Point → Instr Unit Unit Int Method Point
  | .idle => .call fun
    | .wait => .lock
    | .countDOwn => .lockDown
    | .getCount => .lockGet
  | .lock => .lock () .testCount
  | .testCount => .act fun count => some (count, if count > 0 then .condWait else .unlock)
  | .condWait => .wait () () .testCount
  | .unlock => .unlock () .returnWait
  | .returnWait => .act fun count => some (count, .idle)
  | .lockDown => .lock () .decrement
  | .decrement => .act fun count => if count = INT_MIN then none else some (count - 1, .testZero)
  | .testZero => .act fun count => some (count, if count = 0 then .notifyAll else .unlockDown)
  | .notifyAll => .broadcast () .unlockDown
  | .unlockDown => .unlock () .returnDown
  | .returnDown => .act fun count => some (count, .idle)
  | .lockGet => .lock () .readCount
  | .readCount => .act fun count => some (count, .unlockGet count)
  | .unlockGet count => .unlock () (.returnCount count)
  | .returnCount _ => .act fun count => some (count, .idle)

section

variable {T : Type} [DecidableEq T] {n : Int}

abbrev State (T : Type) := Config Unit Unit Int Point T
abbrev Event (T : Type) := Label Method Point T

/-- Threads on one `CountDownLatch(n)`. -/
def threads (T : Type) [DecidableEq T] (n : Int) : System (State T) (Event T) :=
  system T prog .idle n

def isDecrement : Event T → Bool
  | .exec _ .decrement => true
  | _ => false

/-- How many calls of `countDOwn` have decremented the count. -/
def decrements (tr : List (Event T)) : Nat := tr.countP isDecrement

/-! ## The outline -/

/-- The scope of the guard. -/
def Point.inside : Point → Bool
  | idle | lock | returnWait | lockDown | returnDown | lockGet | returnCount _ => false
  | testCount | condWait | unlock => true
  | decrement | testZero | notifyAll | unlockDown => true
  | readCount | unlockGet _ => true

def held (l : Point) (_ : Unit) : Prop := l.inside = true

theorem disciplined : Disciplined prog held := by
  intro l
  cases l <;> simp [DisciplinedAt, prog, held, Point.inside]
  case idle => intro k; cases k <;> rfl
  case testCount =>
    intro count
    by_cases hc : 0 < count <;> simp [hc]
  case testZero =>
    intro count
    by_cases hc : count = 0 <;> simp [hc]

/-- What a thread knows of `count_`. -/
def Known : Point → Int → Prop
  | .condWait, count => 0 < count
  | _, _ => True

theorem outlined : Outlined prog .idle held () Known := by
  constructor
  case rest => intro d; trivial
  case known => intro l; cases l <;> simp [held, Point.inside, Known]
  case instr =>
    intro l
    cases l <;> simp [OutlinedAt, prog, Known, held, Point.inside]
    case idle => intro k _; cases k <;> trivial
    case testCount =>
      intro count
      by_cases hc : 0 < count <;> simp [hc]
    case testZero =>
      intro count
      by_cases hc : count = 0 <;> simp [hc]

theorem idle_holds_nothing : ∀ m, ¬ held .idle m := by
  intro m h
  cases h

theorem reachable_lock {s : State T} (h : (threads T n).Reachable s) : LockInv held s :=
  reachable_lockInv disciplined idle_holds_nothing h

theorem reachable_known {s : State T} (h : (threads T n).Reachable s) : OutlineInv Known s :=
  reachable_outline disciplined idle_holds_nothing outlined h

/-! ## The count -/

omit [DecidableEq T] in
theorem after_count {l : Point} {count count' : Int} {st : Status Unit Unit Point}
    (h : (prog l).after count = some (count', st)) (t : T) :
    count' = count - decrements [.exec t l] := by
  cases l <;> simp only [Instr.after, prog] at h
  case idle => cases h
  case decrement =>
    split at h
    · cases h
    · obtain ⟨rfl, -⟩ := Prod.mk.inj (Option.some.inj h)
      rfl
  all_goals
    obtain ⟨rfl, -⟩ := Prod.mk.inj (Option.some.inj h)
    exact (Int.sub_zero _).symm

theorem step_count {s s' : State T} {e : Event T} (h : Step prog s e s') :
    s'.data = s.data - decrements [e] := by
  have hdata := step_data h
  cases e with
  | exec t l =>
    obtain ⟨st, hafter⟩ := hdata
    exact after_count hafter t
  | _ =>
    rw [show s'.data = s.data from hdata]
    exact (Int.sub_zero _).symm

theorem run_count {tr : List (Event T)} {s : State T} (h : (threads T n).Run tr s) :
    s.data = n - decrements tr := by
  refine h.invariant (I := fun tr s => s.data = n - decrements tr)
    (fun s (hs : Start .idle n s) => ?_) (fun tr s e s' hr hi hs => ?_)
  · rw [hs.data]
    exact (Int.sub_zero _).symm
  · have hc := step_count hs
    unfold decrements at hi hc ⊢
    rw [List.countP_append]
    omega

/-! ## Who is through -/

/-- Out of the loop of `wait`. -/
def Point.through : Point → Bool
  | unlock | returnWait => true
  | _ => false

def Opened (s : State T) : Prop :=
  ∀ t l, s.status t = .running l → l.through = true → s.data ≤ 0

theorem after_through {l next : Point} {count count' : Int}
    (h : (prog l).after count = some (count', .running next)) (hnext : next.through = true) :
    count' ≤ 0 ∨ l.through = true := by
  cases l <;> simp only [Instr.after, prog] at h
  case idle => cases h
  case condWait => cases h
  case testCount =>
    obtain ⟨rfl, hn⟩ := Prod.mk.inj (Option.some.inj h)
    left
    by_cases hc : count > 0
    · have hn' : Point.condWait = next := by simpa [hc] using hn
      rw [← hn'] at hnext
      cases hnext
    · omega
  case unlock => exact Or.inr rfl
  case returnWait => exact Or.inr rfl
  case testZero =>
    obtain ⟨rfl, hn⟩ := Prod.mk.inj (Option.some.inj h)
    by_cases hc : count = 0
    · exact Or.inl (Int.le_of_eq hc)
    · have hn' : Point.unlockDown = next := by simpa [hc] using hn
      rw [← hn'] at hnext
      cases hnext
  case decrement =>
    split at h
    · cases h
    · obtain ⟨-, hn⟩ := Prod.mk.inj (Option.some.inj h)
      cases hn
      cases hnext
  all_goals
    obtain ⟨-, hn⟩ := Prod.mk.inj (Option.some.inj h)
    cases hn
    cases hnext

theorem step_opened {s s' : State T} {e : Event T} (hp : ∀ t, ParkedAt prog (s.status t))
    (hs : Step prog s e s') (h : Opened s) : Opened s' := by
  intro t l ht hl
  have hcount := step_count hs
  rcases step_running hs ht with rfl | ht'
  · have he := step_effect hs
    cases e with
    | call t k =>
      obtain ⟨l', enter, -, hcall, -, hgo⟩ := he
      obtain rfl : l = enter k := Status.running.inj (ht.symm.trans hgo)
      cases l' <;> cases hcall
      cases k <;> cases hl
    | spurious t =>
      obtain ⟨_, _, _, -, -, hgo⟩ := he
      exact nomatch ht.symm.trans hgo
    | relock t =>
      obtain ⟨m, k, hwoken, -, hgo⟩ := he
      obtain rfl : l = k := Status.running.inj (ht.symm.trans hgo)
      have hpt := hp t
      rw [hwoken] at hpt
      obtain ⟨c, l', hwait⟩ := hpt
      cases l' <;> cases hwait
      cases hl
    | exec t l' =>
      obtain ⟨ht', hafter⟩ := he
      rw [show s'.status t = .running l from ht] at hafter
      rcases after_through hafter hl with hle | hl'
      · exact hle
      · have h0 := h t l' ht' hl'
        omega
  · have h0 := h t l ht' hl
    omega

theorem reachable_opened {s : State T} (h : (threads T n).Reachable s) : Opened s :=
  h.invariant (I := Opened)
    (fun s (hs : Start .idle n s) t l ht hl => by
      rw [hs.status t] at ht
      cases ht
      cases hl)
    (fun _ _ _ hr hi hs => step_opened (reachable_parked hr) hs hi)

/-! ## Who may sleep -/

/-- Between `--count_` and the broadcast it may call for. -/
def announcing : Status Unit Unit Point → Bool
  | .running .testZero | .running .notifyAll => true
  | _ => false

def Watched (s : State T) : Prop :=
  Asleep s → 0 < s.data ∨ s.data = 0 ∧ ∃ t, announcing (s.status t) = true

/-- `t` was not announcing and does not go to sleep. -/
theorem Watched.set {s : State T} (h : Watched s) {t : T} {st : Status Unit Unit Point}
    (ht : announcing (s.status t) = false) (hst : ∀ c m k, st ≠ .asleep c m k) :
    Watched (s.set t st) := by
  intro hasleep
  rcases h (hasleep.of_set hst) with hpos | ⟨hzero, u, hu⟩
  · exact Or.inl hpos
  · have hut : u ≠ t := fun e => by
      rw [e, ht] at hu
      cases hu
    exact Or.inr ⟨hzero, u, by simpa [hut] using hu⟩

theorem announcing_holds {st : Status Unit Unit Point} (h : announcing st = true) :
    st.Holds held () := by
  cases st with
  | running l => cases l <;> first | rfl | cases h
  | asleep c m k => cases h
  | woken m k => cases h

omit [DecidableEq T] in
/-- While `t` is about to decrement, a sleeper means a positive count. -/
theorem Watched.pos_of_decrement {s : State T} (h : Watched s) (hlock : LockInv held s) {t : T}
    (ht : s.status t = .running .decrement) (hasleep : Asleep s) : 0 < s.data := by
  rcases h hasleep with hpos | ⟨-, u, hu⟩
  · exact hpos
  · have hmine : s.owner () = some t := (hlock t ()).mp (by rw [ht]; rfl)
    have htheirs : s.owner () = some u := (hlock u ()).mp (announcing_holds hu)
    have hut : u = t := Option.some.inj (htheirs.symm.trans hmine)
    rw [hut, ht] at hu
    cases hu

theorem act_watched {s : State T} (h : Watched s) (hlock : LockInv held s) {t : T}
    {l next : Point} {f : Int → Option (Int × Point)} {count : Int}
    (ht : s.status t = .running l) (hl : prog l = .act f) (hf : f s.data = some (count, next)) :
    Watched (Config.set { s with data := count } t (.running next)) := by
  cases l <;> cases hl
  case decrement =>
    dsimp only at hf
    split at hf
    · cases hf
    · obtain ⟨rfl, rfl⟩ := Prod.mk.inj (Option.some.inj hf)
      intro hasleep
      have hpos : 0 < s.data := by
        apply h.pos_of_decrement hlock ht
        exact Asleep.of_set (s := { s with data := s.data - 1 }) (by nofun) hasleep
      show 0 < s.data - 1 ∨ s.data - 1 = 0 ∧ _
      by_cases hone : s.data = 1
      · right
        exact ⟨by omega, t, by simp [announcing]⟩
      · left
        omega
  case testZero =>
    obtain ⟨rfl, rfl⟩ := Prod.mk.inj (Option.some.inj hf)
    intro hasleep
    show 0 < s.data ∨ s.data = 0 ∧ _
    by_cases hzero : s.data = 0
    · right
      exact ⟨hzero, t, by simp [hzero, announcing]⟩
    · left
      rcases h (hasleep.of_set (by nofun)) with hpos | ⟨hzero', -⟩
      · exact hpos
      · exact absurd hzero' hzero
  all_goals
    obtain ⟨rfl, rfl⟩ := Prod.mk.inj (Option.some.inj hf)
    exact h.set (by rw [ht]; rfl) (by nofun)

theorem step_watched {s s' : State T} {e : Event T} (hlock : LockInv held s)
    (hknown : OutlineInv Known s) (hs : Step prog s e s') (h : Watched s) : Watched s' := by
  cases hs with
  | @call t l enter k ht hl =>
    cases l <;> cases hl
    exact h.set (by rw [ht]; rfl) (by nofun)
  | @lock t l m next ht hl _ =>
    have hset : Watched (s.set t (.running next)) := by
      apply h.set _ (by nofun)
      rw [ht]
      cases l <;> cases hl <;> rfl
    exact hset
  | @unlock t l m next ht hl _ =>
    have hset : Watched (s.set t (.running next)) := by
      apply h.set _ (by nofun)
      rw [ht]
      cases l <;> cases hl <;> rfl
    exact hset
  | @wait t l c m next ht hl _ =>
    cases l <;> cases hl
    have hpos : 0 < s.data := hknown t _ ht
    exact fun _ => Or.inl hpos
  | @signal t l c next u m k ht hl hu => cases l <;> cases hl
  | @signalNone t l c next ht hl hnone => cases l <;> cases hl
  | @broadcast t l c next ht hl =>
    -- there is one condition variable: the broadcast leaves no sleeper
    intro hasleep
    have hs : Asleep { s with status := fun u => (s.status u).wake c } :=
      Asleep.of_set (t := t) (by nofun) hasleep
    obtain ⟨u, c', m, k, hu⟩ := hs
    exact absurd rfl (Status.ne_of_wake_asleep hu)
  | act ht hl hf => exact act_watched h hlock ht hl hf
  | @spurious t c m k ht => exact h.set (by rw [ht]; rfl) (by nofun)
  | @relock t m k ht _ =>
    have hset : Watched (s.set t (.running k)) := h.set (by rw [ht]; rfl) (by nofun)
    exact hset

theorem reachable_watched {s : State T} (h : (threads T n).Reachable s) : Watched s :=
  h.invariant (I := Watched)
    (fun s (hs : Start .idle n s) ⟨t, c, m, k, ht⟩ => by
      rw [hs.status t] at ht
      cases ht)
    (fun _ _ _ hr hi hs => step_watched (reachable_lock hr) (reachable_known hr) hs hi)

/-- **The latch.**  No thread is out of the loop of `wait` before `max n 0` calls of `countDOwn`
have decremented the count, and none sleeps on unsignalled once the count is down and the
mutex free. -/
theorem latch_opens {tr : List (Event T)} {s : State T} (h : (threads T n).Run tr s) :
    (∀ t, s.status t = .running .unlock ∨ s.status t = .running .returnWait →
      max n 0 ≤ decrements tr) ∧
    (s.data ≤ 0 → s.owner () = none → ¬ Asleep s) := by
  have hr : (threads T n).Reachable s := ⟨tr, h⟩
  constructor
  · intro t ht
    have hle : s.data ≤ 0 := by
      rcases ht with ht | ht
      · exact reachable_opened hr t _ ht rfl
      · exact reachable_opened hr t _ ht rfl
    have hcount := run_count h
    omega
  · intro hle hfree hasleep
    rcases reachable_watched hr hasleep with hpos | ⟨-, t, ht⟩
    · omega
    · have howner : s.owner () = some t := (reachable_lock hr t ()).mp (announcing_holds ht)
      rw [hfree] at howner
      cases howner

/-- A waiter that slept, and the one `countDOwn` of a `CountDownLatch(1)`. -/
theorem latch_opens_afterOne : ∃ (tr : List (Event Bool)) (s : State Bool),
    s.status true = .running .returnWait ∧ max 1 0 ≤ (decrements tr : Int) ∧ s.data = 0 ∧
    s.owner () = none ∧ ¬ Asleep s := by
  have r : (threads Bool 1).Run [] ⟨fun _ => none, 1, fun _ => .running .idle⟩ :=
    .start ⟨fun _ => rfl, rfl, fun _ => rfl⟩
  have r := r.next (.call (t := true) .wait rfl rfl)
  have r := r.next (.lock (t := true) rfl rfl rfl)
  have r := r.next (.act (t := true) rfl rfl rfl)
  have r := r.next (.wait (t := true) rfl rfl rfl)
  have r := r.next (.call (t := false) .countDOwn rfl rfl)
  have r := r.next (.lock (t := false) rfl rfl rfl)
  have r := r.next (.act (t := false) rfl rfl rfl)
  have r := r.next (.act (t := false) rfl rfl rfl)
  have r := r.next (.broadcast (t := false) rfl rfl)
  have r := r.next (.unlock (t := false) rfl rfl rfl)
  have r := r.next (.relock (t := true) rfl rfl)
  have r := r.next (.act (t := true) rfl rfl rfl)
  have r := r.next (.unlock (t := true) rfl rfl rfl)
  have hopens := latch_opens r
  exact ⟨_, _, rfl, hopens.1 true (Or.inr rfl), rfl, rfl, hopens.2 (by decide) rfl⟩

end

end StudyDoc.Latch
