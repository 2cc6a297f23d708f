import StudyDoc.Lib.Transition
import Mathlib.Tactic.Common

/-!
# `Posix消息队列.md`, 5.6.3: `mq_notify`, `sigsuspend`, and one `mq_receive` per notification

Messages arrive, and a pending `SIGUSR1` is delivered, between any two steps of the program.  The
kernel notifies a registered process once, of a message that comes to an empty queue.  With `owed`
for the `mq_receive` that a notification has called for and that was not made yet (0 or 1),

    owed ≤ queue.length                                                            (Inv)
    queue.length = owed ↔ every message came to an empty queue and a registered program
                                                                       (Inv.step, exact_iff)

so what comes while a message is waiting is left in the queue, and the notifications end.
-/

namespace StudyDoc.MqNotify

open Transition

/-! ## Algorithm -/

abbrev Message := List UInt8

/-- Where `main` is. -/
inductive Pc where
  /-- Before the first `mq_notify`. -/
  | start
  | setmask
  | test
  /-- In `sigsuspend`. -/
  | suspended
  | clear
  | mq_notify
  | mq_receive
  /-- In `mq_receive`, which found no message. -/
  | receiving
  | printf (n : Nat)
  | unblock
  deriving DecidableEq

structure State where
  queue : List Message
  /-- The process gets the notification for the queue. -/
  registered : Bool
  pending : Bool
  /-- `SIGUSR1` is in the signal mask. -/
  blocked : Bool
  mqflag : Bool
  pc : Pc

inductive Event where
  | arrive (m : Message)
  | deliver
  | main

namespace State

/-- `mq_send` by another process.  A thread in `mq_receive` comes before any notification. -/
def arrive (s : State) (m : Message) : State :=
  if s.pc = .receiving then { s with pc := .printf m.length }
  else if s.queue = [] ∧ s.registered = true then
    { s with queue := [m], registered := false, pending := true }
  else { s with queue := s.queue ++ [m] }

/-- `sig_usr1` runs, and `sigsuspend` returns after it. -/
def deliver (s : State) : Option State :=
  if s.pending = true ∧ (s.pc = .suspended ∨ s.blocked = false) then
    some { s with
      pending := false
      mqflag := true
      pc := if s.pc = .suspended then .test else s.pc }
  else none

/-- `mq_notify(mqd, &sigev)`; where the process is registered, it fails. -/
def mq_notify (s : State) : State := { s with registered := true }

/-- `mq_receive(mqd, buff, attr.mq_msgsize, NULL)` -/
def mq_receive (s : State) : State :=
  match s.queue with
  | [] => { s with pc := .receiving }
  | m :: queue => { s with queue := queue, pc := .printf m.length }

/-- One step of `main`. -/
def main (s : State) : Option State :=
  match s.pc with
  | .start => some { s.mq_notify with pc := .setmask }
  | .setmask => some { s with blocked := true, pc := .test }
  | .test => some { s with pc := if s.mqflag = false then .suspended else .clear }
  | .suspended => none
  | .clear => some { s with mqflag := false, pc := .mq_notify }
  | .mq_notify => some { s.mq_notify with pc := .mq_receive }
  | .mq_receive => some s.mq_receive
  | .receiving => none
  | .printf _ => some { s with pc := .unblock }
  | .unblock => some { s with blocked := false, pc := .setmask }

def step (s : State) : Event → Option State
  | .arrive m => some (s.arrive m)
  | .deliver => s.deliver
  | .main => s.main

end State

/-- The program, started with `SIGUSR1` blocked or not. -/
def program (blocked : Bool) : System State Event where
  init s := s = ⟨[], false, false, blocked, false, .start⟩
  step s e s' := s.step e = some s'

/-! ### What is owed -/

/-- The `mq_receive` that the last notification called for was not made yet. -/
def State.Due (s : State) : Prop :=
  s.pending = true ∨ s.mqflag = true ∨ s.pc = .mq_notify ∨ s.pc = .mq_receive

instance (s : State) : Decidable s.Due := inferInstanceAs (Decidable (_ ∨ _ ∨ _ ∨ _))

def State.owed (s : State) : Nat := if s.Due then 1 else 0

/-- `registered`, `pending` and `mqflag`: one notification at most is under way, and then the
program is not registered. -/
inductive Phase : Bool → Bool → Bool → Prop
  | idle : Phase true false false
  | pending : Phase false true false
  | flagged : Phase false false true

def Control (s : State) : Prop :=
  match s.pc with
  | .start => s.registered = false ∧ s.pending = false ∧ s.mqflag = false
  | .setmask => Phase s.registered s.pending s.mqflag
  | .test | .suspended | .printf _ | .unblock =>
    s.blocked = true ∧ Phase s.registered s.pending s.mqflag
  | .clear => s.blocked = true ∧ s.registered = false ∧ s.pending = false ∧ s.mqflag = true
  | .mq_notify => s.blocked = true ∧ s.registered = false ∧ s.pending = false ∧ s.mqflag = false
  | .mq_receive => s.blocked = true ∧ s.registered = true ∧ s.pending = false ∧ s.mqflag = false
  | .receiving => False

structure Inv (s : State) : Prop where
  control : Control s
  owed : s.owed ≤ s.queue.length

/-- A message comes to an empty queue, and the program has called `mq_notify`. -/
def Good (s : State) : Event → Prop
  | .arrive _ => s.queue = [] ∧ s.pc ≠ .start
  | _ => True

instance (s : State) (e : Event) : Decidable (Good s e) := by
  cases e <;> unfold Good <;> infer_instance

/-- Nothing is in the queue but the message that is owed, if one is. -/
def Exact (s : State) : Prop := s.queue.length = s.owed

theorem owed_le_one (s : State) : s.owed ≤ 1 := by
  unfold State.owed
  split <;> omega

theorem owed_of_due {s : State} (h : s.Due) : s.owed = 1 := if_pos h

namespace Inv

variable {s : State}

theorem not_due_of_empty (h : Inv s) (hq : s.queue = []) : ¬ s.Due := by
  intro hdue
  have hle := h.owed
  rw [owed_of_due hdue, hq] at hle
  exact absurd hle (by decide)

/-- With the queue empty the program is registered. -/
theorem registered_of_empty (h : Inv s) (hq : s.queue = []) (hpc : s.pc ≠ .start) :
    s.registered = true := by
  have hdue := h.not_due_of_empty hq
  have hc := h.control
  obtain ⟨queue, registered, pending, blocked, mqflag, pc⟩ := s
  have hphase : Phase registered pending mqflag → registered = true := by
    rintro (_ | _ | _)
    · rfl
    · exact absurd (.inl rfl) hdue
    · exact absurd (.inr (.inl rfl)) hdue
  cases pc with
  | start => exact absurd rfl hpc
  | setmask => exact hphase hc
  | test | suspended | printf n | unblock => exact hphase hc.2
  | clear => exact absurd (.inr (.inl hc.2.2.2)) hdue
  | mq_notify => exact absurd (.inr (.inr (.inl rfl))) hdue
  | mq_receive => exact hc.2.1
  | receiving => exact hc.elim

/-- The notification goes out to a program that is neither taking nor about to take a message. -/
theorem notified (h : Inv s) (hq : s.queue = []) (hreg : s.registered = true) (m : Message) :
    Control { s with queue := [m], registered := false, pending := true } := by
  have hdue := h.not_due_of_empty hq
  have hc := h.control
  obtain ⟨queue, registered, pending, blocked, mqflag, pc⟩ := s
  obtain rfl : registered = true := hreg
  have hphase : Phase true pending mqflag → Phase false true mqflag := by
    rintro ⟨⟩
    exact .pending
  cases pc with
  | start => exact Bool.noConfusion hc.1
  | setmask => exact hphase hc
  | test | suspended | printf n | unblock => exact ⟨hc.1, hphase hc.2⟩
  | clear | mq_notify => exact Bool.noConfusion hc.2.1
  | mq_receive => exact absurd (.inr (.inr (.inr rfl))) hdue
  | receiving => exact hc.elim

theorem not_receiving (h : Inv s) : s.pc ≠ .receiving := by
  intro hpc
  have hc := h.control
  rw [Control, hpc] at hc
  exact hc

theorem arrive (h : Inv s) (m : Message) :
    Inv (s.arrive m) ∧ (Exact (s.arrive m) ↔ Exact s ∧ Good s (.arrive m)) := by
  unfold State.arrive
  rw [if_neg h.not_receiving]
  by_cases hq : s.queue = [] ∧ s.registered = true
  · rw [if_pos hq]
    have hpc : s.pc ≠ .start := by
      intro hpc
      have hc := h.control
      rw [Control, hpc] at hc
      exact absurd (hc.1.symm.trans hq.2) (by decide)
    have howed : s.owed = 0 := if_neg (h.not_due_of_empty hq.1)
    constructor
    · exact ⟨h.notified hq.1 hq.2 m, owed_le_one _⟩
    · refine iff_of_true (owed_of_due (.inl rfl)).symm ⟨?_, hq.1, hpc⟩
      rw [Exact, howed, hq.1]
      rfl
  · rw [if_neg hq]
    have hbad : ¬ (Exact s ∧ Good s (.arrive m)) := by
      rintro ⟨-, hempty, hpc⟩
      exact hq ⟨hempty, h.registered_of_empty hempty hpc⟩
    constructor
    · exact ⟨h.control, Nat.le_trans h.owed (by simp)⟩
    · refine iff_of_false ?_ hbad
      intro hexact
      have hle := h.owed
      have hlen : (s.queue ++ [m]).length = s.owed := hexact
      rw [List.length_append, List.length_singleton] at hlen
      omega

/-- A step that leaves the queue, and what is owed. -/
theorem keep (h : Inv s) {s' : State} (hc : Control s') (hqueue : s'.queue = s.queue)
    (hdue : s'.Due ↔ s.Due) : Inv s' ∧ (Exact s' ↔ Exact s) := by
  have howed : s'.owed = s.owed := if_congr hdue rfl rfl
  constructor
  · refine ⟨hc, ?_⟩
    rw [howed, hqueue]
    exact h.owed
  · unfold Exact
    rw [howed, hqueue]

theorem deliver (h : Inv s) {s' : State} (hs : s.deliver = some s') :
    Inv s' ∧ (Exact s' ↔ Exact s) := by
  have hc := h.control
  unfold State.deliver at hs
  split at hs
  · rename_i hen
    rw [← Option.some.inj hs]
    refine h.keep ?_ rfl (iff_of_true (.inr (.inl rfl)) (.inl hen.1))
    obtain ⟨hpending, hopen⟩ := hen
    obtain ⟨queue, registered, pending, blocked, mqflag, pc⟩ := s
    obtain rfl : pending = true := hpending
    have hphase : Phase registered true mqflag → Phase registered false true := by
      rintro ⟨⟩
      exact .flagged
    -- `main` is in `sigsuspend`, or before `sigprocmask`
    have hmasked : pc ≠ .suspended → blocked = true → False := by
      rintro hpc rfl
      rcases hopen with hpc' | hopen
      · exact hpc hpc'
      · exact Bool.noConfusion hopen
    cases pc with
    | suspended => exact ⟨hc.1, hphase hc.2⟩
    | setmask => exact hphase hc
    | start => exact Bool.noConfusion hc.2.1
    | receiving => exact hc.elim
    | _ => exact (hmasked nofun hc.1).elim
  · cases hs

theorem mq_receive (h : Inv s) (hpc : s.pc = .mq_receive) :
    Inv s.mq_receive ∧ (Exact s.mq_receive ↔ Exact s) := by
  have hc := h.control
  rw [Control, hpc] at hc
  obtain ⟨hblocked, hreg, hpending, hflag⟩ := hc
  have howed : s.owed = 1 := owed_of_due (.inr (.inr (.inr hpc)))
  have hle := h.owed
  unfold State.mq_receive
  cases hq : s.queue with
  | nil =>
    rw [howed, hq] at hle
    exact absurd hle (by decide)
  | cons m queue =>
    have hzero : State.owed { s with queue := queue, pc := .printf m.length } = 0 := by
      apply if_neg
      rintro (hp | hf | hpc' | hpc')
      · exact absurd (hpending.symm.trans hp) (by decide)
      · exact absurd (hflag.symm.trans hf) (by decide)
      · cases hpc'
      · cases hpc'
    have hphase : Phase s.registered s.pending s.mqflag := by
      rw [hreg, hpending, hflag]
      exact .idle
    constructor
    · refine ⟨⟨hblocked, hphase⟩, ?_⟩
      rw [hzero]
      exact Nat.zero_le _
    · unfold Exact
      rw [hzero, howed, hq, List.length_cons]
      show queue.length = 0 ↔ queue.length + 1 = 1
      omega

theorem main (h : Inv s) {s' : State} (hs : s.main = some s') :
    Inv s' ∧ (Exact s' ↔ Exact s) := by
  have hc := h.control
  by_cases hreceive : s.pc = .mq_receive
  · have hs' : s.mq_receive = s' := by
      rw [State.main, hreceive] at hs
      exact Option.some.inj hs
    exact hs' ▸ h.mq_receive hreceive
  · obtain ⟨queue, registered, pending, blocked, mqflag, pc⟩ := s
    cases pc with
    | start =>
      obtain ⟨-, rfl, rfl⟩ := hc
      obtain rfl := Option.some.inj hs
      exact h.keep .idle rfl (by simp [State.Due, State.mq_notify])
    | setmask =>
      obtain rfl := Option.some.inj hs
      exact h.keep ⟨rfl, hc⟩ rfl (by simp [State.Due])
    | test =>
      obtain rfl := Option.some.inj hs
      obtain ⟨hblocked, hphase⟩ := hc
      refine h.keep ?_ rfl ?_
      · cases hphase with
        | idle => exact ⟨hblocked, .idle⟩
        | pending => exact ⟨hblocked, .pending⟩
        | flagged => exact ⟨hblocked, rfl, rfl, rfl⟩
      · cases mqflag <;> simp [State.Due]
    | clear =>
      obtain ⟨hblocked, hreg, hpending, rfl⟩ := hc
      obtain rfl := Option.some.inj hs
      exact h.keep ⟨hblocked, hreg, hpending, rfl⟩ rfl (by simp [State.Due])
    | mq_notify =>
      obtain ⟨hblocked, -, hpending, hflag⟩ := hc
      obtain rfl := Option.some.inj hs
      exact h.keep ⟨hblocked, rfl, hpending, hflag⟩ rfl (by simp [State.Due, State.mq_notify])
    | mq_receive => exact absurd rfl hreceive
    | printf n =>
      obtain rfl := Option.some.inj hs
      exact h.keep hc rfl (by simp [State.Due])
    | unblock =>
      obtain rfl := Option.some.inj hs
      exact h.keep hc.2 rfl (by simp [State.Due])
    | suspended | receiving => cases hs

theorem step (h : Inv s) {e : Event} {s' : State} (hs : s.step e = some s') :
    Inv s' ∧ (Exact s' ↔ Exact s ∧ Good s e) := by
  cases e with
  | arrive m =>
    rw [← Option.some.inj hs]
    exact h.arrive m
  | deliver =>
    obtain ⟨hinv, hexact⟩ := h.deliver hs
    exact ⟨hinv, hexact.trans (and_iff_left trivial).symm⟩
  | main =>
    obtain ⟨hinv, hexact⟩ := h.main hs
    exact ⟨hinv, hexact.trans (and_iff_left trivial).symm⟩

theorem first (blocked : Bool) : Inv ⟨[], false, false, blocked, false, .start⟩ :=
  ⟨⟨rfl, rfl, rfl⟩, Nat.le_refl 0⟩

end Inv

theorem exact_iff {blocked : Bool} {es : List Event} {s : State}
    (h : (program blocked).Run es s) :
    Inv s ∧ (Exact s ↔ (program blocked).Along es Good) := by
  refine h.invariant
    (I := fun es s => Inv s ∧ (Exact s ↔ (program blocked).Along es Good)) ?_ ?_
  · rintro s rfl
    refine ⟨.first blocked, iff_of_true rfl ?_⟩
    rintro pre e post s he
    exact absurd he (by simp)
  · rintro es s e s' hr ⟨hinv, hexact⟩ hs
    obtain ⟨hinv', hstep⟩ := hinv.step hs
    refine ⟨hinv', hstep.trans ?_⟩
    rw [hexact]
    exact (hr.along_concat (fun _ h => h) fun _ _ _ h => h).symm

/-- In `sigsuspend`, with `mqflag = 0` and nothing to wake it up. -/
structure Idle (s : State) : Prop where
  pc : s.pc = .suspended
  mqflag : s.mqflag = false
  pending : s.pending = false

/-- **Where the program is suspended and nothing is pending, the queue is empty exactly if each
message of the run came to an empty queue and after the first `mq_notify`.** -/
theorem suspended_empty_iff {blocked : Bool} {es : List Event} {s : State}
    (h : (program blocked).Run es s) (hidle : Idle s) :
    s.queue = [] ↔ (program blocked).Along es Good := by
  have howed : s.owed = 0 := by
    apply if_neg
    rintro (hp | hf | hpc | hpc)
    · exact absurd (hidle.pending.symm.trans hp) (by decide)
    · exact absurd (hidle.mqflag.symm.trans hf) (by decide)
    · exact absurd (hidle.pc.symm.trans hpc) (by decide)
    · exact absurd (hidle.pc.symm.trans hpc) (by decide)
  rw [← (exact_iff h).2, Exact, howed, List.length_eq_zero_iff]

/-- `main` up to `sigsuspend`. -/
def toSuspended : List Event := [.main, .main, .main]

/-- `main` from the notification to the next `sigsuspend`. -/
def oneTurn : List Event :=
  [.deliver, .main, .main, .main, .main, .main, .main, .main, .main]

def started : State := ⟨[], false, false, false, false, .start⟩

/-- In `sigsuspend`, registered, with `queue` still to be received. -/
def asleep (queue : List Message) : State := ⟨queue, true, false, true, false, .suspended⟩

theorem idle_asleep (queue : List Message) : Idle (asleep queue) := ⟨rfl, rfl, rfl⟩

theorem run_of_eval {es : List Event} {s : State} (h : es.foldlM State.step started = some s) :
    (program false).Run es s :=
  System.Run.exec State.step (fun _ _ _ h => h) (.start rfl) es h

/-- A message comes to the suspended program, which takes it and is suspended again. -/
theorem suspended_empty_oneMessage :
    ∃ s, (program false).Run (toSuspended ++ .arrive [7] :: oneTurn) s ∧ Idle s ∧
      s.queue = [] := by
  have hrun : (program false).Run (toSuspended ++ .arrive [7] :: oneTurn) (asleep []) :=
    run_of_eval rfl
  refine ⟨asleep [], hrun, idle_asleep [], ?_⟩
  apply (suspended_empty_iff hrun (idle_asleep [])).mpr
  exact System.along_of_holdsAlong (fun _ h => h) (fun _ _ _ h => h) (by decide)

/-- Two messages come one after the other: the second stays in the queue. -/
theorem suspended_not_empty : ¬ ∀ blocked es s, (program blocked).Run es s → Idle s →
    s.queue = [] := by
  intro hall
  have hrun : (program false).Run (toSuspended ++ .arrive [7] :: .arrive [8] :: oneTurn)
      (asleep [[8]]) := run_of_eval rfl
  exact absurd (hall false _ _ hrun (idle_asleep [[8]])) (by decide)

end StudyDoc.MqNotify
