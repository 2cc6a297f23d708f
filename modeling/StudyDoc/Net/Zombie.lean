import StudyDoc.Lib.Transition
import StudyDoc.Net.Server

/-!
# `server.c`: children that exit, `SIGCHLD`, and `deal_sig_handel`

The parent of the forking server with its children.  `SIGCHLD` is blocked while its handler runs
and does not queue; the handler stays installed.  A child may exit, and a pending signal may be
delivered, between any two steps of the parent:

    an exited child is not reaped yet → SIGCHLD is pending or the handler runs     (zombie_covered)

The handler leaves its loop only after a `waitpid` that found no exited child; whatever exits
after that call makes the signal pending again.
-/

namespace StudyDoc.Zombie

open Transition Server

/-! ## Algorithm -/

def ECHILD : Errno := 10

/-- The next statement of `main`. -/
inductive Main where
  | signal
  | accept
  | test (clifd : Int)
  | fork (clifd : Int)
  | close (clifd : Int)
  | exited
  deriving DecidableEq

/-- The next statement of `deal_sig_handel`. -/
inductive Handler where
  | waitpid
  | printf (pid : Nat)
  | ret
  deriving DecidableEq

structure Parent where
  main : Main
  errno : Errno
  /-- `signal(SIGCHLD, deal_sig_handel)` was called. -/
  installed : Bool
  running : List Nat
  /-- The children that exited and were not waited for. -/
  zombies : List Nat
  pending : Bool
  handler : Option Handler

def start (errno : Errno) : Parent := ⟨.signal, errno, false, [], [], false, none⟩

inductive Event where
  | signal
  | accept (a : Accept)
  | test
  /-- `none`: the call failed. -/
  | fork (pid : Option Nat)
  | close
  /-- A child exits. -/
  | exit (pid : Nat)
  /-- `SIGCHLD` for another reason: a child stopped, or somebody sent it. -/
  | sigchld
  | deliver
  | waitpid (w : WaitPid)
  | printf
  | ret

namespace Parent

/-- The signal is generated.  It is one bit, and before `signal` it is ignored. -/
def raise (s : Parent) : Parent := { s with pending := s.pending || s.installed }

/-- One step of `main`, which stands still while the handler runs. -/
def stepMain (s : Parent) : Event → Option Parent
  | .signal => if s.main = .signal then some { s with main := .accept, installed := true } else none
  | .accept a =>
    if s.main = .accept then some { s with main := .test a.ret, errno := a.errno s.errno } else none
  | .test =>
    match s.main with
    | .test clifd =>
      if s.errno = EINTR then some { s with main := .accept }
      else if clifd < 0 then
        -- the children get another parent
        some { s with main := .exited, running := [], zombies := [], pending := false }
      else some { s with main := .fork clifd }
    | _ => none
  | .fork pid =>
    match s.main, pid with
    | .fork clifd, some pid =>
      if pid ∈ s.running ∨ pid ∈ s.zombies then none
      else some { s with main := .close clifd, running := pid :: s.running }
    | .fork clifd, none => some { s with main := .close clifd }
    | _, _ => none
  | .close =>
    match s.main with
    | .close _ => some { s with main := .accept }
    | _ => none
  | _ => none

/-- `waitpid(-1, &stat, WNOHANG)`: any exited child, 0 if there are others, else `ECHILD`. -/
def stepWaitpid (s : Parent) : WaitPid → Option Parent
  | .child pid =>
    if pid ∈ s.zombies then
      some { s with zombies := s.zombies.erase pid, handler := some (.printf pid) }
    else none
  | .running =>
    if s.zombies = [] ∧ s.running ≠ [] then some { s with handler := some .ret } else none
  | .fail e =>
    if s.zombies = [] ∧ s.running = [] ∧ e = ECHILD then
      some { s with handler := some .ret, errno := e }
    else none

def stepHandler (s : Parent) : Handler → Event → Option Parent
  | .waitpid, .waitpid w => s.stepWaitpid w
  | .printf _, .printf => some { s with handler := some .waitpid }
  | .ret, .ret => some { s with handler := none }
  | _, _ => none

def step (s : Parent) : Event → Option Parent
  | .exit pid =>
    if pid ∈ s.running then
      some { s with running := s.running.erase pid, zombies := pid :: s.zombies }.raise
    else none
  | .sigchld => if s.main = .exited then none else some s.raise
  | .deliver =>
    if s.pending = true ∧ s.handler = none then
      some { s with pending := false, handler := some .waitpid }
    else none
  | e =>
    match s.handler with
    | some h => s.stepHandler h e
    | none => s.stepMain e

end Parent

def server : System Parent Event where
  init s := ∃ errno, s = start errno
  step s e s' := s.step e = some s'

/-- The handler will call `waitpid` again. -/
def Reaping (s : Parent) : Prop :=
  s.handler = some .waitpid ∨ ∃ pid, s.handler = some (.printf pid)

structure Inv (s : Parent) : Prop where
  /-- No child before the handler is installed. -/
  installed : s.main ≠ .signal → s.installed = true
  early : s.main = .signal → s.running = [] ∧ s.zombies = []
  covered : s.zombies ≠ [] → s.pending = true ∨ Reaping s

/-! ### One step -/

theorem inv_start (errno : Errno) : Inv (start errno) where
  installed h := absurd rfl h
  early _ := ⟨rfl, rfl⟩
  covered h := absurd rfl h

theorem raise_pending {s : Parent} (h : s.installed = true) : s.raise.pending = true := by
  show (s.pending || s.installed) = true
  rw [h, Bool.or_true]

theorem inv_exit {s : Parent} (h : Inv s) {pid : Nat} (hpid : pid ∈ s.running) :
    Inv { s with running := s.running.erase pid, zombies := pid :: s.zombies }.raise := by
  have hmain : s.main ≠ .signal := by
    intro hm
    rw [(h.early hm).1] at hpid
    exact absurd hpid List.not_mem_nil
  exact ⟨h.installed, fun hm => absurd hm hmain,
    fun _ => Or.inl (raise_pending (h.installed hmain))⟩

theorem inv_sigchld {s : Parent} (h : Inv s) : Inv s.raise where
  installed := h.installed
  early := h.early
  covered hz := by
    rcases h.covered hz with hp | hr
    · left
      show (s.pending || s.installed) = true
      rw [hp, Bool.true_or]
    · exact Or.inr hr

theorem inv_waitpid {s s' : Parent} (h : Inv s) {w : WaitPid} (hs : s.stepWaitpid w = some s') :
    Inv s' := by
  unfold Parent.stepWaitpid at hs
  cases w with
  | child pid =>
    obtain ⟨hpid, hs⟩ := Option.ite_none_right_eq_some.mp hs
    obtain rfl := Option.some.inj hs
    refine ⟨h.installed, fun hm => ?_, fun _ => Or.inr (Or.inr ⟨pid, rfl⟩)⟩
    rw [(h.early hm).2] at hpid
    exact absurd hpid List.not_mem_nil
  | running =>
    obtain ⟨hz, hs⟩ := Option.ite_none_right_eq_some.mp hs
    obtain rfl := Option.some.inj hs
    exact ⟨h.installed, h.early, fun hne => absurd hz.1 hne⟩
  | fail e =>
    obtain ⟨hz, hs⟩ := Option.ite_none_right_eq_some.mp hs
    obtain rfl := Option.some.inj hs
    exact ⟨h.installed, h.early, fun hne => absurd hz.1 hne⟩

theorem inv_handler {s s' : Parent} (h : Inv s) {hd : Handler} (hh : s.handler = some hd)
    {e : Event} (hs : s.stepHandler hd e = some s') : Inv s' := by
  unfold Parent.stepHandler at hs
  split at hs
  · exact inv_waitpid h hs
  · obtain rfl := Option.some.inj hs
    exact ⟨h.installed, h.early, fun _ => Or.inr (Or.inl rfl)⟩
  · obtain rfl := Option.some.inj hs
    refine ⟨h.installed, h.early, fun hz => Or.inl ?_⟩
    -- the handler is past its loop: what is a zombie now exited after the last `waitpid`
    rcases h.covered hz with hp | hr | ⟨pid, hr⟩
    · exact hp
    · rw [hh] at hr
      exact absurd hr (by decide)
    · rw [hh] at hr
      exact absurd (Option.some.inj hr) (by simp)
  · exact absurd hs (by simp)

/-- A step of `main` that touches neither the children nor the signal. -/
theorem inv_main {s s' : Parent} (h : Inv s) (hm : s.main ≠ .signal) (hm' : s'.main ≠ .signal)
    (hi : s'.installed = s.installed) (hz : s'.zombies = s.zombies) (hp : s'.pending = s.pending)
    (hh : s'.handler = s.handler) : Inv s' where
  installed _ := by rw [hi]; exact h.installed hm
  early he := absurd he hm'
  covered hne := by
    unfold Reaping
    rw [hz] at hne
    rw [hp, hh]
    exact h.covered hne

theorem inv_stepMain {s s' : Parent} (h : Inv s) {e : Event} (hs : s.stepMain e = some s') :
    Inv s' := by
  unfold Parent.stepMain at hs
  split at hs
  · obtain ⟨hm, hs⟩ := Option.ite_none_right_eq_some.mp hs
    obtain rfl := Option.some.inj hs
    refine ⟨fun _ => rfl, fun he => absurd he (by simp), fun hz => ?_⟩
    exact absurd (h.early hm).2 hz
  · obtain ⟨hm, hs⟩ := Option.ite_none_right_eq_some.mp hs
    obtain rfl := Option.some.inj hs
    exact inv_main h (by rw [hm]; simp) (by simp) rfl rfl rfl rfl
  · split at hs
    · next clifd hm =>
      have hm0 : s.main ≠ .signal := by rw [hm]; simp
      split at hs
      · obtain rfl := Option.some.inj hs
        exact inv_main h hm0 (by simp) rfl rfl rfl rfl
      · split at hs
        · obtain rfl := Option.some.inj hs
          exact ⟨fun _ => h.installed hm0, fun _ => ⟨rfl, rfl⟩, fun hz => absurd rfl hz⟩
        · obtain rfl := Option.some.inj hs
          exact inv_main h hm0 (by simp) rfl rfl rfl rfl
    · exact absurd hs (by simp)
  · split at hs
    · next clifd pid hm =>
      have hm0 : s.main ≠ .signal := by rw [hm]; simp
      obtain ⟨-, hs⟩ := Option.ite_none_left_eq_some.mp hs
      obtain rfl := Option.some.inj hs
      exact inv_main h hm0 (by simp) rfl rfl rfl rfl
    · next clifd hm =>
      have hm0 : s.main ≠ .signal := by rw [hm]; simp
      obtain rfl := Option.some.inj hs
      exact inv_main h hm0 (by simp) rfl rfl rfl rfl
    · exact absurd hs (by simp)
  · split at hs
    · next clifd hm =>
      have hm0 : s.main ≠ .signal := by rw [hm]; simp
      obtain rfl := Option.some.inj hs
      exact inv_main h hm0 (by simp) rfl rfl rfl rfl
    · exact absurd hs (by simp)
  · exact absurd hs (by simp)

theorem inv_step {s s' : Parent} (h : Inv s) {e : Event} (hs : s.step e = some s') : Inv s' := by
  unfold Parent.step at hs
  split at hs
  · obtain ⟨hpid, hs⟩ := Option.ite_none_right_eq_some.mp hs
    obtain rfl := Option.some.inj hs
    exact inv_exit h hpid
  · obtain ⟨-, hs⟩ := Option.ite_none_left_eq_some.mp hs
    obtain rfl := Option.some.inj hs
    exact inv_sigchld h
  · obtain ⟨-, hs⟩ := Option.ite_none_right_eq_some.mp hs
    obtain rfl := Option.some.inj hs
    exact ⟨h.installed, h.early, fun _ => Or.inr (Or.inl rfl)⟩
  · split at hs
    · next hd hh => exact inv_handler h hh hs
    · exact inv_stepMain h hs

/-! ### Every run -/

theorem inv {s : Parent} (h : server.Reachable s) : Inv s := by
  apply h.invariant
  · rintro s ⟨errno, rfl⟩
    exact inv_start errno
  · intro s e s' _ hi hs
    exact inv_step hi hs

/-! ## Main result -/

/-- **No zombie is forgotten.**  While an exited child is not reaped, `SIGCHLD` is pending or the
handler runs; with neither, there is no zombie. -/
theorem zombie_covered {s : Parent} (h : server.Reachable s) :
    (s.zombies ≠ [] → s.pending = true ∨ s.handler ≠ none) ∧
      (s.handler = none → s.pending = false → s.zombies = []) := by
  have hcov : s.zombies ≠ [] → s.pending = true ∨ s.handler ≠ none := by
    intro hz
    rcases (inv h).covered hz with hp | hr | ⟨pid, hr⟩
    · exact Or.inl hp
    · right
      rw [hr]
      simp
    · right
      rw [hr]
      simp
  refine ⟨hcov, fun hh hp => ?_⟩
  apply Classical.byContradiction
  intro hz
  rcases hcov hz with h1 | h1
  · rw [hp] at h1
    exact absurd h1 (by decide)
  · exact h1 hh

/-- The child with pid 7 exited right after the `fork`. -/
def afterExit : Parent := ⟨.close 4, 0, true, [], [7], true, none⟩

theorem zombie_covered_afterExit :
    (afterExit.zombies ≠ [] → afterExit.pending = true ∨ afterExit.handler ≠ none) ∧
      (afterExit.handler = none → afterExit.pending = false → afterExit.zombies = []) :=
  have hrun : server.Run [] (start 0) := .start ⟨0, rfl⟩
  zombie_covered ⟨_, hrun.exec Parent.step (fun _ _ _ h => h)
    [.signal, .accept (.fresh 4), .test, .fork (some 7), .exit 7] rfl⟩

end StudyDoc.Zombie
