import StudyDoc.Lib.Transition
import StudyDoc.Net.Syscall
import Mathlib.Data.Finset.Basic
import Mathlib.Logic.Function.Basic
import Mathlib.Tactic.Common

/-!
# `server_new.c`: the poll server

`Server` is what survives one turn of `for (;;)`: the table `client`, `maxi`, the read buffer,
and, for the kernel, the set `conns` of connections accepted and not closed.  One turn is
`Server.round`; its input holds everything the kernel decides.  Arrays are functions of the
index; that no index reaches `OPEN_MAX` is part of `TableOk`.

    Reachable s → TableOk sockfd s                                       (reachable_tableOk)

Revents are uninitialised until a `poll` covers the slot, so `start` leaves them arbitrary.
-/

namespace StudyDoc.PollServer

open Transition

/-! ## Algorithm -/

def OPEN_MAX : Nat := 10
def MAXLINE : Nat := 255

/-- The bits of `short events` and `short revents`. -/
abbrev Flags := BitVec 16

def POLLRDNORM : Flags := 0x040
def POLLERR : Flags := 0x008

structure Pollfd where
  fd : Int
  events : Flags
  revents : Flags

structure Server where
  client : Nat → Pollfd
  maxi : Nat
  buf : Buf MAXLINE
  /-- The kernel's side: descriptors that `accept` returned and nobody closed. -/
  conns : Finset Int

namespace Server

def setSlot (s : Server) (i : Nat) (p : Pollfd) : Server :=
  { s with client := Function.update s.client i p }

/-- `revents` as a successful `poll` sets it: 0 for a negative descriptor. -/
def reports (s : Server) (revs : Nat → Flags) (i : Nat) : Flags :=
  if (s.client i).fd < 0 then 0 else revs i

end Server

/-- `poll` fails and leaves every `revents` alone, or it finds the flags `revs`. -/
inductive Poll where
  | fail
  | ok (revs : Nat → Flags)

/-- `nready = poll(client, maxi + 1, INFTIM)`. -/
def Server.poll (s : Server) : Poll → Server × Int
  | .fail => (s, -1)
  | .ok revs =>
    ({ s with client := fun i =>
        if i ≤ s.maxi then { s.client i with revents := s.reports revs i } else s.client i },
      (List.range (s.maxi + 1)).countP fun i => s.reports revs i ≠ 0)

/-- `for (i = …; i < OPEN_MAX; i++) if (client[i].fd < 0) break;` with `n` slots left to try. -/
def firstFree (client : Nat → Pollfd) : (n i : Nat) → Nat
  | 0, i => i
  | n + 1, i => if (client i).fd < 0 then i else firstFree client n (i + 1)

/-- The slot a new connection goes to; `OPEN_MAX` when there is none. -/
def Server.freeSlot (s : Server) : Nat := firstFree s.client (OPEN_MAX - 1) 1

/-- The branch after `accept` returned `connfd`; `none` is `exit(-1)`. -/
def Server.accept (s : Server) (connfd : Int) : Option Server :=
  let i := s.freeSlot
  if i = OPEN_MAX then none
  else
    some { s.setSlot i ⟨connfd, POLLRDNORM, (s.client i).revents⟩ with
      maxi := if i > s.maxi then i else s.maxi
      conns := if connfd < 0 then s.conns else insert connfd s.conns }

inductive Call where
  | close (fd : Int)
  | writen (fd : Int) (buf : Buf MAXLINE) (n : BitVec 64)

/-- `close(new_fd); client[i].fd = -1;` -/
def Server.closeSlot (s : Server) (i : Nat) : List Call × Server :=
  ([.close (s.client i).fd],
    { s.setSlot i { s.client i with fd := -1 } with conns := s.conns.erase (s.client i).fd })

/-- Lines 87-104, for the result `r` of the `read`.  `n` is a `size_t`, and the test
`errno = ECONNRESET` is an assignment. -/
def Server.serve (s : Server) (i : Nat) (r : Read MAXLINE) : List Call × Server :=
  let new_fd := (s.client i).fd
  let s := { s with buf := r.store s.buf }
  let n := BitVec.ofInt 64 r.ret
  if n < 0 then
    if ECONNRESET ≠ 0 then s.closeSlot i else ([], s)
  else if n = 0 then s.closeSlot i
  else ([.writen new_fd s.buf n], s)

def isReady (f : Flags) : Bool := f &&& (POLLRDNORM ||| POLLERR) ≠ 0

/-- One `read` on a ready client: the state before it, the slot, and its result. -/
structure Service where
  before : Server
  slot : Nat
  result : Read MAXLINE

namespace Service

def fd (v : Service) : Int := (v.before.client v.slot).fd
/-- The calls that follow the `read`. -/
def calls (v : Service) : List Call := (v.before.serve v.slot v.result).1
def after (v : Service) : Server := (v.before.serve v.slot v.result).2

end Service

/-- The client scan over the slots `is`; `read i` is what `read` on slot `i` gives. -/
def scan (read : Nat → Read MAXLINE) : List Nat → Server → Int → List Service × Server
  | [], s, _ => ([], s)
  | i :: is, s, nready =>
    if (s.client i).fd < 0 then scan read is s nready
    else if isReady (s.client i).revents then
      let v : Service := ⟨s, i, read i⟩
      let nready := nready - 1
      if nready ≤ 0 then ([v], v.after)
      else
        let r := scan read is v.after nready
        (v :: r.1, r.2)
    else scan read is s nready

structure Input where
  poll : Poll
  connfd : Int
  read : Nat → Read MAXLINE

/-- What one turn did: whether it called `accept`, the reads in order, and the state at the
next `poll` (`none` after `exit`). -/
structure Turn where
  accepted : Bool
  services : List Service
  next : Option Server

/-- Lines 78-111. -/
def Server.scanAll (s : Server) (accepted : Bool) (nready : Int) (read : Nat → Read MAXLINE) :
    Turn :=
  let r := scan read (List.range' 1 s.maxi) s nready
  ⟨accepted, r.1, some r.2⟩

def Server.round (s : Server) (inp : Input) : Turn :=
  let (s, nready) := s.poll inp.poll
  if (s.client 0).revents &&& POLLRDNORM ≠ 0 then
    match s.accept inp.connfd with
    | none => ⟨true, [], none⟩
    | some s =>
      let nready := nready - 1
      if nready ≤ 0 then ⟨true, [], some s⟩ else s.scanAll true nready inp.read
  else s.scanAll false nready inp.read

/-- The state at the first `poll`. -/
structure Start (sockfd : Int) (s : Server) : Prop where
  listen : (s.client 0).fd = sockfd ∧ (s.client 0).events = POLLRDNORM
  free : ∀ i, 1 ≤ i → i < OPEN_MAX → (s.client i).fd = -1
  maxi : s.maxi = 0
  conns : s.conns = ∅

/-- `accept` returns -1 or a descriptor that is not open. -/
def Valid (sockfd : Int) (s : Server) (inp : Input) : Prop :=
  inp.connfd = -1 ∨ 0 ≤ inp.connfd ∧ inp.connfd ∉ s.conns ∧ inp.connfd ≠ sockfd

def system (sockfd : Int) : System Server Input where
  init := Start sockfd
  step s inp s' := Valid sockfd s inp ∧ (s.round inp).next = some s'

/-! ## Lemmas -/

@[simp] theorem setSlot_maxi (s : Server) (i : Nat) (p : Pollfd) :
    (s.setSlot i p).maxi = s.maxi := rfl

@[simp] theorem setSlot_conns (s : Server) (i : Nat) (p : Pollfd) :
    (s.setSlot i p).conns = s.conns := rfl

@[simp] theorem setSlot_self (s : Server) (i : Nat) (p : Pollfd) :
    (s.setSlot i p).client i = p := by
  simp [Server.setSlot]

theorem setSlot_ne (s : Server) {i j : Nat} (h : j ≠ i) (p : Pollfd) :
    (s.setSlot i p).client j = s.client j := by
  simp [Server.setSlot, h]

@[simp] theorem poll_fd (s : Server) (p : Poll) (i : Nat) :
    ((s.poll p).1.client i).fd = (s.client i).fd := by
  cases p with
  | fail => rfl
  | ok revs =>
    simp only [Server.poll]
    split <;> rfl

@[simp] theorem poll_maxi (s : Server) (p : Poll) : (s.poll p).1.maxi = s.maxi := by
  cases p <;> rfl

@[simp] theorem poll_conns (s : Server) (p : Poll) : (s.poll p).1.conns = s.conns := by
  cases p <;> rfl

theorem firstFree_spec (client : Nat → Pollfd) (n i : Nat) :
    i ≤ firstFree client n i ∧ firstFree client n i ≤ i + n ∧
    (∀ j, i ≤ j → j < firstFree client n i → 0 ≤ (client j).fd) ∧
    (firstFree client n i < i + n → (client (firstFree client n i)).fd < 0) := by
  induction n generalizing i with
  | zero =>
    refine ⟨le_rfl, le_rfl, fun j h1 h2 => absurd h1 (not_le.mpr h2), fun h => ?_⟩
    exact absurd h (by simp [firstFree])
  | succ n ih =>
    rw [firstFree]
    split
    · next hfree =>
      exact ⟨le_rfl, by omega, fun j h1 h2 => absurd h1 (not_le.mpr h2), fun _ => hfree⟩
    · next htaken =>
      obtain ⟨h1, h2, h3, h4⟩ := ih (i + 1)
      refine ⟨by omega, by omega, fun j hj1 hj2 => ?_, fun h => h4 (by omega)⟩
      rcases Nat.eq_or_lt_of_le hj1 with rfl | hlt
      · omega
      · exact h3 j hlt hj2

/-- The slots below the chosen one are taken; the chosen one, if there is one, is free. -/
theorem freeSlot_spec (s : Server) :
    1 ≤ s.freeSlot ∧ s.freeSlot ≤ OPEN_MAX ∧
    (∀ j, 1 ≤ j → j < s.freeSlot → 0 ≤ (s.client j).fd) ∧
    (s.freeSlot ≠ OPEN_MAX → (s.client s.freeSlot).fd < 0) := by
  have h := firstFree_spec s.client (OPEN_MAX - 1) 1
  have hm : OPEN_MAX = 10 := rfl
  unfold Server.freeSlot
  refine ⟨h.1, by omega, h.2.2.1, fun hne => h.2.2.2 (by omega)⟩

/-! ### The table -/

/-- The descriptors of the table. -/
def Server.fds (s : Server) (i : Nat) : Int := (s.client i).fd

@[simp] theorem fds_setSlot (s : Server) (i : Nat) (p : Pollfd) :
    (s.setSlot i p).fds = Function.update s.fds i p.fd := by
  funext j
  by_cases h : j = i
  · subst h; simp [Server.fds]
  · simp [Server.fds, setSlot_ne s h, h]

theorem poll_fds (s : Server) (p : Poll) : (s.poll p).1.fds = s.fds := funext (poll_fd s p)

/-- A table `fd` in which the slots `1, …, maxi` hold the connections `conns`, each once. -/
structure Table (sockfd : Int) (fd : Nat → Int) (maxi : Nat) (conns : Finset Int) : Prop where
  maxi_lt : maxi < OPEN_MAX
  listen : fd 0 = sockfd
  unused : ∀ i, maxi < i → i < OPEN_MAX → fd i < 0
  stored : ∀ d ∈ conns, ∃ i, 1 ≤ i ∧ i < OPEN_MAX ∧ fd i = d
  opened : ∀ i, 1 ≤ i → i < OPEN_MAX → 0 ≤ fd i → fd i ∈ conns
  inj : ∀ i j, 1 ≤ i → i < OPEN_MAX → 1 ≤ j → j < OPEN_MAX → 0 ≤ fd i → fd i = fd j → i = j
  conn : ∀ d ∈ conns, 0 ≤ d ∧ d ≠ sockfd

/-- The one way the table changes: slot `i` gets `c`, which is negative or a new connection, and
the connection that slot held, if any, is gone. -/
theorem Table.set {sockfd : Int} {fd : Nat → Int} {maxi maxi' : Nat} {conns conns' : Finset Int}
    (h : Table sockfd fd maxi conns) {i : Nat} (h1 : 1 ≤ i) (hi : i ≤ maxi') (hm : maxi ≤ maxi')
    (hlt : maxi' < OPEN_MAX) {c : Int} (hc : c < 0 ∨ c ∉ conns ∧ c ≠ sockfd)
    (hconns : ∀ d, d ∈ conns' ↔ d ∈ conns ∧ d ≠ fd i ∨ 0 ≤ c ∧ d = c) :
    Table sockfd (Function.update fd i c) maxi' conns' := by
  have hself : Function.update fd i c i = c := by simp
  have hne : ∀ j, j ≠ i → Function.update fd i c j = fd j := fun j hj => by simp [hj]
  constructor
  case maxi_lt => exact hlt
  case listen =>
    rw [hne 0 (by omega)]
    exact h.listen
  case unused =>
    intro j hj hjlt
    rw [hne j (by omega)]
    exact h.unused j (by omega) hjlt
  case stored =>
    intro d hd
    rcases (hconns d).mp hd with ⟨hd, hdi⟩ | ⟨-, rfl⟩
    · obtain ⟨j, hj1, hj2, rfl⟩ := h.stored d hd
      have hji : j ≠ i := fun e => hdi (by rw [e])
      exact ⟨j, hj1, hj2, hne j hji⟩
    · exact ⟨i, h1, by omega, hself⟩
  case opened =>
    intro j hj1 hj2 h0
    rw [hconns]
    by_cases hji : j = i
    · subst hji
      rw [hself] at h0 ⊢
      exact Or.inr ⟨h0, rfl⟩
    · rw [hne j hji] at h0 ⊢
      refine Or.inl ⟨h.opened j hj1 hj2 h0, fun e => hji ?_⟩
      exact h.inj j i hj1 hj2 h1 (by omega) h0 e
  case inj =>
    have hnew : ∀ k, k ≠ i → 1 ≤ k → k < OPEN_MAX → 0 ≤ c → c ≠ fd k := by
      intro k hk hk1 hk2 h0 e
      rcases hc with hc | ⟨hc, -⟩
      · omega
      · exact hc (e ▸ h.opened k hk1 hk2 (e ▸ h0))
    intro j k hj1 hj2 hk1 hk2 h0 he
    by_cases hji : j = i
    · by_cases hki : k = i
      · rw [hji, hki]
      · rw [hji, hself] at h0 he
        rw [hne k hki] at he
        exact absurd he (hnew k hki hk1 hk2 h0)
    · rw [hne j hji] at h0 he
      by_cases hki : k = i
      · rw [hki, hself] at he
        exact absurd he.symm (hnew j hji hj1 hj2 (he ▸ h0))
      · rw [hne k hki] at he
        exact h.inj j k hj1 hj2 hk1 hk2 h0 he
  case conn =>
    intro d hd
    rcases (hconns d).mp hd with ⟨hd, -⟩ | ⟨h0, rfl⟩
    · exact h.conn d hd
    · rcases hc with hc | ⟨-, hc⟩
      · omega
      · exact ⟨h0, hc⟩

/-- What holds of the server at every call of `poll`. -/
def TableOk (sockfd : Int) (s : Server) : Prop := Table sockfd s.fds s.maxi s.conns

theorem Start.tableOk {sockfd : Int} {s : Server} (h : Start sockfd s) : TableOk sockfd s := by
  have hneg : ∀ i, 1 ≤ i → i < OPEN_MAX → s.fds i = -1 := h.free
  constructor
  case maxi_lt => rw [h.maxi]; decide
  case listen => exact h.listen.1
  case unused =>
    intro i hi hlt
    rw [h.maxi] at hi
    rw [hneg i hi hlt]
    decide
  case stored => simp [h.conns]
  case opened =>
    intro i h1 hlt h0
    rw [hneg i h1 hlt] at h0
    omega
  case inj =>
    intro i j h1 hlt _ _ h0
    rw [hneg i h1 hlt] at h0
    omega
  case conn => simp [h.conns]

theorem TableOk.poll {sockfd : Int} {s : Server} (h : TableOk sockfd s) (p : Poll) :
    TableOk sockfd (s.poll p).1 := by
  unfold TableOk
  rw [poll_fds, poll_maxi, poll_conns]
  exact h

/-- Everything the branch after `accept` does when it finds a slot. -/
theorem accept_eq_some {s s' : Server} {connfd : Int} (h : s.accept connfd = some s') :
    s.freeSlot < OPEN_MAX ∧ (s.client s.freeSlot).fd < 0 ∧
    s'.client = Function.update s.client s.freeSlot
      ⟨connfd, POLLRDNORM, (s.client s.freeSlot).revents⟩ ∧
    s'.maxi = max s.maxi s.freeSlot ∧
    s'.conns = if connfd < 0 then s.conns else insert connfd s.conns := by
  obtain ⟨-, hle, -, hfree⟩ := freeSlot_spec s
  by_cases hne : s.freeSlot = OPEN_MAX
  · simp [Server.accept, hne] at h
  · simp only [Server.accept, if_neg hne, Option.some.injEq] at h
    subst h
    refine ⟨by omega, hfree hne, rfl, ?_, rfl⟩
    show (if s.freeSlot > s.maxi then s.freeSlot else s.maxi) = max s.maxi s.freeSlot
    split <;> omega

theorem TableOk.accept {sockfd : Int} {s s' : Server} (h : TableOk sockfd s) {connfd : Int}
    (hv : connfd = -1 ∨ 0 ≤ connfd ∧ connfd ∉ s.conns ∧ connfd ≠ sockfd)
    (ha : s.accept connfd = some s') : TableOk sockfd s' := by
  obtain ⟨hlt, hfree, hclient, hmaxi, hconns⟩ := accept_eq_some ha
  have hm := h.maxi_lt
  have hfds : s'.fds = Function.update s.fds s.freeSlot connfd := by
    funext j
    simp only [Server.fds, hclient]
    by_cases hj : j = s.freeSlot
    · subst hj; simp
    · simp [Server.fds, hj]
  unfold TableOk
  rw [hfds]
  refine h.set (freeSlot_spec s).1 (by omega) (by omega) (by omega) ?_ ?_
  · rcases hv with rfl | ⟨-, hv⟩
    · exact Or.inl (by decide)
    · exact Or.inr hv
  · intro d
    have hold : d ∈ s.conns → d ≠ s.fds s.freeSlot := by
      intro hd e
      have h0 := (h.conn d hd).1
      rw [e] at h0
      exact absurd h0 (not_le.mpr hfree)
    rw [hconns]
    split
    · next hneg =>
      have hnot : ¬ 0 ≤ connfd := not_le.mpr hneg
      simp only [hnot, false_and, or_false]
      exact ⟨fun hd => ⟨hd, hold hd⟩, fun hd => hd.1⟩
    · next hpos =>
      have h0 : 0 ≤ connfd := not_lt.mp hpos
      simp only [Finset.mem_insert, h0, true_and]
      constructor
      · rintro (rfl | hd)
        · exact Or.inr rfl
        · exact Or.inl ⟨hd, hold hd⟩
      · rintro (⟨hd, -⟩ | rfl)
        · exact Or.inr hd
        · exact Or.inl rfl

theorem TableOk.closeSlot {sockfd : Int} {s : Server} (h : TableOk sockfd s) {i : Nat} (h1 : 1 ≤ i)
    (hi : i ≤ s.maxi) : TableOk sockfd (s.closeSlot i).2 := by
  have hfds : (s.closeSlot i).2.fds = Function.update s.fds i (-1) := fds_setSlot s i _
  unfold TableOk
  rw [hfds]
  refine h.set h1 hi le_rfl h.maxi_lt (Or.inl (by decide)) fun d => ?_
  show d ∈ s.conns.erase (s.fds i) ↔ _
  rw [Finset.mem_erase]
  constructor
  · rintro ⟨hne, hd⟩
    exact Or.inl ⟨hd, hne⟩
  · rintro (⟨hd, hne⟩ | ⟨h0, -⟩)
    · exact ⟨hne, hd⟩
    · omega

/-! ### Serving one client -/

/-- `n < 0` is never true of a `size_t`: the branch of lines 89-95 is dead. -/
theorem serve_eq (s : Server) (i : Nat) (r : Read MAXLINE) :
    s.serve i r =
      if BitVec.ofInt 64 r.ret = 0 then Server.closeSlot { s with buf := r.store s.buf } i
      else ([.writen (s.client i).fd (r.store s.buf) (BitVec.ofInt 64 r.ret)],
        { s with buf := r.store s.buf }) := by
  unfold Server.serve
  exact if_neg (BitVec.not_lt_zero)

theorem serve_maxi (s : Server) (i : Nat) (r : Read MAXLINE) : (s.serve i r).2.maxi = s.maxi := by
  rw [serve_eq]
  split <;> rfl

/-- Serving slot `i` touches no other slot. -/
theorem serve_client_ne (s : Server) {i j : Nat} (h : j ≠ i) (r : Read MAXLINE) :
    (s.serve i r).2.client j = s.client j := by
  rw [serve_eq]
  split
  · exact setSlot_ne _ h _
  · rfl

theorem TableOk.serve {sockfd : Int} {s : Server} (h : TableOk sockfd s) {i : Nat} (h1 : 1 ≤ i)
    (hi : i ≤ s.maxi) (r : Read MAXLINE) : TableOk sockfd (s.serve i r).2 := by
  have hbuf : TableOk sockfd { s with buf := r.store s.buf } := h
  rw [serve_eq]
  split
  · exact hbuf.closeSlot h1 hi
  · exact hbuf

theorem TableOk.scan {sockfd : Int} (read : Nat → Read MAXLINE) {is : List Nat} {s : Server}
    (h : TableOk sockfd s) (nready : Int) (his : ∀ i ∈ is, 1 ≤ i ∧ i ≤ s.maxi) :
    TableOk sockfd (scan read is s nready).2 := by
  induction is generalizing s nready with
  | nil => exact h
  | cons i is ih =>
    obtain ⟨h1, hi⟩ := his i List.mem_cons_self
    have htail : ∀ j ∈ is, 1 ≤ j ∧ j ≤ s.maxi := fun j hj => his j (List.mem_cons_of_mem _ hj)
    rw [PollServer.scan]
    split
    · exact ih h nready htail
    · split
      · have hs := h.serve h1 hi (read i)
        dsimp only
        split
        · exact hs
        · exact ih hs _ (by simpa only [Service.after, serve_maxi] using htail)
      · exact ih h nready htail

theorem TableOk.scanAll {sockfd : Int} {s s' : Server} (h : TableOk sockfd s) {a : Bool}
    {nready : Int} {read : Nat → Read MAXLINE}
    (hn : (s.scanAll a nready read).next = some s') : TableOk sockfd s' := by
  obtain rfl := Option.some.inj hn
  refine h.scan read nready fun i hi => ?_
  rw [List.mem_range'_1] at hi
  omega

theorem TableOk.round {sockfd : Int} {s s' : Server} (h : TableOk sockfd s) {inp : Input}
    (hv : Valid sockfd s inp) (hn : (s.round inp).next = some s') : TableOk sockfd s' := by
  have hp := h.poll inp.poll
  have hvp : inp.connfd = -1 ∨
      0 ≤ inp.connfd ∧ inp.connfd ∉ (s.poll inp.poll).1.conns ∧ inp.connfd ≠ sockfd := by
    rw [poll_conns]
    exact hv
  unfold Server.round at hn
  dsimp only at hn
  split at hn
  · cases ha : (s.poll inp.poll).1.accept inp.connfd with
    | none => simp [ha] at hn
    | some s1 =>
      have h1 := hp.accept hvp ha
      rw [ha] at hn
      dsimp only at hn
      split at hn
      · obtain rfl := Option.some.inj hn
        exact h1
      · exact h1.scanAll hn
  · exact hp.scanAll hn

theorem reachable_tableOk {sockfd : Int} {s : Server} (h : (system sockfd).Reachable s) :
    TableOk sockfd s :=
  h.invariant (fun _ => Start.tableOk) fun _ _ _ _ hi hs => hi.round hs.1 hs.2

/-! ## The table theorem -/

/-- Every open connection sits in exactly one entry that `poll` is given, and no closed
descriptor sits anywhere. -/
structure NoneLeaked (s : Server) : Prop where
  maxi_lt : s.maxi < OPEN_MAX
  stored : ∀ d ∈ s.conns, ∃ i, (1 ≤ i ∧ i ≤ s.maxi ∧ (s.client i).fd = d) ∧
    ∀ j, j < OPEN_MAX → (s.client j).fd = d → j = i
  opened : ∀ i, 1 ≤ i → i < OPEN_MAX → 0 ≤ (s.client i).fd → (s.client i).fd ∈ s.conns

/-- **The client table.**  No run leaks a connection. -/
theorem poll_noneLeaked (sockfd : Int) (s : Server) (h : (system sockfd).Reachable s) :
    NoneLeaked s := by
  have ht := reachable_tableOk h
  refine ⟨ht.maxi_lt, fun d hd => ?_, ht.opened⟩
  obtain ⟨i, h1, hlt, rfl⟩ := ht.stored d hd
  have h0 := (ht.conn _ hd).1
  have hi : i ≤ s.maxi := by
    by_contra hgt
    have := ht.unused i (by omega) hlt
    omega
  refine ⟨i, ⟨h1, hi, rfl⟩, fun j hj he => ?_⟩
  rcases Nat.eq_zero_or_pos j with rfl | hpos
  · exact absurd (he.symm.trans ht.listen) (ht.conn _ hd).2
  · exact (ht.inj i j h1 hlt hpos hj h0 he.symm).symm

/-- A listening socket and no connection yet. -/
def freshServer (sockfd : Int) : Server where
  client i := ⟨if i = 0 then sockfd else -1, POLLRDNORM, 0⟩
  maxi := 0
  buf := ⟨List.replicate MAXLINE 0, List.length_replicate⟩
  conns := ∅

theorem freshServer_start (sockfd : Int) : Start sockfd (freshServer sockfd) := by
  refine ⟨⟨rfl, rfl⟩, fun i h1 _ => ?_, rfl, rfl⟩
  have hi : i ≠ 0 := by omega
  simp [freshServer, hi]

/-- `poll` reports the slots `is` readable, `accept` gives `connfd`, and clients hang up. -/
def report (is : List Nat) (connfd : Int) : Input :=
  ⟨.ok fun i => if i ∈ is then POLLRDNORM else 0, connfd, fun _ => .eof⟩

/-- The server after its first turn, which accepted descriptor 5. -/
def oneClient : Server := ((freshServer 3).round (report [0] 5)).next.getD (freshServer 3)

theorem oneClient_reachable : (system 3).Reachable oneClient := by
  have h0 := System.Reachable.init (S := system 3) (freshServer_start 3)
  exact h0.next (e := report [0] 5) ⟨Or.inr ⟨by decide, by simp [freshServer], by decide⟩, rfl⟩

theorem poll_noneLeaked_oneClient : 5 ∈ oneClient.conns ∧ NoneLeaked oneClient :=
  ⟨by decide, poll_noneLeaked 3 oneClient oneClient_reachable⟩

end StudyDoc.PollServer
