import StudyDoc.Net.Syscall

/-!
# Section 16.3: `connect_nonb`

`connect` on a nonblocking socket, `select` until it is ready, `SO_ERROR` to see whether it worked.
A call's result is `none` if it succeeded, or its `errno`.

    returns 0 → connected                  ↔  no failed select is followed by SO_ERROR = 0
                                                                    (connect_nonb_established_iff)
    flags restored, or closed with cause   ↔  Finishes with the flags back, or TimesOut and closed
                                                                    (connect_nonb_proper_iff)

The first test assigns `connect(..) < 0` to `n`, which is 0 only if `connect` succeeded, as it
should be.  `select` is tested against 0 only: after -1 both sets are what they were before.
-/

namespace StudyDoc.ConnectNonb

/-! ## Algorithm -/

def EINPROGRESS : Errno := 115
def ETIMEDOUT : Errno := 110
def ECONNREFUSED : Errno := 111

abbrev Flags := BitVec 32

def O_NONBLOCK : Flags := 0x800

/-- The flags that `F_SETFL` can change. -/
def SETFL_MASK : Flags := 0x46c00

/-- `fcntl(sockfd, F_SETFL, arg)` on a file with the flags `fl`. -/
def setfl (fl arg : Flags) : Flags := (fl &&& ~~~SETFL_MASK) ||| (arg &&& SETFL_MASK)

/-- One result of `select`: it counts the sets that `sockfd` is in. -/
inductive Select where
  | ready (rset wset : Bool) (pos : rset = true ∨ wset = true)
  | timeout
  | fail (e : Errno)

namespace Select

/-- `FD_ISSET(sockfd, &rset)`; a failed call leaves the set alone. -/
def rset : Select → Bool
  | ready rset _ _ => rset
  | timeout => false
  | fail _ => true

/-- `FD_ISSET(sockfd, &wset)` -/
def wset : Select → Bool
  | ready _ wset _ => wset
  | timeout => false
  | fail _ => true

def failure : Select → Option Errno
  | ready _ _ _ => none
  | timeout => none
  | fail e => some e

end Select

/-- One result of `getsockopt(.., SO_ERROR, ..)`. -/
inductive Getsockopt where
  | soError (error : Int)
  | fail (e : Errno)

/-- What the calls answer, in the order in which they are made. -/
structure Calls where
  getfl : Option Errno
  nonblock : Option Errno
  connect : Option Errno
  select : Select
  getsockopt : Getsockopt
  restore : Option Errno
  close : Option Errno

/-- The socket, and `errno`. -/
structure Sock where
  fl : Flags
  isOpen : Bool
  errno : Errno
  deriving DecidableEq

namespace Sock

/-- What a call that failed leaves in `errno`. -/
def setErrno (s : Sock) : Option Errno → Sock
  | none => s
  | some e => { s with errno := e }

def fcntlSet (s : Sock) (arg : Flags) : Option Errno → Sock
  | none => { s with fl := setfl s.fl arg }
  | some e => { s with errno := e }

def close (s : Sock) : Option Errno → Sock
  | none => { s with isOpen := false }
  | some e => { s with errno := e }

end Sock

/-- `flags`: -1 if `F_GETFL` failed. -/
def savedFlags (fl : Flags) : Option Errno → Flags
  | none => fl
  | some _ => -1

/-- The first two calls: the socket does not block. -/
def prepare (c : Calls) (s : Sock) : Sock :=
  (s.setErrno c.getfl).fcntlSet (savedFlags s.fl c.getfl ||| O_NONBLOCK) c.nonblock

/-- `close(sockfd); errno = ETIMEDOUT; return -1` -/
def giveUp (c : Calls) (s : Sock) : Int × Sock := 
  (-1, (s.close c.close).setErrno (some ETIMEDOUT))

/-- From `done` on. -/
def done (c : Calls) (flags : Flags) (error : Int) (s : Sock) : Int × Sock :=
  if error ≠ 0 then giveUp c (s.fcntlSet flags c.restore)
  else (0, s.fcntlSet flags c.restore)

/-- The value returned and what is left; `none` is `exit(-1)`. -/
def connect_nonb (c : Calls) (s : Sock) : Option (Int × Sock) :=
  let flags := savedFlags s.fl c.getfl
  let s := prepare c s
  match c.connect with
  | none => some (done c flags 0 s)
  | some e =>
    let s := s.setErrno (some e)
    if s.errno ≠ EINPROGRESS then some (-1, s)
    else
      match c.select with
      | .timeout => some (giveUp c s)
      | select =>
        if select.rset || select.wset then
          match c.getsockopt with
          | .fail e => some (-1, (s.setErrno select.failure).setErrno (some e))
          | .soError error => some (done c flags error (s.setErrno select.failure))
        else none

/-- The socket on entry. -/
def entry (fl : Flags) (errno : Errno) : Sock := ⟨fl, true, errno⟩

/-! ### What is asked for -/

/-- `connect` succeeded at once, or `select` found the socket ready and there was no error. -/
def Established (c : Calls) : Prop :=
  c.connect = none ∨
  c.connect = some EINPROGRESS ∧ (∃ rset wset pos, c.select = .ready rset wset pos) ∧
    c.getsockopt = .soError 0

/-- Why there is no connection. -/
def cause (c : Calls) : Errno :=
  match c.connect, c.select, c.getsockopt with
  | some e, .timeout, _ => if e = EINPROGRESS then ETIMEDOUT else e
  | some e, _, .soError error => if e = EINPROGRESS then error else e
  | some e, _, .fail e' => if e = EINPROGRESS then e' else e
  | none, _, _ => 0

/-- Connected and the flags as they were, or closed and `errno` tells why. -/
def Proper (fl : Flags) (c : Calls) (res : Option (Int × Sock)) : Prop :=
  ∃ ret s, res = some (ret, s) ∧
    (ret = 0 ∧ s.fl = fl ∨ ret = -1 ∧ s.isOpen = false ∧ s.errno = cause c)

/-- The calls of `fcntl` give the flags on entry back. -/
def FlagsBack (fl : Flags) (c : Calls) : Prop :=
  match c.restore with
  | none => setfl fl (savedFlags fl c.getfl) = fl
  | some _ => c.nonblock ≠ none ∨ setfl fl (savedFlags fl c.getfl ||| O_NONBLOCK) = fl

/-- No error is found. -/
def Finishes (c : Calls) : Prop :=
  c.connect = none ∨
  c.connect = some EINPROGRESS ∧ c.select ≠ .timeout ∧ c.getsockopt = .soError 0

/-- The error is that the time is over. -/
def TimesOut (c : Calls) : Prop :=
  c.connect = some EINPROGRESS ∧ (c.select = .timeout ∨ c.getsockopt = .soError ETIMEDOUT)

/-! ## Lemmas -/

/-- The last `F_SETFL` decides. -/
theorem setfl_setfl (fl a b : Flags) : setfl (setfl fl a) b = setfl fl b := by
  unfold setfl
  ext i hi
  simp only [BitVec.getElem_or, BitVec.getElem_and, BitVec.getElem_not]
  cases fl[i] <;> cases a[i] <;> cases b[i] <;> cases SETFL_MASK[i] <;> rfl

theorem setfl_self (fl : Flags) : setfl fl fl = fl := by
  unfold setfl
  ext i hi
  simp only [BitVec.getElem_or, BitVec.getElem_and, BitVec.getElem_not]
  cases fl[i] <;> cases SETFL_MASK[i] <;> rfl

variable {fl : Flags} {errno : Errno} {c : Calls}

/-- They come back if the calls work. -/
theorem flagsBack_of_ok (hg : c.getfl = none) (hr : c.restore = none) : FlagsBack fl c := by
  unfold FlagsBack
  rw [hr, hg]
  exact setfl_self fl

/-! ### The exits -/

theorem connect_ok (h : c.connect = none) (s : Sock) :
    connect_nonb c s = some (done c (savedFlags s.fl c.getfl) 0 (prepare c s)) := by
  unfold connect_nonb
  rw [h]

theorem connect_refused {e : Errno} (h : c.connect = some e) (he : e ≠ EINPROGRESS) (s : Sock) :
    connect_nonb c s = some (-1, (prepare c s).setErrno (some e)) := by
  unfold connect_nonb
  simp only [h]
  exact if_pos he

theorem connect_timeout (h : c.connect = some EINPROGRESS) (hs : c.select = .timeout) (s : Sock) :
    connect_nonb c s = some (giveUp c ((prepare c s).setErrno (some EINPROGRESS))) := by
  unfold connect_nonb
  simp only [h, hs]
  exact if_neg fun hne => hne rfl

theorem select_isSet (hs : c.select ≠ .timeout) : (c.select.rset || c.select.wset) = true := by
  cases hsel : c.select with
  | ready rset wset pos => exact (Bool.or_eq_true _ _).mpr pos
  | timeout => exact absurd hsel hs
  | fail e => rfl

/-- The socket when `SO_ERROR` is fetched. -/
def selected (c : Calls) (s : Sock) : Sock :=
  ((prepare c s).setErrno (some EINPROGRESS)).setErrno c.select.failure

/-- The socket is in a set, also after a `select` that failed. -/
theorem connect_getsockopt (h : c.connect = some EINPROGRESS) (hs : c.select ≠ .timeout)
    (s : Sock) : connect_nonb c s =
      match c.getsockopt with
      | .fail e => some (-1, (selected c s).setErrno (some e))
      | .soError error => some (done c (savedFlags s.fl c.getfl) error (selected c s)) := by
  have hset := select_isSet hs
  unfold connect_nonb
  simp only [h]
  rw [if_neg fun hne => hne rfl, if_pos hset]
  rfl

theorem connect_cases (c : Calls) : c.connect = none ∨ (∃ e, c.connect = some e ∧ e ≠ EINPROGRESS) ∨
    c.connect = some EINPROGRESS := by
  rcases hc : c.connect with _ | e
  · exact Or.inl rfl
  · by_cases he : e = EINPROGRESS
    · exact Or.inr (Or.inr (he ▸ rfl))
    · exact Or.inr (Or.inl ⟨e, rfl, he⟩)

theorem done_ret (c : Calls) (flags : Flags) (error : Int) (s : Sock) :
    (done c flags error s).1 = 0 ↔ error = 0 := by
  unfold done
  split
  · next h => exact iff_of_false (by simp [giveUp]) h
  · next h => exact iff_of_true rfl (not_not.mp h)

/-- It returns 0 if no error was found. -/
theorem connect_nonb_ret (c : Calls) (s : Sock) :
    (∃ s', connect_nonb c s = some (0, s')) ↔ Finishes c := by
  have hdone : ∀ flags error t, (∃ s', some (done c flags error t) = some (0, s')) ↔ error = 0 := by
    intro flags error t
    rw [← done_ret c flags error t]
    constructor
    · rintro ⟨s', h⟩
      rw [Option.some.inj h]
    · intro h
      exact ⟨(done c flags error t).2, by rw [← h]⟩
  unfold Finishes
  rcases connect_cases c with hc | ⟨e, hc, he⟩ | hc
  · rw [connect_ok hc, hdone]
    simp [hc]
  · rw [connect_refused hc he]
    simp [hc, he]
  · by_cases hs : c.select = .timeout
    · rw [connect_timeout hc hs]
      simp [hc, hs, giveUp]
    · rw [connect_getsockopt hc hs]
      cases hg : c.getsockopt with
      | fail e => simp [hc]
      | soError error =>
        simp only
        rw [hdone]
        simp [hc, hs]

/-! ### What is left at the exits -/

theorem proper_some {ret : Int} {s : Sock} : Proper fl c (some (ret, s)) ↔
    ret = 0 ∧ s.fl = fl ∨ ret = -1 ∧ s.isOpen = false ∧ s.errno = cause c := by
  unfold Proper
  constructor
  · rintro ⟨ret', s', h, hs⟩
    obtain ⟨rfl, rfl⟩ := Prod.mk.inj (Option.some.inj h)
    exact hs
  · exact fun hs => ⟨ret, s, rfl, hs⟩

@[simp] theorem isOpen_setErrno (s : Sock) (r : Option Errno) :
    (s.setErrno r).isOpen = s.isOpen := by
  cases r <;> rfl

@[simp] theorem fl_setErrno (s : Sock) (r : Option Errno) : (s.setErrno r).fl = s.fl := by
  cases r <;> rfl

@[simp] theorem isOpen_fcntlSet (s : Sock) (arg : Flags) (r : Option Errno) :
    (s.fcntlSet arg r).isOpen = s.isOpen := by
  cases r <;> rfl

@[simp] theorem isOpen_entry (fl : Flags) (errno : Errno) : (entry fl errno).isOpen = true := rfl

@[simp] theorem isOpen_prepare (c : Calls) (s : Sock) : (prepare c s).isOpen = s.isOpen := by
  simp [prepare]

theorem proper_giveUp {s : Sock} (ho : s.isOpen = true) :
    Proper fl c (some (giveUp c s)) ↔ c.close = none ∧ cause c = ETIMEDOUT := by
  unfold giveUp
  rw [proper_some]
  cases hclose : c.close with
  | none => simp [Sock.close, Sock.setErrno, eq_comm]
  | some e => simp [Sock.close, ho]

theorem fl_fcntlSet (s : Sock) (arg : Flags) (r : Option Errno) :
    (s.fcntlSet arg r).fl = if r = none then setfl s.fl arg else s.fl := by
  cases r <;> rfl

theorem restored_iff {s : Sock} (hs : s.fl = (prepare c (entry fl errno)).fl) :
    (s.fcntlSet (savedFlags fl c.getfl) c.restore).fl = fl ↔ FlagsBack fl c := by
  have hprep : (prepare c (entry fl errno)).fl =
      if c.nonblock = none then setfl fl (savedFlags fl c.getfl ||| O_NONBLOCK) else fl := by
    unfold prepare
    rw [fl_fcntlSet, fl_setErrno]
    rfl
  unfold FlagsBack
  rw [fl_fcntlSet, hs, hprep]
  cases hr : c.restore with
  | none =>
    by_cases hn : c.nonblock = none
    · simp [hn, setfl_setfl]
    · simp [hn]
  | some e =>
    by_cases hn : c.nonblock = none
    · simp [hn]
    · simp [hn]

theorem proper_done {s : Sock} {error : Int} (hs : s.fl = (prepare c (entry fl errno)).fl)
    (ho : s.isOpen = true) :
    Proper fl c (some (done c (savedFlags (entry fl errno).fl c.getfl) error s)) ↔
      (error = 0 ∧ FlagsBack fl c) ∨ (error ≠ 0 ∧ c.close = none ∧ cause c = ETIMEDOUT) := by
  unfold done
  by_cases he : error ≠ 0
  · rw [if_pos he, proper_giveUp (by rw [isOpen_fcntlSet, ho])]
    simp [he]
  · have hfl : (entry fl errno).fl = fl := rfl
    rw [if_neg he, proper_some, hfl, restored_iff hs]
    simp [not_not.mp he]

/-! ## Main results -/

theorem connect_nonb_established_iff (c : Calls) (s : Sock) :
    ((∃ s', connect_nonb c s = some (0, s')) → Established c) ↔
      ¬ (c.connect = some EINPROGRESS ∧ (∃ e, c.select = .fail e) ∧ c.getsockopt = .soError 0) := by
  rw [connect_nonb_ret]
  unfold Finishes Established
  cases hsel : c.select with
  | ready rset wset pos => simp [pos]
  | timeout => simp
  | fail e =>
    rcases connect_cases c with hc | ⟨e, hc, he⟩ | hc
    · simp [hc]
    · simp [hc, he]
    · simp [hc]

/-- A signal arrives in `select`; the connection is not there yet. -/
def interrupted : Calls := ⟨none, none, some EINPROGRESS, .fail EINTR, .soError 0, none, none⟩

theorem connect_nonb_not_established :
    connect_nonb interrupted (entry 2 0) = some (0, ⟨2, true, EINTR⟩) ∧
      ¬ Established interrupted := by
  refine ⟨by decide, ?_⟩
  rintro (h | ⟨-, ⟨rset, wset, pos, hsel⟩, -⟩)
  · cases h
  · cases hsel

theorem connect_nonb_proper_iff (fl : Flags) (errno : Errno) (c : Calls) :
    Proper fl c (connect_nonb c (entry fl errno)) ↔
      (Finishes c ∧ FlagsBack fl c) ∨ (TimesOut c ∧ c.close = none) := by
  unfold Finishes TimesOut
  rcases connect_cases c with hc | ⟨e, hc, he⟩ | hc
  · rw [connect_ok hc, proper_done rfl (by simp)]
    simp [hc]
  · rw [connect_refused hc he, proper_some]
    simp [hc, he]
  · by_cases hs : c.select = .timeout
    · rw [connect_timeout hc hs, proper_giveUp (by simp)]
      simp [hc, hs, cause]
    · have hfl : (selected c (entry fl errno)).fl = (prepare c (entry fl errno)).fl := by
        simp [selected]
      have hopen : (selected c (entry fl errno)).isOpen = true := by simp [selected]
      rw [connect_getsockopt hc hs]
      cases hg : c.getsockopt with
      | fail e => simp [proper_some, hc, hs, hopen]
      | soError error =>
        have hcause : cause c = error := by
          unfold cause
          rw [hc, hg]
          cases hsel : c.select with
          | ready rset wset pos => rfl
          | timeout => exact absurd hsel hs
          | fail e => rfl
        have hne : ETIMEDOUT ≠ 0 := by decide
        simp only
        rw [proper_done hfl hopen, hcause]
        simp only [hc, hs, Getsockopt.soError.injEq]
        grind

/-- The connection is refused at once. -/
def refused : Calls := ⟨none, none, some ECONNREFUSED, .timeout, .soError 0, none, none⟩

/-- -1 is returned with the socket open, and it does not block. -/
theorem connect_nonb_not_proper :
    connect_nonb refused (entry 2 0) = some (-1, ⟨2 ||| O_NONBLOCK, true, ECONNREFUSED⟩) ∧
      ¬ Proper 2 refused (connect_nonb refused (entry 2 0)) := by
  have hres : connect_nonb refused (entry 2 0) =
      some (-1, ⟨2 ||| O_NONBLOCK, true, ECONNREFUSED⟩) := by decide
  refine ⟨hres, ?_⟩
  rw [hres, proper_some]
  decide

end StudyDoc.ConnectNonb
