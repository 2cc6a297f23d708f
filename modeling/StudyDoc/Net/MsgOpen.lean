import StudyDoc.Net.Syscall

/-!
# `msg_main.c` and `msg.c`: a descriptor from a child process

`my_open` forks `openfile`, decides from its exit code whether there is a descriptor, and takes the
descriptor itself from a message on a socket pair.  A value is `none` until it is assigned.

    my_open returns a delivered descriptor or -1 ↔ ¬ (exit code 0 ∧ recvmsg ≤ 0)   (my_open_iff)

The return value of `readfd` is not looked at, and it leaves `*recvfd` alone when `recvmsg` has
no message.

    openfile exits with 0 ↔ argc = 4, open and sendmsg do not fail       (openfile_exit_zero_iff)
    with that child: such a descriptor or -1 ↔ ¬ (that ∧ recvmsg ≤ 0)      (my_open_openfile_iff)

`writefd` does not set `msg_iov` and `msg_iovlen`, so what `sendmsg` sends is not said here.
-/

namespace StudyDoc.MsgOpen

/-! ## Algorithm -/

def SOL_SOCKET : Int := 1
def SCM_RIGHTS : Int := 1

/-- A `struct cmsghdr` takes 16 bytes. -/
def CMSG_LEN (n : Nat) : Nat := 16 + n

/-- A control message and the `int` at its `CMSG_DATA`. -/
structure Cmsg where
  cmsg_len : Nat
  cmsg_level : Int
  cmsg_type : Int
  data : Int

/-- One result of `recvmsg`. -/
inductive RecvMsg where
  | message (n : Nat) (pos : 0 < n) (cmsg : Option Cmsg)
  | eof
  | fail (e : Errno)

namespace RecvMsg

def ret : RecvMsg → Int
  | message n _ _ => n
  | eof => 0
  | fail _ => -1

/-- `CMSG_FIRSTHDR(&msg)` -/
def cmsg : RecvMsg → Option Cmsg
  | message _ _ c => c
  | eof => none
  | fail _ => none

def errno (errno : Errno) : RecvMsg → Errno
  | fail e => e
  | message _ _ _ => errno
  | eof => errno

end RecvMsg

/-- The value returned and `*recvfd` after it; or the process exits with the status in `error`. -/
def readfd (r : RecvMsg) (recvfd : Option Int) : Except Int (Int × Option Int) :=
  if r.ret ≤ 0 then .ok (r.ret, recvfd)
  else
    match r.cmsg with
    | some imptr =>
      if imptr.cmsg_len = CMSG_LEN 4 then
        if imptr.cmsg_level ≠ SOL_SOCKET then .error (-1)
        else if imptr.cmsg_type ≠ SCM_RIGHTS then .error (-1)
        else .ok (r.ret, some imptr.data)
      else .ok (r.ret, some (-1))
    | none => .ok (r.ret, some (-1))

/-- What `waitpid` finds: `WEXITSTATUS` is one byte. -/
inductive Status where
  | exited (code : UInt8)
  | signaled (sig : Nat)
  deriving DecidableEq

/-- The value returned and `errno`. -/
def my_open (errno : Errno) (status : Status) (r : RecvMsg) : Except Int (Option Int × Errno) :=
  match status with
  | .signaled _ => .error (-1)
  | .exited code =>
    if code = 0 then
      match readfd r none with
      | .ok (_, fd) => .ok (fd, r.errno errno)
      | .error status => .error status
    else .ok (some (-1), code.toNat)

/-- The result of a call that can fail. -/
inductive Result where
  | value (n : Int)
  | fail (e : Errno)

/-- `main` of `openfile`: the argument of `exit`.  `sent` is what `writefd` returns. -/
def openfile (argc : Int) (opened sent : Result) : Int :=
  if argc ≠ 4 then -1
  else
    match opened with
    | .fail e => e
    | .value _ =>
      match sent with
      | .fail e => if 0 < e then e else 255
      | .value _ => 0

/-- The status that `exit(n)` leaves for `waitpid`. -/
def exitStatus (n : Int) : Status := .exited (UInt8.ofNat (n % 256).toNat)

/-! ### What was received -/

/-- The descriptor in the control data of a message. -/
def RecvMsg.delivered (r : RecvMsg) : Option Int :=
  r.cmsg.bind fun c =>
    if c.cmsg_level = SOL_SOCKET ∧ c.cmsg_type = SCM_RIGHTS ∧ CMSG_LEN 4 ≤ c.cmsg_len then
      some c.data
    else none

/-- If the call returns, it returns -1 or a descriptor that was delivered. -/
def Proper (r : RecvMsg) (res : Except Int (Option Int × Errno)) : Prop :=
  ∀ fd errno, res = .ok (fd, errno) → fd = some (-1) ∨ fd ≠ none ∧ fd = r.delivered

/-- The child says that it sent a descriptor, and no message came. -/
def Missed (status : Status) (r : RecvMsg) : Prop := status = .exited 0 ∧ r.ret ≤ 0

/-! ### Lemmas -/

theorem readfd_untouched {r : RecvMsg} (h : r.ret ≤ 0) (recvfd : Option Int) :
    readfd r recvfd = .ok (r.ret, recvfd) := by
  unfold readfd
  exact if_pos h

/-- After a message `*recvfd` is assigned, whatever was in it. -/
theorem readfd_assigned {r : RecvMsg} (h : 0 < r.ret) {recvfd fd : Option Int} {n : Int}
    (hr : readfd r recvfd = .ok (n, fd)) : fd = some (-1) ∨ fd ≠ none ∧ fd = r.delivered := by
  unfold readfd at hr
  rw [if_neg (by omega)] at hr
  cases hc : r.cmsg with
  | none =>
    rw [hc] at hr
    have hfd := (Prod.mk.inj (Except.ok.inj hr)).2
    exact Or.inl hfd.symm
  | some imptr =>
    rw [hc] at hr
    dsimp only at hr
    by_cases hlen : imptr.cmsg_len = CMSG_LEN 4
    · rw [if_pos hlen] at hr
      by_cases hlevel : imptr.cmsg_level = SOL_SOCKET
      · rw [if_neg (not_not_intro hlevel)] at hr
        by_cases htype : imptr.cmsg_type = SCM_RIGHTS
        · rw [if_neg (not_not_intro htype)] at hr
          have hfd := (Prod.mk.inj (Except.ok.inj hr)).2
          have hd : r.delivered = some imptr.data := by
            unfold RecvMsg.delivered
            rw [hc]
            exact if_pos ⟨hlevel, htype, Nat.le_of_eq hlen.symm⟩
          refine Or.inr ⟨?_, ?_⟩
          · rw [← hfd]
            exact Option.some_ne_none _
          · rw [← hfd, hd]
        · rw [if_pos htype] at hr
          exact absurd hr (by simp)
      · rw [if_pos hlevel] at hr
        exact absurd hr (by simp)
    · rw [if_neg hlen] at hr
      have hfd := (Prod.mk.inj (Except.ok.inj hr)).2
      exact Or.inl hfd.symm

theorem my_open_missed (errno : Errno) {status : Status} {r : RecvMsg} (h : Missed status r) :
    my_open errno status r = .ok (none, r.errno errno) := by
  obtain ⟨rfl, hr⟩ := h
  unfold my_open
  dsimp only
  rw [if_pos rfl, readfd_untouched hr]

theorem not_proper_of_missed (errno : Errno) {status : Status} {r : RecvMsg}
    (h : Missed status r) : ¬ Proper r (my_open errno status r) := by
  intro hp
  rcases hp none (r.errno errno) (my_open_missed errno h) with hfd | hfd
  · exact absurd hfd (by simp)
  · exact hfd.1 rfl

theorem my_open_proper (errno : Errno) {status : Status} {r : RecvMsg} (h : ¬ Missed status r) :
    Proper r (my_open errno status r) := by
  intro fd errno' hopen
  cases status with
  | signaled sig => exact absurd hopen (by simp [my_open])
  | exited code =>
    by_cases h0 : code = 0
    · have hret : 0 < r.ret := by
        apply Classical.byContradiction
        intro hle
        exact h ⟨by rw [h0], by omega⟩
      unfold my_open at hopen
      dsimp only at hopen
      rw [if_pos h0] at hopen
      cases hread : readfd r none with
      | error s => rw [hread] at hopen; exact absurd hopen (by simp)
      | ok p =>
        obtain ⟨n, fd'⟩ := p
        rw [hread] at hopen
        have hfd := (Prod.mk.inj (Except.ok.inj hopen)).1
        rw [← hfd]
        exact readfd_assigned hret hread
    · unfold my_open at hopen
      dsimp only at hopen
      rw [if_neg h0] at hopen
      exact Or.inl (Prod.mk.inj (Except.ok.inj hopen)).1.symm

/-! ## Main results -/

/-- **The descriptor.**  `my_open` returns a delivered descriptor or -1 unless the child exits
with 0 and `recvmsg` has no message for it; then it returns what was never assigned. -/
theorem my_open_iff (errno : Errno) (status : Status) (r : RecvMsg) :
    Proper r (my_open errno status r) ↔ ¬ Missed status r := by
  constructor
  · intro hp hm
    exact not_proper_of_missed errno hm hp
  · exact my_open_proper errno

/-- `recvmsg` has nothing: the child exited with 0 and sent no message. -/
theorem my_open_unassigned :
    ¬ (∀ errno status r, Proper r (my_open errno status r)) ∧
      my_open 0 (.exited 0) .eof = .ok (none, 0) := by
  refine ⟨fun h => ?_, rfl⟩
  rcases h 0 (.exited 0) .eof none 0 rfl with hne | hne
  · exact absurd hne (by simp)
  · exact hne.1 rfl

theorem exitStatus_ne_zero {e : Int} (h : 0 < e ∧ e < 256) : exitStatus e ≠ .exited 0 := by
  intro he
  have hcode : UInt8.ofNat (e % 256).toNat = 0 := Status.exited.inj he
  have hnat : (UInt8.ofNat (e % 256).toNat).toNat = 0 := by rw [hcode]; rfl
  rw [UInt8.toNat_ofNat'] at hnat
  omega

/-- `openfile` got through: `sendmsg` did not fail. -/
def Sent (argc : Int) (opened sent : Result) : Prop :=
  argc = 4 ∧ (∃ fd, opened = .value fd) ∧ ∃ n, sent = .value n

/-- No `errno` looks like 0 in the exit status. -/
theorem openfile_exit_zero_iff {argc : Int} {opened sent : Result}
    (ho : ∀ e, opened = .fail e → 0 < e ∧ e < 256)
    (hs : ∀ e, sent = .fail e → 0 < e ∧ e < 256) :
    exitStatus (openfile argc opened sent) = .exited 0 ↔ Sent argc opened sent := by
  unfold openfile
  by_cases hargc : argc ≠ 4
  · rw [if_pos hargc]
    exact ⟨fun h => absurd h (by decide), fun h => absurd h.1 hargc⟩
  · rw [if_neg hargc]
    cases opened with
    | fail e =>
      refine ⟨fun h => absurd h (exitStatus_ne_zero (ho e rfl)), ?_⟩
      rintro ⟨-, ⟨fd, hfd⟩, -⟩
      cases hfd
    | value fd =>
      cases sent with
      | fail e =>
        have he := hs e rfl
        show exitStatus (if 0 < e then e else 255) = _ ↔ _
        rw [if_pos he.1]
        refine ⟨fun h => absurd h (exitStatus_ne_zero he), ?_⟩
        rintro ⟨-, -, n, hn⟩
        cases hn
      | value n => exact ⟨fun _ => ⟨not_not.mp hargc, ⟨fd, rfl⟩, n, rfl⟩, fun _ => rfl⟩

/-- **Both ends.**  With `openfile` as the child, `my_open` returns a delivered descriptor or -1
unless the child got through and there is no message all the same. -/
theorem my_open_openfile_iff (errno : Errno) {argc : Int} {opened sent : Result} {r : RecvMsg}
    (ho : ∀ e, opened = .fail e → 0 < e ∧ e < 256)
    (hs : ∀ e, sent = .fail e → 0 < e ∧ e < 256) :
    Proper r (my_open errno (exitStatus (openfile argc opened sent)) r) ↔
      ¬ (Sent argc opened sent ∧ r.ret ≤ 0) := by
  rw [← openfile_exit_zero_iff ho hs]
  constructor
  · intro hp hm
    exact not_proper_of_missed errno hm hp
  · exact my_open_proper errno

end StudyDoc.MsgOpen
