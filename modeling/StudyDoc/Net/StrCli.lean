import StudyDoc.Lib.Transition
import StudyDoc.Net.Readline
import Mathlib.Data.List.TakeWhile

/-!
# `client.c` and `client2.c`: `str_cli` with `select` and stdio

The loop of either client, step by step, with its surroundings: bytes entered on stdin that the
kernel holds (`tty`), the buffer of the stream (`stdio`), and the receive queue of the socket.
`select` sees `tty`; `fgets` takes all of it into `stdio` and hands out the first line.

    every fgets takes in one line at most  →
      blocked in select: no line in stdio, all but the start of a line was passed on
                                                                      (str_cli_passed)
-/

namespace StudyDoc.StrCli

open Transition Lines Readline

/-! ## Algorithm -/

inductive Client where
  | client
  | client2
  deriving DecidableEq

/-- `BUF_LEN` of `client2.c`. -/
def BUF_LEN : Nat := 1024

/-- The array that `fgets` fills: `sendline[255]` or `sendbuf[BUF_LEN]`. -/
def Client.sendLen : Client → Nat
  | .client => 255
  | .client2 => BUF_LEN

/-- `recvline[255]` of `client.c`. -/
def recvLen : Nat := 255

/-- The bytes of a string up to its NUL. -/
def cstr (bs : List UInt8) : List UInt8 := bs.takeWhile (· != 0)

def zeros : Buf BUF_LEN := ⟨List.replicate BUF_LEN 0, List.length_replicate⟩

/-- `fputs(buf, stdout)`: with no NUL in `buf` it goes on into `behind`, the bytes after it. -/
def fputs (buf : Buf BUF_LEN) (behind : List UInt8) : List UInt8 :=
  if 0 ∈ buf.1 then cstr buf.1 else buf.1 ++ behind

structure Input where
  /-- Entered and not read yet. -/
  tty : List UInt8
  eof : Bool
  /-- The buffer of the stream. -/
  stdio : List UInt8
  /-- All bytes entered so far. -/
  entered : List UInt8
  /-- All bytes handed to `writen` so far. -/
  passed : List UInt8

structure Conn where
  /-- What `writen` got into the socket. -/
  sent : List UInt8
  /-- The receive queue. -/
  rcv : List UInt8
  /-- The server closed the connection. -/
  fin : Bool
  /-- All bytes read from the socket. -/
  received : List UInt8
  recvbuf : Buf BUF_LEN
  /-- What `client2.c` wrote to stdout for the server. -/
  out : List UInt8
  /-- `fputs` read behind `recvbuf`. -/
  overread : Bool

inductive Pc where
  | select
  /-- `FD_ISSET(sockfd, &rset)`; the flag is that of stdin. -/
  | sock (stdin : Bool)
  | fgets
  | returned
  | exited
  deriving DecidableEq

structure State where
  pc : Pc
  inp : Input
  conn : Conn

def start : State := ⟨.select, ⟨[], false, [], [], []⟩, ⟨[], [], false, [], zeros, [], false⟩⟩

namespace Input

def Ready (i : Input) : Prop := i.tty ≠ [] ∨ i.eof = true

instance (i : Input) : Decidable i.Ready := inferInstanceAs (Decidable (_ ∨ _))

/-- What `fgets(buf, n, fp)` hands out of the buffer. -/
def piece (n : Nat) (i : Input) : List UInt8 := takePiece newline (n - 1) i.stdio

/-- `fgets` needs no more bytes. -/
def Complete (n : Nat) (i : Input) : Prop := Full newline (n - 1) (i.piece n)

instance (n : Nat) (i : Input) : Decidable (i.Complete n) := inferInstanceAs (Decidable (_ ∨ _))

/-- No more bytes will come. -/
def Ended (i : Input) : Prop := i.tty = [] ∧ i.eof = true

instance (i : Input) : Decidable i.Ended := inferInstanceAs (Decidable (_ ∧ _))

def enter (i : Input) (bytes : List UInt8) : Input :=
  { i with tty := i.tty ++ bytes, entered := i.entered ++ bytes }

/-- `fgets` reads all there is. -/
def fill (i : Input) : Input := { i with stdio := i.stdio ++ i.tty, tty := [] }

/-- A line goes to `writen`, up to its first NUL. -/
def pass (n : Nat) (i : Input) : Input :=
  { i with stdio := dropPiece newline (n - 1) i.stdio, passed := i.passed ++ cstr (i.piece n) }

end Input

namespace Conn

def Ready (k : Conn) : Prop := k.rcv ≠ [] ∨ k.fin = true

instance (k : Conn) : Decidable k.Ready := inferInstanceAs (Decidable (_ ∨ _))

/-- The result that `read` can have. -/
def Gives (k : Conn) : Read BUF_LEN → Prop
  | .data bytes _ _ => bytes <+: k.rcv
  | .eof => k.rcv = [] ∧ k.fin = true
  | .fail _ => True

instance (k : Conn) (r : Read BUF_LEN) : Decidable (k.Gives r) := by
  cases r <;> unfold Gives <;> infer_instance

/-- `fputs(recvbuf, stdout)` behind `read(sockfd, recvbuf, BUF_LEN)`. -/
def recv (k : Conn) (r : Read BUF_LEN) (behind : List UInt8) : Conn :=
  let recvbuf := r.store k.recvbuf
  { k with
    rcv := k.rcv.drop r.bytes.length
    received := k.received ++ r.bytes
    recvbuf := recvbuf
    out := k.out ++ fputs recvbuf behind
    overread := k.overread || decide (0 ∉ recvbuf.1) }

/-- The line that `readline(clifd, recvline, 255)` of `client.c` reads. -/
def line (k : Conn) : List UInt8 := takePiece newline (recvLen - 1) k.rcv

/-- `readline` need not wait for more. -/
def LineReady (k : Conn) : Prop :=
  k.line ≠ [] ∧ (Full newline (recvLen - 1) k.line ∨ k.fin = true)

instance (k : Conn) : Decidable k.LineReady := inferInstanceAs (Decidable (_ ∧ ((_ ∨ _) ∨ _)))

end Conn

inductive Event where
  /-- The user enters bytes. -/
  | enter (bytes : List UInt8)
  /-- End of file on stdin. -/
  | hangup
  /-- Bytes of the server arrive. -/
  | arrive (bytes : List UInt8)
  | close
  | select
  | selectFail (e : Errno)
  /-- `read` of `client2.c`, and the bytes behind `recvbuf` up to a NUL. -/
  | read (r : Read BUF_LEN) (behind : List UInt8)
  /-- `readline` of `client.c` returns a line, 0, or -1. -/
  | readline
  | readlineEof
  | readlineFail
  /-- `fgets` reads from stdin. -/
  | fill
  /-- `fgets` returns a line, and `writen` writes so many bytes of it. -/
  | line (written : Nat)
  /-- `fgets` returns `NULL`. -/
  | eof

namespace State

/-- To the next `select`; `client2.c` clears its buffers, and `client.c` does not use `recvbuf`. -/
def again (s : State) : State := { s with pc := .select, conn := { s.conn with recvbuf := zeros } }

/-- From the branch of the socket on to that of stdin, if its flag is set. -/
def next (s : State) (stdin : Bool) : State := if stdin then { s with pc := .fgets } else s.again

def stepSelect (c : Client) (s : State) : Event → Option State
  | .select =>
    if s.conn.Ready then some { s with pc := .sock s.inp.Ready }
    else if s.inp.Ready then some { s with pc := .fgets }
    else none
  | .selectFail e =>
    match c with
    -- `rset` is as `FD_SET` left it
    | .client2 => some { s with pc := .sock true }
    | .client => some (if e = EINTR then s else { s with pc := .exited })
  | _ => none

def stepSock (c : Client) (s : State) (stdin : Bool) : Event → Option State
  | .read r behind =>
    if c = .client2 ∧ s.conn.Gives r ∧ 0 ∉ behind then
      if r.ret = 0 then some { s with pc := .exited }
      else some ({ s with conn := s.conn.recv r behind }.next stdin)
    else none
  | .readline =>
    if c = .client ∧ s.conn.LineReady then
      some ({ s with conn := { s.conn with
        rcv := s.conn.rcv.drop s.conn.line.length
        received := s.conn.received ++ s.conn.line } }.next stdin)
    else none
  | .readlineEof =>
    if c = .client ∧ s.conn.rcv = [] ∧ s.conn.fin = true then some { s with pc := .exited }
    else none
  | .readlineFail => if c = .client then some (s.next stdin) else none
  | _ => none

def stepFgets (c : Client) (s : State) : Event → Option State
  | .fill =>
    if s.inp.tty ≠ [] ∧ ¬ s.inp.Complete c.sendLen then some { s with inp := s.inp.fill } else none
  | .line written =>
    let line := cstr (s.inp.piece c.sendLen)
    if (s.inp.Complete c.sendLen ∨ s.inp.Ended ∧ s.inp.stdio ≠ []) ∧ written ≤ line.length then
      some { s with
        inp := s.inp.pass c.sendLen
        conn := { s.conn with sent := s.conn.sent ++ line.take written } }.again
    else none
  | .eof =>
    if s.inp.Ended ∧ s.inp.stdio = [] then
      some { s with pc := if c = .client2 then .returned else .exited }
    else none
  | _ => none

def step (c : Client) (s : State) : Event → Option State
  | .enter bytes => if s.inp.eof then none else some { s with inp := s.inp.enter bytes }
  | .hangup => some { s with inp := { s.inp with eof := true } }
  | .arrive bytes =>
    if s.conn.fin then none else some { s with conn := { s.conn with rcv := s.conn.rcv ++ bytes } }
  | .close => some { s with conn := { s.conn with fin := true } }
  | e =>
    match s.pc with
    | .select => s.stepSelect c e
    | .sock stdin => s.stepSock c stdin e
    | .fgets => s.stepFgets c e
    | .returned => none
    | .exited => none

end State

def strCli (c : Client) : System State Event where
  init s := s = start
  step s e s' := s.step c e = some s'

/-- `select` waits. -/
def Blocked (s : State) : Prop := s.pc = .select ∧ ¬ s.conn.Ready ∧ ¬ s.inp.Ready

instance (s : State) : Decidable (Blocked s) := inferInstanceAs (Decidable (_ ∧ _ ∧ _))

/-- No line, nor the end of one. -/
def NoLine (bs : List UInt8) : Prop := ∀ b ∈ bs, newline b = false

instance (bs : List UInt8) : Decidable (NoLine bs) := inferInstanceAs (Decidable (∀ b ∈ bs, _))

/-- No line is left in the buffer of the stream, and what was entered before went to `writen`. -/
def Passed (s : State) : Prop :=
  Blocked s → NoLine s.inp.stdio ∧ s.inp.entered = s.inp.passed ++ s.inp.stdio

/-- What `fgets` takes in and does not hand out at once meets `R`; no NUL is entered. -/
def Fills (R : List UInt8 → Prop) (c : Client) (s : State) : Event → Prop
  | .fill => R (dropPiece newline (c.sendLen - 1) (s.inp.stdio ++ s.inp.tty))
  | .line _ => 0 ∉ s.inp.piece c.sendLen
  | _ => True

/-- `fgets` takes in one line at most, and perhaps the start of another. -/
def OneLine : Client → State → Event → Prop := Fills NoLine

/-- `fgets` takes in one line and no more. -/
def Whole : Client → State → Event → Prop := Fills (· = [])

/-! ### What the steps leave alone -/

theorem next_inp (s : State) (stdin : Bool) : (s.next stdin).inp = s.inp := by
  unfold State.next
  split <;> rfl

theorem stepSelect_inp {c : Client} {s s' : State} {e : Event} (h : s.stepSelect c e = some s') :
    s'.inp = s.inp := by
  unfold State.stepSelect at h
  split at h
  · split at h
    · rw [← Option.some.inj h]
    · split at h
      · rw [← Option.some.inj h]
      · exact absurd h (by simp)
  · split at h
    · rw [← Option.some.inj h]
    · rw [← Option.some.inj h]
      split <;> rfl
  · exact absurd h (by simp)

theorem stepSock_inp {c : Client} {s s' : State} {stdin : Bool} {e : Event}
    (h : s.stepSock c stdin e = some s') : s'.inp = s.inp := by
  unfold State.stepSock at h
  split at h
  · obtain ⟨-, h⟩ := Option.ite_none_right_eq_some.mp h
    split at h
    · rw [← Option.some.inj h]
    · rw [← Option.some.inj h, next_inp]
  · obtain ⟨-, h⟩ := Option.ite_none_right_eq_some.mp h
    rw [← Option.some.inj h, next_inp]
  · obtain ⟨-, h⟩ := Option.ite_none_right_eq_some.mp h
    rw [← Option.some.inj h]
  · obtain ⟨-, h⟩ := Option.ite_none_right_eq_some.mp h
    rw [← Option.some.inj h, next_inp]
  · exact absurd h (by simp)

theorem cstr_eq_self {bs : List UInt8} (h : 0 ∉ bs) : cstr bs = bs := by
  unfold cstr
  rw [List.takeWhile_eq_self_iff]
  intro b hb
  rw [bne_iff_ne]
  rintro rfl
  exact h hb

/-! ### What the stream holds back -/

section

variable {R : List UInt8 → Prop} {c : Client}

/-- Between two lines `R` holds of what the stream holds back; while `fgets` runs, of what it
will hold back. -/
structure Kept (R : List UInt8 → Prop) (c : Client) (s : State) : Prop where
  account : s.inp.entered = s.inp.passed ++ s.inp.stdio ++ s.inp.tty
  rest : s.pc ≠ .fgets → R s.inp.stdio
  filled : s.pc = .fgets → R (dropPiece newline (c.sendLen - 1) s.inp.stdio)

variable (hnil : R []) (hdrop : ∀ bs m, R bs → R (bs.drop m))

include hdrop in
theorem Kept.of_inp {s s' : State} (h : Kept R c s) (hpc : s.pc ≠ .fgets)
    (hinp : s'.inp = s.inp) : Kept R c s' := by
  have hrest := h.rest hpc
  refine ⟨?_, fun _ => ?_, fun _ => ?_⟩
  · rw [hinp]
    exact h.account
  · rw [hinp]
    exact hrest
  · rw [hinp]
    exact hdrop _ _ hrest

theorem Kept.of_stdio {s s' : State} (h : Kept R c s) (hpc : s'.pc = s.pc)
    (hstdio : s'.inp.stdio = s.inp.stdio)
    (hacc : s'.inp.entered = s'.inp.passed ++ s'.inp.stdio ++ s'.inp.tty) : Kept R c s' := by
  refine ⟨hacc, ?_, ?_⟩
  · rw [hpc, hstdio]
    exact h.rest
  · rw [hpc, hstdio]
    exact h.filled

include hnil in
theorem kept_fgets {s s' : State} {e : Event} (h : Kept R c s) (hpc : s.pc = .fgets)
    (hq : Fills R c s e) (hs : s.stepFgets c e = some s') : Kept R c s' := by
  unfold State.stepFgets at hs
  split at hs
  · obtain ⟨-, hs⟩ := Option.ite_none_right_eq_some.mp hs
    obtain rfl := Option.some.inj hs
    refine ⟨?_, fun hne => absurd hpc hne, fun _ => hq⟩
    show s.inp.entered = s.inp.passed ++ (s.inp.stdio ++ s.inp.tty) ++ []
    rw [h.account, List.append_nil, List.append_assoc]
  · next written =>
    obtain ⟨-, hs⟩ := Option.ite_none_right_eq_some.mp hs
    obtain rfl := Option.some.inj hs
    refine ⟨?_, fun _ => h.filled hpc, fun he => absurd he (by simp [State.again])⟩
    show s.inp.entered = s.inp.passed ++ cstr (s.inp.piece c.sendLen) ++
      dropPiece newline (c.sendLen - 1) s.inp.stdio ++ s.inp.tty
    rw [cstr_eq_self hq, List.append_assoc s.inp.passed, h.account]
    congr 2
    exact (takePiece_append newline (c.sendLen - 1) s.inp.stdio).symm
  · obtain ⟨hend, hs⟩ := Option.ite_none_right_eq_some.mp hs
    obtain rfl := Option.some.inj hs
    refine ⟨h.account, fun _ => ?_, fun he => ?_⟩
    · show R s.inp.stdio
      rw [hend.2]
      exact hnil
    · exfalso
      dsimp only at he
      split at he <;> exact absurd he (by simp)
  · exact absurd hs (by simp)

include hnil hdrop in
theorem kept_step {s s' : State} {e : Event} (h : Kept R c s) (hq : Fills R c s e)
    (hs : s.step c e = some s') : Kept R c s' := by
  unfold State.step at hs
  split at hs
  · next bytes =>
    obtain ⟨-, hs⟩ := Option.ite_none_left_eq_some.mp hs
    obtain rfl := Option.some.inj hs
    refine Kept.of_stdio h rfl rfl ?_
    show s.inp.entered ++ bytes = s.inp.passed ++ s.inp.stdio ++ (s.inp.tty ++ bytes)
    rw [h.account, List.append_assoc (s.inp.passed ++ s.inp.stdio)]
  · obtain rfl := Option.some.inj hs
    exact Kept.of_stdio h rfl rfl h.account
  · obtain ⟨-, hs⟩ := Option.ite_none_left_eq_some.mp hs
    obtain rfl := Option.some.inj hs
    exact Kept.of_stdio h rfl rfl h.account
  · obtain rfl := Option.some.inj hs
    exact Kept.of_stdio h rfl rfl h.account
  · split at hs
    · next hpc => exact h.of_inp hdrop (by rw [hpc]; simp) (stepSelect_inp hs)
    · next hpc => exact h.of_inp hdrop (by rw [hpc]; simp) (stepSock_inp hs)
    · next hpc => exact kept_fgets hnil h hpc hq hs
    · exact absurd hs (by simp)
    · exact absurd hs (by simp)

include hnil hdrop in
/-- A run in which what `fgets` holds back meets `R`. -/
theorem kept_run {es : List Event} {s : State} (h : (strCli c).Run es s)
    (hq : (strCli c).Along es (Fills R c)) : Kept R c s := by
  apply h.invariantAlong _ _ hq
  · rintro s rfl
    exact ⟨rfl, fun _ => hnil, fun he => absurd he (by simp [start])⟩
  · intro s e s' _ hi hqe hs
    exact kept_step hnil hdrop hi hqe hs

end

/-- The law is not stronger than need be: with a second line in the buffer and nothing else to
wait for, `select` waits. -/
theorem fill_blocks {c : Client} {s s' : State} (hpc : s.pc = .fgets)
    (hfill : s.stepFgets c .fill = some s') (hidle : ¬ s.conn.Ready) (heof : s.inp.eof = false)
    (hrest : ¬ NoLine (dropPiece newline (c.sendLen - 1) (s.inp.stdio ++ s.inp.tty))) :
    ∃ s'', s'.step c (.line 0) = some s'' ∧ Blocked s'' ∧ ¬ Passed s'' := by
  obtain ⟨-, hfill⟩ := Option.ite_none_right_eq_some.mp hfill
  obtain rfl := Option.some.inj hfill
  have hcomplete : s.inp.fill.Complete c.sendLen := by
    apply takePiece_full
    intro hnil
    apply hrest
    intro b hb
    have hb' : b ∈ dropPiece newline (c.sendLen - 1) s.inp.fill.stdio := hb
    rw [hnil] at hb'
    exact absurd hb' List.not_mem_nil
  have hline : State.step c { s with inp := s.inp.fill } (.line 0) =
      some (State.again { s with
        inp := s.inp.fill.pass c.sendLen
        conn := { s.conn with sent := s.conn.sent ++ [] } }) := by
    unfold State.step
    rw [hpc]
    exact if_pos ⟨Or.inl hcomplete, Nat.zero_le _⟩
  have hblocked : Blocked (State.again { s with
      inp := s.inp.fill.pass c.sendLen
      conn := { s.conn with sent := s.conn.sent ++ [] } }) := by
    refine ⟨rfl, hidle, ?_⟩
    rintro (htty | heof')
    · exact htty rfl
    · exact absurd (heof.symm.trans heof') (by decide)
  exact ⟨_, hline, hblocked, fun hp => hrest (hp hblocked).1⟩

/-! ## Main results -/

theorem noLine_drop (bs : List UInt8) (m : Nat) (h : NoLine bs) : NoLine (bs.drop m) :=
  fun b hb => h b (List.mem_of_mem_drop hb)

/-- **Lines in the stream.**  Where `fgets` takes in at most one line at a time, and no NUL,
`select` never waits with a line in the stream's buffer; where it takes in whole lines, one at a
time, all that was entered has been passed on. -/
theorem str_cli_passed (c : Client) (es : List Event) :
    ((strCli c).Along es (OneLine c) → (strCli c).Always es Passed) ∧
      ((strCli c).Along es (Whole c) → (strCli c).Always es fun s =>
        Blocked s → s.inp.entered = s.inp.passed) := by
  constructor
  · rintro hq pre post s rfl hrun ⟨hpc, -, hidle⟩
    have hk := kept_run (by intro b hb; simp at hb) noLine_drop hrun hq.left
    have htty : s.inp.tty = [] := Classical.byContradiction fun hne => hidle (Or.inl hne)
    refine ⟨hk.rest (by rw [hpc]; simp), ?_⟩
    rw [hk.account, htty, List.append_nil]
  · rintro hq pre post s rfl hrun ⟨hpc, -, hidle⟩
    have hk := kept_run (R := (· = [])) rfl (by rintro bs m rfl; exact List.drop_nil) hrun hq.left
    have htty : s.inp.tty = [] := Classical.byContradiction fun hne => hidle (Or.inl hne)
    have hstdio : s.inp.stdio = [] := hk.rest (by rw [hpc]; simp)
    rw [hk.account, hstdio, htty, List.append_nil, List.append_nil]

instance (c : Client) (s : State) (e : Event) : Decidable (OneLine c s e) := by
  unfold OneLine Fills
  split <;> infer_instance

instance (c : Client) (s : State) (e : Event) : Decidable (Whole c s e) := by
  unfold Whole Fills
  split <;> infer_instance

/-- The bytes `a`, newline, `b`, newline entered in two pieces. -/
def oneByOne : List Event :=
  [.enter [97, 10], .select, .fill, .line 2, .enter [98, 10], .select, .fill, .line 2]

theorem str_cli_passed_oneByOne :
    (strCli .client2).Always oneByOne Passed ∧
      (strCli .client2).Always oneByOne fun s => Blocked s → s.inp.entered = s.inp.passed :=
  have hdet : ∀ s e s', (strCli .client2).step s e s' → State.step .client2 s e = some s' :=
    fun _ _ _ h => h
  have hone : (strCli .client2).Along oneByOne (OneLine .client2) :=
    System.along_of_holdsAlong (fun _ h => h) hdet (by decide +kernel)
  have hwhole : (strCli .client2).Along oneByOne (Whole .client2) :=
    System.along_of_holdsAlong (fun _ h => h) hdet (by decide +kernel)
  ⟨(str_cli_passed .client2 oneByOne).1 hone, (str_cli_passed .client2 oneByOne).2 hwhole⟩

/-- Both entered at once, and the first passed on. -/
def oneHeld : State :=
  ⟨.select, ⟨[], false, [98, 10], [97, 10, 98, 10], [97, 10]⟩,
    ⟨[97, 10], [], false, [], zeros, [], false⟩⟩

theorem not_passed_oneHeld (c : Client) :
    ¬ (strCli c).Always [.enter [97, 10, 98, 10], .select, .fill, .line 2] Passed := by
  intro h
  have hrun : (strCli c).Run [] start := .start rfl
  have hheld : (strCli c).Run _ oneHeld := hrun.exec (State.step c) (fun _ _ _ h => h)
    [.enter [97, 10, 98, 10], .select, .fill, .line 2] (by cases c <;> rfl)
  have hblocked : Blocked oneHeld := by decide
  exact absurd (h _ [] oneHeld rfl hheld hblocked).1 (by decide)

/-- `select` of either client waits with a line in the buffer of the stream. -/
theorem str_cli_holds_line :
    ¬ (strCli .client).Always [.enter [97, 10, 98, 10], .select, .fill, .line 2] Passed ∧
      ¬ (strCli .client2).Always [.enter [97, 10, 98, 10], .select, .fill, .line 2] Passed :=
  ⟨not_passed_oneHeld .client, not_passed_oneHeld .client2⟩

end StudyDoc.StrCli
