import StudyDoc.Net.Readline
import Mathlib.Data.List.TakeDrop

/-!
# `common.h` and `client2.c`: `writen`

Both write a buffer of `n` bytes to a descriptor that may take it piecewise.  `answers` are what
`write(2)` answers, one after the other, whatever is asked of it.

    client2.c:   ret = n ∧ accepted = buf, or ret = -1 ∧ accepted a proper prefix   (writen_exact)
    common.h:    ret = n → accepted = buf  ↔  one write took all of it            (writen_once_iff)

`common.h` has `if` in the place of `while`, and it takes every failure for `EINTR`.
-/

namespace StudyDoc.Writen

open Readline

/-! ## Algorithm -/

/-- One result of `write(fd, ptr, n)`. -/
inductive Write (n : Nat) where
  | accepted (k : Nat) (le : k ≤ n)
  | fail (e : Errno)

namespace Write

variable {n : Nat}

/-- The `ssize_t` the call returns. -/
def ret : Write n → Int
  | accepted k _ => k
  | fail _ => -1

/-- How many bytes the kernel took. -/
def taken : Write n → Nat
  | accepted k _ => k
  | fail _ => 0

/-- What a failed call leaves in `errno`. -/
def errno : Write n → Errno
  | accepted _ _ => 0
  | fail e => e

/-- The call failed with `EINTR`. -/
def interrupted : Write n → Bool
  | accepted _ _ => false
  | fail e => e == EINTR

theorem taken_le (w : Write n) : w.taken ≤ n := by
  cases w with
  | accepted k le => exact le
  | fail e => exact Nat.zero_le n

end Write

/-- What the kernel answers to one call, for each number of bytes that it may be given. -/
abbrev Answer := ∀ n, Write n

def PTRDIFF_MAX : Nat := 9223372036854775807

/-- A buffer.  No object in memory is larger than `PTRDIFF_MAX`. -/
structure Object where
  bytes : List UInt8
  size : bytes.length ≤ PTRDIFF_MAX

/-- `write(fd, ptr, nleft)`; `ptr` counts from the start of the buffer. -/
structure Issued where
  ptr : Nat
  nleft : Nat
  result : Write nleft

/-- The bytes that the kernel took. -/
def Issued.piece (bytes : List UInt8) (c : Issued) : List UInt8 :=
  (bytes.drop c.ptr).take c.result.taken

structure Outcome where
  /-- `none`: it waits for the next answer. -/
  ret : Option Int
  writes : List Issued

def Outcome.accepted (r : Outcome) (bytes : List UInt8) : List UInt8 :=
  r.writes.flatMap fun c => c.piece bytes

/-- `nleft -= nwriten`, where `nleft` is a `size_t`. -/
def minus (nleft : Nat) (nwriten : Int) : Nat := (toSize (nleft - nwriten)).toNat

namespace Common

/-- `writen` of `common.h`.  `if (errno = EINTR)` assigns, and `EINTR` is not 0. -/
def writen (buf : Object) (answers : List Answer) : Outcome :=
  let n := buf.bytes.length
  if n > 0 then
    match answers with
    | [] => ⟨none, []⟩
    | answer :: _ =>
      let nwrite := answer n
      if nwrite.ret < 0 ∧ EINTR = 0 then ⟨some (-1), [⟨0, n, nwrite⟩]⟩
      else ⟨some (toInt n), [⟨0, n, nwrite⟩]⟩
  else ⟨some (toInt n), []⟩

end Common

namespace Client2

/-- The conversion of a `size_t` to `ssize_t`. -/
def toSsize (n : Int) : Int := n.bmod 18446744073709551616

/-- `while(nleft>0)` -/
def loop (n : Nat) : Nat → Nat → List Answer → Outcome
  | nleft, _, [] => if nleft > 0 then ⟨none, []⟩ else ⟨some (toSsize n), []⟩
  | nleft, ptr, answer :: answers =>
    if nleft > 0 then
      let write := answer nleft
      if write.ret ≤ 0 ∧ ¬ (write.ret < 0 ∧ write.errno = EINTR) then
        ⟨some (-1), [⟨ptr, nleft, write⟩]⟩
      else
        let nwriten := if write.ret ≤ 0 then 0 else write.ret
        let r := loop n (minus nleft nwriten) (ptr + nwriten.toNat) answers
        { r with writes := ⟨ptr, nleft, write⟩ :: r.writes }
    else ⟨some (toSsize n), []⟩

/-- `writen` of `client2.c`. -/
def writen (buf : Object) (answers : List Answer) : Outcome :=
  loop buf.bytes.length buf.bytes.length 0 answers

end Client2

/-! ### Numbers -/

theorem minus_eq {nleft k : Nat} (hk : k ≤ nleft) (hn : nleft < 18446744073709551616) :
    minus nleft k = nleft - k := by
  unfold minus toSize
  omega

theorem toSsize_eq {n : Nat} (hn : n ≤ PTRDIFF_MAX) : Client2.toSsize n = n := by
  unfold Client2.toSsize
  unfold PTRDIFF_MAX at hn
  rw [Int.bmod_def]
  omega

theorem toInt_eq_iff {n : Nat} (hn : n ≤ PTRDIFF_MAX) : toInt n = n ↔ (n : Int) ≤ INT_MAX := by
  unfold toInt INT_MAX
  unfold PTRDIFF_MAX at hn
  rw [Int.bmod_def]
  omega

/-! ### The loop of `client2.c` -/

/-- The result ends the loop: 0, or a failure other than `EINTR`. -/
def Issued.Stops (c : Issued) : Prop :=
  c.result.ret = 0 ∨ c.result.ret < 0 ∧ c.result.errno ≠ EINTR

/-- What a call has done with the bytes from `ptr` on.  -/
inductive Done (bytes : List UInt8) (answers : List Answer) (ptr : Nat) (r : Outcome) : Prop
  | all : r.ret = some (bytes.length : Int) → r.accepted bytes = bytes.drop ptr →
      (∀ c ∈ r.writes, ¬ c.Stops) → Done bytes answers ptr r
  | stopped : r.ret = some (-1) → r.accepted bytes <+: bytes.drop ptr →
      r.accepted bytes ≠ bytes.drop ptr → (∃ c ∈ r.writes, c.Stops) → Done bytes answers ptr r
  /-- All answers are used up, and too few of them were no interruption. -/
  | waiting : r.ret = none → r.accepted bytes <+: bytes.drop ptr →
      r.accepted bytes ≠ bytes.drop ptr → (∀ c ∈ r.writes, ¬ c.Stops) →
      r.writes.length = answers.length →
      (r.writes.countP fun c => !c.result.interrupted) ≤ (r.accepted bytes).length →
      Done bytes answers ptr r

theorem accepted_cons (bytes : List UInt8) (c : Issued) (r : Outcome) :
    Outcome.accepted { r with writes := c :: r.writes } bytes = c.piece bytes ++ r.accepted bytes :=
  List.flatMap_cons

theorem drop_eq_append (bytes : List UInt8) (ptr k : Nat) :
    bytes.drop ptr = (bytes.drop ptr).take k ++ bytes.drop (ptr + k) := by
  rw [← List.drop_drop, List.take_append_drop]

theorem piece_length {bytes : List UInt8} {c : Issued} (h : c.ptr + c.nleft ≤ bytes.length) :
    (c.piece bytes).length = c.result.taken := by
  have hle := c.result.taken_le
  unfold Issued.piece
  rw [List.length_take, List.length_drop]
  omega

theorem good_le_taken {c : Issued} (hgo : ¬ c.Stops) (hi : (!c.result.interrupted) = true) :
    0 < c.result.taken := by
  obtain ⟨ptr, nleft, write⟩ := c
  cases write with
  | accepted k le =>
    show 0 < k
    have hk : (k : Int) ≠ 0 := fun h => hgo (Or.inl h)
    omega
  | fail e =>
    have he : e = EINTR := Classical.byContradiction fun h =>
      hgo (Or.inr ⟨Int.negSucc_lt_zero 0, h⟩)
    simp [Write.interrupted, he] at hi

/-- A call that does not stop the loop, in front of what the rest does. -/
theorem Done.cons {bytes : List UInt8} {answers : List Answer} {ptr : Nat} {r : Outcome}
    {answer : Answer} {nleft : Nat} {write : Write nleft}
    (hle : ptr + nleft ≤ bytes.length) (hgo : ¬ Issued.Stops ⟨ptr, nleft, write⟩)
    (h : Done bytes answers (ptr + write.taken) r) :
    Done bytes (answer :: answers) ptr { r with writes := ⟨ptr, nleft, write⟩ :: r.writes } := by
  have hacc := accepted_cons bytes ⟨ptr, nleft, write⟩ r
  have hsplit := drop_eq_append bytes ptr write.taken
  have hnone : (∀ c ∈ r.writes, ¬ c.Stops) →
      ∀ c ∈ (⟨ptr, nleft, write⟩ : Issued) :: r.writes, ¬ c.Stops := by
    intro hc c hmem
    rcases List.mem_cons.mp hmem with rfl | hmem
    · exact hgo
    · exact hc c hmem
  cases h with
  | all hret hall hc =>
    refine .all hret ?_ (hnone hc)
    rw [hacc, hsplit, ← hall]
    rfl
  | stopped hret hpre hne hc =>
    obtain ⟨c, hmem, hc⟩ := hc
    refine .stopped hret ?_ ?_ ⟨c, List.mem_cons_of_mem _ hmem, hc⟩
    · rw [hacc, hsplit]
      exact (List.prefix_append_right_inj _).mpr hpre
    · rw [hacc, hsplit]
      exact fun heq => hne (List.append_cancel_left heq)
  | waiting hret hpre hne hc hlen hcount =>
    refine .waiting hret ?_ ?_ (hnone hc) (congrArg (· + 1) hlen) ?_
    · rw [hacc, hsplit]
      exact (List.prefix_append_right_inj _).mpr hpre
    · rw [hacc, hsplit]
      exact fun heq => hne (List.append_cancel_left heq)
    · have hgood := good_le_taken hgo
      have hpiece : (Issued.piece bytes ⟨ptr, nleft, write⟩).length = write.taken :=
        piece_length hle
      rw [hacc, List.length_append, List.countP_cons]
      show _ + (if (!write.interrupted) = true then 1 else 0) ≤ _
      split
      · next hi =>
        have hpos : 0 < write.taken := hgood hi
        omega
      · omega

theorem stops_iff (c : Issued) :
    c.result.ret ≤ 0 ∧ ¬ (c.result.ret < 0 ∧ c.result.errno = EINTR) ↔ c.Stops := by
  constructor
  · rintro ⟨hle, hno⟩
    rcases Int.lt_or_eq_of_le hle with hlt | heq
    · exact Or.inr ⟨hlt, fun he => hno ⟨hlt, he⟩⟩
    · exact Or.inl heq
  · rintro (hzero | ⟨hlt, he⟩)
    · exact ⟨Int.le_of_eq hzero, fun h => absurd h.1 (by omega)⟩
    · exact ⟨Int.le_of_lt hlt, fun h => he h.2⟩

theorem stops_taken {c : Issued} (h : c.Stops) : c.result.taken = 0 := by
  obtain ⟨ptr, nleft, write⟩ := c
  cases write with
  | accepted k le =>
    have hk : (k : Int) = 0 ∨ (k : Int) < 0 := h.imp_right And.left
    show k = 0
    omega
  | fail e => rfl

/-- `nwriten` behind the tests on it. -/
theorem nwriten_eq {n : Nat} (write : Write n) :
    (if write.ret ≤ 0 then 0 else write.ret) = write.taken := by
  cases write with
  | accepted k le =>
    show (if (k : Int) ≤ 0 then 0 else (k : Int)) = k
    split <;> omega
  | fail e => rfl

theorem loop_zero (n ptr : Nat) (answers : List Answer) :
    Client2.loop n 0 ptr answers = ⟨some (Client2.toSsize n), []⟩ := by
  cases answers <;> rfl

theorem done_finished (buf : Object) (answers : List Answer) :
    Done buf.bytes answers buf.bytes.length ⟨some (Client2.toSsize buf.bytes.length), []⟩ :=
  .all (congrArg some (toSsize_eq buf.size)) List.drop_length.symm
    fun _ hc => absurd hc List.not_mem_nil

theorem drop_ne_nil {bytes : List UInt8} {ptr nleft : Nat} (h0 : 0 < nleft)
    (hn : ptr + nleft = bytes.length) : [] ≠ bytes.drop ptr := by
  intro h
  have hle := List.drop_eq_nil_iff.mp h.symm
  omega

/-- One round: it stops there, or goes on behind the bytes that the kernel took. -/
theorem loop_cons {n nleft ptr : Nat} (h0 : 0 < nleft) (hn : nleft ≤ PTRDIFF_MAX)
    (answer : Answer) (answers : List Answer) :
    (Issued.Stops ⟨ptr, nleft, answer nleft⟩ → Client2.loop n nleft ptr (answer :: answers) =
      ⟨some (-1), [⟨ptr, nleft, answer nleft⟩]⟩) ∧
    (¬ Issued.Stops ⟨ptr, nleft, answer nleft⟩ → Client2.loop n nleft ptr (answer :: answers) =
      let r := Client2.loop n (nleft - (answer nleft).taken) (ptr + (answer nleft).taken) answers
      { r with writes := ⟨ptr, nleft, answer nleft⟩ :: r.writes }) := by
  rw [← stops_iff, Client2.loop, if_pos h0]
  dsimp only
  constructor
  · intro hstop
    rw [if_pos hstop]
  · intro hgo
    unfold PTRDIFF_MAX at hn
    rw [if_neg hgo, nwriten_eq, minus_eq (Write.taken_le _) (by omega)]
    rfl

theorem loop_done (buf : Object) {nleft ptr : Nat} (hn : ptr + nleft = buf.bytes.length)
    (answers : List Answer) :
    Done buf.bytes answers ptr (Client2.loop buf.bytes.length nleft ptr answers) ∧
      ∀ c ∈ (Client2.loop buf.bytes.length nleft ptr answers).writes,
        c.ptr + c.nleft ≤ buf.bytes.length := by
  have hsize := buf.size
  induction answers generalizing nleft ptr with
  | nil =>
    rcases Nat.eq_zero_or_pos nleft with rfl | h0
    · rw [loop_zero, show ptr = buf.bytes.length by omega]
      exact ⟨done_finished buf [], fun c hc => absurd hc List.not_mem_nil⟩
    · rw [Client2.loop, if_pos h0]
      exact ⟨.waiting rfl List.nil_prefix (drop_ne_nil h0 hn)
        (fun c hc => absurd hc List.not_mem_nil) rfl (Nat.le_refl 0),
        fun c hc => absurd hc List.not_mem_nil⟩
  | cons answer answers ih =>
    rcases Nat.eq_zero_or_pos nleft with rfl | h0
    · rw [loop_zero, show ptr = buf.bytes.length by omega]
      exact ⟨done_finished buf _, fun c hc => absurd hc List.not_mem_nil⟩
    · obtain ⟨hstops, hgoes⟩ := loop_cons h0 (by omega) answer answers
      by_cases hstop : Issued.Stops ⟨ptr, nleft, answer nleft⟩
      · have hnone : Outcome.accepted ⟨some (-1), [⟨ptr, nleft, answer nleft⟩]⟩ buf.bytes = [] := by
          show Issued.piece buf.bytes ⟨ptr, nleft, answer nleft⟩ ++ [] = []
          rw [List.append_nil, ← List.length_eq_zero_iff, piece_length (Nat.le_of_eq hn)]
          exact stops_taken hstop
        rw [hstops hstop]
        refine ⟨.stopped rfl ?_ ?_ ⟨_, List.mem_singleton_self _, hstop⟩, fun c hc => ?_⟩
        · rw [hnone]
          exact List.nil_prefix
        · rw [hnone]
          exact drop_ne_nil h0 hn
        · rw [List.mem_singleton.mp hc]
          exact Nat.le_of_eq hn
      · have hle := (answer nleft).taken_le
        obtain ⟨hdone, hin⟩ := ih
          (show ptr + (answer nleft).taken + (nleft - (answer nleft).taken) = _ by omega)
        rw [hgoes hstop]
        refine ⟨hdone.cons (Nat.le_of_eq hn) hstop, fun c hc => ?_⟩
        rcases List.mem_cons.mp hc with rfl | hc
        · exact Nat.le_of_eq hn
        · exact hin c hc

/-! ## Main results -/

/-- **`writen` of `client2.c`.**  It returns `n` once the kernel took the whole buffer, or -1 with
a proper prefix taken, and that exactly at a write of 0 bytes or a failure other than `EINTR`; or
it waits, having used up all answers, with fewer than `n` of them not interrupted.  No write
leaves the buffer. -/
theorem writen_exact (buf : Object) (answers : List Answer) :
    let n := buf.bytes.length
    let r := Client2.writen buf answers
    let accepted := r.accepted buf.bytes
    (r.ret = some (n : Int) ∧ accepted = buf.bytes ∨
      r.ret = some (-1) ∧ accepted <+: buf.bytes ∧ accepted ≠ buf.bytes ∨
      r.ret = none ∧ accepted <+: buf.bytes ∧ accepted ≠ buf.bytes ∧
        r.writes.length = answers.length ∧
        (r.writes.countP fun c => !c.result.interrupted) < n) ∧
    (r.ret = some (-1) ↔ ∃ c ∈ r.writes, c.Stops) ∧
    ∀ c ∈ r.writes, c.ptr + c.nleft ≤ n := by
  intro n r accepted
  obtain ⟨hdone, hin⟩ := loop_done buf (Nat.zero_add n) answers
  refine ⟨?_, ?_, hin⟩
  · cases hdone with
    | all hret hall hc => exact Or.inl ⟨hret, hall⟩
    | stopped hret hpre hne hc => exact Or.inr (Or.inl ⟨hret, hpre, hne⟩)
    | waiting hret hpre hne hc hlen hcount =>
      refine Or.inr (Or.inr ⟨hret, hpre, hne, hlen, ?_⟩)
      have hlt : accepted.length < n := by
        refine Nat.lt_of_le_of_ne hpre.length_le fun heq => hne ?_
        exact hpre.eq_of_length heq
      exact Nat.lt_of_le_of_lt hcount hlt
  · cases hdone with
    | all hret hall hc =>
      refine ⟨fun h => ?_, fun ⟨c, hmem, hstop⟩ => absurd hstop (hc c hmem)⟩
      have heq := Option.some.inj (hret.symm.trans h)
      omega
    | stopped hret hpre hne hc => exact ⟨fun _ => hc, fun _ => hret⟩
    | waiting hret hpre hne hc hlen hcount =>
      refine ⟨fun h => ?_, fun ⟨c, hmem, hstop⟩ => absurd hstop (hc c hmem)⟩
      exact absurd (hret.symm.trans h) (by simp)

/-- Two bytes, taken one at a time with a signal in between. -/
example : (Client2.writen ⟨[1, 2], by decide⟩ [fun n => .accepted (min 1 n) (Nat.min_le_right 1 n),
    fun _ => .fail EINTR, fun n => .accepted n (Nat.le_refl n)]).ret = some 2 := by decide

/-- If `writen` of `common.h` returns `n`, the kernel took the whole buffer. -/
def Kept (buf : Object) (answers : List Answer) : Prop :=
  (Common.writen buf answers).ret = some (buf.bytes.length : Int) →
    (Common.writen buf answers).accepted buf.bytes = buf.bytes

/-- It writes once and returns `n` as an `int`. -/
theorem common_writen_cons (buf : Object) (h0 : 0 < buf.bytes.length) (answer : Answer)
    (answers : List Answer) : Common.writen buf (answer :: answers) =
      ⟨some (toInt buf.bytes.length), [⟨0, buf.bytes.length, answer buf.bytes.length⟩]⟩ := by
  unfold Common.writen
  rw [if_pos h0]
  dsimp only
  rw [if_neg fun h => absurd h.2 (by decide)]

/-- **`writen` of `common.h`.**  It keeps its word exactly if its one write takes the whole
buffer, or `n` does not fit the `int` it returns. -/
theorem writen_once_iff (buf : Object) (answers : List Answer) :
    Kept buf answers ↔ INT_MAX < buf.bytes.length ∨
      ∀ answer ∈ answers.head?, (answer buf.bytes.length).taken = buf.bytes.length := by
  unfold Kept
  rcases Nat.eq_zero_or_pos buf.bytes.length with h0 | h0
  · have hnil := List.length_eq_zero_iff.mp h0
    refine ⟨fun _ => Or.inr fun answer _ => ?_, fun _ _ => ?_⟩
    · have hle := (answer buf.bytes.length).taken_le
      omega
    · unfold Common.writen
      rw [if_neg (by omega), hnil]
      rfl
  · cases answers with
    | nil =>
      unfold Common.writen
      rw [if_pos h0]
      exact ⟨fun _ => Or.inr fun _ h => absurd h (by simp), fun _ h => absurd h (by simp)⟩
    | cons answer answers =>
      have hpiece : Outcome.accepted ⟨some (toInt buf.bytes.length),
          [⟨0, buf.bytes.length, answer buf.bytes.length⟩]⟩ buf.bytes =
          buf.bytes.take (answer buf.bytes.length).taken := by
        show Issued.piece buf.bytes ⟨0, _, answer buf.bytes.length⟩ ++ [] = _
        rw [List.append_nil]
        rfl
      rw [common_writen_cons buf h0, hpiece, List.take_eq_self_iff]
      have hle := (answer buf.bytes.length).taken_le
      have hint := toInt_eq_iff buf.size
      simp only [Option.some.injEq, hint, List.head?_cons, Option.mem_def, forall_eq']
      omega

/-- The kernel takes one of two bytes, and `writen` of `common.h` returns 2. -/
theorem writen_once_short : ¬ ∀ buf answers, Kept buf answers := by
  intro h
  have hkept := h ⟨[1, 2], by decide⟩ [fun n => .accepted (min 1 n) (Nat.min_le_right 1 n)]
    (by decide)
  exact absurd hkept (by decide)

end StudyDoc.Writen
