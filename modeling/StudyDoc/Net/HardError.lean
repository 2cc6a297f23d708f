import StudyDoc.Net.Readn

/-!
# `common.h`: failures of `read` and `write`

`readn` and `writen` are to return -1 when a call fails with an `errno` other than `EINTR` before
the `n` bytes are there, and to leave this `errno` alone.  Both test `if (errno = EINTR)`:

    readn never returns -1, and overwrites the errno of every failure    (mem_overwrites)
    writen returns n, as an int, whatever its one write does             (common_writen_cons)

so the only -1 is that of an `n` which is -1 as an `int`.
-/

namespace StudyDoc.HardError

open Readline Writen Readn

/-! ## Algorithm -/

section

variable {κ : Type} (read : Kernel κ)

/-- What `errno = EINTR` writes over in at most `fuel` rounds of `readn`. -/
def readnOverwrites (errno : Errno) : Nat → State κ → List Errno
  | 0, _ => []
  | fuel + 1, s =>
    if s.nleft > 0 then
      let nread := (read s.fd s.nleft).1
      let errno := if nread.failed then nread.errno else errno
      match round read s with
      | .inl _ => [errno]
      | .inr s' =>
        if nread.ret ≤ 0 then errno :: readnOverwrites EINTR fuel s'
        else readnOverwrites errno fuel s'
    else []

end

/-- What `errno = EINTR` writes over in `writen`. -/
def writenOverwrites (buf : Object) (answers : List Answer) : List Errno :=
  let n := buf.bytes.length
  if n > 0 then
    match answers with
    | [] => []
    | answer :: _ =>
      let nwrite := answer n
      if nwrite.ret < 0 then [nwrite.errno] else []
  else []

/-- A read fails for good before `n` bytes are there. -/
def ReadFails (answers : Nat → ∀ n, Read n) (n : UInt64) : Prop :=
  ∃ i, 0 < outstanding (answering answers) 0 n.toNat i ∧
    ∃ e ≠ EINTR, answers i (outstanding (answering answers) 0 n.toNat i) = .fail e

/-- The write of `nleft` bytes fails for good. -/
def Answer.Fails (answer : Answer) (nleft : Nat) : Prop :=
  (answer nleft).ret < 0 ∧ (answer nleft).errno ≠ EINTR

/-- A write fails for good while some of the `nleft` bytes are still there. -/
def WriteFails : Nat → List Answer → Prop
  | _, [] => False
  | nleft, answer :: answers =>
    0 < nleft ∧ (Answer.Fails answer nleft ∨ WriteFails (nleft - (answer nleft).taken) answers)

/-- After some number of reads it is reported: -1, and no `errno` but `EINTR` was overwritten. -/
def ReadnReports (answers : Nat → ∀ n, Read n) (errno : Errno) (mem : Nat → UInt8) (n : UInt64) :
    Prop :=
  ∃ fuel, (readn (answering answers) 0 mem n fuel).ret = some (-1) ∧
    ∀ e ∈ readnOverwrites (answering answers) errno fuel ⟨0, n.toNat, 0, mem⟩, e = EINTR

def WritenReports (buf : Object) (answers : List Answer) : Prop :=
  (Common.writen buf answers).ret = some (-1) ∧ ∀ e ∈ writenOverwrites buf answers, e = EINTR

/-! ## `readn` -/

theorem readn_ret_ne (answers : Nat → ∀ n, Read n) (mem : Nat → UInt8) (n : UInt64) (fuel : Nat) :
    (readn (answering answers) 0 mem n fuel).ret ≠ some (-1) := by
  rw [readn_ret]
  split
  · exact fun h => absurd (Option.some.inj h) (by decide)
  · exact fun h => absurd h (by simp)

/-- A round that goes on with the reads behind it. -/
theorem overwrites_succ {κ : Type} (read : Kernel κ) {s : State κ} (h0 : 0 < s.nleft)
    (hn : s.nleft < 18446744073709551616) (errno : Errno) (fuel : Nat) :
    ∃ errno', (readnOverwrites read errno (fuel + 1) s = readnOverwrites read errno' fuel
        (next read s) ∨ readnOverwrites read errno (fuel + 1) s =
        (if (read s.fd s.nleft).1.failed then (read s.fd s.nleft).1.errno else errno) ::
          readnOverwrites read errno' fuel (next read s)) := by
  rw [readnOverwrites, if_pos h0, round_eq read hn]
  dsimp only
  by_cases hret : (read s.fd s.nleft).1.ret ≤ 0
  · rw [if_pos hret]
    exact ⟨_, Or.inr rfl⟩
  · rw [if_neg hret]
    exact ⟨_, Or.inl rfl⟩

/-- Every failure of a read, for good or not, is overwritten. -/
theorem mem_overwrites {answers : Nat → ∀ n, Read n} {s : State Nat}
    (hn : s.nleft < 18446744073709551616) {e errno : Errno} {i fuel : Nat} (hi : i < fuel)
    (hpos : 0 < outstanding (answering answers) s.fd s.nleft i)
    (hfail : answers (s.fd + i) (outstanding (answering answers) s.fd s.nleft i) = .fail e) :
    e ∈ readnOverwrites (answering answers) errno fuel s := by
  induction i generalizing s errno fuel with
  | zero =>
    obtain ⟨fuel, rfl⟩ := Nat.exists_eq_succ_of_ne_zero (Nat.ne_of_gt hi)
    have hread : (answering answers s.fd s.nleft).1 = .fail e := hfail
    have h0 : s.nleft > 0 := hpos
    rw [readnOverwrites, if_pos h0, round_eq _ hn]
    dsimp only
    rw [hread]
    exact List.mem_cons_self
  | succ i ih =>
    obtain ⟨fuel, rfl⟩ := Nat.exists_eq_succ_of_ne_zero (Nat.ne_of_gt (Nat.zero_lt_of_lt hi))
    have h0 : 0 < s.nleft := by
      apply Nat.pos_of_ne_zero
      intro hzero
      rw [hzero, outstanding_zero] at hpos
      exact Nat.lt_irrefl 0 hpos
    have hfail' : answers ((next (answering answers) s).fd + i)
        (outstanding (answering answers) (next (answering answers) s).fd
          (next (answering answers) s).nleft i) = .fail e := by
      have hadd : s.fd + (i + 1) = s.fd + 1 + i := by omega
      rw [hadd] at hfail
      exact hfail
    have hrest : ∀ errno', e ∈ readnOverwrites (answering answers) errno' fuel
        (next (answering answers) s) := fun _ =>
      ih (Nat.lt_of_le_of_lt (Nat.sub_le _ _) hn) (Nat.lt_of_succ_lt_succ hi) hpos hfail'
    obtain ⟨errno', hsame | hcons⟩ := overwrites_succ (answering answers) h0 hn errno fuel
    · rw [hsame]
      exact hrest errno'
    · rw [hcons]
      exact List.mem_cons_of_mem _ (hrest errno')

/-! ## `writen` -/

/-- As an `int`, the number of bytes is -1. -/
theorem toInt_eq_neg_one_iff (n : Nat) : toInt n = -1 ↔ n % 4294967296 = 4294967295 := by
  unfold toInt
  rw [Int.bmod_def]
  omega

theorem writenReports_iff (buf : Object) {answer : Answer} {answers : List Answer}
    (h0 : 0 < buf.bytes.length) : WritenReports buf (answer :: answers) ↔
      buf.bytes.length % 4294967296 = 4294967295 ∧ ¬ Answer.Fails answer buf.bytes.length := by
  have hint := toInt_eq_neg_one_iff buf.bytes.length
  have hover : (∀ e ∈ writenOverwrites buf (answer :: answers), e = EINTR) ↔
      ¬ Answer.Fails answer buf.bytes.length := by
    unfold writenOverwrites Answer.Fails
    rw [if_pos h0]
    dsimp only
    by_cases hret : (answer buf.bytes.length).ret < 0
    · rw [if_pos hret, List.forall_mem_singleton]
      exact ⟨fun he h => h.2 he, fun h => Classical.byContradiction fun he => h ⟨hret, he⟩⟩
    · rw [if_neg hret]
      exact iff_of_true (fun e he => absurd he List.not_mem_nil) fun h => hret h.1
  unfold WritenReports
  rw [common_writen_cons buf h0, hover, Option.some.injEq]
  exact and_congr_left fun _ => hint

/-! ## Main results -/

/-- **Failures.**  A failure before the `n` bytes are transferred is never reported by `readn`; by
`writen` only where `n` is -1 as an `int`, if it was not its one write that failed. -/
theorem hardError_reported_iff (answers : Nat → ∀ n, Read n) (errno : Errno) (mem : Nat → UInt8)
    (n : UInt64) (buf : Object) (written : List Answer) :
    ((ReadFails answers n → ReadnReports answers errno mem n) ↔ ¬ ReadFails answers n) ∧
    ((WriteFails buf.bytes.length written → WritenReports buf written) ↔
      ¬ WriteFails buf.bytes.length written ∨ buf.bytes.length % 4294967296 = 4294967295 ∧
        ∀ answer ∈ written.head?, ¬ Answer.Fails answer buf.bytes.length) := by
  constructor
  · have hnever : ¬ ReadnReports answers errno mem n :=
      fun ⟨fuel, hret, _⟩ => readn_ret_ne answers mem n fuel hret
    exact ⟨fun h hfails => hnever (h hfails), fun h hfails => absurd hfails h⟩
  · by_cases hfails : WriteFails buf.bytes.length written
    · cases written with
      | nil => exact absurd hfails id
      | cons answer written =>
        rw [writenReports_iff buf hfails.1]
        simp [hfails]
    · exact iff_of_true (fun h => absurd h hfails) (Or.inl hfails)

/-- The connection is gone (`EPIPE`, 32): `readn` does not return, `writen` returns 1. -/
theorem hardError_not_reported :
    (¬ ∀ answers errno mem n, ReadFails answers n → ReadnReports answers errno mem n) ∧
    ¬ ∀ buf written, WriteFails buf.bytes.length written → WritenReports buf written := by
  constructor
  · intro h
    obtain ⟨fuel, hret, -⟩ := h (fun _ _ => .fail 32) 0 (fun _ => 0) 1
      ⟨0, by decide, 32, by decide, rfl⟩
    exact readn_ret_ne _ _ _ fuel hret
  · intro h
    have hreports := h ⟨[97], by decide⟩ [fun _ => .fail 32]
      ⟨by decide, Or.inl ⟨by decide, by decide⟩⟩
    exact absurd hreports.1 (by decide)

end StudyDoc.HardError
