import StudyDoc.Net.Writen
import Mathlib.Algebra.BigOperators.Group.Finset.Basic
import Mathlib.Tactic.Common

/-!
# `common.h`: `readn`

The loop over a descriptor that hands out what it has, when it has it.  `outstanding` counts the
bytes that the first `i` reads left to be read; the loop runs until none is:

    ptr after i reads = sum of outstanding 1 .. outstanding i     (mem_loop_reads_iff)
    readn returns ↔ all n bytes come, and then it returns 0       (readn_ret)

`if (errno = EINTR)` takes end of file and every failure for an interruption, `ptr` moves on by
`nleft` in the place of `nread`, and what is returned is `nleft`.
-/

namespace StudyDoc.Readn

open Readline Writen

/-! ## Algorithm -/

/-- A descriptor: what `read(fd, ptr, n)` gives, and what it is like afterwards. -/
abbrev Kernel (κ : Type) := κ → ∀ n, Read n × κ

/-- The `i`-th call gets the `i`-th answer. -/
def answering (answers : Nat → ∀ n, Read n) : Kernel Nat := fun i n => (answers i n, i + 1)

/-- Between two reads.  `ptr` counts from `vptr`, and so do the bytes in memory. -/
structure State (κ : Type) where
  fd : κ
  nleft : Nat
  ptr : Nat
  mem : Nat → UInt8

/-- Memory after `bytes` were stored from `ptr` on. -/
def store (mem : Nat → UInt8) (ptr : Nat) (bytes : List UInt8) (i : Nat) : UInt8 :=
  if i < ptr then mem i else bytes.getD (i - ptr) (mem i)

section

variable {κ : Type} (read : Kernel κ)

/-- The body of `while (nleft > 0)`; `.inl` is a value that it returns or leaves the loop with. -/
def round (s : State κ) : Int ⊕ State κ :=
  let (nread, fd) := read s.fd s.nleft
  let s := { s with fd := fd, mem := store s.mem s.ptr nread.bytes }
  if nread.ret ≤ 0 then
    -- the value of `errno = EINTR`
    if EINTR ≠ 0 then
      let nleft := minus s.nleft 0
      .inr { s with nleft := nleft, ptr := s.ptr + nleft }
    else if nread.ret = 0 then .inl (toInt s.nleft)
    else .inl (-1)
  else
    let nleft := minus s.nleft nread.ret
    .inr { s with nleft := nleft, ptr := s.ptr + nleft }

structure Outcome where
  /-- `none`: not after these reads. -/
  ret : Option Int
  mem : Nat → UInt8
  /-- `ptr` and `nleft` of each read. -/
  reads : List (Nat × Nat)

/-- The loop for at most `fuel` reads. -/
def loop : Nat → State κ → Outcome
  | 0, s => ⟨if s.nleft > 0 then none else some (toInt s.nleft), s.mem, []⟩
  | fuel + 1, s =>
    if s.nleft > 0 then
      match round read s with
      | .inl ret => ⟨some ret, s.mem, [(s.ptr, s.nleft)]⟩
      | .inr s' =>
        let r := loop fuel s'
        { r with reads := (s.ptr, s.nleft) :: r.reads }
    else ⟨some (toInt s.nleft), s.mem, []⟩

/-- What `readn(fd, vptr, n)` has done after at most `fuel` reads. -/
def readn (fd : κ) (mem : Nat → UInt8) (n : UInt64) (fuel : Nat) : Outcome :=
  loop read fuel ⟨fd, n.toNat, 0, mem⟩

/-- How many of `n` bytes are not there after `i` reads, each for those not there yet. -/
def outstanding : κ → Nat → Nat → Nat
  | _, n, 0 => n
  | fd, n, i + 1 => outstanding (read fd n).2 (n - (read fd n).1.bytes.length) i

end

/-- What lets a `read` on a stream return: so many bytes are there, or a signal comes. -/
inductive Chunk where
  | count (k : Nat) (pos : 0 < k)
  | intr

def Chunk.size : Chunk → Nat
  | count k _ => k
  | intr => 0

/-- `read(fd, ptr, n)` where `rest` is what is still to come. -/
def serve (rest : List UInt8) (n : Nat) : Chunk → Read n
  | .count k _ =>
    if h : 0 < (rest.take (min k n)).length then
      .data (rest.take (min k n)) h ((List.length_take_le _ _).trans (Nat.min_le_right k n))
    else .eof
  | .intr => .fail EINTR

/-- A descriptor with a stream: what is still to come, and the number of reads so far. -/
def file (chunks : Nat → Chunk) : Kernel (List UInt8 × Nat) := fun (rest, i) n =>
  let r := serve rest n (chunks i)
  (r, rest.drop r.bytes.length, i + 1)

section

variable {κ : Type} (read : Kernel κ)

/-! ### One read -/

theorem outstanding_le (fd : κ) (n i : Nat) : outstanding read fd n i ≤ n := by
  induction i generalizing fd n with
  | zero => exact Nat.le_refl n
  | succ i ih => exact Nat.le_trans (ih _ _) (Nat.sub_le _ _)

theorem outstanding_zero (fd : κ) (i : Nat) : outstanding read fd 0 i = 0 :=
  Nat.le_zero.mp (outstanding_le read fd 0 i)

/-- The state behind a read: what it delivered is stored, and `ptr` moves by what is still left. -/
def next (s : State κ) : State κ :=
  let (nread, fd) := read s.fd s.nleft
  let nleft := s.nleft - nread.bytes.length
  ⟨fd, nleft, s.ptr + nleft, store s.mem s.ptr nread.bytes⟩

theorem neg_one_le_zero : (-1 : Int) ≤ 0 := by decide

/-- Behind an end of file or a failure nothing is stored, and the loop goes on. -/
theorem round_of_empty {s : State κ} (hn : s.nleft < 18446744073709551616)
    (hret : (read s.fd s.nleft).1.ret ≤ 0) (hbytes : (read s.fd s.nleft).1.bytes = []) :
    round read s = .inr (next read s) := by
  have hminus : minus s.nleft 0 = s.nleft := minus_eq (Nat.zero_le _) hn
  unfold round next
  dsimp only
  rw [if_pos hret, if_pos (show EINTR ≠ 0 by decide), hminus, hbytes]
  rfl

/-- Every result goes on with the loop. -/
theorem round_eq {s : State κ} (hn : s.nleft < 18446744073709551616) :
    round read s = .inr (next read s) := by
  cases hr : (read s.fd s.nleft).1 with
  | eof => exact round_of_empty read hn (by rw [hr]; exact Int.le_refl 0) (by rw [hr]; rfl)
  | fail e => exact round_of_empty read hn (by rw [hr]; exact neg_one_le_zero) (by rw [hr]; rfl)
  | data bytes pos le =>
    have hminus : minus s.nleft (bytes.length : Int) = s.nleft - bytes.length := minus_eq le hn
    have hpos : ¬ (read s.fd s.nleft).1.ret ≤ 0 := by
      rw [hr]
      show ¬ (bytes.length : Int) ≤ 0
      omega
    unfold round next
    dsimp only
    rw [if_neg hpos, hr]
    show Sum.inr (State.mk _ (minus s.nleft (bytes.length : Int))
      (s.ptr + minus s.nleft (bytes.length : Int)) _) = _
    rw [hminus]
    rfl

/-! ### The loop -/

theorem loop_ret {s : State κ} (hn : s.nleft < 18446744073709551616) (fuel : Nat) :
    (loop read fuel s).ret = if outstanding read s.fd s.nleft fuel = 0 then some 0 else none := by
  induction fuel generalizing s with
  | zero =>
    show (if s.nleft > 0 then none else some (toInt s.nleft)) = if s.nleft = 0 then some 0 else none
    rcases Nat.eq_zero_or_pos s.nleft with h0 | h0
    · rw [h0]
      rfl
    · rw [if_pos h0, if_neg (by omega)]
  | succ fuel ih =>
    unfold loop
    rcases Nat.eq_zero_or_pos s.nleft with h0 | h0
    · rw [if_neg (by omega), h0, outstanding_zero, if_pos rfl]
      rfl
    · rw [if_pos h0, round_eq read hn]
      exact ih (Nat.lt_of_le_of_lt (Nat.sub_le _ _) hn)

/-- Where `ptr` gets to. -/
def moved (fd : κ) (n i : Nat) : Nat := ∑ t ∈ Finset.range i, outstanding read fd n (t + 1)

theorem ptr_next (s : State κ) (i : Nat) :
    (next read s).ptr + moved read (next read s).fd (next read s).nleft i =
      s.ptr + moved read s.fd s.nleft (i + 1) := by
  unfold moved
  rw [Finset.sum_range_succ']
  show s.ptr + outstanding read s.fd s.nleft 1 + ∑ t ∈ Finset.range i,
    outstanding read s.fd s.nleft (t + 1 + 1) = s.ptr + (_ + outstanding read s.fd s.nleft 1)
  omega

/-- Where each read is made, and for how many bytes. -/
theorem mem_loop_reads_iff {s : State κ} (hn : s.nleft < 18446744073709551616) (fuel ptr l : Nat) :
    (ptr, l) ∈ (loop read fuel s).reads ↔ ∃ i < fuel, l = outstanding read s.fd s.nleft i ∧ 0 < l ∧
      ptr = s.ptr + moved read s.fd s.nleft i := by
  induction fuel generalizing s with
  | zero =>
    refine ⟨fun h => absurd h List.not_mem_nil, fun ⟨i, hi, _⟩ => absurd hi (Nat.not_lt_zero i)⟩
  | succ fuel ih =>
    unfold loop
    rcases Nat.eq_zero_or_pos s.nleft with h0 | h0
    · rw [if_neg (by omega)]
      refine ⟨fun h => absurd h List.not_mem_nil, fun ⟨i, _, hl, hpos, _⟩ => ?_⟩
      rw [h0, outstanding_zero] at hl
      omega
    · rw [if_pos h0, round_eq read hn]
      have hrest := ih (s := next read s) (Nat.lt_of_le_of_lt (Nat.sub_le _ _) hn)
      show (ptr, l) ∈ (s.ptr, s.nleft) :: _ ↔ _
      rw [List.mem_cons, hrest]
      constructor
      · rintro (heq | ⟨i, hi, hl, hpos, hptr⟩)
        · obtain ⟨rfl, rfl⟩ := Prod.mk.inj heq
          exact ⟨0, Nat.succ_pos _, rfl, h0, rfl⟩
        · exact ⟨i + 1, Nat.succ_lt_succ hi, hl, hpos, hptr.trans (ptr_next read s i)⟩
      · rintro ⟨i, hi, hl, hpos, hptr⟩
        cases i with
        | zero => exact Or.inl (Prod.ext hptr hl)
        | succ i =>
          refine Or.inr ⟨i, Nat.lt_of_succ_lt_succ hi, hl, hpos, ?_⟩
          exact hptr.trans (ptr_next read s i).symm

end

/-! ## Main results -/

section

variable {κ : Type} (read : Kernel κ) (fd : κ) (mem : Nat → UInt8) (n : UInt64)

/-- `readn` returns once nothing is outstanding, and then it returns 0. -/
theorem readn_ret (fuel : Nat) :
    (readn read fd mem n fuel).ret =
      if outstanding read fd n.toNat fuel = 0 then some 0 else none :=
  loop_ret read (s := ⟨fd, n.toNat, 0, mem⟩) n.toNat_lt fuel

/-- Every read is for bytes of the buffer. -/
def Inside : Prop :=
  ∀ fuel, ∀ c ∈ (readn read fd mem n fuel).reads, c.1 + c.2 ≤ n.toNat

/-- **Where `readn` stores.**  Its reads stay within the buffer exactly if at each of them the
bytes outstanding after each read before it, summed up, and those outstanding now are at most `n`
together. -/
theorem readn_inside_iff :
    Inside read fd mem n ↔ ∀ i, 0 < outstanding read fd n.toNat i →
      (∑ t ∈ Finset.range i, outstanding read fd n.toNat (t + 1)) +
        outstanding read fd n.toNat i ≤ n.toNat := by
  have hreads := fun fuel ptr l =>
    mem_loop_reads_iff read (s := ⟨fd, n.toNat, 0, mem⟩) n.toNat_lt fuel ptr l
  constructor
  · intro h i hpos
    have hmem := (hreads (i + 1) _ _).mpr ⟨i, Nat.lt_succ_self i, rfl, hpos, rfl⟩
    have hin := h (i + 1) _ hmem
    rw [Nat.zero_add] at hin
    exact hin
  · rintro h fuel ⟨ptr, l⟩ hmem
    obtain ⟨i, -, rfl, hpos, rfl⟩ := (hreads fuel ptr l).mp hmem
    rw [Nat.zero_add]
    exact h i hpos

/-- `readn` returns after finitely many reads. -/
def Returns : Prop := ∃ fuel, (readn read fd mem n fuel).ret ≠ none

theorem returns_iff : Returns read fd mem n ↔ ∃ fuel, outstanding read fd n.toNat fuel = 0 := by
  refine exists_congr fun fuel => ?_
  rw [readn_ret]
  split
  · next h => exact ⟨fun _ => h, fun _ => by simp⟩
  · next h => exact ⟨fun hne => absurd rfl hne, fun h0 => absurd h0 h⟩

end

/-- From the `N`-th answer on there is nothing more: end of file, or a failure that is no
interruption. -/
def Ends (answers : Nat → ∀ n, Read n) (N : Nat) : Prop :=
  (∀ i ≥ N, ∀ k, answers i k = .eof) ∨ ∀ i ≥ N, ∃ e ≠ EINTR, ∀ k, answers i k = .fail e

theorem ends_bytes {answers : Nat → ∀ n, Read n} {N : Nat} (h : Ends answers N) {i : Nat}
    (hi : N ≤ i) (k : Nat) : (answers i k).bytes = [] := by
  rcases h with heof | hfail
  · rw [heof i hi k]
    rfl
  · obtain ⟨e, -, he⟩ := hfail i hi
    rw [he k]
    rfl

theorem outstanding_of_ends {answers : Nat → ∀ n, Read n} {N : Nat} (h : Ends answers N)
    {fd : Nat} (n i : Nat) (hfd : N ≤ fd) :
    outstanding (answering answers) fd n i = n := by
  induction i generalizing fd n with
  | zero => rfl
  | succ i ih =>
    show outstanding (answering answers) (fd + 1) (n - (answers fd n).bytes.length) i = n
    rw [ends_bytes h hfd, ih _ (Nat.le_succ_of_le hfd)]
    rfl

/-- So many reads, and then so many more. -/
theorem outstanding_add (answers : Nat → ∀ n, Read n) (fd n i j : Nat) :
    outstanding (answering answers) fd n (i + j) = outstanding (answering answers) (fd + i)
      (outstanding (answering answers) fd n i) j := by
  induction i generalizing fd n with
  | zero => rw [Nat.zero_add]; rfl
  | succ i ih =>
    rw [Nat.succ_add]
    show outstanding (answering answers) (fd + 1) _ (i + j) = _
    rw [ih, Nat.add_assoc, Nat.add_comm 1 i]
    rfl

/-- **Whether `readn` returns.**  Where nothing more comes behind `N` reads, it returns exactly if
these deliver all `n` bytes. -/
theorem readn_returns_iff (answers : Nat → ∀ n, Read n) (mem : Nat → UInt8) (n : UInt64) (N : Nat)
    (h : Ends answers N) : Returns (answering answers) 0 mem n ↔
      outstanding (answering answers) 0 n.toNat N = 0 := by
  rw [returns_iff]
  refine ⟨fun ⟨fuel, hfuel⟩ => ?_, fun h0 => ⟨N, h0⟩⟩
  rcases Nat.le_total N fuel with hle | hle
  · obtain ⟨j, rfl⟩ := Nat.exists_eq_add_of_le hle
    rwa [outstanding_add, outstanding_of_ends h _ _ (by omega)] at hfuel
  · obtain ⟨j, rfl⟩ := Nat.exists_eq_add_of_le hle
    rw [outstanding_add, hfuel, outstanding_zero]

/-- One byte, then end of file. -/
def oneByte (i : Nat) (k : Nat) : Read k :=
  if h : i = 0 ∧ 0 < k then .data [7] Nat.one_pos h.2 else .eof

theorem ends_oneByte : Ends oneByte 1 := by
  left
  intro i hi k
  unfold oneByte
  rw [dif_neg (by omega)]

theorem readn_returns_oneByte : Returns (answering oneByte) 0 (fun _ => 0) 1 ↔
    outstanding (answering oneByte) 0 1 1 = 0 :=
  readn_returns_iff oneByte (fun _ => 0) 1 1 ends_oneByte

/-- A buffer of two bytes, and a stream of one: `readn` reads for ever. -/
theorem readn_not_returns : ¬ ∀ (answers : Nat → ∀ n, Read n) (mem : Nat → UInt8) (n : UInt64)
    (N : Nat), Ends answers N → Returns (answering answers) 0 mem n := by
  intro hall
  obtain ⟨fuel, hfuel⟩ := (returns_iff ..).mp (hall oneByte (fun _ => 0) 2 1 ends_oneByte)
  have hone : outstanding (answering oneByte) 0 2 1 = 1 := by decide
  cases fuel with
  | zero => exact absurd hfuel (by decide)
  | succ fuel =>
    have hrest := outstanding_add oneByte 0 2 1 fuel
    rw [hone, outstanding_of_ends ends_oneByte _ _ (Nat.le_refl 1), Nat.add_comm 1 fuel] at hrest
    exact absurd (hrest.symm.trans hfuel) (by decide)

/-! ### Streams -/

theorem serve_length (rest : List UInt8) (n : Nat) (c : Chunk) :
    (serve rest n c).bytes.length = min (min c.size n) rest.length := by
  cases c with
  | count k pos =>
    show (serve rest n (.count k pos)).bytes.length = min (min k n) rest.length
    unfold serve
    dsimp only
    split
    · exact List.length_take
    · next h =>
      rw [List.length_take] at h
      show 0 = _
      omega
  | intr =>
    show 0 = min (min 0 n) rest.length
    omega

/-- The bytes that `j` reads are good for, from the `i`-th on. -/
def total (chunks : Nat → Chunk) (i j : Nat) : Nat := ∑ t ∈ Finset.range j, (chunks (i + t)).size

theorem total_succ (chunks : Nat → Chunk) (i j : Nat) :
    total chunks i (j + 1) = (chunks i).size + total chunks (i + 1) j := by
  unfold total
  rw [Finset.sum_range_succ', Nat.add_comm]
  congr 1
  exact Finset.sum_congr rfl fun t _ => by rw [Nat.add_right_comm, Nat.add_assoc]

theorem outstanding_file (chunks : Nat → Chunk) (rest : List UInt8) (i n j : Nat) :
    outstanding (file chunks) (rest, i) n j = n - min rest.length (total chunks i j) := by
  induction j generalizing rest i n with
  | zero =>
    show n = n - min rest.length 0
    omega
  | succ j ih =>
    have hlen := serve_length rest n (chunks i)
    show outstanding (file chunks) (rest.drop (serve rest n (chunks i)).bytes.length, i + 1)
      (n - (serve rest n (chunks i)).bytes.length) j = _
    rw [ih, List.length_drop, hlen, total_succ]
    omega

/-- What `readn` is for: it returns how many of `n` bytes the stream had, and they are stored. -/
def Fetched (stream : List UInt8) (chunks : Nat → Chunk) (mem : Nat → UInt8) (n : UInt64) : Prop :=
  ∀ fuel ret, (readn (file chunks) (stream, 0) mem n fuel).ret = some ret →
    ret = (min n.toNat stream.length : Nat) ∧
      ∀ j < min n.toNat stream.length,
        some ((readn (file chunks) (stream, 0) mem n fuel).mem j) = stream[j]?

/-- **What `readn` returns.**  It does its work only where it has none, or does not return: the
stream is too short, or what the reads are good for never comes to `n` bytes. -/
theorem readn_fetched_iff (stream : List UInt8) (chunks : Nat → Chunk) (mem : Nat → UInt8)
    (n : UInt64) : Fetched stream chunks mem n ↔
      n = 0 ∨ stream.length < n.toNat ∨ ∀ fuel, total chunks 0 fuel < n.toNat := by
  have hret := readn_ret (file chunks) (stream, 0) mem n
  have hout := outstanding_file chunks stream 0 n.toNat
  constructor
  · intro h
    apply Classical.byContradiction
    intro hno
    simp only [not_or, Nat.not_lt, not_forall] at hno
    obtain ⟨hn, hlen, fuel, htotal⟩ := hno
    have hpos : n.toNat ≠ 0 := fun h0 => hn (UInt64.toNat_inj.mp h0)
    have h0 : (readn (file chunks) (stream, 0) mem n fuel).ret = some 0 := by
      rw [hret, if_pos]
      rw [hout]
      omega
    have hzero := (h fuel 0 h0).1
    omega
  · intro h fuel ret hsome
    rw [hret] at hsome
    split at hsome
    · next hzero =>
      rw [hout] at hzero
      have hn : n.toNat = 0 := by
        rcases h with rfl | hlen | htotal
        · rfl
        · omega
        · have := htotal fuel
          omega
      rw [← Option.some.inj hsome, hn, Nat.zero_min]
      exact ⟨rfl, fun j hj => absurd hj (Nat.not_lt_zero j)⟩
    · cases hsome

/-- Two bytes come in one read, and `readn` returns 0. -/
theorem readn_not_fetched : ¬ ∀ stream chunks mem n, Fetched stream chunks mem n := by
  intro h
  have hfetched := h [1, 2] (fun _ => .count 2 Nat.two_pos) (fun _ => 0) 2 1 0 (by decide)
  exact absurd hfetched.1 (by decide)

/-- The first of four bytes comes alone: the next read is for three bytes from offset 3 on. -/
theorem readn_not_inside : ¬ ∀ (stream : List UInt8) (chunks : Nat → Chunk) (mem : Nat → UInt8)
    (n : UInt64), Inside (file chunks) (stream, 0) mem n := by
  intro h
  have hin := h [1, 2, 3, 4] (fun _ => .count 1 Nat.one_pos) (fun _ => 0) 4 2 (3, 3) (by decide)
  exact absurd hin (by decide)

end StudyDoc.Readn
