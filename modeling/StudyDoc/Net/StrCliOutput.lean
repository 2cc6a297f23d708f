import StudyDoc.Net.StrCli

/-!
# `client2.c`: what `str_cli` writes to stdout

`read` fills `recvbuf` without a length kept, and `fputs` writes up to a NUL: one of those `bzero`
put there, or one of the data.  At every moment of every run

    out = received, nothing read behind recvbuf ↔ no chunk with a NUL or of BUF_LEN bytes
                                                                      (str_cli_output_iff)

`step_effect` says what each step does to the connection.
-/

namespace StudyDoc.StrCli

open Transition

/-! ## One chunk -/

/-- A chunk that `fputs` writes as it is. -/
def CleanRead : Event → Prop
  | .read r _ => 0 ∉ r.bytes ∧ r.bytes.length < BUF_LEN
  | _ => True

theorem store_zeros (r : Read BUF_LEN) :
    (r.store zeros).1 = r.bytes ++ List.replicate (BUF_LEN - r.bytes.length) 0 := by
  rw [Read.store_val]
  show _ ++ (List.replicate BUF_LEN 0).drop _ = _
  rw [List.drop_replicate]

theorem zero_mem_store_iff (r : Read BUF_LEN) :
    0 ∈ (r.store zeros).1 ↔ 0 ∈ r.bytes ∨ r.bytes.length < BUF_LEN := by
  have hle := r.bytes_length_le
  rw [store_zeros, List.mem_append, List.mem_replicate]
  constructor
  · rintro (h | ⟨h, -⟩)
    · exact Or.inl h
    · exact Or.inr (by omega)
  · rintro (h | h)
    · exact Or.inl h
    · exact Or.inr ⟨by omega, rfl⟩

theorem cstr_store (r : Read BUF_LEN) : cstr (r.store zeros).1 = cstr r.bytes := by
  have hpre : cstr r.bytes <+: r.bytes := List.takeWhile_prefix _
  have hzeros :
      (List.replicate (BUF_LEN - r.bytes.length) (0 : UInt8)).takeWhile (· != 0) = [] := by
    rw [List.takeWhile_replicate]
    exact if_neg (by decide)
  rw [store_zeros]
  unfold cstr at hpre ⊢
  rw [List.takeWhile_append, hzeros, List.append_nil]
  split
  · next hlen => exact (hpre.eq_of_length hlen).symm
  · rfl

theorem cstr_length_lt {bs : List UInt8} (h : 0 ∈ bs) : (cstr bs).length < bs.length := by
  have hpre : cstr bs <+: bs := List.takeWhile_prefix _
  apply Nat.lt_of_le_of_ne hpre.length_le
  intro hlen
  have hself : bs.takeWhile (· != 0) = bs := hpre.eq_of_length hlen
  rw [List.takeWhile_eq_self_iff] at hself
  exact absurd (hself 0 h) (by decide)

theorem fputs_clean {r : Read BUF_LEN} (h0 : 0 ∉ r.bytes) (hlt : r.bytes.length < BUF_LEN)
    (behind : List UInt8) : fputs (r.store zeros) behind = r.bytes := by
  unfold fputs
  rw [if_pos ((zero_mem_store_iff r).mpr (Or.inr hlt)), cstr_store, cstr_eq_self h0]

theorem fputs_length_le {r : Read BUF_LEN} (h : 0 ∈ (r.store zeros).1) (behind : List UInt8) :
    (fputs (r.store zeros) behind).length ≤ r.bytes.length := by
  unfold fputs
  rw [if_pos h, cstr_store]
  exact (List.takeWhile_prefix _).length_le

/-! ## One step -/

/-- In the branch of the socket `recvbuf` is as `bzero` left it. -/
def Cleared (s : State) : Prop :=
  s.pc = .select ∨ (∃ stdin, s.pc = .sock stdin) → s.conn.recvbuf = zeros

/-- The step moves no byte on the connection. -/
structure Quiet (s s' : State) : Prop where
  sent : s'.conn.sent = s.conn.sent
  rcv : s'.conn.rcv = s.conn.rcv
  received : s'.conn.received = s.conn.received
  out : s'.conn.out = s.conn.out
  overread : s'.conn.overread = s.conn.overread

/-- `fgets` finds the end of stdin. -/
def AtEof (s : State) : Prop := s.pc = .fgets ∧ s.inp.Ended ∧ s.inp.stdio = []

/-- A chunk is read and written. -/
structure Reads (s : State) (r : Read BUF_LEN) (behind : List UInt8) (s' : State) : Prop where
  gives : s.conn.Gives r
  nul : 0 ∉ behind
  sent : s'.conn.sent = s.conn.sent
  rcv : s'.conn.rcv = s.conn.rcv.drop r.bytes.length
  received : s'.conn.received = s.conn.received ++ r.bytes
  out : s'.conn.out = s.conn.out ++ fputs (r.store zeros) behind
  overread : s'.conn.overread = (s.conn.overread || decide (0 ∉ (r.store zeros).1))
  pc : s'.pc ≠ .returned

/-- A line, or part of one, is sent. -/
structure Sends (s s' : State) : Prop where
  sent : ∃ line, 0 ∉ line ∧ s'.conn.sent = s.conn.sent ++ line
  rcv : s'.conn.rcv = s.conn.rcv
  received : s'.conn.received = s.conn.received
  out : s'.conn.out = s.conn.out
  overread : s'.conn.overread = s.conn.overread
  pc : s'.pc ≠ .returned

theorem cleared_next (s : State) (stdin : Bool) : Cleared (s.next stdin) := by
  intro hpc
  cases stdin with
  | true => rcases hpc with hpc | ⟨_, hpc⟩ <;> exact absurd hpc (by simp [State.next])
  | false => rfl

theorem zero_notMem_cstr (bs : List UInt8) : 0 ∉ cstr bs := by
  intro h
  have := List.mem_takeWhile_imp h
  exact absurd this (by decide)

theorem next_conn (s : State) (stdin : Bool) : (s.next stdin).conn.sent = s.conn.sent ∧
    (s.next stdin).conn.rcv = s.conn.rcv ∧ (s.next stdin).conn.received = s.conn.received ∧
    (s.next stdin).conn.out = s.conn.out ∧ (s.next stdin).conn.overread = s.conn.overread ∧
    (s.next stdin).pc ≠ .returned := by
  cases stdin with
  | true => exact ⟨rfl, rfl, rfl, rfl, rfl, by simp [State.next]⟩
  | false => exact ⟨rfl, rfl, rfl, rfl, rfl, by simp [State.next, State.again]⟩

theorem bytes_of_ret_zero {r : Read BUF_LEN} (h : r.ret = 0) : r.bytes = [] := by
  cases r with
  | data bytes pos le =>
    have hlen : ((bytes.length : Nat) : Int) = 0 := h
    omega
  | eof => rfl
  | fail e =>
    have hm : (-1 : Int) = 0 := h
    omega

theorem select_effect {s s' : State} {e : Event} (hpc : s.pc = .select)
    (h : s.stepSelect .client2 e = some s') :
    (Cleared s → Cleared s') ∧ CleanRead e ∧ Quiet s s' ∧ s'.pc ≠ .returned := by
  unfold State.stepSelect at h
  split at h
  · split at h
    · obtain rfl := Option.some.inj h
      exact ⟨fun hc _ => hc (Or.inl hpc), trivial, ⟨rfl, rfl, rfl, rfl, rfl⟩, by simp⟩
    · split at h
      · obtain rfl := Option.some.inj h
        exact ⟨fun hc _ => hc (Or.inl hpc), trivial, ⟨rfl, rfl, rfl, rfl, rfl⟩, by simp⟩
      · exact absurd h (by simp)
  · obtain rfl := Option.some.inj h
    exact ⟨fun hc _ => hc (Or.inl hpc), trivial, ⟨rfl, rfl, rfl, rfl, rfl⟩, by simp⟩
  · exact absurd h (by simp)

theorem sock_effect {s s' : State} {stdin : Bool} {e : Event} (hpc : s.pc = .sock stdin)
    (hc : Cleared s) (h : s.stepSock .client2 stdin e = some s') :
    Cleared s' ∧ ((CleanRead e ∧ Quiet s s' ∧ s'.pc ≠ .returned) ∨
      ∃ r behind, e = .read r behind ∧ Reads s r behind s') := by
  have hbuf : s.conn.recvbuf = zeros := hc (Or.inr ⟨stdin, hpc⟩)
  unfold State.stepSock at h
  split at h
  · next r behind =>
    obtain ⟨⟨-, hgives, hnul⟩, h⟩ := Option.ite_none_right_eq_some.mp h
    split at h
    · next hret =>
      obtain rfl := Option.some.inj h
      refine ⟨fun _ => hbuf, Or.inl ⟨?_, ⟨rfl, rfl, rfl, rfl, rfl⟩, by simp⟩⟩
      show 0 ∉ r.bytes ∧ r.bytes.length < BUF_LEN
      rw [bytes_of_ret_zero hret]
      exact ⟨List.not_mem_nil, by decide⟩
    · obtain rfl := Option.some.inj h
      obtain ⟨h1, h2, h3, h4, h5, h6⟩ := next_conn { s with conn := s.conn.recv r behind } stdin
      refine ⟨cleared_next _ _, Or.inr ⟨r, behind, rfl, hgives, hnul, h1, h2, h3, ?_, ?_, h6⟩⟩
      · rw [h4, ← hbuf]
        rfl
      · rw [h5, ← hbuf]
        rfl
  · obtain ⟨⟨hno, -⟩, -⟩ := Option.ite_none_right_eq_some.mp h
    exact absurd hno (by decide)
  · obtain ⟨⟨hno, -⟩, -⟩ := Option.ite_none_right_eq_some.mp h
    exact absurd hno (by decide)
  · obtain ⟨hno, -⟩ := Option.ite_none_right_eq_some.mp h
    exact absurd hno (by decide)
  · exact absurd h (by simp)

theorem fgets_effect {s s' : State} {e : Event} (hpc : s.pc = .fgets)
    (h : s.stepFgets .client2 e = some s') :
    Cleared s' ∧ CleanRead e ∧ ((Quiet s s' ∧ (s'.pc = .returned → e = .eof ∧ AtEof s)) ∨
      Sends s s') := by
  unfold State.stepFgets at h
  split at h
  · obtain ⟨-, h⟩ := Option.ite_none_right_eq_some.mp h
    obtain rfl := Option.some.inj h
    refine ⟨?_, trivial, Or.inl ⟨⟨rfl, rfl, rfl, rfl, rfl⟩, fun hr => ?_⟩⟩
    · rintro (h' | ⟨_, h'⟩) <;> exact absurd (hpc.symm.trans h') (by simp)
    · exact absurd (hpc.symm.trans hr) (by simp)
  · next written =>
    obtain ⟨-, h⟩ := Option.ite_none_right_eq_some.mp h
    obtain rfl := Option.some.inj h
    refine ⟨fun _ => rfl, trivial, Or.inr ⟨⟨_, ?_, rfl⟩, rfl, rfl, rfl, rfl, by simp [State.again]⟩⟩
    exact fun h0 => zero_notMem_cstr _ (List.mem_of_mem_take h0)
  · obtain ⟨hend, h⟩ := Option.ite_none_right_eq_some.mp h
    obtain rfl := Option.some.inj h
    refine ⟨?_, trivial, Or.inl ⟨⟨rfl, rfl, rfl, rfl, rfl⟩, fun _ => ⟨rfl, hpc, hend⟩⟩⟩
    rintro (h' | ⟨_, h'⟩) <;> exact absurd h' (by simp)
  · exact absurd h (by simp)

/-- What a step of `client2.c`, or of its surroundings, does to the connection. -/
theorem step_effect {s s' : State} {e : Event} (hc : Cleared s) (h : s.step .client2 e = some s') :
    Cleared s' ∧
      ((CleanRead e ∧ Quiet s s' ∧ (s'.pc = .returned → s.pc = .returned ∨ e = .eof ∧ AtEof s)) ∨
        (∃ bytes, e = .arrive bytes ∧
          s' = { s with conn := { s.conn with rcv := s.conn.rcv ++ bytes } }) ∨
        (∃ r behind, e = .read r behind ∧ Reads s r behind s') ∨
        (CleanRead e ∧ Sends s s')) := by
  unfold State.step at h
  split at h
  · obtain ⟨-, h⟩ := Option.ite_none_left_eq_some.mp h
    obtain rfl := Option.some.inj h
    exact ⟨hc, Or.inl ⟨trivial, ⟨rfl, rfl, rfl, rfl, rfl⟩, Or.inl⟩⟩
  · obtain rfl := Option.some.inj h
    exact ⟨hc, Or.inl ⟨trivial, ⟨rfl, rfl, rfl, rfl, rfl⟩, Or.inl⟩⟩
  · next bytes =>
    obtain ⟨-, h⟩ := Option.ite_none_left_eq_some.mp h
    obtain rfl := Option.some.inj h
    exact ⟨hc, Or.inr (Or.inl ⟨bytes, rfl, rfl⟩)⟩
  · obtain rfl := Option.some.inj h
    exact ⟨hc, Or.inl ⟨trivial, ⟨rfl, rfl, rfl, rfl, rfl⟩, Or.inl⟩⟩
  · split at h
    · next hpc =>
      obtain ⟨hc', hclean, hq, hpc'⟩ := select_effect hpc h
      exact ⟨hc' hc, Or.inl ⟨hclean, hq, fun hr => absurd hr hpc'⟩⟩
    · next hpc =>
      obtain ⟨hc', ⟨hclean, hq, hpc'⟩ | hr⟩ := sock_effect hpc hc h
      · exact ⟨hc', Or.inl ⟨hclean, hq, fun hr => absurd hr hpc'⟩⟩
      · exact ⟨hc', Or.inr (Or.inr (Or.inl hr))⟩
    · next hpc =>
      obtain ⟨hc', hclean, ⟨hq, hpc'⟩ | hs⟩ := fgets_effect hpc h
      · exact ⟨hc', Or.inl ⟨hclean, hq, fun hr => Or.inr (hpc' hr)⟩⟩
      · exact ⟨hc', Or.inr (Or.inr (Or.inr ⟨hclean, hs⟩))⟩
    · exact absurd h (by simp)
    · exact absurd h (by simp)

/-! ## Every run -/

/-- How far `out` follows what was received. -/
structure Follows (es : List Event) (s : State) : Prop where
  cleared : Cleared s
  short : s.conn.overread = false → s.conn.out.length ≤ s.conn.received.length
  clean : (∀ e ∈ es, CleanRead e) → s.conn.out = s.conn.received ∧ s.conn.overread = false
  dirty : ¬ (∀ e ∈ es, CleanRead e) →
    s.conn.overread = true ∨ s.conn.out.length < s.conn.received.length

theorem follows_same {es : List Event} {s s' : State} {e : Event} (h : Follows es s)
    (hc : Cleared s') (he : CleanRead e) (hr : s'.conn.received = s.conn.received)
    (ho : s'.conn.out = s.conn.out) (hov : s'.conn.overread = s.conn.overread) :
    Follows (es ++ [e]) s' := by
  have hall : (∀ e' ∈ es ++ [e], CleanRead e') ↔ ∀ e' ∈ es, CleanRead e' := by
    rw [List.forall_mem_append, List.forall_mem_singleton, and_iff_left he]
  refine ⟨hc, ?_, ?_, ?_⟩
  · rw [hr, ho, hov]
    exact h.short
  · rw [hall, hr, ho, hov]
    exact h.clean
  · rw [hall, hr, ho, hov]
    exact h.dirty

theorem follows_read {es : List Event} {s s' : State} {r : Read BUF_LEN} {behind : List UInt8}
    (h : Follows es s) (hc : Cleared s') (hr : Reads s r behind s') :
    Follows (es ++ [.read r behind]) s' := by
  have hmem := zero_mem_store_iff r
  have hle := r.bytes_length_le
  have hover : s'.conn.overread = false ↔
      s.conn.overread = false ∧ 0 ∈ (r.store zeros).1 := by
    rw [hr.overread, Bool.or_eq_false_iff, decide_eq_false_iff_not, not_not]
  refine ⟨hc, fun hov => ?_, fun hall => ?_, fun hall => ?_⟩
  · obtain ⟨hov, h0⟩ := hover.mp hov
    have hput := fputs_length_le h0 behind
    have hshort := h.short hov
    rw [hr.out, hr.received, List.length_append, List.length_append]
    omega
  · rw [List.forall_mem_append, List.forall_mem_singleton] at hall
    obtain ⟨hes, h0, hlt⟩ := hall
    obtain ⟨hout, hov⟩ := h.clean hes
    refine ⟨?_, hover.mpr ⟨hov, hmem.mpr (Or.inr hlt)⟩⟩
    rw [hr.out, hr.received, hout, fputs_clean h0 hlt]
  · rw [List.forall_mem_append, List.forall_mem_singleton] at hall
    by_cases hov' : s'.conn.overread = true
    · exact Or.inl hov'
    · right
      obtain ⟨hov, h0⟩ := hover.mp (by simpa using hov')
      have hshort := h.short hov
      rw [hr.out, hr.received, List.length_append, List.length_append]
      by_cases hes : ∀ e ∈ es, CleanRead e
      · -- this chunk has a NUL
        have hnul : 0 ∈ r.bytes := by
          apply Classical.byContradiction
          intro hno
          exact hall ⟨hes, hno, (hmem.mp h0).resolve_left hno⟩
        have hput : (fputs (r.store zeros) behind).length < r.bytes.length := by
          unfold fputs
          rw [if_pos h0, cstr_store]
          exact cstr_length_lt hnul
        omega
      · have hput := fputs_length_le h0 behind
        rcases h.dirty hes with hd | hd
        · exact absurd (hov.symm.trans hd) (by decide)
        · omega

theorem follows_run {es : List Event} {s : State} (h : (strCli .client2).Run es s) :
    Follows es s := by
  apply h.invariant
  · rintro s rfl
    refine ⟨fun _ => rfl, fun _ => Nat.le_refl _, fun _ => ⟨rfl, rfl⟩, fun hne => ?_⟩
    exact absurd (fun e he => absurd he List.not_mem_nil) hne
  · intro es s e s' _ hf hs
    obtain ⟨hc, ⟨he, hq, -⟩ | ⟨bytes, rfl, rfl⟩ | ⟨r, behind, rfl, hr⟩ | ⟨he, hsend⟩⟩ :=
      step_effect hf.cleared hs
    · exact follows_same hf hc he hq.received hq.out hq.overread
    · exact follows_same hf hc trivial rfl rfl rfl
    · exact follows_read hf hc hr
    · exact follows_same hf hc he hsend.received hsend.out hsend.overread

/-- **The output.**  What `str_cli` wrote is what it received, and `fputs` stayed within
`recvbuf`, exactly if no chunk had a NUL in it or filled the buffer. -/
theorem str_cli_output_iff {es : List Event} {s : State} (h : (strCli .client2).Run es s) :
    s.conn.out = s.conn.received ∧ s.conn.overread = false ↔ ∀ e ∈ es, CleanRead e := by
  have hf := follows_run h
  constructor
  · rintro ⟨hout, hov⟩
    apply Classical.byContradiction
    intro hne
    rcases hf.dirty hne with hd | hd
    · exact absurd (hov.symm.trans hd) (by decide)
    · rw [hout] at hd
      exact absurd hd (Nat.lt_irrefl _)
  · exact hf.clean

/-- `bytes` arrive and are read in one chunk. -/
def oneChunk (bytes : List UInt8) (pos : 0 < bytes.length) (le : bytes.length ≤ BUF_LEN) :
    List Event :=
  [.arrive bytes, .select, .read (.data bytes pos le) []]

/-- The state after a chunk, of which `out` was written. -/
def afterChunk (bytes out : List UInt8) : State :=
  ⟨.select, ⟨[], false, [], [], []⟩, ⟨[], [], false, bytes, zeros, out, false⟩⟩

theorem run_oneChunk {bytes out : List UInt8} {pos : 0 < bytes.length}
    {le : bytes.length ≤ BUF_LEN}
    (h : (oneChunk bytes pos le).foldlM (State.step .client2) start = some (afterChunk bytes out)) :
    (strCli .client2).Run (oneChunk bytes pos le) (afterChunk bytes out) :=
  System.Run.exec (State.step .client2) (fun _ _ _ h => h) (.start rfl) (oneChunk bytes pos le) h

theorem str_cli_output_oneChunk :
    (afterChunk [97, 98] [97, 98]).conn.out = (afterChunk [97, 98] [97, 98]).conn.received ∧
        (afterChunk [97, 98] [97, 98]).conn.overread = false ↔
      ∀ e ∈ oneChunk [97, 98] (by decide) (by decide), CleanRead e :=
  str_cli_output_iff (run_oneChunk rfl)

/-- The three bytes `a`, NUL, `b` in one chunk: `b` is not written. -/
theorem str_cli_drops_behind_nul :
    ¬ ∀ es s, (strCli .client2).Run es s →
      s.conn.out = s.conn.received ∧ s.conn.overread = false := by
  intro h
  have hrun : (strCli .client2).Run (oneChunk [97, 0, 98] (by decide) (by decide))
      (afterChunk [97, 0, 98] [97]) := run_oneChunk rfl
  exact absurd (h _ _ hrun).1 (by decide)

end StudyDoc.StrCli
