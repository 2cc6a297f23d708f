import StudyDoc.Net.StrCliOutput

/-!
# `client2.c` in batch use: `str_cli` and a server that echoes

The server sends back, in order and whenever it likes, the bytes it receives.  What `str_cli` sent
is then what it received, what waits in the queue of the socket, and what is in flight:

    sent = received ++ inFlight                                       (sent_split)
    at return all came back ↔ inFlight = [] when fgets found the end of stdin
                                                                      (str_cli_echoed_iff)
-/

namespace StudyDoc.StrCli

open Transition

/-! ## Algorithm -/

structure Echo where
  cli : State
  /-- So many of the bytes sent have been sent back. -/
  echoed : Nat

namespace Echo

/-- The bytes that came back to the client's host. -/
def arrived (s : Echo) : List UInt8 := s.cli.conn.received ++ s.cli.conn.rcv

/-- The bytes that `str_cli` sent and did not read back: in the queue of its socket, on the way,
or at the server. -/
def inFlight (s : Echo) : List UInt8 := s.cli.conn.rcv ++ s.cli.conn.sent.drop s.arrived.length

end Echo

inductive EchoEvent where
  /-- A step of the client or its user. -/
  | cli (e : Event)
  /-- The server has echoed the first `k` bytes. -/
  | server (k : Nat)
  /-- The first `k` bytes are back. -/
  | arrive (k : Nat)

def Echo.step (s : Echo) : EchoEvent → Option Echo
  | .cli (.arrive _) => none
  | .cli .close => none
  | .cli e => (s.cli.step .client2 e).map fun cli => { s with cli := cli }
  | .server k =>
    if s.echoed < k ∧ k ≤ s.cli.conn.sent.length then some { s with echoed := k } else none
  | .arrive k =>
    if s.arrived.length < k ∧ k ≤ s.echoed then
      (s.cli.step .client2 (.arrive ((s.cli.conn.sent.take k).drop s.arrived.length))).map
        fun cli => { s with cli := cli }
    else none

def echo : System Echo EchoEvent where
  init s := s = ⟨start, 0⟩
  step s e s' := s.step e = some s'

/-- When `str_cli` has returned, all it sent has come back and was written. -/
def Returned (s : Echo) : Prop :=
  s.cli.pc = .returned → s.cli.conn.received = s.cli.conn.sent ∧
    s.cli.conn.sent.Sublist s.cli.conn.out

/-- When `fgets` finds the end of stdin, nothing is on its way. -/
def Arrived (s : Echo) (e : EchoEvent) : Prop :=
  e = .cli .eof → AtEof s.cli → s.inFlight = []

structure Echoed (s : Echo) : Prop where
  cleared : Cleared s.cli
  nul : 0 ∉ s.cli.conn.sent
  back : s.arrived <+: s.cli.conn.sent
  written : s.cli.conn.received.Sublist s.cli.conn.out

/-! ### Steps -/

theorem eof_step {s s' : State} (h : s.step .client2 .eof = some s') :
    AtEof s ∧ s'.pc = .returned ∧ s'.conn = s.conn := by
  unfold State.step at h
  dsimp only at h
  split at h
  · exact absurd h (by simp [State.stepSelect])
  · exact absurd h (by simp [State.stepSock])
  · next hpc =>
    obtain ⟨hend, h⟩ := Option.ite_none_right_eq_some.mp h
    obtain rfl := Option.some.inj h
    exact ⟨⟨hpc, hend⟩, rfl, rfl⟩
  · exact absurd h (by simp)
  · exact absurd h (by simp)

theorem eof_enabled {s : State} (h : AtEof s) : ∃ s', s.step .client2 .eof = some s' := by
  unfold State.step
  dsimp only
  rw [h.1]
  exact ⟨_, if_pos h.2⟩

/-- A step of the client or its user is one of `client2.c` in which nothing arrives. -/
theorem cli_step {s s' : Echo} {e : Event} (h : s.step (.cli e) = some s') :
    (∀ bytes, e ≠ .arrive bytes) ∧ s.cli.step .client2 e = some s'.cli := by
  unfold Echo.step at h
  split at h
  · exact absurd h (by simp)
  · exact absurd h (by simp)
  · next hno _ heq =>
    obtain ⟨cli, hcli, hs'⟩ := Option.map_eq_some_iff.mp h
    rw [← EchoEvent.cli.inj heq] at hcli hno
    rw [← hs']
    refine ⟨fun bytes he => hno bytes (by rw [he]), hcli⟩
  · next heq => exact absurd heq (by simp)
  · next heq => exact absurd heq (by simp)

theorem arrive_cases {s s' : State} {bytes : List UInt8}
    (h : s.step .client2 (.arrive bytes) = some s') :
    s' = { s with conn := { s.conn with rcv := s.conn.rcv ++ bytes } } := by
  obtain ⟨-, h⟩ := Option.ite_none_left_eq_some.mp h
  exact (Option.some.inj h).symm

/-- What a step can do. -/
theorem echo_cases {s s' : Echo} {e : EchoEvent} (h : s.step e = some s') :
    (∃ e', e = .cli e' ∧ (∀ bytes, e' ≠ .arrive bytes) ∧
      s.cli.step .client2 e' = some s'.cli) ∨
    ((∃ k, e = .server k) ∧ s'.cli = s.cli) ∨
    (∃ k, e = .arrive k ∧ s.arrived.length < k ∧
      s'.cli = { s.cli with conn := { s.cli.conn with
        rcv := s.cli.conn.rcv ++ (s.cli.conn.sent.take k).drop s.arrived.length } }) := by
  cases e with
  | cli e' =>
    obtain ⟨hno, hcli⟩ := cli_step h
    exact Or.inl ⟨e', rfl, hno, hcli⟩
  | server k =>
    obtain ⟨-, h⟩ := Option.ite_none_right_eq_some.mp h
    obtain rfl := Option.some.inj h
    exact Or.inr (Or.inl ⟨⟨k, rfl⟩, rfl⟩)
  | arrive k =>
    obtain ⟨hk, h⟩ := Option.ite_none_right_eq_some.mp h
    obtain ⟨cli, hcli, rfl⟩ := Option.map_eq_some_iff.mp h
    exact Or.inr (Or.inr ⟨k, rfl, hk.1, arrive_cases hcli⟩)

/-! ### Bytes on their way -/

theorem arrived_prefix {s : Echo} (h : s.arrived <+: s.cli.conn.sent) {k : Nat}
    (hk : s.arrived.length < k) :
    s.arrived ++ (s.cli.conn.sent.take k).drop s.arrived.length <+: s.cli.conn.sent := by
  obtain ⟨rest, hrest⟩ := h
  have htake : s.cli.conn.sent.take k = s.arrived ++ rest.take (k - s.arrived.length) := by
    rw [← hrest, List.take_append, List.take_of_length_le (Nat.le_of_lt hk)]
  rw [htake, List.drop_left, ← hrest]
  exact (List.prefix_append_right_inj _).mpr (List.take_prefix _ _)

theorem sent_split {s : Echo} (h : s.arrived <+: s.cli.conn.sent) :
    s.cli.conn.sent = s.cli.conn.received ++ s.inFlight := by
  obtain ⟨rest, hrest⟩ := h
  have hdrop : s.cli.conn.sent.drop s.arrived.length = rest := by
    rw [← hrest, List.drop_left]
  unfold Echo.inFlight
  rw [hdrop, ← List.append_assoc]
  exact hrest.symm

theorem gives_prefix {k : Conn} {r : Read BUF_LEN} (h : k.Gives r) : r.bytes <+: k.rcv := by
  cases r with
  | data bytes pos le => exact h
  | eof => exact List.nil_prefix
  | fail e => exact List.nil_prefix

/-- A chunk without a NUL is written, whatever follows it. -/
theorem fputs_keeps {r : Read BUF_LEN} (h : 0 ∉ r.bytes) (behind : List UInt8) :
    r.bytes.Sublist (fputs (r.store zeros) behind) := by
  unfold fputs
  split
  · rw [cstr_store, cstr_eq_self h]
  · rw [store_zeros, List.append_assoc]
    exact List.sublist_append_left _ _

theorem echoed_reads {s s' : Echo} {r : Read BUF_LEN} {behind : List UInt8} (h : Echoed s)
    (hc : Cleared s'.cli) (hr : Reads s.cli r behind s'.cli) : Echoed s' := by
  obtain ⟨rest, hrest⟩ := gives_prefix hr.gives
  have harrived : s'.arrived = s.arrived := by
    unfold Echo.arrived
    rw [hr.received, hr.rcv, ← hrest, List.drop_left, List.append_assoc]
  have hnul : 0 ∉ r.bytes := by
    intro h0
    apply h.nul
    apply h.back.subset
    apply List.mem_append_right
    rw [← hrest]
    exact List.mem_append_left rest h0
  refine ⟨hc, ?_, ?_, ?_⟩
  · rw [hr.sent]
    exact h.nul
  · rw [hr.sent, harrived]
    exact h.back
  · rw [hr.received, hr.out]
    exact h.written.append (fputs_keeps hnul behind)

theorem echoed_sends {s s' : Echo} (h : Echoed s) (hc : Cleared s'.cli)
    (hs : Sends s.cli s'.cli) : Echoed s' := by
  obtain ⟨line, hline, hsent⟩ := hs.sent
  have harrived : s'.arrived = s.arrived := by
    unfold Echo.arrived
    rw [hs.received, hs.rcv]
  refine ⟨hc, ?_, ?_, ?_⟩
  · rw [hsent, List.mem_append]
    rintro (h0 | h0)
    · exact h.nul h0
    · exact hline h0
  · rw [harrived, hsent]
    exact h.back.trans (List.prefix_append _ _)
  · rw [hs.received, hs.out]
    exact h.written

theorem echoed_quiet {s s' : Echo} (h : Echoed s) (hc : Cleared s'.cli)
    (hq : Quiet s.cli s'.cli) : Echoed s' := by
  have harrived : s'.arrived = s.arrived := by
    unfold Echo.arrived
    rw [hq.received, hq.rcv]
  refine ⟨hc, ?_, ?_, ?_⟩
  · rw [hq.sent]
    exact h.nul
  · rw [hq.sent, harrived]
    exact h.back
  · rw [hq.received, hq.out]
    exact h.written

theorem echoed_step {s s' : Echo} {e : EchoEvent} (h : Echoed s) (hs : s.step e = some s') :
    Echoed s' := by
  rcases echo_cases hs with ⟨e', -, hno, hcli⟩ | ⟨-, hcli⟩ | ⟨k, -, hk, hcli⟩
  · obtain ⟨hc, ⟨-, hq, -⟩ | ⟨bytes, he, -⟩ | ⟨r, behind, -, hr⟩ | ⟨-, hsend⟩⟩ :=
      step_effect h.cleared hcli
    · exact echoed_quiet h hc hq
    · exact absurd he (hno bytes)
    · exact echoed_reads h hc hr
    · exact echoed_sends h hc hsend
  · refine echoed_quiet h ?_ ?_
    · rw [hcli]
      exact h.cleared
    · rw [hcli]
      exact ⟨rfl, rfl, rfl, rfl, rfl⟩
  · have harrived : s'.arrived =
        s.arrived ++ (s.cli.conn.sent.take k).drop s.arrived.length := by
      unfold Echo.arrived
      rw [hcli, List.append_assoc]
      rfl
    refine ⟨?_, ?_, ?_, ?_⟩
    · rw [hcli]
      exact h.cleared
    · rw [hcli]
      exact h.nul
    · rw [harrived, hcli]
      exact arrived_prefix h.back hk
    · rw [hcli]
      exact h.written

theorem echoed {s : Echo} (h : echo.Reachable s) : Echoed s := by
  apply h.invariant
  · rintro s rfl
    exact ⟨fun _ => rfl, List.not_mem_nil, List.prefix_refl _, List.Sublist.refl _⟩
  · intro s e s' _ hi hs
    exact echoed_step hi hs

/-! ## Main result -/

/-- The step in which `str_cli` returns. -/
theorem returned_iff {s s' : Echo} (h : Echoed s) (hs : s.step (.cli .eof) = some s') :
    Returned s' ↔ s.inFlight = [] := by
  obtain ⟨-, hcli⟩ := cli_step hs
  obtain ⟨-, hpc, hconn⟩ := eof_step hcli
  have hsplit := sent_split h.back
  unfold Returned
  rw [hconn]
  constructor
  · intro hr
    rw [(hr hpc).1] at hsplit
    exact List.self_eq_append_right.mp hsplit
  · intro hempty _
    rw [hempty, List.append_nil] at hsplit
    refine ⟨hsplit.symm, ?_⟩
    rw [hsplit]
    exact h.written

/-- No other step returns. -/
theorem returned_step {s s' : Echo} {e : EchoEvent} (h : Echoed s) (hr : Returned s)
    (he : e ≠ .cli .eof) (hs : s.step e = some s') : Returned s' := by
  intro hpc
  rcases echo_cases hs with ⟨e', rfl, hno, hcli⟩ | ⟨-, hcli⟩ | ⟨k, -, hk, hcli⟩
  · obtain ⟨-, ⟨-, hq, hret⟩ | ⟨bytes, heq, -⟩ | ⟨r, behind, -, hread⟩ | ⟨-, hsend⟩⟩ :=
      step_effect h.cleared hcli
    · rcases hret hpc with hpc' | ⟨heof, -⟩
      · rw [hq.received, hq.sent, hq.out]
        exact hr hpc'
      · exact absurd (by rw [heof]) he
    · exact absurd heq (hno bytes)
    · exact absurd hpc hread.pc
    · exact absurd hpc hsend.pc
  · rw [hcli] at hpc ⊢
    exact hr hpc
  · rw [hcli] at hpc ⊢
    exact hr hpc

/-- **Batch use.**  Whenever `str_cli` has returned, everything it sent has come back and was
written, exactly if nothing was on its way when `fgets` found the end of stdin. -/
theorem str_cli_echoed_iff (es : List EchoEvent) :
    echo.Always es Returned ↔ echo.Along es Arrived := by
  apply System.always_iff_along
  · rintro s rfl hpc
    exact absurd hpc (by decide)
  · intro s e s' hreach hr hs
    have h := echoed hreach
    by_cases he : e = .cli .eof
    · rw [he] at hs
      rw [returned_iff h hs]
      constructor
      · exact fun hempty _ _ => hempty
      · exact fun ha => ha he (eof_step (cli_step hs).2).1
    · exact ⟨fun _ heof => absurd heof he, fun _ => returned_step h hr he hs⟩
  · rintro s e hno rfl hend
    exfalso
    obtain ⟨cli, hcli⟩ := eof_enabled hend
    apply hno { s with cli := cli }
    show (s.cli.step .client2 .eof).map _ = _
    rw [hcli]
    rfl

/-- One line and the end of stdin: `str_cli` returns before the server answers. -/
def batch : List EchoEvent :=
  [.cli (.enter [97, 10]), .cli .hangup, .cli .select, .cli .fill, .cli (.line 2), .cli .select,
    .cli .eof]

def afterBatch : Echo :=
  ⟨⟨.returned, ⟨[], true, [], [97, 10], [97, 10]⟩, ⟨[97, 10], [], false, [], zeros, [], false⟩⟩, 0⟩

theorem str_cli_returns_early : ¬ echo.Always batch Returned := by
  intro h
  have hrun : echo.Run [] ⟨start, 0⟩ := .start rfl
  have hbatch : echo.Run batch afterBatch :=
    hrun.exec Echo.step (fun _ _ _ h => h) batch rfl
  exact absurd (h batch [] afterBatch rfl hbatch rfl).1 (by decide)

end StudyDoc.StrCli
