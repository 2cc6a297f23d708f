import StudyDoc.Net.PollServer
import Mathlib.Data.List.Range
import Mathlib.Data.List.Nodup

/-!
# `server_new.c`: what one turn reads and answers

`scan_services` says once what the client scan does: it reads the first
`max nready 1` readable slots and no other.  From it, for every turn of every run:

    ServedRight v ↔ ∀ e, v.result ≠ .fail e                              (poll_served_iff)
    slots read = polled slots 1, …, maxi reported ready                  (poll_reads_reported)
    OnlyReported sockfd s inp ↔ NothingStale s inp                       (poll_onlyReported_iff)

The second is up to the turn that finds the table full and exits.
-/

namespace StudyDoc.PollServer

open Transition

/-! ## Answers -/

/-- `k > 0` bytes go to `writen` on the same descriptor, once and all of them; any other result
of `read` closes the descriptor and frees its slot, and writes nothing. -/
def ServedRight (v : Service) : Prop :=
  match v.result with
  | .data bytes _ _ =>
    ∃ buf n, v.calls = [.writen v.fd buf n] ∧ n.toNat = bytes.length ∧ bytes.length ≤ MAXLINE ∧
      buf.1.take n.toNat = bytes ∧ v.after.client = v.before.client ∧ v.after.conns = v.before.conns
  | _ =>
    v.calls = [.close v.fd] ∧ (v.after.client v.slot).fd = -1 ∧
      v.after.conns = v.before.conns.erase v.fd

theorem serve_closes {s : Server} {i : Nat} {r : Read MAXLINE} (h : r.ret = 0) :
    s.serve i r = Server.closeSlot { s with buf := r.store s.buf } i := by
  rw [serve_eq, h]
  exact if_pos rfl

theorem serve_writes {s : Server} {i : Nat} {r : Read MAXLINE} (h : BitVec.ofInt 64 r.ret ≠ 0) :
    s.serve i r = ([.writen (s.client i).fd (r.store s.buf) (BitVec.ofInt 64 r.ret)],
      { s with buf := r.store s.buf }) := by
  rw [serve_eq]
  exact if_neg h

/-- The `size_t` of a byte count is the byte count. -/
theorem ofInt_length_toNat {bytes : List UInt8} (h : bytes.length ≤ MAXLINE) :
    (BitVec.ofInt 64 (bytes.length : Int)).toNat = bytes.length := by
  have hm : MAXLINE = 255 := rfl
  rw [BitVec.toNat_ofInt]
  omega

/-- A failed `read` is answered with a write of `2 ^ 64 - 1` bytes. -/
theorem servedRight_iff (v : Service) : ServedRight v ↔ ∀ e, v.result ≠ .fail e := by
  obtain ⟨s, i, r⟩ := v
  cases r with
  | data bytes pos le =>
    have hn := ofInt_length_toNat le
    have hne : BitVec.ofInt 64 (Read.data bytes pos le).ret ≠ 0 := by
      intro h0
      have hz : (BitVec.ofInt 64 (bytes.length : Int)).toNat = 0 := by
        rw [show BitVec.ofInt 64 (bytes.length : Int) = 0 from h0]
        rfl
      omega
    have hserve := serve_writes (s := s) (i := i) hne
    refine ⟨fun _ e he => (by cases he), fun _ => ?_⟩
    refine ⟨_, _, by rw [Service.calls, hserve]; rfl, hn, le, ?_, ?_, ?_⟩
    · show List.take (BitVec.ofInt 64 (bytes.length : Int)).toNat _ = bytes
      rw [hn]
      exact Read.store_take (.data bytes pos le) s.buf
    · simp only [Service.after, hserve]
    · simp only [Service.after, hserve]
  | eof =>
    have hserve := serve_closes (s := s) (i := i) (r := .eof) rfl
    refine ⟨fun _ e he => (by cases he), fun _ => ⟨?_, ?_, ?_⟩⟩
    · simp only [Service.calls, hserve]
      rfl
    · simp only [Service.after, hserve, Server.closeSlot]
      exact congrArg Pollfd.fd (setSlot_self _ _ _)
    · simp only [Service.after, hserve]
      rfl
  | fail e =>
    have hne : BitVec.ofInt 64 (Read.fail e : Read MAXLINE).ret ≠ 0 := by
      simp only [Read.ret]
      decide
    have hserve := serve_writes (s := s) (i := i) hne
    refine ⟨fun h => ?_, fun h => absurd rfl (h e)⟩
    have hcalls : Service.calls ⟨s, i, .fail e⟩ = [.close _] := h.1
    rw [Service.calls, hserve] at hcalls
    cases hcalls

/-- **Answers.**  In every run, a `read` on a ready client is answered as it should be exactly
when it did not fail. -/
theorem poll_served_iff (sockfd : Int) (es : List Input) :
    (system sockfd).Along es fun s inp =>
      ∀ v ∈ (s.round inp).services, (ServedRight v ↔ ∀ e, v.result ≠ .fail e) :=
  System.along_of_reachable (fun _ _ _ v _ => servedRight_iff v) es

/-- The client of `oneClient` resets its connection. -/
def reset : Input := { report [1] (-1) with read := fun _ => .fail ECONNRESET }

/-- The reset connection is written to, with a length of `2 ^ 64 - 1`, and stays in the table. -/
theorem poll_writes_after_reset :
    ¬ ∀ s, (system 3).Reachable s → ∀ inp, ∀ v ∈ (s.round inp).services, ServedRight v := by
  intro h
  have hall := h oneClient oneClient_reachable reset
  let v : Service := ⟨(oneClient.poll reset.poll).1, 1, .fail ECONNRESET⟩
  have hv : v ∈ (oneClient.round reset).services := List.mem_singleton.mpr rfl
  exact (servedRight_iff v).mp (hall v hv) ECONNRESET rfl

/-! ## The scan -/

/-- The scan would read slot `i`. -/
def Server.readable (s : Server) (i : Nat) : Bool :=
  decide (0 ≤ (s.client i).fd) && isReady (s.client i).revents

/-- The scan reads the readable slots in order, and stops after `nready` of them (but not before
the first). -/
theorem scan_services (read : Nat → Read MAXLINE) {is : List Nat} (hnd : is.Nodup) (s : Server)
    (nready : Int) :
    (scan read is s nready).1.map Service.slot = (is.filter s.readable).take (max nready 1).toNat ∧
    ∀ v ∈ (scan read is s nready).1, v.fd = (s.client v.slot).fd := by
  induction is generalizing s nready with
  | nil => simp [scan]
  | cons i is ih =>
    obtain ⟨hi, hnd⟩ := List.nodup_cons.mp hnd
    rw [scan]
    by_cases hfd : (s.client i).fd < 0
    · have hr : s.readable i = false := by simp [Server.readable, hfd]
      rw [if_pos hfd, List.filter_cons_of_neg (by simp [hr])]
      exact ih hnd s nready
    · rw [if_neg hfd]
      by_cases hready : isReady (s.client i).revents = true
      · have hr : s.readable i = true := by simp [Server.readable, hready, not_lt.mp hfd]
        rw [if_pos hready, List.filter_cons_of_pos hr]
        dsimp only
        by_cases hlast : nready - 1 ≤ 0
        · have hone : (max nready 1).toNat = 1 := by omega
          rw [if_pos hlast, hone]
          refine ⟨rfl, fun v hv => ?_⟩
          rw [List.mem_singleton.mp hv]
          rfl
        · obtain ⟨hslots, hfds⟩ := ih hnd (Service.after ⟨s, i, read i⟩) (nready - 1)
          have hsame : ∀ j ∈ is, (Service.after ⟨s, i, read i⟩).client j = s.client j := by
            intro j hj
            have hne : j ≠ i := fun e => hi (e ▸ hj)
            exact serve_client_ne s hne _
          have hfilter : is.filter (Service.after ⟨s, i, read i⟩).readable = is.filter s.readable :=
            List.filter_congr fun j hj => by simp only [Server.readable, hsame j hj]
          have hmax : (max nready 1).toNat = (max (nready - 1) 1).toNat + 1 := by omega
          rw [if_neg hlast, hmax, List.take_succ_cons]
          refine ⟨by rw [List.map_cons, hslots, hfilter], fun v hv => ?_⟩
          rcases List.mem_cons.mp hv with rfl | hv
          · rfl
          · have hslot : v.slot ∈ is := by
              have hm := List.mem_map_of_mem (f := Service.slot) hv
              rw [hslots] at hm
              exact (List.mem_filter.mp (List.mem_of_mem_take hm)).1
            rw [hfds v hv, hsame _ hslot]
      · have hr : s.readable i = false := by simp [Server.readable, hready]
        rw [if_neg hready, List.filter_cons_of_neg (by simp [hr])]
        exact ih hnd s nready

/-! ## One turn -/

/-- `poll` found the listening socket readable, or left it marked so. -/
def Server.listening (s : Server) : Prop := (s.client 0).revents &&& POLLRDNORM ≠ 0

instance (s : Server) : Decidable s.listening := inferInstanceAs (Decidable (_ ≠ _))

theorem round_quiet {s : Server} {inp : Input} (h : ¬ (s.poll inp.poll).1.listening) :
    s.round inp = (s.poll inp.poll).1.scanAll false (s.poll inp.poll).2 inp.read :=
  if_neg h

theorem round_full {s : Server} {inp : Input} (h : (s.poll inp.poll).1.listening)
    (ha : (s.poll inp.poll).1.accept inp.connfd = none) : s.round inp = ⟨true, [], none⟩ := by
  unfold Server.listening at h
  unfold Server.round
  dsimp only
  rw [if_pos h, ha]

theorem round_accept {s s' : Server} {inp : Input} (h : (s.poll inp.poll).1.listening)
    (ha : (s.poll inp.poll).1.accept inp.connfd = some s') :
    s.round inp = if (s.poll inp.poll).2 - 1 ≤ 0 then ⟨true, [], some s'⟩
      else s'.scanAll true ((s.poll inp.poll).2 - 1) inp.read := by
  unfold Server.listening at h
  unfold Server.round
  dsimp only
  rw [if_pos h, ha]

theorem round_accepted (s : Server) (inp : Input) :
    (s.round inp).accepted = true ↔ (s.poll inp.poll).1.listening := by
  by_cases h : (s.poll inp.poll).1.listening
  · cases ha : (s.poll inp.poll).1.accept inp.connfd with
    | none => simp [round_full h ha, h]
    | some s' =>
      rw [round_accept h ha]
      split <;> simp [Server.scanAll, h]
  · simp [round_quiet h, Server.scanAll, h]

theorem scanAll_services (s : Server) (a : Bool) (nready : Int) (read : Nat → Read MAXLINE) :
    (s.scanAll a nready read).services.map Service.slot =
      ((List.range' 1 s.maxi).filter s.readable).take (max nready 1).toNat ∧
    ∀ v ∈ (s.scanAll a nready read).services, v.fd = (s.client v.slot).fd :=
  scan_services read List.nodup_range' s nready

/-! ## A turn whose `poll` succeeds -/

@[simp] theorem isReady_zero : isReady 0#16 = false := by decide

theorem listening_ok (s : Server) (revs : Nat → Flags) :
    (s.poll (.ok revs)).1.listening ↔ s.reports revs 0 &&& POLLRDNORM ≠ 0 := by
  simp [Server.listening, Server.poll]

/-- The polled slots reported with `POLLRDNORM` or `POLLERR`. -/
def Server.readySlots (s : Server) (revs : Nat → Flags) : List Nat :=
  (List.range' 1 s.maxi).filter fun i => isReady (s.reports revs i)

/-- How many of the polled connections have any flag set. -/
def Server.marked (s : Server) (revs : Nat → Flags) : Nat :=
  (List.range' 1 s.maxi).countP fun i => s.reports revs i ≠ 0

/-- Where `q` implies `p`, no fewer elements satisfy `q` only if `p` implies `q` as well. -/
theorem countP_le_iff {p q : Nat → Bool} (h : ∀ x, q x = true → p x = true) (l : List Nat) :
    l.countP q ≤ l.countP p ∧ (l.countP p ≤ l.countP q ↔ ∀ x ∈ l, p x = true → q x = true) := by
  have hle : l.countP q ≤ l.countP p := List.countP_mono_left fun x _ => h x
  refine ⟨hle, ?_⟩
  induction l with
  | nil => simp
  | cons x l ih =>
    have hle' : l.countP q ≤ l.countP p := List.countP_mono_left fun x _ => h x
    rw [List.forall_mem_cons, ← ih hle', List.countP_cons, List.countP_cons]
    cases hq : q x with
    | true =>
      have hp : p x = true := h x hq
      rw [hp]
      simp
    | false =>
      cases hp : p x with
      | true =>
        have hgt : ¬ l.countP p + 1 ≤ l.countP q := by omega
        simpa using hgt
      | false => simp

theorem readySlots_length_le (s : Server) (revs : Nat → Flags) :
    (s.readySlots revs).length ≤ s.marked revs ∧
    (s.marked revs ≤ (s.readySlots revs).length ↔
      ∀ i, 1 ≤ i → i ≤ s.maxi → s.reports revs i ≠ 0 → isReady (s.reports revs i) = true) := by
  have himp : ∀ i, isReady (s.reports revs i) = true → decide (s.reports revs i ≠ 0) = true := by
    intro i hi
    rw [decide_eq_true_eq]
    intro h0
    simp [h0] at hi
  have h := countP_le_iff himp (List.range' 1 s.maxi)
  rw [Server.readySlots, ← List.countP_eq_length_filter, Server.marked]
  refine ⟨h.1, h.2.trans ?_⟩
  constructor
  · intro hall i h1 hi h0
    exact hall i (List.mem_range'_1.mpr (by omega)) (decide_eq_true h0)
  · intro hall i hi h0
    rw [List.mem_range'_1] at hi
    exact hall i hi.1 (by omega) (of_decide_eq_true h0)

theorem nready_ok (s : Server) (revs : Nat → Flags) :
    (s.poll (.ok revs)).2 = (if s.reports revs 0 ≠ 0 then 1 else 0) + (s.marked revs : Int) := by
  simp only [Server.poll, Server.marked, List.range_eq_range', List.range'_succ, List.countP_cons]
  split <;> simp_all [Int.add_comm]

theorem polled_readable {s : Server} {revs : Nat → Flags} {i : Nat} (hi : i ≤ s.maxi) :
    (s.poll (.ok revs)).1.readable i = isReady (s.reports revs i) := by
  simp only [Server.readable, Server.poll, hi, if_true]
  by_cases hfd : (s.client i).fd < 0
  · simp [Server.reports, hfd]
  · simp [not_lt.mp hfd]

theorem polled_filter (s : Server) (revs : Nat → Flags) :
    (List.range' 1 s.maxi).filter (s.poll (.ok revs)).1.readable = s.readySlots revs :=
  List.filter_congr fun i hi => by
    rw [List.mem_range'_1] at hi
    exact polled_readable (by omega)

theorem firstFree_congr {client client' : Nat → Pollfd} (h : ∀ i, (client i).fd = (client' i).fd)
    (n i : Nat) : firstFree client n i = firstFree client' n i := by
  induction n generalizing i with
  | zero => rfl
  | succ n ih => rw [firstFree, firstFree, h i, ih]

theorem poll_freeSlot (s : Server) (p : Poll) : (s.poll p).1.freeSlot = s.freeSlot :=
  firstFree_congr (poll_fd s p) _ _

/-- The new connection goes to a slot no `poll` has covered, whose `revents` happen to say ready. -/
def Server.freshReady (s : Server) (connfd : Int) : Bool :=
  decide (s.freeSlot = s.maxi + 1) && decide (0 ≤ connfd) && isReady (s.client (s.maxi + 1)).revents

theorem freeSlot_le {sockfd : Int} {s : Server} (h : TableOk sockfd s) :
    s.freeSlot ≤ s.maxi + 1 := by
  obtain ⟨-, hle, htaken, -⟩ := freeSlot_spec s
  by_contra hgt
  have h0 := htaken (s.maxi + 1) (by omega) (by omega)
  have hneg := h.unused (s.maxi + 1) (by omega) (by omega)
  exact absurd h0 (not_le.mpr hneg)

section Accepted

variable {s s' : Server} {revs : Nat → Flags} {connfd : Int}
  (ha : (s.poll (.ok revs)).1.accept connfd = some s')

include ha

theorem accepted_client_ne {i : Nat} (hi : i ≤ s.maxi) (hne : i ≠ s.freeSlot) :
    (s'.client i).fd = (s.client i).fd ∧ (s'.client i).revents = s.reports revs i := by
  obtain ⟨-, -, hclient, -, -⟩ := accept_eq_some ha
  rw [poll_freeSlot] at hclient
  rw [hclient]
  simp [hne, Server.poll, hi]

theorem accepted_client_self :
    (s'.client s.freeSlot).fd = connfd ∧
    (s'.client s.freeSlot).revents = ((s.poll (.ok revs)).1.client s.freeSlot).revents := by
  obtain ⟨-, -, hclient, -, -⟩ := accept_eq_some ha
  rw [poll_freeSlot] at hclient
  rw [hclient]
  simp

theorem freeSlot_reports : s.reports revs s.freeSlot = 0 := by
  obtain ⟨-, hfree, -, -, -⟩ := accept_eq_some ha
  rw [poll_freeSlot, poll_fd] at hfree
  exact if_pos hfree

/-- A slot polled this turn is readable after the accept branch exactly when it was reported. -/
theorem accepted_readable {i : Nat} (hi : i ≤ s.maxi) :
    s'.readable i = isReady (s.reports revs i) := by
  by_cases hne : i = s.freeSlot
  · obtain ⟨-, hrev⟩ := accepted_client_self ha
    have h0 := freeSlot_reports ha
    have hle : s.freeSlot ≤ s.maxi := hne ▸ hi
    rw [hne, h0, Server.readable, hrev]
    simp [Server.poll, hle, h0]
  · obtain ⟨hfd, hrev⟩ := accepted_client_ne ha hi hne
    rw [← polled_readable hi]
    simp [Server.readable, hfd, hrev, Server.poll, hi]

theorem accepted_filter {sockfd : Int} (h : TableOk sockfd s) :
    (List.range' 1 s'.maxi).filter s'.readable =
      s.readySlots revs ++ if s.freshReady connfd then [s.maxi + 1] else [] := by
  obtain ⟨hlt, -, -, hmaxi, -⟩ := accept_eq_some ha
  rw [poll_freeSlot] at hlt hmaxi
  rw [poll_maxi] at hmaxi
  have hold : (List.range' 1 s.maxi).filter s'.readable = s.readySlots revs :=
    List.filter_congr fun i hi => by
      rw [List.mem_range'_1] at hi
      exact accepted_readable ha (by omega)
  have hle := freeSlot_le h
  by_cases hnew : s.freeSlot = s.maxi + 1
  · have hm : s'.maxi = s.maxi + 1 := by omega
    obtain ⟨hfd, hrev⟩ := accepted_client_self ha
    have hpolled : ((s.poll (.ok revs)).1.client (s.maxi + 1)).revents =
        (s.client (s.maxi + 1)).revents := by
      have hgt : ¬ s.maxi + 1 ≤ s.maxi := by omega
      simp only [Server.poll, if_neg hgt]
    rw [hnew] at hfd hrev
    have hr : s'.readable (s.maxi + 1) = s.freshReady connfd := by
      simp [Server.readable, Server.freshReady, hfd, hrev, hpolled, hnew]
    rw [hm, List.range'_1_concat, List.filter_append, hold, Nat.add_comm 1,
      List.filter_singleton, hr]
    cases s.freshReady connfd <;> rfl
  · have hm : s'.maxi = s.maxi := by omega
    have hr : s.freshReady connfd = false := by simp [Server.freshReady, hnew]
    rw [hm, hold, hr]
    simp

theorem mem_readySlots_fd {i : Nat} (hi : i ∈ s.readySlots revs) :
    i ≠ s.freeSlot ∧ (s'.client i).fd = (s.client i).fd := by
  obtain ⟨hmem, hready⟩ := List.mem_filter.mp hi
  rw [List.mem_range'_1] at hmem
  have hne : i ≠ s.freeSlot := by
    intro e
    rw [e, freeSlot_reports ha] at hready
    simp at hready
  exact ⟨hne, (accepted_client_ne ha (by omega) hne).1⟩

end Accepted

theorem reports_ne_zero_of_listening {s : Server} {revs : Nat → Flags}
    (hl : (s.poll (.ok revs)).1.listening) : s.reports revs 0 ≠ 0 := by
  rw [listening_ok] at hl
  intro h0
  exact hl (by rw [h0]; rfl)

/-- With a new connection, the turn reads the first `marked` slots that are readable then. -/
theorem round_accept_services {sockfd : Int} {s s' : Server} {inp : Input} {revs : Nat → Flags}
    (h : TableOk sockfd s) (hp : inp.poll = .ok revs) (hl : (s.poll (.ok revs)).1.listening)
    (ha : (s.poll (.ok revs)).1.accept inp.connfd = some s') :
    (s.round inp).services.map Service.slot =
      (s.readySlots revs ++ if s.freshReady inp.connfd then [s.maxi + 1] else []).take
        (s.marked revs) ∧
    ∀ v ∈ (s.round inp).services, v.fd = (s'.client v.slot).fd := by
  have hn : (s.poll (.ok revs)).2 - 1 = (s.marked revs : Int) := by
    rw [nready_ok, if_pos (reports_ne_zero_of_listening hl)]
    omega
  rw [← hp] at hl ha hn
  rw [round_accept hl ha, hn]
  by_cases hz : (s.marked revs : Int) ≤ 0
  · have h0 : s.marked revs = 0 := by omega
    rw [if_pos hz, h0]
    exact ⟨rfl, by simp⟩
  · have hmax : (max (s.marked revs : Int) 1).toNat = s.marked revs := by omega
    obtain ⟨hslots, hfds⟩ := scanAll_services s' true (s.marked revs) inp.read
    rw [hp] at ha
    rw [if_neg hz, hslots, hmax, accepted_filter ha h]
    exact ⟨rfl, hfds⟩

/-- With nothing to accept, the turn reads exactly the reported slots. -/
theorem round_quiet_services {s : Server} {inp : Input} {revs : Nat → Flags}
    (hp : inp.poll = .ok revs) (hl : ¬ (s.poll (.ok revs)).1.listening) :
    (s.round inp).services.map Service.slot = s.readySlots revs ∧
    ∀ v ∈ (s.round inp).services, v.fd = (s.client v.slot).fd := by
  obtain ⟨hslots, hfds⟩ :=
    scanAll_services (s.poll (.ok revs)).1 false (s.poll (.ok revs)).2 inp.read
  rw [poll_maxi, polled_filter] at hslots
  rw [← hp] at hl
  rw [round_quiet hl, hp, hslots]
  have hle := (readySlots_length_le s revs).1
  have hn := nready_ok s revs
  have hall : (s.readySlots revs).length ≤ (max (s.poll (.ok revs)).2 1).toNat := by
    split at hn <;> omega
  exact ⟨List.take_of_length_le hall, fun v hv => (hfds v hv).trans (poll_fd s _ _)⟩

/-! ## Which clients are read -/

/-- Every slot but the first holds a connection. -/
def Server.Full (s : Server) : Prop := ∀ i, 1 ≤ i → i < OPEN_MAX → 0 ≤ (s.client i).fd

theorem full_iff (s : Server) : s.Full ↔ s.freeSlot = OPEN_MAX := by
  obtain ⟨h1, hle, htaken, hfree⟩ := freeSlot_spec s
  constructor
  · intro hfull
    by_contra hne
    have hneg := hfree hne
    exact absurd (hfull _ h1 (by omega)) (not_le.mpr hneg)
  · intro he i hi1 hi2
    exact htaken i hi1 (by omega)

theorem accept_none_iff (s : Server) (p : Poll) (connfd : Int) :
    (s.poll p).1.accept connfd = none ↔ s.Full := by
  rw [full_iff, ← poll_freeSlot s p]
  unfold Server.accept
  dsimp only
  split <;> simp_all

/-- The turn reads the connections of exactly the slots `slots`, each once, in order, and never
the slot that `accept` fills. -/
def ReadsExactly (s : Server) (inp : Input) (slots : List Nat) : Prop :=
  (s.round inp).services.map Service.slot = slots ∧
  ∀ v ∈ (s.round inp).services, v.fd = (s.client v.slot).fd ∧ v.slot ≠ s.freeSlot

/-- **Readiness.**  A turn whose `poll` reports only entries with `POLLRDNORM` or `POLLERR` reads
every reported client and no other; the one that finds a connection and a full table reads
nothing and exits. -/
theorem poll_reads_reported (sockfd : Int) (s : Server) (h : (system sockfd).Reachable s)
    (inp : Input) (revs : Nat → Flags) (hp : inp.poll = .ok revs)
    (hflags : ∀ i, i ≤ s.maxi → s.reports revs i ≠ 0 → isReady (s.reports revs i) = true) :
    (s.reports revs 0 &&& POLLRDNORM ≠ 0 ∧ s.Full →
      (s.round inp).services = [] ∧ (s.round inp).next = none) ∧
    (¬ (s.reports revs 0 &&& POLLRDNORM ≠ 0 ∧ s.Full) →
      ReadsExactly s inp (s.readySlots revs)) := by
  have ht := reachable_tableOk h
  rw [← listening_ok]
  constructor
  · rintro ⟨hl, hfull⟩
    rw [← hp] at hl
    rw [round_full hl ((accept_none_iff s inp.poll inp.connfd).mpr hfull)]
    exact ⟨rfl, rfl⟩
  · intro hnot
    by_cases hl : (s.poll (.ok revs)).1.listening
    · have hnfull : ¬ s.Full := fun hf => hnot ⟨hl, hf⟩
      cases ha : (s.poll (.ok revs)).1.accept inp.connfd with
      | none => exact absurd ((accept_none_iff s _ _).mp ha) hnfull
      | some s' =>
        obtain ⟨hslots, hfds⟩ := round_accept_services ht hp hl ha
        -- the count that poll returned is used up just before the scan leaves the polled slots
        have hcount : s.marked revs = (s.readySlots revs).length := by
          have hle := readySlots_length_le s revs
          exact le_antisymm (hle.2.mpr fun i _ hi => hflags i hi) hle.1
        rw [hcount, List.take_left] at hslots
        refine ⟨hslots, fun v hv => ?_⟩
        have hmem : v.slot ∈ s.readySlots revs := hslots ▸ List.mem_map_of_mem hv
        obtain ⟨hne, hfd⟩ := mem_readySlots_fd ha hmem
        exact ⟨(hfds v hv).trans hfd, hne⟩
    · obtain ⟨hslots, hfds⟩ := round_quiet_services hp hl
      refine ⟨hslots, fun v hv => ⟨hfds v hv, fun e => ?_⟩⟩
      have hmem : v.slot ∈ s.readySlots revs := hslots ▸ List.mem_map_of_mem hv
      obtain ⟨hr1, hr2⟩ := List.mem_filter.mp hmem
      rw [List.mem_range'_1] at hr1
      have hlt := ht.maxi_lt
      have hneg := (freeSlot_spec s).2.2.2 (by omega)
      rw [e, Server.reports, if_pos hneg] at hr2
      simp at hr2

/-- The flags of `report is`. -/
def readable (is : List Nat) (i : Nat) : Flags := if i ∈ is then POLLRDNORM else 0

theorem readable_flags (s : Server) (is : List Nat) (i : Nat)
    (h : s.reports (readable is) i ≠ 0) : isReady (s.reports (readable is) i) = true := by
  unfold Server.reports readable at h ⊢
  split <;> simp_all
  decide

theorem poll_reads_reported_oneClient :
    ReadsExactly oneClient (report [0, 1] 6) (oneClient.readySlots (readable [0, 1])) := by
  have hnot : ¬ (oneClient.reports (readable [0, 1]) 0 &&& POLLRDNORM ≠ 0 ∧ oneClient.Full) := by
    rintro ⟨-, hfull⟩
    exact absurd (hfull 2 (by decide) (by decide)) (by decide)
  exact (poll_reads_reported 3 oneClient oneClient_reachable (report [0, 1] 6) (readable [0, 1]) rfl
    (fun i _ => readable_flags oneClient [0, 1] i)).2 hnot

/-- The server after `n` turns that accepted the descriptors `4`, …, `n + 3`. -/
def clients : Nat → Server
  | 0 => freshServer 3
  | n + 1 => ((clients n).round (report [0] (n + 4))).next.getD (clients n)

theorem clients_reachable : ∀ n, n ≤ 9 → (system 3).Reachable (clients n)
  | 0, _ => System.Reachable.init (freshServer_start 3)
  | n + 1, hn => by
    have hstep : ∀ k < 9, ((clients k).round (report [0] (k + 4))).next.isSome = true ∧
        ((k + 4 : Nat) : Int) ∉ (clients k).conns := by decide +kernel
    obtain ⟨hsome, hnew⟩ := hstep n (by omega)
    have hv : Valid 3 (clients n) (report [0] (n + 4)) :=
      Or.inr ⟨by simp only [report]; omega, hnew, by simp only [report]; omega⟩
    refine (clients_reachable n (by omega)).next (e := report [0] (n + 4)) ⟨hv, ?_⟩
    obtain ⟨s, hs⟩ := Option.isSome_iff_exists.mp hsome
    rw [clients, hs, Option.getD_some]

/-- With the table full, a connection and data that arrive together: the server exits, and the
ready client is not read. -/
theorem poll_exits_before_reading :
    ¬ ∀ s, (system 3).Reachable s → ∀ inp revs, inp.poll = .ok revs →
      (∀ i, i ≤ s.maxi → s.reports revs i ≠ 0 → isReady (s.reports revs i) = true) →
      ReadsExactly s inp (s.readySlots revs) := by
  intro h
  have hread := h (clients 9) (clients_reachable 9 le_rfl) (report [0, 1] 20) (readable [0, 1]) rfl
    (fun i _ => readable_flags (clients 9) [0, 1] i)
  exact absurd hread.1 (by decide +kernel)

/-! ## Acting on reports only -/

/-- The flags this turn's `poll` reported for slot `i`. -/
def Poll.reported (s : Server) : Poll → Nat → Flags
  | .fail, _ => 0
  | .ok revs, i => if i ≤ s.maxi then s.reports revs i else 0

/-- `accept` is called only on a reported listening socket, and `read` only on a descriptor
that this turn's `poll` reported with `POLLRDNORM` or `POLLERR`. -/
def OnlyReported (s : Server) (inp : Input) : Prop :=
  ((s.round inp).accepted = true → inp.poll.reported s 0 &&& POLLRDNORM ≠ 0) ∧
  ∀ v ∈ (s.round inp).services, ∃ i, 1 ≤ i ∧ i ≤ s.maxi ∧ (s.client i).fd = v.fd ∧
    isReady (inp.poll.reported s i) = true

/-- No flag from before this turn's `poll` can be acted on.  When `poll` fails: no entry is still
marked ready.  When it succeeds: not at once a connection to accept into a slot never polled
whose `revents` say ready, and a client reported with neither `POLLRDNORM` nor `POLLERR`. -/
def NothingStale (s : Server) (inp : Input) : Prop :=
  match inp.poll with
  | .fail =>
    (s.client 0).revents &&& POLLRDNORM = 0 ∧
    ∀ i, 1 ≤ i → i ≤ s.maxi → 0 ≤ (s.client i).fd → isReady (s.client i).revents = false
  | .ok revs =>
    s.reports revs 0 &&& POLLRDNORM ≠ 0 → ¬ s.Full → s.freshReady inp.connfd = true →
      ∀ i, 1 ≤ i → i ≤ s.maxi → s.reports revs i ≠ 0 → isReady (s.reports revs i) = true

theorem onlyReported_fail_iff {s : Server} {inp : Input} (hp : inp.poll = .fail) :
    OnlyReported s inp ↔ NothingStale s inp := by
  have hs : s.poll inp.poll = (s, -1) := by rw [hp]; rfl
  have hrep : ∀ i, inp.poll.reported s i = 0 := fun i => by rw [hp]; rfl
  have hstale : NothingStale s inp ↔ (s.client 0).revents &&& POLLRDNORM = 0 ∧
      ∀ i, 1 ≤ i → i ≤ s.maxi → 0 ≤ (s.client i).fd → isReady (s.client i).revents = false := by
    simp only [NothingStale, hp]
  simp only [OnlyReported, round_accepted, hs, hrep, hstale]
  by_cases hl : s.listening
  · constructor
    · rintro ⟨h0, -⟩
      exact absurd rfl (h0 hl)
    · rintro ⟨h0, -⟩
      exact absurd h0 hl
  · have hround : s.round inp = s.scanAll false (-1) inp.read := by
      have hl' : ¬ (s.poll inp.poll).1.listening := by
        rw [hs]
        exact hl
      have hquiet := round_quiet hl'
      rwa [hs] at hquiet
    have hslots := (scanAll_services s false (-1) inp.read).1
    rw [← hround] at hslots
    constructor
    · rintro ⟨-, hread⟩
      refine ⟨not_not.mp hl, fun i h1 hi h0 => ?_⟩
      have hnone : (s.round inp).services = [] := List.eq_nil_iff_forall_not_mem.mpr fun v hv => by
        obtain ⟨j, -, -, -, hj⟩ := hread v hv
        simp at hj
      rw [hnone, List.map_nil, eq_comm, List.take_eq_nil_iff] at hslots
      have hempty := hslots.resolve_left (by decide)
      have hi' := List.filter_eq_nil_iff.mp hempty i (List.mem_range'_1.mpr (by omega))
      simpa [Server.readable, h0] using hi'
    · rintro ⟨-, hquiet⟩
      refine ⟨fun h => absurd h hl, fun v hv => ?_⟩
      have hmem := List.mem_map_of_mem (f := Service.slot) hv
      rw [hslots] at hmem
      obtain ⟨hr1, hr2⟩ := List.mem_filter.mp (List.mem_of_mem_take hmem)
      rw [List.mem_range'_1] at hr1
      simp only [Server.readable, Bool.and_eq_true, decide_eq_true_eq] at hr2
      have hnot := hquiet v.slot hr1.1 (by omega) hr2.1
      rw [hr2.2] at hnot
      cases hnot

/-- A slot that was reported ready is a report for the descriptor it holds. -/
theorem reported_of_mem {s : Server} {revs : Nat → Flags} {v : Service}
    (hmem : v.slot ∈ s.readySlots revs) (hfd : v.fd = (s.client v.slot).fd) :
    ∃ i, 1 ≤ i ∧ i ≤ s.maxi ∧ (s.client i).fd = v.fd ∧
      isReady ((Poll.ok revs).reported s i) = true := by
  obtain ⟨hr1, hr2⟩ := List.mem_filter.mp hmem
  rw [List.mem_range'_1] at hr1
  have hle : v.slot ≤ s.maxi := by omega
  exact ⟨v.slot, hr1.1, hle, hfd.symm, by simpa only [Poll.reported, if_pos hle] using hr2⟩

theorem onlyReported_accept_iff {sockfd : Int} {s s' : Server} {inp : Input} {revs : Nat → Flags}
    (h : TableOk sockfd s) (hv : Valid sockfd s inp) (hp : inp.poll = .ok revs)
    (hl : (s.poll (.ok revs)).1.listening)
    (ha : (s.poll (.ok revs)).1.accept inp.connfd = some s') :
    OnlyReported s inp ↔ (s.freshReady inp.connfd = true →
      ∀ i, 1 ≤ i → i ≤ s.maxi → s.reports revs i ≠ 0 → isReady (s.reports revs i) = true) := by
  obtain ⟨hslots, hfds⟩ := round_accept_services h hp hl ha
  have hlisten : inp.poll.reported s 0 &&& POLLRDNORM ≠ 0 := by
    rw [hp]
    exact (listening_ok s revs).mp hl
  have hfresh : s.freshReady inp.connfd = true → s.freeSlot = s.maxi + 1 ∧ 0 ≤ inp.connfd := by
    intro hf
    simp only [Server.freshReady, Bool.and_eq_true, decide_eq_true_eq] at hf
    exact hf.1
  rw [← (readySlots_length_le s revs).2]
  constructor
  · rintro ⟨-, hread⟩ hf
    obtain ⟨hnew, h0⟩ := hfresh hf
    by_contra hgt
    -- a marked client that is not ready leaves the count too high: the scan reaches the new slot
    have hlen : (s.readySlots revs ++ [s.maxi + 1]).length ≤ s.marked revs := by
      rw [List.length_append, List.length_singleton]
      omega
    rw [if_pos hf, List.take_of_length_le hlen] at hslots
    have hmem : s.maxi + 1 ∈ (s.round inp).services.map Service.slot := by
      rw [hslots]
      simp
    obtain ⟨v, hvm, hslot⟩ := List.mem_map.mp hmem
    have hvfd : v.fd = inp.connfd := by
      rw [hfds v hvm, hslot, ← hnew]
      exact (accepted_client_self ha).1
    obtain ⟨i, h1, hi, hfd, -⟩ := hread v hvm
    rw [hvfd] at hfd
    have hopen := h.opened i h1 (lt_of_le_of_lt hi h.maxi_lt) (by rw [Server.fds, hfd]; exact h0)
    rw [Server.fds, hfd] at hopen
    rcases hv with hneg | ⟨-, hnotin, -⟩
    · omega
    · exact hnotin hopen
  · intro hcond
    have hsub : ∀ v ∈ (s.round inp).services, v.slot ∈ s.readySlots revs := by
      intro v hvm
      have hmem := List.mem_map_of_mem (f := Service.slot) hvm
      rw [hslots] at hmem
      by_cases hf : s.freshReady inp.connfd = true
      · rw [List.take_append_of_le_length (hcond hf)] at hmem
        exact List.mem_of_mem_take hmem
      · rw [if_neg hf, List.append_nil] at hmem
        exact List.mem_of_mem_take hmem
    refine ⟨fun _ => hlisten, fun v hvm => ?_⟩
    rw [hp]
    exact reported_of_mem (hsub v hvm)
      ((hfds v hvm).trans (mem_readySlots_fd ha (hsub v hvm)).2)

theorem onlyReported_iff {sockfd : Int} {s : Server} {inp : Input} (h : TableOk sockfd s)
    (hv : Valid sockfd s inp) : OnlyReported s inp ↔ NothingStale s inp := by
  cases hp : inp.poll with
  | fail => exact onlyReported_fail_iff hp
  | ok revs =>
    have hstale : NothingStale s inp ↔ ((s.poll (.ok revs)).1.listening → ¬ s.Full →
        s.freshReady inp.connfd = true →
        ∀ i, 1 ≤ i → i ≤ s.maxi → s.reports revs i ≠ 0 → isReady (s.reports revs i) = true) := by
      simp only [NothingStale, hp, listening_ok]
    rw [hstale]
    by_cases hl : (s.poll (.ok revs)).1.listening
    · cases ha : (s.poll (.ok revs)).1.accept inp.connfd with
      | none =>
        have hfull := (accept_none_iff s _ _).mp ha
        have hround : s.round inp = ⟨true, [], none⟩ := by
          rw [← hp] at hl ha
          exact round_full hl ha
        refine ⟨fun _ _ hn => absurd hfull hn, fun _ => ⟨fun _ => ?_, by simp [hround]⟩⟩
        rw [hp]
        exact (listening_ok s revs).mp hl
      | some s' =>
        have hnfull : ¬ s.Full := fun hf => by
          rw [(accept_none_iff s _ inp.connfd).mpr hf] at ha
          cases ha
        rw [onlyReported_accept_iff h hv hp hl ha]
        exact ⟨fun hc _ _ => hc, fun hc => hc hl hnfull⟩
    · obtain ⟨hslots, hfds⟩ := round_quiet_services hp hl
      refine ⟨fun _ h0 => absurd h0 hl, fun _ => ⟨fun hacc => ?_, fun v hvm => ?_⟩⟩
      · rw [round_accepted, hp] at hacc
        exact absurd hacc hl
      · rw [hp]
        exact reported_of_mem (hslots ▸ List.mem_map_of_mem hvm) (hfds v hvm)

/-- **Reports only.**  A run acts on nothing but this turn's reports exactly as long as no turn
has anything stale to act on. -/
theorem poll_onlyReported_iff (sockfd : Int) (es : List Input) :
    (system sockfd).Along es (fun s inp => Valid sockfd s inp → OnlyReported s inp) ↔
    (system sockfd).Along es (fun s inp => Valid sockfd s inp → NothingStale s inp) := by
  refine System.along_congr (fun s inp h => ?_) es
  exact forall_congr' fun hv => onlyReported_iff (reachable_tableOk h) hv

/-- A connection, then a `poll` that fails: the listening socket is still marked from the first
turn, and the server blocks in `accept`. -/
theorem poll_accepts_after_failed_poll :
    ¬ ∀ es, (system 3).Along es (fun s inp => Valid 3 s inp → OnlyReported s inp) := by
  intro h
  let inp : Input := { report [] (-1) with poll := .fail }
  have hrun : (system 3).Run [report [0] 5] oneClient :=
    (System.Run.start (freshServer_start 3)).next (e := report [0] 5)
      ⟨Or.inr ⟨by decide, by simp [freshServer], by decide⟩, rfl⟩
  have hact := h [report [0] 5, inp] [report [0] 5] inp [] oneClient rfl hrun (Or.inl rfl)
  exact absurd (hact.1 (by decide)) (by decide)

end StudyDoc.PollServer
