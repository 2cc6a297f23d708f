import StudyDoc.Lib.Access
import StudyDoc.Net.Cksum
import StudyDoc.Net.Syscall

/-!
# `ping.c`: what `proc_v4` reads of a reply

`readloop` hands `proc_v4` the number `len` of bytes that `recvmsg` stored; behind them `recvbuf`
still holds earlier packets.  `proc_v4` is a program over that memory, so its reads are data:

    (∀ i ∈ reads, i < len) ∧ Fresh ↔ ¬ ShortTimeval                      (proc_v4_within_iff)

The check `icmplen < 16` leaves room for 8 of the 16 bytes of a `struct timeval`.  What these say is
not looked at before `tv_sub` takes them from the time of arrival:

    0 <= tv_usec < 1000000, exact, no overflow ↔ Near tvrecv (echoed reply)  (proc_v4_interval_iff)
-/

namespace StudyDoc.Ping

open Access Cksum

/-! ## Algorithm -/

/-- `struct timeval` on LP64. -/
structure Timeval where
  tv_sec : Int64
  tv_usec : Int64
  deriving DecidableEq

def tv_sub (out tvsend : Timeval) : Timeval :=
  let usec := out.tv_usec - tvsend.tv_usec
  if usec < 0 then ⟨out.tv_sec - 1 - tvsend.tv_sec, usec + 1000000⟩
  else ⟨out.tv_sec - tvsend.tv_sec, usec⟩

def IPPROTO_ICMP : UInt8 := 1
def ICMP_ECHOREPLY : UInt8 := 0

/-- The bytes of an integer, in the order of their addresses. -/
def loadNat : ByteOrder → List UInt8 → Nat
  | .little, bs => bs.foldr (fun b n => b.toNat + n * 256) 0
  | .big, bs => bs.foldl (fun n b => n * 256 + b.toNat) 0

/-- A `uint16_t` at `i`. -/
def short (o : ByteOrder) (i : Nat) : Access UInt8 UInt16 := do
  let bs ← cells i 2
  return UInt16.ofNat (loadNat o bs)

/-- A 64-bit `long` at `i`. -/
def long (o : ByteOrder) (i : Nat) : Access UInt8 Int64 := do
  let bs ← cells i 8
  return Int64.ofNat (loadNat o bs)

/-- `ip->ip_hl << 2`: the low half of the first byte counts words of 4 bytes. -/
def hlen (b : UInt8) : Nat := (b &&& 0xf).toNat * 4

/-- What `proc_v4` prints.  `rtt` is what `tv_sub` leaves in `*tvrecv`. -/
inductive Report where
  | none
  | otherId (icmp_id : UInt16)
  | less (icmplen : Int)
  | reply (icmplen : Int) (icmp_seq : UInt16) (ip_ttl : UInt8) (rtt : Timeval)
  | verbose (icmplen : Int) (icmp_type icmp_code : UInt8)
  deriving DecidableEq

def proc_v4 (o : ByteOrder) (pid : UInt16) (verbose : Bool) (len : Int) (tvrecv : Timeval) :
    Access UInt8 Report := do
  let hlen1 := hlen (← cell 0)
  if (← cell 9) ≠ IPPROTO_ICMP then return .none
  let icmplen := len - hlen1
  if icmplen < 8 then return .none
  let icmp_type ← cell hlen1
  if icmp_type = ICMP_ECHOREPLY then
    let icmp_id ← short o (hlen1 + 4)
    if icmp_id ≠ pid then return .otherId icmp_id
    if icmplen < 16 then return .less icmplen
    let tv_usec ← long o (hlen1 + 16)
    let tv_sec ← long o (hlen1 + 8)
    let icmp_seq ← short o (hlen1 + 6)
    let ip_ttl ← cell 8
    return .reply icmplen icmp_seq ip_ttl (tv_sub tvrecv ⟨tv_sec, tv_usec⟩)
  else if verbose then
    let icmp_code ← cell (hlen1 + 1)
    return .verbose icmplen icmp_type icmp_code
  else return .none

def memory (recvbuf : Buf BUFSIZE) (i : Nat) : UInt8 := recvbuf.1.getD i 0

/-- `readloop`, over the results of `recvmsg`, each with the time read after it. -/
def readloop (o : ByteOrder) (pid : UInt16) (verbose : Bool) :
    Buf BUFSIZE → List (Read BUFSIZE × Timeval) → List Report
  | _, [] => []
  | recvbuf, (d, tval) :: rs =>
    if d.ret < 0 then
      if d.errno = EINTR then readloop o pid verbose recvbuf rs else []
    else if d.ret = 0 then []
    else
      let recvbuf := d.store recvbuf
      run (memory recvbuf) (proc_v4 o pid verbose d.ret tval) :: readloop o pid verbose recvbuf rs

/-- The bytes of one datagram by address. -/
def packet (bytes : List UInt8) (i : Nat) : UInt8 := bytes.getD i 0

/-- What the kernel promises: the whole IP header is there. -/
def Complete (bytes : List UInt8) : Prop :=
  20 ≤ hlen (packet bytes 0) ∧ hlen (packet bytes 0) ≤ bytes.length

/-- An echo reply to this process that ends within its `struct timeval`, past the first 8 bytes. -/
def ShortTimeval (o : ByteOrder) (pid : UInt16) (mem : Nat → UInt8) (len : Nat) : Prop :=
  mem 9 = IPPROTO_ICMP ∧ mem (hlen (mem 0)) = ICMP_ECHOREPLY ∧
    run mem (short o (hlen (mem 0) + 4)) = pid ∧
    hlen (mem 0) + 16 ≤ len ∧ len < hlen (mem 0) + 24

instance (bytes : List UInt8) : Decidable (Complete bytes) :=
  inferInstanceAs (Decidable (_ ∧ _))

instance (o : ByteOrder) (pid : UInt16) (mem : Nat → UInt8) (len : Nat) :
    Decidable (ShortTimeval o pid mem len) :=
  inferInstanceAs (Decidable (_ ∧ _))

/-! ### Reads -/

theorem readsIn_short {o : ByteOrder} {mem : Nat → UInt8} {P : Nat → Prop} (i : Nat) :
    ReadsIn mem P (short o i) ↔ ∀ j, i ≤ j → j < i + 2 → P j := by
  unfold short
  rw [readsIn_bind, readsIn_cells, readsIn_pure, and_true]

theorem readsIn_long {o : ByteOrder} {mem : Nat → UInt8} {P : Nat → Prop} (i : Nat) :
    ReadsIn mem P (long o i) ↔ ∀ j, i ≤ j → j < i + 8 → P j := by
  unfold long
  rw [readsIn_bind, readsIn_cells, readsIn_pure, and_true]

theorem proc_v4_readsIn_iff (o : ByteOrder) (pid : UInt16) (verbose : Bool) (mem : Nat → UInt8)
    (len : Nat) (tvrecv : Timeval) (h20 : 20 ≤ hlen (mem 0)) (hle : hlen (mem 0) ≤ len) :
    ReadsIn mem (· < len) (proc_v4 o pid verbose len tvrecv) ↔ ¬ ShortTimeval o pid mem len := by
  unfold proc_v4 ShortTimeval
  simp only [readsIn_bind, readsIn_ite, readsIn_cell, readsIn_short, readsIn_long, readsIn_pure]
  simp only [run_cell]
  constructor
  · rintro ⟨-, -, -, h⟩ ⟨hp, ht, hid, h16, h24⟩
    -- the last byte of `tv_usec`
    have hicmp := (h (not_not_intro hp)).2 (by omega)
    have hecho := ((hicmp.2.1 ht).2.2 (not_not_intro hid)).2 (by omega)
    have hlast := hecho.1 (hlen (mem 0) + 23) (by omega) (by omega)
    omega
  · intro h
    refine ⟨by omega, by omega, fun _ => trivial, fun hp => ⟨fun _ => trivial, fun h8 => ?_⟩⟩
    refine ⟨by omega, fun ht => ?_, fun _ => ⟨fun _ => ⟨by omega, trivial⟩, fun _ => trivial⟩⟩
    refine ⟨fun j _ _ => by omega, fun _ => trivial, fun hid => ⟨fun _ => trivial, fun h16 => ?_⟩⟩
    have h24 : hlen (mem 0) + 24 ≤ len := by
      apply Classical.byContradiction
      intro hlt
      exact h ⟨not_not.mp hp, ht, not_not.mp hid, by omega, by omega⟩
    exact ⟨fun j _ _ => by omega, fun j _ _ => by omega, fun j _ _ => by omega, by omega, trivial⟩

/-- Every byte of `recvbuf` that `proc_v4` reads belongs to the datagram `d`. -/
def Within (o : ByteOrder) (pid : UInt16) (verbose : Bool) (tvrecv : Timeval)
    (recvbuf : Buf BUFSIZE) (d : Read BUFSIZE) : Prop :=
  ∀ i ∈ reads (memory (d.store recvbuf)) (proc_v4 o pid verbose d.ret tvrecv), i < d.bytes.length

/-- What `proc_v4` computes from `d` does not depend on what `recvbuf` held before. -/
def Fresh (o : ByteOrder) (pid : UInt16) (verbose : Bool) (tvrecv : Timeval)
    (recvbuf : Buf BUFSIZE) (d : Read BUFSIZE) : Prop :=
  ∀ recvbuf' : Buf BUFSIZE,
    run (memory (d.store recvbuf')) (proc_v4 o pid verbose d.ret tvrecv) =
      run (memory (d.store recvbuf)) (proc_v4 o pid verbose d.ret tvrecv)

/-! ### Datagrams in the buffer -/

theorem Complete.ret_eq {d : Read BUFSIZE} (hc : Complete d.bytes) : d.ret = d.bytes.length := by
  have h20 := hc.1
  have hle := hc.2
  cases d with
  | data bytes pos le => rfl
  | eof =>
    have hlen : (Read.eof : Read BUFSIZE).bytes.length = 0 := rfl
    omega
  | fail e =>
    have hlen : (Read.fail e : Read BUFSIZE).bytes.length = 0 := rfl
    omega

theorem memory_store (d : Read BUFSIZE) (recvbuf : Buf BUFSIZE) {i : Nat}
    (hi : i < d.bytes.length) : memory (d.store recvbuf) i = packet d.bytes i := by
  show (d.bytes ++ recvbuf.1.drop d.bytes.length).getD i 0 = d.bytes.getD i 0
  rw [List.getD_eq_getElem?_getD, List.getD_eq_getElem?_getD, List.getElem?_append_left hi]

theorem run_short_congr {o : ByteOrder} {mem mem' : Nat → UInt8} {i : Nat}
    (h0 : mem' i = mem i) (h1 : mem' (i + 1) = mem (i + 1)) :
    run mem' (short o i) = run mem (short o i) := by
  apply run_congr
  rw [readsIn_short]
  intro j hj1 hj2
  rcases (by omega : j = i ∨ j = i + 1) with rfl | rfl
  · exact h0
  · exact h1

/-- The condition only looks at the datagram. -/
theorem ShortTimeval.congr {o : ByteOrder} {pid : UInt16} {mem mem' : Nat → UInt8} {len : Nat}
    (h : ∀ i, i < len → mem' i = mem i) (hs : ShortTimeval o pid mem len) :
    ShortTimeval o pid mem' len := by
  obtain ⟨hp, ht, hid, h16, h24⟩ := hs
  have h0 : mem' 0 = mem 0 := h 0 (by omega)
  unfold ShortTimeval
  rw [h0, h 9 (by omega), h (hlen (mem 0)) (by omega),
    run_short_congr (h _ (by omega)) (h _ (by omega))]
  exact ⟨hp, ht, hid, h16, h24⟩

theorem shortTimeval_store_iff (o : ByteOrder) (pid : UInt16) (recvbuf : Buf BUFSIZE)
    (d : Read BUFSIZE) : ShortTimeval o pid (memory (d.store recvbuf)) d.bytes.length ↔
      ShortTimeval o pid (packet d.bytes) d.bytes.length :=
  ⟨ShortTimeval.congr fun _ hi => (memory_store d recvbuf hi).symm,
    ShortTimeval.congr fun _ hi => memory_store d recvbuf hi⟩

section

variable (o : ByteOrder) (pid : UInt16) (verbose : Bool) (tvrecv : Timeval)
  (recvbuf : Buf BUFSIZE) {d : Read BUFSIZE}

theorem fresh_of_within (h : Within o pid verbose tvrecv recvbuf d) :
    Fresh o pid verbose tvrecv recvbuf d := by
  intro recvbuf'
  apply run_congr
  intro i hi
  rw [memory_store d recvbuf' (h i hi), memory_store d recvbuf (h i hi)]

variable (hc : Complete d.bytes)

include hc

theorem within_iff : Within o pid verbose tvrecv recvbuf d ↔
    ¬ ShortTimeval o pid (packet d.bytes) d.bytes.length := by
  have hpos : 0 < d.bytes.length := by have := hc.1; have := hc.2; omega
  have h0 := memory_store d recvbuf hpos
  unfold Within
  rw [← shortTimeval_store_iff o pid recvbuf, hc.ret_eq]
  apply proc_v4_readsIn_iff
  · rw [h0]
    exact hc.1
  · rw [h0]
    exact hc.2

/-! ## Main results -/

/-- **Reads of a reply.**  `proc_v4` stays within the datagram, and what it computes does not
depend on an earlier packet, unless the reply ends within its timestamp. -/
theorem proc_v4_within_iff :
    Within o pid verbose tvrecv recvbuf d ∧ Fresh o pid verbose tvrecv recvbuf d ↔
      ¬ ShortTimeval o pid (packet d.bytes) d.bytes.length := by
  have hw := within_iff o pid verbose tvrecv recvbuf hc
  constructor
  · rintro ⟨hin, -⟩
    exact hw.mp hin
  · intro hs
    have hin := hw.mpr hs
    exact ⟨hin, fresh_of_within o pid verbose tvrecv recvbuf hin⟩

end

/-- **A whole run.**  Replies that do not end within their timestamp are reported as if each had
come into an empty buffer. -/
theorem readloop_fresh (o : ByteOrder) (pid : UInt16) (verbose : Bool)
    {rs : List (Read BUFSIZE × Timeval)}
    (h : ∀ r ∈ rs, 0 < r.1.ret → Complete r.1.bytes ∧
      ¬ ShortTimeval o pid (packet r.1.bytes) r.1.bytes.length) (recvbuf recvbuf' : Buf BUFSIZE) :
    readloop o pid verbose recvbuf rs = readloop o pid verbose recvbuf' rs := by
  induction rs generalizing recvbuf recvbuf' with
  | nil => rfl
  | cons r rs ih =>
    obtain ⟨d, tval⟩ := r
    have hrs := ih (fun r hr => h r (List.mem_cons_of_mem _ hr))
    unfold readloop
    split
    · rw [hrs recvbuf recvbuf']
    · split
      · rfl
      · have hpos : 0 < d.ret := by omega
        obtain ⟨hc, hs⟩ := h (d, tval) List.mem_cons_self hpos
        have hin := (within_iff o pid verbose tval recvbuf hc).mpr hs
        show _ :: readloop o pid verbose _ rs = _ :: readloop o pid verbose _ rs
        rw [← fresh_of_within o pid verbose tval recvbuf hin recvbuf',
          hrs (d.store recvbuf) (d.store recvbuf')]

/-- An echo reply to process 7 with `n` bytes of data, behind an IP header of 20 bytes. -/
def echoReply (n : Nat) (le : n ≤ 16) : Read BUFSIZE :=
  .data ([0x45, 0, 0, 0, 0, 0, 0, 0, 64, 1, 0, 0, 0, 0, 0, 0, 0, 0, 0, 0] ++
    [0, 0, 0, 0, 7, 0, 1, 0] ++ List.replicate n 0) (by simp) (by
      have : BUFSIZE = 1500 := rfl
      simp
      omega)

/-- A buffer that another packet filled. -/
def filled (b : UInt8) : Buf BUFSIZE := ⟨List.replicate BUFSIZE b, List.length_replicate⟩

theorem proc_v4_within_echoReply :
    Within .little 7 false ⟨1, 0⟩ (filled 0) (echoReply 16 (by decide)) ∧
        Fresh .little 7 false ⟨1, 0⟩ (filled 0) (echoReply 16 (by decide)) ↔
      ¬ ShortTimeval .little 7 (packet (echoReply 16 (by decide)).bytes)
        (echoReply 16 (by decide)).bytes.length :=
  proc_v4_within_iff .little 7 false ⟨1, 0⟩ (filled 0) (by decide)

/-- A reply with 8 bytes of data: `tv_usec` is what the packet before left there. -/
theorem proc_v4_reads_behind :
    ¬ (∀ (recvbuf : Buf BUFSIZE) (d : Read BUFSIZE), Complete d.bytes →
      Within .little 7 false ⟨1, 0⟩ recvbuf d) ∧
    run (memory ((echoReply 8 (by decide)).store (filled 0)))
        (proc_v4 .little 7 false 36 ⟨1, 0⟩) ≠
      run (memory ((echoReply 8 (by decide)).store (filled 1)))
        (proc_v4 .little 7 false 36 ⟨1, 0⟩) := by
  refine ⟨fun h => ?_, by decide +kernel⟩
  have hc : Complete (echoReply 8 (by decide)).bytes := by decide
  have hshort : ShortTimeval .little 7 (packet (echoReply 8 (by decide)).bytes)
      (echoReply 8 (by decide)).bytes.length := by decide
  exact (within_iff .little 7 false ⟨1, 0⟩ (filled 0) hc).mp (h (filled 0) _ hc) hshort

/-! ## The interval -/

def Normal (t : Timeval) : Prop := 0 ≤ t.tv_usec.toInt ∧ t.tv_usec.toInt < 1000000

def micros (t : Timeval) : Int := t.tv_sec.toInt * 1000000 + t.tv_usec.toInt

/-- A `long` holds `n`. -/
def InLong (n : Int) : Prop := -9223372036854775808 ≤ n ∧ n < 9223372036854775808

/-- The subtractions of `tv_sub`, one after the other, without a limit on their results. -/
def differences (out tvsend : Timeval) : List Int :=
  let usec := out.tv_usec.toInt - tvsend.tv_usec.toInt
  if usec < 0 then
    [usec, out.tv_sec.toInt - 1, out.tv_sec.toInt - 1 - tvsend.tv_sec.toInt]
  else [usec, out.tv_sec.toInt - tvsend.tv_sec.toInt]

/-- `rtt` is the time from `tvsend` to `tvrecv`. -/
structure Interval (tvrecv tvsend rtt : Timeval) : Prop where
  normal : Normal rtt
  exact : micros rtt = micros tvrecv - micros tvsend
  defined : ∀ n ∈ differences tvrecv tvsend, InLong n

/-- The fields that the reply says the request was sent at. -/
def echoed (o : ByteOrder) (mem : Nat → UInt8) : Timeval :=
  ⟨run mem (long o (hlen (mem 0) + 8)), run mem (long o (hlen (mem 0) + 16))⟩

/-- One borrow is enough for the microseconds, and a `long` holds the seconds. -/
structure Near (tvrecv tvsend : Timeval) : Prop where
  above : tvrecv.tv_usec.toInt < tvsend.tv_usec.toInt + 1000000
  below : tvsend.tv_usec.toInt ≤ tvrecv.tv_usec.toInt + 1000000
  apart : tvsend.tv_usec.toInt ≤ tvrecv.tv_usec.toInt →
    InLong (tvrecv.tv_sec.toInt - tvsend.tv_sec.toInt)
  borrowed : tvrecv.tv_usec.toInt < tvsend.tv_usec.toInt →
    InLong (tvrecv.tv_sec.toInt - 1) ∧ InLong (tvrecv.tv_sec.toInt - 1 - tvsend.tv_sec.toInt)

theorem toInt_sub_eq {a b : Int64} (h : InLong (a.toInt - b.toInt)) :
    (a - b).toInt = a.toInt - b.toInt := by
  obtain ⟨hlo, hhi⟩ := h
  rw [Int64.toInt_sub]
  apply Int.bmod_eq_of_le <;> omega

theorem tv_sub_of_nonneg {out tvsend : Timeval}
    (husec : InLong (out.tv_usec.toInt - tvsend.tv_usec.toInt))
    (hle : tvsend.tv_usec.toInt ≤ out.tv_usec.toInt) :
    tv_sub out tvsend = ⟨out.tv_sec - tvsend.tv_sec, out.tv_usec - tvsend.tv_usec⟩ := by
  have hsub := toInt_sub_eq husec
  have h0 : (0 : Int64).toInt = 0 := rfl
  unfold tv_sub
  dsimp only
  rw [if_neg]
  rw [Int64.lt_iff_toInt_lt, hsub, h0]
  omega

theorem tv_sub_of_neg {out tvsend : Timeval}
    (husec : InLong (out.tv_usec.toInt - tvsend.tv_usec.toInt))
    (hlt : out.tv_usec.toInt < tvsend.tv_usec.toInt) :
    tv_sub out tvsend =
      ⟨out.tv_sec - 1 - tvsend.tv_sec, out.tv_usec - tvsend.tv_usec + 1000000⟩ := by
  have hsub := toInt_sub_eq husec
  have h0 : (0 : Int64).toInt = 0 := rfl
  unfold tv_sub
  dsimp only
  rw [if_pos]
  rw [Int64.lt_iff_toInt_lt, hsub, h0]
  omega

/-- Adding a second to a negative number of microseconds. -/
theorem toInt_borrow {out tvsend : Timeval}
    (husec : InLong (out.tv_usec.toInt - tvsend.tv_usec.toInt))
    (hlt : out.tv_usec.toInt < tvsend.tv_usec.toInt) :
    (out.tv_usec - tvsend.tv_usec + 1000000).toInt =
      out.tv_usec.toInt - tvsend.tv_usec.toInt + 1000000 := by
  have hsub := toInt_sub_eq husec
  have hsecond : (1000000 : Int64).toInt = 1000000 := rfl
  obtain ⟨hlo, -⟩ := husec
  rw [Int64.toInt_add, hsub, hsecond]
  apply Int.bmod_eq_of_le <;> omega

section

variable {tvrecv tvsend : Timeval} (h : Normal tvrecv)

include h

/-- Without a borrow. -/
theorem interval_iff_of_le (hle : tvsend.tv_usec.toInt ≤ tvrecv.tv_usec.toInt) :
    Interval tvrecv tvsend (tv_sub tvrecv tvsend) ↔
      tvrecv.tv_usec.toInt < tvsend.tv_usec.toInt + 1000000 ∧
        InLong (tvrecv.tv_sec.toInt - tvsend.tv_sec.toInt) := by
  obtain ⟨hlo, hhi⟩ := h
  have hdiff : differences tvrecv tvsend = [tvrecv.tv_usec.toInt - tvsend.tv_usec.toInt,
      tvrecv.tv_sec.toInt - tvsend.tv_sec.toInt] := by
    unfold differences
    exact if_neg (by omega)
  constructor
  · rintro ⟨⟨-, hnormal⟩, -, hdefined⟩
    simp only [hdiff, List.forall_mem_cons] at hdefined
    obtain ⟨husec, hsec, -⟩ := hdefined
    have hus := toInt_sub_eq husec
    rw [tv_sub_of_nonneg husec hle] at hnormal
    have hnormal : (tvrecv.tv_usec - tvsend.tv_usec).toInt < 1000000 := hnormal
    exact ⟨by omega, hsec⟩
  · rintro ⟨habove, hsec⟩
    have husec : InLong (tvrecv.tv_usec.toInt - tvsend.tv_usec.toInt) := ⟨by omega, by omega⟩
    have hsub := toInt_sub_eq hsec
    have hus := toInt_sub_eq husec
    rw [tv_sub_of_nonneg husec hle]
    refine ⟨⟨?_, ?_⟩, ?_, ?_⟩
    · show 0 ≤ (tvrecv.tv_usec - tvsend.tv_usec).toInt
      omega
    · show (tvrecv.tv_usec - tvsend.tv_usec).toInt < 1000000
      omega
    · unfold micros
      dsimp only
      omega
    · simp only [hdiff, List.forall_mem_cons]
      exact ⟨husec, hsec, fun n hn => absurd hn List.not_mem_nil⟩

/-- With one. -/
theorem interval_iff_of_lt (hlt : tvrecv.tv_usec.toInt < tvsend.tv_usec.toInt) :
    Interval tvrecv tvsend (tv_sub tvrecv tvsend) ↔
      tvsend.tv_usec.toInt ≤ tvrecv.tv_usec.toInt + 1000000 ∧ InLong (tvrecv.tv_sec.toInt - 1) ∧
        InLong (tvrecv.tv_sec.toInt - 1 - tvsend.tv_sec.toInt) := by
  obtain ⟨hlo, hhi⟩ := h
  have hone : (1 : Int64).toInt = 1 := rfl
  have hdiff : differences tvrecv tvsend = [tvrecv.tv_usec.toInt - tvsend.tv_usec.toInt,
      tvrecv.tv_sec.toInt - 1, tvrecv.tv_sec.toInt - 1 - tvsend.tv_sec.toInt] := by
    unfold differences
    exact if_pos (by omega)
  constructor
  · rintro ⟨⟨hnormal, -⟩, -, hdefined⟩
    simp only [hdiff, List.forall_mem_cons] at hdefined
    obtain ⟨husec, hborrow, hsec, -⟩ := hdefined
    have hus := toInt_borrow husec hlt
    rw [tv_sub_of_neg husec hlt] at hnormal
    have hnormal : 0 ≤ (tvrecv.tv_usec - tvsend.tv_usec + 1000000).toInt := hnormal
    exact ⟨by omega, hborrow, hsec⟩
  · rintro ⟨hbelow, hborrow, hsec⟩
    have husec : InLong (tvrecv.tv_usec.toInt - tvsend.tv_usec.toInt) := ⟨by omega, by omega⟩
    have hminus : (tvrecv.tv_sec - 1).toInt = tvrecv.tv_sec.toInt - 1 := toInt_sub_eq hborrow
    have hsub : (tvrecv.tv_sec - 1 - tvsend.tv_sec).toInt =
        tvrecv.tv_sec.toInt - 1 - tvsend.tv_sec.toInt := by
      rw [toInt_sub_eq (by rwa [hminus]), hminus]
    have hus := toInt_borrow husec hlt
    rw [tv_sub_of_neg husec hlt]
    refine ⟨⟨?_, ?_⟩, ?_, ?_⟩
    · show 0 ≤ (tvrecv.tv_usec - tvsend.tv_usec + 1000000).toInt
      omega
    · show (tvrecv.tv_usec - tvsend.tv_usec + 1000000).toInt < 1000000
      omega
    · unfold micros
      dsimp only
      omega
    · simp only [hdiff, List.forall_mem_cons]
      exact ⟨husec, hborrow, hsec, fun n hn => absurd hn List.not_mem_nil⟩

/-- **`tv_sub`.**  From a normal time of arrival it leaves the interval, without an overflow,
exactly if one borrow makes up for the microseconds and the seconds fit. -/
theorem tv_sub_interval_iff :
    Interval tvrecv tvsend (tv_sub tvrecv tvsend) ↔ Near tvrecv tvsend := by
  rcases Int.lt_or_le tvrecv.tv_usec.toInt tvsend.tv_usec.toInt with hlt | hle
  · rw [interval_iff_of_lt h hlt]
    constructor
    · rintro ⟨hbelow, hborrow, hsec⟩
      exact ⟨by omega, hbelow, fun hle => absurd hle (by omega), fun _ => ⟨hborrow, hsec⟩⟩
    · intro hnear
      exact ⟨hnear.below, hnear.borrowed hlt⟩
  · rw [interval_iff_of_le h hle]
    constructor
    · rintro ⟨habove, hsec⟩
      exact ⟨habove, by omega, fun _ => hsec, fun hlt => absurd hlt (by omega)⟩
    · intro hnear
      exact ⟨hnear.above, hnear.apart hle⟩

end

/-- A reply that passes the checks: what is reported is what `tv_sub` makes of its fields. -/
theorem proc_v4_reply {o : ByteOrder} {pid : UInt16} {verbose : Bool} {len : Int}
    {tvrecv rtt : Timeval} {mem : Nat → UInt8} {icmplen : Int} {icmp_seq : UInt16} {ip_ttl : UInt8}
    (hr : run mem (proc_v4 o pid verbose len tvrecv) = .reply icmplen icmp_seq ip_ttl rtt) :
    rtt = tv_sub tvrecv (echoed o mem) := by
  unfold proc_v4 at hr
  rw [run_bind, run_cell, run_bind, run_cell, run_ite] at hr
  split at hr
  · cases hr
  dsimp only at hr
  rw [run_ite] at hr
  split at hr
  · cases hr
  rw [run_bind, run_cell, run_ite] at hr
  split at hr
  · rw [run_bind, run_ite] at hr
    split at hr
    · cases hr
    rw [run_ite] at hr
    split at hr
    · cases hr
    simp only [run_bind] at hr
    exact (Report.reply.inj hr).2.2.2.symm
  · rw [run_ite] at hr
    split at hr
    · cases hr
    · cases hr

/-- **The interval of a reply.**  For every echo reply that passes the checks, whatever its data,
what `tv_sub` leaves is normal and exact, with no overflow on the way, exactly if the time it echoes
is near that of its arrival. -/
theorem proc_v4_interval_iff (o : ByteOrder) (pid : UInt16) (verbose : Bool) (len : Int)
    (tvrecv rtt : Timeval) (mem : Nat → UInt8) (icmplen : Int) (icmp_seq : UInt16) (ip_ttl : UInt8)
    (h : Normal tvrecv)
    (hr : run mem (proc_v4 o pid verbose len tvrecv) = .reply icmplen icmp_seq ip_ttl rtt) :
    Interval tvrecv (echoed o mem) rtt ↔ Near tvrecv (echoed o mem) := by
  rw [proc_v4_reply hr]
  exact tv_sub_interval_iff h

theorem proc_v4_interval_echoReply :
    Interval ⟨1, 0⟩ (echoed .little (packet (echoReply 16 (by decide)).bytes)) ⟨1, 0⟩ ↔
      Near ⟨1, 0⟩ (echoed .little (packet (echoReply 16 (by decide)).bytes)) :=
  proc_v4_interval_iff .little 7 false 44 ⟨1, 0⟩ ⟨1, 0⟩ (packet (echoReply 16 (by decide)).bytes) 24
    1 64 ⟨by decide, by decide⟩ (by decide +kernel)

/-- An echo reply to process 7 that says it was sent at second 0 and microsecond 16777216. -/
def lateReply : List UInt8 :=
  [0x45, 0, 0, 0, 0, 0, 0, 0, 64, 1, 0, 0, 0, 0, 0, 0, 0, 0, 0, 0] ++ [0, 0, 0, 0, 7, 0, 1, 0] ++
    [0, 0, 0, 0, 0, 0, 0, 0] ++ [0, 0, 0, 1, 0, 0, 0, 0]

/-- The interval has -15777216 microseconds. -/
theorem proc_v4_not_interval : ¬ ∀ (mem : Nat → UInt8) (tvrecv rtt : Timeval), Normal tvrecv →
    run mem (proc_v4 .little 7 false 44 tvrecv) = .reply 24 1 64 rtt →
    Interval tvrecv (echoed .little mem) rtt := by
  intro h
  have hinterval := h (packet lateReply) ⟨1, 0⟩ ⟨0, -15777216⟩ ⟨by decide, by decide⟩
    (by decide +kernel)
  exact absurd hinterval.normal.1 (by decide)

end StudyDoc.Ping
