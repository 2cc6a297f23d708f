import StudyDoc.Net.Syscall

/-!
# `pthread_server.c` and the notes on thread-specific data: `my_read`

Both keep an `Rline` from call to call and refill it with one `read`.  They differ in what the
assignment to `r1_cnt` takes: the comparison in `pthread_server.c`, the count in the notes.

    r1_cnt = read(fd, r1_buf, MAXLINE) < 0          r1_cnt is 0 or 1       (myRead_call)
    (r1_cnt = read(fd, r1_buf, MAXLINE)) < 0        r1_cnt bytes are there (Notes.myRead_next)

A list of results that has run out goes on with end of file.
-/

namespace StudyDoc.MyRead

/-! ## Algorithm -/

structure Rline (cap : Nat) where
  r1_cnt : Int
  /-- The index into `r1_buf` it points to; `none` is `NULL`. -/
  r1_bufptr : Option Nat
  r1_buf : Buf cap

/-- `calloc(1, sizeof(Rline))` -/
def Rline.zero {cap : Nat} : Rline cap :=
  ⟨0, none, ⟨List.replicate cap 0, List.length_replicate⟩⟩

inductive Got where
  /-- Returned 1 and stored `c` through `ptr`. -/
  | byte (c : UInt8)
  /-- Returned 0. -/
  | eof
  /-- Returned -1. -/
  | error
  /-- Read through a pointer that is not into `r1_buf`. -/
  | undefined
  deriving DecidableEq

/-- Where the refill leaves `my_read`: `got` is `none` when it goes on to deliver a byte. -/
structure Refill (cap : Nat) where
  got : Option Got
  tsd : Rline cap
  issued : List (Read cap)
  rest : List (Read cap)

structure Call (cap : Nat) where
  got : Got
  tsd : Rline cap
  /-- The reads made in this call. -/
  issued : List (Read cap)
  rest : List (Read cap)

section

variable {cap : Nat} (assign : Int → Int) (failed : Int → Bool)

/-- `tsd->r1_cnt = ... read(fd, tsd->r1_buf, MAXLINE) ...` -/
def afterRead (tsd : Rline cap) (r : Read cap) : Rline cap :=
  { tsd with r1_cnt := assign r.ret, r1_buf := r.store tsd.r1_buf }

/-- The tests after a read that is not made again. -/
def leave (tsd : Rline cap) (r : Read cap) (rest : List (Read cap)) : Refill cap :=
  if failed tsd.r1_cnt then ⟨some .error, tsd, [r], rest⟩
  else if tsd.r1_cnt = 0 then ⟨some .eof, tsd, [r], rest⟩
  else ⟨none, { tsd with r1_bufptr := some 0 }, [r], rest⟩

/-- From the label `again` on. -/
def again (tsd : Rline cap) : List (Read cap) → Refill cap
  | [] => leave failed (afterRead assign tsd .eof) .eof []
  | r :: rest =>
    let tsd := afterRead assign tsd r
    if failed tsd.r1_cnt ∧ r.errno = EINTR then
      let refill := again tsd rest
      { refill with issued := r :: refill.issued }
    else leave failed tsd r rest

/-- `tsd->r1_cnt--; *ptr = *tsd->r1_bufptr++;` -/
def deliver (tsd : Rline cap) : Got × Rline cap :=
  let tsd := { tsd with r1_cnt := tsd.r1_cnt - 1 }
  match tsd.r1_bufptr with
  | some p =>
    match tsd.r1_buf.1[p]? with
    | some c => (.byte c, { tsd with r1_bufptr := some (p + 1) })
    | none => (.undefined, tsd)
  | none => (.undefined, tsd)

def myReadWith (tsd : Rline cap) (rs : List (Read cap)) : Call cap :=
  let refill := if tsd.r1_cnt ≤ 0 then again assign failed tsd rs else ⟨none, tsd, [], rs⟩
  match refill.got with
  | some got => ⟨got, refill.tsd, refill.issued, refill.rest⟩
  | none =>
    let (got, tsd) := deliver refill.tsd
    ⟨got, tsd, refill.issued, refill.rest⟩

/-- `k` calls on one `Rline`, or up to the first that is undefined. -/
def calls (my_read : Rline cap → List (Read cap) → Call cap) :
    Nat → Rline cap → List (Read cap) → List (Call cap)
  | 0, _, _ => []
  | k + 1, tsd, rs =>
    let c := my_read tsd rs
    c :: if c.got = .undefined then [] else calls my_read k c.tsd c.rest

end

/-- `MAXLINE` of `common.h`. -/
def MAXLINE : Nat := 255

/-- `my_read` of `pthread_server.c`:
`if ((tsd->r1_cnt = read(fd, tsd->r1_buf, MAXLINE) < 0))`. -/
def myRead : Rline MAXLINE → List (Read MAXLINE) → Call MAXLINE :=
  myReadWith (fun n => if n < 0 then 1 else 0) (fun cnt => cnt ≠ 0)

namespace Notes

/-- `MAXLINE` of the notes. -/
def MAXLINE : Nat := 1024

/-- `my_read` of the notes:
`if((tsd->r1_cnt = read(fd,tsd->r1_buf,MAXLINE)) < 0)`. -/
def myRead : Rline MAXLINE → List (Read MAXLINE) → Call MAXLINE :=
  myReadWith id (fun cnt => cnt < 0)

end Notes

section

variable {cap : Nat} {assign : Int → Int} {failed : Int → Bool}

theorem myReadWith_left {tsd : Rline cap} {rs : List (Read cap)} (hcnt : tsd.r1_cnt ≤ 0)
    {got : Got} (hgot : (again assign failed tsd rs).got = some got) :
    myReadWith assign failed tsd rs =
      ⟨got, (again assign failed tsd rs).tsd, (again assign failed tsd rs).issued,
        (again assign failed tsd rs).rest⟩ := by
  unfold myReadWith
  simp only [if_pos hcnt, hgot]

/-! ## `pthread_server.c`: what the comparison leaves in `r1_cnt` -/

/-- The results that do not send `my_read` back to `again`. -/
def settled (rs : List (Read cap)) : List (Read cap) := rs.filter fun r => !r.interrupted

/-- The next of them is a failure. -/
def failsNext (rs : List (Read cap)) : Bool := (settled rs).head?.any Read.failed

end

theorem myRead_again (rs : List (Read MAXLINE)) : ∀ tsd : Rline MAXLINE,
    let refill := again (fun n => if n < 0 then 1 else 0) (fun cnt => cnt ≠ 0) tsd rs
    refill.got = some (if failsNext rs then .error else .eof) ∧
    refill.tsd.r1_cnt = (if failsNext rs then 1 else 0) ∧
    refill.tsd.r1_bufptr = tsd.r1_bufptr ∧ settled refill.rest = (settled rs).tail := by
  induction rs with
  | nil =>
    intro tsd
    exact ⟨rfl, rfl, rfl, rfl⟩
  | cons r rs ih =>
    intro tsd
    cases r with
    | data bytes pos le =>
      have hret : ¬ ((bytes.length : Int) < 0) := by omega
      simp [again, leave, afterRead, Read.ret, hret, settled, failsNext, Read.interrupted,
        Read.failed]
    | eof =>
      simp [again, leave, afterRead, Read.ret, settled, failsNext, Read.interrupted, Read.failed]
    | fail e =>
      by_cases he : e = EINTR
      · subst he
        simpa [again, afterRead, Read.ret, Read.errno, settled, failsNext, Read.interrupted]
          using ih _
      · simp [again, leave, afterRead, Read.ret, Read.errno, settled, failsNext,
          Read.interrupted, Read.failed, he]

/-- With `r1_cnt` at 0 a call delivers no byte: it returns 0, or -1 and then leaves 1 there. -/
theorem myRead_call {tsd : Rline MAXLINE} (hcnt : tsd.r1_cnt = 0) (rs : List (Read MAXLINE)) :
    (myRead tsd rs).got = (if failsNext rs then .error else .eof) ∧
    (myRead tsd rs).tsd.r1_cnt = (if failsNext rs then 1 else 0) ∧
    (myRead tsd rs).tsd.r1_bufptr = tsd.r1_bufptr ∧
    settled (myRead tsd rs).rest = (settled rs).tail := by
  have hagain := myRead_again rs tsd
  have hcall := myReadWith_left (by omega) hagain.1
  unfold myRead
  rw [hcall]
  exact ⟨rfl, hagain.2⟩

/-! ## The bytes delivered -/

def Got.bytes : Got → List UInt8
  | .byte c => [c]
  | _ => []

def delivered {cap : Nat} (cs : List (Call cap)) : List UInt8 := cs.flatMap fun c => c.got.bytes

/-- The calls deliver the stream `s`, in order, each byte once, and return 0 only behind it. -/
def Delivers {cap : Nat} (my_read : Rline cap → List (Read cap) → Call cap)
    (rs : List (Read cap)) (s : List UInt8) : Prop :=
  (∀ k, delivered (calls my_read k .zero rs) <+: s) ∧
  (∀ k pre c, calls my_read k .zero rs = pre ++ [c] → c.got = .eof → delivered pre = s) ∧
  ∃ k, delivered (calls my_read k .zero rs) = s

theorem settled_of_feed {cap : Nat} {rs : List (Read cap)} {s : List UInt8} (h : Feed rs s) :
    ∀ r ∈ settled rs, r.failed = false := by
  induction h with
  | nil => simp [settled]
  | eof _ ih =>
    intro r hr
    rcases List.mem_cons.mp hr with rfl | hr
    · rfl
    · exact ih r hr
  | intr _ ih => exact ih
  | data pos le _ ih =>
    intro r hr
    rcases List.mem_cons.mp hr with rfl | hr
    · rfl
    · exact ih r hr

theorem failsNext_of_settled {cap : Nat} {rs : List (Read cap)}
    (h : ∀ r ∈ settled rs, r.failed = false) : failsNext rs = false := by
  unfold failsNext
  cases hs : settled rs with
  | nil => rfl
  | cons r rest =>
    show r.failed = false
    exact h r (hs ▸ List.mem_cons_self)

/-- Where no read fails but by interruption, every call returns 0. -/
theorem calls_eof (k : Nat) : ∀ (tsd : Rline MAXLINE) (rs : List (Read MAXLINE)),
    tsd.r1_cnt = 0 → (∀ r ∈ settled rs, r.failed = false) →
    ∀ c ∈ calls myRead k tsd rs, c.got = .eof := by
  induction k with
  | zero =>
    intro tsd rs _ _ c hc
    cases hc
  | succ k ih =>
    intro tsd rs hcnt hall c hc
    obtain ⟨hgot, hcnt', -, hrest⟩ := myRead_call hcnt rs
    rw [failsNext_of_settled hall] at hgot hcnt'
    unfold calls at hc
    rcases List.mem_cons.mp hc with rfl | hc
    · exact hgot
    · rw [if_neg (by rw [hgot]; decide)] at hc
      apply ih _ _ hcnt' _ c hc
      intro r hr
      rw [hrest] at hr
      exact hall r (List.mem_of_mem_tail hr)

theorem delivered_eof {cap : Nat} {cs : List (Call cap)} (h : ∀ c ∈ cs, c.got = .eof) :
    delivered cs = [] := by
  apply List.flatMap_eq_nil_iff.mpr
  intro c hc
  rw [h c hc]
  rfl

/-- **`my_read` delivers nothing.**  The calls of `my_read` deliver the stream exactly if it is
empty: the first of them returns 0 whatever the stream holds. -/
theorem myRead_delivers_iff {rs : List (Read MAXLINE)} {s : List UInt8} (h : Feed rs s) :
    Delivers myRead rs s ↔ s = [] := by
  have heof : ∀ k, ∀ c ∈ calls myRead k .zero rs, c.got = .eof := fun k =>
    calls_eof k .zero rs rfl (settled_of_feed h)
  constructor
  · rintro ⟨-, hzero, -⟩
    have hcall : calls myRead 1 .zero rs = [myRead .zero rs] := by
      show myRead .zero rs :: (if (myRead .zero rs).got = .undefined then [] else []) = _
      rw [ite_self]
    exact (hzero 1 [] _ hcall (heof 1 _ (hcall ▸ List.mem_singleton_self _))).symm
  · rintro rfl
    refine ⟨fun k => ?_, fun k pre c hk _ => ?_, 0, rfl⟩
    · exact List.prefix_nil.mpr (delivered_eof (heof k))
    · apply delivered_eof
      intro c' hc'
      exact heof k c' (hk ▸ List.mem_append_left _ hc')

/-- The one-byte stream `"a"`. -/
theorem myRead_delivers_iff_oneByte :
    ¬ Delivers myRead [.data [97] (by decide) (by decide)] [97] ∧ Delivers myRead [] [] := by
  constructor
  · intro h
    have hnil := (myRead_delivers_iff (.data _ _ .nil)).mp h
    cases hnil
  · exact (myRead_delivers_iff .nil).mpr rfl

/-- The first call on the one-byte stream returns 0. -/
theorem myRead_delivers_nothing :
    ¬ Delivers myRead [.data [97] (by decide) (by decide)] [97] := by
  rintro ⟨-, hzero, -⟩
  have hnil := hzero 1 [] _ rfl rfl
  cases hnil

/-! ## The count and the pointer -/

/-- The bytes that the last successful read has stored. -/
def stored {cap : Nat} (reads : List (Read cap)) : Nat :=
  reads.foldl (fun len r => if r.failed then len else r.bytes.length) 0

/-- The `r1_cnt` bytes from `r1_bufptr` on lie in what the last successful read has stored. -/
def RepOk {cap : Nat} (reads : List (Read cap)) (tsd : Rline cap) : Prop :=
  0 < tsd.r1_cnt → ∃ p, tsd.r1_bufptr = some p ∧ p + tsd.r1_cnt.toNat ≤ stored reads

theorem stored_le {cap : Nat} (reads : List (Read cap)) : stored reads ≤ cap := by
  have hgen : ∀ len, len ≤ cap →
      reads.foldl (fun len r => if r.failed then len else r.bytes.length) len ≤ cap := by
    induction reads with
    | nil => exact fun len hlen => hlen
    | cons r reads ih =>
      intro len hlen
      apply ih
      dsimp only
      split
      · exact hlen
      · exact r.bytes_length_le
  exact hgen 0 (Nat.zero_le cap)

/-- After each of `k` calls; and a call that follows one that returned -1 reads. -/
def KeepsRep {cap : Nat} (my_read : Rline cap → List (Read cap) → Call cap)
    (reads : List (Read cap)) (tsd : Rline cap) (k : Nat) (rs : List (Read cap)) : Prop :=
  ∀ pre c post, calls my_read k tsd rs = pre ++ c :: post →
    RepOk (reads ++ (pre ++ [c]).flatMap Call.issued) c.tsd ∧
    (c.got = .error → ∀ c' ∈ post.head?, c'.issued ≠ [])

section

variable {cap : Nat} {my_read : Rline cap → List (Read cap) → Call cap}

theorem keepsRep_zero (reads : List (Read cap)) (tsd : Rline cap) (rs : List (Read cap)) :
    KeepsRep my_read reads tsd 0 rs := by
  intro pre c post hk
  simp [calls] at hk

theorem keepsRep_succ {reads : List (Read cap)} {tsd : Rline cap} {k : Nat}
    {rs : List (Read cap)} (hdef : (my_read tsd rs).got ≠ .undefined) :
    KeepsRep my_read reads tsd (k + 1) rs ↔
      RepOk (reads ++ (my_read tsd rs).issued) (my_read tsd rs).tsd ∧
      ((my_read tsd rs).got = .error → ∀ c' ∈ (calls my_read k (my_read tsd rs).tsd
        (my_read tsd rs).rest).head?, c'.issued ≠ []) ∧
      KeepsRep my_read (reads ++ (my_read tsd rs).issued) (my_read tsd rs).tsd k
        (my_read tsd rs).rest := by
  have hcalls : calls my_read (k + 1) tsd rs =
      my_read tsd rs :: calls my_read k (my_read tsd rs).tsd (my_read tsd rs).rest := by
    show my_read tsd rs :: (if _ then _ else _) = _
    rw [if_neg hdef]
  unfold KeepsRep
  rw [hcalls]
  constructor
  · intro h
    obtain ⟨hrep, hnext⟩ := h [] _ _ rfl
    refine ⟨by simpa using hrep, hnext, fun pre c post hk => ?_⟩
    have := h (my_read tsd rs :: pre) c post (by rw [hk]; rfl)
    simpa using this
  · rintro ⟨hrep, hnext, hrest⟩ pre c post hk
    cases pre with
    | nil =>
      obtain ⟨rfl, rfl⟩ := List.cons.inj hk
      exact ⟨by simpa using hrep, hnext⟩
    | cons c' pre =>
      obtain ⟨rfl, htail⟩ := List.cons.inj hk
      simpa using hrest pre c post htail

end

theorem myRead_keepsRep_from (k : Nat) : ∀ (reads : List (Read MAXLINE)) (tsd) (rs),
    tsd.r1_cnt = 0 → tsd.r1_bufptr = none →
    (KeepsRep myRead reads tsd k rs ↔ ∀ r ∈ (settled rs).take k, r.failed = false) := by
  induction k with
  | zero =>
    intro reads tsd rs _ _
    simp [keepsRep_zero]
  | succ k ih =>
    intro reads tsd rs hcnt hptr
    obtain ⟨hgot, hcnt', hptr', hrest⟩ := myRead_call hcnt rs
    rw [keepsRep_succ (by rw [hgot]; split <;> decide)]
    cases hfail : failsNext rs with
    | false =>
      rw [hfail] at hgot hcnt'
      rw [ih _ _ _ hcnt' (hptr'.trans hptr), hrest]
      have hrep : RepOk (reads ++ (myRead tsd rs).issued) (myRead tsd rs).tsd := by
        intro hpos
        rw [hcnt'] at hpos
        exact absurd hpos (by decide)
      rw [hgot]
      unfold failsNext at hfail
      cases hs : settled rs with
      | nil => simp [hrep]
      | cons r rest =>
        rw [hs] at hfail
        have hr : r.failed = false := hfail
        simp [hrep, hr]
    | true =>
      -- the comparison leaves 1 in `r1_cnt`, and `r1_bufptr` is still `NULL`
      rw [hfail] at hcnt'
      unfold failsNext at hfail
      cases hs : settled rs with
      | nil =>
        rw [hs] at hfail
        cases hfail
      | cons r rest =>
        rw [hs] at hfail
        have hr : r.failed = true := hfail
        refine iff_of_false ?_ ?_
        · rintro ⟨hrep, -⟩
          obtain ⟨p, hp, -⟩ := hrep (by rw [hcnt']; decide)
          rw [hptr', hptr] at hp
          cases hp
        · intro hall
          have := hall r (List.mem_cons_self ..)
          rw [hr] at this
          cases this

/-- **The count and the pointer part.**  After each of the first `k` calls of `my_read` the count
covers bytes that are there, and -1 is followed by a new read, exactly if none of the first `k`
results other than interruptions is a failure. -/
theorem myRead_keepsRep_iff (k : Nat) (rs : List (Read MAXLINE)) :
    KeepsRep myRead [] .zero k rs ↔
      ∀ r ∈ (rs.filter fun r => !r.interrupted).take k, r.failed = false :=
  myRead_keepsRep_from k [] .zero rs rfl rfl

/-- One `read` fails with `ECONNRESET`. -/
theorem myRead_keepsRep_reset :
    ¬ KeepsRep myRead [] .zero 1 [.fail ECONNRESET] := by
  intro h
  obtain ⟨hrep, -⟩ := h [] _ [] rfl
  obtain ⟨p, hp, -⟩ := hrep (by decide)
  cases hp

example : (calls myRead 2 .zero [.fail ECONNRESET]).map Call.got = [.error, .undefined] := rfl

/-! ## The notes: the bytes read ahead -/

/-- What a `my_read` that returns the stream `t` byte by byte does next. -/
def Got.ofStream : List UInt8 → Got
  | [] => .eof
  | c :: _ => .byte c

section

variable {cap : Nat}

/-- `bytes` are in the buffer and not delivered yet. -/
structure ReadAhead (tsd : Rline cap) (bytes : List UInt8) : Prop where
  cnt : tsd.r1_cnt.toNat = bytes.length
  ptr : bytes ≠ [] → ∃ p, tsd.r1_bufptr = some p ∧ bytes <+: tsd.r1_buf.1.drop p

theorem deliver_readAhead {tsd : Rline cap} {c : UInt8} {bytes : List UInt8}
    (h : ReadAhead tsd (c :: bytes)) :
    (deliver tsd).1 = .byte c ∧ ReadAhead (deliver tsd).2 bytes := by
  obtain ⟨p, hp, t, ht⟩ := h.ptr (List.cons_ne_nil c bytes)
  have hcnt := h.cnt
  have hget : tsd.r1_buf.1[p]? = some c := by
    rw [← List.head?_drop, ← ht]
    rfl
  have hdrop : tsd.r1_buf.1.drop (p + 1) = bytes ++ t := by
    rw [← List.tail_drop, ← ht]
    rfl
  unfold deliver
  simp only [hp, hget]
  refine ⟨trivial, ?_, fun _ => ⟨p + 1, rfl, t, hdrop.symm⟩⟩
  show (tsd.r1_cnt - 1).toNat = bytes.length
  rw [List.length_cons] at hcnt
  omega

/-- The stream `t` is still to be delivered: read ahead, or not read yet. -/
def Holds (tsd : Rline cap) (rs : List (Read cap)) (t : List UInt8) : Prop :=
  ∃ bytes s, ReadAhead tsd bytes ∧ Feed rs s ∧ t = bytes ++ s

theorem holds_zero {rs : List (Read cap)} {s : List UInt8} (h : Feed rs s) :
    Holds .zero rs s :=
  ⟨[], s, ⟨rfl, fun hne => absurd rfl hne⟩, h, rfl⟩

theorem readAhead_nil {tsd : Rline cap} (h : tsd.r1_cnt = 0) : ReadAhead tsd [] := by
  refine ⟨?_, fun hne => absurd rfl hne⟩
  rw [h]
  rfl

end

namespace Notes

theorem again_data (tsd : Rline MAXLINE) {bytes : List UInt8} (pos : 0 < bytes.length)
    (le : bytes.length ≤ MAXLINE) (rs : List (Read MAXLINE)) :
    again id (fun cnt => cnt < 0) tsd (.data bytes pos le :: rs) =
      ⟨none, ⟨bytes.length, some 0, (Read.data bytes pos le).store tsd.r1_buf⟩,
        [.data bytes pos le], rs⟩ := by
  have hnonneg : ¬ ((bytes.length : Int) < 0) := by omega
  simp [again, leave, afterRead, Read.ret, hnonneg, List.ne_nil_of_length_pos pos]

theorem again_feed {rs : List (Read MAXLINE)} {s : List UInt8} (h : Feed rs s) :
    ∀ tsd : Rline MAXLINE, let refill := again id (fun cnt => cnt < 0) tsd rs
      (s = [] ∧ refill.got = some .eof ∧ Holds refill.tsd refill.rest []) ∨
      (∃ bytes s', s = bytes ++ s' ∧ bytes ≠ [] ∧ refill.got = none ∧
        ReadAhead refill.tsd bytes ∧ Feed refill.rest s') := by
  induction h with
  | nil =>
    intro tsd
    exact Or.inl ⟨rfl, rfl, [], [], readAhead_nil rfl, .nil, rfl⟩
  | @eof rs h _ =>
    intro tsd
    exact Or.inl ⟨rfl, rfl, [], [], readAhead_nil rfl, h, rfl⟩
  | intr _ ih =>
    intro tsd
    exact ih _
  | @data rs s bytes pos le h _ =>
    intro tsd
    rw [again_data]
    refine Or.inr ⟨bytes, s, rfl, List.ne_nil_of_length_pos pos, rfl, ⟨rfl, fun _ => ?_⟩, h⟩
    exact ⟨0, rfl, _, rfl⟩

/-- One call takes one byte from what is still to be delivered. -/
theorem myRead_next {tsd : Rline MAXLINE} {rs : List (Read MAXLINE)} {t : List UInt8}
    (h : Holds tsd rs t) : (myRead tsd rs).got = Got.ofStream t ∧
      Holds (myRead tsd rs).tsd (myRead tsd rs).rest t.tail := by
  obtain ⟨bytes, s, hahead, hfeed, rfl⟩ := h
  have hcnt := hahead.cnt
  cases bytes with
  | cons c bytes =>
    have hpos : ¬ tsd.r1_cnt ≤ 0 := by
      rw [List.length_cons] at hcnt
      omega
    obtain ⟨hgot, hahead'⟩ := deliver_readAhead hahead
    unfold myRead myReadWith
    rw [if_neg hpos]
    exact ⟨hgot, bytes, s, hahead', hfeed, rfl⟩
  | nil =>
    have hle : tsd.r1_cnt ≤ 0 := by
      rw [List.length_nil] at hcnt
      omega
    rcases again_feed hfeed tsd with
      ⟨rfl, hgot, hholds⟩ | ⟨bytes, s', rfl, hne, hgot, hahead', hrest⟩
    · unfold myRead
      rw [myReadWith_left hle hgot]
      exact ⟨rfl, hholds⟩
    · obtain ⟨c, bytes, rfl⟩ := List.exists_cons_of_ne_nil hne
      obtain ⟨hbyte, hahead''⟩ := deliver_readAhead hahead'
      unfold myRead myReadWith
      rw [if_pos hle]
      simp only [hgot]
      exact ⟨hbyte, bytes, s', hahead'', hrest, rfl⟩

theorem calls_succ {tsd : Rline MAXLINE} {rs : List (Read MAXLINE)} {t : List UInt8}
    (h : Holds tsd rs t) (k : Nat) : calls myRead (k + 1) tsd rs =
      myRead tsd rs :: calls myRead k (myRead tsd rs).tsd (myRead tsd rs).rest := by
  show myRead tsd rs :: (if (myRead tsd rs).got = .undefined then _ else _) = _
  rw [(myRead_next h).1]
  cases t <;> rfl

theorem ofStream_bytes (t : List UInt8) : (Got.ofStream t).bytes ++ t.tail = t := by
  cases t <;> rfl

theorem delivered_calls (k : Nat) : ∀ (tsd : Rline MAXLINE) (rs) (t : List UInt8),
    Holds tsd rs t → delivered (calls myRead k tsd rs) = t.take k := by
  induction k with
  | zero => exact fun _ _ _ _ => rfl
  | succ k ih =>
    intro tsd rs t h
    obtain ⟨hgot, hholds⟩ := myRead_next h
    rw [calls_succ h]
    show (myRead tsd rs).got.bytes ++ delivered (calls myRead k _ _) = t.take (k + 1)
    rw [hgot, ih _ _ _ hholds]
    cases t with
    | nil => exact List.take_nil
    | cons c t => rfl

theorem delivered_before_eof (k : Nat) : ∀ (tsd : Rline MAXLINE) (rs) (t : List UInt8) (pre) (c),
    Holds tsd rs t → calls myRead k tsd rs = pre ++ [c] → c.got = .eof → delivered pre = t := by
  induction k with
  | zero =>
    intro tsd rs t pre c _ hk
    simp [calls] at hk
  | succ k ih =>
    intro tsd rs t pre c h hk hc
    obtain ⟨hgot, hholds⟩ := myRead_next h
    rw [calls_succ h] at hk
    cases pre with
    | nil =>
      obtain ⟨rfl, -⟩ := List.cons.inj hk
      rw [hgot] at hc
      cases t with
      | nil => rfl
      | cons b t => cases hc
    | cons c' pre =>
      obtain ⟨rfl, htail⟩ := List.cons.inj hk
      show (myRead tsd rs).got.bytes ++ delivered pre = t
      rw [hgot, ih _ _ _ _ _ hholds htail hc, ofStream_bytes]

/-- With the parenthesis where the notes have it, the calls deliver every stream. -/
theorem myRead_delivers {rs : List (Read MAXLINE)} {s : List UInt8} (h : Feed rs s) :
    Delivers myRead rs s := by
  have hholds : Holds .zero rs s := holds_zero h
  refine ⟨fun k => ?_, fun k pre c => ?_, s.length, ?_⟩
  · rw [delivered_calls k _ _ _ hholds]
    exact List.take_prefix k s
  · exact delivered_before_eof k _ _ _ pre c hholds
  · rw [delivered_calls _ _ _ _ hholds]
    exact List.take_of_length_le (Nat.le_refl _)

theorem again_rep (rs : List (Read MAXLINE)) : ∀ (tsd : Rline MAXLINE) (reads),
    let refill := again id (fun cnt => cnt < 0) tsd rs
    refill.issued ≠ [] ∧ refill.got ≠ some .undefined ∧
      (refill.got ≠ none → refill.tsd.r1_cnt ≤ 0) ∧
      (refill.got = none → 0 < refill.tsd.r1_cnt ∧
        RepOk (reads ++ refill.issued) refill.tsd) := by
  induction rs with
  | nil =>
    intro tsd reads
    refine ⟨List.cons_ne_nil _ _, ?_, fun _ => ?_, fun hgot => ?_⟩
    · show some Got.eof ≠ some Got.undefined
      decide
    · exact Int.le_refl 0
    · cases hgot
  | cons r rs ih =>
    intro tsd reads
    cases r with
    | data bytes pos le =>
      rw [again_data]
      refine ⟨List.cons_ne_nil _ _, by nofun, fun hgot => absurd rfl hgot,
        fun _ => ⟨?_, fun _ => ?_⟩⟩
      · show 0 < (bytes.length : Int)
        omega
      · refine ⟨0, rfl, ?_⟩
        simp [stored, Read.failed, Read.bytes]
    | eof =>
      refine ⟨List.cons_ne_nil _ _, ?_, fun _ => ?_, fun hgot => ?_⟩
      · show some Got.eof ≠ some Got.undefined
        decide
      · exact Int.le_refl 0
      · cases hgot
    | fail e =>
      by_cases he : e = EINTR
      · subst he
        have hrec : again id (fun cnt => cnt < 0) tsd (.fail EINTR :: rs) =
            { again id (fun cnt => cnt < 0) (afterRead id tsd (.fail EINTR)) rs with
              issued := .fail EINTR ::
                (again id (fun cnt => cnt < 0) (afterRead id tsd (.fail EINTR)) rs).issued } :=
          rfl
        obtain ⟨-, hdef, hcnt, hnone⟩ :=
          ih (afterRead id tsd (.fail EINTR)) (reads ++ [.fail EINTR])
        rw [hrec]
        refine ⟨List.cons_ne_nil _ _, hdef, hcnt, fun hgot => ?_⟩
        rw [← List.append_cons] at hnone
        exact hnone hgot
      · have hleave : again id (fun cnt => cnt < 0) tsd (.fail e :: rs) =
            ⟨some .error, ⟨-1, tsd.r1_bufptr, (Read.fail e).store tsd.r1_buf⟩, [.fail e], rs⟩ := by
          simp [again, leave, afterRead, Read.ret, Read.errno, he]
        rw [hleave]
        refine ⟨List.cons_ne_nil _ _, by nofun, fun _ => ?_, fun hgot => ?_⟩
        · show (-1 : Int) ≤ 0
          decide
        · cases hgot

theorem deliver_rep {tsd : Rline MAXLINE} {reads : List (Read MAXLINE)} (h : RepOk reads tsd)
    (hpos : 0 < tsd.r1_cnt) : ∃ c, (deliver tsd).1 = .byte c ∧ RepOk reads (deliver tsd).2 := by
  obtain ⟨p, hp, hle⟩ := h hpos
  have hlt : p < tsd.r1_buf.1.length := by
    have := stored_le reads
    have := tsd.r1_buf.2
    omega
  unfold deliver
  simp only [hp, List.getElem?_eq_getElem hlt]
  refine ⟨_, rfl, fun hpos' => ⟨p + 1, rfl, ?_⟩⟩
  show p + 1 + (tsd.r1_cnt - 1).toNat ≤ stored reads
  omega

theorem myRead_rep {tsd : Rline MAXLINE} {reads : List (Read MAXLINE)} (h : RepOk reads tsd)
    (rs : List (Read MAXLINE)) :
    RepOk (reads ++ (myRead tsd rs).issued) (myRead tsd rs).tsd ∧
    (myRead tsd rs).got ≠ .undefined ∧
    ((myRead tsd rs).got = .error → (myRead tsd rs).tsd.r1_cnt ≤ 0) ∧
    (tsd.r1_cnt ≤ 0 → (myRead tsd rs).issued ≠ []) := by
  by_cases hcnt : tsd.r1_cnt ≤ 0
  · obtain ⟨hissued, hdef, hleft, hnone⟩ := again_rep rs tsd reads
    cases hgot : (again id (fun cnt => cnt < 0) tsd rs).got with
    | some got =>
      have hle := hleft (by rw [hgot]; nofun)
      unfold myRead
      rw [myReadWith_left hcnt hgot]
      refine ⟨fun hpos => ?_, fun hund => ?_, fun _ => hle, fun _ => hissued⟩
      · exact absurd hpos (Int.not_lt.mpr hle)
      · exact hdef (by rw [hgot, ← hund])
    | none =>
      obtain ⟨hpos, hrep⟩ := hnone hgot
      obtain ⟨c, hc, hrep'⟩ := deliver_rep hrep hpos
      unfold myRead myReadWith
      rw [if_pos hcnt]
      simp only [hgot, hc]
      exact ⟨hrep', by nofun, by nofun, fun _ => hissued⟩
  · obtain ⟨c, hc, hrep⟩ := deliver_rep h (Int.not_le.mp hcnt)
    unfold myRead myReadWith
    rw [if_neg hcnt]
    simp only [hc, List.append_nil]
    exact ⟨hrep, by nofun, by nofun, fun hle => absurd hle hcnt⟩

/-- The count and the pointer of the notes never part. -/
theorem myRead_keepsRep_always (k : Nat) : ∀ (reads : List (Read MAXLINE)) (tsd) (rs),
    RepOk reads tsd → KeepsRep myRead reads tsd k rs := by
  induction k with
  | zero => exact fun reads tsd rs _ => keepsRep_zero reads tsd rs
  | succ k ih =>
    intro reads tsd rs h
    obtain ⟨hrep, hdef, herror, -⟩ := myRead_rep h rs
    rw [keepsRep_succ hdef]
    refine ⟨hrep, fun hgot c' hc' => ?_, ih _ _ _ hrep⟩
    cases k with
    | zero => cases hc'
    | succ k =>
      obtain rfl : myRead (myRead tsd rs).tsd (myRead tsd rs).rest = c' := Option.some.inj hc'
      exact (myRead_rep hrep _).2.2.2 (herror hgot)

end Notes

end StudyDoc.MyRead
