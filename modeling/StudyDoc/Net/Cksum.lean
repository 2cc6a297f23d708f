import StudyDoc.Lib.OnesComplement
import Mathlib.Data.List.Basic
import Mathlib.Tactic.Common

/-!
# `ping.c`: the ICMP checksum

`in_cksum` adds the 16-bit words of the message as the host reads them, without `ntohs`, and
folds the carries of the 32-bit sum back in.  `wordSum o bs` is that sum in `Nat`, a last odd
byte followed by a zero byte.  For every message of at most 65535 bytes

    in_cksum o bs = 65535 - fold 65536 (wordSum o bs)                    (in_cksum_toNat)
    wordSum little bs ≡ 256 * wordSum big bs  (mod 65535)                (wordSum_swap)
    in_cksum o bs = the checksum of RFC 1071                             (in_cksum_rfc1071)

so the stored message sums to zero and the two bytes on the wire do not depend on the host.
-/

namespace StudyDoc.Cksum

open OnesComplement

/-! ## Algorithm -/

inductive ByteOrder where
  | little
  | big
  deriving DecidableEq

namespace ByteOrder

/-- The `uint16_t` at two consecutive bytes. -/
def load : ByteOrder → UInt8 → UInt8 → UInt16
  | little, b0, b1 => UInt16.ofNat (b0.toNat + b1.toNat * 256)
  | big, b0, b1 => UInt16.ofNat (b0.toNat * 256 + b1.toNat)

/-- The bytes of a `uint16_t`, in the order of their addresses. -/
def store : ByteOrder → UInt16 → List UInt8
  | little, v => [UInt8.ofNat (v.toNat % 256), UInt8.ofNat (v.toNat / 256)]
  | big, v => [UInt8.ofNat (v.toNat / 256), UInt8.ofNat (v.toNat % 256)]

end ByteOrder

/-- `while (nleft > 1)`: what is left of `nleft`, of the bytes at `w`, and `sum`. -/
def sumWords (o : ByteOrder) : Nat → List UInt8 → UInt32 → Nat × List UInt8 × UInt32
  | nleft + 2, b0 :: b1 :: w, sum => sumWords o nleft w (sum + (o.load b0 b1).toUInt32)
  | nleft, w, sum => (nleft, w, sum)

/-- `addr` holds the bytes from the pointer on, `len` of them at least.  The odd byte is stored
through `(unsigned char *)(&answer)`: the first of the two bytes of `answer`, which was 0. -/
def in_cksum (o : ByteOrder) (addr : List UInt8) (len : Nat) : UInt16 :=
  let (nleft, w, sum) := sumWords o len addr 0
  let sum := if nleft = 1 then sum + (o.load (w.headD 0) 0).toUInt32 else sum
  let sum := (sum >>> 16) + (sum &&& 0xffff)
  let sum := sum + (sum >>> 16)
  (~~~sum).toUInt16

/-- `sum` before the folding steps. -/
def accumulated (o : ByteOrder) (addr : List UInt8) (len : Nat) : UInt32 :=
  let (nleft, w, sum) := sumWords o len addr 0
  if nleft = 1 then sum + (o.load (w.headD 0) 0).toUInt32 else sum

/-- `sum` between the two folding steps. -/
def folded (sum : UInt32) : UInt32 := (sum >>> 16) + (sum &&& 0xffff)

/-- Bytes written into a buffer at an offset. -/
def poke (buf : List UInt8) (off : Nat) (bs : List UInt8) : List UInt8 :=
  buf.take off ++ bs ++ buf.drop (off + bs.length)

/-- `icmp->icmp_cksum = v` -/
def setCksum (o : ByteOrder) (icmp : List UInt8) (v : UInt16) : List UInt8 :=
  poke icmp 2 (o.store v)

def BUFSIZE : Nat := 1500
def ICMP_ECHO : UInt8 := 8

/-- The fields of `send_v4` but the checksum.  `tv` are the bytes that `gettimeofday` stores. -/
def fill_v4 (o : ByteOrder) (sendbuf : List UInt8) (pid nsent : UInt16) (datalen : Nat)
    (tv : List UInt8) : List UInt8 :=
  let icmp := poke sendbuf 0 [ICMP_ECHO, 0]
  let icmp := poke icmp 4 (o.store pid)
  let icmp := poke icmp 6 (o.store nsent)
  let icmp := poke icmp 8 (List.replicate datalen 0xa5)
  poke icmp 8 tv

/-- `send_v4` up to `sendto`: the `len` bytes of `sendbuf` it sends. -/
def send_v4 (o : ByteOrder) (sendbuf : List UInt8) (pid nsent : UInt16) (datalen : Nat)
    (tv : List UInt8) : List UInt8 :=
  let len := 8 + datalen
  let icmp := setCksum o (fill_v4 o sendbuf pid nsent datalen tv) 0
  (setCksum o icmp (in_cksum o icmp len)).take len

/-- The sum of the words, in `Nat`. -/
def wordSum (o : ByteOrder) : List UInt8 → Nat
  | [] => 0
  | [b] => (o.load b 0).toNat
  | b0 :: b1 :: bs => (o.load b0 b1).toNat + wordSum o bs

/-! ### Words -/

theorem load_little_toNat (b0 b1 : UInt8) :
    (ByteOrder.little.load b0 b1).toNat = b0.toNat + b1.toNat * 256 := by
  have h0 := b0.toNat_lt
  have h1 := b1.toNat_lt
  show (UInt16.ofNat _).toNat = _
  rw [UInt16.toNat_ofNat']
  omega

theorem load_big_toNat (b0 b1 : UInt8) :
    (ByteOrder.big.load b0 b1).toNat = b0.toNat * 256 + b1.toNat := by
  have h0 := b0.toNat_lt
  have h1 := b1.toNat_lt
  show (UInt16.ofNat _).toNat = _
  rw [UInt16.toNat_ofNat']
  omega

theorem load_store (o : ByteOrder) (v : UInt16) :
    ∃ b0 b1, o.store v = [b0, b1] ∧ o.load b0 b1 = v := by
  have hv := v.toNat_lt
  cases o with
  | little =>
    refine ⟨_, _, rfl, ?_⟩
    apply UInt16.toNat_inj.mp
    rw [load_little_toNat, UInt8.toNat_ofNat', UInt8.toNat_ofNat']
    omega
  | big =>
    refine ⟨_, _, rfl, ?_⟩
    apply UInt16.toNat_inj.mp
    rw [load_big_toNat, UInt8.toNat_ofNat', UInt8.toNat_ofNat']
    omega

theorem load_zero (o : ByteOrder) : o.load 0 0 = 0 := by
  cases o <;> rfl

@[simp] theorem store_length (o : ByteOrder) (v : UInt16) : (o.store v).length = 2 := by
  cases o <;> rfl

theorem wordSum_le (o : ByteOrder) (bs : List UInt8) :
    wordSum o bs ≤ 65535 * ((bs.length + 1) / 2) := by
  fun_induction wordSum o bs with
  | case1 => omega
  | case2 b =>
    have hb := (o.load b 0).toNat_lt
    show _ ≤ 65535 * ((1 + 1) / 2)
    omega
  | case3 b0 b1 bs ih =>
    have hb := (o.load b0 b1).toNat_lt
    have hl : (b0 :: b1 :: bs).length = bs.length + 2 := rfl
    omega

/-- What the loop and the odd byte add up to, as long as 32 bits hold it. -/
theorem sumWords_spec (o : ByteOrder) (bs : List UInt8) (sum : UInt32)
    (h : sum.toNat + wordSum o bs < 4294967296) :
    let r := sumWords o bs.length bs sum
    (if r.1 = 1 then r.2.2 + (o.load (r.2.1.headD 0) 0).toUInt32 else r.2.2).toNat =
      sum.toNat + wordSum o bs := by
  fun_induction wordSum o bs generalizing sum with
  | case1 => rfl
  | case2 b =>
    show (sum + (o.load b 0).toUInt32).toNat = _
    rw [UInt32.toNat_add, UInt16.toNat_toUInt32]
    omega
  | case3 b0 b1 bs ih =>
    have hadd : (sum + (o.load b0 b1).toUInt32).toNat = sum.toNat + (o.load b0 b1).toNat := by
      rw [UInt32.toNat_add, UInt16.toNat_toUInt32]
      omega
    have hi := ih (sum + (o.load b0 b1).toUInt32) (by omega)
    rw [hadd] at hi
    rw [← Nat.add_assoc]
    exact hi

theorem shiftRight_toNat (s : UInt32) : (s >>> 16).toNat = s.toNat / 65536 := by
  rw [UInt32.toNat_shiftRight]
  exact Nat.shiftRight_eq_div_pow s.toNat 16

theorem mask_toNat (s : UInt32) : (s &&& 0xffff).toNat = s.toNat % 65536 := by
  rw [UInt32.toNat_and]
  exact Nat.and_two_pow_sub_one_eq_mod s.toNat 16

/-- The first folding step, on 32 bits. -/
theorem firstFold_toNat (sum : UInt32) :
    ((sum >>> 16) + (sum &&& 0xffff)).toNat = carry 65536 sum.toNat := by
  have hsum := sum.toNat_lt
  rw [UInt32.toNat_add, shiftRight_toNat, mask_toNat]
  unfold carry
  omega

/-- The two folding steps and the complement, on 32 bits. -/
theorem folded_toNat (sum : UInt32) :
    let s := (sum >>> 16) + (sum &&& 0xffff)
    (~~~(s + (s >>> 16))).toUInt16.toNat = 65535 - fold 65536 sum.toNat := by
  intro s
  have hsum := sum.toNat_lt
  have hs : s.toNat = carry 65536 sum.toNat := firstFold_toNat sum
  have hle : s.toNat ≤ 2 * (65536 - 1) := by
    rw [hs]
    exact carry_le hsum
  have hcut : (s.toNat + s.toNat / 65536) % 65536 = fold 65536 sum.toNat := by
    rw [add_div_mod_eq_carry (by decide) hle, hs]
    rfl
  rw [UInt32.toNat_toUInt16, UInt32.toNat_not, UInt32.toNat_add, shiftRight_toNat]
  show (4294967296 - 1 - (s.toNat + s.toNat / 65536) % 4294967296) % 65536 = _
  omega

theorem wordSum_lt (o : ByteOrder) {bs : List UInt8} (h : bs.length ≤ 65535) :
    wordSum o bs < 65536 * 65536 := by
  have := wordSum_le o bs
  omega

theorem in_cksum_toNat (o : ByteOrder) {bs : List UInt8} (h : bs.length ≤ 65535) :
    (in_cksum o bs bs.length).toNat = 65535 - fold 65536 (wordSum o bs) := by
  have hlt := wordSum_lt o h
  have h0 : (0 : UInt32).toNat = 0 := rfl
  have hsum := sumWords_spec o bs 0 (by omega)
  rw [h0, Nat.zero_add] at hsum
  rw [← hsum]
  exact folded_toNat _

example : in_cksum .big [0x45, 0x00, 0x00, 0x73, 0x00, 0x00, 0x40, 0x00, 0x40, 0x11, 0x00, 0x00,
    0xc0, 0xa8, 0x00, 0x01, 0xc0, 0xa8, 0x00, 0xc7] 20 = 0xb861 := by decide

/-! ## The stored message sums to zero -/

theorem wordSum_setCksum (o : ByteOrder) {b0 b1 : UInt8} (bs : List UInt8) (v : UInt16) :
    wordSum o (setCksum o (b0 :: b1 :: 0 :: 0 :: bs) v) =
      wordSum o (b0 :: b1 :: 0 :: 0 :: bs) + v.toNat := by
  obtain ⟨c0, c1, hstore, hload⟩ := load_store o v
  have hz : (o.load 0 0).toNat = 0 := by rw [load_zero]; rfl
  have hset : setCksum o (b0 :: b1 :: 0 :: 0 :: bs) v = b0 :: b1 :: c0 :: c1 :: bs := by
    unfold setCksum poke
    rw [hstore]
    rfl
  rw [hset]
  show (o.load b0 b1).toNat + ((o.load c0 c1).toNat + wordSum o bs) =
    (o.load b0 b1).toNat + ((o.load 0 0).toNat + wordSum o bs) + v.toNat
  rw [hload, hz]
  omega

theorem setCksum_length (o : ByteOrder) {icmp : List UInt8} (h : 4 ≤ icmp.length) (v : UInt16) :
    (setCksum o icmp v).length = icmp.length := by
  unfold setCksum poke
  rw [List.length_append, List.length_append, List.length_take, List.length_drop, store_length]
  omega

/-- A message of at least four bytes with the field cleared. -/
theorem cleared_cases {icmp : List UInt8} (h : 4 ≤ icmp.length) (h2 : icmp[2]? = some 0)
    (h3 : icmp[3]? = some 0) : ∃ b0 b1 bs, icmp = b0 :: b1 :: 0 :: 0 :: bs := by
  match icmp, h with
  | b0 :: b1 :: c0 :: c1 :: bs, _ =>
    have hc0 : c0 = 0 := Option.some.inj h2
    have hc1 : c1 = 0 := Option.some.inj h3
    exact ⟨b0, b1, bs, by rw [hc0, hc1]⟩

theorem cksum_stored_zero (o : ByteOrder) {icmp : List UInt8} (h4 : 4 ≤ icmp.length)
    (hle : icmp.length ≤ 65535) (h2 : icmp[2]? = some 0) (h3 : icmp[3]? = some 0) :
    fold 65536 (wordSum o (setCksum o icmp (in_cksum o icmp icmp.length))) = 65535 := by
  have hlen := setCksum_length o h4 (in_cksum o icmp icmp.length)
  have hv := in_cksum_toNat o hle
  obtain ⟨b0, b1, bs, rfl⟩ := cleared_cases h4 h2 h3
  have hlt := wordSum_lt o (hlen.trans_le hle)
  rw [wordSum_setCksum, hv] at hlt ⊢
  exact fold_add_complement hlt (by decide)

/-! ## Byte order -/

theorem load_swap (b0 b1 : UInt8) :
    (ByteOrder.little.load b0 b1).toNat ≡ 256 * (ByteOrder.big.load b0 b1).toNat [MOD 65535] := by
  rw [load_little_toNat, load_big_toNat]
  show _ % 65535 = _ % 65535
  omega

theorem wordSum_swap (bs : List UInt8) :
    wordSum .little bs ≡ 256 * wordSum .big bs [MOD 65535] := by
  fun_induction wordSum .little bs with
  | case1 => exact Nat.ModEq.refl 0
  | case2 b => exact load_swap b 0
  | case3 b0 b1 bs ih =>
    show _ ≡ 256 * ((ByteOrder.big.load b0 b1).toNat + wordSum .big bs) [MOD 65535]
    rw [Nat.mul_add]
    exact (load_swap b0 b1).add ih

theorem wordSum_eq_zero_iff (bs : List UInt8) : wordSum .little bs = 0 ↔ wordSum .big bs = 0 := by
  have hload : ∀ b0 b1, (ByteOrder.little.load b0 b1).toNat = 0 ↔
      (ByteOrder.big.load b0 b1).toNat = 0 := by
    intro b0 b1
    rw [load_little_toNat, load_big_toNat]
    omega
  fun_induction wordSum .little bs with
  | case1 => exact Iff.rfl
  | case2 b => exact hload b 0
  | case3 b0 b1 bs ih =>
    show _ ↔ (ByteOrder.big.load b0 b1).toNat + wordSum .big bs = 0
    have hl := hload b0 b1
    omega

/-- The checksum a little-endian host computes is that of a big-endian host with its two bytes
exchanged. -/
theorem in_cksum_swap {bs : List UInt8} (h : bs.length ≤ 65535) :
    (in_cksum .little bs bs.length).toNat = swap 256 (in_cksum .big bs bs.length).toNat := by
  have hl := wordSum_lt .little h
  have hb := wordSum_lt .big h
  have hfold : fold 65536 (wordSum .little bs) = swap 256 (fold 65536 (wordSum .big bs)) :=
    fold_swap (b := 256) (by decide) (wordSum_swap bs) (wordSum_eq_zero_iff bs) hb hl
  have hle : fold 65536 (wordSum .big bs) ≤ 65536 - 1 := fold_le hb
  rw [in_cksum_toNat .little h, in_cksum_toNat .big h, hfold]
  unfold swap
  omega

theorem in_cksum_eq_zero_swap {bs : List UInt8} (h : bs.length ≤ 65535) (o o' : ByteOrder) :
    in_cksum o bs bs.length = 0 ↔ in_cksum o' bs bs.length = 0 := by
  have hswap : in_cksum .little bs bs.length = 0 ↔ in_cksum .big bs bs.length = 0 := by
    rw [← UInt16.toNat_inj, ← UInt16.toNat_inj, in_cksum_swap h]
    exact swap_eq_zero_iff (by decide) _
  cases o <;> cases o'
  · exact Iff.rfl
  · exact hswap
  · exact hswap.symm
  · exact Iff.rfl

/-! ## Only the message counts -/

theorem sumWords_take (o : ByteOrder) (len : Nat) (w : List UInt8) (sum : UInt32) :
    sumWords o len (w.take len) sum =
      ((sumWords o len w sum).1, (sumWords o len w sum).2.1.take (sumWords o len w sum).1,
        (sumWords o len w sum).2.2) := by
  fun_induction sumWords o len w sum with
  | case1 sum nleft b0 b1 w ih => exact ih
  | case2 nleft w sum hstop =>
    rw [sumWords.eq_2]
    intro n b0 b1 w' hn hw
    have hlen := List.length_take_le nleft w
    match w with
    | [] => simp at hw
    | [c] =>
      rw [hn] at hw
      simp at hw
    | c0 :: c1 :: w => exact hstop n c0 c1 w hn rfl

theorem accumulated_take (o : ByteOrder) (addr : List UInt8) (len : Nat) :
    accumulated o (addr.take len) len = accumulated o addr len := by
  unfold accumulated
  rw [sumWords_take]
  by_cases h1 : (sumWords o len addr 0).1 = 1
  · simp only [h1, if_true]
    cases (sumWords o len addr 0).2.1 <;> rfl
  · simp only [h1, if_false]

/-- `in_cksum` depends on the buffer through the accumulator. -/
theorem in_cksum_eq (o : ByteOrder) (addr : List UInt8) (len : Nat) :
    in_cksum o addr len = (~~~(folded (accumulated o addr len) +
      (folded (accumulated o addr len) >>> 16))).toUInt16 :=
  rfl

/-- `in_cksum` reads no byte at or behind `addr + len`. -/
theorem in_cksum_take (o : ByteOrder) (addr : List UInt8) (len : Nat) :
    in_cksum o (addr.take len) len = in_cksum o addr len := by
  rw [in_cksum_eq, in_cksum_eq, accumulated_take]

theorem poke_length {buf bs : List UInt8} {off : Nat} (h : off + bs.length ≤ buf.length) :
    (poke buf off bs).length = buf.length := by
  unfold poke
  rw [List.length_append, List.length_append, List.length_take, List.length_drop]
  omega

theorem poke_getElem? {buf bs : List UInt8} {off i : Nat} (hb : off + bs.length ≤ buf.length)
    (h1 : off ≤ i) (h2 : i < off + bs.length) : (poke buf off bs)[i]? = bs[i - off]? := by
  have htake : (buf.take off).length = off := by rw [List.length_take]; omega
  unfold poke
  rw [List.append_assoc, List.getElem?_append_right (by omega), htake,
    List.getElem?_append_left (by omega)]

theorem take_setCksum (o : ByteOrder) {icmp : List UInt8} {len : Nat} (h4 : 4 ≤ len)
    (hle : len ≤ icmp.length) (v : UInt16) :
    (setCksum o icmp v).take len = setCksum o (icmp.take len) v := by
  unfold setCksum poke
  rw [store_length, List.take_append, List.take_append, List.take_take, List.drop_take,
    List.length_append, List.length_take, store_length]
  congr 1
  · congr 1
    · rw [List.take_take]
      congr 1
      omega
    · apply List.take_of_length_le
      rw [store_length]
      omega
  · congr 1
    omega

/-! ## Main results -/

/-- **The checksum.**  A message whose cleared field gets its checksum sums to zero at every
receiver, of either byte order. -/
theorem in_cksum_stored (o receiver : ByteOrder) (icmp : List UInt8) (h8 : 8 ≤ icmp.length)
    (hle : icmp.length ≤ 65535) (h2 : icmp[2]? = some 0) (h3 : icmp[3]? = some 0) :
    in_cksum receiver (setCksum o icmp (in_cksum o icmp icmp.length)) icmp.length = 0 := by
  have hzero := cksum_stored_zero o (by omega) hle h2 h3
  generalize in_cksum o icmp icmp.length = v at hzero ⊢
  have hlen := setCksum_length o (by omega : 4 ≤ icmp.length) v
  have hsum := in_cksum_toNat o (hlen.trans_le hle)
  rw [hzero] at hsum
  rw [← hlen]
  apply (in_cksum_eq_zero_swap (hlen.trans_le hle) receiver o).mpr
  exact UInt16.toNat_inj.mp hsum

theorem in_cksum_stored_odd :
    in_cksum .little (setCksum .little [8, 0, 0, 0, 7, 1, 0, 2, 255]
      (in_cksum .little [8, 0, 0, 0, 7, 1, 0, 2, 255] 9)) 9 = 0 :=
  in_cksum_stored .little .little [8, 0, 0, 0, 7, 1, 0, 2, 255] (by decide) (by decide) rfl rfl

theorem fill_v4_length (o : ByteOrder) {sendbuf : List UInt8} (pid nsent : UInt16)
    {datalen : Nat} {tv : List UInt8} (hbuf : sendbuf.length = BUFSIZE)
    (hdata : 8 + datalen ≤ BUFSIZE) (htv : tv.length = 16) :
    (fill_v4 o sendbuf pid nsent datalen tv).length = BUFSIZE := by
  have hfit : ∀ {buf : List UInt8} (off : Nat) (bs : List UInt8), buf.length = BUFSIZE →
      off + bs.length ≤ BUFSIZE → (poke buf off bs).length = BUFSIZE := by
    intro buf off bs hb h
    exact (poke_length (h.trans_eq hb.symm)).trans hb
  unfold fill_v4
  apply hfit 8 tv
  · apply hfit 8 (List.replicate datalen 0xa5)
    · apply hfit 6 (o.store nsent)
      · apply hfit 4 (o.store pid)
        · exact hfit 0 [ICMP_ECHO, 0] hbuf (by decide)
        · rw [store_length]
          decide
      · rw [store_length]
        decide
    · rw [List.length_replicate]
      exact hdata
  · rw [htv]
    decide

/-- **What is sent.**  The message of `send_v4` has length `8 + datalen` and sums to zero. -/
theorem send_v4_cksum (o receiver : ByteOrder) (sendbuf : List UInt8) (pid nsent : UInt16)
    (datalen : Nat) (tv : List UInt8) (hbuf : sendbuf.length = BUFSIZE)
    (hdata : 8 + datalen ≤ BUFSIZE) (htv : tv.length = 16) :
    (send_v4 o sendbuf pid nsent datalen tv).length = 8 + datalen ∧
      in_cksum receiver (send_v4 o sendbuf pid nsent datalen tv) (8 + datalen) = 0 := by
  have hfill := fill_v4_length o pid nsent hbuf hdata htv
  unfold send_v4
  generalize fill_v4 o sendbuf pid nsent datalen tv = icmp at hfill ⊢
  have hsize : BUFSIZE = 1500 := rfl
  have hclear := setCksum_length o (by omega : 4 ≤ icmp.length) 0
  have htake : ((setCksum o icmp 0).take (8 + datalen)).length = 8 + datalen := by
    rw [List.length_take]
    omega
  have hfield : ∀ i, i < 2 → ((setCksum o icmp 0).take (8 + datalen))[2 + i]? = some 0 := by
    intro i hi
    rw [List.getElem?_take_of_lt (by omega)]
    unfold setCksum
    rw [poke_getElem? (by rw [store_length]; omega) (by omega) (by rw [store_length]; omega)]
    match i, hi with
    | 0, _ => cases o <;> rfl
    | 1, _ => cases o <;> rfl
  have hstored := in_cksum_stored o receiver ((setCksum o icmp 0).take (8 + datalen)) (by omega)
    (by omega) (hfield 0 (by decide)) (hfield 1 (by decide))
  rw [htake, in_cksum_take] at hstored
  show (List.take (8 + datalen) _).length = _ ∧ in_cksum receiver (List.take (8 + datalen) _) _ = 0
  rw [take_setCksum o (by omega) (by omega)]
  refine ⟨?_, hstored⟩
  rw [setCksum_length o (by omega), htake]

/-- **Byte order.**  The two bytes of the stored checksum are the same on hosts of either byte
order: each computes the other's word with the bytes exchanged. -/
theorem in_cksum_byteOrder (bs : List UInt8) (h : bs.length ≤ 65535) :
    ByteOrder.little.store (in_cksum .little bs bs.length) =
        ByteOrder.big.store (in_cksum .big bs bs.length) ∧
      (in_cksum .little bs bs.length).toNat = swap 256 (in_cksum .big bs bs.length).toNat := by
  have hswap := in_cksum_swap h
  refine ⟨?_, hswap⟩
  have hlt := (in_cksum .big bs bs.length).toNat_lt
  unfold swap at hswap
  have hlow : (in_cksum .little bs bs.length).toNat % 256 =
      (in_cksum .big bs bs.length).toNat / 256 := by omega
  have hhigh : (in_cksum .little bs bs.length).toNat / 256 =
      (in_cksum .big bs bs.length).toNat % 256 := by omega
  show [UInt8.ofNat _, UInt8.ofNat _] = [UInt8.ofNat _, UInt8.ofNat _]
  rw [hlow, hhigh]

theorem in_cksum_byteOrder_odd :
    ByteOrder.little.store (in_cksum .little [1, 2, 3] 3) =
        ByteOrder.big.store (in_cksum .big [1, 2, 3] 3) ∧
      (in_cksum .little [1, 2, 3] 3).toNat = swap 256 (in_cksum .big [1, 2, 3] 3).toNat :=
  in_cksum_byteOrder [1, 2, 3] (by decide)

/-! ## RFC 1071 -/

/-- The host-order words of a buffer, a last odd byte followed by a zero byte. -/
def words (o : ByteOrder) : List UInt8 → List Nat
  | [] => []
  | [b] => [(o.load b 0).toNat]
  | b0 :: b1 :: bs => (o.load b0 b1).toNat :: words o bs

/-- The complement of the ones' complement sum, each carry added in at once. -/
def rfc1071 (o : ByteOrder) (bs : List UInt8) : Nat := 65535 - (words o bs).foldl (add 65536) 0

theorem words_sum (o : ByteOrder) (bs : List UInt8) : (words o bs).sum = wordSum o bs := by
  fun_induction words o bs with
  | case1 => rfl
  | case2 b => exact List.sum_singleton
  | case3 b0 b1 bs ih =>
    rw [List.sum_cons, ih]
    rfl

theorem le_of_mem_words (o : ByteOrder) (bs : List UInt8) : ∀ w ∈ words o bs, w ≤ 65536 - 1 := by
  have hword : ∀ v : UInt16, v.toNat ≤ 65536 - 1 := fun v => Nat.le_sub_one_of_lt v.toNat_lt
  fun_induction words o bs with
  | case1 => exact fun w hw => absurd hw List.not_mem_nil
  | case2 b => exact List.forall_mem_singleton.mpr (hword _)
  | case3 b0 b1 bs ih => exact List.forall_mem_cons.mpr ⟨hword _, ih⟩

theorem rfc1071_eq (o : ByteOrder) {bs : List UInt8} (h : bs.length ≤ 65535) :
    rfc1071 o bs = 65535 - fold 65536 (wordSum o bs) := by
  have hlt := wordSum_lt o h
  have hsum := words_sum o bs
  have hfold := foldl_add (words o bs) (le_of_mem_words o bs) 0 (by omega)
  rw [Nat.zero_add, hsum] at hfold
  unfold rfc1071
  rw [← hfold]
  rfl

/-- The accumulator does not wrap. -/
theorem accumulated_toNat (o : ByteOrder) {addr : List UInt8} {len : Nat}
    (hlen : len ≤ addr.length) (h : len ≤ 65535) :
    (accumulated o addr len).toNat = wordSum o (addr.take len) := by
  have htake : (addr.take len).length = len := List.length_take_of_le hlen
  have hlt : wordSum o (addr.take len) < 4294967296 := wordSum_lt o (by omega)
  have h0 : (0 : UInt32).toNat = 0 := rfl
  have hsum := sumWords_spec o (addr.take len) 0 (by omega)
  rw [h0, Nat.zero_add, htake] at hsum
  rw [← accumulated_take]
  exact hsum

/-- Adding the carry of the first folding step in gives no further one. -/
theorem folded_carry (sum : UInt32) :
    (folded sum &&& 0xffff).toNat + (folded sum >>> 16).toNat ≤ 65535 := by
  have hs : (folded sum).toNat = carry 65536 sum.toNat := firstFold_toNat sum
  have hle : carry 65536 sum.toNat ≤ 2 * (65536 - 1) := carry_le sum.toNat_lt
  rw [shiftRight_toNat, mask_toNat, hs]
  omega

/-- **The reference.**  On the first `len` bytes of a buffer `in_cksum` computes the checksum of
RFC 1071.  The 32 bits of the accumulator hold the sum of the words at every point, and behind the
second folding step no carry is left. -/
theorem in_cksum_rfc1071 (o : ByteOrder) (addr : List UInt8) (len : Nat)
    (hlen : len ≤ addr.length) (h : len ≤ 65535) :
    (∀ k, k ≤ len → (accumulated o addr k).toNat = wordSum o (addr.take k)) ∧
      (folded (accumulated o addr len) &&& 0xffff).toNat +
        (folded (accumulated o addr len) >>> 16).toNat ≤ 65535 ∧
      (in_cksum o addr len).toNat = rfc1071 o (addr.take len) := by
  refine ⟨fun k hk => accumulated_toNat o (by omega) (by omega), folded_carry _, ?_⟩
  have htake : (addr.take len).length = len := List.length_take_of_le hlen
  rw [rfc1071_eq o (by omega), ← in_cksum_toNat o (by omega), htake, in_cksum_take]

/-- Three bytes of a longer buffer; the last is a word with a zero byte. -/
theorem in_cksum_rfc1071_odd :
    (in_cksum .big [0xff, 0xff, 0x01, 0x07] 3).toNat = rfc1071 .big [0xff, 0xff, 0x01] :=
  (in_cksum_rfc1071 .big [0xff, 0xff, 0x01, 0x07] 3 (by decide) (by decide)).2.2

end StudyDoc.Cksum
