import StudyDoc.Lib.CStruct
import StudyDoc.Memory.PoolOwner

/-!
# `pool.c`: `swFixedPool_new`, and from `data` back to the slice

The three structures of a pool on LP64, the block that `swFixedPool_new` asks for, and the address
that `swFixedPool_free` takes for the header of its slice.

    block = swFixedPool, swMemoryPool, size bytes                        (new_alloc_size)
    block and size are large enough ↔ slice_num * slice_size < 2^32      (new_fits_iff)
    header that free computes = header of the slice - 24                 (headerOf_data)

`slice_num*slice_size` is a product of `uint32_t`.  `swFixedPool_init` is not in the file.
-/

namespace StudyDoc.PoolNew

open CStruct PoolOwner

/-! ## Algorithm -/

def pointer : Member := ⟨8, 8, by decide⟩
def size_t : Member := ⟨8, 8, by decide⟩
def uint32_t : Member := ⟨4, 4, by decide⟩
def uint8_t : Member := ⟨1, 1, by decide⟩

/-- `char data[0]` -/
def flexible : Member := ⟨0, 1, by decide⟩

/-- `object`, `alloc`, `free`, `destroy` -/
def swMemoryPool : List Member := [pointer, pointer, pointer, pointer]

/-- `memory`, `size`, `head`, `tail`, `slice_num`, `slice_size`, `slice_use`, `shared` -/
def swFixedPool : List Member :=
  [pointer, size_t, pointer, pointer, uint32_t, uint32_t, uint32_t, uint8_t]

/-- `data`, `next`, `pre`, `lock` -/
def swFixedPool_slice : List Member := [flexible, pointer, pointer, uint8_t]

example : places swFixedPool_slice = [(0, 0), (0, 8), (8, 8), (16, 1)] := by decide

def sizeOf (ms : List Member) : UInt64 := UInt64.ofNat (sizeof ms)

structure Object where
  memory : UInt64
  size : UInt64
  head : Option Nat
  tail : Option Nat
  slice_num : UInt32
  slice_size : UInt32
  slice_use : UInt32
  shared : UInt8

/-- What `swFixedPool_new` did: the request, where it put `object` and `pool`. -/
structure Created where
  /-- `sw_shm_malloc`, not `sw_malloc`. -/
  shm : Bool
  alloc_size : UInt64
  object : UInt64 × Object
  pool : UInt64

/-- `memory` is the block that is granted, whatever its size. -/
def swFixedPool_new (slice_num slice_size : UInt32) (shared : UInt8) (memory : UInt64) :
    Created :=
  let size := (slice_num * slice_size).toUInt64 + slice_num.toUInt64 * sizeOf swFixedPool_slice
  let alloc_size := size + sizeOf swFixedPool + sizeOf swMemoryPool
  let pool := memory + sizeOf swFixedPool
  { shm := shared = 1
    alloc_size := alloc_size
    object := (memory, {
      memory := pool + sizeOf swMemoryPool
      size := size
      head := none
      tail := none
      slice_num := slice_num
      slice_size := slice_size
      slice_use := 0
      shared := shared })
    pool := pool }

/-- Room for the two headers and for every slice, and `size` is that of the slices. -/
def Fits (r : Created) : Prop :=
  let slice_num := r.object.2.slice_num.toNat
  let slice_size := r.object.2.slice_size.toNat
  sizeof swFixedPool + sizeof swMemoryPool + slice_num * (sizeof swFixedPool_slice + slice_size) ≤
    r.alloc_size.toNat ∧
  r.object.2.size.toNat = slice_num * (slice_size + sizeof swFixedPool_slice)

/-- `slice = ptr - sizeof(swFixedPool_slice)` -/
def headerOf (ptr : Nat) : Int := ptr - sizeof swFixedPool_slice

/-- `ptr > object->memory && ptr < object->memory + object->size` -/
def Accepts (L : Layout) (ptr : Nat) : Prop :=
  L.memory < ptr ∧ ptr < L.memory + poolBytes L.slice_num L.slice_size

/-- From `ptr`, handed out for `slice`, `swFixedPool_free` gets to this slice. -/
def RoundTrip (L : Layout) (slice ptr : Nat) : Prop :=
  headerOf ptr = L.header slice ∧ Accepts L ptr

/-! ## Sizes -/

theorem sizeof_slice : sizeof swFixedPool_slice = sliceBytes := by decide

theorem sizeof_headers : sizeof swFixedPool = 48 ∧ sizeof swMemoryPool = 32 := by decide

section

variable (slice_num slice_size : UInt32) (shared : UInt8) (memory : UInt64)

theorem new_size : (swFixedPool_new slice_num slice_size shared memory).object.2.size.toNat =
    poolBytes slice_num slice_size := by
  have hnum := slice_num.toNat_lt
  have hmul := (slice_num * slice_size).toNat_lt
  have h24 : (sizeOf swFixedPool_slice).toNat = 24 := by decide
  show (_ + _ * sizeOf swFixedPool_slice : UInt64).toNat = _
  rw [UInt64.toNat_add, UInt64.toNat_mul, UInt32.toNat_toUInt64, UInt32.toNat_toUInt64, h24]
  unfold poolBytes sliceBytes
  omega

/-- The request: the headers, and what is recorded for the slices. -/
theorem new_alloc_size : (swFixedPool_new slice_num slice_size shared memory).alloc_size.toNat =
    sizeof swFixedPool + sizeof swMemoryPool +
      (swFixedPool_new slice_num slice_size shared memory).object.2.size.toNat := by
  have hsize : ((slice_num * slice_size).toUInt64 +
      slice_num.toUInt64 * sizeOf swFixedPool_slice).toNat = poolBytes slice_num slice_size :=
    new_size slice_num slice_size shared memory
  have hnum := slice_num.toNat_lt
  have hmul := (slice_num * slice_size).toNat_lt
  have h48 : (sizeOf swFixedPool).toNat = 48 := by decide
  have h32 : (sizeOf swMemoryPool).toNat = 32 := by decide
  obtain ⟨hpool, hmemory⟩ := sizeof_headers
  show (_ + sizeOf swFixedPool + sizeOf swMemoryPool : UInt64).toNat =
    _ + _ + (_ + _ : UInt64).toNat
  rw [UInt64.toNat_add, UInt64.toNat_add _ (sizeOf swFixedPool), h48, h32, hsize, hpool, hmemory]
  unfold poolBytes sliceBytes
  omega

end

/-! ## From `data` to the header -/

/-- `data` comes first, so it is where the slice is. -/
theorem data_offset (L : Layout) (slice : Nat) :
    (places swFixedPool_slice).head? = some (0, 0) ∧ L.data slice = L.header slice :=
  ⟨places_head flexible _, rfl⟩

/-- The fields of a slice are its members that have bytes. -/
theorem fields_eq (L : Layout) (slice : Nat) :
    L.fields slice = (places swFixedPool_slice).tail.map fun p => (L.header slice + p.1, p.2) :=
  rfl

/-- Every member of every slice is in the pool. -/
theorem member_inside (L : Layout) {slice : Nat} (h : slice < L.slice_num.toNat) {p : Nat × Nat}
    (hp : p ∈ places swFixedPool_slice) : L.memory ≤ L.header slice + p.1 ∧
      L.header slice + p.1 + p.2 ≤ L.memory + poolBytes L.slice_num L.slice_size := by
  have hmember := le_sizeof_of_mem_places hp
  obtain ⟨hle, hend⟩ := L.inside slice h
  rw [sizeof_slice] at hmember
  omega

theorem headerOf_data (L : Layout) (slice : Nat) :
    headerOf (L.data slice) = L.header slice - 24 := by
  show (L.header slice : Int) - (sizeof swFixedPool_slice : Nat) = _
  rw [sizeof_slice]
  rfl

/-- Only the slice at the very start of the pool fails the assertion. -/
theorem accepts_data_iff (L : Layout) {slice : Nat} (h : slice < L.slice_num.toNat) :
    Accepts L (L.data slice) ↔ L.header slice ≠ L.memory := by
  obtain ⟨hle, hend⟩ := L.inside slice h
  unfold sliceBytes at hend
  show L.memory < L.header slice ∧ L.header slice < _ ↔ _
  omega

theorem alloc_head {s s' : Owner} {L : Layout} {size : UInt32} {p : Nat}
    (h : s.alloc L size = some (s', some p)) :
    ∃ slice, s.object.head = some slice ∧ p = L.data slice := by
  unfold Owner.alloc at h
  split at h
  · next object slice hobject =>
    obtain ⟨-, hp⟩ := Prod.mk.inj (Option.some.inj h)
    exact ⟨slice, Pool.head_of_alloc hobject, (Option.some.inj hp).symm⟩
  · cases (Prod.mk.inj (Option.some.inj h)).2
  · cases h

/-! ## Main results -/

/-- **The block of a pool.**  It has room for the headers and for all slices, and `size` is the
number of bytes of these, exactly if the product of the two arguments fits a `uint32_t`. -/
theorem new_fits_iff (slice_num slice_size : UInt32) (shared : UInt8) (memory : UInt64) :
    Fits (swFixedPool_new slice_num slice_size shared memory) ↔
      slice_num.toNat * slice_size.toNat < 4294967296 := by
  have hsize := new_size slice_num slice_size shared memory
  have halloc := new_alloc_size slice_num slice_size shared memory
  have hwrap : (slice_num * slice_size).toNat =
      slice_num.toNat * slice_size.toNat % 4294967296 := UInt32.toNat_mul ..
  unfold Fits
  rw [halloc, hsize]
  show _ + _ + slice_num.toNat * (_ + slice_size.toNat) ≤ _ ∧
    _ = slice_num.toNat * (slice_size.toNat + _) ↔ _
  unfold poolBytes
  rw [sizeof_slice, hwrap, Nat.mul_add, Nat.mul_add]
  omega

/-- 65536 slices of 65536 bytes: the product is 0 as a `uint32_t`. -/
theorem new_not_fits : ¬ ∀ slice_num slice_size shared memory,
    Fits (swFixedPool_new slice_num slice_size shared memory) := by
  intro h
  have hfits := h 65536 65536 0 0
  exact absurd hfits.2 (by decide)

/-- **Back to the slice.**  From no pointer that `swFixedPool_alloc` returns does
`swFixedPool_free` get to the slice it was returned for. -/
theorem alloc_not_roundTrip (L : Layout) (s s' : Owner) (size : UInt32) (p : Nat)
    (h : s.alloc L size = some (s', some p)) :
    ∃ slice, s.object.head = some slice ∧ p = L.data slice ∧ ¬ RoundTrip L slice p := by
  obtain ⟨slice, hhead, rfl⟩ := alloc_head h
  refine ⟨slice, hhead, rfl, fun hround => ?_⟩
  have hheader := headerOf_data L slice
  rw [hround.1] at hheader
  omega

theorem alloc_not_roundTrip_pair : ∃ slice, (⟨Pool.pairPool, []⟩ : Owner).object.head = some slice ∧
    4096 = pairLayout.data slice ∧ ¬ RoundTrip pairLayout slice 4096 :=
  alloc_not_roundTrip pairLayout ⟨Pool.pairPool, []⟩ _ 8 4096 rfl

/-- The first slice of a pool at 4096: `swFixedPool_free` looks for its header at 4072. -/
theorem first_slice_lost : ¬ ∀ (L : Layout) (s s' : Owner) (size : UInt32) (p slice : Nat),
    s.alloc L size = some (s', some p) → p = L.data slice → RoundTrip L slice p := by
  intro h
  have hround := h pairLayout ⟨Pool.pairPool, []⟩ _ 8 4096 0 rfl rfl
  exact absurd hround.1 (by decide)

end StudyDoc.PoolNew
