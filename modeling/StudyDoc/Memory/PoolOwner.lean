import StudyDoc.Memory.Pool

/-!
# `pool.c`: the memory that `swFixedPool_alloc` hands out

The pool of `Memory/Pool` with addresses.  `char data[0]` stands first in `swFixedPool_slice`, so
on LP64 `slice->data` is the address of `slice->next`:

    data 0 (no bytes)    next 0..7    pre 8..15    lock 16    sizeof 24

    the memory given to a user is his alone ↔ he asked for no byte      (alloc_owned_iff)

`swFixedPool_free` goes back from its argument by the size of the header.
-/

namespace StudyDoc.PoolOwner

open Transition Pool

/-! ## Algorithm -/

/-- `sizeof(swFixedPool_slice)` -/
def sliceBytes : Nat := 24

/-- The address and the number of bytes. -/
abbrev Region := Nat × Nat

def Region.Contains (r : Region) (x : Nat) : Prop := r.1 ≤ x ∧ x < r.1 + r.2

instance (r : Region) (x : Nat) : Decidable (r.Contains x) := inferInstanceAs (Decidable (_ ∧ _))

def Region.Disjoint (r r' : Region) : Prop := ∀ x, r.Contains x → ¬ r'.Contains x

/-- `object->size` of `swFixedPool_new`: the first product is one of `uint32_t`. -/
def poolBytes (slice_num slice_size : UInt32) : Nat :=
  (slice_num * slice_size).toNat + slice_num.toNat * sliceBytes

/-- Where the headers are: anywhere in the pool, apart from each other. -/
structure Layout where
  slice_num : UInt32
  slice_size : UInt32
  memory : Nat
  header : Nat → Nat
  inside : ∀ i, i < slice_num.toNat → memory ≤ header i ∧
    header i + sliceBytes ≤ memory + poolBytes slice_num slice_size
  apart : ∀ i j, i < slice_num.toNat → j < slice_num.toNat → i ≠ j →
    header i + sliceBytes ≤ header j ∨ header j + sliceBytes ≤ header i

namespace Layout

variable (L : Layout)

def pool : Region := (L.memory, poolBytes L.slice_num L.slice_size)

/-- `slice->data` -/
def data (slice : Nat) : Nat := L.header slice

/-- `next`, `pre` and `lock` of a slice. -/
def fields (slice : Nat) : List Region :=
  [(L.header slice, 8), (L.header slice + 8, 8), (L.header slice + 16, 1)]

/-- `ptr - sizeof(swFixedPool_slice)`, if that is the header of a slice. -/
def sliceOf (ptr : Nat) : Option Nat :=
  (List.range L.slice_num.toNat).find? fun i => L.header i + sliceBytes == ptr

end Layout

structure Owner where
  object : FixedPool
  /-- The allocations not released yet. -/
  live : List Region

inductive Event where
  | alloc (size : UInt32)
  | free (ptr : Nat)

namespace Owner

variable (L : Layout)

def alloc (s : Owner) (size : UInt32) : Option (Owner × Option Nat) :=
  match s.object.alloc with
  | some (object, some slice) =>
    some (⟨object, (L.data slice, size.toNat) :: s.live⟩, some (L.data slice))
  | some (object, none) => some (⟨object, s.live⟩, none)
  | none => none

/-- `none`: the assertion fails, or what `ptr` leads back to is no header. -/
def free (s : Owner) (ptr : Nat) : Option Owner :=
  if L.memory < ptr ∧ ptr < L.memory + poolBytes L.slice_num L.slice_size then
    (L.sliceOf ptr).bind fun slice =>
      (s.object.free slice).map fun object => ⟨object, s.live.filter fun r => r.1 != ptr⟩
  else none

def step (s : Owner) : Event → Option Owner
  | .alloc size => (s.alloc L size).map Prod.fst
  | .free ptr => s.free L ptr

end Owner

def owners (L : Layout) : System Owner Event where
  init s := (fixedPool L.slice_num).init s.object ∧ s.live = []
  step s e s' := s.step L e = some s'

/-- What `swFixedPool_alloc` returns is in the pool, and no one else's: no other allocation's, no
field of a slice. -/
def Owned (L : Layout) (s : Owner) : Event → Prop
  | .alloc size => ∀ s' p, s.alloc L size = some (s', some p) →
      (∀ x, Region.Contains (p, size.toNat) x → L.pool.Contains x) ∧
      (∀ r ∈ s.live, Region.Disjoint (p, size.toNat) r) ∧
      (∀ i, i < L.slice_num.toNat → ∀ f ∈ L.fields i, Region.Disjoint (p, size.toNat) f)
  | .free _ => True

/-- An allocation that meets a free slice, and one behind it, asks for no byte. -/
def AsksNothing (s : Owner) : Event → Prop
  | .alloc size => ∀ a b, s.object.head = some a → s.object.lock a = false →
      s.object.next a = some b → size = 0
  | .free _ => True

/-! ## The pool inside -/

section

variable {L : Layout}

theorem step_object {s s' : Owner} {e : Event} (hs : s.step L e = some s') :
    ∃ e', s.object.step L.slice_num e' = some s'.object := by
  cases e with
  | alloc size =>
    obtain ⟨⟨t, r⟩, ht, rfl⟩ := Option.map_eq_some_iff.mp hs
    refine ⟨.alloc, ?_⟩
    unfold Owner.alloc at ht
    show s.object.alloc.map Prod.fst = some t.object
    split at ht
    · next object slice hobject =>
      obtain ⟨rfl, -⟩ := Prod.mk.inj (Option.some.inj ht)
      rw [hobject]
      rfl
    · next object hobject =>
      obtain ⟨rfl, -⟩ := Prod.mk.inj (Option.some.inj ht)
      rw [hobject]
      rfl
    · cases ht
  | free ptr =>
    have hfree : s.free L ptr = some s' := hs
    unfold Owner.free at hfree
    split at hfree
    · obtain ⟨slice, hslice, hfree⟩ := Option.bind_eq_some_iff.mp hfree
      obtain ⟨object, hobject, rfl⟩ := Option.map_eq_some_iff.mp hfree
      have hlt : slice < L.slice_num.toNat :=
        List.mem_range.mp (List.mem_of_find?_eq_some hslice)
      refine ⟨.free slice, ?_⟩
      show (if slice < L.slice_num.toNat then s.object.free slice else none) = some object
      rw [if_pos hlt, hobject]
    · cases hfree

theorem reachable_object {s : Owner} (h : (owners L).Reachable s) :
    (fixedPool L.slice_num).Reachable s.object :=
  h.invariant (I := fun s => (fixedPool L.slice_num).Reachable s.object)
    (fun s hi => by
      obtain ⟨hinit, -⟩ := hi
      exact .init hinit)
    (fun s e s' _ hi hs => by
      obtain ⟨e', hs'⟩ := step_object hs
      exact hi.next (e := e') hs')

/-! ## Whose memory it is -/

theorem owned_iff {s : Owner} {free used : List Nat} (h : Shape L.slice_num s.object free used)
    (e : Event) : Owned L s e ↔ AsksNothing s e := by
  cases e with
  | free ptr => exact Iff.rfl
  | alloc size =>
    constructor
    · intro hown a b hhead hlock hnext
      obtain ⟨object, hobject⟩ := (alloc_slice_iff h a).mpr ⟨hhead, hlock, b, hnext⟩
      have ha : a < L.slice_num.toNat := by
        apply (h.mem_iff a).mp
        rw [h.listed.head] at hhead
        exact List.mem_append.mp (List.mem_of_head? hhead)
      have halloc : s.alloc L size =
          some (⟨object, (L.data a, size.toNat) :: s.live⟩, some (L.data a)) := by
        unfold Owner.alloc
        rw [hobject]
      obtain ⟨-, -, hfields⟩ := hown _ _ halloc
      -- the first byte of the region is the first byte of `next`
      have hnot := hfields a ha (L.header a, 8) List.mem_cons_self (L.header a)
      by_contra hne
      have hpos : 0 < size.toNat := by
        have : size.toNat ≠ 0 := fun hzero => hne (UInt32.toNat_inj.mp hzero)
        omega
      refine hnot ⟨Nat.le_refl _, ?_⟩ ⟨Nat.le_refl _, ?_⟩
      · show L.header a < L.header a + size.toNat
        omega
      · show L.header a < L.header a + 8
        omega
    · intro hnothing s' p halloc
      unfold Owner.alloc at halloc
      split at halloc
      · next object slice hobject =>
        obtain ⟨hhead, hlock, b, hnext⟩ := (alloc_slice_iff h slice).mp ⟨object, hobject⟩
        obtain rfl := hnothing slice b hhead hlock hnext
        have hempty : ∀ x, ¬ Region.Contains (p, (0 : UInt32).toNat) x := by
          rintro x ⟨hle, hlt⟩
          have hlt : x < p := hlt
          exact absurd hle (by omega)
        exact ⟨fun x hx => absurd hx (hempty x), fun _ _ x hx => absurd hx (hempty x),
          fun _ _ _ _ x hx => absurd hx (hempty x)⟩
      · cases (Prod.mk.inj (Option.some.inj halloc)).2
      · cases halloc

/-- **The memory handed out.**  Along a run every allocation gets memory of the pool that overlaps
no other allocation and no field of a slice, exactly if none that gets any asks for a byte. -/
theorem alloc_owned_iff (L : Layout) (es : List Event) :
    (owners L).Along es (Owned L) ↔ (owners L).Along es AsksNothing := by
  apply System.along_congr
  intro s e h
  obtain ⟨free, used, hshape⟩ := reachable_shape (reachable_object h)
  exact owned_iff hshape e

/-- Two slices of 8 bytes behind their headers. -/
def pairLayout : Layout where
  slice_num := 2
  slice_size := 8
  memory := 4096
  header i := 4096 + 32 * i
  inside := by decide
  apart i j _ _ hne := by
    unfold sliceBytes
    omega

/-- The first byte that a user gets is the first of `next` in the slice he got. -/
theorem alloc_hands_out_next : ¬ (owners pairLayout).Along [.alloc 1] (Owned pairLayout) := by
  intro h
  have r : (owners pairLayout).Run [] ⟨pairPool, []⟩ := .start ⟨pairPool_init, rfl⟩
  obtain ⟨-, -, hfields⟩ := h [] (.alloc 1) [] _ rfl r _ 4096 rfl
  have hnot := hfields 0 (by decide) (4096, 8) List.mem_cons_self 4096
  exact hnot (by decide) (by decide)

end

end StudyDoc.PoolOwner
