import StudyDoc.Lib.FreeList
import StudyDoc.Lib.Transition
import StudyDoc.Zend.Bits
import Mathlib.Data.List.Pairwise
import Mathlib.Tactic.Common

/-!
# `zend源码阅读笔记.md`: `zend_arena_alloc`

An arena gives out its memory from the front to the back; when the rest is too short, a new one is
put before it.  For requests of less than 2^64 - 31 bytes, over any run,

    a.hi ≤ b.lo  ∨  b.hi ≤ a.lo   for any two blocks, and for any block and header   (run_apart)
    arena, arena->prev, …  =  all that `emalloc` gave, the newest first              (run_arenas)

Larger ones wrap around: they get a pointer, but not the memory behind it (alloc_inside_iff).
-/

namespace StudyDoc.Arena

open FreeList Transition Zend

/-! ## Algorithm -/

structure ZendArena where
  ptr : BitVec 64
  end_ : BitVec 64
  prev : BitVec 64

/-- `arena` is `*arena_ptr`, `mem` the structures by their addresses. -/
structure Arenas where
  arena : BitVec 64
  mem : BitVec 64 → ZendArena

/-- `ZEND_MM_ALIGNED_SIZE(sizeof(zend_arena))` -/
def headerSize : BitVec 64 := zendMmAlignedSize 24

/-- For a `size` that is aligned. -/
def Arenas.arenaSize (s : Arenas) (size : BitVec 64) : BitVec 64 :=
  if size + headerSize > (s.mem s.arena).end_ - s.arena then size + headerSize
  else (s.mem s.arena).end_ - s.arena

def zendArenaAlloc (emalloc : BitVec 64 → BitVec 64) (s : Arenas) (size : BitVec 64) :
    Arenas × BitVec 64 :=
  let arena := s.mem s.arena
  let ptr := arena.ptr
  let size := zendMmAlignedSize size
  if size ≤ arena.end_ - ptr then
    ({ s with mem := Function.update s.mem s.arena { arena with ptr := ptr + size } }, ptr)
  else
    let arenaSize := s.arenaSize size
    let newArena := emalloc arenaSize
    let ptr := newArena + headerSize
    (⟨newArena, Function.update s.mem newArena
      ⟨newArena + headerSize + size, newArena + arenaSize, s.arena⟩⟩, ptr)

/-- Bytes at `addr`. -/
structure Span where
  addr : BitVec 64
  size : BitVec 64

def Span.lo (a : Span) : Nat := a.addr.toNat

def Span.hi (a : Span) : Nat := a.addr.toNat + a.size.toNat

def Span.Apart (a b : Span) : Prop := a.hi ≤ b.lo ∨ b.hi ≤ a.lo

/-- The header of an arena. -/
def Span.header (a : Span) : Span := ⟨a.addr, headerSize⟩

structure State where
  arenas : Arenas
  /-- What `emalloc` gave, the newest first. -/
  given : List Span
  /-- What the callers got, the newest first. -/
  blocks : List Span

/-- `**arena_ptr` -/
def State.cur (s : State) : ZendArena := s.arenas.mem s.arenas.arena

/-- What `emalloc` may return. -/
structure Fresh (given : List Span) (a : Span) : Prop where
  ne : a.addr ≠ 0
  aligned : a.lo % 8 = 0
  lt : a.hi < 18446744073709551616
  apart : ∀ b ∈ given, a.Apart b

/-- `zend_arena_alloc(arena_ptr, size)`, where an `emalloc` returns `newArena`. -/
def State.alloc (s : State) (size newArena : BitVec 64) : State :=
  let r := zendArenaAlloc (fun _ => newArena) s.arenas size
  { arenas := r.1, blocks := ⟨r.2, size⟩ :: s.blocks,
    given := if zendMmAlignedSize size ≤ s.cur.end_ - s.cur.ptr then s.given
      else ⟨newArena, s.arenas.arenaSize (zendMmAlignedSize size)⟩ :: s.given }

/-- The new memory is fresh, if there is any. -/
def Allowed (s : State) (size newArena : BitVec 64) : Prop :=
  zendMmAlignedSize size ≤ s.cur.end_ - s.cur.ptr ∨
    Fresh s.given ⟨newArena, s.arenas.arenaSize (zendMmAlignedSize size)⟩

/-- What `zend_arena_create`, whose body is not in the notes, is taken to leave: an arena like those
that `zend_arena_alloc` makes, empty but for its header. -/
def created (a : Span) : State :=
  ⟨⟨a.addr, fun _ => ⟨a.addr + headerSize, a.addr + a.size, 0⟩⟩, [a], []⟩

/-- Runs of requests that are not too large. -/
def system : System State (BitVec 64 × BitVec 64) where
  init s := ∃ a, Fresh [] a ∧ headerSize ≤ a.size ∧ s = created a
  step s e s' := e.1.toNat < 18446744073709551585 ∧ Allowed s e.1 e.2 ∧ s' = s.alloc e.1 e.2

/-! ## One call -/

structure Inv (s : State) : Prop where
  chain : Chain 0 (fun a => (s.arenas.mem a).prev) s.arenas.arena (s.given.map Span.addr)
  given : ∀ a ∈ s.given, a.addr ≠ 0 ∧ a.lo % 8 = 0 ∧ a.hi < 18446744073709551616 ∧ 24 ≤ a.size.toNat
  apart : s.given.Pairwise Span.Apart
  current : ∃ a rest, s.given = a :: rest ∧ a.addr = s.arenas.arena ∧
    s.cur.end_.toNat = a.hi ∧ a.lo + 24 ≤ s.cur.ptr.toNat ∧ s.cur.ptr.toNat ≤ a.hi ∧
    s.cur.ptr.toNat % 8 = 0
  blocks : ∀ b ∈ s.blocks, b.lo % 8 = 0 ∧ ∃ a ∈ s.given, a.lo + 24 ≤ b.lo ∧ b.hi ≤ a.hi ∧
    (a.addr = s.arenas.arena → b.hi ≤ s.cur.ptr.toNat)
  blocksApart : s.blocks.Pairwise Span.Apart

theorem headerSize_toNat : headerSize.toNat = 24 := by decide

variable {s s' : State} {size newArena : BitVec 64}

theorem aligned_toNat (hsize : size.toNat < 18446744073709551585) :
    (zendMmAlignedSize size).toNat = (size.toNat + 7) / 8 * 8 := by
  rw [zendMmAlignedSize_toNat, Nat.mod_eq_of_lt (by omega)]

theorem Span.Apart.inside {a a' b b' : Span} (h : a.Apart a') (hlo : a.lo ≤ b.lo)
    (hhi : b.hi ≤ a.hi) (hlo' : a'.lo ≤ b'.lo) (hhi' : b'.hi ≤ a'.hi) : b.Apart b' := by
  unfold Span.Apart at *
  omega

theorem Span.Apart.addr_ne {a b : Span} (h : a.Apart b) (ha : 0 < a.size.toNat)
    (hb : 0 < b.size.toNat) : b.addr ≠ a.addr := by
  intro heq
  unfold Span.Apart Span.lo Span.hi at h
  rw [heq] at h
  omega

instance : Std.Symm Span.Apart := ⟨fun _ _ => Or.symm⟩

theorem alloc_rest_eq (h : zendMmAlignedSize size ≤ s.cur.end_ - s.cur.ptr) :
    s.alloc size newArena =
      ⟨⟨s.arenas.arena, Function.update s.arenas.mem s.arenas.arena
          { s.cur with ptr := s.cur.ptr + zendMmAlignedSize size }⟩, s.given,
        ⟨s.cur.ptr, size⟩ :: s.blocks⟩ := by
  unfold State.alloc zendArenaAlloc
  rw [if_pos h]
  exact congrArg (fun r : Arenas × BitVec 64 => (⟨r.1, s.given, ⟨r.2, size⟩ :: s.blocks⟩ : State))
    (if_pos h)

theorem alloc_new_eq (h : ¬ zendMmAlignedSize size ≤ s.cur.end_ - s.cur.ptr) :
    s.alloc size newArena =
      ⟨⟨newArena, Function.update s.arenas.mem newArena
          ⟨newArena + headerSize + zendMmAlignedSize size,
            newArena + s.arenas.arenaSize (zendMmAlignedSize size), s.arenas.arena⟩⟩,
        ⟨newArena, s.arenas.arenaSize (zendMmAlignedSize size)⟩ :: s.given,
        ⟨newArena + headerSize, size⟩ :: s.blocks⟩ := by
  unfold State.alloc zendArenaAlloc
  rw [if_neg h]
  exact congrArg (fun r : Arenas × BitVec 64 => (⟨r.1,
    ⟨newArena, s.arenas.arenaSize (zendMmAlignedSize size)⟩ :: s.given,
    ⟨r.2, size⟩ :: s.blocks⟩ : State)) (if_neg h)

/-- The rest of the arena is long enough. -/
theorem Inv.alloc_rest (h : Inv s) (hsize : size.toNat < 18446744073709551585)
    (hfits : zendMmAlignedSize size ≤ s.cur.end_ - s.cur.ptr) :
    Inv (s.alloc size newArena) := by
  obtain ⟨hchain, hgiven, hapart, ⟨a, rest, hrest, harena, hend, hlo, hhi, hmod⟩, hblocks, hb⟩ := h
  have hal := aligned_toNat hsize
  have haa : a ∈ s.given := by
    rw [hrest]
    exact List.mem_cons_self
  obtain ⟨-, -, hlt, -⟩ := hgiven a haa
  have hle : (size.toNat + 7) / 8 * 8 ≤ a.hi - s.cur.ptr.toNat := by
    rw [BitVec.le_def, BitVec.toNat_sub_of_le (by rw [BitVec.le_def]; omega), hend, hal] at hfits
    exact hfits
  -- where the next block begins
  have hptr : (s.cur.ptr + zendMmAlignedSize size).toNat =
      s.cur.ptr.toNat + (size.toNat + 7) / 8 * 8 := by
    rw [BitVec.toNat_add, hal, Nat.mod_eq_of_lt (by omega)]
  rw [alloc_rest_eq hfits]
  generalize s.cur.ptr + zendMmAlignedSize size = ptr at hptr
  have hcur : State.cur ⟨⟨s.arenas.arena, Function.update s.arenas.mem s.arenas.arena
      { s.cur with ptr := ptr }⟩, s.given, ⟨s.cur.ptr, size⟩ :: s.blocks⟩ =
      { s.cur with ptr := ptr } := Function.update_self ..
  have hnew : a.lo + 24 ≤ (Span.mk s.cur.ptr size).lo ∧
      (Span.mk s.cur.ptr size).hi ≤ ptr.toNat := by
    unfold Span.lo Span.hi
    unfold Span.lo at hlo
    simp only
    omega
  refine ⟨?_, hgiven, hapart, ⟨a, rest, hrest, harena, ?_⟩, ?_, ?_⟩
  · apply hchain.frame
    intro b _
    by_cases hba : b = s.arenas.arena
    · subst hba
      simp [State.cur]
    · simp [hba]
  · rw [hcur]
    exact ⟨hend, by simp only; omega, by simp only; omega, by simp only; omega⟩
  · intro b hbm
    rw [hcur]
    rcases List.mem_cons.mp hbm with rfl | hbm
    · exact ⟨hmod, a, haa, hnew.1, by omega, fun _ => hnew.2⟩
    · obtain ⟨hbmod, a', ha', hb1, hb2, hb3⟩ := hblocks b hbm
      refine ⟨hbmod, a', ha', hb1, hb2, fun hcur' => ?_⟩
      have := hb3 hcur'
      simp only
      omega
  · refine List.pairwise_cons.mpr ⟨fun b hbm => ?_, hb⟩
    obtain ⟨-, a', ha', hb1, hb2, hb3⟩ := hblocks b hbm
    by_cases hsame : a'.addr = s.arenas.arena
    · exact Or.inr (hb3 hsame)
    · rw [hrest] at ha' hapart
      rcases List.mem_cons.mp ha' with rfl | ha'
      · exact absurd harena hsame
      · have := (List.pairwise_cons.mp hapart).1 a' ha'
        exact this.inside (by omega) (by omega) (by omega) hb2

theorem headerSize_add (size : BitVec 64) (h : size.toNat < 18446744073709551592) :
    (size + headerSize).toNat = size.toNat + 24 := by
  rw [BitVec.toNat_add, headerSize_toNat, Nat.mod_eq_of_lt (by omega)]

/-- A new arena has room for its header and the block. -/
theorem le_arenaSize (h : size.toNat < 18446744073709551592) :
    size.toNat + 24 ≤ (s.arenas.arenaSize size).toNat := by
  have hadd := headerSize_add size h
  unfold Arenas.arenaSize
  split
  · exact hadd.ge
  · next hle =>
    rw [gt_iff_lt, BitVec.lt_def, hadd] at hle
    omega

theorem prev_update (mem : BitVec 64 → ZendArena) (x : BitVec 64) (v : ZendArena) :
    (fun a => (Function.update mem x v a).prev) =
      Function.update (fun a => (mem a).prev) x v.prev := by
  funext a
  by_cases ha : a = x
  · subst ha
    simp
  · simp [ha]

/-- A new arena. -/
theorem Inv.alloc_new (h : Inv s) (hsize : size.toNat < 18446744073709551585)
    (hfits : ¬ zendMmAlignedSize size ≤ s.cur.end_ - s.cur.ptr)
    (hfresh : Fresh s.given ⟨newArena, s.arenas.arenaSize (zendMmAlignedSize size)⟩) :
    Inv (s.alloc size newArena) := by
  obtain ⟨hchain, hgiven, hapart, -, hblocks, hb⟩ := h
  obtain ⟨hne, hmod, hlt, hnew⟩ := hfresh
  have hal := aligned_toNat hsize
  have hroom := le_arenaSize (s := s) (show (zendMmAlignedSize size).toNat < _ by omega)
  rw [alloc_new_eq hfits]
  generalize zendMmAlignedSize size = al at hal hroom hlt hnew hmod
  generalize s.arenas.arenaSize al = n at hroom hlt hnew hmod
  have hhi : (Span.mk newArena n).hi = newArena.toNat + n.toNat := rfl
  have hlo : (Span.mk newArena n).lo = newArena.toNat := rfl
  have hfirst : (newArena + headerSize).toNat = newArena.toNat + 24 := headerSize_add _ (by omega)
  have hptr : (newArena + headerSize + al).toNat = newArena.toNat + 24 + al.toNat := by
    rw [BitVec.toNat_add, hfirst, Nat.mod_eq_of_lt (by omega)]
  have hend : (newArena + n).toNat = newArena.toNat + n.toNat := by
    rw [BitVec.toNat_add, Nat.mod_eq_of_lt (by omega)]
  have hnotin : ∀ a ∈ s.given, a.addr ≠ newArena := by
    intro a ha
    have h24 := (hgiven a ha).2.2.2
    exact (hnew a ha).addr_ne (show 0 < n.toNat by omega) (by omega)
  have hblo : (Span.mk (newArena + headerSize) size).lo = newArena.toNat + 24 := hfirst
  have hbhi : (Span.mk (newArena + headerSize) size).hi = newArena.toNat + 24 + size.toNat :=
    congrArg (· + size.toNat) hfirst
  have hcur : State.cur ⟨⟨newArena, Function.update s.arenas.mem newArena
      ⟨newArena + headerSize + al, newArena + n, s.arenas.arena⟩⟩, ⟨newArena, n⟩ :: s.given,
      ⟨newArena + headerSize, size⟩ :: s.blocks⟩ =
      ⟨newArena + headerSize + al, newArena + n, s.arenas.arena⟩ := Function.update_self ..
  refine ⟨?_, ?_, List.pairwise_cons.mpr ⟨hnew, hapart⟩,
    ⟨⟨newArena, n⟩, s.given, rfl, rfl, ?_⟩, ?_, ?_⟩
  · have hpush := hchain.push hne fun hm => by
      obtain ⟨a, ha, heq⟩ := List.mem_map.mp hm
      exact hnotin a ha heq
    show Chain 0 (fun a => (Function.update s.arenas.mem newArena _ a).prev) newArena _
    rw [prev_update]
    exact hpush
  · rw [List.forall_mem_cons]
    exact ⟨⟨hne, hmod, hlt, by show 24 ≤ n.toNat; omega⟩, hgiven⟩
  · rw [hcur]
    refine ⟨hend, ?_, ?_, ?_⟩ <;> simp only [hptr, hlo, hhi] <;> omega
  · intro b hbm
    rw [hcur]
    rcases List.mem_cons.mp hbm with rfl | hbm
    · refine ⟨by omega, _, List.mem_cons_self, ?_, ?_, fun _ => ?_⟩ <;>
        simp only [hptr, hlo, hhi, hblo, hbhi] <;> omega
    · obtain ⟨hbmod, a, ha, hb1, hb2, -⟩ := hblocks b hbm
      exact ⟨hbmod, a, List.mem_cons_of_mem _ ha, hb1, hb2,
        fun heq => absurd heq (hnotin a ha)⟩
  · refine List.pairwise_cons.mpr ⟨fun b hbm => ?_, hb⟩
    obtain ⟨-, a, ha, hb1, hb2, -⟩ := hblocks b hbm
    exact (hnew a ha).inside (by omega) (by omega) (by omega) hb2

theorem Inv.alloc (h : Inv s) (hsize : size.toNat < 18446744073709551585)
    (ha : Allowed s size newArena) : Inv (s.alloc size newArena) := by
  by_cases hfits : zendMmAlignedSize size ≤ s.cur.end_ - s.cur.ptr
  · exact h.alloc_rest hsize hfits
  · exact h.alloc_new hsize hfits (ha.resolve_left hfits)

theorem inv_created {a : Span} (ha : Fresh [] a) (hsize : headerSize ≤ a.size) :
    Inv (created a) := by
  obtain ⟨hne, hmod, hlt, -⟩ := ha
  rw [BitVec.le_def, headerSize_toNat] at hsize
  have hhi : a.hi = a.addr.toNat + a.size.toNat := rfl
  have hlo : a.lo = a.addr.toNat := rfl
  have hptr : (a.addr + headerSize).toNat = a.addr.toNat + 24 := headerSize_add _ (by omega)
  have hend : (a.addr + a.size).toNat = a.addr.toNat + a.size.toNat := by
    rw [BitVec.toNat_add, Nat.mod_eq_of_lt (by omega)]
  refine ⟨⟨rfl, hne, rfl⟩, ?_, List.pairwise_singleton _ _, ⟨a, [], rfl, rfl, hend, ?_⟩, nofun,
    .nil⟩
  · intro b hb
    obtain rfl := List.mem_singleton.mp hb
    exact ⟨hne, hmod, hlt, hsize⟩
  · show _ ≤ (a.addr + headerSize).toNat ∧ (a.addr + headerSize).toNat ≤ _ ∧
      (a.addr + headerSize).toNat % 8 = 0
    omega

theorem inv_reachable (h : system.Reachable s) : Inv s := by
  apply h.invariant
  · rintro s ⟨a, ha, hsize, rfl⟩
    exact inv_created ha hsize
  · rintro s e s' - hi ⟨hsize, ha, rfl⟩
    exact hi.alloc hsize ha

/-! ## Main results -/

/-- No byte is in two blocks, or in a block and the header of an arena, and each block lies in
memory that `emalloc` gave. -/
theorem run_apart {s : State} (h : system.Reachable s) :
    s.blocks.Pairwise Span.Apart ∧
    ∀ b ∈ s.blocks, b.lo % 8 = 0 ∧ (∃ a ∈ s.given, a.lo ≤ b.lo ∧ b.hi ≤ a.hi) ∧
      ∀ a ∈ s.given, b.Apart a.header := by
  have hi := inv_reachable h
  refine ⟨hi.blocksApart, fun b hb => ?_⟩
  obtain ⟨hmod, a', ha', hlo, hhi, -⟩ := hi.blocks b hb
  refine ⟨hmod, ⟨a', ha', by omega, hhi⟩, fun a ha => ?_⟩
  have hheader : a.header.hi = a.lo + 24 := congrArg (a.addr.toNat + ·) headerSize_toNat
  have hfits : a.header.hi ≤ a.hi := by
    rw [hheader]
    exact Nat.add_le_add_left (hi.given a ha).2.2.2 a.lo
  by_cases haa : a = a'
  · subst haa
    exact Or.inr (by omega)
  · have happ : a'.Apart a := hi.apart.forall ha' ha (Ne.symm haa)
    exact happ.inside (by omega) hhi (Nat.le_refl a.lo) hfits

/-- The second request does not fit behind the first one. -/
def twoRequests : State := ((created ⟨4096, 100⟩).alloc 40 0).alloc 50 8192

theorem reachable_oneRequest : system.Reachable ((created ⟨4096, 100⟩).alloc 40 0) := by
  have hfresh : Fresh [] ⟨4096, 100⟩ := ⟨by decide, rfl, by decide, nofun⟩
  have hinit : system.Reachable (created ⟨4096, 100⟩) := .init ⟨_, hfresh, by decide, rfl⟩
  exact hinit.next (e := (40, 0)) ⟨by decide, Or.inl (by decide), rfl⟩

theorem allowed_twoRequests : Allowed ((created ⟨4096, 100⟩).alloc 40 0) 50 8192 := by
  refine Or.inr ⟨by decide, rfl, by decide, fun b hb => ?_⟩
  obtain rfl : b = ⟨4096, 100⟩ := List.mem_singleton.mp hb
  exact Or.inr (by decide)

theorem reachable_twoRequests : system.Reachable twoRequests :=
  reachable_oneRequest.next (e := (50, 8192)) ⟨by decide, allowed_twoRequests, rfl⟩

theorem run_apart_twoRequests : system.Reachable twoRequests ∧ twoRequests.given.length = 2 ∧
    twoRequests.blocks.Pairwise Span.Apart ∧
    ∀ b ∈ twoRequests.blocks, b.lo % 8 = 0 ∧
      (∃ a ∈ twoRequests.given, a.lo ≤ b.lo ∧ b.hi ≤ a.hi) ∧
      ∀ a ∈ twoRequests.given, b.Apart a.header :=
  ⟨reachable_twoRequests, rfl, run_apart reachable_twoRequests⟩

/-- From the arena of today one comes to all that `emalloc` gave, once each, and to `NULL`. -/
theorem run_arenas {s : State} (h : system.Reachable s) :
    Chain 0 (fun a => (s.arenas.mem a).prev) s.arenas.arena (s.given.map Span.addr) ∧
    (s.given.map Span.addr).Nodup ∧ s.given.Pairwise Span.Apart := by
  have hi := inv_reachable h
  refine ⟨hi.chain, List.pairwise_map.mpr (hi.apart.imp_of_mem ?_), hi.apart⟩
  intro a b ha hb hab heq
  have hlo : a.lo = b.lo := congrArg BitVec.toNat heq
  have hasize := (hi.given a ha).2.2.2
  have hbsize := (hi.given b hb).2.2.2
  have hahi : a.hi = a.lo + a.size.toNat := rfl
  have hbhi : b.hi = b.lo + b.size.toNat := rfl
  rcases hab with hab | hab <;> omega

theorem run_arenas_twoRequests : system.Reachable twoRequests ∧
    Chain 0 (fun a => (twoRequests.arenas.mem a).prev) twoRequests.arenas.arena
      (twoRequests.given.map Span.addr) ∧
    (twoRequests.given.map Span.addr).Nodup ∧ twoRequests.given.Pairwise Span.Apart :=
  ⟨reachable_twoRequests, run_arenas reachable_twoRequests⟩

/-- A block of 2^64 - 31 bytes or more has no memory behind it. -/
theorem alloc_inside_iff {s : State} {size newArena : BitVec 64} (h : system.Reachable s)
    (ha : Allowed s size newArena) :
    (∃ a ∈ (s.alloc size newArena).given,
      a.lo + 24 ≤ (zendArenaAlloc (fun _ => newArena) s.arenas size).2.toNat ∧
      (zendArenaAlloc (fun _ => newArena) s.arenas size).2.toNat + size.toNat ≤ a.hi) ↔
    size.toNat < 18446744073709551585 := by
  have hi := inv_reachable h
  constructor
  · rintro ⟨a, hmem, hlo, hhi⟩
    have hspan : a.addr ≠ 0 ∧ a.lo % 8 = 0 ∧ a.hi < 18446744073709551616 := by
      by_cases hfits : zendMmAlignedSize size ≤ s.cur.end_ - s.cur.ptr
      · rw [alloc_rest_eq hfits] at hmem
        obtain ⟨hne, hmod, hlt, -⟩ := hi.given a hmem
        exact ⟨hne, hmod, hlt⟩
      · rw [alloc_new_eq hfits] at hmem
        rcases List.mem_cons.mp hmem with rfl | hmem
        · obtain ⟨hne, hmod, hlt, -⟩ := ha.resolve_left hfits
          exact ⟨hne, hmod, hlt⟩
        · obtain ⟨hne, hmod, hlt, -⟩ := hi.given a hmem
          exact ⟨hne, hmod, hlt⟩
    have hpos : a.lo ≠ 0 := fun h0 => hspan.1 (BitVec.eq_of_toNat_eq h0)
    omega
  · intro hsize
    obtain ⟨-, a, hmem, hlo, hhi, -⟩ := (hi.alloc hsize ha).blocks _ List.mem_cons_self
    exact ⟨a, hmem, hlo, hhi⟩

end StudyDoc.Arena
