import StudyDoc.Lib.FreeList
import StudyDoc.Zend.Pages

/-!
# `zend内存分配.md`: `zend_mm_alloc_small`

A run of pages is cut into the elements of a bin; the first one is returned, and each of the others
holds the address of the next one.  Of all cells of memory that have been cut,

    the blocks that callers have  ++  the cells on the free lists  ~  all cells       (Held.cells)

so that no cell is lost or is given twice, whatever the callers write into their own blocks
(run_blocks).  A call comes to no run that is not cut, and it returns `NULL` only if its list is
empty and no chunk has room for the run (run_allocSmall).
-/

namespace StudyDoc.Zend

open BestFit FreeList Transition

/-! ## Algorithm -/

def binElements (bin : Nat) : Nat := (zendMmBinsInfo[bin]?.map Bin.count).getD 0

def binPages (bin : Nat) : Nat := (zendMmBinsInfo[bin]?.map Bin.pages).getD 0

def zendMmChunkSize : Nat := 2097152

def zendMmPageSize : Nat := 4096

structure SmallHeap where
  heap : Heap
  freeSlot : Nat → Nat
  mem : Nat → Nat

/-- A write through the pointer to the chunk at `base`. -/
def Heap.setMap (heap : Heap) (base : Nat) (f : (Nat → Nat) → Nat → Nat) : Heap :=
  let set (chunk : ZendMmChunk) : ZendMmChunk :=
    if chunk.addr = base then { chunk with map := f chunk.map } else chunk
  ⟨set heap.mainChunk, heap.chunks.map set⟩

/-- `chunk->map[page_num] = ZEND_MM_SRUN(bin_num);` and the pages behind it -/
def markSrun (header : Header) (binNum pageNum : Nat) (map : Nat → Nat) : Nat → Nat :=
  (List.range' 1 (binPages binNum - 1)).foldl
    (fun map i => Function.update map (pageNum + i) (header.nrun binNum i))
    (Function.update map pageNum (header.srun binNum))

/-- "create a linked list of elements from 1 to last" -/
def linkElements (size last : Nat) : Nat → (Nat → Nat) → Nat → Outcome (Nat → Nat)
  | 0, _, _ => .running
  | fuel + 1, mem, p =>
    let mem := Function.update mem p (p + size)
    let p := p + size
    if p ≠ last then linkElements size last fuel mem p
    -- terminate list using NULL
    else .returns (Function.update mem p 0)

def zendMmAllocSmallSlow (header : Header) (fresh : Option Nat) (binNum : Nat) (s : SmallHeap) :
    Outcome (SmallHeap × Option Nat) := do
  match ← zendMmAllocPages header fresh (binPages binNum) s.heap with
  | (heap, none) => return (⟨heap, s.freeSlot, s.mem⟩, none)
  | (heap, some (addr, page)) =>
    let bin := addr + zendMmPageSize * page
    let chunk := bin / zendMmChunkSize * zendMmChunkSize
    let pageNum := bin % zendMmChunkSize / zendMmPageSize
    if chunk ∈ heap.mainChunk.addr :: heap.chunks.map ZendMmChunk.addr then
      let last := bin + binDataSize binNum * (binElements binNum - 1)
      let p := bin + binDataSize binNum
      let mem ← linkElements (binDataSize binNum) last (binElements binNum) s.mem p
      return (⟨heap.setMap chunk (markSrun header binNum pageNum),
        Function.update s.freeSlot binNum p, mem⟩, some bin)
    else .undefined

def zendMmAllocSmall (header : Header) (fresh : Option Nat) (binNum : Nat) (s : SmallHeap) :
    Outcome (SmallHeap × Option Nat) :=
  if s.freeSlot binNum ≠ 0 then
    let p := s.freeSlot binNum
    .returns (⟨s.heap, Function.update s.freeSlot binNum (s.mem p), s.mem⟩, some p)
  else zendMmAllocSmallSlow header fresh binNum s

/-! ## The cells of a run -/

theorem bin_row : ∀ b < 30, binDataSize b % 8 = 0 ∧ 0 < binDataSize b ∧ 3 ≤ binElements b ∧
    0 < binPages b ∧ binPages b < 512 ∧ binDataSize b * binElements b ≤ 4096 * binPages b := by
  decide

structure Cell where
  addr : Nat
  size : Nat

def Cell.Apart (c d : Cell) : Prop := c.addr + c.size ≤ d.addr ∨ d.addr + d.size ≤ c.addr

/-- A run of pages: of a bin, or of a caller. -/
structure Given where
  run : PageRun
  bin : Option Nat

def PageRun.base (run : PageRun) : Nat := run.addr + zendMmPageSize * run.pageNum

def Given.cells (g : Given) : List Cell :=
  match g.bin with
  | none => [⟨g.run.base, zendMmPageSize * g.run.pagesCount⟩]
  | some b => (List.range (binElements b)).map fun k =>
      ⟨g.run.base + binDataSize b * k, binDataSize b⟩

/-- What the `map` says of a page of the run. -/
def Given.info (header : Header) (g : Given) (i : Nat) : Option Nat :=
  match g.bin with
  | none => if i = 0 then some (header.lrun g.run.pagesCount) else none
  | some b => if i = 0 then some (header.srun b)
    else if i < binPages b then some (header.nrun b i) else none

/-- The run is in one chunk, and has the pages of its bin. -/
structure Given.Ok (g : Given) : Prop where
  aligned : g.run.addr % zendMmChunkSize = 0
  pos : 0 < g.run.pageNum
  le : g.run.pageNum + g.run.pagesCount ≤ zendMmPages
  count : 0 < g.run.pagesCount
  bin : ∀ b, g.bin = some b → b < 30 ∧ g.run.pagesCount = binPages b

variable {g g' : Given} {c d : Cell}

theorem Cell.Apart.symm (h : c.Apart d) : d.Apart c := Or.symm h

/-- The chunk and the page of an address. -/
theorem Given.Ok.page (h : g.Ok) {x : Nat} (h1 : g.run.base ≤ x)
    (h2 : x < g.run.base + 4096 * g.run.pagesCount) :
    g.run.has (x / 2097152 * 2097152) (x % 2097152 / 4096) := by
  have haligned : g.run.addr % 2097152 = 0 := h.aligned
  have hle : g.run.pageNum + g.run.pagesCount ≤ 512 := h.le
  have hbase : g.run.base = g.run.addr + 4096 * g.run.pageNum := rfl
  exact ⟨by omega, by omega, by omega⟩

theorem Given.Ok.mem_cells (h : g.Ok) (hc : c ∈ g.cells) : 0 < c.size ∧ c.addr % 8 = 0 ∧
    g.run.base ≤ c.addr ∧ c.addr + c.size ≤ g.run.base + 4096 * g.run.pagesCount := by
  have haligned : g.run.addr % 2097152 = 0 := h.aligned
  have hbase : g.run.base = g.run.addr + 4096 * g.run.pageNum := rfl
  have hcount := h.count
  unfold Given.cells at hc
  cases hb : g.bin with
  | none =>
    rw [hb] at hc
    rw [List.mem_singleton.mp hc]
    show 0 < 4096 * g.run.pagesCount ∧ g.run.base % 8 = 0 ∧ g.run.base ≤ g.run.base ∧
      g.run.base + 4096 * g.run.pagesCount ≤ _
    omega
  | some b =>
    rw [hb] at hc
    obtain ⟨k, hk, rfl⟩ := List.mem_map.mp hc
    obtain ⟨hb30, hpages⟩ := h.bin b hb
    obtain ⟨hmod, hpos, -, -, -, hle⟩ := bin_row b hb30
    have hk : k < binElements b := List.mem_range.mp hk
    have hkth : binDataSize b * (k + 1) ≤ binDataSize b * binElements b :=
      Nat.mul_le_mul_left _ hk
    have hmul : binDataSize b * (k + 1) = binDataSize b * k + binDataSize b := Nat.mul_succ _ _
    have hmod' : binDataSize b * k % 8 = 0 := by
      rw [Nat.mul_mod, hmod, Nat.zero_mul]
    show 0 < binDataSize b ∧ (g.run.base + binDataSize b * k) % 8 = 0 ∧
      g.run.base ≤ g.run.base + binDataSize b * k ∧
      g.run.base + binDataSize b * k + binDataSize b ≤ _
    omega

theorem pairwise_cells (g : Given) : g.cells.Pairwise Cell.Apart := by
  unfold Given.cells
  cases hb : g.bin with
  | none => exact List.pairwise_singleton _ _
  | some b =>
    rw [List.pairwise_map]
    refine List.pairwise_lt_range.imp fun {k k'} hlt => Or.inl ?_
    have hle : binDataSize b * (k + 1) ≤ binDataSize b * k' := Nat.mul_le_mul_left _ hlt
    have hmul : binDataSize b * (k + 1) = binDataSize b * k + binDataSize b := Nat.mul_succ _ _
    show g.run.base + binDataSize b * k + binDataSize b ≤ g.run.base + binDataSize b * k'
    omega

/-- Cells in runs with no page in common: their first bytes would be in one page. -/
theorem Given.Ok.apart (h : g.Ok) (h' : g'.Ok)
    (hdis : ∀ a q, g.run.has a q → ¬ g'.run.has a q) (hc : c ∈ g.cells) (hd : d ∈ g'.cells) :
    c.Apart d := by
  obtain ⟨hcp, -, hc1, hc2⟩ := h.mem_cells hc
  obtain ⟨hdp, -, hd1, hd2⟩ := h'.mem_cells hd
  by_contra hno
  have hno : ¬ (c.addr + c.size ≤ d.addr ∨ d.addr + d.size ≤ c.addr) := hno
  rcases Nat.le_total c.addr d.addr with hle | hle
  · exact hdis _ _ (h.page (x := d.addr) (by omega) (by omega)) (h'.page (by omega) (by omega))
  · exact hdis _ _ (h.page (x := c.addr) (by omega) (by omega)) (h'.page (by omega) (by omega))

theorem pairwise_allCells {given : List Given} (hok : ∀ g ∈ given, g.Ok)
    (hdis : (given.map Given.run).Pairwise fun r r' => ∀ a q, r.has a q → ¬ r'.has a q) :
    (given.flatMap Given.cells).Pairwise Cell.Apart := by
  rw [List.pairwise_flatMap]
  refine ⟨fun g _ => pairwise_cells g, ?_⟩
  rw [List.pairwise_map] at hdis
  refine hdis.imp_of_mem fun hg hg' hd c hc d hd' => ?_
  exact (hok _ hg).apart (hok _ hg') hd hc hd'

/-! ## The loop -/

/-- `k + 1` elements get the address of the next one: the induction is on `k`. -/
theorem linkElements_spec {size : Nat} (hsize : 0 < size) (k : Nat) : ∀ fuel mem p, k < fuel →
    ∃ mem', linkElements size (p + size * (k + 1)) fuel mem p = .returns mem' ∧
      (∀ j ≤ k, mem' (p + size * j) = p + size * (j + 1)) ∧ mem' (p + size * (k + 1)) = 0 ∧
      ∀ a, (∀ j ≤ k + 1, a ≠ p + size * j) → mem' a = mem a := by
  induction k with
  | zero =>
    intro fuel mem p hfuel
    obtain ⟨fuel, rfl⟩ : ∃ n, fuel = n + 1 := ⟨fuel - 1, by omega⟩
    unfold linkElements
    rw [Nat.mul_one, if_neg (fun h => h rfl)]
    refine ⟨_, rfl, fun j hj => ?_, Function.update_self _ _ _, fun a ha => ?_⟩
    · obtain rfl : j = 0 := by omega
      rw [Nat.mul_zero, Nat.add_zero, Function.update_of_ne (by omega), Function.update_self]
      omega
    · have h0 := ha 0 (by omega)
      have h1 := ha 1 (by omega)
      rw [Function.update_of_ne (by omega), Function.update_of_ne (by omega)]
  | succ k ih =>
    intro fuel mem p hfuel
    obtain ⟨fuel, rfl⟩ : ∃ n, fuel = n + 1 := ⟨fuel - 1, by omega⟩
    have hnext : ∀ j, p + size + size * j = p + size * (j + 1) := by
      intro j
      rw [Nat.mul_succ]
      omega
    obtain ⟨mem', heq, hlink, hend, hframe⟩ :=
      ih fuel (Function.update mem p (p + size)) (p + size) (by omega)
    rw [hnext] at heq hend
    have hne : p + size ≠ p + size * (k + 1 + 1) := by
      rw [← hnext, Nat.mul_succ]
      omega
    unfold linkElements
    refine ⟨mem', by rw [if_pos hne]; exact heq, fun j hj => ?_, hend, fun a ha => ?_⟩
    · cases j with
      | zero =>
        rw [hframe _ fun j _ => by omega, Nat.mul_zero, Nat.add_zero, Function.update_self]
        omega
      | succ j =>
        have h := hlink j (by omega)
        rw [hnext, hnext] at h
        exact h
    · rw [hframe a fun j hj => by rw [hnext]; exact ha (j + 1) (by omega)]
      have h0 := ha 0 (by omega)
      rw [Function.update_of_ne (by omega)]

/-- The free list of a bin: all but the first one of `k + 3` elements. -/
theorem linkElements_chain {size : Nat} (hsize : 0 < size) (k : Nat) (mem : Nat → Nat)
    (base : Nat) :
    ∃ mem', linkElements size (base + size * (k + 2)) (k + 3) mem (base + size) = .returns mem' ∧
      Chain 0 mem' (base + size) ((List.range (k + 2)).map fun j => base + size * (j + 1)) ∧
      ∀ a, (∀ j < k + 2, a ≠ base + size * (j + 1)) → mem' a = mem a := by
  have hnode : ∀ j, base + size + size * j = base + size * (j + 1) := by
    intro j
    rw [Nat.mul_succ]
    omega
  obtain ⟨mem', heq, hlink, hend, hframe⟩ := linkElements_spec hsize k (k + 3) mem (base + size)
    (by omega)
  simp only [hnode] at heq hlink hend hframe
  have hchain : Chain 0 mem' (base + size * (0 + 1))
      ((List.range (k + 2)).map fun j => base + size * (j + 1)) :=
    Chain.of_links (fun j => base + size * (j + 1)) (k + 1) (fun j _ => ?_)
      (fun j hj => hlink j (by omega)) hend
  · rw [Nat.zero_add, Nat.mul_one] at hchain
    exact ⟨mem', heq, hchain, fun a ha => hframe a fun j hj => ha j (by omega)⟩
  · have : size * 1 ≤ size * (j + 1) := Nat.mul_le_mul_left _ (by omega)
    omega

/-! ## The map of a chunk -/

variable {header : Header} {heap heap' : Heap} {base : Nat} {f : (Nat → Nat) → Nat → Nat}

/-- The chunks after a write to the `map` of one of them. -/
def setOne (base : Nat) (f : (Nat → Nat) → Nat → Nat) (chunk : ZendMmChunk) : ZendMmChunk :=
  if chunk.addr = base then { chunk with map := f chunk.map } else chunk

theorem list_setMap : (heap.setMap base f).list = heap.list.map (setOne base f) := rfl

theorem setOne_eq (base : Nat) (f : (Nat → Nat) → Nat → Nat) (chunk : ZendMmChunk) :
    (setOne base f chunk).addr = chunk.addr ∧ (setOne base f chunk).freeMap = chunk.freeMap ∧
      (setOne base f chunk).freeTail = chunk.freeTail ∧
      (setOne base f chunk).freePages = chunk.freePages := by
  unfold setOne
  split
  · exact ⟨rfl, rfl, rfl, rfl⟩
  · exact ⟨rfl, rfl, rfl, rfl⟩

theorem addrs_setMap : addrs (heap.setMap base f).list = addrs heap.list := by
  rw [list_setMap]
  unfold addrs
  rw [List.map_map]
  exact List.map_congr_left fun x _ => (setOne_eq base f x).1

theorem usedIn_setMap (a q : Nat) :
    usedIn (heap.setMap base f).list a q ↔ usedIn heap.list a q := by
  rw [list_setMap]
  constructor
  · rintro ⟨x, hx, ha, hq⟩
    obtain ⟨y, hy, rfl⟩ := List.mem_map.mp hx
    obtain ⟨haddr, hmap, -, -⟩ := setOne_eq base f y
    exact ⟨y, hy, haddr.symm.trans ha, hmap ▸ hq⟩
  · rintro ⟨x, hx, ha, hq⟩
    obtain ⟨haddr, hmap, -, -⟩ := setOne_eq base f x
    exact ⟨_, List.mem_map_of_mem hx, haddr.trans ha, hmap.symm ▸ hq⟩

theorem PagesOk.setMap {runs : List PageRun} (h : PagesOk heap runs) (base : Nat)
    (f : (Nat → Nat) → Nat → Nat) : PagesOk (heap.setMap base f) runs := by
  refine ⟨⟨fun x hx => ?_, ?_⟩, h.disjoint, h.inside, fun a q => ?_⟩
  · rw [list_setMap] at hx
    obtain ⟨y, hy, rfl⟩ := List.mem_map.mp hx
    obtain ⟨-, hmap, htail, hfree⟩ := setOne_eq base f y
    have hw := h.ok.wf y hy
    constructor
    · rw [hmap]
      exact hw.length
    · rw [hmap]
      exact hw.zero
    · rw [hmap, htail]
      exact hw.tail
    · rw [hmap, hfree]
      exact hw.freePages
  · rw [addrs_setMap]
    exact h.ok.nodup
  · rw [usedIn_setMap, addrs_setMap]
    exact h.used a q

theorem mapIn_setMap_of_ne {a q info : Nat} (h : mapIn heap.list a q info)
    (hf : a ≠ base ∨ ∀ m, f m q = m q) : mapIn (heap.setMap base f).list a q info := by
  obtain ⟨x, hx, ha, hq⟩ := h
  rw [list_setMap]
  refine ⟨_, List.mem_map_of_mem hx, (setOne_eq base f x).1.trans ha, ?_⟩
  unfold setOne
  by_cases hb : x.addr = base
  · rw [if_pos hb]
    rcases hf with hne | hf
    · exact absurd (ha.symm.trans hb) hne
    · exact (hf x.map).trans hq
  · rw [if_neg hb]
    exact hq

theorem mapIn_setMap_self {q info : Nat} (ha : base ∈ addrs heap.list) (hf : ∀ m, f m q = info) :
    mapIn (heap.setMap base f).list base q info := by
  obtain ⟨x, hx, hb⟩ := List.mem_map.mp ha
  rw [list_setMap]
  refine ⟨_, List.mem_map_of_mem hx, (setOne_eq base f x).1.trans hb, ?_⟩
  unfold setOne
  rw [if_pos hb]
  exact hf x.map

theorem foldl_nrun (header : Header) (b p : Nat) (n : Nat) (m : Nat → Nat) (q : Nat) :
    (List.range' 1 n).foldl (fun map i => Function.update map (p + i) (header.nrun b i)) m q =
      if p < q ∧ q ≤ p + n then header.nrun b (q - p) else m q := by
  induction n with
  | zero => rw [if_neg (by omega)]; rfl
  | succ n ih =>
    rw [List.range'_1_concat, List.foldl_append, List.foldl_cons, List.foldl_nil]
    by_cases hq : q = p + (1 + n)
    · rw [hq, Function.update_self, if_pos (by omega), Nat.add_sub_cancel_left]
    · rw [Function.update_of_ne hq, ih]
      by_cases hin : p < q ∧ q ≤ p + n
      · rw [if_pos hin, if_pos (by omega)]
      · rw [if_neg hin, if_neg (by omega)]

/-- The words of the run, and no others. -/
theorem markSrun_eq (header : Header) {b : Nat} (hb : 0 < binPages b) (p : Nat) (m : Nat → Nat)
    (q : Nat) : markSrun header b p m q =
      if q = p then header.srun b
      else if p < q ∧ q < p + binPages b then header.nrun b (q - p) else m q := by
  unfold markSrun
  rw [foldl_nrun]
  by_cases hq : q = p
  · rw [if_neg (by omega), if_pos hq, hq, Function.update_self]
  · rw [if_neg hq, Function.update_of_ne hq]
    by_cases hin : p < q ∧ q < p + binPages b
    · rw [if_pos hin, if_pos (by omega)]
    · rw [if_neg hin, if_neg (by omega)]

/-! ## What is cut, and what is held -/

/-- The runs of the heap: their pages, and what the maps say of them. -/
structure Laid (header : Header) (heap : Heap) (given : List Given) : Prop where
  pages : PagesOk heap (given.map Given.run)
  aligned : ∀ a ∈ addrs heap.list, a % zendMmChunkSize = 0
  bin : ∀ g ∈ given, ∀ b, g.bin = some b → b < 30 ∧ g.run.pagesCount = binPages b
  map : ∀ g ∈ given, ∀ i info, g.info header i = some info →
    mapIn heap.list g.run.addr (g.run.pageNum + i) info

def freeCells (free : Nat → List Nat) : List Cell :=
  (List.range 30).flatMap fun b => (free b).map fun a => ⟨a, binDataSize b⟩

/-- Every cell is a block of a caller or on the list of its bin, and none is both. -/
structure Held (header : Header) (s : SmallHeap) (blocks : List Cell) (given : List Given)
    (free : Nat → List Nat) : Prop where
  laid : Laid header s.heap given
  chain : ∀ b < 30, Chain 0 s.mem (s.freeSlot b) (free b)
  cells : (blocks ++ freeCells free).Perm (given.flatMap Given.cells)

variable {s : SmallHeap} {blocks : List Cell} {given : List Given} {free : Nat → List Nat}

theorem Laid.ok (h : Laid header heap given) : ∀ g ∈ given, g.Ok := by
  intro g hg
  have hrun : g.run ∈ given.map Given.run := List.mem_map_of_mem hg
  obtain ⟨hpos, hle, hcount⟩ := h.pages.inside _ hrun
  refine ⟨h.aligned _ ?_, hpos, hle, hcount, h.bin g hg⟩
  obtain ⟨x, hx, ha, -⟩ := (h.pages.used g.run.addr g.run.pageNum).mpr
    (Or.inl ⟨g.run, hrun, rfl, by omega, by omega⟩)
  rw [← ha]
  exact List.mem_map_of_mem hx

theorem Laid.apart (h : Laid header heap given) :
    (given.flatMap Given.cells).Pairwise Cell.Apart :=
  pairwise_allCells h.ok h.pages.disjoint

theorem Laid.congr (h : Laid header heap given) (hok : HeapOk heap')
    (hv : heap'.list.map ZendMmChunk.view = heap.list.map ZendMmChunk.view) :
    Laid header heap' given := by
  refine ⟨h.pages.congr hok hv, ?_, h.bin, fun g hg i info hi => ?_⟩
  · rw [addrs_view hv]
    exact h.aligned
  · exact mapIn_view hv.symm (h.map g hg i info hi)

/-- Only pages of the run have words in the map. -/
theorem Given.Ok.info_lt (h : g.Ok) {i info : Nat} (hi : g.info header i = some info) :
    i < g.run.pagesCount := by
  have hcount := h.count
  unfold Given.info at hi
  cases hb : g.bin with
  | none =>
    rw [hb] at hi
    by_cases h0 : i = 0
    · omega
    · rw [if_neg h0] at hi
      cases hi
  | some b =>
    rw [hb] at hi
    have hi : (if i = 0 then some (header.srun b)
      else if i < binPages b then some (header.nrun b i) else none) = some info := hi
    have hpages := (h.bin b hb).2
    by_cases h0 : i = 0
    · omega
    · by_cases hlt : i < binPages b
      · omega
      · rw [if_neg h0, if_neg hlt] at hi
        cases hi

/-- A new run of a heap; `g` says what its pages are for, and `heap1` has its words in the map. -/
theorem Laid.grant {heap1 : Heap} (h : Laid header heap given) (hok : HeapOk heap')
    (hg : Granted header g.run.pagesCount heap.list heap'.list g.run.addr g.run.pageNum)
    (haddr : g.run.addr % zendMmChunkSize = 0)
    (hbin : ∀ b, g.bin = some b → b < 30 ∧ g.run.pagesCount = binPages b)
    (hn : 0 < g.run.pagesCount) {f : (Nat → Nat) → Nat → Nat}
    (heq : heap1 = heap' ∨ heap1 = heap'.setMap g.run.addr f)
    (hf : ∀ m q, q < g.run.pageNum ∨ g.run.pageNum + g.run.pagesCount ≤ q → f m q = m q)
    (hnew : ∀ i info, g.info header i = some info →
      mapIn heap1.list g.run.addr (g.run.pageNum + i) info) :
    Laid header heap1 (given ++ [g]) := by
  have hpages : PagesOk heap' ((given ++ [g]).map Given.run) := by
    rw [List.map_append]
    exact h.pages.grant hok hn hg
  have haligned : ∀ a ∈ addrs heap'.list, a % zendMmChunkSize = 0 := by
    intro a ha
    rcases (hg.addrs a).mp ha with ha | rfl
    · exact h.aligned a ha
    · exact haddr
  have hmap : ∀ g' ∈ given, ∀ i info, g'.info header i = some info →
      mapIn heap1.list g'.run.addr (g'.run.pageNum + i) info := by
    intro g' hg' i info hi
    have hi' := (h.ok g' hg').info_lt hi
    have hhas : g'.run.has g'.run.addr (g'.run.pageNum + i) := ⟨rfl, by omega, by omega⟩
    have hne := h.pages.ne_of_granted hg (List.mem_map_of_mem hg') hhas
    have hold := hg.frame _ _ _ (h.map g' hg' i info hi)
      (hne.imp id fun hq => by omega)
    rcases heq with rfl | rfl
    · exact hold
    · exact mapIn_setMap_of_ne hold (hne.imp id fun hq m => hf m _ hq)
  have hbins : ∀ g' ∈ given ++ [g], ∀ b, g'.bin = some b →
      b < 30 ∧ g'.run.pagesCount = binPages b := by
    intro g' hg'
    rcases List.mem_append.mp hg' with hg' | hg'
    · exact h.bin g' hg'
    · rw [List.mem_singleton.mp hg']
      exact hbin
  have hmaps : ∀ g' ∈ given ++ [g], ∀ i info, g'.info header i = some info →
      mapIn heap1.list g'.run.addr (g'.run.pageNum + i) info := by
    intro g' hg'
    rcases List.mem_append.mp hg' with hg' | hg'
    · exact hmap g' hg'
    · rw [List.mem_singleton.mp hg']
      exact hnew
  rcases heq with rfl | rfl
  · exact ⟨hpages, haligned, hbins, hmaps⟩
  · refine ⟨hpages.setMap _ _, ?_, hbins, hmaps⟩
    rw [addrs_setMap]
    exact haligned

theorem freeCells_append (free : Nat → List Nat) {b : Nat} (hb : b < 30) (l : List Nat) :
    (freeCells (Function.update free b (l ++ free b))).Perm
      (l.map (fun a => ⟨a, binDataSize b⟩) ++ freeCells free) := by
  have hperm := perm_flatMap_update (fun b => (free b).map fun a => (⟨a, binDataSize b⟩ : Cell)) b
    (l.map fun a => ⟨a, binDataSize b⟩) List.nodup_range (List.mem_range.mpr hb)
  refine List.Perm.trans (List.Perm.of_eq ?_) hperm
  unfold freeCells
  congr 1
  funext b'
  by_cases hbb : b' = b
  · subst hbb
    rw [Function.update_self, Function.update_self, List.map_append]
  · rw [Function.update_of_ne hbb, Function.update_of_ne hbb]

theorem chain_update {mem slot : Nat → Nat} {b p : Nat} {l : List Nat}
    (h : ∀ b' < 30, b' ≠ b → Chain 0 mem (slot b') (free b')) (hp : Chain 0 mem p l) :
    ∀ b' < 30, Chain 0 mem (Function.update slot b p b') (Function.update free b l b') := by
  intro b' hb'
  by_cases hbb : b' = b
  · subst hbb
    rw [Function.update_self, Function.update_self]
    exact hp
  · rw [Function.update_of_ne hbb, Function.update_of_ne hbb]
    exact h b' hb' hbb

/-- The first cell of a list goes to a caller. -/
theorem Held.pop (h : Held header s blocks given free) {b : Nat} (hb : b < 30)
    (hne : s.freeSlot b ≠ 0) :
    ∃ free', Held header ⟨s.heap, Function.update s.freeSlot b (s.mem (s.freeSlot b)), s.mem⟩
      (blocks ++ [⟨s.freeSlot b, binDataSize b⟩]) given free' := by
  obtain ⟨rest, hl, hrest⟩ := (h.chain b hb).cons_of_ne hne
  refine ⟨Function.update free b rest, h.laid,
    chain_update (fun b' hb' _ => h.chain b' hb') hrest, ?_⟩
  · have hperm := freeCells_append (Function.update free b rest) hb [s.freeSlot b]
    rw [Function.update_idem, Function.update_self, List.singleton_append, ← hl,
      Function.update_eq_self] at hperm
    rw [List.append_assoc]
    exact (hperm.symm.append_left blocks).trans h.cells

/-- A cell on a free list is none of another run, nor of a caller. -/
theorem mem_freeCells {b a : Nat} (hb : b < 30) (ha : a ∈ free b) :
    (⟨a, binDataSize b⟩ : Cell) ∈ freeCells free :=
  List.mem_flatMap.mpr ⟨b, List.mem_range.mpr hb, List.mem_map_of_mem ha⟩

theorem Held.apart (h : Held header s blocks given free) :
    (blocks ++ freeCells free).Pairwise Cell.Apart :=
  (h.cells.pairwise_iff Cell.Apart.symm).mpr h.laid.apart

theorem Held.mem_block (h : Held header s blocks given free) (hc : c ∈ blocks) :
    ∃ g ∈ given, c ∈ g.cells :=
  List.mem_flatMap.mp (h.cells.mem_iff.mp (List.mem_append_left _ hc))

/-- A caller writes into its own block. -/
theorem Held.store (h : Held header s blocks given free) (hc : c ∈ blocks) {x : Nat}
    (h1 : c.addr ≤ x) (h2 : x < c.addr + c.size) (value : Nat) :
    Held header ⟨s.heap, s.freeSlot, Function.update s.mem (x / 8 * 8) value⟩ blocks given
      free := by
  refine ⟨h.laid, fun b hb => (h.chain b hb).frame fun a ha => ?_, h.cells⟩
  have hfree := mem_freeCells hb ha
  obtain ⟨g, hg, hcg⟩ := h.mem_block hc
  have hmod := ((h.laid.ok g hg).mem_cells hcg).2.1
  obtain ⟨-, -, hpairs⟩ := List.pairwise_append.mp h.apart
  have hapart : c.addr + c.size ≤ a ∨ a + binDataSize b ≤ c.addr := hpairs c hc _ hfree
  have hpos := (bin_row b hb).2.1
  exact Function.update_of_ne (by omega) _ _

/-- The cells of a new run are apart from those on the free lists. -/
theorem Held.ne_of_new (h : Held header s blocks given free)
    (hl : Laid header heap (given ++ [g])) {b a : Nat} (hb : b < 30) (ha : a ∈ free b)
    (hd : d ∈ g.cells) : a ≠ d.addr := by
  have hpairs := hl.apart
  rw [List.flatMap_append, List.pairwise_append] at hpairs
  have hold : (⟨a, binDataSize b⟩ : Cell) ∈ given.flatMap Given.cells :=
    h.cells.mem_iff.mp (List.mem_append_right _ (mem_freeCells hb ha))
  have hnew : d ∈ [g].flatMap Given.cells := by simpa using hd
  have hapart : a + binDataSize b ≤ d.addr ∨ d.addr + d.size ≤ a := hpairs.2.2 _ hold _ hnew
  have hpos := (bin_row b hb).2.1
  have hgmem : g ∈ given ++ [g] := List.mem_append_right _ (List.mem_singleton_self g)
  have hsize := ((hl.ok g hgmem).mem_cells hd).1
  omega

/-- A run that goes to a caller as it is. -/
theorem Held.grant (h : Held header s blocks given free) {addr p n : Nat}
    (hl : Laid header heap (given ++ [⟨⟨addr, p, n⟩, none⟩])) :
    Held header ⟨heap, s.freeSlot, s.mem⟩
      (blocks ++ [⟨addr + zendMmPageSize * p, zendMmPageSize * n⟩])
      (given ++ [⟨⟨addr, p, n⟩, none⟩]) free := by
  refine ⟨hl, h.chain, ?_⟩
  rw [List.flatMap_append, List.append_assoc]
  exact ((List.perm_append_comm).append_left blocks).trans
    (List.append_assoc blocks _ _ ▸ h.cells.append_right _)

theorem cells_some (run : PageRun) {b : Nat} (hb : b < 30) :
    Given.cells ⟨run, some b⟩ = ⟨run.base, binDataSize b⟩ ::
      ((List.range (binElements b - 1)).map fun j => run.base + binDataSize b * (j + 1)).map
        fun a => ⟨a, binDataSize b⟩ := by
  have hcount := (bin_row b hb).2.2.1
  show ((List.range (binElements b)).map fun k => _) = _
  obtain ⟨n, hn⟩ : ∃ n, binElements b = n + 1 := ⟨binElements b - 1, by omega⟩
  rw [hn, List.range_succ_eq_map, List.map_cons, List.map_map, List.map_map]
  rfl

/-- A run that is cut: its first cell goes to a caller, the others on the list of the bin. -/
theorem Held.cut (h : Held header s blocks given free) {b addr p : Nat} (hb : b < 30)
    (hempty : s.freeSlot b = 0)
    (hl : Laid header heap (given ++ [⟨⟨addr, p, binPages b⟩, some b⟩])) :
    ∃ mem' free', linkElements (binDataSize b)
        (addr + zendMmPageSize * p + binDataSize b * (binElements b - 1)) (binElements b) s.mem
        (addr + zendMmPageSize * p + binDataSize b) = .returns mem' ∧
      Held header ⟨heap, Function.update s.freeSlot b (addr + zendMmPageSize * p + binDataSize b),
          mem'⟩
        (blocks ++ [⟨addr + zendMmPageSize * p, binDataSize b⟩])
        (given ++ [⟨⟨addr, p, binPages b⟩, some b⟩]) free' := by
  obtain ⟨-, hsize, hcount, -, -, -⟩ := bin_row b hb
  have hcells := cells_some ⟨addr, p, binPages b⟩ hb
  generalize hbase : addr + zendMmPageSize * p = base
  have hbase' : PageRun.base ⟨addr, p, binPages b⟩ = base := hbase
  rw [hbase'] at hcells
  obtain ⟨k, hk⟩ : ∃ k, binElements b = k + 3 := ⟨binElements b - 3, by omega⟩
  obtain ⟨mem', heq, hchain, hframe⟩ := linkElements_chain hsize k s.mem base
  rw [hk] at hcells ⊢
  have hnil : free b = [] := (h.chain b hb).nil_of_null hempty
  refine ⟨mem', Function.update free b ((List.range (k + 2)).map fun j =>
    base + binDataSize b * (j + 1)), heq, hl, ?_, ?_⟩
  · have hnew : ∀ b' < 30, ∀ a ∈ free b', mem' a = s.mem a := by
      intro b' hb' a ha
      apply hframe
      intro j hj
      refine h.ne_of_new hl hb' ha (d := ⟨base + binDataSize b * (j + 1), binDataSize b⟩) ?_
      rw [hcells]
      refine List.mem_cons_of_mem _ (List.mem_map_of_mem (List.mem_map_of_mem ?_))
      exact List.mem_range.mpr (by omega)
    exact chain_update (fun b' hb' _ => (h.chain b' hb').frame (hnew b' hb')) hchain
  · have hperm := freeCells_append free hb ((List.range (k + 2)).map fun j =>
      base + binDataSize b * (j + 1))
    rw [hnil, List.append_nil] at hperm
    rw [List.flatMap_append, List.flatMap_singleton, hcells, List.append_assoc,
      List.singleton_append]
    refine ((hperm.cons _).append_left blocks).trans ?_
    rw [← List.cons_append]
    refine (List.perm_append_comm.append_left blocks).trans ?_
    rw [← List.append_assoc]
    exact h.cells.append_right _

/-! ## One call -/

/-- A chunk that a call may come to is a new one, and lies where chunks may lie. -/
def FreshOk (fresh : Option Nat) (heap : Heap) : Prop :=
  ∀ addr, fresh = some addr → addr ∉ addrs heap.list ∧ addr % zendMmChunkSize = 0

theorem Laid.alloc (h : Laid header heap given) {n : Nat} (hn : 0 < n) (hlt : n < 512)
    {fresh : Option Nat} (hfresh : FreshOk fresh heap) :
    ∃ heap', (∃ addr p, zendMmAllocPages header fresh n heap = .returns (heap', some (addr, p)) ∧
        HeapOk heap' ∧ Granted header n heap.list heap'.list addr p ∧
        addr % zendMmChunkSize = 0) ∨
      (zendMmAllocPages header fresh n heap = .returns (heap', none) ∧ fresh = none ∧
        (∀ x ∈ heap.list, NoFit n x) ∧ Laid header heap' given) := by
  obtain ⟨heap', hok, hcase⟩ := allocPages_spec header h.pages.ok hn hlt fresh
    fun addr ha => (hfresh addr ha).1
  refine ⟨heap', ?_⟩
  rcases hcase with ⟨addr, p, heq, hg, hfit⟩ | ⟨heq, hf, hno, hv⟩
  · refine Or.inl ⟨addr, p, heq, hok, hg, ?_⟩
    rcases hfit with ⟨before, chunk, after, hl, rfl, -, -⟩ | ⟨hf, -, -⟩
    · apply h.aligned
      rw [hl]
      exact List.mem_map_of_mem (mem_mid.mpr (Or.inr rfl))
    · exact (hfresh addr hf).2
  · exact Or.inr ⟨heq, hf, hno, h.congr hok hv⟩

/-- The run of a caller, in the map. -/
theorem Laid.grantPages (h : Laid header heap given) {n addr p : Nat} (hn : 0 < n)
    (hok : HeapOk heap') (hg : Granted header n heap.list heap'.list addr p)
    (haddr : addr % zendMmChunkSize = 0) :
    Laid header heap' (given ++ [⟨⟨addr, p, n⟩, none⟩]) := by
  refine h.grant hok hg haddr nofun hn (f := id) (Or.inl rfl) (fun _ _ _ => rfl) ?_
  intro i info hi
  have hi : (if i = 0 then some (header.lrun n) else none) = some info := hi
  by_cases h0 : i = 0
  · rw [if_pos h0] at hi
    rw [← Option.some.inj hi, h0]
    exact hg.lrun
  · rw [if_neg h0] at hi
    cases hi

/-- The run of a bin, in the map. -/
theorem Laid.grantBin (h : Laid header heap given) {b addr p : Nat} (hb : b < 30)
    (hok : HeapOk heap') (hg : Granted header (binPages b) heap.list heap'.list addr p)
    (haddr : addr % zendMmChunkSize = 0) :
    Laid header (heap'.setMap addr (markSrun header b p))
      (given ++ [⟨⟨addr, p, binPages b⟩, some b⟩]) := by
  have hpages := (bin_row b hb).2.2.2.1
  refine h.grant hok hg haddr (fun b' hb' => ?_) hpages (Or.inr rfl) (fun m q hq => ?_) ?_
  · rw [← Option.some.inj hb']
    exact ⟨hb, rfl⟩
  · have hq : q < p ∨ p + binPages b ≤ q := hq
    rw [markSrun_eq header hpages, if_neg (by omega), if_neg (by omega)]
  · intro i info hi
    apply mapIn_setMap_self ((hg.addrs addr).mpr (Or.inr rfl))
    intro m
    show markSrun header b p m (p + i) = info
    have hi : (if i = 0 then some (header.srun b)
      else if i < binPages b then some (header.nrun b i) else none) = some info := hi
    rw [markSrun_eq header hpages]
    by_cases h0 : i = 0
    · rw [if_pos h0] at hi
      rw [if_pos (by omega)]
      exact Option.some.inj hi
    · rw [if_neg h0] at hi
      by_cases hlt : i < binPages b
      · rw [if_pos hlt] at hi
        rw [if_neg (by omega), if_pos (by omega), Nat.add_sub_cancel_left]
        exact Option.some.inj hi
      · rw [if_neg hlt] at hi
        cases hi

/-- The blocks of the callers after a call. -/
def giveBlock (blocks : List Cell) (size : Nat) : Option Nat → List Cell
  | some p => blocks ++ [⟨p, size⟩]
  | none => blocks

theorem Held.allocSmall (h : Held header s blocks given free) {b : Nat} (hb : b < 30)
    {fresh : Option Nat} (hfresh : FreshOk fresh s.heap) :
    ∃ s' r given' free', zendMmAllocSmall header fresh b s = .returns (s', r) ∧
      Held header s' (giveBlock blocks (binDataSize b) r) given' free' ∧
      (r = none → s.freeSlot b = 0 ∧ fresh = none ∧ ∀ x ∈ s.heap.list, NoFit (binPages b) x) := by
  unfold zendMmAllocSmall
  by_cases hne : s.freeSlot b ≠ 0
  · rw [if_pos hne]
    obtain ⟨free', hheld⟩ := h.pop hb hne
    exact ⟨_, some (s.freeSlot b), given, free', rfl, hheld, nofun⟩
  · rw [if_neg hne]
    obtain ⟨-, -, -, hpos, hlt, -⟩ := bin_row b hb
    unfold zendMmAllocSmallSlow
    obtain ⟨heap', ⟨addr, p, heq, hok, hg, haddr⟩ | ⟨heq, hf, hno, hl⟩⟩ :=
      h.laid.alloc hpos hlt hfresh
    · have hmod : addr % 2097152 = 0 := haddr
      have hp : p < 512 := by
        have := hg.le
        omega
      have hchunk : (addr + zendMmPageSize * p) / zendMmChunkSize * zendMmChunkSize = addr := by
        show (addr + 4096 * p) / 2097152 * 2097152 = addr
        omega
      have hpage : (addr + zendMmPageSize * p) % zendMmChunkSize / zendMmPageSize = p := by
        show (addr + 4096 * p) % 2097152 / 4096 = p
        omega
      have hmem : addr ∈ heap'.mainChunk.addr :: heap'.chunks.map ZendMmChunk.addr :=
        (hg.addrs addr).mpr (Or.inr rfl)
      obtain ⟨mem', free', hlink, hheld⟩ :=
        h.cut hb (by omega) (h.laid.grantBin hb hok hg haddr)
      refine ⟨_, some (addr + zendMmPageSize * p), _, free', ?_, hheld, nofun⟩
      rw [heq, Outcome.returns_bind]
      simp only [hchunk, hpage]
      rw [if_pos hmem, hlink, Outcome.returns_bind]
      rfl
    · refine ⟨⟨heap', s.freeSlot, s.mem⟩, none, given, free, ?_, ⟨hl, h.chain, h.cells⟩,
        fun _ => ⟨by omega, hf, hno⟩⟩
      rw [heq]
      rfl

theorem Held.allocPages (h : Held header s blocks given free) {n : Nat} (hn : 0 < n)
    (hlt : n < 512) {fresh : Option Nat} (hfresh : FreshOk fresh s.heap) :
    ∃ heap' r given', zendMmAllocPages header fresh n s.heap = .returns (heap', r) ∧
      Held header ⟨heap', s.freeSlot, s.mem⟩ (giveBlock blocks (zendMmPageSize * n)
        (r.map fun run => run.1 + zendMmPageSize * run.2)) given' free := by
  obtain ⟨heap', ⟨addr, p, heq, hok, hg, haddr⟩ | ⟨heq, -, -, hl⟩⟩ := h.laid.alloc hn hlt hfresh
  · exact ⟨heap', some (addr, p), _, heq, h.grant (h.laid.grantPages hn hok hg haddr)⟩
  · exact ⟨heap', none, given, heq, hl, h.chain, h.cells⟩

/-! ## Runs -/

structure SmallState where
  heap : SmallHeap
  blocks : List Cell

/-- A call of `zend_mm_alloc_small` or of `zend_mm_alloc_pages`, or a caller's write. -/
inductive SmallCall where
  | small (fresh : Option Nat) (bin : Nat)
  | pages (fresh : Option Nat) (count : Nat)
  | store (addr value : Nat)

def smallSystem (header : Header) : System SmallState SmallCall where
  init s := (∃ addr, addr % zendMmChunkSize = 0 ∧ s.heap.heap = ⟨newChunk header addr, []⟩) ∧
    s.heap.freeSlot = (fun _ => 0) ∧ s.blocks = []
  step s call s' :=
    match call with
    | .small fresh bin => bin < 30 ∧ FreshOk fresh s.heap.heap ∧
        ∃ r, zendMmAllocSmall header fresh bin s.heap = .returns (s'.heap, r) ∧
          s'.blocks = giveBlock s.blocks (binDataSize bin) r
    | .pages fresh count => (0 < count ∧ count < zendMmPages) ∧ FreshOk fresh s.heap.heap ∧
        ∃ heap r, zendMmAllocPages header fresh count s.heap.heap = .returns (heap, r) ∧
          s'.heap = ⟨heap, s.heap.freeSlot, s.heap.mem⟩ ∧
          s'.blocks = giveBlock s.blocks (zendMmPageSize * count)
            (r.map fun run => run.1 + zendMmPageSize * run.2)
    | .store addr value => (∃ c ∈ s.blocks, c.addr ≤ addr ∧ addr < c.addr + c.size) ∧
        s'.heap = ⟨s.heap.heap, s.heap.freeSlot,
          Function.update s.heap.mem (addr / 8 * 8) value⟩ ∧ s'.blocks = s.blocks

theorem held_init {s : SmallState} (h : (smallSystem header).init s) :
    Held header s.heap s.blocks [] fun _ => [] := by
  obtain ⟨⟨addr, haddr, heq⟩, hslot, hblocks⟩ := h
  refine ⟨⟨?_, ?_, nofun, nofun⟩, fun b _ => ?_, ?_⟩
  · rw [heq]
    exact pagesOk_new header addr
  · rw [heq]
    intro a ha
    rw [List.mem_singleton.mp ha]
    exact haddr
  · rw [hslot]
    rfl
  · rw [hblocks]
    rfl

theorem held_step {s s' : SmallState} {call : SmallCall}
    (h : ∃ given free, Held header s.heap s.blocks given free)
    (hst : (smallSystem header).step s call s') :
    ∃ given free, Held header s'.heap s'.blocks given free := by
  obtain ⟨given, free, h⟩ := h
  cases call with
  | small fresh bin =>
    obtain ⟨hb, hfresh, r, hr, hblocks⟩ := hst
    obtain ⟨heap', r', given', free', heq, hheld, -⟩ := h.allocSmall hb hfresh
    obtain ⟨rfl, rfl⟩ := Prod.mk.inj (Outcome.returns.inj (hr.symm.trans heq))
    rw [hblocks]
    exact ⟨given', free', hheld⟩
  | pages fresh count =>
    obtain ⟨⟨hn, hlt⟩, hfresh, heap, r, hr, hheap, hblocks⟩ := hst
    obtain ⟨heap', r', given', heq, hheld⟩ := h.allocPages hn hlt hfresh
    obtain ⟨rfl, rfl⟩ := Prod.mk.inj (Outcome.returns.inj (hr.symm.trans heq))
    rw [hheap, hblocks]
    exact ⟨given', free, hheld⟩
  | store addr value =>
    obtain ⟨⟨c, hc, h1, h2⟩, hheap, hblocks⟩ := hst
    rw [hheap, hblocks]
    exact ⟨given, free, h.store hc h1 h2 value⟩

theorem held_reachable {s : SmallState} (h : (smallSystem header).Reachable s) :
    ∃ given free, Held header s.heap s.blocks given free :=
  h.invariant (fun _ hi => ⟨_, _, held_init hi⟩) fun _ _ _ _ hi hst => held_step hi hst

/-! ## Main results -/

def smallStart : SmallState := ⟨⟨⟨newChunk bitHeader 0, []⟩, fun _ => 0, fun _ => 0⟩, []⟩

theorem reachable_smallStart : (smallSystem bitHeader).Reachable smallStart :=
  .init ⟨⟨0, rfl, rfl⟩, rfl, rfl⟩

theorem exists_freshOk (heap : Heap) : ∃ addr, FreshOk (some addr) heap := by
  obtain ⟨addr, hnew, hmod⟩ := exists_fresh heap.list
  exact ⟨addr, fun _ h => Option.some.inj h ▸ ⟨hnew, hmod⟩⟩

/-- One more call, which returns a cell. -/
theorem exists_reachable_small {s : SmallState} (h : (smallSystem bitHeader).Reachable s) {b : Nat}
    (hb : b < 30) : ∃ s', (smallSystem bitHeader).Reachable s' ∧
      s'.blocks.map Cell.size = s.blocks.map Cell.size ++ [binDataSize b] := by
  obtain ⟨given, free, hheld⟩ := held_reachable h
  obtain ⟨fresh, hfresh⟩ := exists_freshOk s.heap.heap
  obtain ⟨heap', r, -, -, heq, -, hnone⟩ := hheld.allocSmall hb hfresh
  cases r with
  | none => cases (hnone rfl).2.1
  | some p =>
    refine ⟨⟨heap', s.blocks ++ [⟨p, binDataSize b⟩]⟩, h.next (e := .small (some fresh) b) ?_,
      List.map_append⟩
    exact ⟨hb, hfresh, some p, heq, rfl⟩

/-- Two cells of one bin, the second one from its list, and one of another bin. -/
theorem exists_reachable_blocks :
    ∃ s, (smallSystem bitHeader).Reachable s ∧ s.blocks.map Cell.size = [48, 48, 56] := by
  obtain ⟨s1, hr1, hblocks1⟩ := exists_reachable_small reachable_smallStart (b := 5) (by decide)
  obtain ⟨s2, hr2, hblocks2⟩ := exists_reachable_small hr1 (b := 5) (by decide)
  obtain ⟨s3, hr3, hblocks3⟩ := exists_reachable_small hr2 (b := 6) (by decide)
  rw [hblocks2, hblocks1] at hblocks3
  exact ⟨s3, hr3, hblocks3⟩

/-- No byte is in two blocks, and each block lies in pages that are in use, behind the first one of
a chunk. -/
theorem run_blocks (header : Header) {s : SmallState} (h : (smallSystem header).Reachable s) :
    s.blocks.Pairwise Cell.Apart ∧ ∀ c ∈ s.blocks, c.addr % 8 = 0 ∧
      ∀ x, c.addr ≤ x → x < c.addr + c.size →
        usedIn s.heap.heap.list (x / zendMmChunkSize * zendMmChunkSize)
          (x % zendMmChunkSize / zendMmPageSize) ∧ 0 < x % zendMmChunkSize / zendMmPageSize := by
  obtain ⟨given, free, hheld⟩ := held_reachable h
  refine ⟨(List.pairwise_append.mp hheld.apart).1, fun c hc => ?_⟩
  obtain ⟨g, hg, hcg⟩ := hheld.mem_block hc
  have hgok := hheld.laid.ok g hg
  obtain ⟨-, hmod, h1, h2⟩ := hgok.mem_cells hcg
  refine ⟨hmod, fun x hx1 hx2 => ?_⟩
  have hhas := hgok.page (x := x) (by omega) (by omega)
  have hpos := hgok.pos
  exact ⟨(hheld.laid.pages.used _ _).mpr (Or.inl ⟨g.run, List.mem_map_of_mem hg, hhas⟩),
    Nat.lt_of_lt_of_le hpos hhas.2.1⟩

theorem run_blocks_three : ∃ s, (smallSystem bitHeader).Reachable s ∧
    s.blocks.map Cell.size = [48, 48, 56] ∧ (s.blocks.Pairwise Cell.Apart ∧ ∀ c ∈ s.blocks, c.addr % 8 = 0 ∧
      ∀ x, c.addr ≤ x → x < c.addr + c.size →
        usedIn s.heap.heap.list (x / zendMmChunkSize * zendMmChunkSize)
          (x % zendMmChunkSize / zendMmPageSize) ∧ 0 < x % zendMmChunkSize / zendMmPageSize) := by
  obtain ⟨s, hr, hblocks⟩ := exists_reachable_blocks
  exact ⟨s, hr, hblocks, run_blocks bitHeader hr⟩

/-- The lists of free cells are whole, and all cells that were ever cut are there once: with a
caller or on a list. -/
theorem run_freeCells (header : Header) {s : SmallState} (h : (smallSystem header).Reachable s) :
    ∃ (given : List Given) (free : Nat → List Nat),
      (∀ b < 30, Chain 0 s.heap.mem (s.heap.freeSlot b) (free b)) ∧
      (s.blocks ++ freeCells free).Perm (given.flatMap Given.cells) ∧
      (s.blocks ++ freeCells free).Pairwise Cell.Apart ∧
      (∀ a q, usedIn s.heap.heap.list a q ↔
        (∃ g ∈ given, g.run.has a q) ∨ a ∈ addrs s.heap.heap.list ∧ q = 0) ∧
      ∀ g ∈ given, ∀ i info, g.info header i = some info →
        mapIn s.heap.heap.list g.run.addr (g.run.pageNum + i) info := by
  obtain ⟨given, free, hheld⟩ := held_reachable h
  refine ⟨given, free, hheld.chain, hheld.cells, hheld.apart, fun a q => ?_, hheld.laid.map⟩
  rw [hheld.laid.pages.used]
  simp only [List.mem_map, exists_exists_and_eq_and]

theorem run_freeCells_three : ∃ s, (smallSystem bitHeader).Reachable s ∧
    s.blocks.map Cell.size = [48, 48, 56] ∧ ∃ (given : List Given) (free : Nat → List Nat),
      (∀ b < 30, Chain 0 s.heap.mem (s.heap.freeSlot b) (free b)) ∧
      (s.blocks ++ freeCells free).Perm (given.flatMap Given.cells) ∧
      (s.blocks ++ freeCells free).Pairwise Cell.Apart ∧
      (∀ a q, usedIn s.heap.heap.list a q ↔
        (∃ g ∈ given, g.run.has a q) ∨ a ∈ addrs s.heap.heap.list ∧ q = 0) ∧
      ∀ g ∈ given, ∀ i info, g.info bitHeader i = some info →
        mapIn s.heap.heap.list g.run.addr (g.run.pageNum + i) info := by
  obtain ⟨s, hr, hblocks⟩ := exists_reachable_blocks
  exact ⟨s, hr, hblocks, run_freeCells bitHeader hr⟩

/-- At any time, a call for a cell returns, and with `NULL` only if the list of the bin is empty and
no chunk has room for a run of it. -/
theorem run_allocSmall (header : Header) {s : SmallState} (h : (smallSystem header).Reachable s)
    (fresh : Option Nat) (bin : Nat) (hbin : bin < 30) (hfresh : FreshOk fresh s.heap.heap) :
    ∃ s' r, zendMmAllocSmall header fresh bin s.heap = .returns (s', r) ∧
      (r = none → s.heap.freeSlot bin = 0 ∧ fresh = none ∧
        ∀ x ∈ s.heap.heap.list, NoFit (binPages bin) x) := by
  obtain ⟨given, free, hheld⟩ := held_reachable h
  obtain ⟨s', r, -, -, heq, -, hnone⟩ := hheld.allocSmall hbin hfresh
  exact ⟨s', r, heq, hnone⟩

theorem run_allocSmall_three : ∃ s fresh, (smallSystem bitHeader).Reachable s ∧
    s.blocks.map Cell.size = [48, 48, 56] ∧ FreshOk (some fresh) s.heap.heap ∧
    ∃ s' r, zendMmAllocSmall bitHeader (some fresh) 7 s.heap = .returns (s', r) ∧
      (r = none → s.heap.freeSlot 7 = 0 ∧ some fresh = none ∧
        ∀ x ∈ s.heap.heap.list, NoFit (binPages 7) x) := by
  obtain ⟨s, hr, hblocks⟩ := exists_reachable_blocks
  obtain ⟨fresh, hfresh⟩ := exists_freshOk s.heap.heap
  exact ⟨s, fresh, hr, hblocks, hfresh,
    run_allocSmall bitHeader hr (some fresh) 7 (by decide) hfresh⟩

end StudyDoc.Zend
