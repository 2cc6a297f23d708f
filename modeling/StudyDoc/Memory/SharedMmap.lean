import StudyDoc.Lib.Ledger
import StudyDoc.Lib.Transition
import Mathlib.Data.List.Pairwise
import Mathlib.Tactic.Common

/-!
# `mem_study.c`: what `swShareMemory_mmap_create` acquires and `swShareMemory_mmap_free` releases

A process holds descriptors and mappings; the calls are made on objects in any order, each object
created once and freed at most once.  In every state reached

    descriptors = those at the start + tmpfd of every object whose open succeeded
    mappings    = those at the start + those of the objects mapped and not freed     (held)

so the accounts balance exactly as long as nothing was freed and no `mmap` failed
(always_accounted_iff): `tmpfd` is never closed, and `!mem` does not notice `MAP_FAILED`.  So is a
failure of `mmap` not reported either (create_reported_iff).
-/

namespace StudyDoc.SharedMmap

open Transition Ledger

/-! ## Algorithm -/

def NULL : Nat := 0

/-- `(void *) -1` -/
def MAP_FAILED : Nat := 18446744073709551615

def PAGE : Nat := 4096
def SW_SHM_MMAP_FILE_LEN : Nat := 64

structure Region where
  addr : Nat
  size : Nat
  deriving DecidableEq

namespace Region

def Valid (r : Region) : Prop := r.addr % PAGE = 0 ∧ 0 < r.size

def Apart (r r' : Region) : Prop := r.addr + r.size ≤ r'.addr ∨ r'.addr + r'.size ≤ r.addr

instance (r : Region) : Decidable r.Valid := inferInstanceAs (Decidable (_ ∧ _))

instance : Std.Symm Apart := ⟨fun _ _ h => h.symm⟩

instance (r r' : Region) : Decidable (r.Apart r') := inferInstanceAs (Decidable (_ ∨ _))

end Region

structure Process where
  fds : List Int
  maps : List Region
  valid : ∀ r ∈ maps, r.Valid
  apart : maps.Pairwise Region.Apart

/-- One result of `open`. -/
inductive Open where
  | fd (n : Nat)
  | fail

/-- One result of `mmap`. -/
inductive Mmap where
  | mapped (addr : Nat)
  | failed

namespace Process

/-- `none`: the kernel does not give out a descriptor that is in use. -/
def openFile (p : Process) : Open → Option (Process × Int)
  | .fd n => if (n : Int) ∈ p.fds then none else some ({ p with fds := n :: p.fds }, n)
  | .fail => some (p, -1)

/-- What the kernel picks: whole pages, not at 0, apart from every other mapping. -/
def Fits (p : Process) (r : Region) : Prop :=
  r.addr ≠ NULL ∧ r.Valid ∧ ∀ r' ∈ p.maps, r.Apart r'

instance (p : Process) (r : Region) : Decidable (p.Fits r) :=
  inferInstanceAs (Decidable (_ ∧ _ ∧ _))

def mmap (p : Process) (size : Nat) : Mmap → Option (Process × Nat)
  | .mapped addr =>
    if h : p.Fits ⟨addr, size⟩ then
      some ({ p with
        maps := ⟨addr, size⟩ :: p.maps
        valid := List.forall_mem_cons.mpr ⟨h.2.1, p.valid⟩
        apart := List.pairwise_cons.mpr ⟨h.2.2, p.apart⟩ }, addr)
    else none
  | .failed => some (p, MAP_FAILED)

def munmap (p : Process) (addr size : Nat) : Process × Int :=
  if Region.Valid ⟨addr, size⟩ then
    ({ p with
      maps := p.maps.filter (Region.Apart ⟨addr, size⟩ ·)
      valid := fun r hr => p.valid r ((List.mem_filter.mp hr).1)
      apart := p.apart.filter _ }, 0)
  else (p, -1)

end Process

structure swShareMemory where
  size : Nat
  mapfile : List Char
  tmpfd : Int
  mem : Nat

/-- The mapping that an object stands for. -/
def swShareMemory.region (object : swShareMemory) : Region := ⟨object.mem, object.size⟩

/-- `bzero(object, sizeof(swShareMemory))` -/
def bzero : swShareMemory := ⟨0, List.replicate SW_SHM_MMAP_FILE_LEN (Char.ofNat 0), 0, NULL⟩

/-- At most `n` characters, padded with NUL. -/
def strncpy (src : List Char) (n : Nat) : List Char :=
  (src ++ List.replicate n (Char.ofNat 0)).take n

/-- The object and the pointer returned; `none` where the kernel does not answer so. -/
def swShareMemory_mmap_create (p : Process) (size : Nat) (mapfile : Option (List Char))
    (o : Open) (m : Mmap) : Option (Process × swShareMemory × Nat) := do
  let object := bzero
  let mapfile := mapfile.getD "/dev/zero".toList
  let (p, tmpfd) ← p.openFile o
  if tmpfd < 0 then return (p, object, NULL)
  let object := { object with
    mapfile := strncpy mapfile SW_SHM_MMAP_FILE_LEN
    tmpfd := tmpfd }
  let (p, mem) ← p.mmap size m
  if mem = NULL then return (p, object, NULL)
  return (p, { object with size := size, mem := mem }, mem)

def swShareMemory_mmap_free (p : Process) (mem : swShareMemory) : Process × Int :=
  p.munmap mem.mem mem.size

/-! ### Runs -/

/-- An object, what its `create` returned, and whether `free` was called on it. -/
structure Slot where
  object : swShareMemory
  ret : Nat
  freed : Bool

structure State where
  proc : Process
  objects : Nat → Option Slot

inductive Event where
  | create (id size : Nat) (mapfile : Option (List Char)) (o : Open) (m : Mmap)
  | free (id : Nat)

def State.step (s : State) : Event → Option State
  | .create id size mapfile o m =>
    match s.objects id with
    | some _ => none
    | none =>
      (swShareMemory_mmap_create s.proc size mapfile o m).map fun (p, object, ret) =>
        ⟨p, Function.update s.objects id (some ⟨object, ret, false⟩)⟩
  | .free id =>
    match s.objects id with
    | some slot =>
      if slot.freed then none
      else some ⟨(swShareMemory_mmap_free s.proc slot.object).1,
        Function.update s.objects id (some { slot with freed := true })⟩
    | none => none

/-- The calls of a process that starts out as `base`. -/
def calls (base : Process) : System State Event where
  init s := s = ⟨base, fun _ => none⟩
  step s e s' := s.step e = some s'

/-- `create` handed the object out, and it was not freed. -/
def Slot.Live (slot : Slot) : Prop := slot.ret ≠ NULL ∧ slot.freed = false

instance (slot : Slot) : Decidable slot.Live := inferInstanceAs (Decidable (_ ∧ _))

/-- The process holds what it held at the start and what its objects stand for. -/
structure Balanced (base : Process) (s : State) : Prop where
  fds : ∀ fd, fd ∈ s.proc.fds ↔
    fd ∈ base.fds ∨ ∃ id slot, s.objects id = some slot ∧ slot.Live ∧ slot.object.tmpfd = fd
  maps : ∀ r, r ∈ s.proc.maps ↔
    r ∈ base.maps ∨ ∃ id slot, s.objects id = some slot ∧ slot.Live ∧ slot.object.region = r

def AllFreed (s : State) : Prop := ∀ id slot, s.objects id = some slot → ¬ slot.Live

def Restored (base : Process) (s : State) : Prop :=
  (∀ fd, fd ∈ s.proc.fds ↔ fd ∈ base.fds) ∧ ∀ r, r ∈ s.proc.maps ↔ r ∈ base.maps

def Accounted (base : Process) (s : State) : Prop :=
  Balanced base s ∧ (AllFreed s → Restored base s)

/-- The calls after which something is held for no object or an object stands for nothing: an
`mmap` that fails behind an `open` that did not, and the `free` of an object handed out. -/
def Leaks (s : State) : Event → Prop
  | .create id _ _ (.fd n) .failed => s.objects id = none ∧ (n : Int) ∉ s.proc.fds
  | .create _ _ _ _ _ => False
  | .free id => ∃ slot, s.objects id = some slot ∧ slot.Live

/-! ### Inversion -/

theorem openFile_fd {p p' : Process} {n : Nat} {tmpfd : Int}
    (h : p.openFile (.fd n) = some (p', tmpfd)) :
    (n : Int) ∉ p.fds ∧ tmpfd = n ∧ p'.fds = (n : Int) :: p.fds ∧ p'.maps = p.maps := by
  unfold Process.openFile at h
  dsimp only at h
  by_cases hn : (n : Int) ∈ p.fds
  · rw [if_pos hn] at h
    exact absurd h (by simp)
  · rw [if_neg hn] at h
    obtain ⟨rfl, rfl⟩ := Prod.mk.inj (Option.some.inj h)
    exact ⟨hn, rfl, rfl, rfl⟩

theorem mmap_mapped {p p' : Process} {size addr mem : Nat}
    (h : p.mmap size (.mapped addr) = some (p', mem)) :
    p.Fits ⟨addr, size⟩ ∧ mem = addr ∧ p'.fds = p.fds ∧ p'.maps = ⟨addr, size⟩ :: p.maps := by
  unfold Process.mmap at h
  dsimp only at h
  by_cases hfit : p.Fits ⟨addr, size⟩
  · rw [dif_pos hfit] at h
    obtain ⟨rfl, rfl⟩ := Prod.mk.inj (Option.some.inj h)
    exact ⟨hfit, rfl, rfl, rfl⟩
  · rw [dif_neg hfit] at h
    exact absurd h (by simp)

theorem Region.Valid.addr_ne {r : Region} (h : r.Valid) : r.addr ≠ MAP_FAILED := by
  intro he
  have hpage := h.1
  rw [he] at hpage
  exact absurd hpage (by decide)

/-- What a `create` can do. -/
theorem create_cases {p p' : Process} {size ret : Nat} {mapfile : Option (List Char)} {o : Open}
    {m : Mmap} {object : swShareMemory}
    (h : swShareMemory_mmap_create p size mapfile o m = some (p', object, ret)) :
    (o = .fail ∧ p' = p ∧ object = bzero ∧ ret = NULL) ∨
    (∃ n : Nat, o = .fd n ∧ (n : Int) ∉ p.fds ∧ p'.fds = (n : Int) :: p.fds ∧
      object.tmpfd = n ∧ ret = object.mem ∧ ret ≠ NULL ∧
      ((m = .failed ∧ p'.maps = p.maps ∧ object.mem = MAP_FAILED) ∨
        (∃ addr, m = .mapped addr ∧ p.Fits object.region ∧
          p'.maps = object.region :: p.maps))) := by
  unfold swShareMemory_mmap_create at h
  cases o with
  | fail =>
    obtain ⟨hp, hobj⟩ := Prod.mk.inj (Option.some.inj h)
    obtain ⟨hobj, hret⟩ := Prod.mk.inj hobj
    exact Or.inl ⟨rfl, hp.symm, hobj.symm, hret.symm⟩
  | fd n =>
    obtain ⟨⟨p1, tmpfd⟩, hopen, hrest⟩ := Option.bind_eq_some_iff.mp h
    obtain ⟨hn, rfl, hfds, hmaps⟩ := openFile_fd hopen
    dsimp only at hrest
    rw [if_neg (by omega)] at hrest
    obtain ⟨⟨p2, mem⟩, hmmap, hret⟩ := Option.bind_eq_some_iff.mp hrest
    dsimp only at hret
    cases m with
    | failed =>
      obtain ⟨rfl, rfl⟩ := Prod.mk.inj (Option.some.inj hmmap)
      rw [if_neg (by decide)] at hret
      obtain ⟨rfl, hobj⟩ := Prod.mk.inj (Option.some.inj hret)
      obtain ⟨rfl, rfl⟩ := Prod.mk.inj hobj
      exact Or.inr ⟨n, rfl, hn, hfds, rfl, rfl, by decide, Or.inl ⟨rfl, hmaps, rfl⟩⟩
    | mapped addr =>
      obtain ⟨hfit, rfl, hfds', hmaps'⟩ := mmap_mapped hmmap
      have hnull : mem ≠ NULL := hfit.1
      rw [if_neg hnull] at hret
      obtain ⟨rfl, hobj⟩ := Prod.mk.inj (Option.some.inj hret)
      obtain ⟨rfl, rfl⟩ := Prod.mk.inj hobj
      refine Or.inr ⟨n, rfl, hn, hfds'.trans hfds, rfl, rfl, hnull, Or.inr ⟨mem, rfl, ?_, ?_⟩⟩
      · refine ⟨hfit.1, hfit.2.1, fun r hr => hfit.2.2 r ?_⟩
        rw [hmaps]
        exact hr
      · rw [hmaps', hmaps]
        rfl

/-- What a step can do. -/
theorem step_cases {s s' : State} {e : Event} (h : s.step e = some s') :
    (∃ id size mapfile o m p object ret, e = .create id size mapfile o m ∧ s.objects id = none ∧
      swShareMemory_mmap_create s.proc size mapfile o m = some (p, object, ret) ∧
      s' = ⟨p, Function.update s.objects id (some ⟨object, ret, false⟩)⟩) ∨
    (∃ id slot, e = .free id ∧ s.objects id = some slot ∧ slot.freed = false ∧
      s' = ⟨(swShareMemory_mmap_free s.proc slot.object).1,
        Function.update s.objects id (some { slot with freed := true })⟩) := by
  cases e with
  | create id size mapfile o m =>
    unfold State.step at h
    dsimp only at h
    cases hid : s.objects id with
    | some slot =>
      rw [hid] at h
      exact absurd h (by simp)
    | none =>
      rw [hid] at h
      obtain ⟨⟨p, object, ret⟩, hc, hs'⟩ := Option.map_eq_some_iff.mp h
      exact Or.inl ⟨id, size, mapfile, o, m, p, object, ret, rfl, hid, hc, hs'.symm⟩
  | free id =>
    unfold State.step at h
    dsimp only at h
    cases hid : s.objects id with
    | none =>
      rw [hid] at h
      exact absurd h (by simp)
    | some slot =>
      rw [hid] at h
      dsimp only at h
      by_cases hf : slot.freed = true
      · rw [if_pos hf] at h
        exact absurd h (by simp)
      · rw [if_neg hf] at h
        exact Or.inr ⟨id, slot, rfl, hid, by simpa using hf, (Option.some.inj h).symm⟩

/-! ### What is held -/

/-- The descriptor that `create` opened for an object. -/
def Slot.opened (slot : Slot) : Option Int :=
  if slot.ret ≠ NULL then some slot.object.tmpfd else none

/-- The mapping that `create` made for an object, until it is freed. -/
def Slot.mapped (slot : Slot) : Option Region :=
  if slot.Live ∧ slot.object.mem ≠ MAP_FAILED then some slot.object.region else none

def State.opened (s : State) (id : Nat) : Option Int := (s.objects id).bind Slot.opened

def State.mapped (s : State) (id : Nat) : Option Region := (s.objects id).bind Slot.mapped

structure Held (base : Process) (s : State) : Prop where
  fds : Covers {fd | fd ∈ base.fds} {fd | fd ∈ s.proc.fds} s.opened
  maps : Covers {r | r ∈ base.maps} {r | r ∈ s.proc.maps} s.mapped
  /-- An object that was not handed out is as `bzero` left it. -/
  null : ∀ id slot, s.objects id = some slot → slot.ret = NULL → slot.object = bzero

theorem bind_update {α : Type} (objects : Nat → Option Slot) (id : Nat) (slot : Slot)
    (g : Slot → Option α) :
    (fun i => (Function.update objects id (some slot) i).bind g) =
      Function.update (fun i => (objects i).bind g) id (g slot) := by
  funext i
  by_cases hi : i = id
  · rw [hi, Function.update_self, Function.update_self]
    rfl
  · rw [Function.update_of_ne hi, Function.update_of_ne hi]

theorem setOf_mem_cons {α : Type} (a : α) (l : List α) :
    {b | b ∈ a :: l} = insert a {b | b ∈ l} := by
  ext b
  exact List.mem_cons

theorem munmap_maps {p : Process} {r : Region} (hr : r ∈ p.maps) :
    {r' | r' ∈ (p.munmap r.addr r.size).1.maps} = {r' | r' ∈ p.maps} \ {r} := by
  ext r'
  show r' ∈ (p.munmap r.addr r.size).1.maps ↔ r' ∈ p.maps ∧ r' ≠ r
  unfold Process.munmap
  rw [if_pos (p.valid r hr)]
  show r' ∈ p.maps.filter _ ↔ _
  rw [List.mem_filter, decide_eq_true_iff]
  constructor
  · rintro ⟨hr', happ⟩
    refine ⟨hr', ?_⟩
    rintro rfl
    have hpos := (p.valid r' hr).2
    rcases happ with h | h
    · have h' : r'.addr + r'.size ≤ r'.addr := h
      omega
    · have h' : r'.addr + r'.size ≤ r'.addr := h
      omega
  · rintro ⟨hr', hne⟩
    exact ⟨hr', p.apart.forall hr hr' (Ne.symm hne)⟩

/-- No mapping is given up for an address that is none. -/
theorem munmap_invalid (p : Process) {r : Region} (hr : ¬ r.Valid) :
    p.munmap r.addr r.size = (p, -1) := by
  unfold Process.munmap
  exact if_neg hr

theorem munmap_fds (p : Process) (addr size : Nat) : (p.munmap addr size).1.fds = p.fds := by
  unfold Process.munmap
  split <;> rfl

theorem opened_update (s : State) (p : Process) (id : Nat) (slot : Slot) :
    State.opened ⟨p, Function.update s.objects id (some slot)⟩ =
      Function.update s.opened id slot.opened :=
  bind_update s.objects id slot Slot.opened

theorem mapped_update (s : State) (p : Process) (id : Nat) (slot : Slot) :
    State.mapped ⟨p, Function.update s.objects id (some slot)⟩ =
      Function.update s.mapped id slot.mapped :=
  bind_update s.objects id slot Slot.mapped

theorem update_same {α : Type} {f : Nat → Option α} {id : Nat} {x : Option α} (h : f id = x) :
    Function.update f id x = f := by
  rw [← h]
  exact Function.update_eq_self id f

theorem held_start (base : Process) : Held base ⟨base, fun _ => none⟩ where
  fds := Covers.start _
  maps := Covers.start _
  null id slot h := absurd h (by simp)

theorem held_create {base p : Process} {s : State} {id size ret : Nat}
    {mapfile : Option (List Char)} {o : Open} {m : Mmap} {object : swShareMemory}
    (h : Held base s) (hid : s.objects id = none)
    (hc : swShareMemory_mmap_create s.proc size mapfile o m = some (p, object, ret)) :
    Held base ⟨p, Function.update s.objects id (some ⟨object, ret, false⟩)⟩ := by
  have ho : s.opened id = none := by unfold State.opened; rw [hid]; rfl
  have hm : s.mapped id = none := by unfold State.mapped; rw [hid]; rfl
  have hnull : (ret = NULL → object = bzero) → ∀ i slot, Function.update s.objects id
      (some ⟨object, ret, false⟩) i = some slot → slot.ret = NULL → slot.object = bzero := by
    intro hobj i slot hi hret
    rcases update_eq_some_iff.mp hi with ⟨-, hslot⟩ | ⟨-, hi⟩
    · obtain rfl := Option.some.inj hslot
      exact hobj hret
    · exact h.null i slot hi hret
  rcases create_cases hc with ⟨-, rfl, rfl, rfl⟩ | ⟨n, -, hn, hfds, htmp, hret, hne, hmap⟩
  · -- nothing was opened
    have hopened : Slot.opened ⟨bzero, NULL, false⟩ = none := rfl
    have hmapped : Slot.mapped ⟨bzero, NULL, false⟩ = none := rfl
    refine ⟨?_, ?_, hnull fun _ => rfl⟩
    · rw [opened_update, hopened, update_same ho]
      exact h.fds
    · rw [mapped_update, hmapped, update_same hm]
      exact h.maps
  · have hopened : Slot.opened ⟨object, ret, false⟩ = some (n : Int) := by
      unfold Slot.opened
      rw [if_pos hne, htmp]
    refine ⟨?_, ?_, hnull fun h0 => absurd h0 hne⟩
    · rw [opened_update, hopened]
      show Covers _ {fd | fd ∈ p.fds} _
      rw [hfds, setOf_mem_cons]
      exact h.fds.acquire ho hn
    · rw [mapped_update]
      show Covers _ {r | r ∈ p.maps} _
      rcases hmap with ⟨-, hmaps, hfail⟩ | ⟨addr, -, hfit, hmaps⟩
      · have hmapped : Slot.mapped ⟨object, ret, false⟩ = none :=
          if_neg fun hl => hl.2 hfail
        rw [hmapped, update_same hm, hmaps]
        exact h.maps
      · have hmapped : Slot.mapped ⟨object, ret, false⟩ = some object.region :=
          if_pos ⟨⟨hne, rfl⟩, hfit.2.1.addr_ne⟩
        rw [hmapped, hmaps, setOf_mem_cons]
        apply h.maps.acquire hm
        intro hmem
        have hpos := hfit.2.1.2
        rcases hfit.2.2 _ hmem with ha | ha <;> omega

theorem held_free {base : Process} {s : State} {id : Nat} {slot : Slot} (h : Held base s)
    (hid : s.objects id = some slot) (hfree : slot.freed = false) :
    Held base ⟨(swShareMemory_mmap_free s.proc slot.object).1,
      Function.update s.objects id (some { slot with freed := true })⟩ := by
  have ho : s.opened id = slot.opened := by unfold State.opened; rw [hid]; rfl
  have hm : s.mapped id = slot.mapped := by unfold State.mapped; rw [hid]; rfl
  have hgone : Slot.mapped { slot with freed := true } = none :=
    if_neg fun hl => absurd hl.1.2 (by simp)
  refine ⟨?_, ?_, ?_⟩
  · -- the descriptor stays
    rw [opened_update]
    show Covers _ {fd | fd ∈ (s.proc.munmap _ _).1.fds} (Function.update s.opened id slot.opened)
    rw [munmap_fds, update_same ho]
    exact h.fds
  · rw [mapped_update, hgone]
    show Covers _ {r | r ∈ (s.proc.munmap slot.object.region.addr slot.object.region.size).1.maps} _
    by_cases hmapped : slot.Live ∧ slot.object.mem ≠ MAP_FAILED
    · have hslot : s.mapped id = some slot.object.region := hm.trans (if_pos hmapped)
      rw [munmap_maps (h.maps.mem_of_entry hslot)]
      exact h.maps.release hslot
    · have hslot : s.mapped id = none := hm.trans (if_neg hmapped)
      have hinvalid : ¬ slot.object.region.Valid := by
        intro hv
        apply hmapped
        refine ⟨⟨?_, hfree⟩, hv.addr_ne⟩
        intro hnull
        rw [h.null id slot hid hnull] at hv
        exact absurd hv (by decide)
      rw [munmap_invalid s.proc hinvalid, update_same hslot]
      exact h.maps
  · intro i slot' hi hret
    rcases update_eq_some_iff.mp hi with ⟨-, hslot⟩ | ⟨-, hi⟩
    · obtain rfl := Option.some.inj hslot
      exact h.null id slot hid hret
    · exact h.null i slot' hi hret

theorem held {base : Process} {s : State} (h : (calls base).Reachable s) : Held base s := by
  apply h.invariant
  · rintro s rfl
    exact held_start base
  · intro s e s' _ hi hs
    rcases step_cases hs with ⟨id, size, mapfile, o, m, p, object, ret, -, hid, hc, rfl⟩ |
      ⟨id, slot, -, hid, hfree, rfl⟩
    · exact held_create hi hid hc
    · exact held_free hi hid hfree

/-! ### The balance -/

/-- Every object handed out has its mapping still. -/
def Clean (s : State) : Prop :=
  ∀ id slot, s.objects id = some slot → slot.ret ≠ NULL →
    slot.freed = false ∧ slot.object.mem ≠ MAP_FAILED

theorem entry_iff {α : Type} {o : Option Slot} {P : Slot → Prop} [DecidablePred P] {g : Slot → α}
    {a : α} : (o.bind fun slot => if P slot then some (g slot) else none) = some a ↔
      ∃ slot, o = some slot ∧ P slot ∧ g slot = a := by
  rw [Option.bind_eq_some_iff]
  constructor
  · rintro ⟨slot, ho, hslot⟩
    obtain ⟨hp, hg⟩ := Option.ite_none_right_eq_some.mp hslot
    exact ⟨slot, ho, hp, Option.some.inj hg⟩
  · rintro ⟨slot, ho, hp, hg⟩
    refine ⟨slot, ho, ?_⟩
    rw [if_pos hp, hg]

theorem balanced_iff_clean {base : Process} {s : State} (h : Held base s) :
    Balanced base s ↔ Clean s := by
  constructor
  · intro hb id slot hid hret
    have hopened : s.opened id = some slot.object.tmpfd := entry_iff.mpr ⟨slot, hid, hret, rfl⟩
    have hfree : slot.freed = false := by
      rcases (hb.fds _).mp (h.fds.mem_of_entry hopened) with hbase | ⟨j, slot', hj, hlive, htmp⟩
      · exact absurd hbase (h.fds.notMem id _ hopened)
      · have hj' : s.opened j = some slot.object.tmpfd := entry_iff.mpr ⟨slot', hj, hlive.1, htmp⟩
        obtain rfl := h.fds.inj id j _ hopened hj'
        rw [Option.some.inj (hid.symm.trans hj)]
        exact hlive.2
    refine ⟨hfree, ?_⟩
    have hmem := (hb.maps slot.object.region).mpr (Or.inr ⟨id, slot, hid, ⟨hret, hfree⟩, rfl⟩)
    exact (s.proc.valid _ hmem).addr_ne
  · intro hc
    constructor
    · intro fd
      apply (h.fds.mem_iff fd).trans
      apply or_congr_right
      constructor
      · rintro ⟨id, hid⟩
        obtain ⟨slot, hslot, hret, htmp⟩ := entry_iff.mp hid
        exact ⟨id, slot, hslot, ⟨hret, (hc id slot hslot hret).1⟩, htmp⟩
      · rintro ⟨id, slot, hslot, hlive, htmp⟩
        exact ⟨id, entry_iff.mpr ⟨slot, hslot, hlive.1, htmp⟩⟩
    · intro r
      apply (h.maps.mem_iff r).trans
      apply or_congr_right
      constructor
      · rintro ⟨id, hid⟩
        obtain ⟨slot, hslot, hmapped, hr⟩ := entry_iff.mp hid
        exact ⟨id, slot, hslot, hmapped.1, hr⟩
      · rintro ⟨id, slot, hslot, hlive, hr⟩
        exact ⟨id, entry_iff.mpr ⟨slot, hslot, ⟨hlive, (hc id slot hslot hlive.1).2⟩, hr⟩⟩

theorem accounted_iff_clean {base : Process} {s : State} (h : Held base s) :
    Accounted base s ↔ Clean s := by
  rw [← balanced_iff_clean h]
  constructor
  · exact fun ha => ha.1
  · intro hb
    refine ⟨hb, fun hall => ⟨fun fd => ?_, fun r => ?_⟩⟩
    · rw [hb.fds fd, or_iff_left]
      rintro ⟨id, slot, hid, hlive, -⟩
      exact hall id slot hid hlive
    · rw [hb.maps r, or_iff_left]
      rintro ⟨id, slot, hid, hlive, -⟩
      exact hall id slot hid hlive

theorem clean_update {s : State} (h : Clean s) (p : Process) (id : Nat) (slot : Slot) :
    Clean ⟨p, Function.update s.objects id (some slot)⟩ ↔
      (slot.ret ≠ NULL → slot.freed = false ∧ slot.object.mem ≠ MAP_FAILED) := by
  constructor
  · intro hc hret
    exact hc id slot (Function.update_self ..) hret
  · intro hslot i slot' hi hret
    rcases update_eq_some_iff.mp hi with ⟨-, heq⟩ | ⟨-, hi⟩
    · obtain rfl := Option.some.inj heq
      exact hslot hret
    · exact h i slot' hi hret

theorem clean_step {s s' : State} {e : Event} (h : Clean s) (hs : s.step e = some s') :
    Clean s' ↔ ¬ Leaks s e := by
  rcases step_cases hs with ⟨id, size, mapfile, o, m, p, object, ret, rfl, hid, hc, rfl⟩ |
    ⟨id, slot, rfl, hid, hfree, rfl⟩
  · rw [clean_update h]
    rcases create_cases hc with ⟨rfl, -, -, hret⟩ | ⟨n, rfl, hn, -, -, -, hne, hmap⟩
    · have hl : ¬ Leaks s (.create id size mapfile .fail m) := by cases m <;> exact fun h => h
      exact ⟨fun _ => hl, fun _ h0 => absurd hret h0⟩
    · rcases hmap with ⟨rfl, -, hfail⟩ | ⟨addr, rfl, hfit, -⟩
      · exact ⟨fun hm _ => (hm hne).2 hfail, fun hl => absurd ⟨hid, hn⟩ hl⟩
      · exact ⟨fun _ hl => hl, fun _ _ => ⟨rfl, hfit.2.1.addr_ne⟩⟩
  · rw [clean_update h]
    constructor
    · rintro hm ⟨slot', hid', hlive⟩
      obtain rfl := Option.some.inj (hid.symm.trans hid')
      exact absurd (hm hlive.1).1 (by simp)
    · intro hl hret
      exact absurd ⟨slot, hid, hret, hfree⟩ hl

theorem create_failed {p : Process} {n : Nat} (hn : (n : Int) ∉ p.fds) (size : Nat)
    (mapfile : Option (List Char)) :
    ∃ r, swShareMemory_mmap_create p size mapfile (.fd n) .failed = some r := by
  have hopen : p.openFile (.fd n) = some ({ p with fds := n :: p.fds }, (n : Int)) := if_neg hn
  unfold swShareMemory_mmap_create
  have hmmap : ∀ q : Process, q.mmap size .failed = some (q, MAP_FAILED) := fun _ => rfl
  rw [hopen]
  dsimp only [Option.bind_eq_bind, Option.bind_some]
  have hne : ¬ MAP_FAILED = NULL := by decide
  rw [if_neg (by omega), hmmap, Option.bind_some, if_neg hne]
  exact ⟨_, rfl⟩

/-- A call that leaks can be made. -/
theorem leaks_enabled {s : State} {e : Event} (h : Leaks s e) : ∃ s', s.step e = some s' := by
  cases e with
  | create id size mapfile o m =>
    cases o with
    | fail => cases m <;> exact h.elim
    | fd n =>
      cases m with
      | mapped addr => exact h.elim
      | failed =>
        obtain ⟨hid, hn⟩ := h
        obtain ⟨r, hr⟩ := create_failed hn size mapfile
        unfold State.step
        dsimp only
        rw [hid, hr]
        exact ⟨_, rfl⟩
  | free id =>
    obtain ⟨slot, hid, hlive⟩ := h
    unfold State.step
    dsimp only
    rw [hid]
    dsimp only
    rw [hlive.2]
    exact ⟨_, rfl⟩

/-! ## Main results -/

/-- **The accounts.**  Descriptors and mappings are those of the live objects in every state of a
run exactly if no call of the run leaks. -/
theorem always_accounted_iff (base : Process) (es : List Event) :
    (calls base).Always es (Accounted base) ↔
      (calls base).Along es (fun s e => ¬ Leaks s e) := by
  apply System.always_iff_along
  · rintro s rfl
    apply (accounted_iff_clean (held_start base)).mpr
    intro id slot hid
    exact absurd hid (by simp)
  · intro s e s' hreach hi hs
    have hclean := (accounted_iff_clean (held hreach)).mp hi
    rw [accounted_iff_clean (held (hreach.next hs))]
    exact clean_step hclean hs
  · intro s e hno hl
    obtain ⟨s', hs⟩ := leaks_enabled hl
    exact hno s' hs

/-- A process with the standard descriptors and no mapping. -/
def fresh : Process := ⟨[0, 1, 2], [], by decide, List.Pairwise.nil⟩

/-- One object, created and freed: descriptor 3 is left. -/
theorem tmpfd_left_open :
    ¬ (calls fresh).Always [.create 0 64 none (.fd 3) (.mapped 4096), .free 0]
      (Accounted fresh) := by
  intro h
  have hrun : (calls fresh).Run [] ⟨fresh, fun _ => none⟩ := .start rfl
  have hcreate : State.step ⟨fresh, fun _ => none⟩
      (.create 0 64 none (.fd 3) (.mapped 4096)) = some _ := rfl
  have hrun := hrun.next hcreate
  have hrun := hrun.next (show State.step _ (.free 0) = some _ from rfl)
  have hacc := h _ [] _ rfl hrun
  have hall := hacc.2 (fun id slot hid hlive => by
    rcases update_eq_some_iff.mp hid with ⟨-, hslot⟩ | ⟨hne, hid⟩
    · rw [← Option.some.inj hslot] at hlive
      exact absurd hlive.2 (by decide)
    · rcases update_eq_some_iff.mp hid with ⟨heq, -⟩ | ⟨-, hid⟩
      · exact hne heq
      · exact absurd hid (by simp))
  have h3 : (3 : Int) ∈ fresh.fds := (hall.1 3).mp (by decide)
  exact absurd h3 (by decide)

/-! ## What is reported -/

/-- A mapping of that size was created. -/
def Made (p p' : Process) (size : Nat) : Prop := ∃ addr, p'.maps = ⟨addr, size⟩ :: p.maps

/-- The pointer is non-NULL exactly if a mapping was created; if none was, the object is empty. -/
structure Reported (p p' : Process) (size : Nat) (object : swShareMemory) (ret : Nat) : Prop where
  ret_iff : ret ≠ NULL ↔ Made p p' size
  empty : ¬ Made p p' size → ret = NULL ∧ object.mem = NULL ∧ object.size = 0
  /-- `swShareMemory_mmap_free` unmaps what was created, or nothing. -/
  freed : ∀ q : Process, object.region ∈ p'.maps ∧ object.size = size ∨
    (swShareMemory_mmap_free q object).1.maps = q.maps

theorem not_made {p p' : Process} (h : p'.maps = p.maps) (size : Nat) : ¬ Made p p' size := by
  rintro ⟨addr, hmaps⟩
  have hlen := congrArg List.length (h.symm.trans hmaps)
  rw [List.length_cons] at hlen
  omega

theorem munmap_none {p : Process} {addr size : Nat} (h : ¬ Region.Valid ⟨addr, size⟩) :
    (p.munmap addr size).1.maps = p.maps := by
  unfold Process.munmap
  rw [if_neg h]

/-- What is handed out is recorded with the size that was asked for. -/
theorem create_size {p p' : Process} {size ret : Nat} {mapfile : Option (List Char)} {o : Open}
    {m : Mmap} {object : swShareMemory}
    (h : swShareMemory_mmap_create p size mapfile o m = some (p', object, ret))
    (hret : ret ≠ NULL) : object.size = size := by
  unfold swShareMemory_mmap_create at h
  obtain ⟨⟨p1, tmpfd⟩, -, hrest⟩ := Option.bind_eq_some_iff.mp h
  dsimp only at hrest
  split at hrest
  · obtain ⟨-, hobj⟩ := Prod.mk.inj (Option.some.inj hrest)
    exact absurd (Prod.mk.inj hobj).2.symm hret
  · obtain ⟨⟨p2, mem⟩, -, hret'⟩ := Option.bind_eq_some_iff.mp hrest
    dsimp only at hret'
    split at hret'
    · obtain ⟨-, hobj⟩ := Prod.mk.inj (Option.some.inj hret')
      exact absurd (Prod.mk.inj hobj).2.symm hret
    · obtain ⟨-, hobj⟩ := Prod.mk.inj (Option.some.inj hret')
      rw [← (Prod.mk.inj hobj).1]

/-- **Failures.**  `swShareMemory_mmap_create` reports what it did exactly if `mmap` did not fail
behind an `open` that succeeded: `!mem` is not true of `MAP_FAILED`. -/
theorem create_reported_iff {p p' : Process} {size ret : Nat} {mapfile : Option (List Char)}
    {o : Open} {m : Mmap} {object : swShareMemory}
    (h : swShareMemory_mmap_create p size mapfile o m = some (p', object, ret)) :
    Reported p p' size object ret ↔ o = .fail ∨ m ≠ .failed := by
  have hsize := create_size h
  rcases create_cases h with ⟨rfl, rfl, rfl, rfl⟩ | ⟨n, rfl, -, -, -, hmem, hne, hmap⟩
  · have hnone : ¬ Made p' p' size := not_made rfl size
    refine iff_of_true ⟨iff_of_false (fun hne => hne rfl) hnone, fun _ => ⟨rfl, rfl, rfl⟩, ?_⟩
      (Or.inl rfl)
    exact fun q => Or.inr (munmap_none (by decide))
  · rcases hmap with ⟨rfl, hmaps, -⟩ | ⟨addr, rfl, hfit, hmaps⟩
    · refine iff_of_false (fun hr => ?_) ?_
      · exact not_made hmaps size (hr.ret_iff.mp hne)
      · rintro (hopen | hmmap)
        · cases hopen
        · exact hmmap rfl
    · have hregion : object.region = ⟨object.mem, size⟩ := by rw [← hsize hne]; rfl
      have hmade : Made p p' size := ⟨object.mem, by rw [hmaps, hregion]⟩
      refine iff_of_true ⟨iff_of_true hne hmade, fun hnone => absurd hmade hnone, ?_⟩
        (Or.inr (by simp))
      intro q
      rw [hmaps]
      exact Or.inl ⟨List.mem_cons_self, hsize hne⟩

/-- An `open` that fails is reported. -/
theorem create_reported_openFails :
    Reported fresh fresh 4096 bzero NULL ↔ Open.fail = .fail ∨ Mmap.failed ≠ .failed :=
  create_reported_iff
    (rfl : swShareMemory_mmap_create fresh 4096 none .fail .failed = some (fresh, bzero, NULL))

/-- No memory for 4096 bytes: the pointer returned is `MAP_FAILED`, not NULL. -/
theorem create_not_reported : ¬ ∀ (p p' : Process) (size ret : Nat) (mapfile : Option (List Char))
    (o : Open) (m : Mmap) (object : swShareMemory),
    swShareMemory_mmap_create p size mapfile o m = some (p', object, ret) →
    Reported p p' size object ret := by
  intro h
  have hr := h fresh _ 4096 MAP_FAILED none (.fd 3) .failed _ rfl
  exact not_made rfl 4096 (hr.ret_iff.mp (by decide))

end StudyDoc.SharedMmap
