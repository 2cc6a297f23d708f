import StudyDoc.Lib.DList
import StudyDoc.Lib.Transition
import Mathlib.Data.List.Induction
import Mathlib.Data.List.Perm.Basic
import Mathlib.Tactic.Common

/-!
# `pool.c`: `swFixedPool_alloc` and `swFixedPool_free`

The slices of a pool are numbered; `next`, `pre` and `lock` are their fields.  An allocation moves
the head of the list to the back, a release moves its slice to the front.

    free ++ used, the free ones not locked, the used ones locked         (Shape)
    alloc: a :: free, used ↦ free, used ++ [a]                           (alloc_shape)
    free i: i goes to the front of free                                  (free_shape)
    no null pointer is followed ↔ two slices at least, or no allocation  (noNull_iff)

`swFixedPool_alloc` tests and counts fields that do not exist; they are read as the `lock` of the
slice at `object->head`, and `slice_use`.
-/

namespace StudyDoc.Pool

open Transition Linked

/-! ## Algorithm -/

/-- A pointer is the number of a slice, or null. -/
structure FixedPool where
  head : Option Nat
  tail : Option Nat
  slice_use : UInt32
  next : Nat → Option Nat
  pre : Nat → Option Nat
  /-- `lock` is only ever set to 0 or 1. -/
  lock : Nat → Bool

namespace FixedPool

/-- The new state and the slice whose `data` is returned, or `NULL`; `none` if a null pointer is
followed. -/
def alloc (object : FixedPool) : Option (FixedPool × Option Nat) :=
  match object.head with
  | none => none
  | some slice =>
    if object.lock slice then some (object, none)
    else
      match object.next slice, object.tail with
      | some next, some tail =>
        some ({
          head := some next
          tail := some slice
          slice_use := object.slice_use + 1
          next := Function.update (Function.update object.next tail (some slice)) slice none
          pre := Function.update (Function.update object.pre next none) slice (some tail)
          lock := Function.update object.lock slice true }, some slice)
      | _, _ => none

/-- `if(slice->lock) object->slice_use--; slice->lock = 0;` -/
def unlock (object : FixedPool) (slice : Nat) : FixedPool :=
  { object with
    slice_use := if object.lock slice then object.slice_use - 1 else object.slice_use
    lock := Function.update object.lock slice false }

/-- The slice leaves its place behind `pre`. -/
def unlink (object : FixedPool) (slice pre : Nat) : FixedPool :=
  match object.next slice with
  | none => { object with next := Function.update object.next pre none, tail := some pre }
  | some next =>
    { object with
      next := Function.update object.next pre (some next)
      pre := Function.update object.pre next (some pre) }

/-- The slice goes to the front. -/
def pushFront (object : FixedPool) (slice : Nat) : Option FixedPool :=
  object.head.map fun head =>
    { object with
      pre := Function.update (Function.update object.pre slice none) head (some slice)
      next := Function.update object.next slice (some head)
      head := some slice }

def toFront (object : FixedPool) (slice : Nat) : Option FixedPool :=
  match object.pre slice with
  | none => some object
  | some pre => (object.unlink slice pre).pushFront slice

/-- From the test of `slice->lock` on. -/
def free (object : FixedPool) (slice : Nat) : Option FixedPool :=
  (object.unlock slice).toFront slice

end FixedPool

inductive Event where
  | alloc
  /-- Of the header of slice `i`, locked or not. -/
  | free (i : Nat)

def FixedPool.step (slice_num : UInt32) (s : FixedPool) : Event → Option FixedPool
  | .alloc => s.alloc.map Prod.fst
  | .free i => if i < slice_num.toNat then s.free i else none

/-- The list runs from `head` to `tail` through the slices `l`. -/
structure Listed (s : FixedPool) (l : List Nat) : Prop where
  list : DList s.next s.pre l
  head : s.head = l.head?
  tail : s.tail = l.getLast?

/-- Any order of the slices, all of them free. -/
def fixedPool (slice_num : UInt32) : System FixedPool Event where
  init s := (∃ l, l.Perm (List.range slice_num.toNat) ∧ Listed s l) ∧
    (∀ i, s.lock i = false) ∧ s.slice_use = 0
  step s e s' := s.step slice_num e = some s'

/-! ## Moving a slice -/

theorem unlink_listed {s : FixedPool} {p q : List Nat} {a b : Nat}
    (h : Listed s (p ++ a :: q)) (hb : p.getLast? = some b) : Listed (s.unlink a b) (p ++ q) := by
  have hne : p ≠ [] := by
    rintro rfl
    cases hb
  have hhead : s.head = (p ++ q).head? := by
    rw [h.head, List.head?_append_of_ne_nil _ hne, List.head?_append_of_ne_nil _ hne]
  have hnext := h.list.links.1
  unfold FixedPool.unlink
  cases q with
  | nil =>
    rw [List.append_nil] at hhead ⊢
    simp only [hnext, List.head?_nil]
    exact ⟨h.list.unlinkLast hb, hhead, hb.symm⟩
  | cons d q =>
    simp only [hnext, List.head?_cons]
    refine ⟨h.list.unlinkMiddle hb, hhead, ?_⟩
    rw [h.tail]
    simp [List.getLast?_append]

theorem pushFront_listed {s : FixedPool} {l : List Nat} {a : Nat} (h : Listed s l) (ha : a ∉ l)
    (hne : l ≠ []) : ∃ s', s.pushFront a = some s' ∧ Listed s' (a :: l) ∧ s'.lock = s.lock ∧
      s'.slice_use = s.slice_use := by
  obtain ⟨c, l, rfl⟩ := List.exists_cons_of_ne_nil hne
  unfold FixedPool.pushFront
  rw [h.head]
  refine ⟨_, rfl, ⟨h.list.pushFront ha rfl, rfl, ?_⟩, rfl, rfl⟩
  show s.tail = (a :: c :: l).getLast?
  rw [h.tail, List.getLast?_cons_cons]

theorem unlink_fields (s : FixedPool) (a b : Nat) :
    (s.unlink a b).lock = s.lock ∧ (s.unlink a b).slice_use = s.slice_use := by
  unfold FixedPool.unlink
  split <;> exact ⟨rfl, rfl⟩

theorem toFront_listed {s : FixedPool} {p q : List Nat} {a : Nat} (h : Listed s (p ++ a :: q)) :
    ∃ s', s.toFront a = some s' ∧ Listed s' (a :: (p ++ q)) ∧ s'.lock = s.lock ∧
      s'.slice_use = s.slice_use := by
  have hpre := h.list.links.2
  unfold FixedPool.toFront
  cases hlast : p.getLast? with
  | none =>
    obtain rfl : p = [] := List.getLast?_eq_none_iff.mp hlast
    rw [hpre, hlast]
    exact ⟨s, rfl, h, rfl, rfl⟩
  | some b =>
    rw [hpre, hlast]
    have hunlink := unlink_listed h hlast
    have hnotin : a ∉ p ++ q := (List.nodup_middle.mp h.list.nodup).notMem
    have hne : p ++ q ≠ [] := by
      intro hnil
      rw [(List.append_eq_nil_iff.mp hnil).1] at hlast
      cases hlast
    obtain ⟨s', hs', hlisted, hlock, huse⟩ := pushFront_listed hunlink hnotin hne
    obtain ⟨hlock', huse'⟩ := unlink_fields s a b
    exact ⟨s', hs', hlisted, hlock.trans hlock', huse.trans huse'⟩

/-! ## Free slices first -/

structure Shape (slice_num : UInt32) (s : FixedPool) (free used : List Nat) : Prop where
  perm : (free ++ used).Perm (List.range slice_num.toNat)
  listed : Listed s (free ++ used)
  unlocked : ∀ i ∈ free, s.lock i = false
  locked : ∀ i ∈ used, s.lock i = true
  slice_use : s.slice_use.toNat = used.length

namespace Shape

variable {slice_num : UInt32} {s : FixedPool} {free used : List Nat}

theorem length (h : Shape slice_num s free used) :
    free.length + used.length = slice_num.toNat := by
  rw [← List.length_append, h.perm.length_eq, List.length_range]

theorem mem_iff (h : Shape slice_num s free used) (i : Nat) :
    i ∈ free ∨ i ∈ used ↔ i < slice_num.toNat := by
  rw [← List.mem_append, h.perm.mem_iff, List.mem_range]

/-- `slice_use` counts the locked slices. -/
theorem slice_use_eq (h : Shape slice_num s free used) :
    s.slice_use.toNat = (List.range slice_num.toNat).countP s.lock := by
  have hfree : free.countP s.lock = 0 := by
    apply List.countP_eq_zero.mpr
    intro i hi
    simp [h.unlocked i hi]
  have hused : used.countP s.lock = used.length := List.countP_eq_length.mpr h.locked
  rw [← h.perm.countP_eq, List.countP_append, hfree, hused, h.slice_use, Nat.zero_add]

/-- The head is locked only if every slice is. -/
theorem allLocked_iff (h : Shape slice_num s free used) :
    (∀ i, i < slice_num.toNat → s.lock i = true) ↔ free = [] := by
  constructor
  · intro hall
    apply List.eq_nil_iff_forall_not_mem.mpr
    intro i hi
    have hlocked := hall i ((h.mem_iff i).mp (Or.inl hi))
    rw [h.unlocked i hi] at hlocked
    cases hlocked
  · rintro rfl i hi
    exact h.locked i (((h.mem_iff i).mpr hi).resolve_left List.not_mem_nil)

end Shape

section

variable {slice_num : UInt32} {s : FixedPool}

/-- With every slice in use `swFixedPool_alloc` returns `NULL`. -/
theorem alloc_full {used : List Nat} (h : Shape slice_num s [] used) (hne : used ≠ []) :
    s.alloc = some (s, none) := by
  obtain ⟨a, used, rfl⟩ := List.exists_cons_of_ne_nil hne
  have hhead : s.head = some a := h.listed.head
  unfold FixedPool.alloc
  simp only [hhead, h.locked a List.mem_cons_self, if_true]

/-- Otherwise it takes the first slice to the back. -/
theorem alloc_shape {a b : Nat} {free used l : List Nat} (h : Shape slice_num s (a :: free) used)
    (hl : free ++ used = b :: l) :
    ∃ s', s.alloc = some (s', some a) ∧ Shape slice_num s' free (used ++ [a]) := by
  have hlist : DList s.next s.pre (a :: b :: l) := hl ▸ h.listed.list
  have hhead : s.head = some a := h.listed.head
  obtain ⟨t, ht⟩ : ∃ t, (b :: l).getLast? = some t := ⟨_, List.getLast?_cons⟩
  have htail : s.tail = some t := by
    rw [h.listed.tail, List.cons_append, hl, List.getLast?_cons_cons, ht]
  have hnext : s.next a = some b := (List.nil_append (a :: b :: l) ▸ hlist).links.1
  have hnotin : a ∉ b :: l := (List.nodup_cons.mp hlist.nodup).1
  have hfree : a ∉ free := fun hmem => hnotin (hl ▸ List.mem_append_left _ hmem)
  have hlength := h.length
  have hlt := slice_num.toNat_lt
  rw [List.length_cons] at hlength
  unfold FixedPool.alloc
  simp only [hhead, h.unlocked a List.mem_cons_self, Bool.false_eq_true, if_false, hnext, htail]
  refine ⟨_, rfl, ?_, ⟨?_, ?_, ?_⟩, fun i hi => ?_, fun i hi => ?_, ?_⟩
  · rw [← List.append_assoc]
    exact (List.perm_append_singleton a _).trans h.perm
  · rw [← List.append_assoc, hl]
    exact hlist.popFront.pushBack hnotin ht
  · rw [← List.append_assoc, hl]
    rfl
  · rw [← List.append_assoc]
    exact List.getLast?_concat.symm
  · show Function.update s.lock a true i = false
    have hia : i ≠ a := by
      rintro rfl
      exact hfree hi
    rw [Function.update_of_ne hia]
    exact h.unlocked i (List.mem_cons_of_mem a hi)
  · show Function.update s.lock a true i = true
    rcases eq_or_ne i a with rfl | hia
    · exact Function.update_self ..
    · rw [Function.update_of_ne hia]
      apply h.locked
      simpa [hia] using hi
  · show (s.slice_use + 1).toNat = (used ++ [a]).length
    rw [UInt32.toNat_add, h.slice_use, List.length_append]
    show (used.length + 1) % 2 ^ 32 = used.length + 1
    omega

theorem unlock_unlocked {l : List Nat} (h : ∀ j ∈ l, s.lock j = false) (i : Nat) :
    ∀ j ∈ i :: l, (s.unlock i).lock j = false := by
  intro j hj
  show Function.update s.lock i false j = false
  rcases eq_or_ne j i with rfl | hji
  · exact Function.update_self ..
  · rw [Function.update_of_ne hji]
    exact h j ((List.mem_cons.mp hj).resolve_left hji)

theorem unlock_locked {l : List Nat} (h : ∀ j ∈ l, s.lock j = true) {i : Nat} (hi : i ∉ l) :
    ∀ j ∈ l, (s.unlock i).lock j = true := by
  intro j hj
  have hji : j ≠ i := by
    rintro rfl
    exact hi hj
  show Function.update s.lock i false j = true
  rw [Function.update_of_ne hji]
  exact h j hj

theorem forall_mem_middle {P : Nat → Prop} {p q : List Nat} {i : Nat}
    (h : ∀ j ∈ p ++ i :: q, P j) : ∀ j ∈ p ++ q, P j := by
  intro j hj
  apply h
  simp only [List.mem_append, List.mem_cons] at hj ⊢
  tauto

/-- A release brings the slice to the front, and unlocks it. -/
theorem free_shape {free used : List Nat} (h : Shape slice_num s free used) {i : Nat}
    (hi : i < slice_num.toNat) :
    ∃ s' free' used', s.free i = some s' ∧ Shape slice_num s' free' used' := by
  have hunlock : ∀ l, Listed s l → Listed (s.unlock i) l := fun l hl => ⟨hl.list, hl.head, hl.tail⟩
  have hperm := h.perm
  have hlisted := h.listed
  have hnd := h.listed.list.nodup
  unfold FixedPool.free
  by_cases hfree : i ∈ free
  · obtain ⟨p, q, rfl⟩ := List.append_of_mem hfree
    rw [List.append_assoc, List.cons_append] at hlisted hperm hnd
    have hout : i ∉ used := by
      intro hused
      apply (List.nodup_middle.mp hnd).notMem
      exact List.mem_append_right _ (List.mem_append_right _ hused)
    have hrest : ∀ j ∈ p ++ q, s.lock j = false := forall_mem_middle h.unlocked
    obtain ⟨s', hs', hlisted', hlock, huse⟩ := toFront_listed (hunlock _ hlisted)
    refine ⟨s', i :: (p ++ q), used, hs', ?_, ?_, ?_, ?_, ?_⟩
    · rw [List.cons_append, List.append_assoc]
      exact List.perm_middle.symm.trans hperm
    · rw [List.cons_append, List.append_assoc]
      exact hlisted'
    · rw [hlock]
      exact unlock_unlocked hrest i
    · rw [hlock]
      exact unlock_locked h.locked hout
    · rw [huse, ← h.slice_use]
      show (if s.lock i then s.slice_use - 1 else s.slice_use).toNat = s.slice_use.toNat
      rw [h.unlocked i hfree, if_neg Bool.false_ne_true]
  · have hused := ((h.mem_iff i).mpr hi).resolve_left hfree
    obtain ⟨p, q, rfl⟩ := List.append_of_mem hused
    rw [← List.append_assoc] at hlisted hperm hnd
    have hout : i ∉ p ++ q := by
      intro hmem
      apply (List.nodup_middle.mp hnd).notMem
      rw [List.append_assoc]
      exact List.mem_append_right _ hmem
    have hrest : ∀ j ∈ p ++ q, s.lock j = true := forall_mem_middle h.locked
    obtain ⟨s', hs', hlisted', hlock, huse⟩ := toFront_listed (hunlock _ hlisted)
    refine ⟨s', i :: free, p ++ q, hs', ?_, ?_, ?_, ?_, ?_⟩
    · rw [List.cons_append, ← List.append_assoc]
      exact List.perm_middle.symm.trans hperm
    · rw [List.cons_append, ← List.append_assoc]
      exact hlisted'
    · rw [hlock]
      exact unlock_unlocked h.unlocked i
    · rw [hlock]
      exact unlock_locked hrest hout
    · have hcount := h.slice_use
      rw [List.length_append, List.length_cons] at hcount
      have hone : (1 : UInt32) ≤ s.slice_use := by
        rw [UInt32.le_iff_toNat_le]
        show 1 ≤ s.slice_use.toNat
        omega
      rw [huse, List.length_append]
      show (if s.lock i then s.slice_use - 1 else s.slice_use).toNat = p.length + q.length
      rw [h.locked i hused, if_pos rfl, UInt32.toNat_sub_of_le _ _ hone]
      show s.slice_use.toNat - 1 = p.length + q.length
      omega

/-- With no slice, or a single one, `swFixedPool_alloc` follows a null pointer. -/
theorem alloc_single {free used : List Nat} (h : Shape slice_num s free used)
    (hshort : free ++ used = [] ∨ ∃ a, free = [a] ∧ used = []) : s.alloc = none := by
  rcases hshort with hnil | ⟨a, rfl, rfl⟩
  · have hhead : s.head = none := by
      rw [h.listed.head, hnil]
      rfl
    unfold FixedPool.alloc
    rw [hhead]
  · have hhead : s.head = some a := h.listed.head
    have hlist : DList s.next s.pre ([] ++ a :: []) := h.listed.list
    unfold FixedPool.alloc
    simp only [hhead, h.unlocked a List.mem_cons_self, hlist.links.1, Bool.false_eq_true, if_false,
      List.head?_nil]

theorem alloc_keeps {free used : List Nat} (h : Shape slice_num s free used)
    {s' : FixedPool} {r : Option Nat} (hs : s.alloc = some (s', r)) :
    (∃ free' used', Shape slice_num s' free' used') ∧ (r = none ↔ free = []) := by
  cases free with
  | nil =>
    by_cases hne : used = []
    · rw [alloc_single h (Or.inl hne)] at hs
      cases hs
    · rw [alloc_full h hne] at hs
      cases hs
      exact ⟨⟨[], used, h⟩, iff_of_true rfl rfl⟩
  | cons a free =>
    cases hl : free ++ used with
    | nil =>
      obtain ⟨rfl, rfl⟩ := List.append_eq_nil_iff.mp hl
      rw [alloc_single h (Or.inr ⟨a, rfl, rfl⟩)] at hs
      cases hs
    | cons b l =>
      obtain ⟨t, ht, hshape⟩ := alloc_shape h hl
      rw [ht] at hs
      cases hs
      exact ⟨⟨free, used ++ [a], hshape⟩, iff_of_false (by simp) (List.cons_ne_nil a free)⟩

theorem alloc_returns {free used : List Nat} (hn : 2 ≤ slice_num.toNat)
    (h : Shape slice_num s free used) : ∃ r, s.alloc = some r := by
  have hlength := h.length
  cases free with
  | nil =>
    have hne : used ≠ [] := by
      rintro rfl
      simp only [List.length_nil] at hlength
      omega
    exact ⟨_, alloc_full h hne⟩
  | cons a free =>
    cases hl : free ++ used with
    | nil =>
      have := congrArg List.length hl
      rw [List.length_append, List.length_nil] at this
      rw [List.length_cons] at hlength
      omega
    | cons b l =>
      obtain ⟨s', hs', -⟩ := alloc_shape h hl
      exact ⟨_, hs'⟩

/-- `swFixedPool_alloc` returns no slice but the head. -/
theorem head_of_alloc {s' : FixedPool} {a : Nat} (h : s.alloc = some (s', some a)) :
    s.head = some a := by
  unfold FixedPool.alloc at h
  split at h
  · cases h
  · next slice hhead =>
    split at h
    · cases h
    · split at h
      · obtain ⟨-, hslice⟩ := Prod.mk.inj (Option.some.inj h)
        rw [hhead, hslice]
      · cases h

/-- `swFixedPool_alloc` returns the head, if it is free and has a slice behind it. -/
theorem alloc_slice_iff {free used : List Nat}
    (h : Shape slice_num s free used) (a : Nat) :
    (∃ s', s.alloc = some (s', some a)) ↔
      s.head = some a ∧ s.lock a = false ∧ ∃ b, s.next a = some b := by
  unfold FixedPool.alloc
  cases hhead : s.head with
  | none => simp
  | some slice =>
    obtain ⟨t, ht⟩ : ∃ t, s.tail = some t := by
      have hne : free ++ used ≠ [] := by
        intro hnil
        rw [h.listed.head, hnil] at hhead
        cases hhead
      exact ⟨_, h.listed.tail.trans (List.getLast?_eq_some_getLast hne)⟩
    cases hlock : s.lock slice with
    | true =>
      simp only [hlock, if_true]
      constructor
      · rintro ⟨s', halloc⟩
        cases halloc
      · rintro ⟨hsame, hfree, -⟩
        obtain rfl := Option.some.inj hsame
        rw [hlock] at hfree
        cases hfree
    | false =>
      simp only [hlock, ht, Bool.false_eq_true, if_false]
      cases hnext : s.next slice with
      | none =>
        constructor
        · rintro ⟨s', halloc⟩
          cases halloc
        · rintro ⟨hsame, -, b, hb⟩
          obtain rfl := Option.some.inj hsame
          rw [hnext] at hb
          cases hb
      | some b =>
        constructor
        · rintro ⟨s', halloc⟩
          obtain rfl : slice = a := by simpa using (Prod.mk.inj (Option.some.inj halloc)).2
          exact ⟨rfl, hlock, b, hnext⟩
        · rintro ⟨hsame, -, -⟩
          obtain rfl := Option.some.inj hsame
          exact ⟨_, rfl⟩

theorem step_shape {s' : FixedPool} {e : Event} {free used : List Nat}
    (h : Shape slice_num s free used) (hs : s.step slice_num e = some s') :
    ∃ free' used', Shape slice_num s' free' used' := by
  cases e with
  | alloc =>
    obtain ⟨⟨t, r⟩, ht, rfl⟩ := Option.map_eq_some_iff.mp hs
    exact (alloc_keeps h ht).1
  | free i =>
    dsimp only [FixedPool.step] at hs
    split at hs
    · next hi =>
      obtain ⟨t, free', used', ht, hshape⟩ := free_shape h hi
      rw [ht] at hs
      cases hs
      exact ⟨free', used', hshape⟩
    · cases hs

theorem reachable_shape (h : (fixedPool slice_num).Reachable s) :
    ∃ free used, Shape slice_num s free used :=
  h.invariant (I := fun s => ∃ free used, Shape slice_num s free used)
    (fun s hi => by
      obtain ⟨⟨l, hperm, hlisted⟩, hlock, huse⟩ := hi
      refine ⟨l, [], ?_, ?_, fun i _ => hlock i, by simp, by simp [huse]⟩
      · rwa [List.append_nil]
      · rwa [List.append_nil])
    (fun s e s' _ hi hs => by
      obtain ⟨free, used, hshape⟩ := hi
      exact step_shape hshape hs)

/-- **The list of a pool.**  After any allocations and releases `next` leads from `head` once
through every slice to `tail` and `pre` leads back, the free slices come first, `slice_use` is the
number of the others, and `swFixedPool_alloc` returns `NULL` only when there is no free one. -/
theorem pool_listed (hn : 2 ≤ slice_num.toNat) (h : (fixedPool slice_num).Reachable s) :
    ∃ l : List Nat, l.Perm (List.range slice_num.toNat) ∧
      s.head = l.head? ∧ s.tail = l.getLast? ∧
      (∀ p a q, l = p ++ a :: q → s.next a = q.head? ∧ s.pre a = p.getLast?) ∧
      (∃ free used, l = free ++ used ∧ (∀ i ∈ free, s.lock i = false) ∧
        ∀ i ∈ used, s.lock i = true) ∧
      s.slice_use.toNat = (List.range slice_num.toNat).countP s.lock ∧
      (∃ s' r, s.alloc = some (s', r) ∧ (r = none ↔ ∀ i, i < slice_num.toNat → s.lock i = true)) ∧
      ∀ i, i < slice_num.toNat → ∃ s', s.free i = some s' := by
  obtain ⟨free, used, hshape⟩ := reachable_shape h
  refine ⟨free ++ used, hshape.perm, hshape.listed.head, hshape.listed.tail, fun p a q hl => ?_,
    ⟨free, used, rfl, hshape.unlocked, hshape.locked⟩, hshape.slice_use_eq, ?_, fun i hi => ?_⟩
  · have hlist := hshape.listed.list
    rw [hl] at hlist
    exact hlist.links
  · obtain ⟨⟨s', r⟩, hr⟩ := alloc_returns hn hshape
    refine ⟨s', r, hr, ?_⟩
    rw [hshape.allLocked_iff]
    exact (alloc_keeps hshape hr).2
  · obtain ⟨s', -, -, hs', -⟩ := free_shape hshape hi
    exact ⟨s', hs'⟩

/-! ## Null pointers -/

/-- The call follows no null pointer. -/
def NoNull (slice_num : UInt32) (s : FixedPool) : Event → Prop
  | .alloc => s.alloc ≠ none
  | .free i => i < slice_num.toNat → s.free i ≠ none

theorem noNull_free {free used : List Nat} (h : Shape slice_num s free used) (i : Nat) :
    NoNull slice_num s (.free i) := by
  intro hi
  obtain ⟨s', -, -, hs', -⟩ := free_shape h hi
  rw [hs']
  exact Option.some_ne_none s'

/-- The only slice, `head` and `tail` at once. -/
def singlePool : FixedPool := ⟨some 0, some 0, 0, fun _ => none, fun _ => none, fun _ => false⟩

theorem singlePool_init (h1 : slice_num.toNat = 1) : (fixedPool slice_num).init singlePool := by
  refine ⟨⟨[0], ?_, ⟨by decide, by simp [Seg, singlePool]⟩, rfl, rfl⟩, fun _ => rfl, rfl⟩
  rw [h1]
  exact List.Perm.refl _

theorem singlePool_free : singlePool.free 0 = some singlePool := by
  have hunlock : singlePool.unlock 0 = singlePool := by
    unfold FixedPool.unlock singlePool
    rw [Function.update_eq_self_iff.mpr rfl, if_neg Bool.false_ne_true]
  unfold FixedPool.free
  rw [hunlock]
  rfl

/-- Releases leave a pool of one slice as it is. -/
theorem singlePool_run (h1 : slice_num.toNat = 1) {es : List Event} (hnone : .alloc ∉ es)
    (hfree : ∀ i, .free i ∈ es → i < slice_num.toNat) :
    (fixedPool slice_num).Run es singlePool := by
  induction es using List.reverseRecOn with
  | nil => exact .start (singlePool_init h1)
  | append_singleton es e ih =>
    have hes := ih (fun hmem => hnone (List.mem_append_left _ hmem))
      (fun i hmem => hfree i (List.mem_append_left _ hmem))
    refine hes.next ?_
    show singlePool.step slice_num e = some singlePool
    cases e with
    | alloc => exact absurd (List.mem_append_right _ (List.mem_singleton_self _)) hnone
    | free i =>
      have hi := hfree i (List.mem_append_right _ (List.mem_singleton_self _))
      obtain rfl : i = 0 := by omega
      show (if 0 < slice_num.toNat then singlePool.free 0 else none) = some singlePool
      rw [if_pos hi, singlePool_free]

/-- **Null pointers.**  Over allocations and releases of slices no null pointer is followed, exactly
if the pool has two slices at least or nothing is allocated. -/
theorem noNull_iff (slice_num : UInt32) (es : List Event) (h1 : 1 ≤ slice_num.toNat)
    (hfree : ∀ i, .free i ∈ es → i < slice_num.toNat) :
    (fixedPool slice_num).Along es (NoNull slice_num) ↔
      2 ≤ slice_num.toNat ∨ .alloc ∉ es := by
  constructor
  · intro hall
    by_contra hnot
    obtain ⟨hlt, halloc⟩ := not_or.mp hnot
    have hone : slice_num.toNat = 1 := by omega
    -- up to the first allocation there are only releases
    obtain ⟨pre, post, hes, hpre⟩ := List.eq_append_cons_of_mem (not_not.mp halloc)
    have hrun : (fixedPool slice_num).Run pre singlePool :=
      singlePool_run hone hpre fun i hi => hfree i (hes ▸ List.mem_append_left _ hi)
    exact hall pre .alloc post singlePool hes hrun rfl
  · rintro h pre e post s he hr
    obtain ⟨free, used, hshape⟩ := reachable_shape ⟨pre, hr⟩
    cases e with
    | alloc =>
      have hn : 2 ≤ slice_num.toNat := h.resolve_right fun hnone => hnone (he ▸ by simp)
      obtain ⟨r, hr⟩ := alloc_returns hn hshape
      show s.alloc ≠ none
      rw [hr]
      exact Option.some_ne_none r
    | free i => exact noNull_free hshape i

/-- Two slices: both are allocated and released. -/
theorem noNull_pair : (fixedPool 2).Along [.alloc, .alloc, .free 0, .free 1] (NoNull 2) ↔
    2 ≤ (2 : UInt32).toNat ∨ .alloc ∉ [Event.alloc, .alloc, .free 0, .free 1] :=
  noNull_iff 2 [.alloc, .alloc, .free 0, .free 1] (by decide) (by simp)

/-- The slice of a pool of one has none behind it, and `slice->next->pre` is written. -/
theorem alloc_follows_null : ¬ ∀ (slice_num : UInt32) (es : List Event), 1 ≤ slice_num.toNat →
    (fixedPool slice_num).Along es (NoNull slice_num) := by
  intro h
  exact h 1 [.alloc] (by decide) [] .alloc [] singlePool rfl (.start (singlePool_init rfl)) rfl

/-- Two slices, one of them in use. -/
def pairPool : FixedPool :=
  ⟨some 0, some 1, 0, fun i => if i = 0 then some 1 else none,
    fun i => if i = 1 then some 0 else none, fun _ => false⟩

theorem pairPool_init : (fixedPool 2).init pairPool :=
  ⟨⟨[0, 1], List.Perm.refl _, ⟨by decide, by simp [Seg, pairPool]⟩, rfl, rfl⟩, fun _ => rfl, rfl⟩

theorem pool_listed_pairPool : ∃ s, pairPool.alloc = some (s, some 0) ∧
    s.slice_use.toNat = (List.range 2).countP s.lock ∧ s.slice_use.toNat = 1 := by
  have hstep : ∀ (s : FixedPool) e s', s.step 2 e = some s' → (fixedPool 2).step s e s' :=
    fun _ _ _ h => h
  have r : (fixedPool 2).Run [] pairPool := .start pairPool_init
  have r := r.next (hstep _ .alloc _ rfl)
  obtain ⟨l, -, -, -, -, -, huse, -⟩ := pool_listed (by decide) ⟨_, r⟩
  exact ⟨_, rfl, huse, rfl⟩

end

end StudyDoc.Pool
