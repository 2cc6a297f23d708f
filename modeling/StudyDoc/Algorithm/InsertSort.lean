import StudyDoc.Lib.Cells
import StudyDoc.Lib.Insertion
import Mathlib.Algebra.Order.Ring.Int

/-!
# `插入排序.md`: insertion sort with a sentinel, on a list passed by value

`L.r[0]` holds a copy of the record to insert, so the inner loop stops at 0 at the latest:

    r[0] = r[i]  →  the loop from i - 1 down stops at some j >= 0, the records above it shifted
                                                                             (meets_shift)

The function sorts its `L` (insertSort_sorts), and its `L` is a copy: the caller's list is what it
was (insertSort_caller), so it is sorted after the call exactly if it was before
(insertSort_visible_iff).
-/

namespace StudyDoc.InsertSort

open Cells Insertion

/-! ## Algorithm -/

def MAXSIZE : Nat := 20

structure RedType where
  key : Int
deriving DecidableEq

/-- `r[0]` to `r[MAXSIZE]` are the cells of the list, `r[0]` for the sentinel. -/
structure Sqlist where
  r : Nat → RedType
  length : Int

/-- One test of `for(j=i-1;L.r[0].key<L.r[j].key;--j)`, with its body, and `next` for the tests
that follow. -/
def test (j : Nat) (next : Cells RedType Nat) : Cells RedType Nat := do
  if (← read 0).key < (← read j).key then
    write (j + 1) (← read j)
    next
  else
    return j

/-- The inner loop from `j` down, and its last `j`; below 0 there is no cell. -/
def shift : Nat → Cells RedType Nat
  | 0 => test 0 fail
  | j + 1 => test (j + 1) (shift j)

def turn (i : Nat) : Cells RedType Unit := do
  if (← read i).key < (← read (i - 1)).key then
    write 0 (← read i)
    let j ← shift (i - 1)
    write (j + 1) (← read 0)

/-- `for(i = 2;i<=L.length;i++)` -/
def sort (length : Int) : Cells RedType Unit := loop 2 (length.toNat - 1) turn

/-- The two objects of a call: what the caller passed, and the parameter. -/
structure Call where
  caller : Sqlist
  L : Sqlist

/-- An argument is passed by value. -/
def pass (arg : Sqlist) : Call := ⟨arg, arg⟩

/-- The call, at its return. -/
def insertSort (arg : Sqlist) : Call :=
  let call := pass arg
  { call with L := { call.L with r := (sort call.L.length call.L.r).mem } }

/-- The keys of `r[1..length]`. -/
def keys (L : Sqlist) : List Int := (List.range' 1 L.length.toNat).map fun i => (L.r i).key

def Ascending (L : Sqlist) : Prop :=
  ∀ i k : Nat, 1 ≤ i → i ≤ k → (k : Int) ≤ L.length → (L.r i).key ≤ (L.r k).key

/-- Every inner loop stops above -1, the indices are those of the list, and it ends up sorted. -/
structure Sorts (L : Sqlist) : Prop where
  stops : (sort L.length L.r).value = some ()
  used : ∀ i ∈ (sort L.length L.r).used, (i : Int) ≤ L.length
  ascending : Ascending (insertSort L).L
  perm : (keys (insertSort L).L).Perm (keys L)

/-- The caller's list is sorted after the call. -/
def Visible (L : Sqlist) : Prop :=
  Ascending (insertSort L).caller ∧ (keys (insertSort L).caller).Perm (keys L)

/-! ## One turn -/

/-- The inner loop, from the gap at `j + 1` on, with the record to insert in the sentinel. -/
theorem meets_shift (a : Nat → RedType) {n i j : Nat} (hsentinel : a 0 = a i) (hi : i ≤ n)
    (h : Passed (fun k => (a k).key) (j + 1) i) :
    Meets (· ≤ n) (shifted a (j + 1) i) (shift j) fun j' m =>
      m = shifted a (j' + 1) i ∧ Passed (fun k => (a k).key) (j' + 1) i ∧
        (a j').key ≤ (a i).key := by
  have hzero : ∀ j, shifted a (j + 1) i 0 = a i := by
    intro j
    rw [shifted_of_le a (Nat.zero_le _), hsentinel]
  induction j with
  | zero =>
    -- the sentinel is not below itself
    refine meets_read (Nat.zero_le n) (meets_read (Nat.zero_le n) (meets_ite (fun hlt => ?_) ?_))
    · exact absurd hlt (Int.lt_irrefl _)
    · intro _
      exact meets_pure ⟨rfl, h, by rw [hsentinel]⟩
  | succ j ih =>
    have hj : j + 1 < i := h.le
    have hcell : shifted a (j + 1 + 1) i (j + 1) = a (j + 1) := shifted_of_le a (Nat.le_succ _)
    refine meets_read (Nat.zero_le n) (meets_read (show j + 1 ≤ n by omega)
      (meets_ite (fun hlt => ?_) fun hge => ?_))
    · rw [hzero, hcell] at hlt
      refine meets_read (show j + 1 ≤ n by omega) ?_
      rw [hcell]
      refine (meets_up a hj (show j + 1 + 1 ≤ n by omega)).bind fun _ m hm => ?_
      rw [hm]
      exact ih (h.next hlt)
    · rw [hzero, hcell] at hge
      exact meets_pure ⟨rfl, h, Int.not_lt.mp hge⟩

/-- Before the turn `i`: the records from 1 up to it are sorted, and all are as they were passed,
up to their order. -/
structure Before (r : Nat → RedType) (n i : Nat) (m : Nat → RedType) : Prop where
  sorted : SortedOn 1 i fun k => (m k).key
  perm : (items 1 n fun k => (m k).key).Perm (items 1 n fun k => (r k).key)

/-- The sentinel is not one of the records. -/
theorem Before.sentinel {r m a : Nat → RedType} {n i : Nat} (h : Before r n i m)
    (ha : ∀ k, 1 ≤ k → a k = m k) : Before r n i a := by
  constructor
  · intro k l hk hkl hl
    show (a k).key ≤ (a l).key
    rw [ha k hk, ha l (by omega)]
    exact h.sorted k l hk hkl hl
  · rw [items_congr (b := fun k => (a k).key) fun k hk _ => congrArg RedType.key (ha k hk)]
    exact h.perm

theorem Before.inserted {r a : Nat → RedType} {n i j : Nat} (h : Before r n i a) (hi : i ≤ n)
    (hpassed : Passed (fun k => (a k).key) (j + 1) i) (hbelow : (a j).key ≤ (a i).key) :
    Before r n (i + 1) (Insertion.inserted a (j + 1) i) := by
  have hkeys : (fun k => (Insertion.inserted a (j + 1) i k).key) =
      Insertion.inserted (fun k => (a k).key) (j + 1) i := comp_inserted RedType.key
  have hj := hpassed.le
  constructor
  · rw [hkeys]
    exact h.sorted.inserted hpassed (by omega) (Or.inr hbelow)
  · rw [hkeys]
    have hmoved : Rearranged 1 n (fun k => (a k).key)
        (Insertion.inserted (fun k => (a k).key) (j + 1) i) :=
      (rearranged_inserted _ hj).mono (by omega) (by omega)
    exact hmoved.perm.trans h.perm

theorem meets_turn {r m : Nat → RedType} {n i : Nat} (hlo : 2 ≤ i) (hi : i ≤ n)
    (h : Before r n i m) :
    Meets (· ≤ n) m (turn i) fun _ m' => Before r n (i + 1) m' := by
  refine meets_read hi (meets_read (show i - 1 ≤ n by omega)
    (meets_ite (fun hlt => ?_) fun hge => ?_))
  · refine meets_read hi ?_
    let a : Nat → RedType := Function.update m 0 (m i)
    have ha : ∀ k, 1 ≤ k → a k = m k := by
      intro k hk
      exact Function.update_of_ne (by omega) _ _
    have hzero : a 0 = a i := by
      rw [ha i (by omega)]
      exact Function.update_self ..
    have hcopy : Meets (· ≤ n) m (write 0 (m i)) fun _ m' => m' = a :=
      meets_write (Nat.zero_le n) rfl
    refine hcopy.bind fun _ m' hm' => ?_
    rw [hm']
    have hgap : i - 1 + 1 = i := by omega
    have hshift := meets_shift a (j := i - 1) hzero hi (hgap.symm ▸ Passed.start _ i)
    rw [hgap, shifted_self] at hshift
    refine hshift.bind ?_
    rintro j m' ⟨rfl, hpassed, hbelow⟩
    have hj := hpassed.le
    refine meets_read (Nat.zero_le n) ?_
    rw [shifted_of_le a (Nat.zero_le _), hzero]
    refine meets_write (show j + 1 ≤ n by omega) ?_
    exact (h.sentinel ha).inserted hi hpassed hbelow
  · exact meets_pure ⟨h.sorted.succ (by omega) (Or.inr (Int.not_lt.mp hge)), h.perm⟩

/-! ## Main results -/

theorem meets_sort (r : Nat → RedType) (length : Int) :
    Meets (fun i => (i : Int) ≤ length) r (sort length) fun _ m =>
      Before r length.toNat (length.toNat + 1) m := by
  have hstart : ∀ p, p ≤ 2 → Before r length.toNat p r := by
    intro p hp
    refine ⟨fun i k hi hik hk => ?_, List.Perm.refl _⟩
    rw [show i = k by omega]
  unfold sort
  -- with fewer than two records there is no turn
  rcases Nat.lt_or_ge length.toNat 2 with hn | hn
  · rw [show length.toNat - 1 = 0 by omega]
    exact meets_pure (hstart (length.toNat + 1) (by omega))
  · have hloop : Meets (· ≤ length.toNat) r (loop 2 (length.toNat - 1) turn) fun _ m =>
        Before r length.toNat (2 + (length.toNat - 1)) m :=
      meets_loop (hstart 2 (Nat.le_refl 2)) fun i m hlo hi h => meets_turn hlo (by omega) h
    rw [show 2 + (length.toNat - 1) = length.toNat + 1 by omega] at hloop
    exact hloop.mono fun i hi => by omega

/-- **The function sorts its own list, and the sentinel ends every inner loop.** -/
theorem insertSort_sorts (L : Sqlist) : Sorts L := by
  obtain ⟨hused, ⟨⟩, hstops, hbefore⟩ := meets_sort L.r L.length
  refine ⟨hstops, hused, ?_, hbefore.perm⟩
  intro i k hi hik hk
  have hlast : (k : Int) ≤ L.length := hk
  exact hbefore.sorted i k hi hik (by omega)

theorem insertSort_in_array (L : Sqlist) (h : L.length ≤ MAXSIZE) :
    ∀ i ∈ (sort L.length L.r).used, i < MAXSIZE + 1 := by
  intro i hi
  have := (meets_sort L.r L.length).1 i hi
  omega

/-- The caller's list is the one that was passed. -/
theorem insertSort_caller (L : Sqlist) : (insertSort L).caller = L := rfl

/-- **The caller sees a sorted list after the call exactly if it had one before.** -/
theorem insertSort_visible_iff (L : Sqlist) : Visible L ↔ Ascending L := by
  unfold Visible
  rw [insertSort_caller]
  exact and_iff_left (List.Perm.refl _)

/-- Two records in descending order. -/
def descending : Sqlist := ⟨fun i => ⟨[0, 2, 1].getD i 0⟩, 2⟩

theorem insertSort_not_visible :
    0 ≤ descending.length ∧ descending.length ≤ MAXSIZE ∧ ¬ Visible descending := by
  refine ⟨by decide, by decide, ?_⟩
  rintro ⟨hascending, -⟩
  exact absurd (hascending 1 2 (by decide) (by decide) (by decide)) (by decide)

end StudyDoc.InsertSort
