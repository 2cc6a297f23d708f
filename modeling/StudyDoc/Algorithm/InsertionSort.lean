import StudyDoc.Lib.Cells
import StudyDoc.Lib.Insertion
import Mathlib.Algebra.Order.Ring.Int

/-!
# `关于排序的学习.md`: insertion sort

With the cells of `array` before the turn `p` as `a`, the inner loop goes down to the place of
`a p`, and the elements that it passes go up:

    shift (a p) p = j   in the cells  shifted a j p            (meets_shift)
    one turn            in the cells  inserted a j p           (meets_turn)

so the first `p` elements stay sorted, and a rearrangement of what they were, up to `p = n`
(insertionSort_sorts).
-/

namespace StudyDoc.InsertionSort

open Cells Insertion

/-! ## Algorithm -/

/-- `for(j = p; j > 0 && array[j-1] > tmp; j--) array[j] = array[j-1];` and the last `j` -/
def shift (tmp : Int) : Nat → Cells Int Nat
  | 0 => return 0
  | j + 1 => do
    if (← read j) > tmp then
      write (j + 1) (← read j)
      shift tmp j
    else
      return j + 1

def turn (p : Nat) : Cells Int Unit := do
  let tmp ← read p
  let j ← shift tmp p
  write j tmp

/-- On the memory from `array` on. -/
def insertionSort (n : Int) : Cells Int Unit := loop 1 (n.toNat - 1) turn

/-- `array[0..n-1]` is sorted and rearranged, and no other element used or changed. -/
structure Sorts (array : Nat → Int) (n : Int) (o : Outcome Int Unit) : Prop where
  sorted : ∀ i k : Nat, i ≤ k → (k : Int) < n → o.mem i ≤ o.mem k
  perm : ((List.range n.toNat).map o.mem).Perm ((List.range n.toNat).map array)
  frame : ∀ k : Nat, n ≤ k → o.mem k = array k
  used : ∀ i ∈ o.used, (i : Int) < n

/-! ## One turn -/

/-- The inner loop, from the gap at `j` on. -/
theorem meets_shift (a : Nat → Int) {n p j : Nat} (hp : p < n) (h : Passed a j p) :
    Meets (· < n) (shifted a j p) (shift (a p) j) fun j' m =>
      m = shifted a j' p ∧ Passed a j' p ∧ (j' = 0 ∨ a (j' - 1) ≤ a p) := by
  induction j with
  | zero => exact meets_pure ⟨rfl, h, Or.inl rfl⟩
  | succ j ih =>
    have hj := h.le
    have hcell : shifted a (j + 1) p j = a j := shifted_of_le a (Nat.le_succ j)
    refine meets_read (show j < n by omega) (meets_ite (fun hgt => ?_) fun hle => ?_)
    · rw [hcell] at hgt
      refine meets_read (show j < n by omega) ?_
      rw [hcell]
      refine (meets_up a hj (show j + 1 < n by omega)).bind fun _ m hm => ?_
      rw [hm]
      exact ih (h.next hgt)
    · rw [hcell] at hle
      exact meets_pure ⟨rfl, h, Or.inr (Int.not_lt.mp hle)⟩

theorem meets_turn (a : Nat → Int) {n p : Nat} (hp : p < n) (hs : SortedOn 0 p a) :
    Meets (· < n) a (turn p) fun _ m => SortedOn 0 (p + 1) m ∧ Rearranged 0 n a m := by
  have hshift := meets_shift a hp (Passed.start a p)
  rw [shifted_self] at hshift
  refine meets_read hp (hshift.bind ?_)
  rintro j m ⟨rfl, hpassed, hbelow⟩
  have hj := hpassed.le
  refine meets_write (show j < n by omega) ?_
  show SortedOn 0 (p + 1) (inserted a j p) ∧ Rearranged 0 n a (inserted a j p)
  constructor
  · exact hs.inserted hpassed (Nat.zero_le j) hbelow
  · exact (rearranged_inserted a hj).mono (Nat.zero_le j) (by omega)

/-! ## Main results -/

theorem meets_insertionSort (array : Nat → Int) (n : Int) :
    Meets (· < n.toNat) array (insertionSort n) fun _ m =>
      SortedOn 0 n.toNat m ∧ Rearranged 0 n.toNat array m := by
  -- with fewer than two elements there is no turn
  rcases Nat.lt_or_ge n.toNat 2 with hn | hn
  · unfold insertionSort
    rw [show n.toNat - 1 = 0 by omega]
    apply meets_pure
    refine ⟨fun i k _ hik hk => ?_, Rearranged.refl ..⟩
    rw [show i = k by omega]
  · have hstart : SortedOn 0 1 array := by
      intro i k _ hik hk
      rw [show i = k by omega]
    have hloop : Meets (· < n.toNat) array (insertionSort n) fun _ m =>
        SortedOn 0 (1 + (n.toNat - 1)) m ∧ Rearranged 0 n.toNat array m :=
      meets_loop (I := fun p m => SortedOn 0 p m ∧ Rearranged 0 n.toNat array m)
        ⟨hstart, Rearranged.refl ..⟩ fun p m hlo hp hI =>
          (meets_turn m (by omega) hI.1).weaken fun _ _ h => ⟨h.1, hI.2.trans h.2⟩
    rwa [show 1 + (n.toNat - 1) = n.toNat by omega] at hloop

/-- **Any `n` elements are sorted in place.** -/
theorem insertionSort_sorts (array : Nat → Int) (n : Int) :
    Sorts array n (insertionSort n array) := by
  obtain ⟨hused, -, -, hsorted, hperm⟩ := meets_insertionSort array n
  refine ⟨?_, ?_, ?_, ?_⟩
  · intro i k hik hk
    exact hsorted i k (Nat.zero_le i) hik (by omega)
  · have h := hperm.perm
    unfold items at h
    rwa [← List.range_eq_range'] at h
  · intro k hk
    exact hperm.frame k (by omega)
  · intro i hi
    have := hused i hi
    omega

example : (List.range 6).map (insertionSort 6 fun i => [34, 8, 64, 51, 32, 21].getD i 0).mem =
    [8, 21, 32, 34, 51, 64] := by decide

end StudyDoc.InsertionSort
