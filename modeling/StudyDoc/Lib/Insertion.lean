import StudyDoc.Lib.Cells
import Mathlib.Logic.Function.Basic
import Mathlib.Order.Lattice
import Mathlib.Data.List.Range
import Mathlib.Tactic.Common

/-!
# Insertion into a sorted part of an array

`shifted a j p`: the elements at `j`, .., `p - 1` are one place up, and the one at `p` is gone.
`inserted a j p`: the one at `p` is back, at `j`.

    a sorted from lo to p, its elements from j on above a p, the one before j not
        →  inserted a j p sorted from lo to p + 1                          (SortedOn.inserted)
    inserted a j p is a, rearranged between j and p                        (rearranged_inserted)
    shifted a j p  comes from  shifted a (j + 1) p  by one write           (meets_up)
-/

namespace Insertion

variable {α β : Type}

def shifted (a : Nat → α) (j p : Nat) : Nat → α := fun k => if j < k ∧ k ≤ p then a (k - 1) else a k

def inserted (a : Nat → α) (j p : Nat) : Nat → α := Function.update (shifted a j p) j (a p)

theorem shifted_self (a : Nat → α) (p : Nat) : shifted a p p = a := by
  funext k
  unfold shifted
  rw [if_neg (by omega)]

/-- One more element goes up, into the gap. -/
theorem update_shifted (a : Nat → α) {j p : Nat} (h : j < p) :
    Function.update (shifted a (j + 1) p) (j + 1) (a j) = shifted a j p := by
  funext k
  by_cases hk : k = j + 1
  · subst hk
    rw [Function.update_self, shifted, if_pos (by omega), Nat.add_sub_cancel]
  · rw [Function.update_of_ne hk]
    unfold shifted
    by_cases hup : j + 1 < k ∧ k ≤ p
    · rw [if_pos hup, if_pos (by omega)]
    · rw [if_neg hup, if_neg (by omega)]

theorem shifted_of_le (a : Nat → α) {j p k : Nat} (h : k ≤ j) : shifted a j p k = a k := by
  unfold shifted
  rw [if_neg (by omega)]

variable {a : Nat → α} {j p : Nat}

theorem inserted_self : inserted a j p j = a p := Function.update_self ..

theorem inserted_lt {k : Nat} (h : k < j) : inserted a j p k = a k := by
  rw [inserted, Function.update_of_ne (by omega), shifted_of_le a (Nat.le_of_lt h)]

theorem inserted_gt {k : Nat} (h : j < k) (hp : k ≤ p) : inserted a j p k = a (k - 1) := by
  rw [inserted, Function.update_of_ne (by omega), shifted, if_pos ⟨h, hp⟩]

theorem inserted_above {k : Nat} (hj : j ≤ p) (h : p < k) : inserted a j p k = a k := by
  rw [inserted, Function.update_of_ne (by omega), shifted, if_neg (by omega)]

/-- In its place already. -/
theorem inserted_same (a : Nat → α) (p : Nat) : inserted a p p = a := by
  rw [inserted, shifted_self, Function.update_eq_self]

theorem comp_inserted (f : α → β) : f ∘ inserted a j p = inserted (f ∘ a) j p := by
  funext k
  unfold inserted shifted
  by_cases hk : k = j
  · simp [hk]
  · simp [hk, apply_ite f]

/-! ## Rearrangements -/

def items (lo n : Nat) (a : Nat → α) : List α := (List.range' lo n).map a

/-- The `n` elements from `lo` on in some other order, and no other element changed. -/
structure Rearranged (lo n : Nat) (a b : Nat → α) : Prop where
  perm : (items lo n b).Perm (items lo n a)
  frame : ∀ k, k < lo ∨ lo + n ≤ k → b k = a k

theorem Rearranged.refl (lo n : Nat) (a : Nat → α) : Rearranged lo n a a :=
  ⟨List.Perm.refl _, fun _ _ => rfl⟩

theorem Rearranged.trans {lo n : Nat} {a b c : Nat → α} (h : Rearranged lo n a b)
    (h' : Rearranged lo n b c) : Rearranged lo n a c :=
  ⟨h'.perm.trans h.perm, fun k hk => (h'.frame k hk).trans (h.frame k hk)⟩

theorem items_append (lo m n : Nat) (a : Nat → α) :
    items lo (m + n) a = items lo m a ++ items (lo + m) n a := by
  unfold items
  rw [← List.map_append, List.range'_append_1]

theorem items_congr {lo n : Nat} {a b : Nat → α} (h : ∀ k, lo ≤ k → k < lo + n → b k = a k) :
    items lo n b = items lo n a := by
  apply List.map_congr_left
  intro k hk
  obtain ⟨hlo, hn⟩ := List.mem_range'_1.mp hk
  exact h k hlo hn

/-- The part may be taken larger. -/
theorem Rearranged.mono {lo n lo' n' : Nat} {a b : Nat → α} (h : Rearranged lo n a b)
    (hlo : lo' ≤ lo) (hn : lo + n ≤ lo' + n') : Rearranged lo' n' a b := by
  obtain ⟨d, rfl⟩ := Nat.exists_eq_add_of_le hlo
  obtain ⟨e, rfl⟩ : ∃ e, n' = d + (n + e) := ⟨n' - d - n, by omega⟩
  refine ⟨?_, fun k hk => h.frame k (by omega)⟩
  rw [items_append, items_append, items_append lo' d, items_append (lo' + d) n]
  have hbelow : items lo' d b = items lo' d a := items_congr fun k _ hk => h.frame k (by omega)
  have habove : items (lo' + d + n) e b = items (lo' + d + n) e a :=
    items_congr fun k hk _ => h.frame k (by omega)
  rw [hbelow, habove]
  exact (h.perm.append_right _).append_left _

theorem items_succ (lo n : Nat) (a : Nat → α) : items lo (n + 1) a = a lo :: items (lo + 1) n a := rfl

theorem items_shift (lo n : Nat) (a : Nat → α) :
    items (lo + 1) n (fun k => a (k - 1)) = items lo n a := by
  induction n generalizing lo with
  | zero => rfl
  | succ n ih =>
    rw [items_succ, items_succ, ih (lo + 1), Nat.add_sub_cancel]

theorem rearranged_inserted (a : Nat → α) {j p : Nat} (h : j ≤ p) :
    Rearranged j (p + 1 - j) a (inserted a j p) := by
  refine ⟨?_, ?_⟩
  · obtain ⟨d, rfl⟩ := Nat.exists_eq_add_of_le h
    rw [show j + d + 1 - j = d + 1 by omega, items_succ, inserted_self, items_append j d 1]
    have hrest : items (j + 1) d (inserted a j (j + d)) = items j d a := by
      rw [← items_shift j d a]
      exact items_congr fun k hlo hk => inserted_gt (by omega) (by omega)
    rw [hrest]
    exact (List.perm_append_singleton (a (j + d)) (items j d a)).symm
  · intro k hk
    rcases Nat.lt_or_ge k j with hlt | hge
    · exact inserted_lt hlt
    · exact inserted_above h (by omega)

/-! ## Order -/

/-- Ascending from `lo` up to `hi`, not included. -/
def SortedOn [LE α] (lo hi : Nat) (a : Nat → α) : Prop :=
  ∀ i k, lo ≤ i → i ≤ k → k < hi → a i ≤ a k

/-- The search for a place, from `p` down, has come to `j`: it passed greater elements only. -/
structure Passed [LT α] (a : Nat → α) (j p : Nat) : Prop where
  le : j ≤ p
  above : ∀ k, j ≤ k → k < p → a p < a k

theorem Passed.start [LT α] (a : Nat → α) (p : Nat) : Passed a p p where
  le := Nat.le_refl p
  above _ hlo hk := absurd hk (Nat.not_lt.mpr hlo)

theorem Passed.next [LT α] (h : Passed a (j + 1) p) (hlt : a p < a j) : Passed a j p where
  le := Nat.le_of_succ_le h.le
  above k hlo hk := by
    rcases Nat.eq_or_lt_of_le hlo with rfl | hlo
    · exact hlt
    · exact h.above k hlo hk

/-- The place has been found. -/
theorem SortedOn.inserted [Preorder α] {lo : Nat} (hs : SortedOn lo p a) (h : Passed a j p)
    (hlo : lo ≤ j) (hbelow : j = lo ∨ a (j - 1) ≤ a p) : SortedOn lo (p + 1) (inserted a j p) := by
  have hj := h.le
  intro i k hi hik hk
  rcases Nat.lt_trichotomy i j with hij | rfl | hij
  · rw [inserted_lt hij]
    rcases Nat.lt_trichotomy k j with hkj | rfl | hkj
    · rw [inserted_lt hkj]
      exact hs i k hi hik (by omega)
    · rw [inserted_self]
      have hprev : a (k - 1) ≤ a p := hbelow.resolve_left (by omega)
      exact le_trans (hs i (k - 1) hi (by omega) (by omega)) hprev
    · rw [inserted_gt hkj (by omega)]
      exact hs i (k - 1) hi (by omega) (by omega)
  · rw [inserted_self]
    rcases Nat.eq_or_lt_of_le hik with rfl | hkj
    · rw [inserted_self]
    · rw [inserted_gt hkj (by omega)]
      exact le_of_lt (h.above (k - 1) (by omega) (by omega))
  · rw [inserted_gt hij (by omega), inserted_gt (Nat.lt_of_lt_of_le hij hik) (by omega)]
    exact hs (i - 1) (k - 1) (by omega) (by omega) (by omega)

/-- The next one is in its place already. -/
theorem SortedOn.succ [Preorder α] {lo : Nat} (hs : SortedOn lo p a) (hlo : lo ≤ p)
    (hbelow : p = lo ∨ a (p - 1) ≤ a p) : SortedOn lo (p + 1) a := by
  have h := hs.inserted (Passed.start a p) hlo hbelow
  rwa [inserted_same] at h

/-! ## In a program -/

open Cells in
theorem meets_up {P : Nat → Prop} (a : Nat → α) (hj : j < p) (hP : P (j + 1)) :
    Meets P (shifted a (j + 1) p) (write (j + 1) (a j)) fun _ m => m = shifted a j p :=
  meets_write hP (update_shifted a hj)

end Insertion
