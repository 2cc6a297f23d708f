import StudyDoc.Lib.Counting
import Mathlib.Tactic.Common

/-!
# Blocks, and how many hold one

Blocks are made by `new`, used by `load` and `store`, and given back by `delete`; what touches a
block that was given back has no result.  A block is named by its number, and no number is given
out twice.

    load (new h a) = load h, with a in the new block             (load_new)
    owners (update f i x) b + [f i = b] = owners f b + [x = b]    (owners_update)

`owners f b` is the number of those holding `b`, where `f` says who holds what.
-/

namespace Refcount

/-! ## Blocks -/

/-- The blocks made so far, `none` for one that was deleted. -/
abbrev Blocks (α : Type) := List (Option α)

namespace Blocks

variable {α : Type}

/-- The new block's number is `h.length`. -/
def new (h : Blocks α) (a : α) : Blocks α := h ++ [some a]

def load (h : Blocks α) (b : Nat) : Option α := h[b]?.join

def store (h : Blocks α) (b : Nat) (a : α) : Option (Blocks α) :=
  (h.load b).map fun _ => h.set b (some a)

def delete (h : Blocks α) (b : Nat) : Option (Blocks α) :=
  (h.load b).map fun _ => h.set b none

theorem load_new (h : Blocks α) (a : α) (b : Nat) :
    (h.new a).load b = if b = h.length then some a else h.load b := by
  unfold new load
  by_cases hb : b = h.length
  · rw [if_pos hb, hb, List.getElem?_concat_length]
    rfl
  · rw [if_neg hb]
    rcases Nat.lt_or_gt_of_ne hb with hlt | hgt
    · rw [List.getElem?_append_left hlt]
    · rw [List.getElem?_eq_none (by simp; omega), List.getElem?_eq_none (Nat.le_of_lt hgt)]

theorem lt_of_load {h : Blocks α} {b : Nat} {a : α} (hb : h.load b = some a) : b < h.length := by
  by_contra hge
  rw [load, List.getElem?_eq_none (Nat.not_lt.mp hge)] at hb
  cases hb

theorem load_set {h : Blocks α} {b : Nat} (hb : b < h.length) (x : Option α) (c : Nat) :
    Blocks.load (h.set b x) c = if c = b then x else h.load c := by
  unfold load
  by_cases hc : c = b
  · rw [if_pos hc, hc, List.getElem?_set_self hb]
    rfl
  · rw [if_neg hc, List.getElem?_set_ne (Ne.symm hc)]

theorem store_of_load {h : Blocks α} {b : Nat} {a : α} (hb : h.load b = some a) (x : α) :
    h.store b x = some (h.set b (some x)) := by
  rw [store, hb]
  rfl

theorem delete_of_load {h : Blocks α} {b : Nat} {a : α} (hb : h.load b = some a) :
    h.delete b = some (h.set b none) := by
  rw [delete, hb]
  rfl

/-- Block `b` was in use in `h`, and is deleted in `h'`. -/
def Deleted (h h' : Blocks α) (b : Nat) : Prop := (h.load b).isSome = true ∧ h'.load b = none

/-- `h'` comes after `h`: what was deleted stays deleted. -/
structure Later (h h' : Blocks α) : Prop where
  length_le : h.length ≤ h'.length
  gone : ∀ b, b < h.length → h.load b = none → h'.load b = none

namespace Later

theorem refl (h : Blocks α) : Later h h := ⟨Nat.le_refl _, fun _ _ hb => hb⟩

theorem trans {h h' h'' : Blocks α} (h1 : Later h h') (h2 : Later h' h'') : Later h h'' where
  length_le := Nat.le_trans h1.length_le h2.length_le
  gone b hb hnone := h2.gone b (Nat.lt_of_lt_of_le hb h1.length_le) (h1.gone b hb hnone)

theorem new (h : Blocks α) (a : α) : Later h (h.new a) where
  length_le := by simp [Blocks.new]
  gone b hb hnone := by
    rw [load_new, if_neg (Nat.ne_of_lt hb)]
    exact hnone

theorem set {h : Blocks α} {b : Nat} {a : α} (hb : h.load b = some a) (x : Option α) :
    Later h (h.set b x) where
  length_le := by simp
  gone c _ hnone := by
    rw [load_set (lt_of_load hb)]
    split
    · rename_i hc
      rw [hc, hb] at hnone
      cases hnone
    · exact hnone

theorem store {h h' : Blocks α} {b : Nat} {a : α} (hs : h.store b a = some h') : Later h h' := by
  obtain ⟨_, hb, rfl⟩ := Option.map_eq_some_iff.mp hs
  exact set hb _

theorem delete {h h' : Blocks α} {b : Nat} (hs : h.delete b = some h') : Later h h' := by
  obtain ⟨_, hb, rfl⟩ := Option.map_eq_some_iff.mp hs
  exact set hb _

end Later

end Blocks

/-! ## Owners -/

section

open Counting

variable {ι β : Type} [Fintype ι] [DecidableEq β]

def owners (f : ι → Option β) (b : β) : Nat := number (· = some b) f

theorem owners_pos {f : ι → Option β} {b : β} : 0 < owners f b ↔ ∃ i, f i = some b := number_pos

theorem owners_le (f : ι → Option β) (b : β) : owners f b ≤ Fintype.card ι := number_le f

theorem owners_congr {f g : ι → Option β} {b c : β} (h : ∀ i, f i = some b ↔ g i = some c) :
    owners f b = owners g c := number_congr h

/-- One of them lets go of what it held, and holds `x`. -/
theorem owners_update [DecidableEq ι] (f : ι → Option β) (i : ι) (x : Option β) (b : β) :
    owners (Function.update f i x) b + (if f i = some b then 1 else 0) =
      owners f b + (if x = some b then 1 else 0) := number_update (· = some b) f i x

end

end Refcount
