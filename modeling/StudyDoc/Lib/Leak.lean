import Mathlib.Data.List.Nodup
import Mathlib.Data.List.Range
import Mathlib.Data.List.Perm.Basic
import Mathlib.Tactic.Common

/-!
# Blocks handed out and given back

`malloc` hands out one new block after the other; `free` records what is given back.
`Owns h held`: the blocks of `held` and those given back are all that were handed out, each once.

    every block was given back exactly once ↔ held = []                  (Owns.freedOnce_iff)
-/

namespace Leak

/-! ## Definitions -/

/-- The blocks handed out are those below `next`. -/
structure Heap where
  next : Nat
  freed : List Nat

namespace Heap

def empty : Heap := ⟨0, []⟩

def malloc (h : Heap) : Heap × Nat := (⟨h.next + 1, h.freed⟩, h.next)

def free (h : Heap) (b : Nat) : Heap := ⟨h.next, b :: h.freed⟩

def FreedOnce (h : Heap) : Prop := ∀ b, h.freed.count b = if b < h.next then 1 else 0

def Owns (h : Heap) (held : List Nat) : Prop := (held ++ h.freed).Perm (List.range h.next)

/-! ## Main results -/

variable {h : Heap} {held held' : List Nat} {b : Nat}

theorem owns_empty : empty.Owns [] := List.Perm.refl _

theorem Owns.malloc (ho : h.Owns held) : h.malloc.1.Owns (h.malloc.2 :: held) := by
  show (h.next :: (held ++ h.freed)).Perm (List.range (h.next + 1))
  rw [List.range_succ]
  exact (ho.cons h.next).trans (List.perm_append_singleton _ _).symm

theorem Owns.free (ho : h.Owns (b :: held)) : (h.free b).Owns held :=
  List.perm_middle.trans ho

theorem Owns.perm (ho : h.Owns held) (hp : held.Perm held') : h.Owns held' :=
  (hp.symm.append_right h.freed).trans ho

theorem Owns.freedOnce_iff (ho : h.Owns held) : h.FreedOnce ↔ held = [] := by
  have hcount : ∀ b, held.count b + h.freed.count b = if b < h.next then 1 else 0 := by
    intro b
    rw [← List.count_append, ho.count_eq b]
    by_cases hb : b < h.next
    · rw [if_pos hb]
      exact List.count_eq_one_of_mem List.nodup_range (List.mem_range.mpr hb)
    · rw [if_neg hb]
      exact List.count_eq_zero_of_not_mem fun hm => hb (List.mem_range.mp hm)
  constructor
  · intro hf
    refine List.eq_nil_iff_forall_not_mem.mpr fun b hb => ?_
    have hpos := List.count_pos_iff.mpr hb
    have hb1 := hcount b
    have hb2 := hf b
    omega
  · rintro rfl b
    have hb := hcount b
    rwa [List.count_nil, Nat.zero_add] at hb

end Heap

end Leak
