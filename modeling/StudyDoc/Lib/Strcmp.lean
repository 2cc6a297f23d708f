import Mathlib.Data.List.Lex
import Mathlib.Algebra.Order.Ring.Nat
import Mathlib.Tactic.Common

/-!
# `strcmp`

A C string is the list of its bytes, the NUL left out.  `strcmp` is the difference of the first two
bytes that are not the same, where a string that has ended has the byte 0:

    strcmp s t < 0  ↔  codes s < codes t          (strcmp_neg_iff)
    strcmp t s = - strcmp s t                     (strcmp_swap)
    strcmp s t = 0  ↔  s = t                      (strcmp_eq_zero_iff)

with the order of a dictionary on the codes of the bytes, which are unsigned.
-/

namespace CString

def strcmp : List UInt8 → List UInt8 → Int
  | [], [] => 0
  | [], b :: _ => 0 - b.toNat
  | a :: _, [] => a.toNat - 0
  | a :: s, b :: t => if a = b then strcmp s t else a.toNat - b.toNat

def codes (s : List UInt8) : List Nat := s.map UInt8.toNat

theorem codes_injective : Function.Injective codes :=
  List.map_injective_iff.mpr fun _ _ h => UInt8.toNat_inj.mp h

theorem strcmp_swap (s t : List UInt8) : strcmp t s = -strcmp s t := by
  induction s generalizing t with
  | nil =>
    cases t with
    | nil => rfl
    | cons b t => simp [strcmp]
  | cons a s ih =>
    cases t with
    | nil => simp [strcmp]
    | cons b t =>
      unfold strcmp
      by_cases hab : a = b
      · rw [if_pos hab, if_pos hab.symm, ih]
      · rw [if_neg hab, if_neg (Ne.symm hab)]
        omega

theorem toNat_pos {b : UInt8} (h : b ≠ 0) : 0 < b.toNat := by
  apply Nat.pos_of_ne_zero
  intro hzero
  exact h (UInt8.toNat_inj.mp hzero)

theorem strcmp_neg_iff {s t : List UInt8} (hs : 0 ∉ s) (ht : 0 ∉ t) :
    strcmp s t < 0 ↔ codes s < codes t := by
  induction s generalizing t with
  | nil =>
    cases t with
    | nil => simp [strcmp, codes]
    | cons b t =>
      have hb := toNat_pos (List.ne_of_not_mem_cons ht).symm
      simp only [strcmp, codes, List.map_nil, List.map_cons, List.nil_lt_cons, iff_true]
      omega
  | cons a s ih =>
    cases t with
    | nil =>
      simp only [strcmp, codes, List.map_nil, List.map_cons, List.not_lt_nil, iff_false]
      omega
    | cons b t =>
      have hrest := ih (List.not_mem_of_not_mem_cons hs) (List.not_mem_of_not_mem_cons ht)
      unfold strcmp
      show _ ↔ a.toNat :: codes s < b.toNat :: codes t
      rw [List.cons_lt_cons_iff]
      by_cases hab : a = b
      · rw [if_pos hab, hrest, hab]
        simp
      · have hne : a.toNat ≠ b.toNat := fun h => hab (UInt8.toNat_inj.mp h)
        rw [if_neg hab]
        constructor
        · intro h
          exact Or.inl (by omega)
        · rintro (h | h)
          · omega
          · exact absurd h.1 hne

theorem strcmp_pos_iff {s t : List UInt8} (hs : 0 ∉ s) (ht : 0 ∉ t) :
    0 < strcmp s t ↔ codes t < codes s := by
  rw [← strcmp_neg_iff ht hs, strcmp_swap s t]
  omega

theorem strcmp_eq_zero_iff {s t : List UInt8} (hs : 0 ∉ s) (ht : 0 ∉ t) :
    strcmp s t = 0 ↔ s = t := by
  constructor
  · intro h
    apply codes_injective
    apply le_antisymm
    · apply le_of_not_gt
      rw [← strcmp_pos_iff hs ht]
      omega
    · apply le_of_not_gt
      rw [← strcmp_neg_iff hs ht]
      omega
  · rintro rfl
    have := strcmp_swap s s
    omega

end CString
