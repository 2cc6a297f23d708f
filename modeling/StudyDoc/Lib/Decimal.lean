import Mathlib.Algebra.Order.Ring.Nat
import Mathlib.Algebra.Ring.Int.Defs
import Mathlib.Data.List.TakeWhile
import Mathlib.Tactic.Common

/-!
# Decimal text that was cut off

`ofInt` writes an integer in base 10, a minus sign in front; `toInt` reads a sign and the digits
behind it.  Of a text cut off after `k` characters

    toInt ((ofInt v).take k) = v / 10 ^ (characters missing), towards zero      (toInt_take_ofInt)

so it reads back as `v` exactly if nothing is missing (toInt_take_ofInt_iff), and that is

    -10 ^ (k - 1) < v < 10 ^ k                                                (length_ofInt_le_iff)
-/

namespace Decimal

/-! ## Definitions -/

def ofInt (v : Int) : List Char :=
  if v < 0 then '-' :: Nat.toDigits 10 v.natAbs else Nat.toDigits 10 v.natAbs

/-- The digits at the front. -/
def toNat (s : List Char) : Nat := Nat.ofDigitChars 10 (s.takeWhile Char.isDigit) 0

def toInt : List Char → Int
  | [] => 0
  | c :: s => if c = '-' then -toNat s else if c = '+' then toNat s else toNat (c :: s)

/-! ## Digits -/

theorem isDigit_of_mem_take {n k : Nat} : ∀ c ∈ (Nat.toDigits 10 n).take k, c.isDigit = true :=
  fun _ hc => Nat.isDigit_of_mem_toDigits (by decide) (by decide) (List.mem_of_mem_take hc)

/-- The first digits of `n` are those of a quotient. -/
theorem take_toDigits (n : Nat) {k : Nat} (hk : 0 < k) : (Nat.toDigits 10 n).take k =
    Nat.toDigits 10 (n / 10 ^ ((Nat.toDigits 10 n).length - k)) := by
  induction n using Nat.strongRecOn with
  | ind n ih =>
    by_cases hlen : (Nat.toDigits 10 n).length ≤ k
    · rw [Nat.sub_eq_zero_of_le hlen, List.take_of_length_le hlen, Nat.pow_zero, Nat.div_one]
    · have h10 : 10 ≤ n := by
        by_contra hlt
        exact hlen (Nat.le_trans ((Nat.length_toDigits_le_iff (by decide) (by decide)).mpr
          (by omega : n < 10 ^ 1)) hk)
      have hdigits := Nat.toDigits_of_base_le (by decide : 1 < 10) h10
      have hsplit := congrArg List.length hdigits
      rw [List.length_append, List.length_singleton] at hsplit
      have hexp : (Nat.toDigits 10 n).length - k = (Nat.toDigits 10 (n / 10)).length - k + 1 := by
        omega
      rw [hexp, hdigits, List.take_append_of_le_length (by omega), ih (n / 10) (by omega),
        Nat.div_div_eq_div_mul, Nat.pow_succ']

/-- They are read as that quotient. -/
theorem toNat_take_toDigits (n k : Nat) : toNat ((Nat.toDigits 10 n).take k) =
    n / 10 ^ ((Nat.toDigits 10 n).length - k) := by
  rcases Nat.eq_zero_or_pos k with rfl | hk
  · have hlt : n < 10 ^ (Nat.toDigits 10 n).length :=
      (Nat.length_toDigits_le_iff (by decide) Nat.length_toDigits_pos).mp (Nat.le_refl _)
    rw [Nat.sub_zero, Nat.div_eq_of_lt hlt]
    rfl
  · unfold toNat
    rw [List.takeWhile_eq_self_iff.mpr isDigit_of_mem_take, take_toDigits n hk,
      Nat.ofDigitChars_ten_toDigits]

/-- No sign in front. -/
theorem toInt_take_toDigits (n k : Nat) : toInt ((Nat.toDigits 10 n).take k) =
    (n / 10 ^ ((Nat.toDigits 10 n).length - k) : Nat) := by
  rw [← toNat_take_toDigits]
  have hdigits := @isDigit_of_mem_take n k
  cases hs : (Nat.toDigits 10 n).take k with
  | nil => rfl
  | cons c s =>
    rw [hs] at hdigits
    have hc : c.isDigit = true := hdigits c List.mem_cons_self
    unfold toInt
    dsimp only
    rw [if_neg, if_neg]
    · rintro rfl
      exact absurd hc (by decide)
    · rintro rfl
      exact absurd hc (by decide)

theorem mem_ofInt {v : Int} {c : Char} (h : c ∈ ofInt v) : c = '-' ∨ c.isDigit = true := by
  unfold ofInt at h
  split at h
  · rcases List.mem_cons.mp h with rfl | hm
    · exact Or.inl rfl
    · exact Or.inr (Nat.isDigit_of_mem_toDigits (by decide) (by decide) hm)
  · exact Or.inr (Nat.isDigit_of_mem_toDigits (by decide) (by decide) h)

/-! ## Main results -/

theorem toInt_take_ofInt (v : Int) (k : Nat) :
    toInt ((ofInt v).take k) = v.tdiv (10 ^ ((ofInt v).length - k)) := by
  have hpow : ∀ j : Nat, (10 : Int) ^ j = (10 ^ j : Nat) := fun j => by push_cast; rfl
  unfold ofInt
  by_cases hv : v < 0
  · obtain ⟨n, rfl⟩ : ∃ n : Nat, v = -n := ⟨v.natAbs, by omega⟩
    rw [if_pos hv, Int.natAbs_neg, Int.natAbs_natCast, List.length_cons, Int.neg_tdiv, hpow,
      ← Int.ofNat_tdiv]
    cases k with
    | zero =>
      have hlt : n < 10 ^ (Nat.toDigits 10 n).length :=
        (Nat.length_toDigits_le_iff (by decide) Nat.length_toDigits_pos).mp (Nat.le_refl _)
      have hlt' : n < 10 ^ ((Nat.toDigits 10 n).length + 1) :=
        Nat.lt_of_lt_of_le hlt (Nat.pow_le_pow_right (by decide) (Nat.le_succ _))
      rw [Nat.sub_zero, Nat.div_eq_of_lt hlt']
      rfl
    | succ k =>
      rw [Nat.add_sub_add_right, ← toNat_take_toDigits]
      rfl
  · obtain ⟨n, rfl⟩ : ∃ n : Nat, v = n := ⟨v.natAbs, by omega⟩
    rw [if_neg hv, Int.natAbs_natCast, toInt_take_toDigits, hpow, ← Int.ofNat_tdiv]

theorem toInt_take_ofInt_iff (v : Int) {k : Nat} (hk : 0 < k) :
    toInt ((ofInt v).take k) = v ↔ (ofInt v).length ≤ k := by
  rw [toInt_take_ofInt]
  constructor
  · intro h
    by_contra hlt
    obtain ⟨j, hj⟩ : ∃ j, (ofInt v).length - k = j + 1 := ⟨(ofInt v).length - k - 1, by omega⟩
    have hne : v ≠ 0 := by
      rintro rfl
      have : (ofInt 0).length = 1 := rfl
      omega
    have hten : 1 < ((10 : Int) ^ (j + 1)).natAbs := by
      rw [Int.natAbs_pow]
      exact Nat.one_lt_pow (Nat.succ_ne_zero j) (by decide)
    have habs := congrArg Int.natAbs h
    rw [hj, Int.natAbs_tdiv] at habs
    exact absurd habs (Nat.ne_of_lt (Nat.div_lt_self (by omega) hten))
  · intro hle
    rw [Nat.sub_eq_zero_of_le hle, Int.pow_zero, Int.tdiv_one]

theorem length_ofInt_le_iff (v : Int) {k : Nat} (hk : 0 < k) :
    (ofInt v).length ≤ k ↔ -10 ^ (k - 1) < v ∧ v < 10 ^ k := by
  have hpow : ∀ j : Nat, (10 : Int) ^ j = (10 ^ j : Nat) := fun j => by push_cast; rfl
  have hpos : ∀ j : Nat, 0 < 10 ^ j := fun j => Nat.pow_pos (by decide)
  have hpos₁ := hpos (k - 1)
  have hpos₂ := hpos k
  rw [hpow, hpow]
  unfold ofInt
  by_cases hv : v < 0
  · rw [if_pos hv, List.length_cons]
    rcases Nat.eq_zero_or_pos (k - 1) with h0 | h0
    · have hlen : 0 < (Nat.toDigits 10 v.natAbs).length := Nat.length_toDigits_pos
      rw [h0, Nat.pow_zero]
      omega
    · have hlen : (Nat.toDigits 10 v.natAbs).length ≤ k - 1 ↔ v.natAbs < 10 ^ (k - 1) :=
        Nat.length_toDigits_le_iff (by decide) h0
      omega
  · have hlen : (Nat.toDigits 10 v.natAbs).length ≤ k ↔ v.natAbs < 10 ^ k :=
      Nat.length_toDigits_le_iff (by decide) hk
    rw [if_neg hv]
    omega

end Decimal
