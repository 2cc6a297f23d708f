import Mathlib.Algebra.Order.Ring.Nat
import Mathlib.Tactic.Common

/-!
# The lowest bits of a word

`Ones x n`: the bits of `x` below `n` are set, and the bit `n` is not; `Zeros x n` is the same with
the bits the other way round.

    Ones x n   →  the bit j of x &&& (x + 1)  is  n ≤ j && the bit j of x   (Ones.getLsbD_and_succ)
    Zeros x n  →  the bit j of x ||| (x - 1)  is  j < n || the bit j of x   (Zeros.getLsbD_or_pred)

`Zeros x x.ctz` (zeros_ctz), unless `x` is zero, and `Ones x (~~~x).ctz` (ones_ctz_not), unless all
bits of `x` are set.
-/

namespace Words

variable {w : Nat}

def Ones (x : BitVec w) (n : Nat) : Prop := (∀ j < n, x.getLsbD j = true) ∧ x.getLsbD n = false

def Zeros (x : BitVec w) (n : Nat) : Prop := (∀ j < n, x.getLsbD j = false) ∧ x.getLsbD n = true

variable {x : BitVec w} {n m : Nat}

theorem Ones.unique (hn : Ones x n) (hm : Ones x m) : n = m := by
  rcases Nat.lt_trichotomy n m with h | h | h
  · have := hm.1 n h
    rw [hn.2] at this
    cases this
  · exact h
  · have := hn.1 m h
    rw [hm.2] at this
    cases this

theorem Zeros.lt (h : Zeros x n) : n < w := BitVec.lt_of_getLsbD h.2

/-- A bit that is not set bounds the ones. -/
theorem Ones.le_of_getLsbD (h : Ones x n) {j : Nat} (hj : x.getLsbD j = false) : n ≤ j := by
  by_contra hlt
  have := h.1 j (by omega)
  rw [hj] at this
  cases this

theorem Zeros.le_of_getLsbD (h : Zeros x n) {j : Nat} (hj : x.getLsbD j = true) : n ≤ j := by
  by_contra hlt
  have := h.1 j (by omega)
  rw [hj] at this
  cases this

theorem zeros_ctz (hx : x ≠ 0#w) : Zeros x x.ctz.toNat :=
  ⟨fun _ hj => BitVec.getLsbD_false_of_lt_ctz hj, BitVec.getLsbD_true_ctz_of_ne_zero hx⟩

theorem ones_ctz_not (hx : x ≠ BitVec.allOnes w) : Ones x (~~~x).ctz.toNat := by
  have hne : ~~~x ≠ 0#w := by
    intro h
    apply hx
    rw [← BitVec.not_not (b := x), h, BitVec.not_zero]
  have hz := zeros_ctz hne
  have hlt := hz.lt
  constructor
  · intro j hj
    have := hz.1 j hj
    rw [BitVec.getLsbD_not] at this
    simpa [show j < w by omega] using this
  · have := hz.2
    rw [BitVec.getLsbD_not] at this
    simp only [Bool.and_eq_true, Bool.not_eq_true'] at this
    exact this.2

theorem exists_ones (hx : x ≠ BitVec.allOnes w) : ∃ n < w, Ones x n := by
  have h := ones_ctz_not hx
  have hne : ~~~x ≠ 0#w := by
    intro h
    apply hx
    rw [← BitVec.not_not (b := x), h, BitVec.not_zero]
  exact ⟨_, (zeros_ctz hne).lt, h⟩

/-! ## One step of a scan -/

/-- A number whose lowest bits are ones, then a zero. -/
theorem ones_decompose {x n : Nat} (h : ∀ j < n, x.testBit j = true) (h' : x.testBit n = false) :
    x = 2 ^ (n + 1) * (x / 2 ^ (n + 1)) + (2 ^ n - 1) := by
  have hlow : x % 2 ^ (n + 1) = 2 ^ n - 1 := by
    apply Nat.eq_of_testBit_eq
    intro j
    rw [Nat.testBit_mod_two_pow, Nat.testBit_two_pow_sub_one]
    rcases Nat.lt_trichotomy j n with hj | rfl | hj
    · simp [h j hj, hj, show j < n + 1 by omega]
    · simp [h']
    · simp [show ¬ j < n + 1 by omega, show ¬ j < n by omega]
  rw [← hlow]
  exact (Nat.div_add_mod x _).symm

theorem zeros_decompose {x n : Nat} (h : ∀ j < n, x.testBit j = false) (h' : x.testBit n = true) :
    x = 2 ^ (n + 1) * (x / 2 ^ (n + 1)) + 2 ^ n := by
  have hlow : x % 2 ^ (n + 1) = 2 ^ n := by
    apply Nat.eq_of_testBit_eq
    intro j
    rw [Nat.testBit_mod_two_pow, Nat.testBit_two_pow]
    rcases Nat.lt_trichotomy j n with hj | rfl | hj
    · simp [h j hj, show n ≠ j by omega]
    · simp [h']
    · simp [show ¬ j < n + 1 by omega, show n ≠ j by omega]
  rw [← hlow]
  exact (Nat.div_add_mod x _).symm

theorem testBit_and_succ {x n : Nat} (h : ∀ j < n, x.testBit j = true) (h' : x.testBit n = false)
    (j : Nat) : (x &&& (x + 1)).testBit j = (decide (n ≤ j) && x.testBit j) := by
  have hx := ones_decompose h h'
  generalize x / 2 ^ (n + 1) = q at hx
  have hpos : 0 < 2 ^ n := Nat.two_pow_pos n
  have hpow : 2 ^ (n + 1) = 2 ^ n + 2 ^ n := by rw [Nat.pow_succ, Nat.mul_two]
  have hsucc : x + 1 = 2 ^ (n + 1) * q + 2 ^ n := by omega
  rw [Nat.testBit_and, hsucc, Nat.testBit_two_pow_mul_add _ (by omega)]
  rcases Nat.lt_trichotomy j n with hj | rfl | hj
  · rw [if_pos (by omega), Nat.testBit_two_pow]
    simp [show n ≠ j by omega, show ¬ n ≤ j by omega]
  · simp [h']
  · rw [if_neg (by omega), hx, Nat.testBit_two_pow_mul_add _ (by omega), if_neg (by omega)]
    simp [show n ≤ j by omega]

theorem testBit_or_pred {x n : Nat} (h : ∀ j < n, x.testBit j = false) (h' : x.testBit n = true)
    (j : Nat) : (x ||| (x - 1)).testBit j = (decide (j < n) || x.testBit j) := by
  have hx := zeros_decompose h h'
  generalize x / 2 ^ (n + 1) = q at hx
  have hpos : 0 < 2 ^ n := Nat.two_pow_pos n
  have hpow : 2 ^ (n + 1) = 2 ^ n + 2 ^ n := by rw [Nat.pow_succ, Nat.mul_two]
  have hpred : x - 1 = 2 ^ (n + 1) * q + (2 ^ n - 1) := by omega
  rw [Nat.testBit_or, hpred, Nat.testBit_two_pow_mul_add _ (by omega)]
  rcases Nat.lt_trichotomy j n with hj | rfl | hj
  · rw [if_pos (by omega), Nat.testBit_two_pow_sub_one]
    simp [hj]
  · simp [h']
  · rw [if_neg (by omega), hx, Nat.testBit_two_pow_mul_add _ (by omega), if_neg (by omega)]
    simp [show ¬ j < n by omega]

/-- "reset bits from 0 to the first zero" -/
theorem Ones.getLsbD_and_succ (h : Ones x n) (hn : n < w) (j : Nat) :
    (x &&& (x + 1)).getLsbD j = (decide (n ≤ j) && x.getLsbD j) := by
  have hlt : x.toNat + 1 < 2 ^ w := by
    by_contra hge
    have hle := x.isLt
    have hall : x.toNat = 2 ^ w - 1 := by omega
    have hbit : x.toNat.testBit n = false := h.2
    rw [hall, Nat.testBit_two_pow_sub_one] at hbit
    simp [hn] at hbit
  have hone : (1 : BitVec w).toNat = 1 := by
    show (BitVec.ofNat w 1).toNat = 1
    rw [BitVec.toNat_ofNat]
    exact Nat.mod_eq_of_lt (by omega)
  show (x &&& (x + 1)).toNat.testBit j = _
  rw [BitVec.toNat_and, BitVec.toNat_add, hone, Nat.mod_eq_of_lt hlt]
  exact testBit_and_succ h.1 h.2 j

/-- "set bits from 0 to the first one" -/
theorem Zeros.getLsbD_or_pred (h : Zeros x n) (j : Nat) :
    (x ||| (x - 1)).getLsbD j = (decide (j < n) || x.getLsbD j) := by
  have hpos : 1 ≤ x.toNat := by
    by_contra hx
    have h0 : x.toNat = 0 := by omega
    have hbit : x.toNat.testBit n = true := h.2
    rw [h0, Nat.zero_testBit] at hbit
    cases hbit
  have hle := x.isLt
  have hone : (1 : BitVec w).toNat = 1 := by
    show (BitVec.ofNat w 1).toNat = 1
    rw [BitVec.toNat_ofNat]
    exact Nat.mod_eq_of_lt (by omega)
  show (x ||| (x - 1)).toNat.testBit j = _
  rw [BitVec.toNat_or, BitVec.toNat_sub_of_le (by rw [BitVec.le_def, hone]; exact hpos), hone]
  exact testBit_or_pred h.1 h.2 j

end Words
