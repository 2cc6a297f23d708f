import Mathlib.Data.Nat.ModEq
import Mathlib.Tactic.Ring

/-!
# End-around carry

A word has `m` values.  `carry m s` adds what overflows a word back at its low end; two of them
bring any `s < m * m` down to one word.  Zero has two representations there, `0` and `m - 1`,
and only the sum `0` gives the first:

    fold m s ≡ s  (mod m - 1)     fold m s = 0 ↔ s = 0     fold m s ≤ m - 1
    fold m (s + (m - 1 - fold m s)) = m - 1                              (fold_add_complement)
    s' ≡ b * s  (mod b * b - 1)  →  fold (b * b) s' = swap b (fold (b * b) s)      (fold_swap)
    words added one by one with `add` = fold of their sum                (foldl_add)

`add` adds two words, a carry at once at the low end.  `swap b` exchanges the two digits to base
`b` of a word.
-/

namespace OnesComplement

/-! ## Definitions -/

def carry (m s : Nat) : Nat := s / m + s % m

/-- Two carries: a carry out of the first one is added back in. -/
def fold (m s : Nat) : Nat := carry m (carry m s)

def add (m a b : Nat) : Nat := if a + b < m then a + b else a + b - m + 1

def swap (b n : Nat) : Nat := n % b * b + n / b

/-! ## Carries -/

theorem carry_modEq {m : Nat} (hm : 0 < m) (s : Nat) : carry m s ≡ s [MOD m - 1] := by
  have h1 : m ≡ 1 [MOD m - 1] := by
    apply Nat.ModEq.symm
    apply (Nat.modEq_iff_dvd' (by omega)).mpr
    exact Nat.dvd_refl _
  have h2 : m * (s / m) ≡ 1 * (s / m) [MOD m - 1] := h1.mul_right (s / m)
  have h3 : s / m + s % m ≡ m * (s / m) + s % m [MOD m - 1] := by
    rw [Nat.one_mul] at h2
    exact h2.symm.add_right (s % m)
  rw [Nat.div_add_mod] at h3
  exact h3

theorem carry_eq_zero_iff (m s : Nat) : carry m s = 0 ↔ s = 0 := by
  constructor
  · intro h
    obtain ⟨hd, hr⟩ := Nat.add_eq_zero_iff.mp h
    have hs := Nat.div_add_mod s m
    rw [hd, hr, Nat.mul_zero] at hs
    omega
  · rintro rfl
    simp [carry]

theorem carry_le {m s : Nat} (h : s < m * m) : carry m s ≤ 2 * (m - 1) := by
  have hm : 0 < m := Nat.pos_of_ne_zero (by rintro rfl; simp at h)
  have hd : s / m < m := Nat.div_lt_of_lt_mul h
  have hr : s % m < m := Nat.mod_lt s hm
  unfold carry
  omega

/-- What overflows one word is one carry at most. -/
theorem carry_of_le {m s : Nat} (hm : 0 < m) (h : s ≤ 2 * (m - 1)) :
    carry m s = if s < m then s else s - m + 1 := by
  unfold carry
  split
  · next hs => rw [Nat.div_eq_of_lt hs, Nat.mod_eq_of_lt hs, Nat.zero_add]
  · next hs =>
    have hd : s / m = 1 := Nat.div_eq_of_lt_le (by omega) (by omega)
    have hr : s % m = s - m := by
      rw [Nat.mod_eq_sub_mod (by omega), Nat.mod_eq_of_lt (by omega)]
    omega

/-- The second carry as a program adds it: in place, the overflow cut off. -/
theorem add_div_mod_eq_carry {m s : Nat} (hm : 0 < m) (h : s ≤ 2 * (m - 1)) :
    (s + s / m) % m = carry m s := by
  rw [carry_of_le hm h]
  split
  · next hs => rw [Nat.div_eq_of_lt hs, Nat.add_zero, Nat.mod_eq_of_lt hs]
  · next hs =>
    have hd : s / m = 1 := Nat.div_eq_of_lt_le (by omega) (by omega)
    rw [hd, Nat.mod_eq_sub_mod (by omega), Nat.mod_eq_of_lt (by omega)]
    omega

theorem fold_modEq {m : Nat} (hm : 0 < m) (s : Nat) : fold m s ≡ s [MOD m - 1] :=
  (carry_modEq hm (carry m s)).trans (carry_modEq hm s)

theorem fold_eq_zero_iff (m s : Nat) : fold m s = 0 ↔ s = 0 :=
  (carry_eq_zero_iff m (carry m s)).trans (carry_eq_zero_iff m s)

theorem fold_le {m s : Nat} (h : s < m * m) : fold m s ≤ m - 1 := by
  have hm : 0 < m := Nat.pos_of_ne_zero (by rintro rfl; simp at h)
  have hc : carry m s ≤ 2 * (m - 1) := carry_le h
  unfold fold
  rw [carry_of_le hm hc]
  split <;> omega

/-! ## The two zeros -/

/-- A residue and whether it is `0` determine a word. -/
theorem eq_of_modEq {n x y : Nat} (hx : x ≤ n) (hy : y ≤ n) (h : x ≡ y [MOD n])
    (h0 : x = 0 ↔ y = 0) : x = y := by
  have hmod : x % n = y % n := h
  rcases Nat.lt_or_ge x n with hxn | hxn
  · rcases Nat.lt_or_ge y n with hyn | hyn
    · rw [Nat.mod_eq_of_lt hxn, Nat.mod_eq_of_lt hyn] at hmod
      exact hmod
    · have hyn' : y = n := by omega
      rw [hyn', Nat.mod_self, Nat.mod_eq_of_lt hxn] at hmod
      omega
  · have hxn' : x = n := by omega
    rcases Nat.lt_or_ge y n with hyn | hyn
    · rw [hxn', Nat.mod_self, Nat.mod_eq_of_lt hyn] at hmod
      omega
    · omega

theorem fold_add_complement {m s : Nat} (h : s + (m - 1 - fold m s) < m * m) (hm : 1 < m) :
    fold m (s + (m - 1 - fold m s)) = m - 1 := by
  have hs : fold m s ≤ m - 1 := fold_le (by omega)
  apply eq_of_modEq (fold_le h) (Nat.le_refl _)
  · calc fold m (s + (m - 1 - fold m s))
      _ ≡ s + (m - 1 - fold m s) [MOD m - 1] := fold_modEq (by omega) _
      _ ≡ fold m s + (m - 1 - fold m s) [MOD m - 1] :=
        (fold_modEq (by omega) s).symm.add_right _
      _ = m - 1 := by omega
  · -- the sum is not `0`: where `s` is, the complement added is `m - 1`
    rw [fold_eq_zero_iff]
    have h0 := fold_eq_zero_iff m s
    omega

/-! ## Word by word -/

theorem add_eq_carry {m a b : Nat} (hm : 0 < m) (ha : a ≤ m - 1) (hb : b ≤ m - 1) :
    add m a b = carry m (a + b) := by
  rw [carry_of_le hm (by omega)]
  rfl

theorem add_le {m a b : Nat} (hm : 0 < m) (ha : a ≤ m - 1) (hb : b ≤ m - 1) :
    add m a b ≤ m - 1 := by
  unfold add
  split <;> omega

/-- One more word is one more `add`. -/
theorem add_fold {m s w : Nat} (hw : w ≤ m - 1) (h : s + w < m * m) :
    add m (fold m s) w = fold m (s + w) := by
  have hm : 0 < m := Nat.pos_of_ne_zero (by rintro rfl; simp at h)
  have hs : fold m s ≤ m - 1 := fold_le (by omega)
  apply eq_of_modEq (add_le hm hs hw) (fold_le h)
  · rw [add_eq_carry hm hs hw]
    calc carry m (fold m s + w)
      _ ≡ fold m s + w [MOD m - 1] := carry_modEq hm _
      _ ≡ s + w [MOD m - 1] := (fold_modEq hm s).add_right w
      _ ≡ fold m (s + w) [MOD m - 1] := (fold_modEq hm (s + w)).symm
  · have h0 := fold_eq_zero_iff m s
    rw [add_eq_carry hm hs hw, carry_eq_zero_iff, fold_eq_zero_iff]
    omega

/-- **One sum.**  Adding words with the carry put back each time, and folding the carries of the
whole sum back at the end, come to the same word. -/
theorem foldl_add {m : Nat} (ws : List Nat) (hws : ∀ w ∈ ws, w ≤ m - 1) (s : Nat)
    (h : s + ws.sum < m * m) : ws.foldl (add m) (fold m s) = fold m (s + ws.sum) := by
  induction ws generalizing s with
  | nil => rfl
  | cons w ws ih =>
    rw [List.forall_mem_cons] at hws
    rw [List.sum_cons, ← Nat.add_assoc] at h ⊢
    rw [List.foldl_cons, add_fold hws.1 (by omega)]
    exact ih hws.2 (s + w) h

/-! ## Exchanging the digits of a word -/

theorem swap_modEq {b : Nat} (hb : 0 < b) (n : Nat) : swap b n ≡ b * n [MOD b * b - 1] := by
  have hbb : 0 < b * b := Nat.mul_pos hb hb
  have h1 : 1 ≡ b * b [MOD b * b - 1] := by
    apply (Nat.modEq_iff_dvd' (by omega)).mpr
    exact Nat.dvd_refl _
  calc swap b n
    _ = n % b * b + 1 * (n / b) := by unfold swap; rw [Nat.one_mul]
    _ ≡ n % b * b + b * b * (n / b) [MOD b * b - 1] := (h1.mul_right _).add_left _
    _ = b * (b * (n / b) + n % b) := by ring
    _ = b * n := by rw [Nat.div_add_mod]

theorem swap_eq_zero_iff {b : Nat} (hb : 0 < b) (n : Nat) : swap b n = 0 ↔ n = 0 := by
  constructor
  · intro h
    obtain ⟨hmul, hd⟩ := Nat.add_eq_zero_iff.mp h
    have hr : n % b = 0 := by
      rcases Nat.mul_eq_zero.mp hmul with hr | hb0
      · exact hr
      · omega
    have hn := Nat.div_add_mod n b
    rw [hd, hr, Nat.mul_zero] at hn
    omega
  · rintro rfl
    simp [swap]

theorem swap_le {b n : Nat} (h : n ≤ b * b - 1) (hb : 0 < b) : swap b n ≤ b * b - 1 := by
  have hbb : 0 < b * b := Nat.mul_pos hb hb
  have hd : n / b < b := Nat.div_lt_of_lt_mul (by omega)
  have hr : n % b + 1 ≤ b := Nat.mod_lt n hb
  have hmul : (n % b + 1) * b ≤ b * b := Nat.mul_le_mul_right b hr
  rw [Nat.add_mul] at hmul
  unfold swap
  omega

/-- **Byte order.**  Sums that agree up to the exchange of digits fold to words that do. -/
theorem fold_swap {b s s' : Nat} (hb : 0 < b) (h : s' ≡ b * s [MOD b * b - 1])
    (h0 : s' = 0 ↔ s = 0) (hs : s < b * b * (b * b)) (hs' : s' < b * b * (b * b)) :
    fold (b * b) s' = swap b (fold (b * b) s) := by
  have hbb : 0 < b * b := Nat.mul_pos hb hb
  apply eq_of_modEq (fold_le hs') (swap_le (fold_le hs) hb)
  · calc fold (b * b) s'
      _ ≡ s' [MOD b * b - 1] := fold_modEq hbb s'
      _ ≡ b * s [MOD b * b - 1] := h
      _ ≡ b * fold (b * b) s [MOD b * b - 1] := (fold_modEq hbb s).symm.mul_left b
      _ ≡ swap b (fold (b * b) s) [MOD b * b - 1] := (swap_modEq hb _).symm
  · rw [fold_eq_zero_iff, swap_eq_zero_iff hb, fold_eq_zero_iff]
    exact h0

end OnesComplement
