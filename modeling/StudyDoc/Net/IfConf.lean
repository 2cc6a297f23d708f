import StudyDoc.Lib.CStruct
import StudyDoc.Net.Syscall

/-!
# `unpifi.h`: how large a buffer `get_ifi_info` needs

`SIOCGIFCONF` does not say that a list was cut off, so the loop asks with a larger and larger
buffer until the length is the same twice.  Whatever the kernel answers, at a `break`

    ifc_len = 0 ∨ ifc_len + 10 * sizeof(struct ifreq) ≤ len                       (sizing_loop)

If the list has `S` bytes all the time, the loop is left with `ifc_len = S` if `S ≤ 2147483200`,
whatever is answered to a negative length (settles), and only then if that is always the same
answer (settles_iff).  For a longer list `len`, an `int`, becomes negative before the length has
been the same twice.
-/

namespace StudyDoc.IfConf

open CStruct

/-! ## Algorithm -/

def EINVAL : Errno := 22

/-- `ifr_name` and a union, in which `struct ifmap` is the longest. -/
def ifreq : List Member := [bytes 16, longs 3]

/-- `10 * sizeof(struct ifreq)` -/
def increment : Nat := 10 * sizeof ifreq

/-- One result of `ioctl(sockfd, SIOCGIFCONF, &ifc)`: what is stored is not longer than the length
supplied, and nothing is stored if that is negative. -/
inductive Answer (supplied : Int32) where
  | fail (errno : Errno)
  | length (ifc_len : Int32) (nonneg : 0 ≤ ifc_len.toInt)
      (le : ifc_len = 0 ∨ ifc_len.toInt ≤ supplied.toInt)

/-- What the kernel answers in each turn to the length that is supplied there. -/
abbrev Kernel := Nat → (supplied : Int32) → Answer supplied

/-- Where the loop is. -/
inductive State where
  | turn (lastlen len : Int32)
  | broken (ifc_len len : Int32)
  /-- `err_sys("ioctl error")` -/
  | exited

/-- One turn of `for (;;)`. -/
def turn (lastlen len : Int32) : Answer len → State
  | .fail errno =>
    if errno ≠ EINVAL ∨ lastlen ≠ 0 then .exited
    else .turn lastlen (len + Int32.ofNat increment)
  | .length ifc_len _ _ =>
    if ifc_len = lastlen then .broken ifc_len len
    else .turn ifc_len (len + Int32.ofNat increment)

/-- `i` turns. -/
def after (k : Kernel) : Nat → State
  | 0 => .turn 0 (Int32.ofNat (100 * sizeof ifreq))
  | i + 1 =>
    match after k i with
    | .turn lastlen len => turn lastlen len (k i len)
    | .broken ifc_len len => .broken ifc_len len
    | .exited => .exited

/-- The length of a list. -/
abbrev Length := { n : Int32 // 0 ≤ n.toInt }

/-- Of `S` bytes as many are stored as there is room for. -/
def stored (S : Length) (supplied : Int32) (h0 : 0 ≤ supplied.toInt) : Answer supplied :=
  if hS : S.1.toInt ≤ supplied.toInt then .length S.1 S.2 (Or.inr hS)
  else .length supplied h0 (Or.inr (Int.le_refl _))

/-- The list has `S` bytes all the time. -/
def Stays (S : Length) (k : Kernel) : Prop :=
  ∀ i supplied (h0 : 0 ≤ supplied.toInt), k i supplied = stored S supplied h0

/-- An answer to a negative length: a failure, or the length 0. -/
def refuse (negative : Option Errno) (supplied : Int32) : Answer supplied :=
  match negative with
  | some errno => .fail errno
  | none => .length 0 (by decide) (Or.inl rfl)

/-- Such a kernel, which answers `negative` to each negative length. -/
def constant (S : Length) (negative : Option Errno) : Kernel := fun _ supplied =>
  if h0 : 0 ≤ supplied.toInt then stored S supplied h0 else refuse negative supplied

def Inv : State → Prop
  | .turn lastlen len =>
    lastlen = 0 ∨ lastlen.toInt + increment ≤ len.toInt ∨ len.toInt < 0
  | .broken ifc_len len => ifc_len = 0 ∨ ifc_len.toInt + increment ≤ len.toInt
  | .exited => True

/-! ## Lemmas -/

/-- `len` is `int`. -/
theorem toInt_add_increment {len : Int32} (h : 0 ≤ len.toInt) :
    (len + Int32.ofNat increment).toInt = len.toInt + increment ∨
      (len + Int32.ofNat increment).toInt < 0 := by
  have hhi := len.toInt_lt
  have hinc : (Int32.ofNat increment).toInt = 400 := by decide
  have hincr : (increment : Int) = 400 := by decide
  rw [Int32.toInt_add, hinc, hincr, Int.bmod_def]
  omega

theorem inv_turn {lastlen len : Int32} (h : Inv (.turn lastlen len)) (a : Answer len) :
    Inv (turn lastlen len a) := by
  cases a with
  | fail errno =>
    simp only [turn]
    split
    · trivial
    · next hne => exact Or.inl (not_not.mp (not_or.mp hne).2)
  | length n hn hle =>
    simp only [turn]
    split
    · next heq =>
      subst heq
      rcases h with h | h | h
      · exact Or.inl h
      · exact Or.inr h
      · exact Or.inl (hle.resolve_right (by omega))
    · rcases hle with h0 | hle
      · exact Or.inl h0
      · rcases toInt_add_increment (show 0 ≤ len.toInt by omega) with hadd | hadd
        · exact Or.inr (Or.inl (by omega))
        · exact Or.inr (Or.inr hadd)

theorem inv_after (k : Kernel) (i : Nat) : Inv (after k i) := by
  induction i with
  | zero => exact Or.inl rfl
  | succ i ih =>
    unfold after
    cases hs : after k i with
    | turn lastlen len =>
      rw [hs] at ih
      exact inv_turn ih (k i len)
    | broken ifc_len len =>
      rw [hs] at ih
      exact ih
    | exited => trivial

/-- A turn that ends the loop ends it. -/
theorem after_of_ended {k : Kernel} {s : State} {i : Nat} (h : after k i = s)
    (hs : ∀ lastlen len, s ≠ .turn lastlen len) (d : Nat) : after k (i + d) = s := by
  induction d with
  | zero => exact h
  | succ d ih =>
    rw [← Nat.add_assoc]
    cases s with
    | turn lastlen len => exact absurd rfl (hs lastlen len)
    | broken ifc_len len => simp only [after, ih]
    | exited => simp only [after, ih]

theorem ended_unique {k : Kernel} {s s' : State} {i j : Nat} (h : after k i = s)
    (h' : after k j = s') (hs : ∀ lastlen len, s ≠ .turn lastlen len)
    (hs' : ∀ lastlen len, s' ≠ .turn lastlen len) : s = s' := by
  rw [← after_of_ended h hs j, Nat.add_comm i j]
  exact after_of_ended h' hs' i

/-! ### A list that does not change -/

/-- `len` in turn `i`, as long as it is an `int`. -/
def lenAt (i : Nat) : Int32 := Int32.ofNat (100 * sizeof ifreq + i * increment)

theorem lenAt_succ (i : Nat) : lenAt (i + 1) = lenAt i + Int32.ofNat increment := by
  unfold lenAt
  rw [Nat.succ_mul i increment, ← Nat.add_assoc, Int32.ofNat_add]

theorem toInt_lenAt {i : Nat} (h : i ≤ 5368699) : (lenAt i).toInt = 4000 + 400 * i := by
  have hstart : 100 * sizeof ifreq = 4000 := by decide
  have hincr : increment = 400 := by decide
  unfold lenAt
  rw [hstart, hincr, Int32.toInt_ofNat', Int.bmod_def]
  simp only [Int32.size]
  omega

variable {S : Length} {k : Kernel} {lastlen len : Int32} {i : Nat}

theorem after_succ_of_turn (h : after k i = .turn lastlen len) :
    after k (i + 1) = turn lastlen len (k i len) := by
  simp only [after, h]

theorem stays_constant (S : Length) (negative : Option Errno) : Stays S (constant S negative) :=
  fun _ _ h0 => dif_pos h0

/-- The buffer is too small: it is filled. -/
theorem turn_short (hk : Stays S k) (h0 : 0 ≤ len.toInt) (hS : len.toInt < S.1.toInt)
    (hne : len ≠ lastlen) :
    turn lastlen len (k i len) = .turn len (len + Int32.ofNat increment) := by
  rw [hk i len h0, stored, dif_neg (Int.not_le.mpr hS)]
  exact if_neg hne

theorem turn_fits (hk : Stays S k) (hS : S.1.toInt ≤ len.toInt) (hne : S.1 ≠ lastlen) :
    turn lastlen len (k i len) = .turn S.1 (len + Int32.ofNat increment) := by
  rw [hk i len (Int.le_trans S.2 hS), stored, dif_pos hS]
  exact if_neg hne

/-- The same length twice. -/
theorem turn_same (hk : Stays S k) (hS : S.1.toInt ≤ len.toInt) :
    turn S.1 len (k i len) = .broken S.1 len := by
  rw [hk i len (Int.le_trans S.2 hS), stored, dif_pos hS]
  exact if_pos rfl

theorem constant_negative (negative : Option Errno) (h : len.toInt < 0) :
    constant S negative i len = refuse negative len :=
  dif_neg (Int.not_le.mpr h)

/-- As long as the list does not fit, each turn fills the whole buffer. -/
theorem after_growing (hk : Stays S k) (hS : 0 < S.1.toInt) (hi : i ≤ 5368699)
    (h : ∀ j < i, (lenAt j).toInt < S.1.toInt) :
    ∃ lastlen, after k i = .turn lastlen (lenAt i) ∧
      lastlen.toInt < S.1.toInt ∧ lastlen.toInt < (lenAt i).toInt := by
  induction i with
  | zero => exact ⟨0, rfl, hS, by decide⟩
  | succ i ih =>
    obtain ⟨lastlen, hturn, -, hlt⟩ := ih (by omega) (fun j hj => h j (by omega))
    have hshort := h i (by omega)
    have hlen := toInt_lenAt (show i ≤ 5368699 by omega)
    have hnext := toInt_lenAt hi
    refine ⟨lenAt i, ?_, hshort, by omega⟩
    rw [after_succ_of_turn hturn, lenAt_succ]
    refine turn_short hk (by omega) hshort ?_
    rintro rfl
    omega

theorem settles (hk : Stays S k) (hS : S.1.toInt ≤ 2147483200) :
    ∃ i len, after k i = .broken S.1 len := by
  rcases Int.lt_or_eq_of_le S.2 with hpos | h0
  · -- the first turn in which the list fits
    obtain ⟨i, hle, hfits, hshort⟩ : ∃ i ≤ 5368698, S.1.toInt ≤ (lenAt i).toInt ∧
        ∀ j < i, (lenAt j).toInt < S.1.toInt := by
      refine ⟨((S.1.toInt - 3601) / 400).toNat, by omega, ?_, ?_⟩
      · rw [toInt_lenAt (by omega)]
        omega
      · intro j hj
        rw [toInt_lenAt (by omega)]
        omega
    obtain ⟨lastlen, hturn, hlt, -⟩ := after_growing hk hpos (by omega) hshort
    have hnext := toInt_lenAt (show i + 1 ≤ 5368699 by omega)
    have hlen := toInt_lenAt (show i ≤ 5368699 by omega)
    have hfirst : after k (i + 1) = .turn S.1 (lenAt (i + 1)) := by
      rw [after_succ_of_turn hturn, lenAt_succ]
      refine turn_fits hk hfits ?_
      rintro rfl
      omega
    exact ⟨i + 2, lenAt (i + 1), (after_succ_of_turn hfirst).trans (turn_same hk (by omega))⟩
  · have hzero : S.1 = 0 := Int32.toInt_inj.mp h0.symm
    have hstart : after k 0 = .turn 0 (lenAt 0) := rfl
    have hfits : S.1.toInt ≤ (lenAt 0).toInt := by
      rw [hzero]
      decide
    have hsame : turn S.1 (lenAt 0) (k 0 (lenAt 0)) = .broken S.1 (lenAt 0) := turn_same hk hfits
    refine ⟨1, lenAt 0, (after_succ_of_turn hstart).trans ?_⟩
    rw [hzero] at hsame ⊢
    exact hsame

/-- The first negative length is supplied with `lastlen` still positive. -/
theorem after_overflow (hk : Stays S k) (hS : 2147483200 < S.1.toInt) :
    ∃ lastlen, 0 < lastlen.toInt ∧ after k 5368700 = .turn lastlen (lenAt 5368700) := by
  obtain ⟨lastlen, hturn, hltS, hlt⟩ :=
    after_growing hk (show 0 < S.1.toInt by omega) (Nat.le_refl 5368699) fun j hj => by
      rw [toInt_lenAt (by omega)]
      omega
  have hlen : (lenAt 5368699).toInt = 2147483600 := toInt_lenAt (Nat.le_refl _)
  have hlast : 0 ≤ (lenAt 5368699).toInt := by omega
  rw [after_succ_of_turn hturn, lenAt_succ 5368699]
  by_cases hfits : S.1.toInt ≤ (lenAt 5368699).toInt
  · exact ⟨S.1, by omega, turn_fits hk hfits (by rintro rfl; omega)⟩
  · exact ⟨lenAt 5368699, by omega, turn_short hk hlast (by omega) (by rintro rfl; omega)⟩

/-- The loop has come to an end without the list. -/
def Lost : State → Prop
  | .turn _ _ => False
  | .broken ifc_len _ => ifc_len = 0
  | .exited => True

/-- A failure is an error now; the length 0 is so once more in the next turn. -/
theorem lost_of_lt (negative : Option Errno) (hS : 2147483200 < S.1.toInt) :
    ∃ i, Lost (after (constant S negative) i) := by
  obtain ⟨lastlen, hpos, hfull⟩ := after_overflow (stays_constant S negative) hS
  have hne : lastlen ≠ 0 := by
    rintro rfl
    exact absurd hpos (by decide)
  have hneg : (lenAt 5368700).toInt < 0 := by decide
  have hneg' : (lenAt 5368701).toInt < 0 := by decide
  cases negative with
  | some errno =>
    refine ⟨5368701, ?_⟩
    rw [after_succ_of_turn hfull, constant_negative _ hneg, refuse, turn, if_pos (Or.inr hne)]
    trivial
  | none =>
    have hzero : after (constant S none) 5368701 = .turn 0 (lenAt 5368701) := by
      rw [after_succ_of_turn hfull, constant_negative _ hneg, refuse, turn, if_neg hne.symm,
        lenAt_succ 5368700]
    refine ⟨5368702, ?_⟩
    rw [after_succ_of_turn hzero, constant_negative _ hneg', refuse, turn, if_pos rfl]
    rfl

theorem settles_iff (S : Length) (negative : Option Errno) :
    (∃ i len, after (constant S negative) i = .broken S.1 len) ↔ S.1.toInt ≤ 2147483200 := by
  refine ⟨?_, settles (stays_constant S negative)⟩
  rintro ⟨i, len, hi⟩
  by_contra hlt
  obtain ⟨j, hj⟩ := lost_of_lt negative (Int.not_le.mp hlt)
  have hturn : ∀ lastlen len, after (constant S negative) j ≠ .turn lastlen len := by
    intro lastlen len h
    rw [h] at hj
    exact hj
  rw [← ended_unique hi rfl (fun _ _ => State.noConfusion) hturn] at hj
  have hzero : S.1 = 0 := hj
  rw [hzero] at hlt
  exact hlt (by decide)

/-! ## Main result -/

theorem sizing_loop :
    (∀ (k : Kernel) (i : Nat) (ifc_len len : Int32), after k i = .broken ifc_len len →
      ifc_len = 0 ∨ ifc_len.toInt + (10 * sizeof ifreq : Nat) ≤ len.toInt) ∧
    (∀ (S : Length) (k : Kernel), Stays S k → S.1.toInt ≤ 2147483200 →
      ∃ i len, after k i = .broken S.1 len) ∧
    ∀ (S : Length) (negative : Option Errno),
      (∃ i len, after (constant S negative) i = .broken S.1 len) ↔ S.1.toInt ≤ 2147483200 := by
  refine ⟨fun k i ifc_len len h => ?_, fun S k hk hS => settles hk hS, settles_iff⟩
  have hinv := inv_after k i
  rw [h] at hinv
  exact hinv

/-- The length of the list is an `int`, and yet it is not returned, whatever is answered. -/
theorem not_settles : Stays ⟨2147483600, by decide⟩ (constant ⟨2147483600, by decide⟩ none) ∧
    ¬ ∃ k i len, after k i = .broken 2147483600 len := by
  refine ⟨stays_constant _ none, ?_⟩
  rintro ⟨k, i, len, h⟩
  have hinv := inv_after k i
  rw [h] at hinv
  have hlen : (2147483600 : Int32).toInt = 2147483600 := by decide
  have hincr : increment = 400 := by decide
  have hhi := len.toInt_lt
  rcases hinv with h0 | hle
  · exact absurd h0 (by decide)
  · omega

end StudyDoc.IfConf
