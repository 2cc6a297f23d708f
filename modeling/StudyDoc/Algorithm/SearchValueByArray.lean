import StudyDoc.Lib.Access
import Mathlib.Tactic.Common

/-!
# `算法分析第二章运行中的对数.md`: binary search with the upper end one too high

`$high` starts at `$len`, and `$low<=$high` lets the search go on up to there:

    some element is at least `$value`  →  an index of `$value`, or null       (finds)
                                          every probe below `$len`            (probes_lt)
    every element is below `$value`    →  `$arr[$len]` is probed              (mem_reads_of_lt)
                                          `$len` is returned for 0, else null (run_of_lt)

so the function is right for an ascending array exactly if it has an element at or above `$value`
(searchValueByArray_correct_iff).
-/

namespace StudyDoc.SearchValueByArray

/-! ## Algorithm -/

/-- `$arr[$mid] < $value`; null and a number are compared as booleans. -/
def less : Option Int → Int → Bool
  | some a, value => a < value
  | none, value => value ≠ 0

/-- `$arr[$mid] > $value` -/
def greater : Option Int → Int → Bool
  | some a, value => value < a
  | none, _ => false

/-- `intval(($low+$high)/2)`, in a round: neither is negative. -/
def middle (low : Nat) (high : Int) : Nat := ((low + high) / 2).toNat

/-- `while($low<=$high)`, on an array whose cells are null where it has no element. -/
def searchLoop (value : Int) (low : Nat) (high : Int) : Access (Option Int) (Option Nat) :=
  if h : (low : Int) ≤ high then do
    let mid := middle low high
    if less (← Access.cell mid) value then
      searchLoop value (mid + 1) high
    else if greater (← Access.cell mid) value then
      searchLoop value low (mid - 1)
    else
      return some mid
  else
    return none
termination_by (high + 1 - low).toNat
decreasing_by all_goals (unfold middle; omega)

def search (value : Int) (len : Nat) : Access (Option Int) (Option Nat) := searchLoop value 0 len

/-- The cells of `$arr`. -/
def cells (arr : List Int) (i : Nat) : Option Int := arr[i]?

def searchValueByArray (arr : List Int) (value : Int) : Option Nat :=
  (search value arr.length).run (cells arr)

/-- The indices that the call looks at. -/
def probes (arr : List Int) (value : Int) : List Nat :=
  (search value arr.length).reads (cells arr)

/-- An index of `$value`, or null if there is none, and no probe outside of the array. -/
def Correct (arr : List Int) (value : Int) : Prop :=
  (if value ∈ arr then
    ∃ m, searchValueByArray arr value = some m ∧ m < arr.length ∧ arr[m]? = some value
  else searchValueByArray arr value = none) ∧
  ∀ i ∈ probes arr value, i < arr.length

/-! ## One round -/

variable {arr : List Int} {value : Int} {low : Nat} {high : Int}

theorem run_step (mem : Nat → Option Int) :
    (searchLoop value low high).run mem =
      if (low : Int) ≤ high then
        if less (mem (middle low high)) value then
          (searchLoop value (middle low high + 1) high).run mem
        else if greater (mem (middle low high)) value then
          (searchLoop value low (middle low high - 1)).run mem
        else some (middle low high)
      else none := by
  rw [searchLoop]
  split
  · rw [Access.run_bind, Access.run_cell, Access.run_ite, Access.run_bind, Access.run_cell,
      Access.run_ite, Access.run_pure]
  · rfl

theorem mem_reads_step (mem : Nat → Option Int) {i : Nat} :
    i ∈ (searchLoop value low high).reads mem ↔
      (low : Int) ≤ high ∧ (i = middle low high ∨
        if less (mem (middle low high)) value then
          i ∈ (searchLoop value (middle low high + 1) high).reads mem
        else
          greater (mem (middle low high)) value ∧
            i ∈ (searchLoop value low (middle low high - 1)).reads mem) := by
  rw [searchLoop]
  by_cases h : (low : Int) ≤ high
  · rw [dif_pos h, Access.reads_bind, Access.run_cell]
    by_cases hless : less (mem (middle low high)) value = true
    · simp [h, hless]
    · by_cases hgreater : greater (mem (middle low high)) value = true
      · simp [h, hless, hgreater]
      · simp [h, hless, hgreater]
  · simp [h]

/-! ## The interval -/

/-- What the search has ruled out: the elements below `$low`, and those above `$high`. -/
structure Ruled (arr : List Int) (value : Int) (low : Nat) (high : Int) : Prop where
  high_le : high ≤ arr.length
  below : ∀ (i : Nat) (a : Int), i < low → arr[i]? = some a → a < value
  above : ∀ (i : Nat) (a : Int), high < i → arr[i]? = some a → value < a

theorem ruled_start : Ruled arr value 0 arr.length where
  high_le := Int.le_refl _
  below i a hi _ := absurd hi (Nat.not_lt_zero i)
  above i a hi ha := by
    have := (List.getElem?_eq_some_iff.mp ha).1
    omega

theorem ascending_le (hasc : arr.Pairwise (· ≤ ·)) {i j : Nat} {a b : Int}
    (ha : arr[i]? = some a) (hb : arr[j]? = some b) (hij : i ≤ j) : a ≤ b := by
  obtain ⟨hi, rfl⟩ := List.getElem?_eq_some_iff.mp ha
  obtain ⟨hj, rfl⟩ := List.getElem?_eq_some_iff.mp hb
  rcases Nat.lt_or_eq_of_le hij with hlt | rfl
  · exact List.pairwise_iff_getElem.mp hasc i j hi hj hlt
  · exact Int.le_refl _

/-- The upper half is kept. -/
theorem Ruled.up (h : Ruled arr value low high) (hasc : arr.Pairwise (· ≤ ·)) {mid : Nat}
    {a : Int} (ha : arr[mid]? = some a) (hless : a < value) : Ruled arr value (mid + 1) high where
  high_le := h.high_le
  below i b hi hb := by
    have := ascending_le hasc hb ha (by omega)
    omega
  above := h.above

/-- The lower half is kept. -/
theorem Ruled.down (h : Ruled arr value low high) (hasc : arr.Pairwise (· ≤ ·)) {mid : Nat}
    {a : Int} (ha : arr[mid]? = some a) (hgreater : value < a) :
    Ruled arr value low (mid - 1) where
  high_le := by
    have := (List.getElem?_eq_some_iff.mp ha).1
    omega
  below := h.below
  above i b hi hb := by
    have := ascending_le hasc ha hb (by omega)
    omega

theorem Ruled.not_mem (h : Ruled arr value low high) (hend : high < low) : value ∉ arr := by
  intro hmem
  obtain ⟨i, hi⟩ := List.mem_iff_getElem?.mp hmem
  rcases Nat.lt_or_ge i low with hlow | hlow
  · exact absurd (h.below i value hlow hi) (Int.lt_irrefl _)
  · exact absurd (h.above i value (by omega) hi) (Int.lt_irrefl _)

/-! ## An element at or above `$value` -/

/-- A round looks at an element, and keeps the half that can have `$value`, or has found it. -/
theorem Ruled.round (h : Ruled arr value low high) (hasc : arr.Pairwise (· ≤ ·)) {x : Int}
    (hx : x ∈ arr) (hle : value ≤ x) (hround : (low : Int) ≤ high) :
    middle low high < arr.length ∧ ∃ a, cells arr (middle low high) = some a ∧
      (a < value ∧ Ruled arr value (middle low high + 1) high ∨
        value < a ∧ Ruled arr value low (middle low high - 1) ∨ a = value) := by
  obtain ⟨i, hi⟩ := List.mem_iff_getElem?.mp hx
  have hlen := (List.getElem?_eq_some_iff.mp hi).1
  have hlow : low ≤ i := by
    apply Nat.le_of_not_lt
    intro hlt
    have := h.below i x hlt hi
    omega
  have hmid : middle low high < arr.length := by
    have := h.high_le
    unfold middle
    omega
  have hcell : cells arr (middle low high) = some arr[middle low high] :=
    List.getElem?_eq_getElem hmid
  refine ⟨hmid, _, hcell, ?_⟩
  rcases Int.lt_trichotomy arr[middle low high] value with hless | heq | hgreater
  · exact Or.inl ⟨hless, h.up hasc hcell hless⟩
  · exact Or.inr (Or.inr heq)
  · exact Or.inr (Or.inl ⟨hgreater, h.down hasc hcell hgreater⟩)

theorem less_some {a : Int} : less (some a) value = true ↔ a < value := decide_eq_true_iff

theorem greater_some {a : Int} : greater (some a) value = true ↔ value < a := decide_eq_true_iff

theorem probes_lt (hasc : arr.Pairwise (· ≤ ·)) {x : Int} (hx : x ∈ arr) (hle : value ≤ x)
    (h : Ruled arr value low high) :
    ∀ i ∈ (searchLoop value low high).reads (cells arr), i < arr.length := by
  induction low, high using searchLoop.induct with
  | case1 low high hround mid up down =>
    obtain ⟨hmid, a, hcell, hkept⟩ := h.round hasc hx hle hround
    intro i hi
    obtain ⟨-, rfl | hi⟩ := (mem_reads_step _).mp hi
    · exact hmid
    · simp only [hcell, less_some, greater_some] at hi
      rcases hkept with ⟨hless, hup⟩ | ⟨hgreater, hdown⟩ | rfl
      · rw [if_pos hless] at hi
        exact up hup i hi
      · rw [if_neg (by omega)] at hi
        exact down hdown i hi.2
      · rw [if_neg (Int.lt_irrefl a)] at hi
        exact absurd hi.1 (Int.lt_irrefl a)
  | case2 low high hend =>
    intro i hi
    exact absurd ((mem_reads_step _).mp hi).1 hend

/-- What a result says of the array. -/
def Finds (arr : List Int) (value : Int) : Option Nat → Prop
  | some m => arr[m]? = some value
  | none => value ∉ arr

theorem finds (hasc : arr.Pairwise (· ≤ ·)) {x : Int} (hx : x ∈ arr) (hle : value ≤ x)
    (h : Ruled arr value low high) :
    Finds arr value ((searchLoop value low high).run (cells arr)) := by
  induction low, high using searchLoop.induct with
  | case1 low high hround mid up down =>
    obtain ⟨-, a, hcell, hkept⟩ := h.round hasc hx hle hround
    rw [run_step, if_pos hround, hcell]
    simp only [less_some, greater_some]
    rcases hkept with ⟨hless, hup⟩ | ⟨hgreater, hdown⟩ | rfl
    · rw [if_pos hless]
      exact up hup
    · rw [if_neg (by omega), if_pos hgreater]
      exact down hdown
    · rw [if_neg (Int.lt_irrefl a), if_neg (Int.lt_irrefl a)]
      exact hcell
  | case2 low high hend =>
    rw [run_step, if_neg hend]
    exact h.not_mem (Int.not_le.mp hend)

/-! ## All elements below `$value` -/

/-- A round goes up, or it looks behind the last element. -/
theorem round_of_lt (hlt : ∀ x ∈ arr, x < value) (hlow : low ≤ arr.length) :
    middle low arr.length < arr.length ∧ less (cells arr (middle low arr.length)) value = true ∨
      middle low arr.length = arr.length := by
  have hle : middle low arr.length ≤ arr.length := by
    unfold middle
    omega
  rcases Nat.lt_or_eq_of_le hle with hmid | hmid
  · have hcell : cells arr (middle low arr.length) = some arr[middle low arr.length] :=
      List.getElem?_eq_getElem hmid
    rw [hcell, less_some]
    exact Or.inl ⟨hmid, hlt _ (List.getElem_mem hmid)⟩
  · exact Or.inr hmid

theorem mem_reads_of_lt (hlt : ∀ x ∈ arr, x < value) (hhigh : high = arr.length)
    (hlow : low ≤ arr.length) :
    arr.length ∈ (searchLoop value low high).reads (cells arr) := by
  induction low, high using searchLoop.induct with
  | case1 low high hround mid up down =>
    subst hhigh
    rw [mem_reads_step]
    refine ⟨hround, ?_⟩
    rcases round_of_lt hlt hlow with ⟨hmid, hless⟩ | hmid
    · right
      rw [if_pos hless]
      exact up rfl hmid
    · exact Or.inl hmid.symm
  | case2 low high hend => omega

theorem run_of_lt (hlt : ∀ x ∈ arr, x < value) (hhigh : high = arr.length)
    (hlow : low ≤ arr.length) :
    (searchLoop value low high).run (cells arr) = if value = 0 then some arr.length else none := by
  induction low, high using searchLoop.induct with
  | case1 low high hround mid up down =>
    subst hhigh
    rw [run_step, if_pos hround]
    rcases round_of_lt hlt hlow with ⟨hmid, hless⟩ | hmid
    · rw [if_pos hless]
      exact up rfl hmid
    · have hnull : cells arr arr.length = none := List.getElem?_eq_none (Nat.le_refl _)
      rw [hmid, hnull]
      by_cases hzero : value = 0
      · simp [less, greater, hzero]
      · -- null is less than a number other than 0, and the interval is then empty
        have hless : less none value = true := decide_eq_true hzero
        rw [if_pos hless, run_step, if_neg (by omega), if_neg hzero]
  | case2 low high hend => omega

theorem searchValueByArray_of_lt (hlt : ∀ x ∈ arr, x < value) :
    searchValueByArray arr value = (if value = 0 then some arr.length else none) ∧
      arr.length ∈ probes arr value :=
  ⟨run_of_lt hlt rfl (Nat.zero_le _), mem_reads_of_lt hlt rfl (Nat.zero_le _)⟩

/-! ## Main results -/

/-- **An ascending array is searched right exactly if some element is not below `$value`.** -/
theorem searchValueByArray_correct_iff (arr : List Int) (value : Int)
    (hasc : arr.Pairwise (· ≤ ·)) : Correct arr value ↔ ∃ x ∈ arr, value ≤ x := by
  constructor
  · intro hcorrect
    apply Classical.byContradiction
    intro hnone
    have hlt : ∀ x ∈ arr, x < value := by
      intro x hx
      exact Int.not_le.mp fun hle => hnone ⟨x, hx, hle⟩
    have hprobe := hcorrect.2 _ (searchValueByArray_of_lt hlt).2
    exact absurd hprobe (Nat.lt_irrefl _)
  · rintro ⟨x, hx, hle⟩
    refine ⟨?_, probes_lt hasc hx hle ruled_start⟩
    have hfinds : Finds arr value (searchValueByArray arr value) :=
      finds hasc hx hle ruled_start
    cases hres : searchValueByArray arr value with
    | none =>
      rw [hres] at hfinds
      rw [if_neg hfinds]
    | some m =>
      rw [hres] at hfinds
      rw [if_pos (List.mem_of_getElem? hfinds)]
      exact ⟨m, rfl, (List.getElem?_eq_some_iff.mp hfinds).1, hfinds⟩

theorem searchValueByArray_correct_ten : Correct [-5, 3, 10] 3 :=
  (searchValueByArray_correct_iff [-5, 3, 10] 3 (by decide)).mpr ⟨10, by decide, by decide⟩

/-- Above the only element, `$arr[1]` is probed. -/
theorem not_correct_above : [(1 : Int)].Pairwise (· ≤ ·) ∧ ¬ Correct [1] 5 := by
  refine ⟨by decide, fun h => ?_⟩
  have hprobe := h.2 _ (searchValueByArray_of_lt (by decide)).2
  exact absurd hprobe (by decide)

end StudyDoc.SearchValueByArray
