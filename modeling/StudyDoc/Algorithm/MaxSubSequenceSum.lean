import StudyDoc.Lib.Segments
import Mathlib.Algebra.Order.Ring.Int
import Mathlib.Tactic.Common

/-!
# `最大子序列求和.md`: the largest sum of a contiguous subarray, three times

With `Largest collect s` for "`s` is the largest sum of a contiguous subarray, the empty one
included":

    maxSubSequenceSum collect len  = segmentMax collect       (maxSubSequenceSum_eq)
    maxSubSequenceSum2 collect len = segmentMax collect       (maxSubSequenceSum2_eq)
    maxSum collect left right      = the greatest of `values` (isGreatest_maxSum)
    the three agree ↔ the greatest of `values` is the largest sum
                                                              (maxSubSequenceSum_agree_iff)

The left border sums of `maxSum` run from `$left` up, and not from `$center` down.  `maxSumTo` is
`maxSum` for any bounds, by the depth of its calls:

    maxSubSequenceSum3 returns ↔ 1 <= len                     (maxSum_terminates_iff)
-/

namespace StudyDoc.MaxSubSequenceSum

open Segments

/-! ## Algorithm -/

/-- The values of `$i` in `for($i=$lo;$i<$hi;$i++)`. -/
def upTo (lo hi : Nat) : List Nat := List.range' lo (hi - lo)

/-- `$collect[$i]`; outside of the array that is `null`, and counts as 0. -/
def item (collect : List Int) (i : Nat) : Int := collect.getD i 0

def maxSubSequenceSum (collect : List Int) (len : Nat) : Int :=
  (upTo 0 len).foldl (fun maxSum begin =>
    (upTo begin len).foldl (fun maxSum num =>
      ((upTo begin (num + 1)).foldl (fun (thisSum, maxSum) count =>
        let thisSum := thisSum + item collect count
        if thisSum ≥ maxSum then (thisSum, thisSum) else (thisSum, maxSum)) (0, maxSum)).2)
      maxSum) 0

def maxSubSequenceSum2 (collect : List Int) (len : Nat) : Int :=
  (upTo 0 len).foldl (fun maxSum begin =>
    ((upTo begin len).foldl (fun (thisSum, maxSum) num =>
      let thisSum := thisSum + item collect num
      if thisSum > maxSum then (thisSum, thisSum) else (thisSum, maxSum)) (0, maxSum)).2) 0

/-- One border: the sums from `lo` up to `hi`, not included, and the best one above 0. -/
def borderSum (collect : List Int) (lo hi : Nat) : Int :=
  ((upTo lo hi).foldl (fun (borderSum, maxBorderSum) i =>
    let borderSum := borderSum + item collect i
    if borderSum > maxBorderSum then (borderSum, borderSum) else (borderSum, maxBorderSum))
    (0, 0)).2

/-- Where `$left` is above `$right` the recursion has no end. -/
def maxSum (collect : List Int) (left right : Nat) (h : left ≤ right) : Int :=
  if heq : left = right then
    if item collect left > 0 then item collect left else 0
  else
    let center := (left + right) / 2
    let maxLeftSum := maxSum collect left center (by omega)
    let maxRightSum := maxSum collect (center + 1) right (by omega)
    let maxLeftBorderSum := borderSum collect left (center + 1)
    let maxRightBorderSum := borderSum collect (center + 1) (right + 1)
    max (max maxLeftSum maxRightSum) (maxLeftBorderSum + maxRightBorderSum)
termination_by right - left

def maxSubSequenceSum3 (collect : List Int) (len : Nat) (_ : 1 ≤ len) : Int :=
  maxSum collect 0 (len - 1) (Nat.zero_le _)

/-! ## The loops -/

/-- The part of the array that a loop goes over. -/
def part (collect : List Int) (lo hi : Nat) : List Int :=
  (collect.drop lo).take (hi - lo)

theorem map_upTo (collect : List Int) {l r : Nat} (hr : r ≤ collect.length) :
    (upTo l r).map (item collect) = part collect l r := by
  apply List.ext_getElem
  · simp only [upTo, part, List.length_map, List.length_range', List.length_take,
      List.length_drop]
    omega
  · intro i hi hi'
    have hlt : l + i < collect.length := by
      simp only [upTo, List.length_map, List.length_range'] at hi
      omega
    simp [upTo, part, item, List.getElem?_eq_getElem hlt]

theorem foldl_part (collect : List Int) {l r : Nat} (hr : r ≤ collect.length) {best : Int}
    (hbest : 0 ≤ best) :
    ((upTo l r).foldl (fun s i => running s (item collect i)) (0, best)).2 =
      max best (prefixMax (part collect l r)) := by
  rw [← List.foldl_map, map_upTo collect hr, foldl_running _ hbest]
  exact congrArg (max best) (Int.zero_add _)

theorem keep_ge (collect : List Int) :
    (fun (s : Int × Int) i =>
      if s.1 + item collect i ≥ s.2 then (s.1 + item collect i, s.1 + item collect i)
      else (s.1 + item collect i, s.2)) = fun s i => running s (item collect i) := by
  funext s i
  unfold running
  split
  · rename_i h
    rw [max_eq_right h]
  · rename_i h
    rw [max_eq_left (Int.le_of_lt (Int.not_le.mp h))]

theorem keep_gt (collect : List Int) :
    (fun (s : Int × Int) i =>
      if s.1 + item collect i > s.2 then (s.1 + item collect i, s.1 + item collect i)
      else (s.1 + item collect i, s.2)) = fun s i => running s (item collect i) := by
  funext s i
  unfold running
  split
  · rename_i h
    rw [max_eq_right (Int.le_of_lt h)]
  · rename_i h
    rw [max_eq_left (Int.not_lt.mp h)]

/-! ### The two and the three nested loops -/

theorem part_self (collect : List Int) (l : Nat) {n : Nat} (hn : n = collect.length) :
    part collect l n = collect.drop l := by
  apply List.take_of_length_le
  rw [List.length_drop, hn]

/-- The loop over `$num`: each turn adds up one more element than the turn before. -/
theorem foldl_prefixMax (collect : List Int) (l n : Nat) {best : Int} (hbest : 0 ≤ best) :
    (List.range' l n).foldl (fun maxSum num =>
      max maxSum (prefixMax (part collect l (num + 1)))) best =
      max best (prefixMax (part collect l (l + n))) := by
  induction n with
  | zero =>
    show best = max best (prefixMax ((collect.drop l).take (l - l)))
    rw [Nat.sub_self, List.take_zero]
    exact (max_eq_left hbest).symm
  | succ n ih =>
    rw [List.range'_1_concat, List.foldl_append, ih]
    show max (max best (prefixMax (part collect l (l + n))))
      (prefixMax (part collect l (l + n + 1))) = _
    have hle : prefixMax (part collect l (l + n)) ≤ prefixMax (part collect l (l + n + 1)) :=
      prefixMax_le (List.take_prefix_take_left (by omega))
    rw [max_assoc, max_eq_right hle]
    rfl

/-- The loop over `$begin`: each turn goes over the prefixes of what is left. -/
theorem foldl_segmentMax (collect : List Int) (n l : Nat) (hn : l + n = collect.length)
    {best : Int} (hbest : 0 ≤ best) :
    (List.range' l n).foldl (fun maxSum begin =>
      max maxSum (prefixMax (collect.drop begin))) best =
      max best (segmentMax (collect.drop l)) := by
  induction n generalizing l best with
  | zero =>
    have hdrop : collect.drop l = [] := List.drop_of_length_le (by omega)
    rw [hdrop]
    exact (max_eq_left hbest).symm
  | succ n ih =>
    rw [List.range'_succ, List.foldl_cons, ih (l + 1) (by omega) (le_max_of_le_left hbest),
      max_assoc, List.drop_eq_getElem_cons (show l < collect.length by omega)]
    rfl

/-- The loop over `$begin`, from what one turn of it does to a sum that is not negative. -/
theorem foldl_turns (collect : List Int) {turn : Int → Nat → Int}
    (hturn : ∀ begin best, begin < collect.length → 0 ≤ best →
      turn best begin = max best (prefixMax (collect.drop begin))) :
    (upTo 0 collect.length).foldl turn 0 = segmentMax collect := by
  have hmem : ∀ begin ∈ upTo 0 collect.length, begin < collect.length := by
    intro begin h
    simpa [upTo] using h
  rw [foldl_keeping (le_refl 0) fun begin h best => hturn begin best (hmem begin h), upTo,
    foldl_segmentMax collect _ 0 (by omega) (le_refl 0), List.drop_zero]
  exact max_eq_right (segmentMax_nonneg collect)

/-- The three nested loops find the largest sum. -/
theorem maxSubSequenceSum_eq (collect : List Int) :
    maxSubSequenceSum collect collect.length = segmentMax collect := by
  unfold maxSubSequenceSum
  simp only [keep_ge]
  apply foldl_turns
  intro begin best hbegin hbest
  have hround : ∀ num ∈ upTo begin collect.length, ∀ best : Int, 0 ≤ best →
      ((upTo begin (num + 1)).foldl (fun s i => running s (item collect i)) (0, best)).2 =
        max best (prefixMax (part collect begin (num + 1))) := by
    intro num hnum best hbest
    have hle : num + 1 ≤ collect.length := by
      simp only [upTo, List.mem_range'_1] at hnum
      omega
    exact foldl_part collect hle hbest
  rw [foldl_keeping hbest hround, upTo, foldl_prefixMax collect begin _ hbest,
    Nat.add_sub_cancel' (Nat.le_of_lt hbegin), part_self collect begin rfl]

/-- So do the two. -/
theorem maxSubSequenceSum2_eq (collect : List Int) :
    maxSubSequenceSum2 collect collect.length = segmentMax collect := by
  unfold maxSubSequenceSum2
  simp only [keep_gt]
  apply foldl_turns
  intro begin best _ hbest
  rw [foldl_part collect (le_refl _) hbest, part_self collect begin rfl]

/-! ### Divide and conquer -/

/-- The call on `left` and `right` comes, at some depth, to the call on `l` and `r`. -/
inductive Halving : Nat → Nat → Nat → Nat → Prop
  | self {l r : Nat} : Halving l r l r
  | left {l r l' r' : Nat} : l < r → Halving l ((l + r) / 2) l' r' → Halving l r l' r'
  | right {l r l' r' : Nat} : l < r → Halving ((l + r) / 2 + 1) r l' r' → Halving l r l' r'

/-- The two border sums of one call: each half from its own first element up. -/
def borders (collect : List Int) (l r : Nat) : Int :=
  prefixMax (part collect l ((l + r) / 2 + 1)) +
    prefixMax (part collect ((l + r) / 2 + 1) (r + 1))

/-- What the call on `left` and `right` takes the greatest of. -/
def values (collect : List Int) (left right : Nat) : Set Int :=
  {s | s = 0 ∨ (∃ i, left ≤ i ∧ i ≤ right ∧ item collect i = s) ∨
    ∃ l r, Halving left right l r ∧ l < r ∧ borders collect l r = s}

theorem halving_self {l l' r' : Nat} (h : Halving l l l' r') : l' = l ∧ r' = l := by
  cases h with
  | self => exact ⟨rfl, rfl⟩
  | left hlt => exact absurd hlt (Nat.lt_irrefl _)
  | right hlt => exact absurd hlt (Nat.lt_irrefl _)

theorem values_self (collect : List Int) (l : Nat) :
    values collect l l = {0, item collect l} := by
  ext s
  constructor
  · rintro (rfl | ⟨i, hl, hr, rfl⟩ | ⟨l', r', h, hlt, rfl⟩)
    · exact .inl rfl
    · rw [Nat.le_antisymm hr hl]
      exact .inr rfl
    · obtain ⟨rfl, rfl⟩ := halving_self h
      exact absurd hlt (Nat.lt_irrefl _)
  · rintro (rfl | rfl)
    · exact .inl rfl
    · exact .inr (.inl ⟨l, le_refl l, le_refl l, rfl⟩)

/-- One turn of the recursion: the values of the halves, and those of the two borders. -/
theorem values_halve (collect : List Int) {l r : Nat} (h : l < r) :
    values collect l r =
      values collect l ((l + r) / 2) ∪ values collect ((l + r) / 2 + 1) r ∪
        {borders collect l r} := by
  ext s
  constructor
  · rintro (rfl | ⟨i, hl, hr, rfl⟩ | ⟨l', r', hcall, hlt, rfl⟩)
    · exact .inl (.inl (.inl rfl))
    · rcases Nat.lt_or_ge ((l + r) / 2) i with hi | hi
      · exact .inl (.inr (.inr (.inl ⟨i, hi, hr, rfl⟩)))
      · exact .inl (.inl (.inr (.inl ⟨i, hl, hi, rfl⟩)))
    · cases hcall with
      | self => exact .inr rfl
      | left _ hcall => exact .inl (.inl (.inr (.inr ⟨l', r', hcall, hlt, rfl⟩)))
      | right _ hcall => exact .inl (.inr (.inr (.inr ⟨l', r', hcall, hlt, rfl⟩)))
  · rintro ((hs | hs) | rfl)
    · rcases hs with rfl | ⟨i, hl, hr, rfl⟩ | ⟨l', r', hcall, hlt, rfl⟩
      · exact .inl rfl
      · exact .inr (.inl ⟨i, hl, by omega, rfl⟩)
      · exact .inr (.inr ⟨l', r', .left h hcall, hlt, rfl⟩)
    · rcases hs with rfl | ⟨i, hl, hr, rfl⟩ | ⟨l', r', hcall, hlt, rfl⟩
      · exact .inl rfl
      · exact .inr (.inl ⟨i, by omega, hr, rfl⟩)
      · exact .inr (.inr ⟨l', r', .right h hcall, hlt, rfl⟩)
    · exact .inr (.inr ⟨l, r, .self, h, rfl⟩)

theorem borderSum_eq (collect : List Int) {l r : Nat} (hr : r ≤ collect.length) :
    borderSum collect l r = prefixMax (part collect l r) := by
  unfold borderSum
  simp only [keep_gt]
  rw [foldl_part collect hr (le_refl 0)]
  exact max_eq_right (prefixMax_nonneg _)

/-- What `maxSum` returns: the greatest of its values. -/
theorem isGreatest_maxSum (collect : List Int) (left right : Nat) (h : left ≤ right)
    (hr : right < collect.length) :
    IsGreatest (values collect left right) (maxSum collect left right h) := by
  induction left, right, h using maxSum.induct collect with
  | case1 right _ hpos =>
    rw [maxSum, dif_pos rfl, if_pos hpos, values_self]
    have hpair := isGreatest_pair (a := 0) (b := item collect right)
    rwa [max_eq_right (le_of_lt hpos)] at hpair
  | case2 right _ hneg =>
    rw [maxSum, dif_pos rfl, if_neg hneg, values_self]
    have hpair := isGreatest_pair (a := 0) (b := item collect right)
    rwa [max_eq_left (not_lt.mp hneg)] at hpair
  | case3 left right h hne center ihl ihr =>
    have hlt : left < right := lt_of_le_of_ne h hne
    rw [maxSum, dif_neg hne, values_halve collect hlt]
    have hborders : borderSum collect left (center + 1) +
        borderSum collect (center + 1) (right + 1) = borders collect left right := by
      rw [borderSum_eq collect (by omega), borderSum_eq collect (by omega)]
      rfl
    show IsGreatest _ (max (max _ _) (borderSum collect left (center + 1) +
        borderSum collect (center + 1) (right + 1)))
    rw [hborders]
    exact ((ihl (by omega)).union (ihr hr)).union isGreatest_singleton

/-! ## The three together -/

/-- `s` is the largest sum of a contiguous subarray, the empty one included. -/
def Largest (collect : List Int) (s : Int) : Prop :=
  IsGreatest {s | ∃ p, p <:+: collect ∧ p.sum = s} s

/-- The three functions return the same value, the largest sum. -/
structure Agree (collect : List Int) (h : 1 ≤ collect.length) : Prop where
  largest : Largest collect (maxSubSequenceSum collect collect.length)
  second : maxSubSequenceSum2 collect collect.length =
    maxSubSequenceSum collect collect.length
  third : maxSubSequenceSum3 collect collect.length h =
    maxSubSequenceSum collect collect.length

/-- No call's border sums add up to more than the largest sum, and that is 0, or one element, or
what the border sums of some call add up to. -/
structure Bordered (collect : List Int) : Prop where
  above : ∀ l r, Halving 0 (collect.length - 1) l r → l < r →
    borders collect l r ≤ segmentMax collect
  met : segmentMax collect = 0 ∨ segmentMax collect ∈ collect ∨
    ∃ l r, Halving 0 (collect.length - 1) l r ∧ l < r ∧
      borders collect l r = segmentMax collect

theorem item_mem {collect : List Int} {i : Nat} (h : i < collect.length) :
    item collect i ∈ collect := by
  have hitem : item collect i = collect[i] := by
    simp [item, List.getElem?_eq_getElem h]
  rw [hitem]
  exact List.getElem_mem h

theorem le_segmentMax {collect : List Int} {a : Int} (h : a ∈ collect) :
    a ≤ segmentMax collect := by
  obtain ⟨l, r, rfl⟩ := List.append_of_mem h
  exact (isGreatest_segmentMax _).2 ⟨[a], ⟨l, r, by simp⟩, List.sum_singleton⟩

theorem bordered_iff {collect : List Int} (h : 1 ≤ collect.length) :
    Bordered collect ↔
      IsGreatest (values collect 0 (collect.length - 1)) (segmentMax collect) := by
  constructor
  · intro hb
    constructor
    · rcases hb.met with hs | hs | hs
      · exact .inl hs
      · obtain ⟨i, hi, hs⟩ := List.getElem_of_mem hs
        refine .inr (.inl ⟨i, Nat.zero_le i, by omega, ?_⟩)
        rw [← hs]
        simp [item, List.getElem?_eq_getElem hi]
      · exact .inr (.inr hs)
    · rintro s (rfl | ⟨i, -, hi, rfl⟩ | ⟨l, r, hcall, hlt, rfl⟩)
      · exact segmentMax_nonneg collect
      · exact le_segmentMax (item_mem (by omega))
      · exact hb.above l r hcall hlt
  · rintro ⟨hmem, hle⟩
    constructor
    · intro l r hcall hlt
      exact hle (.inr (.inr ⟨l, r, hcall, hlt, rfl⟩))
    · rcases hmem with hs | ⟨i, -, hi, hs⟩ | hs
      · exact .inl hs
      · refine .inr (.inl ?_)
        rw [← hs]
        exact item_mem (by omega)
      · exact .inr (.inr hs)

/-- **The loops find the largest sum in every array, and so does `maxSubSequenceSum3` exactly in
the arrays whose largest sum is the greatest of the sums that it compares.** -/
theorem maxSubSequenceSum_agree_iff (collect : List Int) (h : 1 ≤ collect.length) :
    Agree collect h ↔ Bordered collect := by
  have hthird : IsGreatest (values collect 0 (collect.length - 1))
      (maxSubSequenceSum3 collect collect.length h) :=
    isGreatest_maxSum collect 0 (collect.length - 1) (Nat.zero_le _) (by omega)
  rw [bordered_iff h]
  constructor
  · intro hagree
    rw [← maxSubSequenceSum_eq, ← hagree.third]
    exact hthird
  · intro hgreatest
    constructor
    · rw [maxSubSequenceSum_eq]
      exact isGreatest_segmentMax collect
    · rw [maxSubSequenceSum2_eq, maxSubSequenceSum_eq]
    · rw [maxSubSequenceSum_eq]
      exact hthird.unique hgreatest

/-- Two elements, one border sum: the second element and no part of the first. -/
theorem maxSubSequenceSum_agree_two : Agree [-1, 4] (by decide) := by
  apply (maxSubSequenceSum_agree_iff [-1, 4] (by decide)).mpr
  constructor
  · intro l r hcall hlt
    cases hcall with
    | self => decide
    | left _ hcall =>
      obtain ⟨rfl, rfl⟩ := halving_self hcall
      exact absurd hlt (Nat.lt_irrefl _)
    | right _ hcall =>
      obtain ⟨rfl, rfl⟩ := halving_self hcall
      exact absurd hlt (Nat.lt_irrefl _)
  · exact .inr (.inl (by decide))

/-- The largest sum of -5, 3, 4 is 7, and `maxSubSequenceSum3` gives 4: from the first element
up, the sums of the left half -5, 3 are below 0. -/
theorem maxSubSequenceSum3_misses : ¬ Agree [-5, 3, 4] (by decide) := by
  intro h
  have hthird := h.third
  have hloops : maxSubSequenceSum [-5, 3, 4] 3 = 7 := by decide +kernel
  have hhalves : maxSubSequenceSum3 [-5, 3, 4] 3 (by decide) = 4 := by
    simp [maxSubSequenceSum3, maxSum, borderSum, upTo, item, List.range'_succ]
  exact absurd (hhalves.symm.trans (hthird.trans hloops)) (by decide)

/-! ## Termination -/

/-- `item`, for the index that PHP has. -/
def itemAt (collect : List Int) (i : Int) : Int := if i < 0 then 0 else item collect i.toNat

/-- `borderSum` for any bounds, `hi` included. -/
def borderSumTo (collect : List Int) (lo hi : Int) : Int :=
  ((List.range (hi + 1 - lo).toNat).foldl (fun (borderSum, maxBorderSum) i =>
    let borderSum := borderSum + itemAt collect (lo + i)
    if borderSum > maxBorderSum then (borderSum, borderSum) else (borderSum, maxBorderSum))
    (0, 0)).2

/-- `maxSum` for any bounds; `none`: it has not returned within `depth` calls, one in the other.
`(int)` cuts the half off towards zero. -/
def maxSumTo (collect : List Int) : Nat → Int → Int → Option Int
  | 0, _, _ => none
  | depth + 1, left, right =>
    if left = right then
      some (if itemAt collect left > 0 then itemAt collect left else 0)
    else
      let center := (left + right).tdiv 2
      (maxSumTo collect depth left center).bind fun maxLeftSum =>
        (maxSumTo collect depth (center + 1) right).map fun maxRightSum =>
          let maxLeftBorderSum := borderSumTo collect left center
          let maxRightBorderSum := borderSumTo collect (center + 1) right
          max (max maxLeftSum maxRightSum) (maxLeftBorderSum + maxRightBorderSum)

/-- `maxSubSequenceSum3($collect, $len)` returns. -/
def Terminates (collect : List Int) (len : Nat) : Prop :=
  ∃ depth, maxSumTo collect depth 0 (len - 1) ≠ none

theorem itemAt_natCast (collect : List Int) (i : Nat) : itemAt collect i = item collect i := by
  unfold itemAt
  rw [if_neg (by omega), Int.toNat_natCast]

theorem borderSumTo_eq (collect : List Int) (lo hi : Nat) :
    borderSumTo collect lo hi = borderSum collect lo (hi + 1) := by
  have hlen : ((hi : Int) + 1 - lo).toNat = hi + 1 - lo := by omega
  have hitem : ∀ k : Nat, itemAt collect (lo + k) = item collect (lo + k) := by
    intro k
    rw [← Int.natCast_add, itemAt_natCast]
  unfold borderSumTo borderSum upTo
  rw [hlen, List.range'_eq_map_range, List.foldl_map]
  simp only [hitem]

/-- With `left` not above `right`, `depth` calls are enough if there are more than elements. -/
theorem maxSumTo_eq (collect : List Int) (depth : Nat) {left right : Nat} (h : left ≤ right)
    (hdepth : right - left < depth) :
    maxSumTo collect depth left right = some (maxSum collect left right h) := by
  induction depth generalizing left right with
  | zero => omega
  | succ depth ih =>
    rw [maxSumTo, maxSum]
    by_cases heq : left = right
    · rw [if_pos (by omega), dif_pos heq, itemAt_natCast]
    · have hcenter : ((left : Int) + right).tdiv 2 = ((left + right) / 2 : Nat) := by
        rw [Int.tdiv_eq_ediv_of_nonneg (by omega)]
        omega
      have hnext : (((left + right) / 2 : Nat) : Int) + 1 = ((left + right) / 2 + 1 : Nat) := rfl
      rw [if_neg (by omega), dif_neg heq, hcenter]
      dsimp only
      rw [hnext, ih (by omega) (by omega), ih (by omega) (by omega), borderSumTo_eq,
        borderSumTo_eq]
      rfl

/-- From 1 to -1 the centre is 0, and the call for its right half is the same again. -/
theorem maxSumTo_crossed (collect : List Int) (depth : Nat) :
    maxSumTo collect depth 1 (-1) = none := by
  induction depth with
  | zero => rfl
  | succ depth ih =>
    rw [maxSumTo, if_neg (by decide)]
    show (maxSumTo collect depth 1 0).bind (fun _ => (maxSumTo collect depth 1 (-1)).map _) = none
    rw [ih]
    exact Option.bind_fun_none _

/-- The call for an empty array. -/
theorem maxSumTo_empty (collect : List Int) (depth : Nat) :
    maxSumTo collect depth 0 (-1) = none := by
  cases depth with
  | zero => rfl
  | succ depth =>
    show (maxSumTo collect depth 0 0).bind (fun _ => (maxSumTo collect depth 1 (-1)).map _) = none
    rw [maxSumTo_crossed]
    exact Option.bind_fun_none _

/-- **Termination.**  `maxSum` comes to an end on an array of any length but 0. -/
theorem maxSum_terminates_iff (collect : List Int) (len : Nat) :
    Terminates collect len ↔ 1 ≤ len := by
  constructor
  · rintro ⟨depth, hdepth⟩
    by_contra hlen
    obtain rfl : len = 0 := by omega
    exact hdepth (maxSumTo_empty collect depth)
  · intro hlen
    refine ⟨len, ?_⟩
    have hright : ((len : Int) - 1) = (len - 1 : Nat) := by omega
    have hsum := maxSumTo_eq collect len (Nat.zero_le (len - 1)) (by omega)
    rw [hright]
    intro hnone
    exact absurd (hsum.symm.trans hnone) (Option.some_ne_none _)

/-- The empty array, for which the other two return 0. -/
theorem maxSum_not_terminates :
    (¬ ∀ collect len, Terminates collect len) ∧ maxSubSequenceSum [] 0 = 0 ∧
      maxSubSequenceSum2 [] 0 = 0 := by
  refine ⟨fun h => ?_, rfl, rfl⟩
  obtain ⟨depth, hdepth⟩ := h [] 0
  exact hdepth (maxSumTo_empty [] depth)

end StudyDoc.MaxSubSequenceSum
