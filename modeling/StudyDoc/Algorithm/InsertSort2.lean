import StudyDoc.Lib.Cells
import StudyDoc.Lib.Insertion
import Mathlib.Algebra.Order.Ring.Int
import Mathlib.Data.List.Count

/-!
# `插入排序2.md`: insertion into a sorted array, and every element behind it

The inner loop moves `arr[i]` up, and not `arr[j]`, and the outer loop goes on after the insertion.
With `i` the first index whose element is above `data` and not 0:

    arr[0..i-1] data .. data arr[i]           behind the call                (meets_turns)
    arr                                       if there is no such index

The call is right exactly if `data` goes before the last element, or to the end, with `data` there
already (insertSort_correct_iff).
-/

namespace StudyDoc.InsertSort2

open Cells Insertion

/-! ## Algorithm -/

def MAXSIZE : Nat := 20

structure Globals where
  arr : Nat → Int
  length : Nat

/-- A sorted array, with room for one more element. -/
structure Table extends Globals where
  sorted : SortedOn 0 length arr
  length_lt : length < MAXSIZE

/-- `for(j=i;j<length;j++) arr[j+1] = arr[i];` -/
def moveBack (length i : Nat) : Cells Int Unit :=
  loop i (length - i) fun j => do write (j + 1) (← read i)

/-- `if(arr[i]>data && arr[i])`, with its body. -/
def turn (length : Nat) (data : Int) (i : Nat) : Cells Int Unit := do
  if (← read i) > data then
    if (← read i) ≠ 0 then
      moveBack length i
      write i data

/-- `for(i=0;i<length;i++)` -/
def turns (length : Nat) (data : Int) : Cells Int Unit := loop 0 length (turn length data)

def insertSort (data : Int) (s : Globals) : Globals :=
  ⟨(turns s.length data s.arr).mem, s.length + 1⟩

/-- `s'` is `s` with `data` taken in. -/
structure Correct (s : Globals) (data : Int) (s' : Globals) : Prop where
  length_eq : s'.length = s.length + 1
  sorted : SortedOn 0 s'.length s'.arr
  perm : (items 0 s'.length s'.arr).Perm (items 0 s.length s.arr ++ [data])

/-! ## One turn -/

/-- The element that a turn puts `data` before. -/
def Hit (data a : Int) : Prop := data < a ∧ a ≠ 0

/-- The array with `arr[i]` copied to all places behind, up to `arr[length]`. -/
def filled (m : Nat → Int) (length i : Nat) : Nat → Int :=
  fun k => if i < k ∧ k ≤ length then m i else m k

theorem meets_moveBack (m : Nat → Int) {length i : Nat} (hi : i < length) :
    Meets (· ≤ length) m (moveBack length i) fun _ m' => m' = filled m length i := by
  have hloop : Meets (· ≤ length) m (moveBack length i) fun _ m' =>
      m' = filled m (i + (length - i)) i := by
    apply meets_loop (I := fun j m' => m' = filled m j i)
    · funext k
      rw [filled, if_neg (by omega)]
    · rintro j _ hlo hj rfl
      refine meets_read (show i ≤ length by omega) (meets_write (show j + 1 ≤ length by omega) ?_)
      funext k
      have hcell : filled m j i i = m i := by rw [filled, if_neg (by omega)]
      rw [hcell]
      by_cases hk : k = j + 1
      · subst hk
        rw [Function.update_self, filled, if_pos (by omega)]
      · rw [Function.update_of_ne hk]
        unfold filled
        by_cases hup : i < k ∧ k ≤ j
        · rw [if_pos hup, if_pos (by omega)]
        · rw [if_neg hup, if_neg (by omega)]
  rwa [show i + (length - i) = length by omega] at hloop

theorem meets_turn (m : Nat → Int) (data : Int) {length i : Nat} (hi : i < length) :
    Meets (· ≤ length) m (turn length data i) fun _ m' =>
      (Hit data (m i) ∧ m' = Function.update (filled m length i) i data) ∨
        (¬ Hit data (m i) ∧ m' = m) := by
  refine meets_read (show i ≤ length by omega) (meets_ite (fun hgt => ?_) fun hle => ?_)
  · refine meets_read (show i ≤ length by omega) (meets_ite (fun hne => ?_) fun hzero => ?_)
    · refine (meets_moveBack m hi).bind fun _ m' hm' => ?_
      refine meets_write (show i ≤ length by omega) ?_
      rw [hm']
      exact Or.inl ⟨⟨hgt, hne⟩, rfl⟩
    · exact meets_pure (Or.inr ⟨fun h => hzero h.2, rfl⟩)
  · exact meets_pure (Or.inr ⟨fun h => hle h.1, rfl⟩)

/-! ## All turns -/

/-- The array before the turn `i`, with `data` from `j` on and `arr[j]` behind. -/
def spread (arr : Nat → Int) (data : Int) (length j i : Nat) : Nat → Int :=
  fun k => if k < j then arr k else if k < i then data else if k ≤ length then arr j else arr k

theorem filled_eq (arr : Nat → Int) (data : Int) (length i : Nat) :
    filled arr length i = spread arr data length i i := by
  funext k
  unfold filled spread
  rcases Nat.lt_trichotomy k i with hk | rfl | hk
  · rw [if_neg (by omega), if_pos hk]
  · simp
  · rw [if_neg (show ¬ k < i by omega), if_neg (show ¬ k < i by omega)]
    by_cases hle : k ≤ length
    · rw [if_pos ⟨hk, hle⟩, if_pos hle]
    · rw [if_neg (fun h => hle h.2), if_neg hle]

theorem spread_self (arr : Nat → Int) (data : Int) {length i j : Nat} (hj : j ≤ i)
    (hi : i ≤ length) : spread arr data length j i i = arr j := by
  rw [spread, if_neg (by omega), if_neg (by omega), if_pos hi]

theorem filled_spread (arr : Nat → Int) (data : Int) {length i j : Nat} (hj : j ≤ i)
    (hi : i ≤ length) :
    filled (spread arr data length j i) length i = spread arr data length j i := by
  funext k
  rw [filled, spread_self arr data hj hi]
  by_cases hk : i < k ∧ k ≤ length
  · rw [if_pos hk, spread, if_neg (by omega), if_neg (by omega), if_pos hk.2]
  · rw [if_neg hk]

theorem update_spread (arr : Nat → Int) (data : Int) (length : Nat) {i j : Nat} (hj : j ≤ i) :
    Function.update (spread arr data length j i) i data = spread arr data length j (i + 1) := by
  funext k
  by_cases hk : k = i
  · subst hk
    rw [Function.update_self, spread, if_neg (by omega), if_pos (Nat.lt_succ_self k)]
  · rw [Function.update_of_ne hk]
    unfold spread
    by_cases hlt : k < i
    · rw [if_pos hlt, if_pos (show k < i + 1 by omega)]
    · rw [if_neg hlt, if_neg (show ¬ k < i + 1 by omega)]

/-- Before the turn `i`. -/
def Before (arr : Nat → Int) (data : Int) (length i : Nat) (m : Nat → Int) : Prop :=
  (m = arr ∧ ∀ k, k < i → ¬ Hit data (arr k)) ∨
    ∃ j, j < i ∧ Hit data (arr j) ∧ m = spread arr data length j i

theorem Before.next {arr m m' : Nat → Int} {data : Int} {length i : Nat} (hi : i < length)
    (h : Before arr data length i m)
    (hturn : (Hit data (m i) ∧ m' = Function.update (filled m length i) i data) ∨
      (¬ Hit data (m i) ∧ m' = m)) : Before arr data length (i + 1) m' := by
  rcases h with ⟨rfl, hnone⟩ | ⟨j, hj, hhit, rfl⟩
  · rcases hturn with ⟨hhit, rfl⟩ | ⟨hmiss, rfl⟩
    · rw [filled_eq m data, update_spread m data length (Nat.le_refl i)]
      exact Or.inr ⟨i, Nat.lt_succ_self i, hhit, rfl⟩
    · refine Or.inl ⟨rfl, fun k hk => ?_⟩
      rcases Nat.lt_succ_iff_lt_or_eq.mp hk with hlt | rfl
      · exact hnone k hlt
      · exact hmiss
  · -- a later turn meets the element that was copied up
    rw [spread_self arr data (Nat.le_of_lt hj) (Nat.le_of_lt hi),
      filled_spread arr data (Nat.le_of_lt hj) (Nat.le_of_lt hi),
      update_spread arr data length (Nat.le_of_lt hj)] at hturn
    rcases hturn with ⟨-, rfl⟩ | ⟨hmiss, -⟩
    · exact Or.inr ⟨j, Nat.lt_succ_of_lt hj, hhit, rfl⟩
    · exact absurd hhit hmiss

theorem meets_turns (arr : Nat → Int) (data : Int) (length : Nat) :
    Meets (· ≤ length) arr (turns length data) fun _ m => Before arr data length length m := by
  have hloop : Meets (· ≤ length) arr (turns length data) fun _ m =>
      Before arr data length (0 + length) m := by
    apply meets_loop (I := Before arr data length)
    · exact Or.inl ⟨rfl, fun k hk => absurd hk (Nat.not_lt_zero k)⟩
    · intro i m _ hi hbefore
      have hlt : i < length := by omega
      exact (meets_turn m data hlt).weaken fun _ _ hturn => hbefore.next hlt hturn
  rwa [Nat.zero_add] at hloop

/-- What the call leaves in the array. -/
theorem insertSort_before (s : Globals) (data : Int) :
    Before s.arr data s.length s.length (insertSort data s).arr := by
  obtain ⟨-, ⟨⟩, -, h⟩ := meets_turns s.arr data s.length
  exact h

theorem turns_in_array (t : Table) (data : Int) :
    ∀ i ∈ (turns t.length data t.arr).used, i < MAXSIZE := by
  intro i hi
  have hle := (meets_turns t.arr data t.length).1 i hi
  exact Nat.lt_of_le_of_lt hle t.length_lt

/-! ## Main results -/

/-- `data` goes behind all elements, and is there already. -/
def Last (s : Globals) (data : Int) : Prop :=
  (∀ k, k < s.length → s.arr k ≤ data) ∧ s.arr s.length = data

/-- `data` goes before the last element, which is not 0. -/
def SecondLast (s : Globals) (data : Int) : Prop :=
  0 < s.length ∧ (∀ k, k < s.length - 1 → s.arr k ≤ data) ∧ Hit data (s.arr (s.length - 1))

theorem items_one (lo : Nat) (a : Nat → Int) : items lo 1 a = [a lo] := rfl

/-- Without a hit the array stays. -/
theorem correct_same_iff (t : Table) (data : Int) :
    Correct t.toGlobals data ⟨t.arr, t.length + 1⟩ ↔ Last t.toGlobals data := by
  constructor
  · intro h
    have hperm := h.perm
    rw [items_append, items_one, Nat.zero_add] at hperm
    have hlast : t.arr t.length = data := by
      have h1 := (List.perm_append_left_iff _).mp hperm
      exact List.singleton_inj.mp (List.singleton_perm.mp h1)
    refine ⟨fun k hk => ?_, hlast⟩
    have hle := h.sorted k t.length (Nat.zero_le k) (Nat.le_of_lt hk) (Nat.lt_succ_self _)
    rwa [hlast] at hle
  · rintro ⟨hbelow, hlast⟩
    refine ⟨rfl, ?_, ?_⟩
    · apply t.sorted.succ (Nat.zero_le t.length)
      rcases Nat.eq_zero_or_pos t.length with hzero | hpos
      · exact Or.inl hzero
      · right
        rw [hlast]
        exact hbelow _ (by omega)
    · rw [items_append, items_one, Nat.zero_add, hlast]

theorem items_spread (arr : Nat → Int) (data : Int) (j d : Nat) :
    items 0 (j + d + 1) (spread arr data (j + d) j (j + d)) =
      items 0 j arr ++ (List.replicate d data ++ [arr j]) := by
  have hbelow : items 0 j (spread arr data (j + d) j (j + d)) = items 0 j arr :=
    items_congr fun k _ hk => by rw [spread, if_pos (by omega)]
  have hdata : items j d (spread arr data (j + d) j (j + d)) = List.replicate d data := by
    rw [items_congr (b := spread arr data (j + d) j (j + d)) (a := fun _ => data)
      fun k hlo hk => by rw [spread, if_neg (by omega), if_pos (by omega)]]
    unfold items
    rw [List.map_const', List.length_range']
  rw [items_append, items_append, items_one, Nat.zero_add, Nat.zero_add, hbelow, hdata,
    spread_self arr data (by omega) (Nat.le_refl _), List.append_assoc]

/-- Every element from the hit on is above `data`, so `data` is in the array once. -/
theorem behind_eq_one (t : Table) (data : Int) {j d : Nat} (hlen : t.length = j + d)
    (hhit : Hit data (t.arr j))
    (h : Correct t.toGlobals data ⟨spread t.arr data t.length j t.length, t.length + 1⟩) :
    d = 1 := by
  have hperm := h.perm
  rw [hlen, items_spread, items_append, Nat.zero_add, List.append_assoc] at hperm
  have hcount := ((List.perm_append_left_iff _).mp hperm).count_eq data
  have habove : data ∉ items j d t.arr := by
    intro hmem
    obtain ⟨k, hk, heq⟩ := List.mem_map.mp hmem
    obtain ⟨hlo, hhi⟩ := List.mem_range'_1.mp hk
    have hle := t.sorted j k (Nat.zero_le j) hlo (by omega)
    have := hhit.1
    omega
  have hne : t.arr j ≠ data := by
    have := hhit.1
    omega
  rw [List.count_append, List.count_append, List.count_replicate_self,
    List.count_eq_zero.mpr habove, List.count_singleton_self,
    List.count_eq_zero.mpr fun hmem => hne (List.mem_singleton.mp hmem).symm] at hcount
  omega

theorem spread_eq_inserted (arr : Nat → Int) (data : Int) (j : Nat) :
    spread arr data (j + 1) j (j + 1) =
      inserted (Function.update arr (j + 1) data) j (j + 1) := by
  funext k
  have hlast : Function.update arr (j + 1) data (j + 1) = data := Function.update_self ..
  rcases Nat.lt_trichotomy k j with hk | rfl | hk
  · rw [inserted_lt hk, Function.update_of_ne (by omega), spread, if_pos hk]
  · rw [inserted_self, hlast, spread, if_neg (Nat.lt_irrefl k), if_pos (Nat.lt_succ_self k)]
  · rcases Nat.eq_or_lt_of_le hk with heq | hk
    · obtain rfl : k = j + 1 := heq.symm
      rw [inserted_gt hk (Nat.le_refl _), Nat.add_sub_cancel,
        Function.update_of_ne (by omega), spread_self arr data (Nat.le_succ j) (Nat.le_refl _)]
    · rw [inserted_above (Nat.le_succ j) hk, Function.update_of_ne (by omega), spread,
        if_neg (by omega), if_neg (by omega), if_neg (by omega)]

/-- The last element goes up, and `data` in its place. -/
theorem correct_inserted (t : Table) (data : Int) {j : Nat} (hlen : t.length = j + 1)
    (hbelow : ∀ k, k < j → t.arr k ≤ data) (hlast : data < t.arr j) :
    Correct t.toGlobals data
      ⟨inserted (Function.update t.arr (j + 1) data) j (j + 1), t.length + 1⟩ := by
  have hold : ∀ k, k ≤ j → Function.update t.arr (j + 1) data k = t.arr k := fun k hk =>
    Function.update_of_ne (by omega) _ _
  have hdata : Function.update t.arr (j + 1) data (j + 1) = data := Function.update_self ..
  rw [hlen]
  refine ⟨congrArg (· + 1) hlen.symm, ?_, ?_⟩
  · apply SortedOn.inserted
    · intro i k hi hik hk
      rw [hold i (by omega), hold k (by omega)]
      exact t.sorted i k hi hik (by omega)
    · apply (Passed.start _ (j + 1)).next
      rw [hdata, hold j (Nat.le_refl j)]
      exact hlast
    · exact Nat.zero_le j
    · rcases Nat.eq_zero_or_pos j with hzero | hpos
      · exact Or.inl hzero
      · right
        rw [hdata, hold (j - 1) (by omega)]
        exact hbelow (j - 1) (by omega)
  · have hmoved : Rearranged 0 (j + 1 + 1) (Function.update t.arr (j + 1) data)
        (inserted (Function.update t.arr (j + 1) data) j (j + 1)) :=
      (rearranged_inserted _ (Nat.le_succ j)).mono (Nat.zero_le j) (by omega)
    refine hmoved.perm.trans (List.Perm.of_eq ?_)
    show items 0 (j + 1 + 1) _ = items 0 t.length t.arr ++ [data]
    rw [items_append, items_one, Nat.zero_add, hdata, hlen]
    congr 1
    exact items_congr fun k _ hk => hold k (by omega)

theorem correct_spread_iff (t : Table) (data : Int) {j : Nat} (hj : j < t.length)
    (hhit : Hit data (t.arr j)) :
    Correct t.toGlobals data ⟨spread t.arr data t.length j t.length, t.length + 1⟩ ↔
      SecondLast t.toGlobals data := by
  constructor
  · intro h
    have hd : t.length - j = 1 := behind_eq_one t data (by omega) hhit h
    obtain rfl : j = t.length - 1 := by omega
    refine ⟨by omega, fun k hk => ?_, hhit⟩
    have hrange : t.length - 1 < t.length + 1 := by omega
    have hle : spread t.arr data t.length (t.length - 1) t.length k ≤
        spread t.arr data t.length (t.length - 1) t.length (t.length - 1) :=
      h.sorted k (t.length - 1) (Nat.zero_le k) (Nat.le_of_lt hk) hrange
    rwa [spread, if_pos hk, spread, if_neg (Nat.lt_irrefl _), if_pos hj] at hle
  · rintro ⟨hpos, hbelow, -⟩
    have hlen : t.length = j + 1 := by
      have : ¬ j < t.length - 1 := fun hlt => absurd hhit.1 (Int.not_lt.mpr (hbelow j hlt))
      omega
    have h := correct_inserted t data hlen (fun k hk => hbelow k (by omega)) hhit.1
    rwa [← spread_eq_inserted, ← hlen] at h

/-- **The call is right exactly if `data` belongs before the last element, or behind it, where it
is already.** -/
theorem insertSort_correct_iff (t : Table) (data : Int) :
    Correct t.toGlobals data (insertSort data t.toGlobals) ↔
      Last t.toGlobals data ∨ SecondLast t.toGlobals data := by
  have hres : insertSort data t.toGlobals =
      ⟨(insertSort data t.toGlobals).arr, t.length + 1⟩ := rfl
  rw [hres]
  rcases insertSort_before t.toGlobals data with ⟨heq, hnone⟩ | ⟨j, hj, hhit, heq⟩
  · rw [heq, correct_same_iff]
    refine (or_iff_left ?_).symm
    rintro ⟨hpos, -, hhit⟩
    exact hnone (t.length - 1) (Nat.sub_one_lt_of_lt hpos) hhit
  · rw [heq, correct_spread_iff t data hj hhit]
    refine (or_iff_right ?_).symm
    rintro ⟨hbelow, -⟩
    exact absurd hhit.1 (Int.not_lt.mpr (hbelow j hj))

/-- `int arr[MAXSIZE] = {3,5,8,14};` -/
def source : List Int := [3, 5, 8, 14]

theorem source_sorted : SortedOn 0 4 (source.getD · 0) := by
  have h : ∀ k < 4, ∀ i ≤ k, source.getD i 0 ≤ source.getD k 0 := by decide
  exact fun i k _ hik hk => h k hk i hik

theorem source_lt : 4 < MAXSIZE := by decide

def initial : Table := ⟨⟨(source.getD · 0), 4⟩, source_sorted, source_lt⟩

/-- 4 turns the array into 3, 4, 4, 4, 5. -/
theorem insertSort_not_correct :
    ¬ Correct initial.toGlobals 4 (insertSort 4 initial.toGlobals) := by
  intro h
  exact absurd h.perm (by decide)

end StudyDoc.InsertSort2
