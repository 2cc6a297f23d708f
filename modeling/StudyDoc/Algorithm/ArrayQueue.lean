import StudyDoc.Lib.Transition
import Mathlib.Logic.Function.Basic
import Mathlib.Tactic.Common

/-!
# `队列.md`: a queue in an array

With `l` for the elements accepted since the last `MakeEmpty`, and any `Capacity` from 1 on:

    Size = length l    Front = 1    Rear = length l mod Capacity
    the k-th of l is at (Front + k) mod Capacity                     in every state (reachable_represents)

`MakeEmpty` puts `Front` to 1, which is an index of the array only if `Capacity` is at least 2
(queue_lawful_iff); `Rear` is one always.
-/

namespace StudyDoc.ArrayQueue

open Transition

/-! ## Algorithm -/

structure QueueRecord where
  capacity : Int
  front : Int
  rear : Int
  size : Int
  array : Int → Int

def isEmpty (q : QueueRecord) : Prop := q.size = 0

def makeEmpty (q : QueueRecord) : QueueRecord := { q with size := 0, front := 1, rear := 0 }

/-- `if(++Value == Q->Capacity) Value = 0;` -/
def succ (value : Int) (q : QueueRecord) : Int :=
  if value + 1 = q.capacity then 0 else value + 1

def isFull (q : QueueRecord) : Prop := q.capacity = q.size

instance (q : QueueRecord) : Decidable (isFull q) := inferInstanceAs (Decidable (_ = _))

def enqueue (x : Int) (q : QueueRecord) : QueueRecord :=
  if isFull q then q
  else
    let q := { q with size := q.size + 1 }
    let q := { q with rear := succ q.rear q }
    { q with array := Function.update q.array q.rear x }

inductive Call where
  | makeEmpty
  | enqueue (x : Int)

/-- The queue, and the elements accepted since the last `MakeEmpty`. -/
structure State where
  q : QueueRecord
  accepted : List Int

def step (s : State) : Call → State
  | .makeEmpty => ⟨makeEmpty s.q, []⟩
  | .enqueue x => ⟨enqueue x s.q, if isFull s.q then s.accepted else s.accepted ++ [x]⟩

/-- A queue of any contents, behind its first `MakeEmpty`. -/
def queue (capacity : Int) : System State Call where
  init s := ∃ q : QueueRecord, q.capacity = capacity ∧ s = ⟨makeEmpty q, []⟩
  step s c s' := s' = step s c

structure Lawful (s : State) : Prop where
  size : 0 ≤ s.q.size ∧ s.q.size ≤ s.q.capacity
  front : 0 ≤ s.q.front ∧ s.q.front < s.q.capacity
  rear : 0 ≤ s.q.rear ∧ s.q.rear < s.q.capacity
  position : ∀ k : Nat, (k : Int) < s.q.size →
    s.accepted[k]? = some (s.q.array ((s.q.front + k) % s.q.capacity))
  full : isFull s.q → ∀ x, enqueue x s.q = s.q

/-! ## The list in the array -/

/-- The queue holds the list, from the index 1 on. -/
structure Represents (q : QueueRecord) (l : List Int) : Prop where
  size : q.size = l.length
  size_le : q.size ≤ q.capacity
  front : q.front = 1
  rear : q.rear = q.size % q.capacity
  cell : ∀ k : Nat, k < l.length → l[k]? = some (q.array ((1 + k) % q.capacity))

theorem represents_makeEmpty (q : QueueRecord) (h : 1 ≤ q.capacity) :
    Represents (makeEmpty q) [] where
  size := rfl
  size_le := by
    show (0 : Int) ≤ q.capacity
    omega
  front := rfl
  rear := (Int.zero_emod _).symm
  cell k hk := absurd hk (Nat.not_lt_zero k)

theorem enqueue_full {q : QueueRecord} (h : isFull q) (x : Int) : enqueue x q = q := if_pos h

/-- `Rear` goes on like the size does, modulo `Capacity`. -/
theorem succ_rear {q : QueueRecord} (h : 0 ≤ q.size) (hlt : q.size < q.capacity)
    (hrear : q.rear = q.size % q.capacity) : succ q.rear q = (q.size + 1) % q.capacity := by
  rw [Int.emod_eq_of_lt h hlt] at hrear
  unfold succ
  rw [hrear]
  split
  · rename_i hwrap
    rw [hwrap, Int.emod_self]
  · rename_i hwrap
    rw [Int.emod_eq_of_lt (by omega) (by omega)]

/-- An element accepted before is not where the next one goes. -/
theorem place_ne {k size capacity : Int} (hk : 0 ≤ k) (hlt : k < size) (hle : size < capacity) :
    (1 + k) % capacity ≠ (size + 1) % capacity := by
  rw [Int.emod_eq_of_lt (show 0 ≤ 1 + k by omega) (by omega)]
  by_cases hwrap : size + 1 = capacity
  · rw [hwrap, Int.emod_self]
    omega
  · rw [Int.emod_eq_of_lt (show 0 ≤ size + 1 by omega) (by omega)]
    omega

theorem represents_enqueue {q : QueueRecord} {l : List Int} (h : Represents q l)
    (hfull : ¬ isFull q) (x : Int) : Represents (enqueue x q) (l ++ [x]) := by
  have hsize := h.size
  have hlt : q.size < q.capacity := by
    have hle := h.size_le
    have hne : q.capacity ≠ q.size := hfull
    omega
  have hrear := succ_rear (show 0 ≤ q.size by omega) hlt h.rear
  have hnext : enqueue x q =
      { q with
        size := q.size + 1
        rear := (q.size + 1) % q.capacity
        array := Function.update q.array ((q.size + 1) % q.capacity) x } := by
    rw [← hrear]
    exact if_neg hfull
  rw [hnext]
  refine ⟨?_, ?_, h.front, rfl, ?_⟩
  · show q.size + 1 = ((l ++ [x]).length : Int)
    rw [hsize, List.length_append]
    rfl
  · show q.size + 1 ≤ q.capacity
    omega
  · intro k hk
    show (l ++ [x])[k]? =
      some (Function.update q.array ((q.size + 1) % q.capacity) x ((1 + k) % q.capacity))
    rw [List.length_append, List.length_singleton] at hk
    rcases Nat.lt_or_eq_of_le (Nat.le_of_lt_succ hk) with hlt' | rfl
    · rw [List.getElem?_append_left hlt', h.cell k hlt', Function.update_of_ne]
      exact place_ne (by omega) (by omega) hlt
    · rw [List.getElem?_concat_length, hsize, Int.add_comm, Function.update_self]

theorem Represents.step {s : State} (h : Represents s.q s.accepted) (hcap : 1 ≤ s.q.capacity)
    (c : Call) : Represents (step s c).q (step s c).accepted := by
  cases c with
  | makeEmpty => exact represents_makeEmpty s.q hcap
  | enqueue x =>
    show Represents (enqueue x s.q) (if isFull s.q then s.accepted else s.accepted ++ [x])
    by_cases hfull : isFull s.q
    · rw [if_pos hfull, enqueue_full hfull]
      exact h
    · rw [if_neg hfull]
      exact represents_enqueue h hfull x

theorem step_capacity (s : State) (c : Call) : (step s c).q.capacity = s.q.capacity := by
  cases c with
  | makeEmpty => rfl
  | enqueue x =>
    show (enqueue x s.q).capacity = s.q.capacity
    unfold enqueue
    split <;> rfl

theorem reachable_capacity {capacity : Int} {s : State} (h : (queue capacity).Reachable s) :
    s.q.capacity = capacity := by
  apply h.invariant (I := fun s => s.q.capacity = capacity)
  · rintro s ⟨q, hq, rfl⟩
    exact hq
  · rintro s c s' - hs rfl
    rw [step_capacity, hs]

theorem reachable_represents {capacity : Int} (hcap : 1 ≤ capacity) {s : State}
    (h : (queue capacity).Reachable s) : Represents s.q s.accepted := by
  apply h.invariant (I := fun s => Represents s.q s.accepted)
  · rintro s ⟨q, rfl, rfl⟩
    exact represents_makeEmpty q hcap
  · rintro s c s' hreach hs rfl
    exact hs.step (by rw [reachable_capacity hreach]; exact hcap) c

theorem Represents.isEmpty_iff {q : QueueRecord} {l : List Int} (h : Represents q l) :
    isEmpty q ↔ l = [] := by
  rw [isEmpty, h.size, ← List.length_eq_zero_iff]
  omega

/-! ## Main results -/

/-- A queue that holds its list has a `Front` in the array, or is lawful but for that. -/
theorem Represents.lawful_iff {s : State} (h : Represents s.q s.accepted) :
    Lawful s ↔ 2 ≤ s.q.capacity := by
  have hsize := h.size
  constructor
  · intro hlaw
    have hfront := hlaw.front.2
    rw [h.front] at hfront
    omega
  · intro htwo
    refine ⟨⟨by omega, h.size_le⟩, ?_, ?_, ?_, fun hfull => enqueue_full hfull⟩
    · rw [h.front]
      omega
    · rw [h.rear]
      exact ⟨Int.emod_nonneg _ (by omega), Int.emod_lt_of_pos _ (by omega)⟩
    · intro k hk
      rw [h.front]
      exact h.cell k (by omega)

/-- **The queue is lawful in every state of a run exactly if its array has an index 1.** -/
theorem queue_lawful_iff (capacity : Int) (cs : List Call) :
    (queue capacity).Always cs Lawful ↔ 2 ≤ capacity := by
  constructor
  · intro h
    let q : QueueRecord := ⟨capacity, 0, 0, 0, fun _ => 0⟩
    have hstart : Lawful ⟨makeEmpty q, []⟩ := h [] cs _ rfl (.start ⟨q, rfl, rfl⟩)
    have hfront : (1 : Int) < capacity := hstart.front.2
    omega
  · intro htwo pre post s _ hr
    have hreach : (queue capacity).Reachable s := ⟨pre, hr⟩
    have hcap := reachable_capacity hreach
    apply (reachable_represents (by omega) hreach).lawful_iff.mpr
    omega

/-- A queue for one element. -/
theorem queue_not_lawful : ¬ (queue 1).Always [.enqueue 7] Lawful := by
  intro h
  have hstart : Lawful ⟨makeEmpty ⟨1, 0, 0, 0, fun _ => 0⟩, []⟩ :=
    h [] _ _ rfl (.start ⟨_, rfl, rfl⟩)
  exact absurd hstart.front.2 (by decide)

end StudyDoc.ArrayQueue
