import Mathlib.Algebra.Order.Group.Defs
import Mathlib.Algebra.Order.Monoid.Unbundled.MinMax
import Mathlib.Algebra.BigOperators.Group.List.Basic
import Mathlib.Order.Bounds.Basic
import Mathlib.Tactic.Common

/-!
# Largest sums of contiguous sublists

In an ordered group, the largest sum over the prefixes and over the infixes of a list, the empty
one included:

    prefixMax l = max 0 (a + prefixMax l')          segmentMax l = max (prefixMax l) (segmentMax l')

for `l = a :: l'`.  `running` is the loop that adds up a list and keeps the best sum so far:

    sum ≤ best → (foldl running).2 = max best (sum + prefixMax l)              (foldl_running)
-/

namespace Segments

variable {α : Type} [AddCommGroup α] [LinearOrder α] [IsOrderedAddMonoid α]

def prefixMax : List α → α
  | [] => 0
  | a :: l => max 0 (a + prefixMax l)

def segmentMax : List α → α
  | [] => 0
  | a :: l => max (prefixMax (a :: l)) (segmentMax l)

omit [IsOrderedAddMonoid α] in
theorem prefixMax_nonneg (l : List α) : 0 ≤ prefixMax l := by
  cases l with
  | nil => exact le_refl 0
  | cons a l => exact le_max_left _ _

omit [IsOrderedAddMonoid α] in
theorem segmentMax_nonneg (l : List α) : 0 ≤ segmentMax l := by
  cases l with
  | nil => exact le_refl 0
  | cons a l => exact le_trans (prefixMax_nonneg _) (le_max_left _ _)

theorem isGreatest_prefixMax (l : List α) :
    IsGreatest {s | ∃ p, p <+: l ∧ p.sum = s} (prefixMax l) := by
  induction l with
  | nil =>
    refine ⟨⟨[], List.nil_prefix, List.sum_nil⟩, ?_⟩
    rintro s ⟨p, hp, rfl⟩
    rw [List.prefix_nil.mp hp]
    exact le_of_eq List.sum_nil
  | cons a l ih =>
    obtain ⟨⟨p, hp, hsum⟩, hle⟩ := ih
    constructor
    · rcases max_choice 0 (a + prefixMax l) with h | h
      · exact ⟨[], List.nil_prefix, List.sum_nil.trans h.symm⟩
      · refine ⟨a :: p, (List.prefix_cons_inj a).mpr hp, ?_⟩
        rw [List.sum_cons, hsum]
        exact h.symm
    · rintro s ⟨q, hq, rfl⟩
      rcases List.prefix_cons_iff.mp hq with rfl | ⟨q, rfl, hq⟩
      · exact le_of_eq_of_le List.sum_nil (le_max_left _ _)
      · rw [List.sum_cons]
        have hq := (List.prefix_cons_inj a).mp hq
        exact le_trans (add_le_add_right (hle ⟨q, hq, rfl⟩) a) (le_max_right _ _)

theorem prefixMax_le {p l : List α} (h : p <+: l) : prefixMax p ≤ prefixMax l := by
  obtain ⟨q, hq, hsum⟩ := (isGreatest_prefixMax p).1
  exact (isGreatest_prefixMax l).2 ⟨q, hq.trans h, hsum⟩

theorem isGreatest_segmentMax (l : List α) :
    IsGreatest {s | ∃ p, p <:+: l ∧ p.sum = s} (segmentMax l) := by
  induction l with
  | nil =>
    refine ⟨⟨[], List.nil_infix, List.sum_nil⟩, ?_⟩
    rintro s ⟨p, hp, rfl⟩
    rw [List.infix_nil.mp hp]
    exact le_of_eq List.sum_nil
  | cons a l ih =>
    obtain ⟨⟨p, hp, hsum⟩, hle⟩ := ih
    obtain ⟨⟨q, hq, hqsum⟩, hqle⟩ := isGreatest_prefixMax (a :: l)
    constructor
    · rcases max_choice (prefixMax (a :: l)) (segmentMax l) with h | h
      · exact ⟨q, hq.isInfix, hqsum.trans h.symm⟩
      · exact ⟨p, hp.trans (List.suffix_cons a l).isInfix, hsum.trans h.symm⟩
    · rintro s ⟨r, hr, rfl⟩
      rcases List.infix_cons_iff.mp hr with hr | hr
      · exact le_trans (hqle ⟨r, hr, rfl⟩) (le_max_left _ _)
      · exact le_trans (hle ⟨r, hr, rfl⟩) (le_max_right _ _)

/-! ## Running sums -/

/-- One round: the next element is added, and the best sum kept. -/
def running (s : α × α) (a : α) : α × α := (s.1 + a, max s.2 (s.1 + a))

theorem foldl_running (l : List α) {sum best : α} (h : sum ≤ best) :
    l.foldl running (sum, best) = (sum + l.sum, max best (sum + prefixMax l)) := by
  induction l generalizing sum best with
  | nil =>
    show (sum, best) = (sum + 0, max best (sum + 0))
    rw [add_zero, max_eq_left h]
  | cons a l ih =>
    show l.foldl running (sum + a, max best (sum + a)) = _
    rw [ih (le_max_right _ _), List.sum_cons, add_assoc]
    congr 1
    have hle : sum + a ≤ sum + (a + prefixMax l) := by
      rw [← add_assoc]
      exact le_add_of_nonneg_right (prefixMax_nonneg l)
    show max (max best (sum + a)) (sum + a + prefixMax l) =
      max best (sum + max 0 (a + prefixMax l))
    rw [max_assoc, add_assoc, max_eq_right hle, ← max_add_add_left, add_zero, ← max_assoc,
      max_eq_left h]

omit [IsOrderedAddMonoid α] in
/-- A loop whose rounds keep the larger of two values, if the one they have is not negative. -/
theorem foldl_keeping {γ : Type} {turn : α → γ → α} {value : γ → α} {l : List γ} {best : α}
    (hbest : 0 ≤ best)
    (h : ∀ i ∈ l, ∀ best, 0 ≤ best → turn best i = max best (value i)) :
    l.foldl turn best = l.foldl (fun best i => max best (value i)) best := by
  induction l generalizing best with
  | nil => rfl
  | cons i l ih =>
    rw [List.foldl_cons, List.foldl_cons, h i List.mem_cons_self best hbest]
    exact ih (le_max_of_le_left hbest) fun j hj => h j (List.mem_cons_of_mem i hj)

end Segments
