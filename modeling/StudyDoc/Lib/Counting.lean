import Mathlib.Algebra.BigOperators.Group.Finset.Piecewise
import Mathlib.Data.Fintype.Card
import Mathlib.Tactic.Common

/-!
# How many entries of a table are of a kind

`number p f` counts the `i` whose entry `f i` meets `p`.  One entry is changed at a time:

    ∑ w (update f i a) + w (f i)       = ∑ w f + w a                         (sum_update)
    number p (update f i a) + [p (f i)] = number p f + [p a]              (number_update)

so a count of one kind goes up by one and that of another down when an entry goes from the one
to the other.
-/

namespace Counting

variable {ι α : Type} [Fintype ι] {p q : α → Prop} [DecidablePred p] [DecidablePred q]

def number (p : α → Prop) [DecidablePred p] (f : ι → α) : Nat :=
  (Finset.univ.filter fun i => p (f i)).card

theorem number_pos {f : ι → α} : 0 < number p f ↔ ∃ i, p (f i) := by
  rw [number, Finset.card_pos]
  constructor
  · rintro ⟨i, hi⟩
    exact ⟨i, (Finset.mem_filter.mp hi).2⟩
  · rintro ⟨i, hi⟩
    exact ⟨i, Finset.mem_filter.mpr ⟨Finset.mem_univ i, hi⟩⟩

theorem number_eq_zero {f : ι → α} : number p f = 0 ↔ ∀ i, ¬ p (f i) := by
  rw [← Nat.le_zero, ← Nat.not_lt, number_pos]
  exact not_exists

theorem number_le (f : ι → α) : number p f ≤ Fintype.card ι := Finset.card_le_univ _

theorem number_congr {β : Type} {r : β → Prop} [DecidablePred r] {f : ι → α} {g : ι → β}
    (h : ∀ i, p (f i) ↔ r (g i)) : number p f = number r g :=
  congrArg Finset.card (Finset.filter_congr fun i _ => h i)

theorem number_eq_card {f : ι → α} (h : ∀ i, p (f i)) : number p f = Fintype.card ι := by
  rw [number, Finset.filter_true_of_mem fun i _ => h i]
  rfl

/-- One term of a sum is changed. -/
theorem sum_update [DecidableEq ι] (w : α → Nat) (f : ι → α) (i : ι) (a : α) :
    (∑ j, w (Function.update f i a j)) + w (f i) = (∑ j, w (f j)) + w a := by
  rw [← Finset.add_sum_erase Finset.univ _ (Finset.mem_univ i),
    ← Finset.add_sum_erase Finset.univ (fun j => w (f j)) (Finset.mem_univ i),
    Function.update_self]
  have hrest : ∑ j ∈ Finset.univ.erase i, w (Function.update f i a j) =
      ∑ j ∈ Finset.univ.erase i, w (f j) :=
    Finset.sum_congr rfl fun j hj => by rw [Function.update_of_ne (Finset.ne_of_mem_erase hj)]
  rw [hrest]
  omega

theorem number_update [DecidableEq ι] (p : α → Prop) [DecidablePred p] (f : ι → α) (i : ι)
    (a : α) : number p (Function.update f i a) + (if p (f i) then 1 else 0) =
      number p f + (if p a then 1 else 0) := by
  unfold number
  rw [Finset.card_filter, Finset.card_filter]
  exact sum_update (fun a => if p a then 1 else 0) f i a

end Counting
