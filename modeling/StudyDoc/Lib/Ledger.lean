import Mathlib.Data.Set.Insert
import Mathlib.Logic.Equiv.Basic
import Mathlib.Logic.Function.Basic

/-!
# Who holds what

A ledger `f : ι → Option β` says which holder has which resource.  `Covers base held f`: what is
held is what was there from the start and the entries of the ledger, each entry once.

    acquire    an entry for a resource that was not held
    release    the entry is removed and the resource given up
    comp       the holders change places
-/

namespace Ledger

variable {ι β : Type} {base held : Set β} {f : ι → Option β}

structure Covers (base held : Set β) (f : ι → Option β) : Prop where
  mem_iff : ∀ b, b ∈ held ↔ b ∈ base ∨ ∃ i, f i = some b
  notMem : ∀ i b, f i = some b → b ∉ base
  inj : ∀ i j b, f i = some b → f j = some b → i = j

theorem update_eq_some_iff [DecidableEq ι] {i j : ι} {x : Option β} {b : β} :
    Function.update f i x j = some b ↔ (j = i ∧ x = some b) ∨ (j ≠ i ∧ f j = some b) := by
  by_cases hji : j = i
  · rw [hji, Function.update_self]
    simp
  · rw [Function.update_of_ne hji]
    simp [hji]

namespace Covers

theorem start (base : Set β) : Covers base base (fun _ : ι => none) where
  mem_iff b := by simp
  notMem i b h := absurd h (by simp)
  inj i j b h := absurd h (by simp)

theorem mem_of_entry (h : Covers base held f) {i : ι} {b : β} (hi : f i = some b) : b ∈ held :=
  (h.mem_iff b).mpr (Or.inr ⟨i, hi⟩)

theorem mem_of_base (h : Covers base held f) {b : β} (hb : b ∈ base) : b ∈ held :=
  (h.mem_iff b).mpr (Or.inl hb)

theorem acquire [DecidableEq ι] (h : Covers base held f) {i : ι} {b : β} (hi : f i = none)
    (hb : b ∉ held) : Covers base (insert b held) (Function.update f i (some b)) where
  mem_iff c := by
    rw [Set.mem_insert_iff, h.mem_iff c]
    constructor
    · rintro (rfl | hc | ⟨j, hj⟩)
      · exact Or.inr ⟨i, Function.update_self ..⟩
      · exact Or.inl hc
      · refine Or.inr ⟨j, update_eq_some_iff.mpr (Or.inr ⟨?_, hj⟩)⟩
        rintro rfl
        exact absurd (hi.symm.trans hj) (by simp)
    · rintro (hc | ⟨j, hj⟩)
      · exact Or.inr (Or.inl hc)
      · rcases update_eq_some_iff.mp hj with ⟨-, hbc⟩ | ⟨-, hj⟩
        · exact Or.inl (Option.some.inj hbc).symm
        · exact Or.inr (Or.inr ⟨j, hj⟩)
  notMem j c hj hc := by
    rcases update_eq_some_iff.mp hj with ⟨-, hbc⟩ | ⟨-, hj⟩
    · rw [← Option.some.inj hbc] at hc
      exact hb (h.mem_of_base hc)
    · exact h.notMem j c hj hc
  inj j k c hj hk := by
    rcases update_eq_some_iff.mp hj with ⟨hji, hbc⟩ | ⟨-, hj⟩
    · rcases update_eq_some_iff.mp hk with ⟨hki, -⟩ | ⟨-, hk⟩
      · rw [hji, hki]
      · rw [← Option.some.inj hbc] at hk
        exact absurd (h.mem_of_entry hk) hb
    · rcases update_eq_some_iff.mp hk with ⟨-, hbc⟩ | ⟨-, hk⟩
      · rw [← Option.some.inj hbc] at hj
        exact absurd (h.mem_of_entry hj) hb
      · exact h.inj j k c hj hk

theorem release [DecidableEq ι] (h : Covers base held f) {i : ι} {b : β} (hi : f i = some b) :
    Covers base (held \ {b}) (Function.update f i none) where
  mem_iff c := by
    rw [Set.mem_sdiff, Set.mem_singleton_iff, h.mem_iff c]
    constructor
    · rintro ⟨hc | ⟨j, hj⟩, hcb⟩
      · exact Or.inl hc
      · refine Or.inr ⟨j, update_eq_some_iff.mpr (Or.inr ⟨?_, hj⟩)⟩
        rintro rfl
        exact hcb (Option.some.inj (hj.symm.trans hi))
    · rintro (hc | ⟨j, hj⟩)
      · refine ⟨Or.inl hc, ?_⟩
        rintro rfl
        exact h.notMem i c hi hc
      · rcases update_eq_some_iff.mp hj with ⟨-, hn⟩ | ⟨hji, hj⟩
        · exact absurd hn (by simp)
        · refine ⟨Or.inr ⟨j, hj⟩, ?_⟩
          rintro rfl
          exact hji (h.inj j i c hj hi)
  notMem j c hj := by
    rcases update_eq_some_iff.mp hj with ⟨-, hn⟩ | ⟨-, hj⟩
    · exact absurd hn (by simp)
    · exact h.notMem j c hj
  inj j k c hj hk := by
    rcases update_eq_some_iff.mp hj with ⟨-, hn⟩ | ⟨-, hj⟩
    · exact absurd hn (by simp)
    · rcases update_eq_some_iff.mp hk with ⟨-, hn⟩ | ⟨-, hk⟩
      · exact absurd hn (by simp)
      · exact h.inj j k c hj hk

/-- The holders change places. -/
theorem comp (h : Covers base held f) (e : Equiv.Perm ι) : Covers base held (f ∘ e) where
  mem_iff b := by
    rw [h.mem_iff b]
    refine or_congr_right ⟨?_, fun ⟨i, hi⟩ => ⟨e i, hi⟩⟩
    rintro ⟨i, hi⟩
    exact ⟨e.symm i, by rw [Function.comp_apply, e.apply_symm_apply]; exact hi⟩
  notMem i b hi := h.notMem (e i) b hi
  inj i j b hi hj := e.injective (h.inj (e i) (e j) b hi hj)

end Covers

end Ledger
