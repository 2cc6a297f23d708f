import Mathlib.Order.Lattice
import Mathlib.Tactic.Common

/-!
# Binary search trees

The nodes of a tree have names of type `ι`, and values of type `α`, ordered by a key.  `place k` is
where the search for `k` ends: at the node that has it, or at the empty place it would go to,
with the node above.

    t ordered  →  (place k).child = none ↔ no value of t has the key k       (place_none_iff)
                  (place k).child = some p → the value at p has the key k    (place_some)
-/

namespace Bst

inductive Tree (ι α : Type) where
  | nil
  | node (p : ι) (left : Tree ι α) (a : α) (right : Tree ι α)

/-- The end of a search. -/
structure Place (ι : Type) where
  child : Option ι
  parent : Option ι

variable {ι α K : Type}

namespace Tree

/-- The node `p`, with the value `a`, is in the tree. -/
def Mem (p : ι) (a : α) : Tree ι α → Prop
  | nil => False
  | node q l b r => Mem p a l ∨ p = q ∧ a = b ∨ Mem p a r

variable [LinearOrder K] (key : α → K)

def Ordered : Tree ι α → Prop
  | nil => True
  | node _ l b r => Ordered l ∧ Ordered r ∧ (∀ p a, Mem p a l → key a < key b) ∧
      ∀ p a, Mem p a r → key b < key a

/-- From below the node `parent`. -/
def place (k : K) (parent : Option ι) : Tree ι α → Place ι
  | nil => ⟨none, parent⟩
  | node p l b r =>
    if k < key b then place k (some p) l
    else if key b < k then place k (some p) r
    else ⟨some p, parent⟩

variable {key} {k : K} {parent : Option ι} {t : Tree ι α}

theorem place_node {p : ι} {l r : Tree ι α} {b : α} :
    place key k parent (node p l b r) =
      if k < key b then place key k (some p) l
      else if key b < k then place key k (some p) r
      else ⟨some p, parent⟩ := rfl

theorem place_some {p : ι} (h : (place key k parent t).child = some p) :
    ∃ a, Mem p a t ∧ key a = k := by
  induction t generalizing parent with
  | nil => cases h
  | node q l b r left right =>
    rw [place_node] at h
    split at h
    · obtain ⟨a, ha, hk⟩ := left h
      exact ⟨a, Or.inl ha, hk⟩
    · split at h
      · obtain ⟨a, ha, hk⟩ := right h
        exact ⟨a, Or.inr (Or.inr ha), hk⟩
      · rename_i hlt hgt
        have hp : q = p := Option.some.inj h
        exact ⟨b, Or.inr (Or.inl ⟨hp.symm, rfl⟩), le_antisymm (le_of_not_gt hlt) (le_of_not_gt hgt)⟩

theorem place_none_iff (ht : t.Ordered key) :
    (place key k parent t).child = none ↔ ∀ p a, Mem p a t → key a ≠ k := by
  induction t generalizing parent with
  | nil => exact ⟨fun _ p a h => absurd h id, fun _ => rfl⟩
  | node q l b r left right =>
    obtain ⟨hl, hr, hbelow, habove⟩ := ht
    rw [place_node]
    split
    · rename_i hlt
      rw [left hl]
      constructor
      · rintro h p a (ha | ⟨rfl, rfl⟩ | ha) heq
        · exact h p a ha heq
        · exact absurd hlt (heq ▸ lt_irrefl _)
        · exact absurd (hlt.trans (habove p a ha)) (heq ▸ lt_irrefl _)
      · exact fun h p a ha => h p a (Or.inl ha)
    · split
      · rename_i hgt
        rw [right hr]
        constructor
        · rintro h p a (ha | ⟨rfl, rfl⟩ | ha) heq
          · exact absurd (hgt.trans' (hbelow p a ha)) (heq ▸ lt_irrefl _)
          · exact absurd hgt (heq ▸ lt_irrefl _)
          · exact h p a ha heq
        · exact fun h p a ha => h p a (Or.inr (Or.inr ha))
      · rename_i hlt hgt
        have heq : key b = k := le_antisymm (le_of_not_gt hlt) (le_of_not_gt hgt)
        constructor
        · intro h
          cases h
        · intro h
          exact absurd heq (h q b (Or.inr (Or.inl ⟨rfl, rfl⟩)))

end Tree

end Bst
