import Mathlib.Data.Finset.Card
import Mathlib.Data.Nat.Prime.Basic
import Mathlib.Logic.Function.Basic
import Mathlib.Tactic.Ring

/-!
# Open addressing

`cells pos` is the key in a cell, if there is one; `probe key i` is the `i`-th cell that the search
for `key` looks at.  A search stops at a free cell and at the key itself (`StopsAt`), and a table is
`Placed` when every key is where the search for it stops:

    Placed cells  →  StopsAt cells key n  →  (key is in the table ↔ key is in the cell probe key n)
                                                                                   (Placed.mem_iff)
    Placed cells  →  StopsAt cells key n  →  Placed (cells with key at probe key n)    (Placed.put)

The quadratic probe is `(h + i * i) % p`.  Its cells repeat from `p / 2` on
(exists_quadratic_half); for a prime `p` the first `p / 2 + 1` of them are distinct
(quadratic_inj), so that a search stops as long as no more than `p / 2` cells are taken
(exists_quadratic_free).
-/

namespace OpenAddressing

variable {κ : Type}

/-- The search for `key` goes no further than this cell. -/
def Stop (cells : Nat → Option κ) (key : κ) (pos : Nat) : Prop :=
  cells pos = none ∨ cells pos = some key

/-- The search for `key` stops at its `n`-th cell. -/
def StopsAt (probe : κ → Nat → Nat) (cells : Nat → Option κ) (key : κ) (n : Nat) : Prop :=
  Stop cells key (probe key n) ∧ ∀ i < n, ¬ Stop cells key (probe key i)

def Placed (probe : κ → Nat → Nat) (cells : Nat → Option κ) : Prop :=
  ∀ pos key, cells pos = some key → ∃ n, StopsAt probe cells key n ∧ probe key n = pos

/-! ## Where a search stops -/

variable {probe : κ → Nat → Nat} {cells : Nat → Option κ} {key : κ} {n m : Nat}

theorem StopsAt.unique (hn : StopsAt probe cells key n) (hm : StopsAt probe cells key m) :
    n = m := by
  rcases Nat.lt_trichotomy n m with h | h | h
  · exact absurd hn.1 (hm.2 n h)
  · exact h
  · exact absurd hm.1 (hn.2 m h)

theorem exists_stopsAt (h : Stop cells key (probe key n)) :
    ∃ m ≤ n, StopsAt probe cells key m := by
  induction n using Nat.strongRecOn with
  | ind n ih =>
    by_cases he : ∃ i < n, Stop cells key (probe key i)
    · obtain ⟨i, hi, hs⟩ := he
      obtain ⟨m, hm, hstop⟩ := ih i hi hs
      exact ⟨m, by omega, hstop⟩
    · exact ⟨n, Nat.le_refl n, h, fun i hi hs => he ⟨i, hi, hs⟩⟩

/-! ## Tables with every key in its place -/

theorem placed_none (probe : κ → Nat → Nat) : Placed probe fun _ => none := by
  intro pos key h
  cases h

theorem Placed.mem_iff (hp : Placed probe cells) (hn : StopsAt probe cells key n) :
    (∃ pos, cells pos = some key) ↔ cells (probe key n) = some key := by
  constructor
  · rintro ⟨pos, hpos⟩
    obtain ⟨m, hm, heq⟩ := hp pos key hpos
    rwa [hn.unique hm, heq]
  · exact fun h => ⟨_, h⟩

theorem Placed.unique (hp : Placed probe cells) {pos pos' : Nat} (h : cells pos = some key)
    (h' : cells pos' = some key) : pos = pos' := by
  obtain ⟨n, hn, heq⟩ := hp pos key h
  obtain ⟨m, hm, heq'⟩ := hp pos' key h'
  rw [← heq, ← heq', hn.unique hm]

/-- The cells before the one where a search stops are taken by other keys, and stay so. -/
theorem Placed.put (hp : Placed probe cells) (hn : StopsAt probe cells key n) :
    Placed probe (Function.update cells (probe key n) (some key)) := by
  intro pos key' h
  by_cases hpos : pos = probe key n
  · subst hpos
    rw [Function.update_self] at h
    obtain rfl := Option.some.inj h
    refine ⟨n, ⟨Or.inr (Function.update_self ..), fun i hi => ?_⟩, rfl⟩
    have hne : probe key i ≠ probe key n := fun heq => hn.2 i hi (heq ▸ hn.1)
    unfold Stop
    rw [Function.update_of_ne hne]
    exact hn.2 i hi
  · rw [Function.update_of_ne hpos] at h
    obtain ⟨m, hm, rfl⟩ := hp pos key' h
    refine ⟨m, ⟨?_, fun i hi => ?_⟩, rfl⟩
    · unfold Stop
      rw [Function.update_of_ne hpos]
      exact hm.1
    · have hold := hm.2 i hi
      by_cases hcell : probe key' i = probe key n
      · -- the cell was not free before, so it held `key`, which is not `key'`
        rw [hcell] at hold ⊢
        unfold Stop at hold ⊢
        rw [Function.update_self]
        rcases hn.1 with hfree | htaken
        · exact absurd (Or.inl hfree) hold
        · rw [htaken] at hold
          exact hold
      · unfold Stop
        rw [Function.update_of_ne hcell]
        exact hold

/-! ## Quadratic probing -/

theorem quadratic_mirror (h : Nat) {p i : Nat} (hi : i ≤ p) :
    (h + (p - i) * (p - i)) % p = (h + i * i) % p := by
  obtain ⟨k, rfl⟩ := Nat.exists_eq_add_of_le hi
  have hsq : h + (i + k - i) * (i + k - i) + (i + k) * (2 * i) =
      h + i * i + (i + k) * (i + k) := by
    rw [Nat.add_sub_cancel_left]
    ring
  calc (h + (i + k - i) * (i + k - i)) % (i + k)
      = (h + (i + k - i) * (i + k - i) + (i + k) * (2 * i)) % (i + k) := by simp
    _ = (h + i * i + (i + k) * (i + k)) % (i + k) := by rw [hsq]
    _ = (h + i * i) % (i + k) := by simp

theorem exists_quadratic_half (h : Nat) {p : Nat} (hp : 0 < p) (i : Nat) :
    ∃ j ≤ p / 2, (h + j * j) % p = (h + i * i) % p := by
  have hlt : i % p < p := Nat.mod_lt i hp
  have hmod : (h + i % p * (i % p)) % p = (h + i * i) % p := by
    rw [Nat.add_mod, ← Nat.mul_mod, ← Nat.add_mod]
  by_cases hhalf : i % p ≤ p / 2
  · exact ⟨i % p, hhalf, hmod⟩
  · exact ⟨p - i % p, by omega, (quadratic_mirror h (Nat.le_of_lt hlt)).trans hmod⟩

theorem quadratic_lt_inj {p h i j : Nat} (hp : p.Prime) (hij : i < j) (hj : 2 * j ≤ p) :
    (h + i * i) % p ≠ (h + j * j) % p := by
  intro heq
  obtain ⟨d, rfl⟩ := Nat.exists_eq_add_of_lt hij
  -- the difference of the squares is the product of two positive numbers below `p`
  have hsq : h + (i + d + 1) * (i + d + 1) = h + i * i + (d + 1) * (2 * i + d + 1) := by ring
  have hdvd : p ∣ (d + 1) * (2 * i + d + 1) := by
    have hsub := Nat.sub_mod_eq_zero_of_mod_eq heq.symm
    rw [hsq, Nat.add_sub_cancel_left] at hsub
    exact Nat.dvd_of_mod_eq_zero hsub
  rcases hp.dvd_mul.mp hdvd with h1 | h2
  · exact absurd (Nat.le_of_dvd (by omega) h1) (by omega)
  · exact absurd (Nat.le_of_dvd (by omega) h2) (by omega)

theorem quadratic_inj {p h i j : Nat} (hp : p.Prime) (hi : 2 * i ≤ p) (hj : 2 * j ≤ p)
    (heq : (h + i * i) % p = (h + j * j) % p) : i = j := by
  rcases Nat.lt_trichotomy i j with hlt | h | hlt
  · exact absurd heq (quadratic_lt_inj hp hlt hj)
  · exact h
  · exact absurd heq.symm (quadratic_lt_inj hp hlt hi)

theorem exists_quadratic_free {p : Nat} (hp : p.Prime) (h : Nat) (taken : Finset Nat)
    (ht : ∀ pos < p, cells pos ≠ none → pos ∈ taken) (hc : taken.card ≤ p / 2) :
    ∃ n ≤ p / 2, cells ((h + n * n) % p) = none := by
  by_contra hno
  have hall : ∀ n ∈ Finset.range (p / 2 + 1), (h + n * n) % p ∈ taken := by
    intro n hn
    have hn := Finset.mem_range.mp hn
    exact ht _ (Nat.mod_lt _ hp.pos) fun hfree => hno ⟨n, by omega, hfree⟩
  have hcard := Finset.card_le_card_of_injOn (fun n => (h + n * n) % p) hall (by
    intro i hi j hj heq
    have hi := Finset.mem_range.mp hi
    have hj := Finset.mem_range.mp hj
    exact quadratic_inj hp (by omega) (by omega) heq)
  rw [Finset.card_range] at hcard
  omega

end OpenAddressing
