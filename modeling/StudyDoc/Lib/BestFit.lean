import Mathlib.Logic.Basic
import Mathlib.Tactic.Common

/-!
# Best fit

Of `N` places some are used.  A gap is a run of free places that no longer run contains; the best
fit for a request of `n` places is the first of the shortest gaps with at least `n`.  A search that
goes through the gaps from left to right keeps the best one so far: `Scanned c best` says that
`best` is right for the gaps that start below `c`,

    Scanned c best  →  the gap [p, q) is the next one  →  Scanned q (better n best p (q - p))
                                                                                    (Scanned.next)
    Scanned N (some (p, len))  →  Best p len                                 (Scanned.best_of_end)
-/

namespace BestFit

variable {used : Nat → Bool} {N n c p q len : Nat}

structure Gap (used : Nat → Bool) (N p len : Nat) : Prop where
  pos : 0 < len
  le : p + len ≤ N
  free : ∀ j, p ≤ j → j < p + len → used j = false
  left : ∀ j, j + 1 = p → used j = true
  right : p + len < N → used (p + len) = true

structure Best (used : Nat → Bool) (N n p len : Nat) : Prop where
  gap : Gap used N p len
  fits : n ≤ len
  least : ∀ q l, Gap used N q l → n ≤ l → len < l ∨ len = l ∧ p ≤ q

/-- All places from `p` to `q` are free, and no others next to them. -/
structure Next (used : Nat → Bool) (N c p q : Nat) : Prop where
  lt : p < q
  le : q ≤ N
  skipped : ∀ j, c ≤ j → j < p → used j = true
  free : ∀ j, p ≤ j → j < q → used j = false
  right : q < N → used q = true

theorem Next.le_start (h : Next used N c p q) (hc : used c = true) : c < p ∨ q ≤ c := by
  rcases Nat.lt_or_ge c p with hlt | hge
  · exact Or.inl hlt
  · by_cases hq : q ≤ c
    · exact Or.inr hq
    · have := h.free c hge (by omega)
      rw [hc] at this
      cases this

theorem Next.gap (h : Next used N c p q) (hc : used c = true) (hcp : c ≤ p) :
    Gap used N p (q - p) := by
  have hlt := h.lt
  have hle := h.le
  refine ⟨by omega, by omega, fun j h1 h2 => h.free j h1 (by omega), fun j hj => ?_, fun hr => ?_⟩
  · rcases h.le_start hc with h1 | h1
    · exact h.skipped j (by omega) (by omega)
    · omega
  · rw [show p + (q - p) = q by omega] at hr ⊢
    exact h.right hr

/-- The only gap that starts from `c` on and below `q`. -/
theorem Next.unique (h : Next used N c p q) (hcp : c ≤ p) {r l : Nat} (hg : Gap used N r l)
    (h1 : c ≤ r) (h2 : r < q) : r = p ∧ l = q - p := by
  have hpos := hg.pos
  have hle := hg.le
  have hr : r = p := by
    rcases Nat.lt_trichotomy r p with hlt | heq | hgt
    · have hu := h.skipped r h1 hlt
      rw [hg.free r (Nat.le_refl r) (by omega)] at hu
      cases hu
    · exact heq
    · have hu := hg.left (r - 1) (by omega)
      rw [h.free (r - 1) (by omega) (by omega)] at hu
      cases hu
  subst hr
  refine ⟨rfl, ?_⟩
  rcases Nat.lt_trichotomy (r + l) q with hlt | heq | hgt
  · have hu := hg.right (by have := h.le; omega)
    rw [h.free (r + l) (by omega) hlt] at hu
    cases hu
  · omega
  · have hu := h.right (by omega)
    rw [hg.free q (by omega) (by omega)] at hu
    cases hu

/-! ## The search -/

/-- `best` is the best fit among the gaps that start below `c`, none of which is an exact one. -/
structure Scanned (used : Nat → Bool) (N n c : Nat) (best : Option (Nat × Nat)) : Prop where
  gap : ∀ p len, best = some (p, len) → Gap used N p len ∧ n < len ∧ p < c
  least : ∀ r l, Gap used N r l → r < c → n ≤ l →
    ∃ p len, best = some (p, len) ∧ (len < l ∨ len = l ∧ p ≤ r)

/-- The best so far, after one more gap. -/
def better (n : Nat) (best : Option (Nat × Nat)) (p len : Nat) : Option (Nat × Nat) :=
  match best with
  | none => if n ≤ len then some (p, len) else none
  | some (p', len') => if n ≤ len ∧ len < len' then some (p, len) else some (p', len')

theorem scanned_start : Scanned used N n 0 none :=
  ⟨nofun, fun _ _ _ h => absurd h (Nat.not_lt_zero _)⟩

variable {best : Option (Nat × Nat)}

theorem better_eq (n : Nat) (best : Option (Nat × Nat)) (p len : Nat) :
    better n best p len = some (p, len) ∧ n ≤ len ∧ (∀ b, best = some b → len < b.2) ∨
      better n best p len = best ∧
        (n ≤ len → ∃ b, best = some b ∧ b.2 ≤ len) := by
  cases best with
  | none =>
    by_cases h : n ≤ len
    · exact Or.inl ⟨if_pos h, h, nofun⟩
    · exact Or.inr ⟨if_neg h, fun hn => absurd hn h⟩
  | some b =>
    by_cases h : n ≤ len ∧ len < b.2
    · exact Or.inl ⟨if_pos h, h.1, fun b' hb' => Option.some.inj hb' ▸ h.2⟩
    · exact Or.inr ⟨if_neg h, fun hn => ⟨b, rfl, by omega⟩⟩

theorem Scanned.next (hs : Scanned used N n c best) (h : Next used N c p q) (hc : used c = true)
    (hcp : c ≤ p) (hn : q - p ≠ n) : Scanned used N n q (better n best p (q - p)) := by
  have hlt := h.lt
  rcases better_eq n best p (q - p) with ⟨heq, hfit, hbest⟩ | ⟨heq, hbest⟩
  · rw [heq]
    constructor
    · intro p' len' hb
      obtain ⟨rfl, rfl⟩ := Prod.mk.inj (Option.some.inj hb)
      exact ⟨h.gap hc hcp, by omega, hlt⟩
    · intro r l hg hr hl
      refine ⟨p, q - p, rfl, ?_⟩
      rcases Nat.lt_or_ge r c with hrc | hrc
      · obtain ⟨p', len', hb, hle⟩ := hs.least r l hg hrc hl
        have := hbest _ hb
        omega
      · obtain ⟨rfl, rfl⟩ := h.unique hcp hg hrc hr
        exact Or.inr ⟨rfl, Nat.le_refl r⟩
  · rw [heq]
    constructor
    · intro p' len' hb
      obtain ⟨hg, hfit, hpc⟩ := hs.gap p' len' hb
      exact ⟨hg, hfit, by omega⟩
    · intro r l hg hr hl
      rcases Nat.lt_or_ge r c with hrc | hrc
      · exact hs.least r l hg hrc hl
      · obtain ⟨rfl, rfl⟩ := h.unique hcp hg hrc hr
        obtain ⟨⟨p', len'⟩, hb, hle⟩ := hbest hl
        have hpc := (hs.gap p' len' hb).2.2
        exact ⟨p', len', hb, by omega⟩

/-- The search stops at an exact fit. -/
theorem Scanned.exact (hs : Scanned used N n c best) (h : Next used N c p q) (hc : used c = true)
    (hcp : c ≤ p) (hn : q - p = n) : Best used N n p n := by
  have hgap := h.gap hc hcp
  rw [hn] at hgap
  refine ⟨hgap, Nat.le_refl n, fun r l hg hl => ?_⟩
  rcases Nat.lt_or_ge r c with hrc | hrc
  · obtain ⟨p', len', hb, hle⟩ := hs.least r l hg hrc hl
    have := (hs.gap p' len' hb).2.1
    omega
  · rcases Nat.lt_or_ge r p with hrp | hrp
    · have hu := h.skipped r hrc hrp
      have hpos := hg.pos
      rw [hg.free r (Nat.le_refl r) (by omega)] at hu
      cases hu
    · omega

theorem Scanned.best_of_end (hs : Scanned used N n N (some (p, len))) : Best used N n p len := by
  obtain ⟨hg, hfit, -⟩ := hs.gap p len rfl
  refine ⟨hg, by omega, fun r l hg hl => ?_⟩
  have hpos := hg.pos
  have hle := hg.le
  obtain ⟨p', len', hb, h⟩ := hs.least r l hg (by omega) hl
  obtain ⟨rfl, rfl⟩ := Prod.mk.inj (Option.some.inj hb)
  exact h

theorem Scanned.none_of_end (hs : Scanned used N n N none) {r l : Nat} (hg : Gap used N r l) :
    l < n := by
  by_contra hl
  have hpos := hg.pos
  have hle := hg.le
  obtain ⟨p', len', hb, -⟩ := hs.least r l hg (by omega) (by omega)
  cases hb

/-- No gap is left when all places from `c` on are used. -/
theorem Scanned.full (hs : Scanned used N n c best) (hfull : ∀ j, c ≤ j → j < N → used j = true) :
    Scanned used N n N best := by
  constructor
  · intro p len hb
    obtain ⟨hg, hfit, hpc⟩ := hs.gap p len hb
    have hpos := hg.pos
    have hle := hg.le
    exact ⟨hg, hfit, by omega⟩
  · intro r l hg hr hl
    refine hs.least r l hg ?_ hl
    by_contra hrc
    have hpos := hg.pos
    have hu := hfull r (by omega) hr
    rw [hg.free r (Nat.le_refl r) (by omega)] at hu
    cases hu

end BestFit
