import Mathlib.Data.List.Basic

/-!
# Programs that read a memory

`Access β α` reads cells of type `β`, one after the other, and yields an `α`; which cell comes
next may depend on the cells read before.  Over a memory `mem`, `run` is what it yields and
`reads` are the addresses of the cells it read:

    mem and mem' agree on reads mem t  →  run mem' t = run mem t         (run_congr)

so a program all of whose reads lie in a region does not depend on anything outside of it.
`ReadsIn mem P t`, every address read satisfies `P`, has one rule for each way to build a program.
-/

inductive Access (β α : Type) where
  | ret (a : α)
  | peek (i : Nat) (k : β → Access β α)

namespace Access

variable {α β γ : Type}

def bind : Access β α → (α → Access β γ) → Access β γ
  | ret a, f => f a
  | peek i k, f => peek i fun b => (k b).bind f

instance : Monad (Access β) where
  pure := ret
  bind := bind

/-- The cell at `i`. -/
def cell (i : Nat) : Access β β := peek i ret

/-- The `n` cells from `i` on. -/
def cells : Nat → Nat → Access β (List β)
  | _, 0 => ret []
  | i, n + 1 => do
    let b ← cell i
    let bs ← cells (i + 1) n
    return b :: bs

def run (mem : Nat → β) : Access β α → α
  | ret a => a
  | peek i k => (k (mem i)).run mem

def reads (mem : Nat → β) : Access β α → List Nat
  | ret _ => []
  | peek i k => i :: (k (mem i)).reads mem

@[simp] theorem run_pure (mem : Nat → β) (a : α) : run mem (pure a : Access β α) = a := rfl

@[simp] theorem reads_pure (mem : Nat → β) (a : α) : reads mem (pure a : Access β α) = [] := rfl

@[simp] theorem run_cell (mem : Nat → β) (i : Nat) : run mem (cell i) = mem i := rfl

@[simp] theorem reads_cell (mem : Nat → β) (i : Nat) : reads mem (cell i : Access β β) = [i] := rfl

@[simp] theorem run_bind (mem : Nat → β) (t : Access β α) (f : α → Access β γ) :
    run mem (t >>= f) = run mem (f (run mem t)) := by
  induction t with
  | ret a => rfl
  | peek i k ih => exact ih (mem i)

@[simp] theorem reads_bind (mem : Nat → β) (t : Access β α) (f : α → Access β γ) :
    reads mem (t >>= f) = reads mem t ++ reads mem (f (run mem t)) := by
  induction t with
  | ret a => rfl
  | peek i k ih =>
    show i :: reads mem (k (mem i) >>= f) = i :: (reads mem (k (mem i)) ++ _)
    rw [ih (mem i)]
    rfl

theorem run_ite (mem : Nat → β) {c : Prop} [Decidable c] (t e : Access β α) :
    run mem (if c then t else e) = if c then run mem t else run mem e :=
  apply_ite (run mem) c t e

@[simp] theorem run_cells (mem : Nat → β) (i n : Nat) :
    run mem (cells i n) = (List.range' i n).map mem := by
  induction n generalizing i with
  | zero => rfl
  | succ n ih =>
    unfold cells
    rw [run_bind, run_bind, ih]
    rfl

@[simp] theorem reads_cells (mem : Nat → β) (i n : Nat) :
    reads mem (cells i n) = List.range' i n := by
  induction n generalizing i with
  | zero => rfl
  | succ n ih =>
    unfold cells
    rw [reads_bind, reads_bind, ih, reads_pure, List.append_nil]
    rfl

/-! ## Where a program reads -/

def ReadsIn (mem : Nat → β) (P : Nat → Prop) (t : Access β α) : Prop := ∀ i ∈ reads mem t, P i

section

variable {mem : Nat → β} {P : Nat → Prop}

theorem readsIn_pure (a : α) : ReadsIn mem P (pure a : Access β α) ↔ True := by
  apply iff_true_intro
  intro i hi
  exact absurd hi List.not_mem_nil

theorem readsIn_cell (i : Nat) : ReadsIn mem P (cell i : Access β β) ↔ P i := by
  unfold ReadsIn
  rw [reads_cell, List.forall_mem_singleton]

theorem readsIn_cells (i n : Nat) :
    ReadsIn mem P (cells i n) ↔ ∀ j, i ≤ j → j < i + n → P j := by
  unfold ReadsIn
  rw [reads_cells]
  constructor
  · intro h j h1 h2
    exact h j (List.mem_range'_1.mpr ⟨h1, h2⟩)
  · intro h j hj
    obtain ⟨h1, h2⟩ := List.mem_range'_1.mp hj
    exact h j h1 h2

theorem readsIn_bind (t : Access β α) (f : α → Access β γ) :
    ReadsIn mem P (t >>= f) ↔ ReadsIn mem P t ∧ ReadsIn mem P (f (run mem t)) := by
  unfold ReadsIn
  rw [reads_bind, List.forall_mem_append]

theorem readsIn_ite {c : Prop} [Decidable c] (t e : Access β α) :
    ReadsIn mem P (if c then t else e) ↔
      (c → ReadsIn mem P t) ∧ (¬ c → ReadsIn mem P e) := by
  by_cases h : c
  · rw [if_pos h]
    exact ⟨fun ht => ⟨fun _ => ht, fun hn => absurd h hn⟩, fun hte => hte.1 h⟩
  · rw [if_neg h]
    exact ⟨fun he => ⟨fun hc => absurd hc h, fun _ => he⟩, fun hte => hte.2 h⟩

end

/-- **No other cell matters.** -/
theorem run_congr {mem mem' : Nat → β} (t : Access β α)
    (h : ReadsIn mem (fun i => mem' i = mem i) t) : run mem' t = run mem t := by
  induction t with
  | ret a => rfl
  | peek i k ih =>
    have hi : mem' i = mem i := h i List.mem_cons_self
    show run mem' (k (mem' i)) = run mem (k (mem i))
    rw [hi]
    exact ih (mem i) (fun j hj => h j (List.mem_cons_of_mem i hj))

end Access
