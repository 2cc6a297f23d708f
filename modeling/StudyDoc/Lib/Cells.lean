import Mathlib.Logic.Function.Basic

/-!
# Programs on an array

`Cells α β` reads and writes cells of type `α` by their index and yields a `β`, or fails; `used`
are the indices it used, in order.  `Meets P m t Q`: from the cells `m`, `t` uses indices that
satisfy `P` only, does not fail, and ends with `Q`.  There is one rule for each way to build a
program, and for a loop

    I lo m  →  (every turn i takes I i to I (i + 1))  →  I hi at the end            (meets_loop)
-/

namespace Cells

/-- What a program comes to; a program that fails has no value. -/
structure Outcome (α β : Type) where
  value : Option β
  mem : Nat → α
  used : List Nat

end Cells

def Cells (α β : Type) : Type := (Nat → α) → Cells.Outcome α β

namespace Cells

variable {α β γ : Type}

instance : Monad (Cells α) where
  pure b := fun m => ⟨some b, m, []⟩
  bind t f := fun m =>
    let o := t m
    match o.value with
    | some b =>
      let o' := f b o.mem
      ⟨o'.value, o'.mem, o.used ++ o'.used⟩
    | none => ⟨none, o.mem, o.used⟩

def read (i : Nat) : Cells α α := fun m => ⟨some (m i), m, [i]⟩

def write (i : Nat) (a : α) : Cells α Unit := fun m => ⟨some (), Function.update m i a, [i]⟩

def fail : Cells α β := fun m => ⟨none, m, []⟩

/-- `for(i = lo; i < lo + n; i++)` -/
def loop : Nat → Nat → (Nat → Cells α Unit) → Cells α Unit
  | _, 0, _ => pure ()
  | lo, n + 1, body => do
    body lo
    loop (lo + 1) n body

def Meets (P : Nat → Prop) (m : Nat → α) (t : Cells α β) (Q : β → (Nat → α) → Prop) : Prop :=
  (∀ i ∈ (t m).used, P i) ∧ ∃ b, (t m).value = some b ∧ Q b (t m).mem

variable {P : Nat → Prop} {m : Nat → α} {t : Cells α β} {Q Q' : β → (Nat → α) → Prop}

theorem Meets.weaken (h : Meets P m t Q) (hq : ∀ b m', Q b m' → Q' b m') : Meets P m t Q' := by
  obtain ⟨hused, b, hvalue, hb⟩ := h
  exact ⟨hused, b, hvalue, hq _ _ hb⟩

theorem Meets.mono {P' : Nat → Prop} (h : Meets P m t Q) (hp : ∀ i, P i → P' i) :
    Meets P' m t Q :=
  ⟨fun i hi => hp i (h.1 i hi), h.2⟩

theorem meets_pure {b : β} (h : Q b m) : Meets P m (pure b) Q :=
  ⟨fun _ hi => absurd hi List.not_mem_nil, b, rfl, h⟩

theorem Meets.bind {f : β → Cells α γ} {R : γ → (Nat → α) → Prop} (h : Meets P m t Q)
    (hf : ∀ b m', Q b m' → Meets P m' (f b) R) : Meets P m (t >>= f) R := by
  obtain ⟨hused, b, hvalue, hb⟩ := h
  obtain ⟨hused', c, hvalue', hc⟩ := hf _ _ hb
  have hrun : (t >>= f) m =
      ⟨(f b (t m).mem).value, (f b (t m).mem).mem, (t m).used ++ (f b (t m).mem).used⟩ := by
    show (match (t m).value with
      | some b => Outcome.mk (f b (t m).mem).value (f b (t m).mem).mem
          ((t m).used ++ (f b (t m).mem).used)
      | none => ⟨none, (t m).mem, (t m).used⟩) = _
    rw [hvalue]
  unfold Meets
  rw [hrun]
  exact ⟨List.forall_mem_append.mpr ⟨hused, hused'⟩, c, hvalue', hc⟩

theorem meets_read {i : Nat} {f : α → Cells α γ} {R : γ → (Nat → α) → Prop} (hi : P i)
    (hf : Meets P m (f (m i)) R) : Meets P m (read i >>= f) R :=
  Meets.bind (Q := fun b m' => b = m i ∧ m' = m)
    ⟨List.forall_mem_singleton.mpr hi, m i, rfl, rfl, rfl⟩ fun _ _ h => h.1 ▸ h.2 ▸ hf

theorem meets_write {i : Nat} {a : α} {R : Unit → (Nat → α) → Prop} (hi : P i)
    (h : R () (Function.update m i a)) : Meets P m (write i a) R :=
  ⟨List.forall_mem_singleton.mpr hi, (), rfl, h⟩

theorem meets_ite {c : Prop} [Decidable c] {e : Cells α β} (ht : c → Meets P m t Q)
    (he : ¬ c → Meets P m e Q) : Meets P m (if c then t else e) Q := by
  split
  · rename_i h
    exact ht h
  · rename_i h
    exact he h

/-- The rule for a loop; `I i` holds before the turn `i`. -/
theorem meets_loop {body : Nat → Cells α Unit} {I : Nat → (Nat → α) → Prop} {lo n : Nat}
    (h0 : I lo m)
    (hs : ∀ i m, lo ≤ i → i < lo + n → I i m → Meets P m (body i) fun _ m' => I (i + 1) m') :
    Meets P m (loop lo n body) fun _ m' => I (lo + n) m' := by
  induction n generalizing lo m with
  | zero => exact meets_pure h0
  | succ n ih =>
    refine (hs lo m (Nat.le_refl lo) (by omega) h0).bind fun _ m' h1 => ?_
    have hrest := ih h1 fun i m hlo hi => hs i m (by omega) (by omega)
    rwa [show lo + 1 + n = lo + (n + 1) by omega] at hrest

end Cells
