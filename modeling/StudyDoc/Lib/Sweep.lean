import Mathlib.Data.List.Basic
import Mathlib.Tactic.Common

/-!
# Erasing while iterating

A cursor runs over a list; the item under it is kept, and the cursor moves on, or it is erased, and
the cursor stays.  `At entries reached l i`: the list was `entries` at the start and is `l` now, the
cursor is at `i`, and `reached` are the items it came to, each with whether it was kept.

    reached ++ items from the cursor on = entries
    items before the cursor = kept reached                               (At.keep, At.erase)
    cursor at the end: reached = entries, l = kept reached               (At.finish)
-/

namespace Sweep

variable {α : Type}

def kept (reached : List (α × Bool)) : List α := (reached.filter Prod.snd).map Prod.fst

structure At (entries : List α) (reached : List (α × Bool)) (l : List α) (i : Nat) : Prop where
  ahead : reached.map Prod.fst ++ l.drop i = entries
  behind : l.take i = kept reached
  le : i ≤ l.length

theorem kept_concat_true (reached : List (α × Bool)) (x : α) :
    kept (reached ++ [(x, true)]) = kept reached ++ [x] := by
  unfold kept
  rw [List.filter_append, List.map_append]
  rfl

theorem kept_concat_false (reached : List (α × Bool)) (x : α) :
    kept (reached ++ [(x, false)]) = kept reached := by
  unfold kept
  rw [List.filter_append, List.map_append]
  exact List.append_nil _

theorem drop_at {l : List α} {i : Nat} {x : α} (hx : l[i]? = some x) :
    l.drop i = x :: l.drop (i + 1) := by
  obtain ⟨hi, hget⟩ := List.getElem?_eq_some_iff.mp hx
  rw [List.drop_eq_getElem_cons hi, hget]

/-- The list around the item at `i`. -/
theorem split_at {l : List α} {i : Nat} {x : α} (hx : l[i]? = some x) :
    l = l.take i ++ x :: l.drop (i + 1) ∧ l.eraseIdx i = l.take i ++ l.drop (i + 1) := by
  refine ⟨?_, List.eraseIdx_eq_take_drop_succ l i⟩
  rw [← drop_at hx, List.take_append_drop]

namespace At

variable {entries : List α} {reached : List (α × Bool)} {l : List α} {i : Nat} {x : α}

theorem start (l : List α) : At l [] l 0 := ⟨rfl, rfl, Nat.zero_le _⟩

theorem reached_length (h : At entries reached l i) : reached.length ≤ entries.length := by
  rw [← h.ahead, List.length_append, List.length_map]
  exact Nat.le_add_right _ _

theorem keep (h : At entries reached l i) (hx : l[i]? = some x) :
    At entries (reached ++ [(x, true)]) l (i + 1) := by
  obtain ⟨hi, -⟩ := List.getElem?_eq_some_iff.mp hx
  refine ⟨?_, ?_, hi⟩
  · rw [List.map_append, List.append_assoc, ← h.ahead, drop_at hx]
    rfl
  · rw [List.take_add_one, hx, h.behind, kept_concat_true]
    rfl

theorem erase (h : At entries reached l i) (hx : l[i]? = some x) :
    At entries (reached ++ [(x, false)]) (l.eraseIdx i) i := by
  have hlen : (l.take i).length = i := List.length_take_of_le h.le
  rw [(split_at hx).2]
  refine ⟨?_, ?_, ?_⟩
  · rw [List.map_append, List.append_assoc, ← h.ahead, drop_at hx, List.drop_left' hlen]
    rfl
  · rw [List.take_left' hlen, h.behind, kept_concat_false]
  · rw [List.length_append, hlen]
    exact Nat.le_add_right _ _

/-- **The end.**  Every entry has been reached, in order, and those kept are what is left. -/
theorem finish (h : At entries reached l l.length) :
    reached.map Prod.fst = entries ∧ l = kept reached := by
  have hahead := h.ahead
  have hbehind := h.behind
  rw [List.drop_length, List.append_nil] at hahead
  rw [List.take_length] at hbehind
  exact ⟨hahead, hbehind⟩

end At

/-- Erasing an item that `p` does not want leaves those that it does. -/
theorem filter_eraseIdx {p : α → Bool} {l : List α} {i : Nat} {x : α} (hx : l[i]? = some x)
    (hp : p x = false) : (l.eraseIdx i).filter p = l.filter p := by
  obtain ⟨hl, herase⟩ := split_at hx
  calc (l.eraseIdx i).filter p
    _ = (l.take i).filter p ++ (l.drop (i + 1)).filter p := by rw [herase, List.filter_append]
    _ = (l.take i).filter p ++ (x :: l.drop (i + 1)).filter p := by
      rw [List.filter_cons_of_neg (by rw [hp]; exact Bool.false_ne_true)]
    _ = l.filter p := by rw [← List.filter_append, ← hl]

end Sweep
