import Mathlib.Data.List.Basic
import Mathlib.Data.List.Nodup
import Mathlib.Logic.Function.Basic
import Mathlib.Tactic.Common

/-!
# Free lists

Nodes of any type, one of them null; `next` is what each node holds.  `Chain null next p l`: from
the pointer `p` one comes to the nodes `l`, in this order, and then to null.

    Chain next p l  →  Chain next p l'  →  l = l'                                  (Chain.unique)
    next and next' agree on l  →  Chain next p l  →  Chain next' p l               (Chain.frame)

A node can be put in front (Chain.push) or behind the last one (Chain.concat).
A block that is cut into nodes is such a list once each of them holds the next one (Chain.of_links).
Of many lists, the nodes of all grow by those that one of them gets (perm_flatMap_update).
-/

namespace FreeList

variable {α : Type} {null p : α} {next next' : α → α} {l l' : List α}

def Chain (null : α) (next : α → α) : α → List α → Prop
  | p, [] => p = null
  | p, a :: l => p = a ∧ a ≠ null ∧ Chain null next (next a) l

theorem Chain.frame (h : Chain null next p l) (heq : ∀ a ∈ l, next' a = next a) :
    Chain null next' p l := by
  induction l generalizing p with
  | nil => exact h
  | cons a l ih =>
    obtain ⟨rfl, hne, hrest⟩ := h
    rw [List.forall_mem_cons] at heq
    refine ⟨rfl, hne, ?_⟩
    rw [heq.1]
    exact ih hrest heq.2

theorem Chain.nil_of_null (h : Chain null next p l) (hp : p = null) : l = [] := by
  cases l with
  | nil => rfl
  | cons a l => exact absurd (h.1.symm.trans hp) h.2.1

theorem Chain.cons_of_ne (h : Chain null next p l) (hp : p ≠ null) :
    ∃ rest, l = p :: rest ∧ Chain null next (next p) rest := by
  cases l with
  | nil => exact absurd h hp
  | cons a l =>
    obtain ⟨rfl, -, hrest⟩ := h
    exact ⟨l, rfl, hrest⟩

theorem Chain.notMem (h : Chain null next p l) : null ∉ l := by
  induction l generalizing p with
  | nil => exact List.not_mem_nil
  | cons a l ih =>
    obtain ⟨-, hne, hrest⟩ := h
    exact List.not_mem_cons_of_ne_of_not_mem (Ne.symm hne) (ih hrest)

theorem Chain.unique (h : Chain null next p l) (h' : Chain null next p l') : l = l' := by
  induction l generalizing p l' with
  | nil => exact (h'.nil_of_null h).symm
  | cons a l ih =>
    obtain ⟨rfl, hne, hrest⟩ := h
    obtain ⟨rest, rfl, hrest'⟩ := h'.cons_of_ne hne
    rw [ih hrest hrest']

/-- A node put in front. -/
theorem Chain.push [DecidableEq α] {a : α} (h : Chain null next p l) (hne : a ≠ null)
    (ha : a ∉ l) : Chain null (Function.update next a p) a (a :: l) := by
  refine ⟨rfl, hne, ?_⟩
  rw [Function.update_self]
  exact h.frame fun b hb => Function.update_of_ne (ne_of_mem_of_not_mem hb ha) _ _

/-- A node put behind the last one. -/
theorem Chain.concat [DecidableEq α] {a t : α} (h : Chain null next p l) (hnd : l.Nodup)
    (hne : a ≠ null) (ha : a ∉ l) (ht : l.getLast? = some t) :
    Chain null (Function.update (Function.update next a null) t a) p (l ++ [a]) := by
  induction l generalizing p with
  | nil => cases ht
  | cons b l ih =>
    obtain ⟨rfl, hb, hrest⟩ := h
    obtain ⟨hbl, hnd⟩ := List.nodup_cons.mp hnd
    obtain ⟨hab, hal⟩ := List.ne_and_not_mem_of_not_mem_cons ha
    refine ⟨rfl, hb, ?_⟩
    cases l with
    | nil =>
      obtain rfl : p = t := Option.some.inj ht
      rw [Function.update_self]
      refine ⟨rfl, hne, ?_⟩
      rw [Function.update_of_ne hab, Function.update_self]
      rfl
    | cons c l =>
      rw [List.getLast?_cons_cons] at ht
      have htp : p ≠ t := by
        rintro rfl
        exact hbl (List.mem_of_getLast? ht)
      rw [Function.update_of_ne htp, Function.update_of_ne (Ne.symm hab)]
      exact ih hrest hnd hal ht

/-- The nodes `node 0`, …, `node n`, each of which holds the next one. -/
theorem Chain.of_links (node : Nat → α) (n : Nat) (hne : ∀ k ≤ n, node k ≠ null)
    (hlink : ∀ k < n, next (node k) = node (k + 1)) (hend : next (node n) = null) :
    Chain null next (node 0) ((List.range (n + 1)).map node) := by
  induction n generalizing node with
  | zero => exact ⟨rfl, hne 0 (Nat.le_refl 0), hend⟩
  | succ n ih =>
    rw [List.range_succ_eq_map, List.map_cons, List.map_map]
    refine ⟨rfl, hne 0 (Nat.zero_le _), ?_⟩
    rw [hlink 0 (Nat.succ_pos n)]
    exact ih (fun k => node (k + 1)) (fun k hk => hne (k + 1) (by omega))
      (fun k hk => hlink (k + 1) (by omega)) hend

theorem perm_flatMap_update {ι β : Type} [DecidableEq ι] (f : ι → List β) (i : ι) (l : List β)
    {is : List ι} (hnd : is.Nodup) (hi : i ∈ is) :
    (is.flatMap (Function.update f i (l ++ f i))).Perm (l ++ is.flatMap f) := by
  induction is with
  | nil => cases hi
  | cons j is ih =>
    obtain ⟨hj, hnd⟩ := List.nodup_cons.mp hnd
    rw [List.flatMap_cons, List.flatMap_cons]
    by_cases hij : j = i
    · subst hij
      have hrest : is.flatMap (Function.update f j (l ++ f j)) = is.flatMap f := by
        apply List.flatMap_congr
        intro k hk
        apply Function.update_of_ne
        rintro rfl
        exact hj hk
      rw [hrest, Function.update_self, List.append_assoc]
    · rw [Function.update_of_ne hij]
      have hmem : i ∈ is := (List.mem_cons.mp hi).resolve_left (Ne.symm hij)
      exact ((ih hnd hmem).append_left (f j)).trans (List.perm_append_comm_assoc _ _ _)

end FreeList
