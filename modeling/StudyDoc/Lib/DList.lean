import Mathlib.Data.List.Basic
import Mathlib.Data.List.Nodup
import Mathlib.Logic.Function.Basic

/-!
# Doubly linked lists

Nodes of any type, `next` and `pre` their two pointers.  `Seg next pre prev l succ`: the nodes `l`
are linked in this order, `prev` before the first and `succ` behind the last.  `DList` is the case
of a whole list.

    Seg (l ++ l') = Seg l, linked to Seg l'                              (seg_append)
    popFront, pushBack, pushFront, unlinkLast, unlinkMiddle: the pointers written, the list after
-/

namespace Linked

variable {α : Type} {next pre : α → Option α}

def Seg (next pre : α → Option α) : Option α → List α → Option α → Prop
  | _, [], _ => True
  | prev, a :: l, succ => pre a = prev ∧ next a = l.head?.or succ ∧ Seg next pre (some a) l succ

theorem seg_append (l l' : List α) : ∀ prev succ, Seg next pre prev (l ++ l') succ ↔
    Seg next pre prev l (l'.head?.or succ) ∧ Seg next pre (l.getLast?.or prev) l' succ := by
  induction l with
  | nil =>
    intro prev succ
    simp [Seg]
  | cons a l ih =>
    intro prev succ
    have hlast : (a :: l).getLast?.or prev = l.getLast?.or (some a) := by
      rw [List.getLast?_cons]
      cases l.getLast? <;> rfl
    rw [List.cons_append, Seg, Seg, ih, hlast, List.head?_append, Option.or_assoc, and_assoc,
      and_assoc]

/-- Pointers of other nodes do not matter. -/
theorem Seg.frame {next' pre' : α → Option α} {l : List α} : ∀ {prev succ},
    Seg next pre prev l succ → (∀ x ∈ l, next' x = next x) → (∀ x ∈ l, pre' x = pre x) →
    Seg next' pre' prev l succ := by
  induction l with
  | nil =>
    intro prev succ _ _ _
    trivial
  | cons a l ih =>
    intro prev succ h hnext hpre
    obtain ⟨hp, hn, hrest⟩ := h
    rw [List.forall_mem_cons] at hnext hpre
    exact ⟨hpre.1.trans hp, hnext.1.trans hn, ih hrest hnext.2 hpre.2⟩

variable [DecidableEq α]

/-- A pointer of a node outside the list is none of its own. -/
theorem update_frame {l : List α} {a : α} (ha : a ∉ l) (f : α → Option α) (v : Option α) :
    ∀ x ∈ l, Function.update f a v x = f x := by
  intro x hx
  apply Function.update_of_ne
  rintro rfl
  exact ha hx

/-- Another node behind the segment: one pointer written. -/
theorem Seg.setSucc {l : List α} {b : α} {prev succ : Option α}
    (h : Seg next pre prev (l ++ [b]) succ) (hb : b ∉ l) (succ' : Option α) :
    Seg (Function.update next b succ') pre prev (l ++ [b]) succ' := by
  rw [seg_append] at h ⊢
  obtain ⟨hl, hp, -, -⟩ := h
  exact ⟨hl.frame (update_frame hb _ _) (fun _ _ => rfl), hp, Function.update_self .., trivial⟩

/-- Another node before the segment. -/
theorem Seg.setPrev {l : List α} {a : α} {prev succ : Option α}
    (h : Seg next pre prev (a :: l) succ) (ha : a ∉ l) (prev' : Option α) :
    Seg next (Function.update pre a prev') prev' (a :: l) succ := by
  obtain ⟨-, hn, hl⟩ := h
  exact ⟨Function.update_self .., hn, hl.frame (fun _ _ => rfl) (update_frame ha _ _)⟩

structure DList (next pre : α → Option α) (l : List α) : Prop where
  nodup : l.Nodup
  seg : Seg next pre none l none

namespace DList

omit [DecidableEq α] in
/-- The pointers of a node are its neighbours in the list. -/
theorem links {p q : List α} {a : α} (h : DList next pre (p ++ a :: q)) :
    next a = q.head? ∧ pre a = p.getLast? := by
  obtain ⟨-, hp, hn, -⟩ := (seg_append _ _ _ _).mp h.seg
  rw [Option.or_none] at hp hn
  exact ⟨hn, hp⟩

theorem popFront {a b : α} {l : List α} (h : DList next pre (a :: b :: l)) :
    DList next (Function.update pre b none) (b :: l) := by
  have hnd := h.nodup.of_cons
  obtain ⟨-, -, hl⟩ := h.seg
  exact ⟨hnd, hl.setPrev (List.nodup_cons.mp hnd).1 none⟩

theorem pushBack {l : List α} {a t : α} (h : DList next pre l) (ha : a ∉ l)
    (ht : l.getLast? = some t) :
    DList (Function.update (Function.update next t (some a)) a none)
      (Function.update pre a (some t)) (l ++ [a]) := by
  obtain ⟨l, rfl⟩ := List.getLast?_eq_some_iff.mp ht
  have htl : t ∉ l := fun hmem => (List.nodup_append.mp h.nodup).2.2 t hmem t (by simp) rfl
  refine ⟨?_, (seg_append _ _ _ _).mpr ⟨?_, ?_, ?_, trivial⟩⟩
  · rw [← List.concat_eq_append]
    exact List.Nodup.concat ha h.nodup
  · exact (h.seg.setSucc htl (some a)).frame (update_frame ha _ _) (update_frame ha _ _)
  · rw [ht]
    exact Function.update_self ..
  · exact Function.update_self ..

theorem pushFront {l : List α} {a c : α} (h : DList next pre l) (ha : a ∉ l)
    (hc : l.head? = some c) :
    DList (Function.update next a (some c))
      (Function.update (Function.update pre a none) c (some a)) (a :: l) := by
  obtain ⟨l, rfl⟩ := List.head?_eq_some_iff.mp hc
  have hac : a ≠ c := fun hac => ha (hac ▸ List.mem_cons_self)
  have hcl : c ∉ l := (List.nodup_cons.mp h.nodup).1
  refine ⟨List.nodup_cons.mpr ⟨ha, h.nodup⟩, ?_, Function.update_self .., ?_⟩
  · rw [Function.update_of_ne hac]
    exact Function.update_self ..
  · have hseg : Seg (Function.update next a (some c)) (Function.update pre a none) none
        (c :: l) none := h.seg.frame (update_frame ha _ _) (update_frame ha _ _)
    exact hseg.setPrev hcl (some a)

theorem unlinkLast {l : List α} {a b : α} (h : DList next pre (l ++ [a]))
    (hb : l.getLast? = some b) : DList (Function.update next b none) pre l := by
  obtain ⟨hl, -⟩ := (seg_append _ _ _ _).mp h.seg
  have hnd : l.Nodup := (List.nodup_append.mp h.nodup).1
  obtain ⟨l, rfl⟩ := List.getLast?_eq_some_iff.mp hb
  have hbl : b ∉ l := fun hmem => (List.nodup_append.mp hnd).2.2 b hmem b (by simp) rfl
  exact ⟨hnd, hl.setSucc hbl none⟩

theorem unlinkMiddle {l m : List α} {a b d : α} (h : DList next pre (l ++ a :: d :: m))
    (hb : l.getLast? = some b) :
    DList (Function.update next b (some d)) (Function.update pre d (some b)) (l ++ d :: m) := by
  obtain ⟨hl, -, -, hm⟩ := (seg_append _ _ _ _).mp h.seg
  have hnd : (l ++ d :: m).Nodup :=
    h.nodup.sublist ((List.Sublist.refl l).append (List.sublist_cons_self a (d :: m)))
  obtain ⟨hndl, hndm, hapart⟩ := List.nodup_append.mp hnd
  have hbm : b ∉ d :: m := fun hmem => hapart b (List.mem_of_getLast? hb) b hmem rfl
  have hdl : d ∉ l := fun hmem => hapart d hmem d List.mem_cons_self rfl
  refine ⟨hnd, (seg_append _ _ _ _).mpr ⟨?_, ?_⟩⟩
  · obtain ⟨l, rfl⟩ := List.getLast?_eq_some_iff.mp hb
    have hbl : b ∉ l := fun hmem => (List.nodup_append.mp hndl).2.2 b hmem b (by simp) rfl
    exact (hl.setSucc hbl (some d)).frame (fun _ _ => rfl) (update_frame hdl _ _)
  · rw [hb]
    have hd : d ∉ m := (List.nodup_cons.mp hndm).1
    exact (hm.setPrev hd (some b)).frame (update_frame hbm _ _) (fun _ _ => rfl)

end DList

end Linked
