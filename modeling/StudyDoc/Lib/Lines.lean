import Mathlib.Data.List.Basic

/-!
# Lines with a length limit

`p` says which items end a line.  `takePiece p m l` is the first line of `l` or, where that is
longer, its first `m` items; `pieces p m l` is `l` cut up in this way.

    takePiece p m l ++ dropPiece p m l = l                               (takePiece_append)
    (pieces p m l).flatten = l  for  0 < m                               (flatten_pieces)
-/

namespace Lines

variable {α : Type} (p : α → Bool)

def takePiece : Nat → List α → List α
  | 0, _ => []
  | _ + 1, [] => []
  | m + 1, a :: l => a :: if p a then [] else takePiece m l

def dropPiece (m : Nat) (l : List α) : List α := l.drop (takePiece p m l).length

@[simp] theorem takePiece_zero (l : List α) : takePiece p 0 l = [] := by
  unfold takePiece
  rfl

@[simp] theorem takePiece_nil (m : Nat) : takePiece p m [] = [] := by
  cases m <;> rfl

theorem takePiece_last {a : α} (h : p a = true) (m : Nat) (l : List α) :
    takePiece p (m + 1) (a :: l) = [a] := by
  unfold takePiece
  rw [if_pos h]

theorem takePiece_cons {a : α} (h : p a = false) (m : Nat) (l : List α) :
    takePiece p (m + 1) (a :: l) = a :: takePiece p m l := by
  show (a :: if p a then [] else takePiece p m l) = _
  rw [h]
  rfl

theorem takePiece_append (m : Nat) (l : List α) : takePiece p m l ++ dropPiece p m l = l := by
  unfold dropPiece
  induction m generalizing l with
  | zero => simp
  | succ m ih =>
    cases l with
    | nil => simp
    | cons a l =>
      cases ha : p a with
      | true => simp [takePiece_last p ha]
      | false => simpa [takePiece_cons p ha] using ih l

theorem takePiece_length_le (m : Nat) (l : List α) : (takePiece p m l).length ≤ m := by
  induction m generalizing l with
  | zero => simp
  | succ m ih =>
    cases l with
    | nil => simp
    | cons a l =>
      cases ha : p a with
      | true => simp [takePiece_last p ha]
      | false => simpa [takePiece_cons p ha] using ih l

theorem takePiece_eq_nil_iff (m : Nat) (l : List α) :
    takePiece p m l = [] ↔ m = 0 ∨ l = [] := by
  cases m with
  | zero => simp
  | succ m =>
    cases l with
    | nil => simp
    | cons a l => simp [takePiece]

theorem takePiece_of_forall (m : Nat) {l : List α} (h : ∀ a ∈ l, p a = false) :
    takePiece p m l = l.take m := by
  induction m generalizing l with
  | zero => simp
  | succ m ih =>
    cases l with
    | nil => simp
    | cons a l =>
      rw [List.forall_mem_cons] at h
      rw [takePiece_cons p h.1, List.take_succ_cons, ih h.2]

/-- Only the last item of a piece can end a line. -/
theorem takePiece_inner (m : Nat) (l : List α) :
    ∀ x ∈ (takePiece p m l).dropLast, p x = false := by
  induction m generalizing l with
  | zero => simp
  | succ m ih =>
    cases l with
    | nil => simp
    | cons a l =>
      cases ha : p a with
      | true => simp [takePiece_last p ha]
      | false =>
        rw [takePiece_cons p ha]
        intro x hx
        by_cases hnil : takePiece p m l = []
        · simp [hnil] at hx
        · rw [List.dropLast_cons_of_ne_nil hnil, List.mem_cons] at hx
          rcases hx with rfl | hx
          · exact ha
          · exact ih l x hx

/-- The piece ends a line, or has all the items it may have. -/
def Full (m : Nat) (x : List α) : Prop := x.getLast?.any p = true ∨ x.length = m

/-- A piece with something behind it is full. -/
theorem takePiece_full (m : Nat) (l : List α) (h : dropPiece p m l ≠ []) :
    Full p m (takePiece p m l) := by
  induction m generalizing l with
  | zero => exact Or.inr rfl
  | succ m ih =>
    cases l with
    | nil => simp [dropPiece] at h
    | cons a l =>
      cases ha : p a with
      | true =>
        rw [takePiece_last p ha]
        exact Or.inl ha
      | false =>
        have hrest : dropPiece p m l ≠ [] := by simpa [dropPiece, takePiece_cons p ha] using h
        rw [takePiece_cons p ha]
        rcases ih l hrest with hend | hlen
        · refine Or.inl ?_
          cases hlast : (takePiece p m l).getLast? with
          | none =>
            rw [hlast] at hend
            cases hend
          | some b =>
            rw [List.getLast?_cons, hlast]
            rw [hlast] at hend
            exact hend
        · exact Or.inr (congrArg Nat.succ hlen)

theorem dropPiece_length_lt (m : Nat) (l : List α) (h : takePiece p m l ≠ []) :
    (dropPiece p m l).length < l.length := by
  have happend := congrArg List.length (takePiece_append p m l)
  have hpos := List.length_pos_of_ne_nil h
  rw [List.length_append] at happend
  omega

def pieces (m : Nat) (l : List α) : List (List α) :=
  if _h : (takePiece p m l).isEmpty then []
  else takePiece p m l :: pieces m (dropPiece p m l)
termination_by l.length
decreasing_by exact dropPiece_length_lt p m l (by simpa using _h)

theorem pieces_eq_nil {m : Nat} {l : List α} (h : takePiece p m l = []) : pieces p m l = [] := by
  unfold pieces
  rw [dif_pos (by simp [h])]

theorem pieces_cons {m : Nat} {l : List α} (h : takePiece p m l ≠ []) :
    pieces p m l = takePiece p m l :: pieces p m (dropPiece p m l) := by
  rw [pieces, dif_neg (by simpa using h)]

/-- The rule for a fact about all the pieces: one for each cut. -/
theorem pieces_induction {m : Nat} {P : List α → Prop} (hnil : ∀ l, takePiece p m l = [] → P l)
    (hcons : ∀ l, takePiece p m l ≠ [] → P (dropPiece p m l) → P l) (l : List α) : P l := by
  by_cases h : takePiece p m l = []
  · exact hnil l h
  · exact hcons l h (pieces_induction hnil hcons (dropPiece p m l))
termination_by l.length
decreasing_by exact dropPiece_length_lt p m l h

theorem flatten_pieces {m : Nat} (hm : 0 < m) (l : List α) : (pieces p m l).flatten = l := by
  induction l using pieces_induction p (m := m) with
  | hnil l h =>
    rw [pieces_eq_nil p h]
    have := (takePiece_eq_nil_iff p m l).mp h
    rcases this with hzero | rfl
    · omega
    · rfl
  | hcons l h ih => rw [pieces_cons p h, List.flatten_cons, ih, takePiece_append]

/-- What holds of every cut holds of all the pieces. -/
theorem forall_mem_pieces {m : Nat} {P : List α → Prop} (hP : ∀ l, P (takePiece p m l))
    (l : List α) : ∀ x ∈ pieces p m l, P x := by
  induction l using pieces_induction p (m := m) with
  | hnil l h => simp [pieces_eq_nil p h]
  | hcons l h ih =>
    rw [pieces_cons p h]
    intro x hx
    rcases List.mem_cons.mp hx with rfl | hx
    · exact hP l
    · exact ih x hx

theorem length_le_of_mem_pieces {m : Nat} (l : List α) : ∀ x ∈ pieces p m l, x.length ≤ m :=
  forall_mem_pieces p (takePiece_length_le p m) l

theorem inner_of_mem_pieces {m : Nat} (l : List α) :
    ∀ x ∈ pieces p m l, ∀ a ∈ x.dropLast, p a = false :=
  forall_mem_pieces p (takePiece_inner p m) l

/-- All the pieces but the last are full. -/
theorem full_of_mem_pieces {m : Nat} (l : List α) : ∀ x ∈ (pieces p m l).dropLast, Full p m x := by
  induction l using pieces_induction p (m := m) with
  | hnil l h => simp [pieces_eq_nil p h]
  | hcons l h ih =>
    rw [pieces_cons p h]
    intro x hx
    by_cases hlast : pieces p m (dropPiece p m l) = []
    · simp [hlast] at hx
    · rw [List.dropLast_cons_of_ne_nil hlast] at hx
      rcases List.mem_cons.mp hx with rfl | hx
      · apply takePiece_full p m l
        intro hnil
        rw [hnil] at hlast
        exact hlast (pieces_eq_nil p (takePiece_nil p m))
      · exact ih x hx

end Lines
