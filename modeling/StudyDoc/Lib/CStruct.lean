import Mathlib.Data.List.Basic
import Mathlib.Tactic.Common

/-!
# C structures in memory

Each member of a structure goes to the next offset that its alignment allows; the structure ends at
a multiple of the largest alignment.  `places` are the offsets and sizes of the members:

    offset + size ≤ sizeof                                               (le_sizeof_of_mem_places)
    the first member is at offset 0                                      (places_head)
-/

namespace CStruct

/-! ## Definitions -/

structure Member where
  size : Nat
  align : Nat
  pos : 0 < align

/-! Arrays of numbers of 1, 2, 4 and 8 bytes. -/

def bytes (n : Nat) : Member := ⟨n, 1, Nat.one_pos⟩
def halfwords (n : Nat) : Member := ⟨2 * n, 2, Nat.zero_lt_succ 1⟩
def words (n : Nat) : Member := ⟨4 * n, 4, Nat.zero_lt_succ 3⟩
def longs (n : Nat) : Member := ⟨8 * n, 8, Nat.zero_lt_succ 7⟩

def roundUp (n align : Nat) : Nat := (n + align - 1) / align * align

/-- The offsets and sizes of members, the first of them at `n` or behind it. -/
def placesFrom (n : Nat) : List Member → List (Nat × Nat)
  | [] => []
  | m :: ms => (roundUp n m.align, m.size) :: placesFrom (roundUp n m.align + m.size) ms

/-- Where the last one ends. -/
def endFrom (n : Nat) : List Member → Nat
  | [] => n
  | m :: ms => endFrom (roundUp n m.align + m.size) ms

def places (ms : List Member) : List (Nat × Nat) := placesFrom 0 ms

def align (ms : List Member) : Nat := ms.foldr (fun m a => max m.align a) 1

def sizeof (ms : List Member) : Nat := roundUp (endFrom 0 ms) (align ms)

/-! ## Lemmas -/

theorem le_roundUp (n : Nat) {align : Nat} (h : 0 < align) : n ≤ roundUp n align := by
  have hdiv := Nat.div_add_mod (n + align - 1) align
  have hmod := Nat.mod_lt (n + align - 1) h
  have hcomm := Nat.mul_comm align ((n + align - 1) / align)
  unfold roundUp
  omega

theorem align_pos (ms : List Member) : 0 < align ms := by
  induction ms with
  | nil => exact Nat.one_pos
  | cons m ms ih => exact Nat.lt_of_lt_of_le m.pos (Nat.le_max_left _ _)

theorem le_endFrom (n : Nat) (ms : List Member) : n ≤ endFrom n ms := by
  induction ms generalizing n with
  | nil => exact Nat.le_refl n
  | cons m ms ih =>
    have hround := le_roundUp n m.pos
    have hrest := ih (roundUp n m.align + m.size)
    show n ≤ endFrom (roundUp n m.align + m.size) ms
    omega

theorem le_of_mem_placesFrom {n : Nat} {ms : List Member} {p : Nat × Nat}
    (h : p ∈ placesFrom n ms) : n ≤ p.1 ∧ p.1 + p.2 ≤ endFrom n ms := by
  induction ms generalizing n with
  | nil => cases h
  | cons m ms ih =>
    have hround := le_roundUp n m.pos
    show n ≤ p.1 ∧ p.1 + p.2 ≤ endFrom (roundUp n m.align + m.size) ms
    rcases List.mem_cons.mp h with rfl | hrest
    · exact ⟨hround, le_endFrom _ ms⟩
    · obtain ⟨hle, hend⟩ := ih hrest
      exact ⟨by omega, hend⟩

/-! ## Main results -/

theorem le_sizeof_of_mem_places {ms : List Member} {p : Nat × Nat} (h : p ∈ places ms) :
    p.1 + p.2 ≤ sizeof ms :=
  Nat.le_trans (le_of_mem_placesFrom h).2 (le_roundUp _ (align_pos ms))

/-- What comes first is at the address of the structure. -/
theorem places_head (m : Member) (ms : List Member) :
    (places (m :: ms)).head? = some (0, m.size) := by
  have hzero : roundUp 0 m.align = 0 := by
    have hpos := m.pos
    unfold roundUp
    rw [Nat.div_eq_of_lt (by omega), Nat.zero_mul]
  show some (roundUp 0 m.align, m.size) = _
  rw [hzero]

end CStruct
