import Mathlib.Data.List.TakeWhile
import Mathlib.Tactic.Common

/-!
# Formatted output into a fixed buffer

A C string is what stands before the first NUL.  `snprintf` stores at most `size - 1` characters of
the text and a NUL behind them; its result is the length of the whole text.

    str (snprintf size text) = text.take (size - 1)                          (str_snprintf)
    bytes stored = min (length of the text + 1) size                         (length_snprintf)
-/

namespace CString

/-! ## Definitions -/

def NUL : Char := Char.ofNat 0

/-- The string in a buffer. -/
def str (buf : List Char) : List Char := buf.takeWhile (· ≠ NUL)

/-- What is stored at the front of the buffer. -/
def snprintf (size : Nat) (text : List Char) : List Char :=
  if size = 0 then [] else text.take (size - 1) ++ [NUL]

def INT_MAX : Nat := 2147483647

/-- What is returned: -1 if the length is not an `int`. -/
def printed (text : List Char) : Int := if text.length ≤ INT_MAX then text.length else -1

/-! ## Main results -/

theorem str_append_nul {text : List Char} (h : NUL ∉ text) (rest : List Char) :
    str (text ++ NUL :: rest) = text := by
  have hall : ∀ c ∈ text, decide (c ≠ NUL) = true := by
    rintro c hc
    exact decide_eq_true fun heq => h (heq ▸ hc)
  unfold str
  rw [List.takeWhile_append, List.takeWhile_eq_self_iff.mpr hall, if_pos rfl,
    List.takeWhile_cons_of_neg (by simp), List.append_nil]

theorem str_snprintf {text : List Char} (h : NUL ∉ text) {size : Nat} (hs : 0 < size) :
    str (snprintf size text) = text.take (size - 1) := by
  unfold snprintf
  rw [if_neg (Nat.ne_of_gt hs)]
  exact str_append_nul (fun hm => h (List.mem_of_mem_take hm)) []

theorem length_snprintf (size : Nat) (text : List Char) :
    (snprintf size text).length = min (text.length + 1) size := by
  unfold snprintf
  split
  · next h => rw [h, Nat.min_zero, List.length_nil]
  · rw [List.length_append, List.length_take, List.length_singleton]
    omega

theorem snprintf_of_length_lt {size : Nat} {text : List Char} (h : text.length < size) :
    snprintf size text = text ++ [NUL] := by
  unfold snprintf
  rw [if_neg (by omega), List.take_of_length_le (by omega)]

end CString
