import StudyDoc.Lib.CString
import StudyDoc.Lib.Decimal

/-!
# `msg_main.c` and `msg.c`: the arguments of `openfile`

`my_open` prints the descriptor and the mode into `char argsockfd[10], argmode[10]` and passes them
to `openfile`, which reads them back with `atoi`.  Nine characters fit, the longest `int` has eleven.

    openfile decodes what my_open encoded ↔ both numbers are in -99999999 .. 999999999
                                                                        (openfile_my_open_iff)

Of a longer number the last digits are missing: it is divided by a power of ten (atoi_encode).
-/

namespace StudyDoc.MsgArgs

open CString

/-! ## Algorithm -/

/-- `sizeof(argsockfd)` and `sizeof(argmode)`. -/
def ARGSIZE : Nat := 10

/-- `snprintf(arg, sizeof(arg), "%d", v)` -/
def encode (v : Int32) : List Char := snprintf ARGSIZE (Decimal.ofInt v.toInt)

/-- `my_open`: `argc` and `argv` of the `execl`. -/
def my_open (sockfd : Int32) (pathname : List Char) (mode : Int32) : List (List Char) :=
  ["openfile".toList, str (encode sockfd), pathname, str (encode mode)]

def isspace (c : Char) : Bool := c == ' ' || (9 ≤ c.toNat && c.toNat ≤ 13)

def LONG_MAX : Int := 9223372036854775807
def LONG_MIN : Int := -9223372036854775808

/-- `strtol(nptr, NULL, 10)`: white space is skipped, and a `long` is returned. -/
def strtol (nptr : List Char) : Int :=
  let n := Decimal.toInt (nptr.dropWhile isspace)
  if n < LONG_MIN then LONG_MIN else if LONG_MAX < n then LONG_MAX else n

/-- `(int) strtol(nptr, NULL, 10)` -/
def atoi (nptr : List Char) : Int32 := Int32.ofInt (strtol nptr)

/-- `main` of `openfile`: the arguments of `writefd` and `open`; `none` is the usage message. -/
def openfile : List (List Char) → Option (Int32 × List Char × Int32)
  | [_, argsockfd, pathname, argmode] => some (atoi argsockfd, pathname, atoi argmode)
  | _ => none

/-- The number has at most nine characters. -/
def Fits (v : Int32) : Prop := -99999999 ≤ v.toInt ∧ v.toInt ≤ 999999999

instance (v : Int32) : Decidable (Fits v) := inferInstanceAs (Decidable (_ ∧ _))

/-! ## Lemmas -/

theorem length_ofInt_toInt (v : Int32) : (Decimal.ofInt v.toInt).length ≤ 9 ↔ Fits v := by
  rw [Decimal.length_ofInt_le_iff v.toInt (by decide)]
  unfold Fits
  omega

theorem str_encode (v : Int32) : str (encode v) = (Decimal.ofInt v.toInt).take 9 := by
  refine str_snprintf (fun h => ?_) (by decide)
  rcases Decimal.mem_ofInt h with hc | hc
  · exact absurd hc (by decide)
  · exact absurd hc (by decide)

theorem isspace_of_mem_ofInt {v : Int} {c : Char} (h : c ∈ Decimal.ofInt v) :
    isspace c = false := by
  rcases Decimal.mem_ofInt h with rfl | hd
  · rfl
  · have hge : 48 ≤ c.toNat := (Char.isDigit_iff_toNat.mp hd).1
    have hne : c ≠ ' ' := by
      rintro rfl
      exact absurd hge (by decide)
    unfold isspace
    rw [beq_false_of_ne hne, Bool.false_or, Bool.and_eq_false_iff]
    exact Or.inr (decide_eq_false (by omega))

/-- No white space in front of the number. -/
theorem dropWhile_isspace_encode (v : Int32) :
    (str (encode v)).dropWhile isspace = str (encode v) := by
  rw [str_encode]
  cases hs : (Decimal.ofInt v.toInt).take 9 with
  | nil => rfl
  | cons c s =>
    have hmem : c ∈ Decimal.ofInt v.toInt := List.mem_of_mem_take (hs ▸ List.mem_cons_self)
    exact List.dropWhile_cons_of_neg (by rw [isspace_of_mem_ofInt hmem]; exact Bool.false_ne_true)

theorem atoi_of_int {nptr : List Char} {n : Int} (h : Decimal.toInt (nptr.dropWhile isspace) = n)
    (hlo : -2147483648 ≤ n) (hhi : n < 2147483648) : (atoi nptr).toInt = n := by
  have hmin : LONG_MIN < -2147483648 := by decide
  have hmax : 2147483648 < LONG_MAX := by decide
  have hlong : strtol nptr = n := by
    unfold strtol
    rw [h]
    dsimp only
    rw [if_neg (by omega), if_neg (by omega)]
  unfold atoi
  rw [hlong, Int32.toInt_ofInt_of_le (by omega) (by omega)]

/-- What is read back: the number without the digits that did not fit. -/
theorem atoi_encode (v : Int32) : (atoi (str (encode v))).toInt =
    v.toInt.tdiv (10 ^ ((Decimal.ofInt v.toInt).length - 9)) := by
  have hlo := v.le_toInt
  have hhi := v.toInt_lt
  have hpow : (0 : Int) ≤ 10 ^ ((Decimal.ofInt v.toInt).length - 9) := Int.pow_nonneg (by decide)
  have hle := Int.natAbs_tdiv_le_natAbs v.toInt (10 ^ ((Decimal.ofInt v.toInt).length - 9))
  have hsign : v.toInt ≤ 0 → v.toInt.tdiv (10 ^ ((Decimal.ofInt v.toInt).length - 9)) ≤ 0 := by
    intro hneg
    have hnn := Int.tdiv_nonneg (Int.neg_nonneg_of_nonpos hneg) hpow
    rw [Int.neg_tdiv] at hnn
    omega
  refine atoi_of_int ?_ (by omega) (by omega)
  rw [dropWhile_isspace_encode, str_encode, Decimal.toInt_take_ofInt]

theorem atoi_encode_eq_iff (v : Int32) : atoi (str (encode v)) = v ↔ Fits v := by
  rw [← Int32.toInt_inj, atoi_encode, ← Decimal.toInt_take_ofInt,
    Decimal.toInt_take_ofInt_iff v.toInt (by decide), length_ofInt_toInt]

/-! ## Main result -/

/-- `openfile` gets the descriptor and the mode that `my_open` was given. -/
theorem openfile_my_open_iff (sockfd : Int32) (pathname : List Char) (mode : Int32) :
    openfile (my_open sockfd pathname mode) = some (sockfd, pathname, mode) ↔
      Fits sockfd ∧ Fits mode := by
  rw [← atoi_encode_eq_iff, ← atoi_encode_eq_iff]
  unfold openfile my_open
  simp only [Option.some.injEq, Prod.mk.injEq, true_and]

/-- Ten digits. -/
theorem openfile_my_open_ne :
    openfile (my_open 3 [] 1000000000) = some (3, [], 100000000) ∧
      openfile (my_open 3 [] 1000000000) ≠ some (3, [], 1000000000) := by
  decide

end StudyDoc.MsgArgs
