import Mathlib.Data.List.Basic

/-!
# What the system calls hand back

`errno` values are the Linux numbers.  `Read cap` is one result of `read(fd, buf, cap)`:
the kernel never stores more than `cap` bytes, so the bound is part of the result.
`Buf cap` is the content of a `char buf[cap]`; `Read.store` is what the call leaves in it.
`Feed rs s`: the results `rs`, one call after the other, are those of a file that holds `s`.
-/

namespace StudyDoc

abbrev Errno := Int

def EINTR : Errno := 4
def ECONNRESET : Errno := 104

/-- A `char` array of `cap` bytes. -/
abbrev Buf (cap : Nat) := { l : List UInt8 // l.length = cap }

inductive Read (cap : Nat) where
  | data (bytes : List UInt8) (pos : 0 < bytes.length) (le : bytes.length ≤ cap)
  | eof
  | fail (e : Errno)

namespace Read

variable {cap : Nat}

/-- The `ssize_t` the call returns. -/
def ret : Read cap → Int
  | data bytes _ _ => bytes.length
  | eof => 0
  | fail _ => -1

/-- The bytes the call stored. -/
def bytes : Read cap → List UInt8
  | data bytes _ _ => bytes
  | eof => []
  | fail _ => []

theorem bytes_length_le (r : Read cap) : r.bytes.length ≤ cap := by
  cases r with
  | data bytes _ le => exact le
  | eof => exact Nat.zero_le _
  | fail _ => exact Nat.zero_le _

/-- The bytes read overwrite the front of the buffer; what lies behind them stays. -/
def store (r : Read cap) (buf : Buf cap) : Buf cap :=
  ⟨r.bytes ++ buf.1.drop r.bytes.length, by
    have h := buf.2
    have hle := r.bytes_length_le
    simp only [List.length_append, List.length_drop]
    omega⟩

@[simp] theorem store_val (r : Read cap) (buf : Buf cap) :
    (r.store buf).1 = r.bytes ++ buf.1.drop r.bytes.length := rfl

theorem store_take (r : Read cap) (buf : Buf cap) :
    (r.store buf).1.take r.bytes.length = r.bytes := by
  simp

/-- What a failed call leaves in `errno`. -/
def errno : Read cap → Errno
  | fail e => e
  | _ => 0

def failed : Read cap → Bool
  | fail _ => true
  | _ => false

/-- The call failed with `EINTR`. -/
def interrupted : Read cap → Bool
  | fail e => e == EINTR
  | _ => false

end Read

/-- The results `rs` cut up the byte stream `s`, with signals in between; then end of file. -/
inductive Feed {cap : Nat} : List (Read cap) → List UInt8 → Prop
  | nil : Feed [] []
  | eof {rs : List (Read cap)} : Feed rs [] → Feed (.eof :: rs) []
  | intr {rs : List (Read cap)} {s : List UInt8} : Feed rs s → Feed (.fail EINTR :: rs) s
  | data {rs : List (Read cap)} {s bytes : List UInt8} (pos : 0 < bytes.length)
      (le : bytes.length ≤ cap) : Feed rs s → Feed (.data bytes pos le :: rs) (bytes ++ s)

end StudyDoc
