import StudyDoc.Lib.Transition
import Mathlib.Data.List.Basic
import Mathlib.Data.List.Induction
import Mathlib.Tactic.Common

/-!
# `linux-c-dev/3/实验总结.md`: the driver `scull` and its buffer of 6 bytes

The count of a call comes from the user and goes unchecked into the copy.  With the kernel's memory
counted from `dev->buf` on:

    i < 6  →  mem i = the byte i of the last write, or 0       in every state    (reachable_holds)
    the state after a call is lawful  ↔  its count is at most 6                  (lawful_step)

so a sequence of calls stays lawful exactly if no count is above 6 (scull_lawful_iff); behind that,
a write goes on in the object behind the buffer (scull_write_behind).
-/

namespace StudyDoc.Scull

open Transition

/-! ## Algorithm -/

def SCULL_QUANTUM : Int := 4000

def SCULL_QSET : Int := 1000

/-- `sizeof dev->buf` -/
def BUF : Nat := 6

/-- A `long` in an `int`. -/
def toInt (n : Int) : Int := n.bmod 4294967296

/-- `itemsize`, `item`, `rest`, `s_pos` and `q_pos`, which are printed; `quantum` and `qset` are
what the module was loaded with. -/
def positions (f_pos : Int) : List Int :=
  let quantum := SCULL_QUANTUM
  let qset := SCULL_QSET
  let itemsize := quantum * qset
  let item := toInt (f_pos.tdiv itemsize)
  let rest := toInt (f_pos.tmod itemsize)
  let s_pos := rest.tdiv quantum
  let q_pos := rest.tmod quantum
  [itemsize, item, rest, s_pos, q_pos]

structure State where
  /-- the memory from `dev->buf` on -/
  mem : Nat → UInt8
  /-- the indices accessed so far -/
  accessed : List Nat
  /-- what the last write was given -/
  written : List UInt8
  /-- what the last call copied to the user, and returned -/
  answer : Option (List UInt8)
  ret : Nat
  printed : List Int

def memset (mem : Nat → UInt8) (c : UInt8) (n : Nat) : Nat → UInt8 :=
  fun i => if i < n then c else mem i

def copy_from_user (mem : Nat → UInt8) (data : List UInt8) : Nat → UInt8 :=
  fun i => data.getD i (mem i)

def copy_to_user (mem : Nat → UInt8) (count : Nat) : List UInt8 := (List.range count).map mem

def scull_read (count : Nat) (s : State) : State :=
  { s with
    accessed := s.accessed ++ List.range count
    answer := some (copy_to_user s.mem count)
    ret := count }

/-- `data` is what stands at the user's `buf`, `count` bytes. -/
def scull_write (f_pos : Int) (data : List UInt8) (s : State) : State where
  mem := copy_from_user (memset s.mem 0 6) data
  accessed := s.accessed ++ (List.range 6 ++ List.range data.length)
  written := data
  answer := none
  ret := data.length
  printed := positions f_pos

inductive Call where
  | read (count : Nat)
  | write (f_pos : Int) (data : List UInt8)

def Call.count : Call → Nat
  | read count => count
  | write _ data => data.length

def step (s : State) : Call → State
  | .read count => scull_read count s
  | .write f_pos data => scull_write f_pos data s

/-- The buffer is cleared when the module is loaded; what stands behind it is any memory. -/
structure Loaded (s : State) : Prop where
  mem : ∀ i < BUF, s.mem i = 0
  accessed : s.accessed = []
  written : s.written = []
  answer : s.answer = none

def scull : System State Call where
  init := Loaded
  step s c s' := s' = step s c

/-- The first `c` bytes of `data`, with zeros behind. -/
def padded (data : List UInt8) (c : Nat) : List UInt8 :=
  (List.range c).map fun i => data.getD i 0

/-- No access but to the buffer, and the last read was answered with what was written last. -/
structure Lawful (s : State) : Prop where
  inside : ∀ i ∈ s.accessed, i < BUF
  answered : ∀ bytes, s.answer = some bytes → s.ret ≤ BUF ∧ bytes = padded s.written s.ret

/-! ## The buffer -/

def Holds (s : State) : Prop := ∀ i < BUF, s.mem i = s.written.getD i 0

theorem holds_write (f_pos : Int) (data : List UInt8) (s : State) :
    Holds (scull_write f_pos data s) := by
  intro i hi
  show data.getD i (if i < 6 then 0 else s.mem i) = data.getD i 0
  rw [if_pos (show i < 6 from hi)]

theorem reachable_holds {s : State} (h : scull.Reachable s) : Holds s := by
  refine h.invariant (fun s hs => ?_) ?_
  · intro i hi
    rw [hs.mem i hi, hs.written]
    rfl
  · rintro s c s' - hI rfl
    cases c with
    | read count => exact hI
    | write f_pos data => exact holds_write f_pos data s

/-- A write of more bytes than the buffer has. -/
theorem scull_write_behind (f_pos : Int) (s : State) {data : List UInt8} {i : Nat}
    (h : i < data.length) : (scull_write f_pos data s).mem i = data[i] := by
  show data.getD i _ = _
  rw [List.getD_eq_getElem?_getD, List.getElem?_eq_getElem h, Option.getD_some]

/-! ## One call -/

theorem range_inside_iff (n : Nat) : (∀ i ∈ List.range n, i < BUF) ↔ n ≤ BUF := by
  constructor
  · intro h
    apply Nat.le_of_not_lt
    intro hlt
    exact absurd (h BUF (List.mem_range.mpr hlt)) (Nat.lt_irrefl _)
  · intro h i hi
    exact Nat.lt_of_lt_of_le (List.mem_range.mp hi) h

theorem copy_to_user_eq {s : State} (h : Holds s) {count : Nat} (hc : count ≤ BUF) :
    copy_to_user s.mem count = padded s.written count := by
  apply List.map_congr_left
  intro i hi
  exact h i (Nat.lt_of_lt_of_le (List.mem_range.mp hi) hc)

theorem lawful_step {s : State} (hholds : Holds s) (h : Lawful s) (c : Call) :
    Lawful (step s c) ↔ c.count ≤ BUF := by
  cases c with
  | read count =>
    constructor
    · intro hlaw
      exact (range_inside_iff count).mp (List.forall_mem_append.mp hlaw.inside).2
    · intro hc
      refine ⟨List.forall_mem_append.mpr ⟨h.inside, (range_inside_iff count).mpr hc⟩, ?_⟩
      rintro bytes hbytes
      exact ⟨hc, (Option.some.inj hbytes).symm.trans (copy_to_user_eq hholds hc)⟩
  | write f_pos data =>
    constructor
    · intro hlaw
      have hcopy := (List.forall_mem_append.mp (List.forall_mem_append.mp hlaw.inside).2).2
      exact (range_inside_iff data.length).mp hcopy
    · intro hc
      refine ⟨List.forall_mem_append.mpr ⟨h.inside, List.forall_mem_append.mpr ⟨?_, ?_⟩⟩, ?_⟩
      · exact (range_inside_iff 6).mpr (Nat.le_refl 6)
      · exact (range_inside_iff data.length).mpr hc
      · intro bytes hbytes
        cases hbytes

/-! ## Main results -/

theorem lawful_loaded {s : State} (h : Loaded s) : Lawful s := by
  constructor
  · intro i hi
    rw [h.accessed] at hi
    exact absurd hi List.not_mem_nil
  · intro bytes hbytes
    rw [h.answer] at hbytes
    cases hbytes

theorem always_lawful_iff (cs : List Call) :
    scull.Always cs Lawful ↔ scull.Along cs fun _ c => c.count ≤ BUF := by
  apply System.always_iff_along (fun _ => lawful_loaded)
  · rintro s c s' hreach hlaw rfl
    exact lawful_step (reachable_holds hreach) hlaw c
  · intro s c hno
    exact absurd rfl (hno (step s c))

/-- The device as it is loaded, with zeros behind the buffer. -/
def loaded : State := ⟨fun _ => 0, [], [], none, 0, []⟩

theorem loaded_loaded : Loaded loaded := ⟨fun _ _ => rfl, rfl, rfl, rfl⟩

/-- Every sequence of calls is a run. -/
theorem run_of_calls (cs : List Call) : ∃ s, scull.Run cs s := by
  induction cs using List.reverseRecOn with
  | nil => exact ⟨loaded, .start loaded_loaded⟩
  | append_singleton cs c ih =>
    obtain ⟨s, hs⟩ := ih
    exact ⟨step s c, hs.next rfl⟩

/-- **The driver is lawful in every state of a run exactly if no call's count is above 6.** -/
theorem scull_lawful_iff (cs : List Call) :
    scull.Always cs Lawful ↔ ∀ c ∈ cs, c.count ≤ BUF := by
  rw [always_lawful_iff]
  constructor
  · intro h c hc
    obtain ⟨pre, post, rfl⟩ := List.append_of_mem hc
    obtain ⟨s, hs⟩ := run_of_calls pre
    exact h pre c post s rfl hs
  · rintro h pre c post s rfl -
    exact h c (List.mem_append_right pre List.mem_cons_self)

/-- A write of seven bytes. -/
theorem scull_not_lawful : ¬ scull.Always [.write 0 [1, 2, 3, 4, 5, 6, 7]] Lawful := by
  rw [always_lawful_iff]
  intro h
  have hcount := h [] _ [] loaded rfl (.start loaded_loaded)
  exact absurd hcount (by decide)

end StudyDoc.Scull
