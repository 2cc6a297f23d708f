import StudyDoc.Lib.Counting
import StudyDoc.Lib.Transition
import Mathlib.Tactic.Common

/-!
# Section 16.5: the web client with nonblocking `connect`

`nfiles` files, of which at most `maxconn` are connecting or reading at a time.  A step is one
turn of one of the loops of `main`; what the kernel answers to its calls is the label.  In every
state reached, with `f_flags` for the state of a file,

    nlefttoconn = number of files with f_flags = 0
    nconn       = number of files with F_CONNECTING or F_READING, at most maxconn
    nlefttoread = number of files without F_DONE                                    (Inv)

so the search for a file to start finds one, and `while (nlefttoread > 0)` is left when all are
done.  The request of a file is written when it goes from `F_CONNECTING` to `F_READING`.
-/

namespace StudyDoc.WebClient

open Transition Counting

/-! ## Algorithm -/

def F_CONNECTING : Nat := 1
def F_READING : Nat := 2
def F_DONE : Nat := 4

structure File where
  f_name : String
  f_host : String
  f_fd : Int
  f_flags : Nat

abbrev FdSet := Int → Bool

/-- `write(fd, buf, n)` of the request for a file. -/
structure Get (nfiles : Nat) where
  file : Fin nfiles
  fd : Int
  f_name : String

/-- The variables of `web.h`, and what was written so far. -/
structure Web (nfiles : Nat) where
  file : Fin nfiles → File
  nconn : Int
  nlefttoconn : Int
  nlefttoread : Int
  maxfd : Int
  rset : FdSet
  wset : FdSet
  gets : List (Get nfiles)

/-- What `connect` on the new socket `fd` gives. -/
inductive Connect where
  | ok (fd : Int)
  | inProgress (fd : Int)
  /-- Any other `errno`, that of a failed `socket` included. -/
  | fail

/-- `select` takes descriptors out of the sets; where it fails it leaves them. -/
inductive Select where
  | ready (rs ws : FdSet)
  | fail

/-- The answers to the calls that one turn may make. -/
structure Kernel where
  connect : Connect
  select : Select
  getsockopt : Int
  /-- What one `read` after the other returns. -/
  reads : List Int

/-- The ways out of `main` by `exit`. -/
inductive Exit where
  | nothingFound
  | connectError
  | sockError
  deriving DecidableEq

namespace Web

variable {nfiles : Nat}

def start_connect (w : Web nfiles) (i : Fin nfiles) : Connect → Option (Web nfiles)
  | .fail => none
  | .ok fd | .inProgress fd => some { w with
      rset := Function.update w.rset fd true
      wset := Function.update w.wset fd true
      maxfd := if fd > w.maxfd then fd else w.maxfd
      file := Function.update w.file i
        { w.file i with f_flags := F_CONNECTING, f_fd := fd } }

/-- `for(i=0;i<nfiles;i++) if(file[i].f_flags == 0) break;` -/
def unstarted (w : Web nfiles) : Option (Fin nfiles) :=
  (List.finRange nfiles).find? fun i => (w.file i).f_flags = 0

/-- One turn of `while(nconn < maxconn && nlefttoconn > 0)`. -/
def connectNext (w : Web nfiles) (c : Connect) : Except Exit (Web nfiles) :=
  match w.unstarted with
  | none => .error .nothingFound
  | some i =>
    match w.start_connect i c with
    | none => .error .connectError
    | some w => .ok { w with nconn := w.nconn + 1, nlefttoconn := w.nlefttoconn - 1 }

/-- `rs` and `ws` after `select(maxfd+1, &rs, &ws, NULL, NULL)`. -/
def select (w : Web nfiles) : Select → FdSet × FdSet
  | .ready rs ws => (fun fd => w.rset fd && rs fd, fun fd => w.wset fd && ws fd)
  | .fail => (w.rset, w.wset)

/-- `FD_CLR(fd, &wset)`, the request, and `f_flags = F_READING`. -/
def request (w : Web nfiles) (i : Fin nfiles) : Web nfiles :=
  { w with
    wset := Function.update w.wset (w.file i).f_fd false
    gets := w.gets ++ [⟨i, (w.file i).f_fd, (w.file i).f_name⟩]
    file := Function.update w.file i { w.file i with f_flags := F_READING } }

/-- `close(fd)`, `f_flags = F_DONE`, and the counters. -/
def finish (w : Web nfiles) (i : Fin nfiles) : Web nfiles :=
  { w with
    file := Function.update w.file i { w.file i with f_flags := F_DONE }
    rset := Function.update w.rset (w.file i).f_fd false
    nconn := w.nconn - 1
    nlefttoread := w.nlefttoread - 1 }

/-- One turn of the pass over the files.  `while(1)` goes on, whatever `read` returns, until that
is 0; `none`: it has not come yet. -/
def serve (w : Web nfiles) (i : Fin nfiles) (rs ws : FdSet) (k : Kernel) :
    Option (Except Exit (Web nfiles)) :=
  let flags := (w.file i).f_flags
  let fd := (w.file i).f_fd
  if flags = 0 ∨ flags &&& F_DONE ≠ 0 then some (.ok w)
  else if flags &&& F_CONNECTING ≠ 0 ∧ (rs fd = true ∨ ws fd = true) then
    if k.getsockopt < 0 then some (.error .sockError) else some (.ok (w.request i))
  else if flags &&& F_READING ≠ 0 ∧ rs fd = true then
    if 0 ∈ k.reads then some (.ok (w.finish i)) else none
  else some (.ok w)

end Web

/-- Where `main` is. -/
inductive Pc where
  /-- `while(nlefttoread > 0)` -/
  | top
  /-- `while(nconn < maxconn && nlefttoconn > 0)` -/
  | connecting
  | select
  /-- At file `i` of the pass. -/
  | pass (i : Nat) (rs ws : FdSet)
  /-- Behind the loop. -/
  | ended
  | exit (e : Exit)

structure State (nfiles : Nat) where
  web : Web nfiles
  pc : Pc

variable {nfiles : Nat} {maxconn : Int}

/-- On with the loop at `pc`, or out. -/
def State.after (pc : Pc) (s : State nfiles) : Except Exit (Web nfiles) → State nfiles
  | .ok w => ⟨w, pc⟩
  | .error e => { s with pc := .exit e }

def State.step (maxconn : Int) (s : State nfiles) (k : Kernel) : Option (State nfiles) :=
  match s.pc with
  | .top => some { s with pc := if s.web.nlefttoread > 0 then .connecting else .ended }
  | .connecting =>
    if s.web.nconn < maxconn ∧ s.web.nlefttoconn > 0 then
      some (s.after .connecting (s.web.connectNext k.connect))
    else some { s with pc := .select }
  | .select =>
    let (rs, ws) := s.web.select k.select
    some { s with pc := .pass 0 rs ws }
  | .pass i rs ws =>
    if h : i < nfiles then (s.web.serve ⟨i, h⟩ rs ws k).map (s.after (.pass (i + 1) rs ws))
    else some { s with pc := .top }
  | .ended | .exit _ => none

/-- `main` before its loop; the files have their names, and no descriptor yet. -/
def start (file : Fin nfiles → File) : State nfiles where
  web := ⟨fun i => { file i with f_flags := 0 }, 0, nfiles, nfiles, -1, fun _ => false,
    fun _ => false, []⟩
  pc := .top

def program (nfiles : Nat) (maxconn : Int) : System (State nfiles) Kernel where
  init s := ∃ file, s = start file
  step s k s' := s.step maxconn k = some s'

/-! ## The counters -/

def Connecting (f : File) : Prop := f.f_flags = F_CONNECTING ∨ f.f_flags = F_READING

instance : DecidablePred Connecting := fun _ => inferInstanceAs (Decidable (_ ∨ _))

/-- The counters are what a count of the flags would give. -/
structure Counted (maxconn : Int) (w : Web nfiles) : Prop where
  nlefttoconn : w.nlefttoconn = number (fun f : File => f.f_flags = 0) w.file
  nconn : w.nconn = number Connecting w.file
  nconn_le : w.nconn ≤ maxconn
  nlefttoread : w.nlefttoread = number (fun f : File => f.f_flags ≠ F_DONE) w.file

/-- How often the request for file `i` was written. -/
def Web.written (w : Web nfiles) (i : Fin nfiles) : Nat := w.gets.countP fun g => g.file = i

/-- A file has one of four flags, and its request was written once it is reading. -/
def Written (f : File) (n : Nat) : Prop :=
  (f.f_flags = 0 ∨ f.f_flags = F_CONNECTING) ∧ n = 0 ∨
    (f.f_flags = F_READING ∨ f.f_flags = F_DONE) ∧ n = 1

theorem Written.eq_zero {f : File} {n : Nat} (h : Written f n)
    (hf : f.f_flags = 0 ∨ f.f_flags = F_CONNECTING) : n = 0 := by
  rcases h with ⟨-, hn⟩ | ⟨hr | hr, -⟩
  · exact hn
  · rcases hf with hf | hf <;> exact absurd (hf.symm.trans hr) (by decide)
  · rcases hf with hf | hf <;> exact absurd (hf.symm.trans hr) (by decide)

theorem Written.eq_one {f : File} {n : Nat} (h : Written f n)
    (hf : f.f_flags = F_READING ∨ f.f_flags = F_DONE) : n = 1 := by
  rcases h with ⟨hr | hr, -⟩ | ⟨-, hn⟩
  · rcases hf with hf | hf <;> exact absurd (hf.symm.trans hr) (by decide)
  · rcases hf with hf | hf <;> exact absurd (hf.symm.trans hr) (by decide)
  · exact hn

structure Inv (maxconn : Int) (w : Web nfiles) : Prop where
  counted : Counted maxconn w
  written : ∀ i, Written (w.file i) (w.written i)

/-! ### One change of a file -/

/-- 1 for what holds, 0 for what does not. -/
def bit (p : Prop) [Decidable p] : Int := if p then 1 else 0

/-- `number_update` for the counters of the program, which are `int`. -/
theorem number_update_int (p : File → Prop) [DecidablePred p] (file : Fin nfiles → File)
    (i : Fin nfiles) (f : File) :
    (number p (Function.update file i f) : Int) + bit (p (file i)) = number p file + bit (p f) := by
  have h := number_update p file i f
  unfold bit
  split at h <;> split at h <;> rename_i h1 h2 <;> simp only [h1, h2, if_true, if_false] <;> omega

/-- The file `i` becomes `f`, and each counter changes as its count does. -/
theorem Inv.update {w w' : Web nfiles} (h : Inv maxconn w) {i : Fin nfiles} {f : File}
    (hfile : w'.file = Function.update w.file i f)
    (hother : ∀ j, j ≠ i → w'.written j = w.written j) (hself : Written f (w'.written i))
    (hconn : w'.nlefttoconn + bit ((w.file i).f_flags = 0) =
      w.nlefttoconn + bit (f.f_flags = 0))
    (hnconn : w'.nconn + bit (Connecting (w.file i)) = w.nconn + bit (Connecting f))
    (hle : w'.nconn ≤ maxconn)
    (hread : w'.nlefttoread + bit ((w.file i).f_flags ≠ F_DONE) =
      w.nlefttoread + bit (f.f_flags ≠ F_DONE)) : Inv maxconn w' where
  counted := by
    have h0 := number_update_int (fun f : File => f.f_flags = 0) w.file i f
    have h1 := number_update_int Connecting w.file i f
    have h2 := number_update_int (fun f : File => f.f_flags ≠ F_DONE) w.file i f
    rw [← hfile, ← h.counted.nlefttoconn] at h0
    rw [← hfile, ← h.counted.nconn] at h1
    rw [← hfile, ← h.counted.nlefttoread] at h2
    exact ⟨by omega, by omega, hle, by omega⟩
  written j := by
    rw [hfile]
    by_cases hji : j = i
    · rw [hji, Function.update_self]
      exact hself
    · rw [Function.update_of_ne hji, hother j hji]
      exact h.written j

theorem unstarted_eq_some {w : Web nfiles} {i : Fin nfiles} (h : w.unstarted = some i) :
    (w.file i).f_flags = 0 := by
  simpa using List.find?_some h

theorem unstarted_isSome {w : Web nfiles} (h : Counted maxconn w) (hpos : w.nlefttoconn > 0) :
    ∃ i, w.unstarted = some i := by
  have hnumber : 0 < number (fun f : File => f.f_flags = 0) w.file := by
    have hconn := h.nlefttoconn
    omega
  obtain ⟨i, hi⟩ := number_pos.mp hnumber
  apply Option.isSome_iff_exists.mp
  rw [Web.unstarted, List.find?_isSome]
  exact ⟨i, List.mem_finRange i, decide_eq_true hi⟩

namespace Inv

variable {w : Web nfiles}

/-- A started file takes one of the connections. -/
theorem connect (h : Inv maxconn w) (hroom : w.nconn < maxconn) {i : Fin nfiles}
    (hi : (w.file i).f_flags = 0) {fd : Int} {rset wset : FdSet} {maxfd : Int} :
    Inv maxconn { w with
      rset := rset
      wset := wset
      maxfd := maxfd
      file := Function.update w.file i { w.file i with f_flags := F_CONNECTING, f_fd := fd }
      nconn := w.nconn + 1
      nlefttoconn := w.nlefttoconn - 1 } := by
  have hnone : w.written i = 0 := (h.written i).eq_zero (.inl hi)
  refine h.update rfl (fun _ _ => rfl) (.inl ⟨.inr rfl, hnone⟩) ?_ ?_ ?_ ?_
  · simp [bit, hi, F_CONNECTING]
  · simp [bit, hi, Connecting, F_CONNECTING, F_READING]
  · exact hroom
  · simp [bit, hi, F_CONNECTING, F_DONE]

theorem connectNext (h : Inv maxconn w) (hroom : w.nconn < maxconn) (hpos : w.nlefttoconn > 0)
    (c : Connect) : w.connectNext c = .error .connectError ∨
      ∃ w', w.connectNext c = .ok w' ∧ Inv maxconn w' := by
  obtain ⟨i, hi⟩ := unstarted_isSome h.counted hpos
  have hflags := unstarted_eq_some hi
  unfold Web.connectNext
  rw [hi]
  cases c with
  | fail => exact .inl rfl
  | ok fd => exact .inr ⟨_, rfl, h.connect hroom hflags⟩
  | inProgress fd => exact .inr ⟨_, rfl, h.connect hroom hflags⟩

theorem written_request (w : Web nfiles) (i j : Fin nfiles) :
    (w.request i).written j = w.written j + (if i = j then 1 else 0) := by
  unfold Web.written Web.request
  rw [List.countP_append, List.countP_singleton]
  simp

theorem request (h : Inv maxconn w) {i : Fin nfiles} (hi : (w.file i).f_flags = F_CONNECTING) :
    Inv maxconn (w.request i) := by
  have hnone : w.written i = 0 := (h.written i).eq_zero (.inr hi)
  have hone : (w.request i).written i = 1 := by
    rw [written_request, hnone, if_pos rfl]
  refine h.update rfl (fun j hj => ?_) (.inr ⟨.inl rfl, hone⟩) ?_ ?_ h.counted.nconn_le ?_
  · rw [written_request, if_neg (Ne.symm hj)]
    rfl
  · simp [Web.request, bit, hi, F_CONNECTING, F_READING]
  · simp [Web.request, bit, hi, Connecting]
  · simp [Web.request, bit, hi, F_CONNECTING, F_READING, F_DONE]

theorem finish (h : Inv maxconn w) {i : Fin nfiles} (hi : (w.file i).f_flags = F_READING) :
    Inv maxconn (w.finish i) := by
  have hone : w.written i = 1 := (h.written i).eq_one (.inl hi)
  refine h.update rfl (fun _ _ => rfl) (.inr ⟨.inr rfl, hone⟩) ?_ ?_ ?_ ?_
  · simp [Web.finish, bit, hi, F_READING, F_DONE]
  · simp [Web.finish, bit, hi, Connecting, F_CONNECTING, F_READING, F_DONE]
  · have hle := h.counted.nconn_le
    show w.nconn - 1 ≤ maxconn
    omega
  · simp [Web.finish, bit, hi, F_READING, F_DONE]

/-- A turn of the pass: the two transitions of a file, at the flags that they are for. -/
theorem serve (h : Inv maxconn w) {i : Fin nfiles} {rs ws : FdSet} {k : Kernel}
    {r : Except Exit (Web nfiles)} (hr : w.serve i rs ws k = some r) :
    r = .error .sockError ∨ ∃ w', r = .ok w' ∧ Inv maxconn w' := by
  have hflags : (w.file i).f_flags = 0 ∨ (w.file i).f_flags = F_CONNECTING ∨
      (w.file i).f_flags = F_READING ∨ (w.file i).f_flags = F_DONE := by
    rcases h.written i with ⟨hf | hf, -⟩ | ⟨hf | hf, -⟩
    · exact .inl hf
    · exact .inr (.inl hf)
    · exact .inr (.inr (.inl hf))
    · exact .inr (.inr (.inr hf))
  have hsame : r = .ok w → r = .error .sockError ∨ ∃ w', r = .ok w' ∧ Inv maxconn w' :=
    fun hr => .inr ⟨w, hr, h⟩
  unfold Web.serve at hr
  dsimp only at hr
  rcases hflags with hi | hi | hi | hi
  · rw [hi, if_pos (.inl rfl)] at hr
    exact hsame (Option.some.inj hr).symm
  · rw [hi, if_neg (by decide)] at hr
    split at hr
    · split at hr
      · exact .inl (Option.some.inj hr).symm
      · exact .inr ⟨_, (Option.some.inj hr).symm, h.request hi⟩
    · rw [if_neg fun hc => absurd rfl hc.1] at hr
      exact hsame (Option.some.inj hr).symm
  · rw [hi, if_neg (by decide), if_neg fun hc => absurd rfl hc.1] at hr
    split at hr
    · split at hr
      · exact .inr ⟨_, (Option.some.inj hr).symm, h.finish hi⟩
      · cases hr
    · exact hsame (Option.some.inj hr).symm
  · rw [hi, if_pos (.inr (by decide))] at hr
    exact hsame (Option.some.inj hr).symm

theorem first (hmax : 0 ≤ maxconn) (file : Fin nfiles → File) :
    Inv maxconn (start file).web where
  counted := by
    have hflags : ∀ i, ((start file).web.file i).f_flags = 0 := fun _ => rfl
    refine ⟨?_, ?_, hmax, ?_⟩
    · rw [number_eq_card hflags, Fintype.card_fin]
      rfl
    · rw [number_eq_zero.mpr fun i => ?_]
      · rfl
      · rw [Connecting, hflags i]
        decide
    · rw [number_eq_card fun i => ?_, Fintype.card_fin]
      · rfl
      · rw [hflags i]
        decide
  written i := .inl ⟨.inl rfl, rfl⟩

end Inv

/-! ## Every run -/

structure Law (maxconn : Int) (s : State nfiles) : Prop where
  counted : s.pc = .top → Counted maxconn s.web
  /-- `nlefttoconn = %d but nothing found` is not printed. -/
  found : s.pc ≠ .exit .nothingFound
  /-- No request is written twice, or before its turn. -/
  written : ∀ i, Written (s.web.file i) (s.web.written i)
  /-- The loop is left with all files read, and the request of each written once. -/
  ended : s.pc = .ended → ∀ i, (s.web.file i).f_flags = F_DONE ∧ s.web.written i = 1

/-- What holds wherever `main` is. -/
structure Holds (maxconn : Int) (s : State nfiles) : Prop where
  inv : Inv maxconn s.web
  found : s.pc ≠ .exit .nothingFound
  ended : s.pc = .ended → s.web.nlefttoread ≤ 0

theorem holds_after {s : State nfiles} (h : Holds maxconn s) {pc : Pc}
    {r : Except Exit (Web nfiles)} {e : Exit} (hpc : ∀ e, pc ≠ .exit e) (hend : pc ≠ .ended)
    (he : e ≠ .nothingFound)
    (hr : r = .error e ∨ ∃ w', r = .ok w' ∧ Inv maxconn w') : Holds maxconn (s.after pc r) := by
  rcases hr with rfl | ⟨w', rfl, hinv⟩
  · exact ⟨h.inv, fun hexit => he (Pc.exit.inj hexit), nofun⟩
  · exact ⟨hinv, hpc _, fun hended => absurd hended hend⟩

theorem holds_step {s s' : State nfiles} {k : Kernel} (h : Holds maxconn s)
    (hs : s.step maxconn k = some s') : Holds maxconn s' := by
  unfold State.step at hs
  cases hpc : s.pc with
  | top =>
    rw [hpc] at hs
    rw [← Option.some.inj hs]
    by_cases hleft : s.web.nlefttoread > 0
    · rw [if_pos hleft]
      exact ⟨h.inv, nofun, nofun⟩
    · rw [if_neg hleft]
      exact ⟨h.inv, nofun, fun _ => Int.not_lt.mp hleft⟩
  | connecting =>
    simp only [hpc] at hs
    split at hs
    · rename_i hroom
      rw [← Option.some.inj hs]
      exact holds_after h nofun nofun (by decide)
        (h.inv.connectNext hroom.1 hroom.2 k.connect)
    · rw [← Option.some.inj hs]
      exact ⟨h.inv, nofun, nofun⟩
  | select =>
    rw [hpc] at hs
    rw [← Option.some.inj hs]
    exact ⟨h.inv, nofun, nofun⟩
  | pass i rs ws =>
    simp only [hpc] at hs
    split at hs
    · obtain ⟨r, hr, rfl⟩ := Option.map_eq_some_iff.mp hs
      exact holds_after h nofun nofun (by decide) (h.inv.serve hr)
    · rw [← Option.some.inj hs]
      exact ⟨h.inv, nofun, nofun⟩
  | ended =>
    rw [hpc] at hs
    cases hs
  | exit e =>
    rw [hpc] at hs
    cases hs

theorem holds {s : State nfiles} (hmax : 0 ≤ maxconn)
    (h : (program nfiles maxconn).Reachable s) : Holds maxconn s := by
  apply h.invariant
  · rintro s ⟨file, rfl⟩
    exact ⟨.first hmax file, nofun, nofun⟩
  · intro s k s' _ hi hs
    exact holds_step hi hs

/-- With nothing left to read, every file is done. -/
theorem done_of_nlefttoread {w : Web nfiles} (h : Inv maxconn w) (hleft : w.nlefttoread ≤ 0)
    (i : Fin nfiles) : (w.file i).f_flags = F_DONE ∧ w.written i = 1 := by
  have hzero : number (fun f : File => f.f_flags ≠ F_DONE) w.file = 0 := by
    have hread := h.counted.nlefttoread
    omega
  have hdone : (w.file i).f_flags = F_DONE := not_not.mp (number_eq_zero.mp hzero i)
  exact ⟨hdone, (h.written i).eq_one (.inr hdone)⟩

/-- **Whatever `connect`, `select` and `read` answer, the counters count the flags, a file to
start is found, each request is written once, and the loop ends with all files done.** -/
theorem web_counted {nfiles : Nat} {maxconn : Int} (hmax : 1 ≤ maxconn) {s : State nfiles}
    (h : (program nfiles maxconn).Reachable s) : Law maxconn s := by
  have hs := holds (Int.le_trans (by decide) hmax) h
  exact ⟨fun _ => hs.inv.counted, hs.found, hs.inv.written,
    fun hended => done_of_nlefttoread hs.inv (hs.ended hended)⟩

/-- Descriptor 3 for each socket, and all of them ready; a page comes in one `read`. -/
def answers : Kernel := ⟨.inProgress 3, .fail, 0, [200, 0]⟩

def twoFiles : Fin 2 → File := fun i => ⟨if i = 0 then "/a" else "/b", "host", 0, 0⟩

/-- Two files, one connection at a time, up to the end of the loop. -/
theorem web_counted_twoFiles :
    ∃ s, (List.replicate 27 answers).foldlM (State.step 1) (start twoFiles) = some s ∧
      s.pc = .ended ∧ Law 1 s := by
  obtain ⟨s, hs⟩ : ∃ s, (List.replicate 27 answers).foldlM (State.step 1) (start twoFiles) =
    some s := ⟨_, rfl⟩
  have hpc : ((List.replicate 27 answers).foldlM (State.step 1) (start twoFiles)).map
    State.pc = some .ended := rfl
  rw [hs] at hpc
  have hstart : (program 2 1).Run [] (start twoFiles) := .start ⟨_, rfl⟩
  have hrun := hstart.exec (State.step 1) (fun _ _ _ h => h) (List.replicate 27 answers) hs
  exact ⟨s, hs, Option.some.inj hpc, web_counted (by decide) ⟨_, hrun⟩⟩

end StudyDoc.WebClient
