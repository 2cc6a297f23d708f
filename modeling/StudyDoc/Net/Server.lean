import StudyDoc.Net.Syscall
import Mathlib.Tactic.Common

/-!
# `server.c`: the forking echo server

`acceptLoop errno rs` is the `while(1)` of `main` over the rounds `rs` (one `accept(2)`
each), as the list of calls the parent makes; it ends where the next `accept` blocks.
`strEcho buf calls` is `str_echo` in a child, over the results of its `read` calls.

    Handled (acceptLoop errno rs) ↔ FreshErrno errno rs                    (acceptLoop_handled_iff)
    EchoesExactly buf chunks ↔ NulTerminated buf chunks                    (strEcho_exact_iff)
    Transparent buf calls ↔ ¬ Interrupted buf calls                        (strEcho_transparent_iff)

All right-hand sides are conditions on the inputs: `main` looks at `errno` before it
looks at the descriptor, and `str_echo` takes the length to write from `strlen` and compares `n`,
not `errno`, with `EINTR`.
-/

namespace StudyDoc.Server

/-! ## The accept loop -/

/-- One result of `waitpid(-1, &stat, WNOHANG)`. -/
inductive WaitPid where
  | child (pid : Nat)
  | running
  | fail (e : Errno)

/-- `deal_sig_handel`: reap until `waitpid` has no more.  Returns the `errno` it leaves. -/
def dealSigHandel : Errno → List WaitPid → Errno
  | errno, [] => errno
  | errno, .child _ :: ws => dealSigHandel errno ws
  | errno, .running :: _ => errno
  | _, .fail e :: _ => e

inductive Accept where
  | fresh (fd : Nat)
  | fail (e : Errno)

/-- What `accept` assigns to `clifd`. -/
def Accept.ret : Accept → Int
  | .fresh fd => fd
  | .fail _ => -1

/-- A successful call leaves `errno` as it was. -/
def Accept.errno (errno : Errno) : Accept → Errno
  | .fresh _ => errno
  | .fail e => e

/-- One `accept`, and the runs of the `SIGCHLD` handler between its return to the process
and the test of `errno` (each given by what its `waitpid` calls return). -/
structure Round where
  accept : Accept
  sigs : List (List WaitPid)

/-- `errno` at the test of line 31. -/
def Round.errno (errno : Errno) (r : Round) : Errno :=
  r.sigs.foldl dealSigHandel (r.accept.errno errno)

inductive ChildCall where
  | strEcho (clifd : Int)
  | close (clifd : Int)
  | exit (status : Int)
  deriving DecidableEq

inductive Call where
  | accept (clifd : Int)
  | fork (child : List ChildCall)
  | close (clifd : Int)
  | exit (status : Int)
  deriving DecidableEq

/-- The branch of `fork() == 0`. -/
def child (clifd : Int) : List ChildCall := [.strEcho clifd, .close clifd, .exit (-1)]

def acceptLoop : Errno → List Round → List Call
  | _, [] => []
  | errno, r :: rs =>
    let clifd := r.accept.ret
    let errno := r.errno errno
    if errno = EINTR then .accept clifd :: acceptLoop errno rs
    else if clifd < 0 then [.accept clifd, .exit (-1)]
    else .accept clifd :: .fork (child clifd) :: .close clifd :: acceptLoop errno rs

/-- The descriptors `accept` returned, in order. -/
def accepted (tr : List Call) : List Int :=
  tr.filterMap fun
    | .accept clifd => if 0 ≤ clifd then some clifd else none
    | _ => none

/-- The descriptors handed to a child that runs `str_echo` on them, one entry for each child. -/
def echoed (tr : List Call) : List Int :=
  tr.filterMap fun
    | .fork (.strEcho clifd :: _) => some clifd
    | _ => none

/-- The descriptors the parent closed. -/
def closed (tr : List Call) : List Int :=
  tr.filterMap fun
    | .close clifd => some clifd
    | _ => none

/-- Every accepted descriptor goes to exactly one child and is closed in the parent. -/
def Handled (tr : List Call) : Prop := echoed tr = accepted tr ∧ closed tr = accepted tr

/-- `errno` after the rounds `rs`: the value of the last call that failed. -/
def errnoAfter (errno : Errno) (rs : List Round) : Errno := rs.foldl Round.errno errno

/-- The failure of `accept` that ends the loop: `errno` is not `EINTR` at the test. -/
def Fatal (errno : Errno) (r : Round) : Prop := r.accept.ret < 0 ∧ r.errno errno ≠ EINTR

/-- Whenever the loop, not yet ended by a fatal failure, is given a descriptor, the last call
that failed before the test of `errno` did not leave `EINTR` there. -/
def FreshErrno (errno : Errno) (rs : List Round) : Prop :=
  ∀ pre r post, rs = pre ++ r :: post →
    (∀ p q t, pre = p ++ q :: t → ¬ Fatal (errnoAfter errno p) q) →
    0 ≤ r.accept.ret → errnoAfter errno (pre ++ [r]) ≠ EINTR

/-! ### Lemmas -/

theorem freshErrno_nil (errno : Errno) : FreshErrno errno [] := by
  intro pre r post h
  simp at h

theorem freshErrno_cons (errno : Errno) (r : Round) (rs : List Round) :
    FreshErrno errno (r :: rs) ↔
      (0 ≤ r.accept.ret → r.errno errno ≠ EINTR) ∧
      (¬ Fatal errno r → FreshErrno (r.errno errno) rs) := by
  constructor
  · intro h
    refine ⟨fun hr => h [] r rs rfl (by simp) hr, fun hf pre q post hq hpre hret => ?_⟩
    have hlive : ∀ p q' t, r :: pre = p ++ q' :: t → ¬ Fatal (errnoAfter errno p) q' := by
      intro p q' t hp
      cases p with
      | nil =>
        have he : r = q' := (List.cons.inj hp).1
        rw [← he]
        exact hf
      | cons a p =>
        obtain ⟨he, hp⟩ := List.cons.inj hp
        rw [← he]
        exact hpre p q' t hp
    exact h (r :: pre) q post (by rw [hq]; rfl) hlive hret
  · rintro ⟨h1, h2⟩ pre q post hq hpre hret
    cases pre with
    | nil =>
      have he : r = q := (List.cons.inj hq).1
      rw [← he] at hret ⊢
      exact h1 hret
    | cons a pre =>
      obtain ⟨he, hq⟩ := List.cons.inj hq
      rw [← he] at hpre ⊢
      exact h2 (hpre [] r pre rfl) pre q post hq
        (fun p q' t hp => hpre (r :: p) q' t (by rw [hp]; rfl)) hret

theorem acceptLoop_eintr {errno : Errno} {r : Round} (h : r.errno errno = EINTR) (rs : List Round) :
    acceptLoop errno (r :: rs) = .accept r.accept.ret :: acceptLoop (r.errno errno) rs := by
  rw [acceptLoop]
  exact if_pos h

theorem acceptLoop_fatal {errno : Errno} {r : Round} (h : Fatal errno r) (rs : List Round) :
    acceptLoop errno (r :: rs) = [.accept r.accept.ret, .exit (-1)] := by
  rw [acceptLoop]
  exact (if_neg h.2).trans (if_pos h.1)

theorem acceptLoop_serve {errno : Errno} {r : Round} (h : r.errno errno ≠ EINTR)
    (h0 : 0 ≤ r.accept.ret) (rs : List Round) :
    acceptLoop errno (r :: rs) = .accept r.accept.ret :: .fork (child r.accept.ret) ::
      .close r.accept.ret :: acceptLoop (r.errno errno) rs := by
  rw [acceptLoop]
  exact (if_neg h).trans (if_neg (by omega))

theorem handled_fail {clifd : Int} (h : clifd < 0) (tr : List Call) :
    Handled (.accept clifd :: tr) ↔ Handled tr := by
  have hn : ¬ 0 ≤ clifd := by omega
  simp [Handled, echoed, closed, accepted, hn]

theorem handled_serve {clifd : Int} (h : 0 ≤ clifd) (tr : List Call) :
    Handled (.accept clifd :: .fork (child clifd) :: .close clifd :: tr) ↔ Handled tr := by
  simp [Handled, echoed, closed, accepted, child, h]

theorem echoed_accept (clifd : Int) (tr : List Call) :
    echoed (.accept clifd :: tr) = echoed tr := rfl

theorem accepted_length_le (clifd : Int) (tr : List Call) :
    (accepted tr).length ≤ (accepted (.accept clifd :: tr)).length := by
  simp only [accepted, List.filterMap_cons]
  split <;> simp

/-- Never more children than accepted connections. -/
theorem echoed_length_le (errno : Errno) (rs : List Round) :
    (echoed (acceptLoop errno rs)).length ≤ (accepted (acceptLoop errno rs)).length := by
  induction rs generalizing errno with
  | nil => simp [acceptLoop, echoed]
  | cons r rs ih =>
    have hi := ih (r.errno errno)
    by_cases he : r.errno errno = EINTR
    · rw [acceptLoop_eintr he, echoed_accept]
      exact Nat.le_trans hi (accepted_length_le _ _)
    · by_cases hret : r.accept.ret < 0
      · rw [acceptLoop_fatal ⟨hret, he⟩]
        simp [echoed]
      · have h0 : 0 ≤ r.accept.ret := by omega
        rw [acceptLoop_serve he h0]
        simpa [echoed, accepted, child, h0] using hi

/-- A connection met by a stale `EINTR` is never made up for. -/
theorem not_handled_skip {clifd : Int} (h : 0 ≤ clifd) (errno : Errno) (rs : List Round) :
    ¬ Handled (.accept clifd :: acceptLoop errno rs) := by
  rintro ⟨he, -⟩
  have hlen := congrArg List.length he
  have hle := echoed_length_le errno rs
  simp only [echoed, accepted, List.filterMap_cons, h, if_true, List.length_cons] at hlen hle
  omega

/-! ### The theorem -/

/-- **The accept loop.**  No accepted connection is lost exactly when no stale `EINTR` meets one. -/
theorem acceptLoop_handled_iff (errno : Errno) (rs : List Round) :
    Handled (acceptLoop errno rs) ↔ FreshErrno errno rs := by
  induction rs generalizing errno with
  | nil => simp [acceptLoop, Handled, echoed, closed, accepted, freshErrno_nil]
  | cons r rs ih =>
    rw [freshErrno_cons, ← ih (r.errno errno)]
    by_cases he : r.errno errno = EINTR
    · have hf : ¬ Fatal errno r := fun h => h.2 he
      rw [acceptLoop_eintr he]
      by_cases hret : 0 ≤ r.accept.ret
      · have hskip := not_handled_skip hret (r.errno errno) rs
        exact ⟨fun h => absurd h hskip, fun h => absurd he (h.1 hret)⟩
      · rw [handled_fail (by omega)]
        exact ⟨fun h => ⟨fun h0 => absurd h0 hret, fun _ => h⟩, fun h => h.2 hf⟩
    · by_cases hret : r.accept.ret < 0
      · have hf : Fatal errno r := ⟨hret, he⟩
        have hexit : Handled [.exit (-1)] := ⟨rfl, rfl⟩
        rw [acceptLoop_fatal hf, handled_fail hret]
        exact ⟨fun _ => ⟨fun h0 => by omega, fun h => absurd hf h⟩, fun _ => hexit⟩
      · have hf : ¬ Fatal errno r := fun h => hret h.1
        rw [acceptLoop_serve he (by omega), handled_serve (by omega)]
        exact ⟨fun h => ⟨fun _ => he, fun _ => h⟩, fun h => h.2 hf⟩

/-- One interrupted `accept`, and the next connection is dropped: descriptor 5 is neither
served nor closed. -/
theorem acceptLoop_drops_after_eintr :
    ¬ ∀ (errno : Errno) (rs : List Round), Handled (acceptLoop errno rs) := by
  intro h
  have h5 := h 0 [⟨.fail EINTR, []⟩, ⟨.fresh 5, []⟩]
  exact absurd h5.1 (by decide)

/-! ## `str_echo` -/

/-- `strlen`: the offset of the first NUL; `none` when it runs off the end of the memory. -/
def strlen : List UInt8 → Option Nat
  | [] => none
  | b :: m => if b = 0 then some 0 else (strlen m).map (· + 1)

/-- One `read(clifd, buf, 255)`, and the stack memory that lies behind `buf` when `strlen`
scans it. -/
structure ReadCall where
  result : Read 255
  beyond : List UInt8

inductive EchoEnd where
  | blocked
  | returned
  | overrun

/-- What `str_echo` did: the bytes of each `write` (all accepted), how it stopped, and the
results it did not ask for. -/
structure Echo where
  writes : List (List UInt8)
  fin : EchoEnd
  unread : List ReadCall

def strEcho : Buf 255 → List ReadCall → Echo
  | _, [] => ⟨[], .blocked, []⟩
  | buf, c :: cs =>
    let n := c.result.ret
    let buf := c.result.store buf
    if n > 0 then
      let mem := buf.1 ++ c.beyond
      match strlen mem with
      | none => ⟨[], .overrun, cs⟩
      | some len =>
        let r := strEcho buf cs
        { r with writes := mem.take len :: r.writes }
    else if n < 0 ∧ n = EINTR then strEcho buf cs
    else ⟨[], .returned, cs⟩

/-- A `read` that delivers bytes. -/
structure Chunk where
  bytes : List UInt8
  pos : 0 < bytes.length
  le : bytes.length ≤ 255
  beyond : List UInt8

def Chunk.call (c : Chunk) : ReadCall := ⟨.data c.bytes c.pos c.le, c.beyond⟩

/-- A client that sends the chunks and closes. -/
def script (chunks : List Chunk) : List ReadCall := chunks.map Chunk.call ++ [⟨.eof, []⟩]

def received (chunks : List Chunk) : List UInt8 := (chunks.map Chunk.bytes).flatten

/-- What is written back is what was read, and no scan leaves the memory. -/
def EchoesExactly (buf : Buf 255) (chunks : List Chunk) : Prop :=
  (strEcho buf (script chunks)).writes.flatten = received chunks ∧
  (strEcho buf (script chunks)).fin = .returned

/-- No chunk holds a NUL, none is shorter than an earlier one, and the byte right behind each
chunk was NUL before the first `read` (behind the buffer: is NUL now). -/
def NulTerminated (buf : Buf 255) (chunks : List Chunk) : Prop :=
  ∀ pre c post, chunks = pre ++ c :: post →
    0 ∉ c.bytes ∧ (∀ p ∈ pre, p.bytes.length ≤ c.bytes.length) ∧
    (buf.1 ++ c.beyond)[c.bytes.length]? = some 0

/-! ### Lemmas -/

theorem strlen_append {c : List UInt8} (h : 0 ∉ c) (m : List UInt8) :
    strlen (c ++ m) = (strlen m).map (· + c.length) := by
  induction c with
  | nil => simp
  | cons b c ih =>
    have hb : b ≠ 0 := fun e => h (by simp [e])
    have hc : 0 ∉ c := fun hm => h (List.mem_cons_of_mem _ hm)
    rw [List.cons_append, strlen, if_neg hb, ih hc, Option.map_map]
    congr 1

theorem strlen_eq_some {m : List UInt8} {k : Nat} (h : strlen m = some k) :
    0 ∉ m.take k ∧ m[k]? = some 0 := by
  induction m generalizing k with
  | nil => simp [strlen] at h
  | cons b m ih =>
    rw [strlen] at h
    split at h
    · next hb =>
      obtain rfl := Option.some.inj h
      simp [hb]
    · next hb =>
      obtain ⟨j, hj, rfl⟩ := Option.map_eq_some_iff.mp h
      obtain ⟨h1, h2⟩ := ih hj
      refine ⟨?_, by simpa using h2⟩
      rw [List.take_succ_cons, List.mem_cons]
      rintro (e | hm)
      · exact hb e.symm
      · exact h1 hm

theorem strlen_zero_iff (m : List UInt8) : strlen m = some 0 ↔ m[0]? = some 0 := by
  cases m with
  | nil => simp [strlen]
  | cons b m =>
    rw [strlen]
    split <;> simp_all

/-- The memory `strlen` scans after a chunk has been stored. -/
def Chunk.mem (c : Chunk) (buf : Buf 255) : List UInt8 :=
  c.bytes ++ (buf.1.drop c.bytes.length ++ c.beyond)

def Chunk.store (c : Chunk) (buf : Buf 255) : Buf 255 := (Read.data c.bytes c.pos c.le).store buf

theorem Chunk.store_append (c : Chunk) (buf : Buf 255) (m : List UInt8) :
    (c.store buf).1 ++ m = c.bytes ++ (buf.1.drop c.bytes.length ++ m) := by
  simp [Chunk.store, Read.bytes]

theorem strEcho_chunk (buf : Buf 255) (c : Chunk) (cs : List ReadCall) :
    strEcho buf (c.call :: cs) =
      match strlen (c.mem buf) with
      | none => ⟨[], .overrun, cs⟩
      | some len =>
        { strEcho (c.store buf) cs with
          writes := (c.mem buf).take len :: (strEcho (c.store buf) cs).writes } := by
  have hpos : (Chunk.call c).result.ret > 0 := by
    simp only [Chunk.call, Read.ret]
    exact_mod_cast c.pos
  rw [strEcho]
  simp only [hpos, if_true]
  rw [show (c.call.result.store buf).1 ++ c.call.beyond = c.mem buf from
    c.store_append buf c.beyond]
  rfl

/-- A NUL-free chunk is written back as it is exactly when a NUL follows it. -/
theorem strlen_mem_iff {c : Chunk} (h : 0 ∉ c.bytes) (buf : Buf 255) :
    strlen (c.mem buf) = some c.bytes.length ↔
      (buf.1 ++ c.beyond)[c.bytes.length]? = some 0 := by
  have hl : c.bytes.length ≤ buf.1.length := by
    rw [buf.2]
    exact c.le
  have hd : buf.1.drop c.bytes.length ++ c.beyond = (buf.1 ++ c.beyond).drop c.bytes.length := by
    rw [List.drop_append_of_le_length hl]
  rw [Chunk.mem, strlen_append h, hd]
  constructor
  · intro hs
    obtain ⟨k, hk, he⟩ := Option.map_eq_some_iff.mp hs
    obtain rfl : k = 0 := by omega
    simpa using (strlen_zero_iff _).mp hk
  · intro hs
    rw [(strlen_zero_iff _).mpr (by simpa using hs)]
    simp

theorem strlen_mem_ge {c : Chunk} (h : 0 ∉ c.bytes) {buf : Buf 255} {k : Nat}
    (hk : strlen (c.mem buf) = some k) : c.bytes.length ≤ k := by
  rw [Chunk.mem, strlen_append h] at hk
  obtain ⟨j, -, rfl⟩ := Option.map_eq_some_iff.mp hk
  omega

theorem nulTerminated_nil (buf : Buf 255) : NulTerminated buf [] := by
  intro pre c post h
  simp at h

/-- A stored NUL-free chunk moves the first possible NUL behind its end and changes nothing
there. -/
theorem store_getElem?_iff {c : Chunk} (h : 0 ∉ c.bytes) (buf : Buf 255) (m : List UInt8)
    (l : Nat) :
    ((c.store buf).1 ++ m)[l]? = some 0 ↔ c.bytes.length ≤ l ∧ (buf.1 ++ m)[l]? = some 0 := by
  have hl : c.bytes.length ≤ buf.1.length := by
    rw [buf.2]
    exact c.le
  rw [c.store_append, ← List.drop_append_of_le_length hl]
  by_cases hlt : l < c.bytes.length
  · rw [List.getElem?_append_left hlt]
    constructor
    · intro he
      exact absurd (List.mem_of_getElem? he) h
    · intro he
      omega
  · rw [List.getElem?_append_right (by omega), List.getElem?_drop, Nat.add_sub_cancel' (by omega)]
    exact ⟨fun he => ⟨by omega, he⟩, fun he => he.2⟩

theorem nulTerminated_cons (buf : Buf 255) (c : Chunk) (cs : List Chunk) :
    NulTerminated buf (c :: cs) ↔
      (0 ∉ c.bytes ∧ (buf.1 ++ c.beyond)[c.bytes.length]? = some 0) ∧
      NulTerminated (c.store buf) cs := by
  constructor
  · intro h
    obtain ⟨h0, -, hn⟩ := h [] c cs rfl
    refine ⟨⟨h0, hn⟩, fun pre d post hd => ?_⟩
    obtain ⟨hd0, hdle, hdn⟩ := h (c :: pre) d post (by rw [hd]; rfl)
    have hcd : c.bytes.length ≤ d.bytes.length := hdle c List.mem_cons_self
    exact ⟨hd0, fun p hp => hdle p (List.mem_cons_of_mem _ hp),
      (store_getElem?_iff h0 buf _ _).mpr ⟨hcd, hdn⟩⟩
  · rintro ⟨⟨h0, hn⟩, hcs⟩ pre d post hd
    cases pre with
    | nil =>
      have he : c = d := (List.cons.inj hd).1
      rw [← he]
      exact ⟨h0, by simp, hn⟩
    | cons a pre =>
      obtain ⟨he, hd⟩ := List.cons.inj hd
      obtain ⟨hd0, hdle, hdn⟩ := hcs pre d post hd
      obtain ⟨hcd, hdn⟩ := (store_getElem?_iff h0 buf _ _).mp hdn
      refine ⟨hd0, fun p hp => ?_, hdn⟩
      rcases List.mem_cons.mp hp with rfl | hp
      · rw [← he]
        exact hcd
      · exact hdle p hp

theorem strEcho_eof (buf : Buf 255) : strEcho buf (script []) = ⟨[], .returned, []⟩ := by
  simp [script, strEcho, Read.ret]

theorem script_cons (c : Chunk) (cs : List Chunk) : script (c :: cs) = c.call :: script cs := rfl

/-- Each chunk is written back as it is, and `str_echo` returns. -/
def ChunkWise (buf : Buf 255) (chunks : List Chunk) : Prop :=
  (strEcho buf (script chunks)).writes = chunks.map Chunk.bytes ∧
  (strEcho buf (script chunks)).fin = .returned

theorem chunkWise_of_nulTerminated {buf : Buf 255} {chunks : List Chunk}
    (h : NulTerminated buf chunks) : ChunkWise buf chunks := by
  induction chunks generalizing buf with
  | nil => simp [ChunkWise, strEcho_eof]
  | cons c cs ih =>
    obtain ⟨⟨h0, hn⟩, hcs⟩ := (nulTerminated_cons buf c cs).mp h
    obtain ⟨hw, hf⟩ := ih hcs
    have hlen := (strlen_mem_iff h0 buf).mpr hn
    have htake : (c.mem buf).take c.bytes.length = c.bytes := by simp [Chunk.mem]
    unfold ChunkWise
    rw [script_cons, strEcho_chunk, hlen]
    exact ⟨by simp only [htake, hw, List.map_cons], hf⟩

/-- Nothing `str_echo` writes holds a NUL. -/
theorem writes_nul_free (buf : Buf 255) (chunks : List Chunk) :
    0 ∉ (strEcho buf (script chunks)).writes.flatten := by
  induction chunks generalizing buf with
  | nil => simp [strEcho_eof]
  | cons c cs ih =>
    rw [script_cons, strEcho_chunk]
    cases hs : strlen (c.mem buf) with
    | none => simp
    | some k =>
      simp only [List.flatten_cons, List.mem_append]
      rintro (hm | hm)
      · exact (strlen_eq_some hs).1 hm
      · exact ih (c.store buf) hm

/-- On NUL-free chunks every `write` is at least as long as its chunk. -/
theorem received_length_le {buf : Buf 255} {chunks : List Chunk} (h0 : ∀ c ∈ chunks, 0 ∉ c.bytes)
    (hf : (strEcho buf (script chunks)).fin = .returned) :
    (received chunks).length ≤ (strEcho buf (script chunks)).writes.flatten.length := by
  induction chunks generalizing buf with
  | nil => simp [received]
  | cons c cs ih =>
    rw [script_cons, strEcho_chunk] at hf ⊢
    cases hs : strlen (c.mem buf) with
    | none => simp [hs] at hf
    | some k =>
      rw [hs] at hf
      have hcs := ih (fun d hd => h0 d (List.mem_cons_of_mem _ hd)) hf
      have hk := strlen_mem_ge (h0 c List.mem_cons_self) hs
      have hw : c.bytes.length ≤ ((c.mem buf).take k).length := by
        simp only [Chunk.mem, List.length_take, List.length_append]
        omega
      simp only [received, List.map_cons, List.flatten_cons, List.length_append] at hcs ⊢
      omega

theorem nulTerminated_of_echoesExactly {buf : Buf 255} {chunks : List Chunk}
    (h : EchoesExactly buf chunks) : NulTerminated buf chunks := by
  have h0 : ∀ c ∈ chunks, 0 ∉ c.bytes := by
    intro c hc hm
    refine writes_nul_free buf chunks ?_
    rw [h.1, received, List.mem_flatten]
    exact ⟨c.bytes, List.mem_map_of_mem hc, hm⟩
  induction chunks generalizing buf with
  | nil => exact nulTerminated_nil buf
  | cons c cs ih =>
    obtain ⟨hw, hf⟩ := h
    rw [script_cons, strEcho_chunk] at hw hf
    cases hs : strlen (c.mem buf) with
    | none => simp [hs] at hf
    | some k =>
      rw [hs] at hw hf
      have hcs := fun d hd => h0 d (List.mem_cons_of_mem c hd)
      have hc0 := h0 c List.mem_cons_self
      have hk := strlen_mem_ge hc0 hs
      have hle := received_length_le hcs hf
      simp only [received, List.map_cons, List.flatten_cons] at hw hle
      -- the later writes already make up for the later chunks, so this one has no byte to spare
      have hkc : k = c.bytes.length := by
        have hlen := congrArg List.length hw
        have hb := (List.getElem?_eq_some_iff.mp (strlen_eq_some hs).2).1
        simp only [List.length_append, List.length_take] at hlen
        omega
      rw [hkc] at hs hw
      have htake : (c.mem buf).take c.bytes.length = c.bytes := by simp [Chunk.mem]
      rw [htake] at hw
      exact (nulTerminated_cons buf c cs).mpr
        ⟨⟨hc0, (strlen_mem_iff hc0 buf).mp hs⟩, ih ⟨List.append_cancel_left hw, hf⟩ hcs⟩

/-! ### The theorem -/

/-- **`str_echo`.**  The stream comes back unchanged exactly when every chunk is NUL-free and the
byte behind it happens to be NUL. -/
theorem strEcho_exact_iff (buf : Buf 255) (chunks : List Chunk) :
    EchoesExactly buf chunks ↔ NulTerminated buf chunks := by
  constructor
  · exact nulTerminated_of_echoesExactly
  · intro h
    obtain ⟨hw, hf⟩ := chunkWise_of_nulTerminated h
    exact ⟨by rw [hw, received], hf⟩

/-- In a zeroed buffer, a client that sends `"ab"` and then `"c"` gets `"abcb"` back. -/
theorem strEcho_resends_stale_byte :
    ¬ ∀ (buf : Buf 255) (chunks : List Chunk), EchoesExactly buf chunks := by
  intro h
  have hab := h ⟨List.replicate 255 0, List.length_replicate⟩
    [⟨[97, 98], by decide, by decide, []⟩, ⟨[99], by decide, by decide, []⟩]
  exact absurd hab.1 (by decide +kernel)

/-! ### Interrupted reads -/

/-- The script without the reads that failed with `EINTR`. -/
def uninterrupted (cs : List ReadCall) : List ReadCall := cs.filter fun c => !c.result.interrupted

/-- As if no read had been interrupted: the same bytes written, the same end, at the same point of
the script. -/
def Transparent (buf : Buf 255) (cs : List ReadCall) : Prop :=
  (strEcho buf cs).writes = (strEcho buf (uninterrupted cs)).writes ∧
  (strEcho buf cs).fin = (strEcho buf (uninterrupted cs)).fin ∧
  uninterrupted (strEcho buf cs).unread = (strEcho buf (uninterrupted cs)).unread

/-- A read fails with `EINTR`, and every one before it delivered bytes with a NUL at their end or
behind them. -/
def Interrupted : Buf 255 → List ReadCall → Prop
  | _, [] => False
  | buf, c :: cs =>
    c.result.interrupted = true ∨
    0 < c.result.ret ∧ strlen ((c.result.store buf).1 ++ c.beyond) ≠ none ∧
      Interrupted (c.result.store buf) cs

theorem uninterrupted_cons {c : ReadCall} (h : c.result.interrupted = false) (cs : List ReadCall) :
    uninterrupted (c :: cs) = c :: uninterrupted cs := by
  unfold uninterrupted
  rw [List.filter_cons_of_pos (by rw [h]; rfl)]

/-- A read that delivers nothing is the last, also where `EINTR` made it fail: -1 is not `EINTR`. -/
theorem strEcho_stop (buf : Buf 255) {c : ReadCall} (h : c.result.ret ≤ 0) (cs : List ReadCall) :
    strEcho buf (c :: cs) = ⟨[], .returned, cs⟩ := by
  have hne : c.result.ret ≠ EINTR := by
    have hpos : (0 : Int) < EINTR := by decide
    omega
  unfold strEcho
  dsimp only
  rw [if_neg (Int.not_lt.mpr h), if_neg fun hc => hne hc.2]

theorem strEcho_data (buf : Buf 255) {c : ReadCall} (h : 0 < c.result.ret) (cs : List ReadCall) :
    strEcho buf (c :: cs) =
      match strlen ((c.result.store buf).1 ++ c.beyond) with
      | none => ⟨[], .overrun, cs⟩
      | some len =>
        { strEcho (c.result.store buf) cs with
          writes := ((c.result.store buf).1 ++ c.beyond).take len ::
            (strEcho (c.result.store buf) cs).writes } := by
  rw [strEcho]
  dsimp only
  rw [if_pos h]

theorem ret_of_interrupted {c : ReadCall} (h : c.result.interrupted = true) :
    c.result.ret ≤ 0 := by
  cases hr : c.result with
  | data bytes pos le =>
    rw [hr] at h
    cases h
  | eof => exact Int.le_refl 0
  | fail e => exact (by decide : (-1 : Int) ≤ 0)

/-- Once it has returned, it has made a call. -/
theorem unread_length_lt {buf : Buf 255} {cs : List ReadCall}
    (h : (strEcho buf cs).fin = .returned) : (strEcho buf cs).unread.length < cs.length := by
  induction cs generalizing buf with
  | nil => cases h
  | cons c cs ih =>
    rcases Int.lt_or_le 0 c.result.ret with hpos | hstop
    · rw [strEcho_data buf hpos] at h ⊢
      split at h
      · cases h
      · next len hlen =>
        have hrest := ih h
        exact Nat.lt_succ_of_lt hrest
    · rw [strEcho_stop buf hstop]
      exact Nat.lt_succ_self _

theorem transparent_data {buf : Buf 255} {c : ReadCall} {cs : List ReadCall} {len : Nat}
    (hint : c.result.interrupted = false) (hpos : 0 < c.result.ret)
    (hlen : strlen ((c.result.store buf).1 ++ c.beyond) = some len) :
    Transparent buf (c :: cs) ↔ Transparent (c.result.store buf) cs := by
  unfold Transparent
  rw [uninterrupted_cons hint, strEcho_data buf hpos, strEcho_data buf hpos, hlen]
  dsimp only
  rw [List.cons.injEq, eq_self_iff_true, true_and]

/-- A call that is not interrupted matters as far as the service goes on behind it. -/
theorem interrupted_cons_iff {buf : Buf 255} {c : ReadCall} (hint : c.result.interrupted = false)
    (cs : List ReadCall) : Interrupted buf (c :: cs) ↔ 0 < c.result.ret ∧
      strlen ((c.result.store buf).1 ++ c.beyond) ≠ none ∧
      Interrupted (c.result.store buf) cs := by
  rw [Interrupted, hint]
  exact or_iff_right Bool.false_ne_true

/-- The service ends in this call, and not by an interruption. -/
theorem transparent_end {buf : Buf 255} {c : ReadCall} {cs : List ReadCall} {fin : EchoEnd}
    (hint : c.result.interrupted = false)
    (hend : ∀ cs, strEcho buf (c :: cs) = ⟨[], fin, cs⟩) : Transparent buf (c :: cs) := by
  unfold Transparent
  rw [uninterrupted_cons hint, hend, hend]
  exact ⟨rfl, rfl, rfl⟩

/-- **Interruptions.**  `str_echo` does as on the script without the interrupted reads exactly if it
meets none: each one ends the service. -/
theorem strEcho_transparent_iff (buf : Buf 255) (cs : List ReadCall) :
    Transparent buf cs ↔ ¬ Interrupted buf cs := by
  induction cs generalizing buf with
  | nil => exact iff_of_true ⟨rfl, rfl, rfl⟩ id
  | cons c cs ih =>
    cases hint : c.result.interrupted with
    | true =>
      refine iff_of_false (fun h => ?_) (not_not_intro (Or.inl hint))
      obtain ⟨-, hfin, hunread⟩ := h
      have hskip : uninterrupted (c :: cs) = uninterrupted cs := by
        unfold uninterrupted
        rw [List.filter_cons_of_neg (by rw [hint]; decide)]
      rw [strEcho_stop buf (ret_of_interrupted hint), hskip] at hfin hunread
      have hlt := unread_length_lt hfin.symm
      rw [← hunread] at hlt
      exact Nat.lt_irrefl _ hlt
    | false =>
      rw [interrupted_cons_iff hint]
      rcases Int.lt_or_le 0 c.result.ret with hpos | hstop
      · cases hlen : strlen ((c.result.store buf).1 ++ c.beyond) with
        | none =>
          have hend : ∀ cs, strEcho buf (c :: cs) = ⟨[], .overrun, cs⟩ := fun cs => by
            rw [strEcho_data buf hpos, hlen]
          exact iff_of_true (transparent_end hint hend) fun h => h.2.1 rfl
        | some len =>
          rw [transparent_data hint hpos hlen, ih]
          exact not_congr ⟨fun h => ⟨hpos, Option.some_ne_none len, h⟩, fun h => h.2.2⟩
      · have hend : ∀ cs, strEcho buf (c :: cs) = ⟨[], .returned, cs⟩ := strEcho_stop buf hstop
        exact iff_of_true (transparent_end hint hend) fun h => absurd h.1 (Int.not_lt.mpr hstop)

/-- A signal, and then a byte: the byte is not echoed. -/
theorem strEcho_interrupted : ¬ ∀ (buf : Buf 255) (cs : List ReadCall), Transparent buf cs := by
  intro h
  have hwrites := (h ⟨List.replicate 255 0, List.length_replicate⟩
    [⟨.fail EINTR, []⟩, ⟨.data [97] (by decide) (by decide), []⟩, ⟨.eof, []⟩]).1
  exact absurd hwrites (by decide +kernel)

end StudyDoc.Server
