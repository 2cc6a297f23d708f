import StudyDoc.Lib.Transition
import Mathlib.Data.List.Basic
import Mathlib.Logic.Function.Basic
import Mathlib.Tactic.Common

/-!
# `redis布隆过滤器.md`: the Bloom filter over a bitmap of redis

`add` sets the bits at the hashes of a string, `exists_` looks whether all of them are set; each
is one `MULTI` … `EXEC`, so that any number of clients take turns.  Redis and phpredis are a
parameter; `Redis.Laws` is what the filter relies on.  An `exec()` may fail: `foreach` then has no
turn, and `exists` is true.  After any sequence of calls, where `added` are the strings whose `add`
got its replies and `called` all that `add` was called with,

    exists_ false  →  some hash of the string is no hash of one of added
    exists_ true   →  its exec() failed, or each hash of the string is a hash of one of called
    no add failed, exists_ got its replies:
      exists_ true  ↔  each hash of the string is a hash of one of added         (run_exists_iff)

so no string that was added is ever denied.  No hash is above the offsets that redis takes
(limit_lt).
-/

namespace StudyDoc.BloomFilter

open Transition

/-! ## Algorithm -/

/-- `($hash % 0xFFFFFFFF) & 0xFFFFFFFF` -/
def limit (hash : BitVec 64) : BitVec 64 := hash.srem 0xFFFFFFFF &&& 0xFFFFFFFF

/-- `$len || $len = strlen($string);` -/
def lenOr (string : List UInt8) (len : Option Nat) : Nat :=
  match len with
  | none => string.length
  | some n => if n = 0 then string.length else n

/-- `ord($string[$i])` -/
def ord (string : List UInt8) (i : Nat) : BitVec 64 := BitVec.ofNat 64 (string.getD i 0).toNat

/-- What each function of `BloomFilterHash` is around its loop. -/
def hashWith (loop : List UInt8 → Nat → BitVec 64) (string : List UInt8) (len : Option Nat) : Nat :=
  (limit (loop string (lenOr string len))).toNat

def dekLoop (string : List UInt8) (len : Nat) : BitVec 64 :=
  (List.range len).foldl (fun hash i => ((hash <<< 5) ^^^ (hash.sshiftRight 27)) ^^^ ord string i)
    (BitVec.ofNat 64 len)

def fnvLoop (string : List UInt8) (len : Nat) : BitVec 64 :=
  (List.range len).foldl (fun hash i => (hash * 16777619).srem 0xFFFFFFFF ^^^ ord string i)
    2166136261

def DEKHash : List UInt8 → Option Nat → Nat := hashWith dekLoop

def FNVHash : List UInt8 → Option Nat → Nat := hashWith fnvLoop

inductive Command where
  | setBit (offset : Nat)
  | getBit (offset : Nat)

/-- What comes of `$pipe->exec()`. -/
inductive Exec where
  /-- A command that failed replies `false`, which `== 0`. -/
  | replies (res : List Nat)
  /-- `exec()` returns `false`. -/
  | failed
  | exception

/-- The server and the connections to it: `bit` is the bitmap of the bucket, and `exec` what
`multi()`, the commands of the pipe and `exec()` do. -/
structure Redis (R : Type) where
  bit : R → Nat → Bool
  exec : R → List Command → R × Exec

/-- Redis takes offsets of 32 bits.  A transaction takes place as a whole or not at all, also where
its replies do not arrive; nobody else writes the bucket. -/
structure Redis.Laws {R : Type} (redis : Redis R) : Prop where
  setBit_replies : ∀ r (offsets : List Nat) r' res, (∀ i ∈ offsets, i < 4294967296) →
    redis.exec r (offsets.map .setBit) = (r', .replies res) →
    ∀ i, redis.bit r' i = true ↔ redis.bit r i = true ∨ i ∈ offsets
  setBit_atomic : ∀ r (offsets : List Nat) r' res, (∀ i ∈ offsets, i < 4294967296) →
    redis.exec r (offsets.map .setBit) = (r', res) →
    (∀ i, redis.bit r' i = redis.bit r i) ∨
      ∀ i, redis.bit r' i = true ↔ redis.bit r i = true ∨ i ∈ offsets
  getBit_replies : ∀ r (offsets : List Nat) r' res, (∀ i ∈ offsets, i < 4294967296) →
    redis.exec r (offsets.map .getBit) = (r', .replies res) →
    res = offsets.map fun i => (redis.bit r i).toNat
  getBit_frame : ∀ r (offsets : List Nat) r' res, redis.exec r (offsets.map .getBit) = (r', res) →
    ∀ i, redis.bit r' i = redis.bit r i

/-- The loops of the functions that `$hashFunction` names. -/
abbrev HashFunction := List (List UInt8 → Nat → BitVec 64)

/-- `foreach ($res as $bit)`, which has no turn where `$res` is `false`. -/
def Exec.all : Exec → Option Bool
  | replies res => some (res.all fun bit => bit ≠ 0)
  | failed => some true
  | exception => none

section

variable {R : Type} (redis : Redis R) (hashFunction : HashFunction)

def add (r : R) (string : List UInt8) : R × Exec :=
  redis.exec r (hashFunction.map fun f => .setBit (hashWith f string none))

/-- The `exec()` of `exists`. -/
def exec (r : R) (string : List UInt8) : R × Exec :=
  let len := string.length
  redis.exec r (hashFunction.map fun f => .getBit (hashWith f string (some len)))

/-- `none`: no answer, but an exception. -/
def exists_ (r : R) (string : List UInt8) : R × Option Bool :=
  let (r, res) := exec redis hashFunction r string
  (r, res.all)

/-- A call, and what it returns. -/
inductive Event where
  | add (string : List UInt8) (res : Exec)
  | exists_ (string : List UInt8) (answer : Option Bool)

def filter : System R Event where
  init r := ∀ i, redis.bit r i = false
  step r e r' :=
    match e with
    | .add string res => add redis hashFunction r string = (r', res)
    | .exists_ string answer => exists_ redis hashFunction r string = (r', answer)

end

/-! ## What a run shows -/

def Event.called : Event → Option (List UInt8)
  | add string _ => some string
  | exists_ _ _ => none

def Event.added : Event → Option (List UInt8)
  | add string (.replies _) => some string
  | _ => none

/-- The hashes of a string. -/
def hashes (hashFunction : HashFunction) (string : List UInt8) : List Nat :=
  hashFunction.map fun f => hashWith f string none

/-- Each hash of `string` is one of some of the `strings`. -/
def Covered (hashFunction : HashFunction) (strings : List (List UInt8)) (string : List UInt8) :
    Prop :=
  ∀ i ∈ hashes hashFunction string, ∃ t ∈ strings, i ∈ hashes hashFunction t

/-! ## Lemmas -/

variable {R : Type} {redis : Redis R} {hashFunction : HashFunction} {string : List UInt8}
  {es : List Event} {r r' : R}

theorem limit_lt (hash : BitVec 64) : (limit hash).toNat < 4294967296 := by
  have hle : (limit hash).toNat ≤ (0xFFFFFFFF : BitVec 64).toNat := by
    unfold limit
    rw [BitVec.toNat_and]
    exact Nat.and_le_right
  exact Nat.lt_of_le_of_lt hle (by decide)

theorem hashWith_lt (loop : List UInt8 → Nat → BitVec 64) (string : List UInt8)
    (len : Option Nat) : hashWith loop string len < 4294967296 :=
  limit_lt _

theorem ord_lt (string : List UInt8) (i : Nat) : (ord string i).toNat < 256 := by
  unfold ord
  rw [BitVec.toNat_ofNat]
  have := (string.getD i 0).toNat_lt
  omega

/-- One turn of `FNVHash`: the product is an `int` of PHP, which has 63 bits and a sign. -/
theorem fnv_turn {hash o : BitVec 64} (h : hash.toNat < 4294967296) (ho : o.toNat < 256) :
    hash.toNat * 16777619 < 9223372036854775808 ∧
    ((hash * 16777619).srem 0xFFFFFFFF ^^^ o).toNat < 4294967296 := by
  have hmul : (hash * 16777619).toNat = hash.toNat * 16777619 := by
    rw [BitVec.toNat_mul]
    exact Nat.mod_eq_of_lt (by show hash.toNat * 16777619 < _; omega)
  have hmsb : (hash * 16777619).msb = false := by
    rw [BitVec.msb_eq_false_iff_two_mul_lt, hmul]
    omega
  have hsrem : ((hash * 16777619).srem 0xFFFFFFFF).toNat < 4294967295 := by
    rw [BitVec.srem_eq, hmsb]
    show ((hash * 16777619) % (0xFFFFFFFF : BitVec 64)).toNat < _
    rw [BitVec.toNat_umod]
    exact Nat.mod_lt _ (by decide)
  refine ⟨by omega, ?_⟩
  rw [BitVec.toNat_xor]
  exact Nat.xor_lt_two_pow (n := 32) (by omega) (by omega)

/-- `FNVHash` never gets to a product that is no `int` of PHP. -/
theorem fnvLoop_lt (string : List UInt8) (len : Nat) : (fnvLoop string len).toNat < 4294967296 := by
  unfold fnvLoop
  induction len with
  | zero =>
    show (2166136261 : BitVec 64).toNat < _
    decide
  | succ n ih =>
    rw [List.range_succ, List.foldl_append]
    exact (fnv_turn ih (ord_lt string n)).2

/-- `add` leaves the length out, `exists_` passes it. -/
theorem hashWith_length (loop : List UInt8 → Nat → BitVec 64) (string : List UInt8) :
    hashWith loop string (some string.length) = hashWith loop string none := by
  have hlen : lenOr string (some string.length) = lenOr string none := ite_self string.length
  unfold hashWith
  rw [hlen]

theorem hashes_lt : ∀ i ∈ hashes hashFunction string, i < 4294967296 := by
  intro i hi
  obtain ⟨f, -, rfl⟩ := List.mem_map.mp hi
  exact hashWith_lt f string none

theorem add_eq (r : R) (string : List UInt8) : add redis hashFunction r string =
    redis.exec r ((hashes hashFunction string).map .setBit) := by
  unfold add hashes
  rw [List.map_map]
  rfl

theorem exec_eq (r : R) (string : List UInt8) : exec redis hashFunction r string =
    redis.exec r ((hashes hashFunction string).map .getBit) := by
  unfold exec hashes
  simp only [hashWith_length]
  rw [List.map_map]
  rfl

theorem exists_eq (r : R) (string : List UInt8) : exists_ redis hashFunction r string =
    ((exec redis hashFunction r string).1, (exec redis hashFunction r string).2.all) := rfl

/-- An answer that rests on the replies is that of the bits. -/
theorem exists_replies (hlaws : redis.Laws) {res : List Nat}
    (hres : (exec redis hashFunction r string).2 = .replies res) :
    (exists_ redis hashFunction r string).2 =
      some ((hashes hashFunction string).all fun i => redis.bit r i) := by
  have hexec : redis.exec r ((hashes hashFunction string).map .getBit) =
      ((exec redis hashFunction r string).1, .replies res) := by
    rw [← exec_eq, ← hres]
  obtain rfl := hlaws.getBit_replies r _ _ res hashes_lt hexec
  have hbit : (fun bit : Nat => decide (bit ≠ 0)) ∘ (fun i => (redis.bit r i).toNat) =
      fun i => redis.bit r i := by
    funext i
    show decide ((redis.bit r i).toNat ≠ 0) = redis.bit r i
    cases redis.bit r i <;> rfl
  rw [exists_eq, hres, Exec.all, List.all_map, hbit]

theorem covered_of_mem {strings : List (List UInt8)} (h : string ∈ strings) :
    Covered hashFunction strings string :=
  fun _ hi => ⟨string, h, hi⟩

/-! ## Every call -/

/-- The bits are those of the strings that were added, and of some of those that were called. -/
structure Inv (redis : Redis R) (hashFunction : HashFunction) (es : List Event) (r : R) : Prop where
  set : ∀ t ∈ es.filterMap Event.added, ∀ i ∈ hashes hashFunction t, redis.bit r i = true
  called : ∀ i, redis.bit r i = true → ∃ t ∈ es.filterMap Event.called, i ∈ hashes hashFunction t

theorem Inv.add {res : Exec} (hlaws : redis.Laws) (h : Inv redis hashFunction es r)
    (hst : add redis hashFunction r string = (r', res)) :
    Inv redis hashFunction (es ++ [.add string res]) r' := by
  rw [add_eq] at hst
  have hcalled : (es ++ [Event.add string res]).filterMap Event.called =
      es.filterMap Event.called ++ [string] := List.filterMap_append
  -- the transaction took place, or it did not
  have hbits := hlaws.setBit_atomic r _ r' res hashes_lt hst
  have hkept : ∀ i, redis.bit r i = true → redis.bit r' i = true := by
    intro i hi
    rcases hbits with hsame | hset
    · rw [hsame i, hi]
    · exact (hset i).mpr (Or.inl hi)
  constructor
  case set =>
    intro t ht i hi
    rw [List.filterMap_append, List.mem_append] at ht
    rcases ht with ht | ht
    · exact hkept i (h.set t ht i hi)
    · cases res with
      | replies res =>
        obtain rfl := List.mem_singleton.mp ht
        exact (hlaws.setBit_replies r _ r' res hashes_lt hst i).mpr (Or.inr hi)
      | failed | exception => cases ht
  case called =>
    intro i hi
    rw [hcalled]
    have hold : redis.bit r i = true → ∃ t ∈ es.filterMap Event.called ++ [string],
        i ∈ hashes hashFunction t := by
      intro hr
      obtain ⟨t, ht, hit⟩ := h.called i hr
      exact ⟨t, List.mem_append_left _ ht, hit⟩
    rcases hbits with hsame | hset
    · exact hold (hsame i ▸ hi)
    · rcases (hset i).mp hi with hr | hnew
      · exact hold hr
      · exact ⟨string, List.mem_append_right _ (List.mem_singleton_self _), hnew⟩

theorem Inv.exists_ {answer : Option Bool} (hlaws : redis.Laws) (h : Inv redis hashFunction es r)
    (hst : exists_ redis hashFunction r string = (r', answer)) :
    Inv redis hashFunction (es ++ [.exists_ string answer]) r' := by
  have hr' : (exec redis hashFunction r string).1 = r' := congrArg Prod.fst hst
  have hsame : ∀ i, redis.bit r' i = redis.bit r i := by
    intro i
    rw [← hr', exec_eq]
    exact hlaws.getBit_frame r _ _ _ rfl i
  constructor
  case set =>
    intro t ht i hi
    rw [List.filterMap_append, List.mem_append] at ht
    rcases ht with ht | ht
    · rw [hsame i]
      exact h.set t ht i hi
    · cases ht
  case called =>
    intro i hi
    obtain ⟨t, ht, hit⟩ := h.called i (hsame i ▸ hi)
    rw [List.filterMap_append]
    exact ⟨t, List.mem_append_left _ ht, hit⟩

theorem run_inv (hlaws : redis.Laws) (h : (filter redis hashFunction).Run es r) :
    Inv redis hashFunction es r := by
  refine h.invariant ?_ ?_
  · intro r hinit
    constructor
    case set =>
      intro t ht
      cases ht
    case called =>
      intro i hi
      rw [hinit i] at hi
      cases hi
  · intro es r e r' _ hi hst
    cases e with
    | add string res => exact hi.add hlaws hst
    | exists_ string answer => exact hi.exists_ hlaws hst

/-- Where every `add` got its replies, the strings are the same. -/
theorem called_eq_added (h : ∀ e ∈ es, e.called = e.added) :
    es.filterMap Event.called = es.filterMap Event.added :=
  List.filterMap_congr h

/-! ## Main results -/

/-- What `exists` answers after the calls `es`. -/
structure Answers (redis : Redis R) (hashFunction : HashFunction) (es : List Event) (r : R) :
    Prop where
  denied : ∀ string, (exists_ redis hashFunction r string).2 = some false →
    ¬ Covered hashFunction (es.filterMap Event.added) string
  /-- A string may exist for its hashes' sake, or because the `exec()` failed. -/
  found : ∀ string, (exists_ redis hashFunction r string).2 = some true →
    (exec redis hashFunction r string).2 = .failed ∨
      Covered hashFunction (es.filterMap Event.called) string
  failed : ∀ string, (exec redis hashFunction r string).2 = .failed →
    (exists_ redis hashFunction r string).2 = some true
  /-- No false negatives. -/
  added : ∀ string ∈ es.filterMap Event.added, (exists_ redis hashFunction r string).2 ≠ some false
  /-- Where every `add` got its replies. -/
  answered : (∀ e ∈ es, e.called = e.added) → ∀ string res,
    (exec redis hashFunction r string).2 = .replies res →
    ((exists_ redis hashFunction r string).2 = some true ↔
      Covered hashFunction (es.filterMap Event.added) string)

/-- The bits that what was added has set are set, and others only for what was called. -/
theorem run_exists_iff (hlaws : redis.Laws) (h : (filter redis hashFunction).Run es r) :
    Answers redis hashFunction es r := by
  have hi := run_inv hlaws h
  have hset : ∀ string, Covered hashFunction (es.filterMap Event.added) string →
      (hashes hashFunction string).all (fun i => redis.bit r i) = true := by
    intro string hcovered
    rw [List.all_eq_true]
    intro i hi'
    obtain ⟨t, ht, hit⟩ := hcovered i hi'
    exact hi.set t ht i hit
  have hcalled : ∀ string, (hashes hashFunction string).all (fun i => redis.bit r i) = true →
      Covered hashFunction (es.filterMap Event.called) string := by
    intro string hall i hi'
    exact hi.called i (List.all_eq_true.mp hall i hi')
  have hdenied : ∀ string, (exists_ redis hashFunction r string).2 = some false →
      ¬ Covered hashFunction (es.filterMap Event.added) string := by
    intro string hfalse hcovered
    cases hres : (exec redis hashFunction r string).2 with
    | replies res =>
      rw [exists_replies hlaws hres, hset string hcovered] at hfalse
      cases hfalse
    | failed | exception =>
      rw [exists_eq, hres] at hfalse
      cases hfalse
  constructor
  case denied => exact hdenied
  case found =>
    intro string htrue
    cases hres : (exec redis hashFunction r string).2 with
    | replies res =>
      rw [exists_replies hlaws hres] at htrue
      exact Or.inr (hcalled string (Option.some.inj htrue))
    | failed => exact Or.inl rfl
    | exception =>
      rw [exists_eq, hres] at htrue
      cases htrue
  case failed =>
    intro string hres
    rw [exists_eq, hres, Exec.all]
  case added => exact fun string hs hfalse => hdenied string hfalse (covered_of_mem hs)
  case answered =>
    intro hall string res hres
    rw [exists_replies hlaws hres, Option.some_inj]
    exact ⟨fun htrue => called_eq_added hall ▸ hcalled string htrue, hset string⟩

/-- One command on the bitmap, and its reply. -/
def Command.run (bitmap : Nat → Bool) : Command → (Nat → Bool) × Nat
  | setBit offset => (Function.update bitmap offset true, (bitmap offset).toNat)
  | getBit offset => (bitmap, (bitmap offset).toNat)

def runAll (bitmap : Nat → Bool) : List Command → (Nat → Bool) × List Nat
  | [] => (bitmap, [])
  | c :: pipe =>
    let (bitmap, reply) := c.run bitmap
    let (bitmap, replies) := runAll bitmap pipe
    (bitmap, reply :: replies)

/-- A server and the plan of its connections: the replies of a transaction arrive (`none`), or they
do not, and the transaction takes place or not. -/
def breaking : Redis ((Nat → Bool) × List (Option Bool)) where
  bit r := r.1
  exec r pipe :=
    let (bitmap, replies) := runAll r.1 pipe
    match r.2 with
    | [] => ((bitmap, []), .replies replies)
    | none :: plan => ((bitmap, plan), .replies replies)
    | some true :: plan => ((bitmap, plan), .failed)
    | some false :: plan => ((r.1, plan), .failed)

theorem runAll_setBit (offsets : List Nat) (bitmap : Nat → Bool) (i : Nat) :
    (runAll bitmap (offsets.map .setBit)).1 i = true ↔ bitmap i = true ∨ i ∈ offsets := by
  induction offsets generalizing bitmap with
  | nil => simp [runAll]
  | cons a offsets ih =>
    show (runAll (Function.update bitmap a true) (offsets.map .setBit)).1 i = true ↔ _
    rw [ih, List.mem_cons]
    by_cases hia : i = a
    · subst hia
      simp
    · simp [hia]

theorem runAll_getBit (offsets : List Nat) (bitmap : Nat → Bool) :
    runAll bitmap (offsets.map .getBit) = (bitmap, offsets.map fun i => (bitmap i).toNat) := by
  induction offsets with
  | nil => rfl
  | cons a offsets ih => simp only [List.map_cons, runAll, Command.run, ih]

/-- The two things that an `exec` of `breaking` leaves, and what the replies are. -/
theorem breaking_exec {r r' : (Nat → Bool) × List (Option Bool)} {pipe : List Command} {res : Exec}
    (h : breaking.exec r pipe = (r', res)) :
    (r'.1 = r.1 ∧ res = .failed) ∨ r'.1 = (runAll r.1 pipe).1 ∧
      (res = .failed ∨ res = .replies (runAll r.1 pipe).2) := by
  obtain ⟨bitmap, plan⟩ := r
  dsimp only [breaking] at h
  split at h
  · cases h
    exact Or.inr ⟨rfl, Or.inr rfl⟩
  · cases h
    exact Or.inr ⟨rfl, Or.inr rfl⟩
  · cases h
    exact Or.inr ⟨rfl, Or.inl rfl⟩
  · cases h
    exact Or.inl ⟨rfl, rfl⟩

theorem breaking_laws : breaking.Laws where
  setBit_replies := by
    intro r offsets r' res _ h i
    rcases breaking_exec h with ⟨-, hres⟩ | ⟨hr', -⟩
    · cases hres
    · show r'.1 i = true ↔ _
      rw [hr']
      exact runAll_setBit offsets r.1 i
  setBit_atomic := by
    intro r offsets r' res _ h
    rcases breaking_exec h with ⟨hr', -⟩ | ⟨hr', -⟩
    · exact Or.inl fun i => congrFun hr' i
    · refine Or.inr fun i => ?_
      show r'.1 i = true ↔ _
      rw [hr']
      exact runAll_setBit offsets r.1 i
  getBit_replies := by
    intro r offsets r' res _ h
    rcases breaking_exec h with ⟨-, hres⟩ | ⟨-, hres | hres⟩
    · cases hres
    · cases hres
    · rw [runAll_getBit] at hres
      exact Exec.replies.inj hres
  getBit_frame := by
    intro r offsets r' res h i
    rcases breaking_exec h with ⟨hr', -⟩ | ⟨hr', -⟩
    · exact congrFun hr' i
    · rw [runAll_getBit] at hr'
      exact congrFun hr' i

/-- One more `add`, with what comes of it. -/
theorem run_add (h : (filter redis hashFunction).Run es r) (string : List UInt8) :
    (filter redis hashFunction).Run (es ++ [.add string (add redis hashFunction r string).2])
      (add redis hashFunction r string).1 := by
  refine h.next ?_
  show add redis hashFunction r string = (_, _)
  rfl

/-- Of three calls of `add`, the second one's transaction takes place and its replies are lost. -/
theorem run_exists_iff_breaking : ∃ es r, (filter breaking [dekLoop, fnvLoop]).Run es r ∧
    es.filterMap Event.added = [[114, 101, 100], [112, 104, 112]] ∧
    es.filterMap Event.called = [[114, 101, 100], [99, 103, 105], [112, 104, 112]] ∧
    Answers breaking [dekLoop, fnvLoop] es r := by
  have hinit : (filter breaking [dekLoop, fnvLoop]).Run []
      (fun _ => false, [none, some true, none]) := .start fun _ => rfl
  have hrun := run_add (run_add (run_add hinit [114, 101, 100]) [99, 103, 105]) [112, 104, 112]
  exact ⟨_, _, hrun, rfl, rfl, run_exists_iff breaking_laws hrun⟩

end StudyDoc.BloomFilter
