import StudyDoc.Algorithm.NextPrime
import StudyDoc.Lib.OpenAddressing
import StudyDoc.Lib.Transition

/-!
# `散列.md`: a hash table with quadratic probing

`Find` looks at the cells `(Hash(Key) + i * i) mod TableSize` for `i = 0, 1, 2, ...`, one addition
and at most one subtraction from cell to cell.  Over an odd `TableSize`

    Find returns  ↔  Hash(Key) is in the table, and one of the first TableSize / 2 + 1 of the cells
                     is empty or holds Key                                   (find_returns_iff)

and otherwise it is undefined: it reads a cell outside of the table or, with a size next to that of
the greatest `int`, `2 * ++CollisionNum` is no `int` any more.  The tables that `InitializeTable`,
`Insert` and `Rehash` make have a prime size, and hold exactly the keys inserted, each in one cell
(run_mem_iff); an `Insert` returns while less than half of the cells are taken, and a `Rehash`
always does (run_progress).
-/

namespace StudyDoc.HashQuad

open OpenAddressing Transition

/-! ## Algorithm -/

def minTableSize : Nat := 10

inductive KindOfEntry where
  | legitimate
  | empty
  | deleted
  deriving DecidableEq

structure HashEntry where
  element : Int
  info : KindOfEntry

structure HashTbl where
  tableSize : Nat
  theCells : Nat → HashEntry

/-- An `int` remainder, which has the sign of `Key`, as an `unsigned int`. -/
def hash (key : Int) (tableSize : Nat) : Nat := (key.tmod tableSize % 4294967296).toNat

/-- `for( i = 0; i < H->TableSize; i++ ) H->TheCells[ i ].Info = Empty;` -/
def clear (theCells : Nat → HashEntry) : Nat → Nat → HashEntry
  | 0 => theCells
  | i + 1 =>
    Function.update (clear theCells i) i { clear theCells i i with info := KindOfEntry.empty }

/-- What the two `malloc`s give; the cells hold whatever the memory held. -/
structure Heap where
  hashTbl : Bool
  cells : Option (Nat → HashEntry)

def initializeTable (heap : Heap) (tableSize : Nat) : Outcome HashTbl :=
  if tableSize < minTableSize then .exits "Table size too small"
  else if heap.hashTbl then do
    let tableSize ← nextPrime tableSize
    match heap.cells with
    | some theCells => .returns ⟨tableSize, clear theCells tableSize⟩
    | none => .exits "Out of space!!!"
  else .exits "Out of space!!!"

/-- The `while` of `Find`; the turns it is given are never used up (find_returns_iff). -/
def findLoop (key : Int) (h : HashTbl) : Nat → Nat → Nat → Outcome Nat
  | 0, _, _ => .running
  | fuel + 1, collisionNum, currentPos =>
    if h.tableSize ≤ currentPos then .undefined
    else if (h.theCells currentPos).info ≠ .empty ∧ (h.theCells currentPos).element ≠ key then
      if intMax < 2 * (collisionNum + 1) then .undefined
      else
        let currentPos := (currentPos + (2 * (collisionNum + 1) - 1)) % 4294967296
        let currentPos := if h.tableSize ≤ currentPos then currentPos - h.tableSize else currentPos
        findLoop key h fuel (collisionNum + 1) currentPos
    else .returns currentPos

def find (key : Int) (h : HashTbl) : Outcome Nat :=
  findLoop key h (h.tableSize + 2) 0 (hash key h.tableSize)

def insert (key : Int) (h : HashTbl) : Outcome HashTbl := do
  let pos ← find key h
  if (h.theCells pos).info ≠ .legitimate then
    return { h with theCells := Function.update h.theCells pos ⟨key, .legitimate⟩ }
  else return h

/-- `for( i = 0; i < OldSize; i++ ) if( OldCells[ i ].Info == Legitimate ) Insert( .. );` -/
def reinsert (oldCells : Nat → HashEntry) : Nat → HashTbl → Outcome HashTbl
  | 0, h => return h
  | i + 1, h => do
    let h ← reinsert oldCells i h
    if (oldCells i).info = .legitimate then insert (oldCells i).element h else return h

def rehash (heap : Heap) (h : HashTbl) : Outcome HashTbl :=
  if intMax < 2 * h.tableSize then .undefined
  else do
    let new ← initializeTable heap (2 * h.tableSize)
    reinsert h.theCells h.tableSize new

def retrieve (pos : Nat) (h : HashTbl) : Int := (h.theCells pos).element

/-- `HashVal = (HashVal<<5) + *key++`, over the characters of a string. -/
def hashVal (key : List Int) : BitVec 32 :=
  key.foldl (fun hashVal c => (hashVal <<< 5) + BitVec.ofInt 32 c) 0

/-- The `Hash` of a string. -/
def hashString (key : List Int) (tableSize : Nat) : Nat := (hashVal key).toNat % tableSize

inductive Op where
  | insert (key : Int)
  | rehash (heap : Heap)

def apply (h : HashTbl) : Op → Outcome HashTbl
  | .insert key => insert key h
  | .rehash heap => rehash heap h

/-- A table from `InitializeTable`, and the calls on it that return. -/
def table : System HashTbl Op where
  init h := ∃ heap tableSize, initializeTable heap tableSize = .returns h
  step h op h' := apply h op = .returns h'

/-- The keys that a run inserts. -/
def inserted (ops : List Op) : Finset Int :=
  (ops.filterMap fun
    | .insert key => some key
    | .rehash _ => none).toFinset

/-! ## The keys of a table -/

/-- The `i`-th cell of the search for `key`. -/
def probe (tableSize : Nat) (key : Int) (i : Nat) : Nat := (hash key tableSize + i * i) % tableSize

def content (h : HashTbl) (pos : Nat) : Option Int :=
  if pos < h.tableSize ∧ (h.theCells pos).info ≠ .empty then some (h.theCells pos).element else none

def Mem (key : Int) (h : HashTbl) : Prop := ∃ pos, content h pos = some key

def taken (h : HashTbl) : Finset Nat :=
  (Finset.range h.tableSize).filter fun pos => (h.theCells pos).info ≠ .empty

structure Lawful (h : HashTbl) : Prop where
  prime : h.tableSize.Prime
  odd : h.tableSize % 2 = 1
  lt_intMax : h.tableSize < intMax
  kinds : ∀ pos < h.tableSize,
    (h.theCells pos).info = .empty ∨ (h.theCells pos).info = .legitimate
  placed : Placed (probe h.tableSize) (content h)

/-! ## `Find` -/

section Find

variable {h : HashTbl} {key : Int}

theorem hash_lt_iff (hp : 0 < h.tableSize) (hlt : h.tableSize < intMax) :
    hash key h.tableSize < h.tableSize ↔ 0 ≤ key.tmod h.tableSize := by
  unfold intMax at hlt
  have h1 : key.tmod h.tableSize < h.tableSize := Int.tmod_lt_of_pos key (by omega)
  have h2 : -(h.tableSize : Int) < key.tmod h.tableSize := by
    have := Int.tmod_lt_of_pos (-key) (show (0 : Int) < h.tableSize by omega)
    rw [Int.neg_tmod] at this
    omega
  unfold hash
  omega

theorem content_eq_none {pos : Nat} (hpos : pos < h.tableSize) :
    content h pos = none ↔ (h.theCells pos).info = .empty := by
  unfold content
  split
  · rename_i hc
    simp [hc.2]
  · rename_i hc
    simp only [true_iff]
    by_contra hne
    exact hc ⟨hpos, hne⟩

theorem content_eq_some {pos : Nat} {k : Int} : content h pos = some k ↔
    pos < h.tableSize ∧ (h.theCells pos).info ≠ .empty ∧ (h.theCells pos).element = k := by
  unfold content
  rw [Option.ite_none_right_eq_some, Option.some_inj, and_assoc]

theorem stop_iff {pos : Nat} (hpos : pos < h.tableSize) : Stop (content h) key pos ↔
    ¬ ((h.theCells pos).info ≠ .empty ∧ (h.theCells pos).element ≠ key) := by
  unfold Stop
  rw [content_eq_none hpos, content_eq_some]
  constructor
  · rintro (he | ⟨-, -, heq⟩) ⟨hne, hkey⟩
    · exact hne he
    · exact hkey heq
  · intro hn
    by_cases he : (h.theCells pos).info = .empty
    · exact Or.inl he
    · refine Or.inr ⟨hpos, he, ?_⟩
      by_contra hkey
      exact hn ⟨he, hkey⟩

theorem probe_succ (p : Nat) (key : Int) (k : Nat) :
    probe p key (k + 1) = (probe p key k + (2 * (k + 1) - 1)) % p := by
  unfold probe
  rw [Nat.mod_add_mod]
  congr 1
  have : (k + 1) * (k + 1) = k * k + (2 * (k + 1) - 1) := by
    have : (k + 1) * (k + 1) = k * k + 2 * k + 1 := by ring
    omega
  omega

theorem findLoop_found {fuel k : Nat} (hp : 0 < h.tableSize)
    (hs : Stop (content h) key (probe h.tableSize key k)) :
    findLoop key h (fuel + 1) k (probe h.tableSize key k) =
      .returns (probe h.tableSize key k) := by
  have hpos : probe h.tableSize key k < h.tableSize := Nat.mod_lt _ hp
  unfold findLoop
  rw [if_neg (by omega), if_neg ((stop_iff hpos).mp hs)]

/-- One subtraction is enough as long as `2 * CollisionNum - 1` is at most `TableSize`. -/
theorem findLoop_next {fuel k : Nat} (hlt : h.tableSize < intMax) (hk : k + 1 ≤ h.tableSize / 2)
    (hs : ¬ Stop (content h) key (probe h.tableSize key k)) :
    findLoop key h (fuel + 1) k (probe h.tableSize key k) =
      findLoop key h fuel (k + 1) (probe h.tableSize key (k + 1)) := by
  have hpos : probe h.tableSize key k < h.tableSize := Nat.mod_lt _ (by omega)
  have hnext := probe_succ h.tableSize key k
  rw [stop_iff hpos, not_not] at hs
  unfold intMax at hlt
  rw [findLoop, if_neg (by omega), if_pos hs, if_neg (by unfold intMax; omega)]
  have hword : (probe h.tableSize key k + (2 * (k + 1) - 1)) % 4294967296 =
      probe h.tableSize key k + (2 * (k + 1) - 1) := Nat.mod_eq_of_lt (by omega)
  simp only [hword]
  congr 1
  rw [hnext]
  split
  · rename_i hge
    rw [Nat.mod_eq_sub_mod hge, Nat.mod_eq_of_lt (by omega)]
  · exact (Nat.mod_eq_of_lt (by omega)).symm

theorem findLoop_walk {n fuel k : Nat} (hlt : h.tableSize < intMax) (hk : k + n ≤ h.tableSize / 2)
    (hs : ∀ i, k ≤ i → i < k + n → ¬ Stop (content h) key (probe h.tableSize key i)) :
    findLoop key h (n + fuel) k (probe h.tableSize key k) =
      findLoop key h fuel (k + n) (probe h.tableSize key (k + n)) := by
  induction n generalizing k with
  | zero => rw [Nat.zero_add, Nat.add_zero]
  | succ n ih =>
    rw [show n + 1 + fuel = n + fuel + 1 by omega,
      findLoop_next hlt (by omega) (hs k (Nat.le_refl k) (by omega)),
      ih (by omega) fun i h1 h2 => hs i (by omega) (by omega),
      show k + 1 + n = k + (n + 1) by omega]

/-- From `TableSize / 2` on a search only comes to cells it has seen, until it leaves the table. -/
theorem findLoop_lost (hodd : h.tableSize % 2 = 1) (hlt : h.tableSize < intMax)
    (hno : ∀ i ≤ h.tableSize / 2, ¬ Stop (content h) key (probe h.tableSize key i))
    {fuel k pos : Nat} (hk : k ≤ h.tableSize + 1) (hf : h.tableSize + 2 ≤ fuel + k)
    (hin : pos < h.tableSize → pos = probe h.tableSize key k ∧ k ≤ h.tableSize) :
    findLoop key h fuel k pos = .undefined := by
  induction fuel generalizing k pos with
  | zero => omega
  | succ fuel ih =>
    unfold findLoop
    split
    · rfl
    · rename_i hpos
      obtain ⟨rfl, hkp⟩ := hin (by omega)
      have hs : ¬ Stop (content h) key (probe h.tableSize key k) := by
        by_cases hhalf : k ≤ h.tableSize / 2
        · exact hno k hhalf
        · have := hno (h.tableSize - k) (by omega)
          rwa [probe, quadratic_mirror _ hkp] at this
      have hpos : probe h.tableSize key k < h.tableSize := by omega
      rw [stop_iff hpos, not_not] at hs
      rw [if_pos hs]
      split
      · rfl
      · rename_i hmax
        unfold intMax at hlt hmax
        have hword : (probe h.tableSize key k + (2 * (k + 1) - 1)) % 4294967296 =
            probe h.tableSize key k + (2 * (k + 1) - 1) := Nat.mod_eq_of_lt (by omega)
        simp only [hword]
        have hnext := probe_succ h.tableSize key k
        refine ih (by omega) (by omega) fun hsmall => ?_
        rw [hnext]
        split at hsmall
        · rename_i hge
          rw [if_pos hge, Nat.mod_eq_sub_mod hge, Nat.mod_eq_of_lt (by omega)]
          exact ⟨rfl, by omega⟩
        · rename_i hge
          rw [if_neg hge, Nat.mod_eq_of_lt (by omega)]
          exact ⟨rfl, by omega⟩

theorem probe_zero (hh : hash key h.tableSize < h.tableSize) :
    probe h.tableSize key 0 = hash key h.tableSize := Nat.mod_eq_of_lt hh

theorem find_eq_returns {n : Nat} (hlt : h.tableSize < intMax)
    (hh : hash key h.tableSize < h.tableSize) (hn : n ≤ h.tableSize / 2)
    (hs : StopsAt (probe h.tableSize) (content h) key n) :
    find key h = .returns (probe h.tableSize key n) := by
  have hwalk : findLoop key h (n + (h.tableSize + 2 - n)) 0 (probe h.tableSize key 0) = _ :=
    findLoop_walk hlt (by omega) fun i _ hi => hs.2 i (by omega)
  rw [probe_zero hh, Nat.zero_add, show n + (h.tableSize + 2 - n) = h.tableSize + 2 by omega]
    at hwalk
  rw [find, hwalk, show h.tableSize + 2 - n = h.tableSize + 1 - n + 1 by omega,
    findLoop_found (by omega) hs.1]

theorem find_eq_undefined (hodd : h.tableSize % 2 = 1) (hlt : h.tableSize < intMax)
    (hno : ¬ (hash key h.tableSize < h.tableSize ∧
      ∃ i ≤ h.tableSize / 2, Stop (content h) key (probe h.tableSize key i))) :
    find key h = .undefined := by
  by_cases hh : hash key h.tableSize < h.tableSize
  · refine findLoop_lost hodd hlt (fun i hi hs => hno ⟨hh, i, hi, hs⟩) (by omega) (by omega)
      fun _ => ⟨?_, by omega⟩
    exact (probe_zero hh).symm
  · unfold find findLoop
    rw [if_pos (by omega)]

/-- The condition of the search. -/
def Finds (key : Int) (h : HashTbl) (n : Nat) : Prop :=
  0 ≤ key.tmod h.tableSize ∧ n ≤ h.tableSize / 2 ∧
    StopsAt (probe h.tableSize) (content h) key n

theorem find_returns {n : Nat} (hp : 0 < h.tableSize) (hlt : h.tableSize < intMax)
    (hf : Finds key h n) : find key h = .returns (probe h.tableSize key n) :=
  find_eq_returns hlt ((hash_lt_iff hp hlt).mpr hf.1) hf.2.1 hf.2.2

theorem finds_of_find {pos : Nat} (hodd : h.tableSize % 2 = 1) (hlt : h.tableSize < intMax)
    (hf : find key h = .returns pos) : ∃ n, Finds key h n ∧ probe h.tableSize key n = pos := by
  by_cases hyes : hash key h.tableSize < h.tableSize ∧
      ∃ i ≤ h.tableSize / 2, Stop (content h) key (probe h.tableSize key i)
  · obtain ⟨hh, i, hi, hs⟩ := hyes
    obtain ⟨n, hn, hstop⟩ := exists_stopsAt hs
    have hfind := find_eq_returns hlt hh (by omega) hstop
    rw [hfind] at hf
    exact ⟨n, ⟨(hash_lt_iff (by omega) hlt).mp hh, by omega, hstop⟩, Outcome.returns.inj hf⟩
  · rw [find_eq_undefined hodd hlt hyes] at hf
    cases hf

end Find

/-! ## `Insert` -/

section Insert

variable {h h' : HashTbl} {key : Int}

/-- `Insert` puts the key where the search for it stops. -/
theorem insert_content (hl : Lawful h) (hi : insert key h = .returns h') :
    h'.tableSize = h.tableSize ∧ ∃ n, Finds key h n ∧
      content h' = Function.update (content h) (probe h.tableSize key n) (some key) ∧
      ∀ pos < h.tableSize, (h'.theCells pos).info = (h.theCells pos).info ∨
        (h'.theCells pos).info = .legitimate := by
  obtain ⟨pos, hfind, hi⟩ := Outcome.bind_eq_returns.mp hi
  obtain ⟨n, hf, rfl⟩ := finds_of_find hl.odd hl.lt_intMax hfind
  have hpos : probe h.tableSize key n < h.tableSize := Nat.mod_lt _ hl.prime.pos
  split at hi
  · cases hi
    refine ⟨rfl, n, hf, funext fun pos => ?_, fun pos _ => ?_⟩
    · by_cases heq : pos = probe h.tableSize key n
      · subst heq
        rw [Function.update_self, content_eq_some]
        simp [hpos]
      · rw [Function.update_of_ne heq]
        simp only [content, Function.update_of_ne heq]
    · by_cases heq : pos = probe h.tableSize key n
      · subst heq
        exact Or.inr (by simp)
      · exact Or.inl (by simp [heq])
  · rename_i hlegit
    cases hi
    refine ⟨rfl, n, hf, (Function.update_eq_self_iff.mpr ?_).symm, fun _ _ => Or.inl rfl⟩
    -- the cell is not empty, so the search stopped there at the key itself
    rcases hf.2.2.1 with hnone | hsome
    · rw [content_eq_none hpos] at hnone
      rw [hnone] at hlegit
      exact absurd nofun hlegit
    · exact hsome.symm

theorem Lawful.insert (hl : Lawful h) (hi : insert key h = .returns h') : Lawful h' := by
  obtain ⟨hsize, n, hf, hcontent, hkinds⟩ := insert_content hl hi
  refine ⟨hsize ▸ hl.prime, hsize ▸ hl.odd, hsize ▸ hl.lt_intMax, fun pos hpos => ?_, ?_⟩
  · rw [hsize] at hpos
    rcases hkinds pos hpos with heq | heq
    · rw [heq]
      exact hl.kinds pos hpos
    · exact Or.inr heq
  · rw [hsize, hcontent]
    exact hl.placed.put hf.2.2

theorem mem_insert {k : Int} (hl : Lawful h) (hi : insert key h = .returns h') :
    Mem k h' ↔ k = key ∨ Mem k h := by
  obtain ⟨-, n, hf, hcontent, -⟩ := insert_content hl hi
  unfold Mem
  rw [hcontent]
  constructor
  · rintro ⟨pos, hpos⟩
    by_cases heq : pos = probe h.tableSize key n
    · rw [heq, Function.update_self] at hpos
      exact Or.inl (Option.some.inj hpos).symm
    · rw [Function.update_of_ne heq] at hpos
      exact Or.inr ⟨pos, hpos⟩
  · rintro (rfl | ⟨pos, hpos⟩)
    · exact ⟨_, Function.update_self ..⟩
    · by_cases heq : pos = probe h.tableSize key n
      · subst heq
        rcases hf.2.2.1 with hnone | hsome
        · rw [hnone] at hpos
          cases hpos
        · rw [hsome] at hpos
          exact ⟨_, by rw [Function.update_self, hpos]⟩
      · exact ⟨pos, by rw [Function.update_of_ne heq, hpos]⟩

theorem mem_taken {pos : Nat} : pos ∈ taken h ↔ ∃ k, content h pos = some k := by
  unfold taken
  rw [Finset.mem_filter, Finset.mem_range]
  constructor
  · rintro ⟨hpos, hne⟩
    exact ⟨_, content_eq_some.mpr ⟨hpos, hne, rfl⟩⟩
  · rintro ⟨k, hk⟩
    obtain ⟨hpos, hne, -⟩ := content_eq_some.mp hk
    exact ⟨hpos, hne⟩

/-- Two cells never hold one key, so a table has as many taken cells as keys. -/
theorem card_taken_le {keys : Finset Int} (hl : Lawful h) (hk : ∀ k, Mem k h → k ∈ keys) :
    (taken h).card ≤ keys.card := by
  refine Finset.card_le_card_of_injOn (fun pos => (h.theCells pos).element) ?_ ?_
  · intro pos hpos
    obtain ⟨k, hc⟩ := mem_taken.mp hpos
    have helem := (content_eq_some.mp hc).2.2
    show (h.theCells pos).element ∈ keys
    rw [helem]
    exact hk k ⟨pos, hc⟩
  · intro i hi j hj heq
    obtain ⟨ki, hci⟩ := mem_taken.mp hi
    obtain ⟨kj, hcj⟩ := mem_taken.mp hj
    have hei := (content_eq_some.mp hci).2.2
    have hej := (content_eq_some.mp hcj).2.2
    have heq : (h.theCells i).element = (h.theCells j).element := heq
    rw [hei, hej] at heq
    exact hl.placed.unique hci (heq ▸ hcj)

/-- A key that is in the table is found whatever the load is. -/
theorem exists_finds (hl : Lawful h) (hkey : 0 ≤ key.tmod h.tableSize)
    (hroom : Mem key h ∨ 2 * (taken h).card < h.tableSize) : ∃ n, Finds key h n := by
  have hodd := hl.odd
  by_cases hfree : 2 * (taken h).card < h.tableSize
  · have htaken : ∀ pos < h.tableSize, content h pos ≠ none → pos ∈ taken h :=
      fun pos _ hne => mem_taken.mpr (Option.ne_none_iff_exists'.mp hne)
    obtain ⟨i, hi, hnone⟩ := exists_quadratic_free hl.prime (hash key h.tableSize) (taken h)
      htaken (by omega)
    have hfirst : Stop (content h) key (probe h.tableSize key i) := Or.inl hnone
    obtain ⟨n, hn, hs⟩ := exists_stopsAt hfirst
    exact ⟨n, hkey, by omega, hs⟩
  · obtain ⟨pos, hpos⟩ := hroom.resolve_right hfree
    obtain ⟨n, hs, rfl⟩ := hl.placed pos key hpos
    refine ⟨n, hkey, ?_, hs⟩
    -- beyond `TableSize / 2` the search would have come to this cell before
    obtain ⟨j, hj, heq⟩ := exists_quadratic_half (hash key h.tableSize) hl.prime.pos n
    by_contra hn
    refine hs.2 j (by omega) ?_
    show Stop (content h) key ((hash key h.tableSize + j * j) % h.tableSize)
    rw [heq]
    exact hs.1

theorem insert_total (hl : Lawful h) (hkey : 0 ≤ key.tmod h.tableSize)
    (hroom : Mem key h ∨ 2 * (taken h).card < h.tableSize) :
    ∃ h', HashQuad.insert key h = .returns h' := by
  obtain ⟨n, hf⟩ := exists_finds hl hkey hroom
  unfold HashQuad.insert
  rw [find_returns hl.prime.pos hl.lt_intMax hf, Outcome.returns_bind]
  split
  · exact ⟨_, rfl⟩
  · exact ⟨_, rfl⟩

end Insert

/-! ## `InitializeTable` and `Rehash` -/

theorem clear_info (theCells : Nat → HashEntry) {n pos : Nat} (hpos : pos < n) :
    (clear theCells n pos).info = .empty := by
  induction n with
  | zero => omega
  | succ n ih =>
    by_cases heq : pos = n
    · subst heq
      simp [clear]
    · simp only [clear, Function.update_of_ne heq]
      exact ih (by omega)

theorem initializeTable_spec {heap : Heap} {n : Nat} {h : HashTbl}
    (hi : initializeTable heap n = .returns h) :
    Lawful h ∧ (∀ k, ¬ Mem k h) ∧ n ≤ h.tableSize := by
  unfold initializeTable at hi
  split at hi
  · cases hi
  · rename_i hmin
    unfold minTableSize at hmin
    split at hi
    · obtain ⟨p, hp, hi⟩ := Outcome.bind_eq_returns.mp hi
      obtain ⟨hprime, hodd, hlt, hle, -⟩ := nextPrime_spec (by omega) hp
      split at hi
      · rename_i theCells _
        cases hi
        have hnone : content ⟨p, clear theCells p⟩ = fun _ => none := by
          funext pos
          unfold content
          rw [if_neg]
          rintro ⟨hpos, hne⟩
          exact hne (clear_info theCells hpos)
        refine ⟨⟨hprime, hodd, hlt, fun pos hpos => Or.inl (clear_info theCells hpos), ?_⟩,
          ?_, hle⟩
        · rw [hnone]
          exact placed_none _
        · rintro k ⟨pos, hk⟩
          rw [hnone] at hk
          cases hk
      · cases hi
    · cases hi

theorem initializeTable_total {heap : Heap} {n : Nat} (hmin : minTableSize ≤ n)
    (hmax : 2 * n < 46339 * 46339) (hheap : heap.hashTbl = true) (hcells : heap.cells.isSome) :
    ∃ h, initializeTable heap n = .returns h := by
  unfold minTableSize at hmin
  obtain ⟨p, hp⟩ := nextPrime_total (by omega) hmax
  obtain ⟨theCells, hc⟩ := Option.isSome_iff_exists.mp hcells
  unfold initializeTable
  rw [if_neg (by unfold minTableSize; omega), if_pos hheap, hp, Outcome.returns_bind, hc]
  exact ⟨_, rfl⟩

section Rehash

variable {h new h' : HashTbl} {n : Nat}

/-- After `n` turns the new table has the keys of the first `n` old cells. -/
theorem reinsert_spec (hl : Lawful h) (hnew : Lawful new) (hempty : ∀ k, ¬ Mem k new)
    (hn : n ≤ h.tableSize) (hr : reinsert h.theCells n new = .returns h') :
    Lawful h' ∧ h'.tableSize = new.tableSize ∧
      ∀ k, Mem k h' ↔ ∃ pos < n, content h pos = some k := by
  induction n generalizing h' with
  | zero =>
    cases hr
    refine ⟨hnew, rfl, fun k => ⟨fun hk => absurd hk (hempty k), ?_⟩⟩
    rintro ⟨pos, hpos, -⟩
    omega
  | succ n ih =>
    obtain ⟨h1, hr1, hr⟩ := Outcome.bind_eq_returns.mp hr
    obtain ⟨hl1, hsize, hmem⟩ := ih (by omega) hr1
    split at hr
    · rename_i hlegit
      have hc : content h n = some (h.theCells n).element := by
        rw [content_eq_some, hlegit]
        exact ⟨by omega, nofun, rfl⟩
      refine ⟨hl1.insert hr, (insert_content hl1 hr).1.trans hsize, fun k => ?_⟩
      rw [mem_insert hl1 hr, hmem]
      constructor
      · rintro (rfl | ⟨pos, hpos, hk⟩)
        · exact ⟨n, by omega, hc⟩
        · exact ⟨pos, by omega, hk⟩
      · rintro ⟨pos, hpos, hk⟩
        by_cases heq : pos = n
        · subst heq
          rw [hc] at hk
          exact Or.inl (Option.some.inj hk).symm
        · exact Or.inr ⟨pos, by omega, hk⟩
    · rename_i hlegit
      cases hr
      have hc : content h n = none := by
        rw [content_eq_none (by omega)]
        exact (hl.kinds n (by omega)).resolve_right hlegit
      refine ⟨hl1, hsize, fun k => (hmem k).trans ⟨?_, ?_⟩⟩
      · rintro ⟨pos, hpos, hk⟩
        exact ⟨pos, by omega, hk⟩
      · rintro ⟨pos, hpos, hk⟩
        have hne : pos ≠ n := by
          rintro rfl
          rw [hc] at hk
          cases hk
        exact ⟨pos, by omega, hk⟩

/-- Before the turn `n` at most `n` cells are taken, of the at least `2 * OldSize` ones. -/
theorem reinsert_total (hl : Lawful h) (hnew : Lawful new) (hempty : ∀ k, ¬ Mem k new)
    (hsize : 2 * h.tableSize ≤ new.tableSize) (hkeys : ∀ k, Mem k h → 0 ≤ k)
    (hn : n ≤ h.tableSize) : ∃ h', reinsert h.theCells n new = .returns h' := by
  induction n with
  | zero => exact ⟨new, rfl⟩
  | succ n ih =>
    obtain ⟨h1, hr1⟩ := ih (by omega)
    obtain ⟨hl1, hsize1, hmem⟩ := reinsert_spec hl hnew hempty (by omega) hr1
    unfold reinsert
    rw [hr1, Outcome.returns_bind]
    split
    · rename_i hlegit
      have hc : content h n = some (h.theCells n).element := by
        rw [content_eq_some, hlegit]
        exact ⟨by omega, nofun, rfl⟩
      refine insert_total hl1 (Int.tmod_nonneg _ (hkeys _ ⟨n, hc⟩)) (Or.inr ?_)
      have hkeys : ∀ k, Mem k h1 →
          k ∈ (Finset.range n).image fun pos => (h.theCells pos).element := by
        intro k hk
        obtain ⟨pos, hpos, hck⟩ := (hmem k).mp hk
        exact Finset.mem_image.mpr
          ⟨pos, Finset.mem_range.mpr hpos, (content_eq_some.mp hck).2.2⟩
      have hcard := (card_taken_le hl1 hkeys).trans Finset.card_image_le
      rw [Finset.card_range] at hcard
      omega
    · exact ⟨h1, rfl⟩

theorem rehash_spec {heap : Heap} (hl : Lawful h) (hr : rehash heap h = .returns h') :
    Lawful h' ∧ 2 * h.tableSize ≤ h'.tableSize ∧ ∀ k, Mem k h' ↔ Mem k h := by
  unfold rehash at hr
  split at hr
  · cases hr
  · obtain ⟨new, hnew, hr⟩ := Outcome.bind_eq_returns.mp hr
    obtain ⟨hlnew, hempty, hle⟩ := initializeTable_spec hnew
    obtain ⟨hl', hsize, hmem⟩ := reinsert_spec hl hlnew hempty (Nat.le_refl _) hr
    refine ⟨hl', hsize ▸ hle, fun k => (hmem k).trans ⟨?_, ?_⟩⟩
    · rintro ⟨pos, -, hk⟩
      exact ⟨pos, hk⟩
    · rintro ⟨pos, hk⟩
      exact ⟨pos, (content_eq_some.mp hk).1, hk⟩

theorem rehash_total {heap : Heap} (hl : Lawful h) (hmin : minTableSize ≤ h.tableSize)
    (hmax : 4 * h.tableSize < 46339 * 46339) (hkeys : ∀ k, Mem k h → 0 ≤ k)
    (hheap : heap.hashTbl = true) (hcells : heap.cells.isSome) :
    ∃ h', rehash heap h = .returns h' := by
  obtain ⟨new, hnew⟩ : ∃ new, initializeTable heap (2 * h.tableSize) = .returns new :=
    initializeTable_total (by omega) (by omega) hheap hcells
  obtain ⟨hlnew, hempty, hle⟩ := initializeTable_spec hnew
  unfold rehash
  rw [if_neg (by unfold intMax; omega), hnew, Outcome.returns_bind]
  exact reinsert_total hl hlnew hempty hle hkeys (Nat.le_refl _)

end Rehash

/-! ## Runs -/

theorem run_lawful {ops : List Op} {h : HashTbl} (hr : table.Run ops h) :
    Lawful h ∧ minTableSize ≤ h.tableSize ∧ ∀ k, Mem k h ↔ k ∈ inserted ops := by
  refine hr.invariant (I := fun ops h => Lawful h ∧ minTableSize ≤ h.tableSize ∧
    ∀ k, Mem k h ↔ k ∈ inserted ops) ?_ ?_
  · rintro h ⟨heap, n, hi⟩
    obtain ⟨hl, hempty, hle⟩ := initializeTable_spec hi
    have hmin : minTableSize ≤ n := by
      by_contra hlt
      unfold initializeTable at hi
      rw [if_pos (by omega)] at hi
      cases hi
    exact ⟨hl, by omega, fun k => by simp [inserted, hempty k]⟩
  · rintro ops h op h' - ⟨hl, hmin, hmem⟩ hs
    cases op with
    | insert key =>
      refine ⟨hl.insert hs, (insert_content hl hs).1 ▸ hmin, fun k => ?_⟩
      rw [mem_insert hl hs, hmem]
      simp [inserted]
    | rehash heap =>
      obtain ⟨hl', hsize, hmem'⟩ := rehash_spec hl hs
      refine ⟨hl', by omega, fun k => ?_⟩
      rw [hmem', hmem]
      simp [inserted]

theorem hashVal_append (s t : List Int) :
    hashVal (s ++ t) = (hashVal s <<< (5 * t.length)) + hashVal t := by
  induction t using List.reverseRecOn with
  | nil => simp [hashVal]
  | append_singleton t c ih =>
    have hstep : ∀ l : List Int,
        hashVal (l ++ [c]) = (hashVal l <<< 5) + BitVec.ofInt 32 c := fun l => by simp [hashVal]
    rw [← List.append_assoc, hstep, hstep, ih, BitVec.shiftLeft_add_distrib,
      ← BitVec.shiftLeft_add, BitVec.add_assoc, List.length_append, List.length_singleton,
      Nat.mul_add, Nat.mul_one]

/-! ## Main results -/

/-- When a search comes to an end, for any table of an odd size and any key. -/
theorem find_returns_iff (h : HashTbl) (key : Int) (hodd : h.tableSize % 2 = 1)
    (hlt : h.tableSize < intMax) :
    (∀ pos, find key h = .returns pos ↔
      ∃ n, Finds key h n ∧ probe h.tableSize key n = pos) ∧
    (find key h = .undefined ↔ ¬ ∃ n, Finds key h n) := by
  refine ⟨fun pos => ⟨finds_of_find hodd hlt, ?_⟩, ?_, ?_⟩
  · rintro ⟨n, hf, rfl⟩
    exact find_returns (by omega) hlt hf
  · rintro hu ⟨n, hf⟩
    rw [find_returns (by omega) hlt hf] at hu
    cases hu
  · intro hno
    refine find_eq_undefined hodd hlt ?_
    rintro ⟨hh, i, hi, hs⟩
    obtain ⟨n, hn, hstop⟩ := exists_stopsAt hs
    exact hno ⟨n, (hash_lt_iff (by omega) hlt).mp hh, by omega, hstop⟩

/-- Ten cells asked for, in memory that was in use before. -/
def start : HashTbl := ⟨11, clear (fun _ => ⟨7, .legitimate⟩) 11⟩

theorem find_returns_iff_start : (start.tableSize % 2 = 1 ∧ start.tableSize < intMax) ∧
    (∀ pos, find 5 start = .returns pos ↔
      ∃ n, Finds 5 start n ∧ probe start.tableSize 5 n = pos) ∧
    (find 5 start = .undefined ↔ ¬ ∃ n, Finds 5 start n) :=
  ⟨by decide, find_returns_iff start 5 (by decide) (by decide)⟩

/-- A negative remainder is an index far outside of the table. -/
example : find (-5) start = .undefined := by decide

theorem run_start : table.Run [] start :=
  .start ⟨⟨true, some fun _ => ⟨7, .legitimate⟩⟩, 10, rfl⟩

/-- `16` and `5` have the same remainder. -/
theorem run_twoKeys : ∃ h, table.Run [.insert 5, .insert 16] h := by
  obtain ⟨h1, h2, hs1, hs2⟩ : ∃ h1 h2, table.step start (.insert 5) h1 ∧
      table.step h1 (.insert 16) h2 := ⟨_, _, rfl, rfl⟩
  have hr1 : table.Run [.insert 5] h1 := run_start.next hs1
  exact ⟨h2, hr1.next hs2⟩

/-- What the table holds after any calls that return: each key inserted, in one cell, and no other;
a search tells the one from the other. -/
theorem run_mem_iff {ops : List Op} {h : HashTbl} (hr : table.Run ops h) :
    (∀ key, key ∈ inserted ops ↔ ∃! pos, pos < h.tableSize ∧
      (h.theCells pos).info = .legitimate ∧ (h.theCells pos).element = key) ∧
    ∀ key pos, find key h = .returns pos → pos < h.tableSize ∧
      ((h.theCells pos).info = .legitimate ↔ key ∈ inserted ops) ∧
      (key ∈ inserted ops → retrieve pos h = key) := by
  obtain ⟨hl, -, hmem⟩ := run_lawful hr
  have hcell : ∀ key pos, content h pos = some key ↔ pos < h.tableSize ∧
      (h.theCells pos).info = .legitimate ∧ (h.theCells pos).element = key := by
    intro key pos
    rw [content_eq_some]
    refine and_congr_right fun hpos => and_congr_left fun _ => ⟨?_, fun hlegit => ?_⟩
    · exact (hl.kinds pos hpos).resolve_left
    · rw [hlegit]
      nofun
  refine ⟨fun key => ?_, fun key pos hfind => ?_⟩
  · rw [← hmem]
    constructor
    · rintro ⟨pos, hpos⟩
      exact ⟨pos, (hcell key pos).mp hpos, fun pos' hpos' =>
        hl.placed.unique ((hcell key pos').mpr hpos') hpos⟩
    · rintro ⟨pos, hpos, -⟩
      exact ⟨pos, (hcell key pos).mpr hpos⟩
  · obtain ⟨n, hf, rfl⟩ := finds_of_find hl.odd hl.lt_intMax hfind
    have hpos : probe h.tableSize key n < h.tableSize := Nat.mod_lt _ hl.prime.pos
    have hiff := (hl.placed.mem_iff hf.2.2).symm.trans (hmem key)
    have hlegit : (h.theCells (probe h.tableSize key n)).info = .legitimate ↔
        content h (probe h.tableSize key n) = some key := by
      constructor
      · intro hi
        rcases hf.2.2.1 with hnone | hsome
        · rw [content_eq_none hpos, hi] at hnone
          cases hnone
        · exact hsome
      · exact fun hc => ((hcell key _).mp hc).2.1
    exact ⟨hpos, hlegit.trans hiff, fun hk => ((hcell key _).mp (hiff.mpr hk)).2.2⟩

theorem run_mem_iff_twoKeys : ∃ h, table.Run [.insert 5, .insert 16] h ∧
    (∀ key, key ∈ inserted [.insert 5, .insert 16] ↔ ∃! pos, pos < h.tableSize ∧
      (h.theCells pos).info = .legitimate ∧ (h.theCells pos).element = key) ∧
    ∀ key pos, find key h = .returns pos → pos < h.tableSize ∧
      ((h.theCells pos).info = .legitimate ↔ key ∈ inserted [.insert 5, .insert 16]) ∧
      (key ∈ inserted [.insert 5, .insert 16] → retrieve pos h = key) := by
  obtain ⟨h, hr⟩ := run_twoKeys
  exact ⟨h, hr, run_mem_iff hr⟩

/-- Which calls return, after any calls that did. -/
theorem run_progress {ops : List Op} {h : HashTbl} (hr : table.Run ops h) :
    (∀ key, 0 ≤ key → key ∈ inserted ops ∨ 2 * (inserted ops).card < h.tableSize →
      ∃ h', insert key h = .returns h') ∧
    ∀ heap : Heap, heap.hashTbl = true → heap.cells.isSome → (∀ key ∈ inserted ops, 0 ≤ key) →
      4 * h.tableSize < 46339 * 46339 →
      ∃ h', rehash heap h = .returns h' ∧ 2 * h.tableSize ≤ h'.tableSize := by
  obtain ⟨hl, hmin, hmem⟩ := run_lawful hr
  refine ⟨fun key hkey hroom => ?_, fun heap hheap hcells hkeys hmax => ?_⟩
  · have hcard := card_taken_le hl fun k => (hmem k).mp
    refine insert_total hl (Int.tmod_nonneg _ hkey) ?_
    rcases hroom with hin | hload
    · exact Or.inl ((hmem key).mpr hin)
    · exact Or.inr (by omega)
  · obtain ⟨h', hr'⟩ := rehash_total hl hmin hmax (fun k hk => hkeys k ((hmem k).mp hk))
      hheap hcells
    exact ⟨h', hr', (rehash_spec hl hr').2.1⟩

theorem run_progress_twoKeys : ∃ h, table.Run [.insert 5, .insert 16] h ∧
    (∀ key, 0 ≤ key → key ∈ inserted [.insert 5, .insert 16] ∨
        2 * (inserted [.insert 5, .insert 16]).card < h.tableSize →
      ∃ h', insert key h = .returns h') ∧
    ∀ heap : Heap, heap.hashTbl = true → heap.cells.isSome →
      (∀ key ∈ inserted [.insert 5, .insert 16], 0 ≤ key) →
      4 * h.tableSize < 46339 * 46339 →
      ∃ h', rehash heap h = .returns h' ∧ 2 * h.tableSize ≤ h'.tableSize := by
  obtain ⟨h, hr⟩ := run_twoKeys
  exact ⟨h, hr, run_progress hr⟩

/-- The strings whose value does not depend on what stands before them. -/
theorem hashVal_suffix_iff (t : List Int) :
    (∀ s, hashVal (s ++ t) = hashVal t) ↔ 7 ≤ t.length := by
  constructor
  · intro h
    by_contra hlt
    have h1 := h [1]
    rw [hashVal_append, show hashVal [1] = 1#32 by decide] at h1
    have h2 : 1#32 <<< (5 * t.length) = 0#32 := by simpa using h1
    have h3 := congrArg BitVec.toNat h2
    have hsmall : t.length = 0 ∨ t.length = 1 ∨ t.length = 2 ∨ t.length = 3 ∨ t.length = 4 ∨
        t.length = 5 ∨ t.length = 6 := by omega
    rcases hsmall with h | h | h | h | h | h | h
    all_goals
      rw [h] at h3
      exact absurd h3 (by decide)
  · intro ht s
    rw [hashVal_append, BitVec.shiftLeft_eq_zero (by omega), BitVec.zero_add]

end StudyDoc.HashQuad
