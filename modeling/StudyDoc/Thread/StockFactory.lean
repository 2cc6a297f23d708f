import StudyDoc.Lib.Transition
import Mathlib.Logic.Function.Basic
import Mathlib.Tactic.Common

/-!
# `test_object_factory.cc`, `enable_from_this_object_factory.cc`: the `StockFactory`

`Factory` is the map `stocks` and every `Stock` ever made by `new`, addressed by its position in
`heap`.  `get` and the locked part of `deleteStock` are one step each (both hold `mutex_`); a
count reaching zero, and the `delete` at the end, are steps of their own.

    an entry of `stocks` holds a null pointer                            (reachable_null)
    get key  makes a new Stock                                           (get_creates)
    key in stocks → a Stock of key is not erased yet                     (stocks_owned)

`wkStock = pStock` assigns a local copy; `stocks` never learns of the `Stock`.
-/

namespace StudyDoc.StockFactory

open Transition

/-! ## Algorithm -/

/-- How far `deleteStock` is with a `Stock`. -/
inductive Stage where
  | stored
  | erased
  | deleted
  deriving DecidableEq

structure Stock (K : Type) where
  keyData : K
  useCount : Nat
  stage : Stage

/-- A `shared_ptr` or `weak_ptr`: null, or the address of a `Stock`. -/
abbrev Ptr := Option Nat

structure Factory (K : Type) where
  stocks : K → Option Ptr
  heap : List (Stock K)

inductive Event (K : Type) where
  | get (key : K)
  /-- A caller copies a pointer to Stock `i`. -/
  | copy (i : Nat)
  /-- A caller drops a pointer to Stock `i`. -/
  | release (i : Nat)
  /-- `deleteStock`, up to the end of the guard. -/
  | erase (i : Nat)
  /-- `delete stock` -/
  | delete (i : Nat)

namespace Factory

variable {K : Type}

def addRef (f : Factory K) (i : Nat) : Factory K :=
  { f with heap := f.heap.modify i fun s => { s with useCount := s.useCount + 1 } }

def dropRef (f : Factory K) (i : Nat) : Factory K :=
  { f with heap := f.heap.modify i fun s => { s with useCount := s.useCount - 1 } }

def setStage (f : Factory K) (i : Nat) (stage : Stage) : Factory K :=
  { f with heap := f.heap.modify i fun s => { s with stage } }

def useCount (f : Factory K) (i : Nat) : Nat := (f.heap[i]?.map Stock.useCount).getD 0

/-- `weak_ptr::lock`, before the count goes up: null once the count is 0. -/
def lock (f : Factory K) (wkStock : Ptr) : Ptr := wkStock.filter fun i => 0 < f.useCount i

variable [DecidableEq K]

/-- `stocks[key]`: a missing key gets a null pointer first. -/
def index (f : Factory K) (key : K) : Factory K × Ptr :=
  match f.stocks key with
  | some pStock => (f, pStock)
  | none => ({ f with stocks := Function.update f.stocks key (some none) }, none)

/-- The new factory and the address `pStock` returned. -/
def get (f : Factory K) (key : K) : Factory K × Nat :=
  let (f, wkStock) := f.index key
  match f.lock wkStock with
  | some pStock => (f.addRef pStock, pStock)
  | none => ({ f with heap := f.heap ++ [⟨key, 1, .stored⟩] }, f.heap.length)

/-- `stocks.erase(key)`; the pointer in the entry goes with it. -/
def eraseKey (f : Factory K) (key : K) : Factory K :=
  let f := match f.stocks key with
    | some (some i) => f.dropRef i
    | _ => f
  { f with stocks := Function.update f.stocks key none }

/-- `none` when the step is not possible. -/
def step (f : Factory K) : Event K → Option (Factory K)
  | .get key => some (f.get key).1
  | .copy i => if 0 < f.useCount i then some (f.addRef i) else none
  | .release i => if 0 < f.useCount i then some (f.dropRef i) else none
  | .erase i =>
    match f.heap[i]? with
    | some ⟨key, 0, .stored⟩ => some ((f.eraseKey key).setStage i .erased)
    | _ => none
  | .delete i =>
    match f.heap[i]? with
    | some ⟨_, _, .erased⟩ => some (f.setStage i .deleted)
    | _ => none

/-- Stock `i` has the key `key` and some pointer to it. -/
def Referenced (f : Factory K) (key : K) (i : Nat) : Prop :=
  ∃ s, f.heap[i]? = some s ∧ s.keyData = key ∧ 0 < s.useCount

end Factory

def factory (K : Type) [DecidableEq K] : System (Factory K) (Event K) where
  init f := f = ⟨fun _ => none, []⟩
  step f e f' := f.step e = some f'

section

variable {K : Type} [DecidableEq K]

/-! ## The entries -/

/-- No entry of `stocks` points to a `Stock`. -/
def Null (f : Factory K) : Prop := ∀ key p, f.stocks key = some p → p = none

theorem Null.update {f : Factory K} (h : Null f) (key : K) {entry : Option Ptr}
    (he : ∀ p, entry = some p → p = none) (heap : List (Stock K)) :
    Null ⟨Function.update f.stocks key entry, heap⟩ := by
  intro key' p hp
  by_cases hk : key' = key
  · subst hk
    exact he p (by simpa using hp)
  · exact h key' p (by simpa [hk] using hp)

/-- `get` finds nothing, makes a `Stock`, and leaves a null pointer in the map. -/
theorem get_creates {f : Factory K} (h : Null f) (key : K) :
    f.get key = (⟨Function.update f.stocks key (some none), f.heap ++ [⟨key, 1, .stored⟩]⟩,
      f.heap.length) := by
  unfold Factory.get Factory.index
  cases hk : f.stocks key with
  | none => rfl
  | some p =>
    obtain rfl : p = none := h key p hk
    have hsame : Function.update f.stocks key (some none) = f.stocks := by
      rw [← hk]
      exact Function.update_eq_self key f.stocks
    rw [hsame]
    rfl

theorem eraseKey_of_null {f : Factory K} (h : Null f) (key : K) :
    f.eraseKey key = { f with stocks := Function.update f.stocks key none } := by
  unfold Factory.eraseKey
  cases hk : f.stocks key with
  | none => rfl
  | some p =>
    obtain rfl : p = none := h key p hk
    rfl

/-- All that a step does. -/
def Effect (f f' : Factory K) : Event K → Prop
  | .get key => f' = ⟨Function.update f.stocks key (some none), f.heap ++ [⟨key, 1, .stored⟩]⟩
  | .copy i => 0 < f.useCount i ∧ f' = f.addRef i
  | .release i => 0 < f.useCount i ∧ f' = f.dropRef i
  | .erase i => ∃ key, f.heap[i]? = some ⟨key, 0, .stored⟩ ∧
      f' = Factory.setStage ⟨Function.update f.stocks key none, f.heap⟩ i .erased
  | .delete i => (∃ key n, f.heap[i]? = some ⟨key, n, .erased⟩) ∧ f' = f.setStage i .deleted

theorem step_effect {f f' : Factory K} {e : Event K} (h : Null f) (hs : f.step e = some f') :
    Effect f f' e := by
  cases e <;> dsimp only [Factory.step] at hs
  case get key =>
    rw [get_creates h key] at hs
    exact (Option.some.inj hs).symm
  case copy i => exact guard_iff.mp hs
  case release i => exact guard_iff.mp hs
  case erase i =>
    split at hs
    · next key hi =>
      rw [eraseKey_of_null h key] at hs
      exact ⟨key, hi, (Option.some.inj hs).symm⟩
    · cases hs
  case delete i =>
    split at hs
    · next key n hi => exact ⟨⟨key, n, hi⟩, (Option.some.inj hs).symm⟩
    · cases hs

theorem step_null {f f' : Factory K} {e : Event K} (h : Null f) (hs : f.step e = some f') :
    Null f' := by
  have he := step_effect h hs
  cases e with
  | get key =>
    obtain rfl := he
    exact h.update key (fun p hp => (Option.some.inj hp).symm) _
  | copy i =>
    obtain ⟨-, rfl⟩ := he
    exact h
  | release i =>
    obtain ⟨-, rfl⟩ := he
    exact h
  | erase i =>
    obtain ⟨key, -, rfl⟩ := he
    exact h.update key (by nofun) _
  | delete i =>
    obtain ⟨-, rfl⟩ := he
    exact h

theorem reachable_null {f : Factory K} (h : (factory K).Reachable f) : Null f :=
  h.invariant (I := Null)
    (fun f hf key p hp => by
      rw [show f = _ from hf] at hp
      cases hp)
    (fun _ _ _ _ hi hs => step_null hi hs)

/-! ## One `Stock` per key -/

/-- At most one referenced `Stock` for each key. -/
def OnePerKey (f : Factory K) : Prop :=
  ∀ key i j, f.Referenced key i → f.Referenced key j → i = j

/-- A `get` of a key whose `Stock` is still referenced returns that one and makes none. -/
def GetsSame (f : Factory K) : Event K → Prop
  | .get key => ∀ i, f.Referenced key i →
      (f.get key).2 = i ∧ (f.get key).1.heap.length = f.heap.length
  | _ => True

/-- A `get` finds no `Stock` of its key referenced. -/
def Unreferenced (f : Factory K) : Event K → Prop
  | .get key => ∀ i, ¬ f.Referenced key i
  | _ => True

omit [DecidableEq K] in
/-- A `Stock` after a change of `i` alone: `i` changed, or another one as it was. -/
theorem modify_cases {heap : List (Stock K)} {i j : Nat} {g : Stock K → Stock K} {s' : Stock K}
    (h : (heap.modify i g)[j]? = some s') :
    ∃ s, heap[j]? = some s ∧ (i = j ∧ s' = g s ∨ s' = s) := by
  rw [List.getElem?_modify] at h
  obtain ⟨s, hs, rfl⟩ := Option.map_eq_some_iff.mp h
  refine ⟨s, hs, ?_⟩
  split
  · next hij => exact Or.inl ⟨hij, rfl⟩
  · exact Or.inr rfl

omit [DecidableEq K] in
/-- A change of Stock `i` alone makes nothing referenced that was not. -/
theorem referenced_of_modify {f : Factory K} {i : Nat} {g : Stock K → Stock K}
    {stocks : K → Option Ptr} (hkey : ∀ s, (g s).keyData = s.keyData)
    (hcount : ∀ s, f.heap[i]? = some s → 0 < (g s).useCount → 0 < s.useCount) {key : K} {j : Nat}
    (h : Factory.Referenced ⟨stocks, f.heap.modify i g⟩ key j) : f.Referenced key j := by
  obtain ⟨s', hs', hkey', hpos⟩ := h
  obtain ⟨s, hs, ⟨rfl, rfl⟩ | rfl⟩ := modify_cases hs'
  · exact ⟨s, hs, (hkey s).symm.trans hkey', hcount s hs hpos⟩
  · exact ⟨_, hs, hkey', hpos⟩

omit [DecidableEq K] in
theorem OnePerKey.mono {f f' : Factory K} (h : OnePerKey f)
    (hsub : ∀ key i, f'.Referenced key i → f.Referenced key i) : OnePerKey f' :=
  fun key i j hi hj => h key i j (hsub key i hi) (hsub key j hj)

omit [DecidableEq K] in
/-- A new `Stock` for a key of which none is referenced. -/
theorem OnePerKey.append {f : Factory K} (h : OnePerKey f) {key : K}
    (hnone : ∀ i, ¬ f.Referenced key i) (stocks : K → Option Ptr) :
    OnePerKey ⟨stocks, f.heap ++ [⟨key, 1, .stored⟩]⟩ := by
  have hold : ∀ key' i, Factory.Referenced ⟨stocks, f.heap ++ [⟨key, 1, .stored⟩]⟩ key' i →
      f.Referenced key' i ∨ key' = key ∧ i = f.heap.length := by
    rintro key' i ⟨s, hs, hkey, hpos⟩
    dsimp only at hs
    rw [List.getElem?_append] at hs
    split at hs
    · exact Or.inl ⟨s, hs, hkey, hpos⟩
    · right
      rw [List.getElem?_singleton] at hs
      split at hs
      · cases hs
        exact ⟨hkey.symm, by omega⟩
      · cases hs
  intro key' i j hi hj
  rcases hold key' i hi with hi | ⟨rfl, rfl⟩ <;> rcases hold key' j hj with hj | ⟨hk, rfl⟩
  · exact h key' i j hi hj
  · exact absurd (hk ▸ hi) (hnone i)
  · exact absurd hj (hnone j)
  · rfl

theorem step_onePerKey {f f' : Factory K} {e : Event K} (hnull : Null f) (h : OnePerKey f)
    (he : Unreferenced f e) (hs : f.step e = some f') : OnePerKey f' := by
  have heff := step_effect hnull hs
  cases e with
  | get key =>
    obtain rfl := heff
    exact h.append he _
  | copy i =>
    obtain ⟨hpos, rfl⟩ := heff
    refine h.mono fun key j hj => referenced_of_modify ?_ ?_ hj
    · intro s
      rfl
    · intro s hs _
      unfold Factory.useCount at hpos
      rwa [hs] at hpos
  | release i =>
    obtain ⟨-, rfl⟩ := heff
    refine h.mono fun key j hj => referenced_of_modify ?_ ?_ hj
    · intro s
      rfl
    · intro s _ hlt
      exact Nat.lt_of_lt_of_le hlt (Nat.sub_le _ _)
  | erase i =>
    obtain ⟨key, -, rfl⟩ := heff
    refine h.mono fun key j hj => referenced_of_modify (f := f) ?_ ?_ hj
    · intro s
      rfl
    · intro s _ hlt
      exact hlt
  | delete i =>
    obtain ⟨-, rfl⟩ := heff
    refine h.mono fun key j hj => referenced_of_modify ?_ ?_ hj
    · intro s
      rfl
    · intro s _ hlt
      exact hlt

/-- In every state that the run `es` passes through. -/
def OneAlive (es : List (Event K)) : Prop :=
  ∀ pre post f, es = pre ++ post → (factory K).Run pre f → OnePerKey f

/-- A `get` never returns a `Stock` that exists: it is right exactly when none is referenced. -/
theorem getsSame_iff {f : Factory K} (h : Null f) (e : Event K) :
    GetsSame f e ↔ Unreferenced f e := by
  cases e with
  | get key =>
    constructor
    · intro hsame i hi
      have hlen := (hsame i hi).2
      rw [get_creates h key] at hlen
      simp at hlen
    · intro hnone i hi
      exact absurd hi (hnone i)
  | _ => exact Iff.rfl

/-- **One Stock per key.**  A run keeps at most one `Stock` of each key referenced, every `get`
returning the referenced one, exactly if no `get` of it finds a `Stock` of its key referenced. -/
theorem get_shared_iff (es : List (Event K)) :
    OneAlive es ∧ (factory K).Along es GetsSame ↔ (factory K).Along es Unreferenced := by
  have hiff := System.along_congr (fun f e hr => getsSame_iff (reachable_null hr) e) es
  constructor
  · rintro ⟨-, hsame⟩
    exact hiff.mp hsame
  · intro hnone
    refine ⟨?_, hiff.mpr hnone⟩
    rintro pre post f rfl hr
    refine hr.invariantAlong (fun f hf => ?_) (fun f e f' hreach hi he hs => ?_) hnone.left
    · obtain rfl : f = _ := hf
      rintro key i j ⟨s, hs, -⟩
      simp at hs
    · exact step_onePerKey (reachable_null hreach) hi he hs

theorem get_step (f : Factory K) (key : K) : (factory K).step f (.get key) (f.get key).1 := rfl

/-- `get("x")` twice, the first pointer still held. -/
theorem get_makes_second : ¬ (OneAlive [Event.get "x", .get "x"] ∧
    (factory String).Along [.get "x", .get "x"] GetsSame) := by
  rintro ⟨hone, -⟩
  have r : (factory String).Run [] ⟨fun _ => none, []⟩ := .start rfl
  have r := r.next (get_step _ "x")
  have r := r.next (get_step _ "x")
  have hsame := hone _ [] _ rfl r "x" 0 1 ⟨_, rfl, rfl, Nat.one_pos⟩ ⟨_, rfl, rfl, Nat.one_pos⟩
  cases hsame

/-! ## The keys of the map -/

/-- Some `Stock` of `key` has not been erased by its `deleteStock` yet. -/
def Owned (f : Factory K) (key : K) : Prop :=
  ∃ (i : Nat) (s : Stock K), f.heap[i]? = some s ∧ s.keyData = key ∧ s.stage = .stored

def KeysOwned (f : Factory K) : Prop := ∀ key p, f.stocks key = some p → Owned f key

omit [DecidableEq K] in
theorem Owned.modify {f : Factory K} {key : K} (h : Owned f key) {i : Nat} {g : Stock K → Stock K}
    (hg : ∀ s, f.heap[i]? = some s → s.keyData = key → s.stage = .stored →
      (g s).keyData = key ∧ (g s).stage = .stored) (stocks : K → Option Ptr) :
    Owned ⟨stocks, f.heap.modify i g⟩ key := by
  obtain ⟨j, s, hs, hkey, hstage⟩ := h
  by_cases hij : i = j
  · subst hij
    obtain ⟨hkey', hstage'⟩ := hg s hs hkey hstage
    refine ⟨i, g s, ?_, hkey', hstage'⟩
    show (f.heap.modify i g)[i]? = some (g s)
    simp [hs]
  · refine ⟨j, s, ?_, hkey, hstage⟩
    show (f.heap.modify i g)[j]? = some s
    simp [hij, hs]

theorem step_keysOwned {f f' : Factory K} {e : Event K} (hnull : Null f) (h : KeysOwned f)
    (hs : f.step e = some f') : KeysOwned f' := by
  have heff := step_effect hnull hs
  intro key' p hp
  cases e with
  | get key =>
    obtain rfl := heff
    by_cases hk : key' = key
    · refine ⟨f.heap.length, ⟨key, 1, .stored⟩, ?_, hk.symm, rfl⟩
      exact List.getElem?_concat_length
    · obtain ⟨i, s, hs, hkey, hstage⟩ := h key' p (by simpa [hk] using hp)
      have hi := (List.getElem?_eq_some_iff.mp hs).1
      exact ⟨i, s, (List.getElem?_append_left hi).trans hs, hkey, hstage⟩
  | copy i =>
    obtain ⟨-, rfl⟩ := heff
    refine (h key' p hp).modify (fun s _ hkey hstage => ?_) _
    exact ⟨hkey, hstage⟩
  | release i =>
    obtain ⟨-, rfl⟩ := heff
    refine (h key' p hp).modify (fun s _ hkey hstage => ?_) _
    exact ⟨hkey, hstage⟩
  | erase i =>
    obtain ⟨key, hi, rfl⟩ := heff
    -- the key of Stock `i` has left the map, so an owner of `key'` is another Stock
    have hk : key' ≠ key := by
      rintro rfl
      simp [Factory.setStage] at hp
    have hold : f.stocks key' = some p := by simpa [Factory.setStage, hk] using hp
    refine (h key' p hold).modify (fun s hs hkey _ => ?_) _
    rw [hi] at hs
    cases hs
    exact absurd hkey.symm hk
  | delete i =>
    obtain ⟨⟨key, n, hi⟩, rfl⟩ := heff
    refine (h key' p hp).modify (fun s hs _ hstage => ?_) _
    rw [hi] at hs
    cases hs
    cases hstage

theorem reachable_keysOwned {f : Factory K} (h : (factory K).Reachable f) : KeysOwned f :=
  h.invariant (I := KeysOwned)
    (fun f hf key p hp => by
      rw [show f = _ from hf] at hp
      cases hp)
    (fun _ _ _ hr hi hs => step_keysOwned (reachable_null hr) hi hs)

/-- **The map does not grow.**  A key in `stocks` belongs to a `Stock` whose `deleteStock` has not
erased it yet; with every `Stock` erased, `stocks` is empty. -/
theorem stocks_owned (f : Factory K) (h : (factory K).Reachable f) :
    (∀ key, (f.stocks key).isSome →
      ∃ (i : Nat) (s : Stock K), f.heap[i]? = some s ∧ s.keyData = key ∧ s.stage = .stored) ∧
    ((∀ (i : Nat) (s : Stock K), f.heap[i]? = some s → s.stage ≠ .stored) →
      ∀ key, f.stocks key = none) := by
  have howned : KeysOwned f := reachable_keysOwned h
  constructor
  · intro key hkey
    obtain ⟨p, hp⟩ := Option.isSome_iff_exists.mp hkey
    exact howned key p hp
  · intro hall key
    cases hp : f.stocks key with
    | none => rfl
    | some p =>
      obtain ⟨i, s, hs, -, hstage⟩ := howned key p hp
      exact absurd hstage (hall i s hs)

/-- One `Stock`, before and after its deleter has run. -/
theorem stocks_owned_oneStock : ∃ f f' : Factory Nat, (f.stocks 7).isSome ∧
    (∃ (i : Nat) (s : Stock Nat), f.heap[i]? = some s ∧ s.keyData = 7 ∧ s.stage = .stored) ∧
    f'.heap = [⟨7, 0, .deleted⟩] ∧ f'.stocks 7 = none := by
  have hstep : ∀ (f : Factory Nat) e f', f.step e = some f' → (factory Nat).step f e f' :=
    fun _ _ _ h => h
  have r : (factory Nat).Run [] ⟨fun _ => none, []⟩ := .start rfl
  have r := r.next (hstep _ (.get 7) _ rfl)
  have r' := r.next (hstep _ (.release 0) _ rfl)
  have r' := r'.next (hstep _ (.erase 0) _ rfl)
  have r' := r'.next (hstep _ (.delete 0) _ rfl)
  have hf := (stocks_owned _ ⟨_, r⟩).1 7 rfl
  have hf' := (stocks_owned _ ⟨_, r'⟩).2
  refine ⟨_, _, rfl, hf, rfl, hf' ?_ 7⟩
  intro i s hs
  cases i with
  | zero =>
    cases hs
    nofun
  | succ i => cases hs

/-! ## The end of a `Stock` -/

/-- A `Stock` that `deleteStock` has erased has no pointer left. -/
def ErasedDead (f : Factory K) : Prop :=
  ∀ (i : Nat) (s : Stock K), f.heap[i]? = some s → s.stage ≠ .stored → s.useCount = 0

omit [DecidableEq K] in
theorem ErasedDead.modify {f : Factory K} (h : ErasedDead f) {i : Nat} {g : Stock K → Stock K}
    (hg : ∀ s, f.heap[i]? = some s → (g s).stage ≠ .stored → (g s).useCount = 0)
    (stocks : K → Option Ptr) : ErasedDead ⟨stocks, f.heap.modify i g⟩ := by
  intro j s' hs' hstage
  obtain ⟨s, hs, ⟨rfl, rfl⟩ | rfl⟩ := modify_cases hs'
  · exact hg s hs hstage
  · exact h j _ hs hstage

theorem step_erasedDead {f f' : Factory K} {e : Event K} (hnull : Null f) (h : ErasedDead f)
    (hs : f.step e = some f') : ErasedDead f' := by
  have heff := step_effect hnull hs
  cases e with
  | get key =>
    obtain rfl := heff
    intro i s hs hstage
    dsimp only at hs
    rw [List.getElem?_append] at hs
    split at hs
    · exact h i s hs hstage
    · rw [List.getElem?_singleton] at hs
      split at hs
      · cases hs
        exact absurd rfl hstage
      · cases hs
  | copy i =>
    obtain ⟨hpos, rfl⟩ := heff
    refine h.modify (fun s hs hstage => ?_) _
    have hdead : s.useCount = 0 := h i s hs hstage
    unfold Factory.useCount at hpos
    rw [hs] at hpos
    exact absurd hpos (by simp [hdead])
  | release i =>
    obtain ⟨-, rfl⟩ := heff
    refine h.modify (fun s hs hstage => ?_) _
    have hdead : s.useCount = 0 := h i s hs hstage
    show s.useCount - 1 = 0
    omega
  | erase i =>
    obtain ⟨key, hi, rfl⟩ := heff
    refine h.modify (fun s hs _ => ?_) _
    rw [hi] at hs
    cases hs
    rfl
  | delete i =>
    obtain ⟨⟨key, n, hi⟩, rfl⟩ := heff
    refine h.modify (fun s hs _ => ?_) _
    rw [hi] at hs
    cases hs
    show n = 0
    exact h i ⟨key, n, .erased⟩ hi (by nofun)

theorem reachable_erasedDead {f : Factory K} (h : (factory K).Reachable f) : ErasedDead f :=
  h.invariant (I := ErasedDead)
    (fun f hf i s hs => by
      rw [show f = _ from hf] at hs
      simp at hs)
    (fun _ _ _ hr hi hs => step_erasedDead (reachable_null hr) hi hs)

/-- `delete` has run on Stock `i`. -/
def Factory.deleted (f : Factory K) (i : Nat) : Bool := f.heap[i]?.any (·.stage = .deleted)

def isDelete (i : Nat) : Event K → Bool
  | .delete j => j == i
  | _ => false

omit [DecidableEq K] in
theorem deleted_modify {f : Factory K} {i j : Nat} {g : Stock K → Stock K}
    {stocks : K → Option Ptr} (hg : ∀ s, f.heap[i]? = some s → i = j →
      ((g s).stage = .deleted ↔ s.stage = .deleted)) :
    Factory.deleted ⟨stocks, f.heap.modify i g⟩ j = f.deleted j := by
  unfold Factory.deleted
  rw [List.getElem?_modify]
  cases hs : f.heap[j]? with
  | none => rfl
  | some s =>
    by_cases hij : i = j
    · subst hij
      simp [hg s hs rfl]
    · simp [hij]

omit [DecidableEq K] in
theorem deleted_addRef (f : Factory K) (i j : Nat) : (f.addRef i).deleted j = f.deleted j := by
  refine deleted_modify fun s _ _ => ?_
  exact Iff.rfl

omit [DecidableEq K] in
theorem deleted_dropRef (f : Factory K) (i j : Nat) : (f.dropRef i).deleted j = f.deleted j := by
  refine deleted_modify fun s _ _ => ?_
  exact Iff.rfl

def isGet : Event K → Bool
  | .get _ => true
  | _ => false

theorem step_length {f f' : Factory K} {e : Event K} (hnull : Null f) (hs : f.step e = some f') :
    f'.heap.length = f.heap.length + (isGet e).toNat := by
  have heff := step_effect hnull hs
  cases e with
  | get key =>
    obtain rfl := heff
    exact List.length_append
  | copy i =>
    obtain ⟨-, rfl⟩ := heff
    exact List.length_modify ..
  | release i =>
    obtain ⟨-, rfl⟩ := heff
    exact List.length_modify ..
  | erase i =>
    obtain ⟨key, -, rfl⟩ := heff
    exact List.length_modify ..
  | delete i =>
    obtain ⟨-, rfl⟩ := heff
    exact List.length_modify ..

/-- A step deletes `i` only if it is `delete i`, and that finds it not deleted. -/
theorem step_deleted {f f' : Factory K} {e : Event K} (hnull : Null f) (hs : f.step e = some f')
    (i : Nat) : (f'.deleted i).toNat = (f.deleted i).toNat + (isDelete i e).toNat := by
  have heff := step_effect hnull hs
  cases e with
  | get key =>
    obtain rfl := heff
    have hsame : Factory.deleted ⟨Function.update f.stocks key (some none),
        f.heap ++ [⟨key, 1, .stored⟩]⟩ i = f.deleted i := by
      unfold Factory.deleted
      dsimp only
      rw [List.getElem?_append]
      split
      · rfl
      · next hle =>
        rw [List.getElem?_eq_none (Nat.not_lt.mp hle), List.getElem?_singleton]
        split <;> rfl
    rw [hsame]
    rfl
  | copy j =>
    obtain ⟨-, rfl⟩ := heff
    rw [deleted_addRef]
    rfl
  | release j =>
    obtain ⟨-, rfl⟩ := heff
    rw [deleted_dropRef]
    rfl
  | erase j =>
    obtain ⟨key, hj, rfl⟩ := heff
    have hsame : (Factory.setStage ⟨Function.update f.stocks key none, f.heap⟩ j
        .erased).deleted i = f.deleted i := by
      refine deleted_modify fun s hs _ => ?_
      rw [hj] at hs
      cases hs
      simp
    rw [hsame]
    rfl
  | delete j =>
    obtain ⟨⟨key, n, hj⟩, rfl⟩ := heff
    by_cases hij : j = i
    · subst hij
      simp [Factory.deleted, Factory.setStage, hj, isDelete]
    · have hsame : (f.setStage j .deleted).deleted i = f.deleted i := by
        refine deleted_modify fun s _ hji => ?_
        exact absurd hji hij
      rw [hsame]
      simp [isDelete, hij]

/-- No step brings a deleted Stock back. -/
theorem live_of_step {f f' : Factory K} {e : Event K} (hnull : Null f)
    (hs : f.step e = some f') {i : Nat} (hlive : f'.deleted i = false) : f.deleted i = false := by
  have hdel := step_deleted hnull hs i
  rw [hlive] at hdel
  cases hd : f.deleted i with
  | false => rfl
  | true =>
    rw [hd, Bool.toNat_true, Bool.toNat_false] at hdel
    omega

end

end StudyDoc.StockFactory
