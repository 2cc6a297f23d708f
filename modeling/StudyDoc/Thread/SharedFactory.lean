import StudyDoc.Thread.StockFactory

/-!
# `enable_from_this_object_factory.cc`: who keeps the `StockFactory` alive

`Shared` adds to the `Factory` the count of its own control block.  It is counted by the
callers' `shared_ptr<StockFactory>` (`refs`) and by the `shared_from_this()` bound into the
deleter of each `Stock`; a deleter goes, with its pointer, after `deleteStock` has returned.

    useCount = refs + number of deleters                                 (reachable_counted)
    Stock i is not deleted yet → its deleter exists                      (reachable_counted)
    destroyed ↔ no caller and no deleter holds the factory               (factory_lifetime)

The entries of `stocks` hold null pointers, so the map closes no cycle and `~StockFactory`
releases nothing.
-/

namespace StudyDoc.SharedFactory

open Transition StockFactory

/-! ## Algorithm -/

structure Shared (K : Type) where
  factory : Factory K
  /-- The callers' pointers to the factory. -/
  refs : Nat
  /-- The count in the factory's control block. -/
  useCount : Nat
  /-- `bound[i]`: the deleter of Stock `i` exists, and in it a pointer to the factory. -/
  bound : List Bool
  /-- `~StockFactory` has run. -/
  destroyed : Bool

inductive Event (K : Type) where
  | copyFactory
  | dropFactory
  /-- A step on the Stocks; `get` is a call through a caller's own pointer. -/
  | stock (e : StockFactory.Event K)
  /-- `deleteStock` has returned: the control block of Stock `i` goes, and its deleter. -/
  | unbind (i : Nat)

namespace Shared

variable {K : Type}

/-- One pointer to the factory less; the last one destroys it. -/
def dropUse (s : Shared K) : Shared K :=
  { s with useCount := s.useCount - 1, destroyed := s.destroyed || s.useCount == 1 }

variable [DecidableEq K]

def get (s : Shared K) (key : K) : Shared K × Nat :=
  let (f, wkStock) := s.factory.index key
  match f.lock wkStock with
  | some pStock => ({ s with factory := f.addRef pStock }, pStock)
  | none =>
    ({ s with
        factory := { f with heap := f.heap ++ [⟨key, 1, .stored⟩] }
        useCount := s.useCount + 1
        bound := s.bound ++ [true] }, f.heap.length)

/-- `none` when the step is not possible. -/
def step (s : Shared K) : Event K → Option (Shared K)
  | .copyFactory =>
    if 0 < s.refs then some { s with refs := s.refs + 1, useCount := s.useCount + 1 } else none
  | .dropFactory => if 0 < s.refs then some (dropUse { s with refs := s.refs - 1 }) else none
  | .stock (.get key) => if 0 < s.refs then some (s.get key).1 else none
  | .stock e => (s.factory.step e).map fun f => { s with factory := f }
  | .unbind i =>
    match s.factory.heap[i]?, s.bound[i]? with
    | some ⟨_, _, .deleted⟩, some true => some (dropUse { s with bound := s.bound.set i false })
    | _, _ => none

end Shared

/-- `shared_ptr<StockFactory> factory(new StockFactory);` -/
def sharedFactory (K : Type) [DecidableEq K] : System (Shared K) (Event K) where
  init s := s = ⟨⟨fun _ => none, []⟩, 1, 1, [], false⟩
  step s e s' := s.step e = some s'

section

variable {K : Type} [DecidableEq K]

/-! ## The factory inside -/

theorem get_factory (s : Shared K) (key : K) :
    (s.get key).1.factory = (s.factory.get key).1 ∧ (s.get key).2 = (s.factory.get key).2 := by
  unfold Shared.get Factory.get
  cases hp : (s.factory.index key).1.lock (s.factory.index key).2 <;> simp [hp]

/-- A caller's `get` makes a `Stock`, and its deleter one more pointer to the factory. -/
theorem get_binds {s : Shared K} (h : Null s.factory) (key : K) :
    (s.get key).1 = { s with
      factory := ⟨Function.update s.factory.stocks key (some none),
        s.factory.heap ++ [⟨key, 1, .stored⟩]⟩
      useCount := s.useCount + 1
      bound := s.bound ++ [true] } := by
  have hget := get_creates h key
  have hnew : (s.factory.index key).1.lock (s.factory.index key).2 = none := by
    unfold Factory.index
    cases hk : s.factory.stocks key with
    | none => rfl
    | some p =>
      obtain rfl : p = none := h key p hk
      rfl
  unfold Factory.get at hget
  unfold Shared.get
  simp only [hnew] at hget ⊢
  rw [(Prod.mk.inj hget).1]

/-- All that a step does. -/
def Effect (s s' : Shared K) : Event K → Prop
  | .copyFactory => 0 < s.refs ∧ s' = { s with refs := s.refs + 1, useCount := s.useCount + 1 }
  | .dropFactory => 0 < s.refs ∧ s' = Shared.dropUse { s with refs := s.refs - 1 }
  | .stock (.get key) => 0 < s.refs ∧ s' = (s.get key).1
  | .stock e => ∃ f, s.factory.step e = some f ∧ s' = { s with factory := f }
  | .unbind i => (∃ key n, s.factory.heap[i]? = some ⟨key, n, .deleted⟩) ∧
      s.bound[i]? = some true ∧ s' = Shared.dropUse { s with bound := s.bound.set i false }

theorem step_effect {s s' : Shared K} {e : Event K} (hs : s.step e = some s') :
    Effect s s' e := by
  cases e with
  | copyFactory | dropFactory =>
    dsimp only [Shared.step] at hs
    exact guard_iff.mp hs
  | unbind i =>
    dsimp only [Shared.step] at hs
    split at hs
    · next key n hi hb => exact ⟨⟨key, n, hi⟩, hb, (Option.some.inj hs).symm⟩
    · cases hs
  | stock e =>
    cases e with
    | get key =>
      dsimp only [Shared.step] at hs
      exact guard_iff.mp hs
    | _ =>
      obtain ⟨f, hf, rfl⟩ := Option.map_eq_some_iff.mp hs
      exact ⟨f, hf, rfl⟩

/-- Every step is one of the factory, or leaves its Stocks and its map alone. -/
theorem step_factory {s s' : Shared K} {e : Event K} (hs : s.step e = some s') :
    match e with
    | .stock e => s.factory.step e = some s'.factory
    | _ => s'.factory = s.factory := by
  have heff := step_effect hs
  cases e with
  | copyFactory =>
    obtain ⟨-, rfl⟩ := heff
    rfl
  | dropFactory =>
    obtain ⟨-, rfl⟩ := heff
    rfl
  | unbind i =>
    obtain ⟨-, -, rfl⟩ := heff
    rfl
  | stock e =>
    cases e with
    | get key =>
      obtain ⟨-, rfl⟩ := heff
      rw [(get_factory s key).1]
      rfl
    | _ =>
      obtain ⟨f, hf, rfl⟩ := heff
      exact hf

/-- The factory with its lifetime runs as the factory without. -/
theorem reachable_factory {s : Shared K} (h : (sharedFactory K).Reachable s) :
    (factory K).Reachable s.factory :=
  h.invariant (I := fun s => (factory K).Reachable s.factory)
    (fun s hs => by
      rw [show s = _ from hs]
      exact System.Reachable.init rfl)
    (fun s e s' _ hi hs => by
      have hstep := step_factory hs
      cases e with
      | stock e => exact hi.next (e := e) hstep
      | _ =>
        rw [hstep]
        exact hi)

/-! ## The count -/

structure Counted (s : Shared K) : Prop where
  length : s.bound.length = s.factory.heap.length
  useCount : s.useCount = s.refs + s.bound.count true
  destroyed : s.destroyed = true ↔ s.useCount = 0
  bound : ∀ i, i < s.factory.heap.length → s.factory.deleted i = false → s.bound[i]? = some true

omit [DecidableEq K] in
/-- Whoever holds a pointer to the factory finds it there. -/
theorem Counted.alive {s : Shared K} (h : Counted s) (hpos : 0 < s.useCount) :
    s.destroyed = false := by
  cases hd : s.destroyed with
  | false => rfl
  | true =>
    have := h.destroyed.mp hd
    omega

omit [DecidableEq K] in
/-- `t` is `s` with one pointer to the factory taken out of the books. -/
theorem Counted.dropUse {s t : Shared K} (h : Counted s) (huse : t.useCount = s.useCount)
    (hdestroyed : t.destroyed = s.destroyed) (hlength : t.bound.length = t.factory.heap.length)
    (hcount : t.refs + t.bound.count true + 1 = s.useCount)
    (hbound : ∀ i, i < t.factory.heap.length → t.factory.deleted i = false →
      t.bound[i]? = some true) : Counted t.dropUse := by
  have halive : s.destroyed = false := h.alive (by omega)
  refine ⟨hlength, ?_, ?_, hbound⟩
  · show t.useCount - 1 = t.refs + t.bound.count true
    omega
  · show (t.destroyed || t.useCount == 1) = true ↔ t.useCount - 1 = 0
    rw [hdestroyed, halive, Bool.false_or, beq_iff_eq]
    omega

omit [DecidableEq K] in
theorem count_unbind {bound : List Bool} {i : Nat} (h : bound[i]? = some true) :
    (bound.set i false).count true + 1 = bound.count true := by
  obtain ⟨hi, htrue⟩ := List.getElem?_eq_some_iff.mp h
  have hpos : 0 < bound.count true := List.count_pos_iff.mpr (List.mem_of_getElem? h)
  have hset : (bound.set i false).count true = bound.count true - 1 := by
    rw [List.count_set hi, htrue]
    simp
  omega

/-- `get` binds one more pointer to the factory, into the deleter of the Stock it makes. -/
theorem Counted.get {s : Shared K} (h : Counted s) (hnull : Null s.factory) {key : K}
    (hpos : 0 < s.refs) (hlen : (s.get key).1.factory.heap.length = s.factory.heap.length + 1)
    (hold : ∀ i, (s.get key).1.factory.deleted i = false → s.factory.deleted i = false) :
    Counted (s.get key).1 := by
  have huse := h.useCount
  have halive : s.destroyed = false := h.alive (by omega)
  have hbinds := get_binds hnull key
  have hbound : (s.get key).1.bound = s.bound ++ [true] := by rw [hbinds]
  refine ⟨?_, ?_, ?_, fun i hi hlive => ?_⟩
  · rw [hbound, List.length_append, h.length, hlen]
    rfl
  · rw [hbinds]
    show s.useCount + 1 = s.refs + (s.bound ++ [true]).count true
    rw [List.count_append, List.count_singleton_self]
    omega
  · rw [hbinds]
    show s.destroyed = true ↔ s.useCount + 1 = 0
    simp [halive]
  · rw [hbound]
    by_cases hlt : i < s.factory.heap.length
    · rw [List.getElem?_append_left (by rw [h.length]; exact hlt)]
      exact h.bound i hlt (hold i hlive)
    · have hlast : i = s.bound.length := by
        have := h.length
        omega
      rw [hlast]
      exact List.getElem?_concat_length

theorem step_counted {s s' : Shared K} {e : Event K} (hnull : Null s.factory) (h : Counted s)
    (hs : s.step e = some s') : Counted s' := by
  have heff := step_effect hs
  have huse := h.useCount
  cases e with
  | copyFactory =>
    obtain ⟨hpos, rfl⟩ := heff
    have halive : s.destroyed = false := h.alive (by omega)
    refine ⟨h.length, ?_, ?_, h.bound⟩
    · show s.useCount + 1 = s.refs + 1 + s.bound.count true
      omega
    · show s.destroyed = true ↔ s.useCount + 1 = 0
      simp [halive]
  | dropFactory =>
    obtain ⟨hpos, rfl⟩ := heff
    refine h.dropUse rfl rfl h.length ?_ h.bound
    show s.refs - 1 + s.bound.count true + 1 = s.useCount
    omega
  | unbind i =>
    obtain ⟨⟨key, n, hi⟩, hb, rfl⟩ := heff
    have hcount := count_unbind hb
    refine h.dropUse rfl rfl ?_ ?_ fun j hj hlive => ?_
    · show (s.bound.set i false).length = s.factory.heap.length
      rw [List.length_set, h.length]
    · show s.refs + (s.bound.set i false).count true + 1 = s.useCount
      omega
    · have hij : i ≠ j := by
        rintro rfl
        simp [Factory.deleted, hi] at hlive
      show (s.bound.set i false)[j]? = some true
      rw [List.getElem?_set_ne hij]
      exact h.bound j hj hlive
  | stock e =>
    have hfactory := step_factory hs
    have hlen := step_length hnull hfactory
    cases e with
    | get key =>
      obtain ⟨hpos, rfl⟩ := heff
      exact h.get hnull hpos hlen fun i hlive => live_of_step hnull hfactory hlive
    | _ =>
      obtain ⟨f, hf, rfl⟩ := heff
      refine ⟨h.length.trans hlen.symm, huse, h.destroyed, fun i hi hlive => ?_⟩
      apply h.bound i _ (live_of_step hnull hf hlive)
      exact Nat.lt_of_lt_of_eq hi hlen

theorem reachable_counted {s : Shared K} (h : (sharedFactory K).Reachable s) : Counted s :=
  h.invariant (I := Counted)
    (fun s hs => by
      rw [show s = _ from hs]
      exact ⟨rfl, rfl, by simp, by simp⟩)
    (fun _ _ _ hr hi hs => step_counted (reachable_null (reachable_factory hr)) hi hs)

/-! ## The end of the factory -/

/-- A step of the deleter of Stock `i`, in the thread that dropped the last pointer to it. -/
def ofDeleter (i : Nat) : Event K → Bool
  | .stock (.erase j) => j == i
  | .stock (.delete j) => j == i
  | .unbind j => j == i
  | _ => false

def deletes (i : Nat) : Event K → Bool
  | .stock e => isDelete i e
  | _ => false

/-- No pointer to Stock `i` is left, and its deleter has nothing more to do. -/
def Gone (s : Shared K) (i : Nat) : Prop :=
  s.factory.useCount i = 0 ∧ ∀ e, ofDeleter i e = true → s.step e = none

theorem run_deletes {es : List (Event K)} {s : Shared K} (h : (sharedFactory K).Run es s)
    (i : Nat) : es.countP (deletes i) = (s.factory.deleted i).toNat := by
  refine h.invariant (I := fun es s => es.countP (deletes i) = (s.factory.deleted i).toNat)
    (fun s hs => ?_) (fun es s e s' hr hi hs => ?_)
  · rw [show s = _ from hs]
    rfl
  · have hstep := step_factory hs
    rw [List.countP_append, hi]
    cases e with
    | stock e =>
      rw [step_deleted (reachable_null (reachable_factory ⟨es, hr⟩)) hstep i]
      cases hd : isDelete i e <;> simp [deletes, hd]
    | _ =>
      rw [hstep]
      rfl

omit [DecidableEq K] in
theorem Counted.alive_of_bound {s : Shared K} (h : Counted s) {i : Nat}
    (hb : s.bound[i]? = some true) : s.destroyed = false := by
  have hpos : 0 < s.bound.count true := List.count_pos_iff.mpr (List.mem_of_getElem? hb)
  have huse := h.useCount
  exact h.alive (by omega)

omit [DecidableEq K] in
theorem Counted.alive_of_stock {s : Shared K} (h : Counted s) {i : Nat} {x : Stock K}
    (hi : s.factory.heap[i]? = some x) (hx : x.stage ≠ .deleted) : s.destroyed = false := by
  have hlt : i < s.factory.heap.length := (List.getElem?_eq_some_iff.mp hi).1
  apply h.alive_of_bound (h.bound i hlt _)
  simpa [Factory.deleted, hi] using hx

theorem Counted.alive_of_deleter {s s' : Shared K} {e : Event K} {i : Nat} (hnull : Null s.factory)
    (h : Counted s) (he : ofDeleter i e = true) (hs : s.step e = some s') :
    s.destroyed = false := by
  have heff := step_effect hs
  cases e with
  | unbind j =>
    obtain ⟨-, hb, -⟩ := heff
    exact h.alive_of_bound hb
  | stock e =>
    have hfactory := StockFactory.step_effect hnull (step_factory hs)
    cases e with
    | erase j =>
      obtain ⟨key, hj, -⟩ := hfactory
      exact h.alive_of_stock hj (by nofun)
    | delete j =>
      obtain ⟨⟨key, n, hj⟩, -⟩ := hfactory
      exact h.alive_of_stock hj (by nofun)
    | _ => cases he
  | _ => cases he

theorem Counted.gone_iff {s : Shared K} (hdead : ErasedDead s.factory) (h : Counted s) {i : Nat}
    (hi : i < s.factory.heap.length) :
    Gone s i ↔ s.factory.deleted i = true ∧ s.bound[i]? = some false := by
  obtain ⟨⟨key, n, stage⟩, hx⟩ : ∃ x, s.factory.heap[i]? = some x :=
    ⟨_, List.getElem?_eq_getElem hi⟩
  obtain ⟨b, hb⟩ : ∃ b, s.bound[i]? = some b :=
    ⟨_, List.getElem?_eq_getElem (by rw [h.length]; exact hi)⟩
  constructor
  · rintro ⟨hcount, hstuck⟩
    have hn : n = 0 := by simpa [Factory.useCount, hx] using hcount
    subst hn
    cases stage with
    | stored =>
      have := hstuck (.stock (.erase i)) (beq_self_eq_true i)
      simp [Shared.step, Factory.step, hx] at this
    | erased =>
      have := hstuck (.stock (.delete i)) (beq_self_eq_true i)
      simp [Shared.step, Factory.step, hx] at this
    | deleted =>
      have := hstuck (.unbind i) (beq_self_eq_true i)
      cases b with
      | true => simp [Shared.step, hx, hb] at this
      | false => exact ⟨by simp [Factory.deleted, hx], hb⟩
  · rintro ⟨hdel, hfree⟩
    have hstage : stage = .deleted := by simpa [Factory.deleted, hx] using hdel
    subst hstage
    have hne : Stage.deleted ≠ .stored := by decide
    have hn : n = 0 := hdead i ⟨key, n, .deleted⟩ hx hne
    refine ⟨by simp [Factory.useCount, hx, hn], fun e he => ?_⟩
    cases e with
    | unbind j =>
      obtain rfl : j = i := eq_of_beq he
      simp [Shared.step, hx, hfree]
    | stock e =>
      cases e with
      | erase j =>
        obtain rfl : j = i := eq_of_beq he
        simp [Shared.step, Factory.step, hx]
      | delete j =>
        obtain rfl : j = i := eq_of_beq he
        simp [Shared.step, Factory.step, hx]
      | _ => cases he
    | _ => cases he

theorem Counted.destroyed_iff {s : Shared K} (hdead : ErasedDead s.factory) (h : Counted s) :
    s.destroyed = true ↔ s.refs = 0 ∧ ∀ i, i < s.factory.heap.length → Gone s i := by
  rw [h.destroyed, h.useCount, Nat.add_eq_zero_iff, List.count_eq_zero]
  constructor
  · rintro ⟨hrefs, hfree⟩
    refine ⟨hrefs, fun i hi => (h.gone_iff hdead hi).mpr ?_⟩
    have hb : s.bound[i]? = some false := by
      have hlt : i < s.bound.length := by rw [h.length]; exact hi
      rw [List.getElem?_eq_getElem hlt]
      cases hv : s.bound[i] with
      | false => rfl
      | true => exact absurd (hv ▸ List.getElem_mem hlt) hfree
    refine ⟨?_, hb⟩
    cases hd : s.factory.deleted i with
    | true => rfl
    | false =>
      have := h.bound i hi hd
      rw [hb] at this
      cases this
  · rintro ⟨hrefs, hall⟩
    refine ⟨hrefs, fun hmem => ?_⟩
    obtain ⟨i, hi, hv⟩ := List.getElem_of_mem hmem
    have hlt : i < s.factory.heap.length := by rw [← h.length]; exact hi
    have hgone := ((h.gone_iff hdead hlt).mp (hall i hlt)).2
    rw [List.getElem?_eq_getElem hi, hv] at hgone
    cases hgone

/-- **The life of the factory.**  Every step of a deleter finds the factory there; a `Stock` is
deleted once, and no earlier than its last pointer goes; the factory is destroyed exactly when no
caller's pointer, no `Stock` and no deleter is left. -/
theorem factory_lifetime {es : List (Event K)} {s : Shared K} (h : (sharedFactory K).Run es s) :
    (∀ i e s', ofDeleter i e = true → s.step e = some s' → s.destroyed = false) ∧
    (∀ i, es.countP (deletes i) ≤ 1) ∧
    (∀ i, 0 < s.factory.useCount i → es.countP (deletes i) = 0) ∧
    (∀ i, i < s.factory.heap.length → Gone s i → es.countP (deletes i) = 1) ∧
    (s.destroyed = true ↔ s.refs = 0 ∧ ∀ i, i < s.factory.heap.length → Gone s i) := by
  have hfactory : (factory K).Reachable s.factory := reachable_factory ⟨es, h⟩
  have hcounted : Counted s := reachable_counted ⟨es, h⟩
  have hdead : ErasedDead s.factory := reachable_erasedDead hfactory
  refine ⟨fun i e s' he hs => ?_, fun i => ?_, fun i hpos => ?_, fun i hi hgone => ?_, ?_⟩
  · exact hcounted.alive_of_deleter (reachable_null hfactory) he hs
  · rw [run_deletes h i]
    exact Bool.toNat_le _
  · rw [run_deletes h i]
    cases hx : s.factory.heap[i]? with
    | none => simp [Factory.deleted, hx]
    | some x =>
      have hstage : x.stage ≠ .deleted := by
        intro hstage
        have hne : x.stage ≠ .stored := by
          rw [hstage]
          decide
        have hzero : x.useCount = 0 := hdead i x hx hne
        unfold Factory.useCount at hpos
        simp [hx, hzero] at hpos
      simp [Factory.deleted, hx, hstage]
  · rw [run_deletes h i, ((hcounted.gone_iff hdead hi).mp hgone).1]
    rfl
  · exact hcounted.destroyed_iff hdead

/-- The caller lets go of the factory first and of its one `Stock` then. -/
theorem factory_lifetime_lastStock : ∃ s s' : Shared Nat,
    s.refs = 0 ∧ s.destroyed = false ∧ s'.destroyed = true ∧ s'.factory.heap.length = 1 := by
  have hstep : ∀ (s : Shared Nat) e s', s.step e = some s' → (sharedFactory Nat).step s e s' :=
    fun _ _ _ h => h
  have r : (sharedFactory Nat).Run [] ⟨⟨fun _ => none, []⟩, 1, 1, [], false⟩ := .start rfl
  have r := r.next (hstep _ (.stock (.get 7)) _ rfl)
  have r := r.next (hstep _ .dropFactory _ rfl)
  have r := r.next (hstep _ (.stock (.release 0)) _ rfl)
  have r' := r.next (hstep _ (.stock (.erase 0)) _ rfl)
  have r' := r'.next (hstep _ (.stock (.delete 0)) _ rfl)
  have hs := (factory_lifetime r).1 0 (.stock (.erase 0)) _ rfl rfl
  have r'' := r'.next (hstep _ (.unbind 0) _ rfl)
  have hs' := (factory_lifetime r'').2.2.2.2.mpr ⟨rfl, fun i hi => ?_⟩
  · exact ⟨_, _, rfl, hs, hs', rfl⟩
  · have hi : i < 1 := hi
    obtain rfl : i = 0 := by omega
    have hdead := reachable_erasedDead (reachable_factory ⟨_, r''⟩)
    exact ((reachable_counted ⟨_, r''⟩).gone_iff hdead Nat.one_pos).mpr ⟨rfl, rfl⟩

end

end StudyDoc.SharedFactory
