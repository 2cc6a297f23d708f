import StudyDoc.Lib.Refcount
import StudyDoc.Lib.Transition
import Mathlib.Tactic.Common

/-!
# `13.2.2定义行为像指针的类.md`: the reference-counted `HashPtr`

Objects are constructed, copied, assigned and destroyed in any order.  With `owners f b` for the
number of live objects that have block `b`,

    Counts s k l ∧ 0 < k p.ps ∧ 0 < l p.use → incr s p = some s', both one more       (Counts.incr)
    Counts s k l ∧ 0 < k p.ps = l p.use → release s p = some s', both one less     (Counts.release)

and every reachable state has `Counts s (owners s.ps) (owners s.use)`.  Nothing is touched after
it was deleted, `++*rhs.use` before `--*use` being what keeps the self-assignment right.
-/

namespace StudyDoc.PointerLike

open Refcount Transition

/-! ## Algorithm -/

/-- `ps` and `use` are numbers of blocks. -/
structure HashPtr where
  ps : Nat
  i : Int
  use : Nat
  deriving DecidableEq

/-- Where an object can be: `alignof(HashPtr)` is 8. -/
structure Place where
  addr : UInt64
  aligned : addr.toNat % 8 = 0
  deriving DecidableEq

structure State where
  strings : Blocks String
  uses : Blocks UInt64
  objects : Place → Option HashPtr

namespace State

def setObject (s : State) (this : Place) (p : Option HashPtr) : State :=
  { s with objects := Function.update s.objects this p }

/-- `++*p.use` -/
def incr (s : State) (p : HashPtr) : Option State := do
  let n ← s.uses.load p.use
  let uses ← s.uses.store p.use (n + 1)
  return { s with uses := uses }

/-- `if(--*use == 0){ delete ps; delete use; }` -/
def release (s : State) (p : HashPtr) : Option State := do
  let n ← s.uses.load p.use
  let uses ← s.uses.store p.use (n - 1)
  if n - 1 = 0 then
    let strings ← s.strings.delete p.ps
    let uses ← uses.delete p.use
    return { s with strings := strings, uses := uses }
  else return { s with uses := uses }

/-- `HashPtr(const std::string &s)` -/
def construct (s : State) (this : Place) (str : String) : State :=
  let p := ⟨s.strings.length, 0, s.uses.length⟩
  { s with strings := s.strings.new str, uses := s.uses.new 1 }.setObject this (some p)

/-- `HashPtr(const HashPtr &p)` -/
def copy (s : State) (this p : Place) : Option State := do
  let p ← s.objects p
  let s ← s.incr p
  return s.setObject this (some ⟨p.ps, p.i, p.use⟩)

/-- `operator=(const HashPtr &rhs)` -/
def assign (s : State) (this rhs : Place) : Option State := do
  let p ← s.objects this
  let rhs ← s.objects rhs
  let s ← s.incr rhs
  let s ← s.release p
  return s.setObject this (some ⟨rhs.ps, rhs.i, rhs.use⟩)

/-- `~HashPtr()` -/
def destroy (s : State) (this : Place) : Option State := do
  let p ← s.objects this
  let s ← s.release p
  return s.setObject this none

end State

inductive Event where
  | construct (this : Place) (str : String)
  | copy (this p : Place)
  | assign (this rhs : Place)
  | destroy (this : Place)

/-- `none`: a block is touched that was deleted. -/
def State.exec (s : State) : Event → Option State
  | .construct this str => some (s.construct this str)
  | .copy this p => s.copy this p
  | .assign this rhs => s.assign this rhs
  | .destroy this => s.destroy this

/-- What the language asks for: an object is made where none is, and used while it lives. -/
def Allowed (s : State) : Event → Prop
  | .construct this _ => s.objects this = none
  | .copy this p => s.objects this = none ∧ (s.objects p).isSome
  | .assign this rhs => (s.objects this).isSome ∧ (s.objects rhs).isSome
  | .destroy this => (s.objects this).isSome

instance (s : State) (e : Event) : Decidable (Allowed s e) := by
  cases e <;> unfold Allowed <;> infer_instance

def State.step (s : State) (e : Event) : Option State :=
  if Allowed s e then s.exec e else none

def empty : State := ⟨[], [], fun _ => none⟩

def system : System State Event where
  init s := s = empty
  step s e s' := Allowed s e ∧ s.exec e = some s'

/-! ### Counts -/

def Place.slot (a : Place) : Fin 2305843009213693952 :=
  ⟨a.addr.toNat / 8, by have hlt := a.addr.toNat_lt; omega⟩

theorem Place.slot_injective : Function.Injective Place.slot := by
  intro a b h
  have hdiv : a.addr.toNat / 8 = b.addr.toNat / 8 := congrArg Fin.val h
  have haddr : a.addr = b.addr := by
    apply UInt64.toNat_inj.mp
    have ha := a.aligned
    have hb := b.aligned
    omega
  cases a
  cases b
  cases haddr
  rfl

noncomputable instance : Fintype Place := Fintype.ofInjective Place.slot Place.slot_injective

theorem Place.card_le : Fintype.card Place ≤ 2305843009213693952 :=
  (Fintype.card_le_of_injective _ Place.slot_injective).trans_eq (Fintype.card_fin _)

def State.ps (s : State) : Place → Option Nat := Option.map HashPtr.ps ∘ s.objects

def State.use (s : State) : Place → Option Nat := Option.map HashPtr.use ∘ s.objects

/-- 1 for the block itself, 0 for every other. -/
def one (b c : Nat) : Nat := if b = c then 1 else 0

/-- `k b` objects have the string `b`, and `l b` the count `b`. -/
structure Counts (s : State) (k l : Nat → Nat) : Prop where
  strings : ∀ b, (s.strings.load b).isSome = true ↔ 0 < k b
  uses : ∀ b, (s.uses.load b).map UInt64.toNat = if 0 < l b then some (l b) else none

namespace Counts

variable {s : State} {k l : Nat → Nat}

theorem load_use (h : Counts s k l) {b : Nat} (hb : 0 < l b) :
    ∃ n, s.uses.load b = some n ∧ n.toNat = l b := by
  have huse := h.uses b
  rw [if_pos hb] at huse
  exact Option.map_eq_some_iff.mp huse

theorem load_string (h : Counts s k l) {b : Nat} (hb : 0 < k b) :
    ∃ t, s.strings.load b = some t :=
  Option.isSome_iff_exists.mp ((h.strings b).mpr hb)

/-- The counts after a change in one count block. -/
theorem set_use (h : Counts s k l) {b : Nat} (hb : b < s.uses.length) {x : Option UInt64}
    {l' : Nat → Nat} (hx : x.map UInt64.toNat = if 0 < l' b then some (l' b) else none)
    (hl' : ∀ c, c ≠ b → l' c = l c) (c : Nat) :
    (Blocks.load (s.uses.set b x) c).map UInt64.toNat =
      if 0 < l' c then some (l' c) else none := by
  rw [Blocks.load_set hb]
  by_cases hc : c = b
  · rw [if_pos hc, hc]
    exact hx
  · rw [if_neg hc, hl' c hc]
    exact h.uses c

theorem incr (h : Counts s k l) {p : HashPtr} (hk : 0 < k p.ps) (hl : 0 < l p.use)
    (hmax : l p.use + 1 < 18446744073709551616) :
    ∃ s', s.incr p = some s' ∧ s'.objects = s.objects ∧
      Counts s' (fun b => k b + one p.ps b) (fun b => l b + one p.use b) := by
  obtain ⟨n, hn, hnl⟩ := h.load_use hl
  refine ⟨{ s with uses := s.uses.set p.use (some (n + 1)) }, ?_, rfl, ?_, ?_⟩
  · rw [State.incr, hn, Option.bind_eq_bind, Option.bind_some, Blocks.store_of_load hn]
    rfl
  · intro b
    rw [h.strings b]
    unfold one
    split
    · rename_i hb
      rw [← hb]
      exact ⟨fun _ => Nat.succ_pos _, fun _ => hk⟩
    · rfl
  · apply h.set_use (Blocks.lt_of_load hn)
    · have hadd : (n + 1).toNat = l p.use + 1 := by
        rw [UInt64.toNat_add, hnl]
        exact Nat.mod_eq_of_lt hmax
      rw [Option.map_some, hadd, one, if_pos rfl, if_pos (Nat.succ_pos _)]
    · intro c hc
      rw [one, if_neg (Ne.symm hc)]
      rfl

/-- Both blocks go with the last object; else the count goes down. -/
theorem release_eq {p : HashPtr} {n : UInt64} {t : String} (hn : s.uses.load p.use = some n)
    (ht : s.strings.load p.ps = some t) : s.release p = some (if n - 1 = 0 then
      { s with strings := s.strings.set p.ps none, uses := s.uses.set p.use none }
    else { s with uses := s.uses.set p.use (some (n - 1)) }) := by
  have hload : Blocks.load (s.uses.set p.use (some (n - 1))) p.use = some (n - 1) := by
    rw [Blocks.load_set (Blocks.lt_of_load hn), if_pos rfl]
  rw [State.release, hn, Option.bind_eq_bind, Option.bind_some, Blocks.store_of_load hn,
    Option.bind_eq_bind, Option.bind_some]
  by_cases hlast : n - 1 = 0
  · rw [if_pos hlast, if_pos hlast, Blocks.delete_of_load ht, Option.bind_eq_bind,
      Option.bind_some, Blocks.delete_of_load hload, List.set_set]
    rfl
  · rw [if_neg hlast, if_neg hlast]
    rfl

theorem release (h : Counts s k l) {p : HashPtr} (hk : 0 < k p.ps) (hkl : k p.ps = l p.use) :
    ∃ s', s.release p = some s' ∧ s'.objects = s.objects ∧
      Counts s' (fun b => k b - one p.ps b) (fun b => l b - one p.use b) := by
  obtain ⟨n, hn, hnl⟩ := h.load_use (hkl ▸ hk)
  obtain ⟨t, ht⟩ := h.load_string hk
  have hlen := Blocks.lt_of_load hn
  have hsub : (n - 1).toNat = l p.use - 1 := by
    rw [UInt64.toNat_sub_of_le _ _ (UInt64.le_iff_toNat_le.mpr (by rw [hnl]; exact hkl ▸ hk)), hnl]
    rfl
  have hother : ∀ c, c ≠ p.use → l c - one p.use c = l c := fun c hc => by
    rw [one, if_neg (Ne.symm hc)]
    rfl
  rw [release_eq hn ht]
  by_cases hlast : n - 1 = 0
  · have hone : l p.use = 1 := by
      have hzero : (n - 1).toNat = 0 := by rw [hlast]; rfl
      omega
    rw [if_pos hlast]
    refine ⟨_, rfl, rfl, ?_, ?_⟩
    · intro b
      show (Blocks.load (s.strings.set p.ps none) b).isSome = true ↔ _
      rw [Blocks.load_set (Blocks.lt_of_load ht), one]
      by_cases hb : b = p.ps
      · rw [if_pos hb, hb, if_pos rfl, hkl, hone]
        simp
      · rw [if_neg hb, if_neg (Ne.symm hb)]
        exact h.strings b
    · apply h.set_use hlen _ hother
      rw [one, if_pos rfl, hone]
      rfl
  · have htwo : 1 < l p.use := by
      by_contra hle
      apply hlast
      apply UInt64.toNat_inj.mp
      rw [hsub]
      show l p.use - 1 = 0
      omega
    rw [if_neg hlast]
    refine ⟨_, rfl, rfl, ?_, ?_⟩
    · intro b
      show (s.strings.load b).isSome = true ↔ _
      rw [h.strings b, one]
      by_cases hb : p.ps = b
      · rw [if_pos hb, ← hb]
        omega
      · rw [if_neg hb]
        rfl
    · apply h.set_use hlen _ hother
      rw [Option.map_some, hsub, one, if_pos rfl, if_pos (by omega)]

theorem construct (h : Counts s k l) (str : String) (this : Place)
    (hl : l s.uses.length = 0) :
    Counts (s.construct this str) (fun b => k b + one s.strings.length b)
      (fun b => l b + one s.uses.length b) := by
  constructor
  · intro b
    show ((s.strings.new str).load b).isSome = true ↔ _
    rw [Blocks.load_new, one]
    by_cases hb : b = s.strings.length
    · rw [if_pos hb, if_pos hb.symm]
      simp
    · rw [if_neg hb, if_neg (Ne.symm hb)]
      exact h.strings b
  · intro b
    show ((s.uses.new 1).load b).map UInt64.toNat = _
    rw [Blocks.load_new, one]
    by_cases hb : b = s.uses.length
    · rw [if_pos hb, if_pos hb.symm, hb, hl]
      rfl
    · rw [if_neg hb, if_neg (Ne.symm hb)]
      exact h.uses b

theorem setObject (h : Counts s k l) (this : Place) (x : Option HashPtr) :
    Counts (s.setObject this x) k l :=
  ⟨h.strings, h.uses⟩

end Counts

/-! ### The invariant -/

/-- Every string and every count has as many objects as it says, and the two go together. -/
structure Inv (s : State) : Prop where
  counts : Counts s (owners s.ps) (owners s.use)
  paired : ∀ a b p q, s.objects a = some p → s.objects b = some q →
    (p.ps = q.ps ↔ p.use = q.use)

theorem ps_of_object {s : State} {a : Place} {p : HashPtr} (h : s.objects a = some p) :
    s.ps a = some p.ps := by
  show Option.map _ (s.objects a) = _
  rw [h]
  rfl

/-- What an object has before and after, for the block `b`. -/
def has (f : HashPtr → Nat) (x : Option HashPtr) (b : Nat) : Nat :=
  x.elim 0 fun p => one (f p) b

theorem owners_setObject (s : State) (f : HashPtr → Nat) (this : Place) (x : Option HashPtr)
    (b : Nat) :
    owners (Option.map f ∘ (s.setObject this x).objects) b + has f (s.objects this) b =
      owners (Option.map f ∘ s.objects) b + has f x b := by
  have hhas : ∀ y : Option HashPtr, has f y b = if y.map f = some b then 1 else 0 := by
    intro y
    cases y with
    | none => rfl
    | some p => simp [has, one]
  rw [hhas, hhas]
  show owners (Option.map f ∘ Function.update s.objects this x) b + _ = _
  rw [Function.comp_update]
  exact owners_update _ this _ b

namespace Inv

variable {s : State}

theorem owners_pos (_ : Inv s) {a : Place} {p : HashPtr} (hp : s.objects a = some p) :
    0 < owners s.ps p.ps :=
  Refcount.owners_pos.mpr ⟨a, ps_of_object hp⟩

/-- As many objects have the string as have its count. -/
theorem owners_eq (h : Inv s) {a : Place} {p : HashPtr} (hp : s.objects a = some p) :
    owners s.ps p.ps = owners s.use p.use := by
  apply owners_congr
  intro b
  show Option.map _ (s.objects b) = _ ↔ Option.map _ (s.objects b) = _
  cases hq : s.objects b with
  | none => simp
  | some q =>
    rw [Option.map_some, Option.map_some, Option.some.injEq, Option.some.injEq]
    exact h.paired b a q p hq hp

theorem start : Inv empty where
  counts := by
    have hnone : ∀ f : HashPtr → Nat, ∀ b, owners (Option.map f ∘ empty.objects) b = 0 := by
      intro f b
      by_contra hne
      obtain ⟨i, hi⟩ := Refcount.owners_pos.mp (Nat.pos_of_ne_zero hne)
      cases hi
    constructor
    · intro b
      rw [State.ps, hnone]
      simp [empty, Blocks.load]
    · intro b
      rw [State.use, hnone]
      simp [empty, Blocks.load]
  paired a b p q hp := by cases hp

/-- What has room for the objects cannot make a count run over. -/
theorem owners_lt (s : State) (b : Nat) : owners s.use b + 1 < 18446744073709551616 := by
  have hle := (owners_le s.use b).trans Place.card_le
  omega

theorem one_le_owners {a : Place} {p : HashPtr} (f : HashPtr → Nat)
    (hp : s.objects a = some p) (b : Nat) : one (f p) b ≤ owners (Option.map f ∘ s.objects) b := by
  unfold one
  split
  · rename_i hb
    refine Refcount.owners_pos.mpr ⟨a, ?_⟩
    show Option.map f (s.objects a) = some b
    rw [hp, ← hb]
    rfl
  · exact Nat.zero_le _

/-- The invariant after the blocks have changed and then the object at `this`. -/
theorem setObject (h : Inv s) {s1 : State} (hobj : s1.objects = s.objects) {k l : Nat → Nat}
    (hc : Counts s1 k l) {this : Place} {x : Option HashPtr}
    (hk : ∀ b, k b + has HashPtr.ps (s.objects this) b = owners s.ps b + has HashPtr.ps x b)
    (hl : ∀ b, l b + has HashPtr.use (s.objects this) b = owners s.use b + has HashPtr.use x b)
    (hx : ∀ p, x = some p → ∀ a q, s.objects a = some q → (p.ps = q.ps ↔ p.use = q.use)) :
    Inv (s1.setObject this x) where
  counts := by
    have hcount : ∀ (f : HashPtr → Nat) (k : Nat → Nat), (∀ b, k b + has f (s.objects this) b =
        owners (Option.map f ∘ s.objects) b + has f x b) →
        k = owners (Option.map f ∘ (s1.setObject this x).objects) := by
      intro f k hk
      funext b
      have hset := owners_setObject s1 f this x b
      rw [hobj] at hset
      exact Nat.add_right_cancel ((hk b).trans hset.symm)
    have hps : k = owners (s1.setObject this x).ps := hcount HashPtr.ps k hk
    have huse : l = owners (s1.setObject this x).use := hcount HashPtr.use l hl
    exact hps ▸ huse ▸ hc.setObject this x
  paired := by
    have hcases : ∀ {a p}, (s1.setObject this x).objects a = some p →
        x = some p ∨ s.objects a = some p := by
      intro a p hp
      have hp : Function.update s.objects this x a = some p := hobj ▸ hp
      by_cases ha : a = this
      · rw [ha, Function.update_self] at hp
        exact .inl hp
      · rw [Function.update_of_ne ha] at hp
        exact .inr hp
    intro a b p q hp hq
    rcases hcases hp with hp | hp <;> rcases hcases hq with hq | hq
    · rw [Option.some.inj (hp.symm.trans hq)]
      exact ⟨fun _ => rfl, fun _ => rfl⟩
    · exact hx p hp b q hq
    · rw [eq_comm, hx q hq a p hp, eq_comm]
    · exact h.paired a b p q hp hq

theorem construct (h : Inv s) {this : Place} (hthis : s.objects this = none) (str : String) :
    Inv (s.construct this str) := by
  have hps : owners s.ps s.strings.length = 0 := by
    by_contra hne
    obtain ⟨t, ht⟩ := h.counts.load_string (Nat.pos_of_ne_zero hne)
    exact absurd (Blocks.lt_of_load ht) (Nat.lt_irrefl _)
  have huse : owners s.use s.uses.length = 0 := by
    by_contra hne
    obtain ⟨n, hn, -⟩ := h.counts.load_use (Nat.pos_of_ne_zero hne)
    exact absurd (Blocks.lt_of_load hn) (Nat.lt_irrefl _)
  have hc := h.counts.construct str this huse
  have hobj : State.objects { s with strings := s.strings.new str, uses := s.uses.new 1 } =
    s.objects := rfl
  refine h.setObject hobj ⟨hc.strings, hc.uses⟩ ?_ ?_ ?_
  · intro b
    rw [hthis]
    rfl
  · intro b
    rw [hthis]
    rfl
  · rintro p hp a q hq
    rw [← Option.some.inj hp]
    constructor
    · intro heq
      have hpos := h.owners_pos hq
      rw [← heq, hps] at hpos
      exact absurd hpos (Nat.lt_irrefl _)
    · intro heq
      have hpos := h.owners_pos hq
      rw [h.owners_eq hq, ← heq, huse] at hpos
      exact absurd hpos (Nat.lt_irrefl _)

theorem copy (h : Inv s) {this p0 : Place} {p : HashPtr} (hthis : s.objects this = none)
    (hp : s.objects p0 = some p) : ∃ s', s.copy this p0 = some s' ∧ Inv s' := by
  obtain ⟨s1, hs1, hobj, hc⟩ := h.counts.incr (h.owners_pos hp)
    (h.owners_eq hp ▸ h.owners_pos hp) (owners_lt s p.use)
  refine ⟨s1.setObject this (some p), ?_, h.setObject hobj hc ?_ ?_ ?_⟩
  · rw [State.copy, hp, Option.bind_eq_bind, Option.bind_some, hs1]
    rfl
  · intro b
    rw [hthis]
    rfl
  · intro b
    rw [hthis]
    rfl
  · intro q hq a r hr
    rw [← Option.some.inj hq]
    exact h.paired p0 a p r hp hr

theorem destroy (h : Inv s) {this : Place} {p : HashPtr} (hp : s.objects this = some p) :
    ∃ s', s.destroy this = some s' ∧ Inv s' := by
  obtain ⟨s1, hs1, hobj, hc⟩ := h.counts.release (h.owners_pos hp) (h.owners_eq hp)
  refine ⟨s1.setObject this none, ?_, h.setObject hobj hc ?_ ?_ ?_⟩
  · rw [State.destroy, hp, Option.bind_eq_bind, Option.bind_some, hs1]
    rfl
  · intro b
    rw [hp]
    exact Nat.sub_add_cancel (one_le_owners HashPtr.ps hp b)
  · intro b
    rw [hp]
    exact Nat.sub_add_cancel (one_le_owners HashPtr.use hp b)
  · intro q hq
    cases hq

/-- The right count goes up before the left one goes down: where the two are one, that is not
the last object's in between. -/
theorem assign (h : Inv s) {this rhs : Place} {p q : HashPtr} (hp : s.objects this = some p)
    (hq : s.objects rhs = some q) : ∃ s', s.assign this rhs = some s' ∧ Inv s' := by
  obtain ⟨s1, hs1, hobj1, hc1⟩ := h.counts.incr (h.owners_pos hq)
    (h.owners_eq hq ▸ h.owners_pos hq) (owners_lt s q.use)
  have hone : one q.ps p.ps = one q.use p.use := by
    unfold one
    exact if_congr (h.paired rhs this q p hq hp) rfl rfl
  obtain ⟨s2, hs2, hobj2, hc2⟩ := hc1.release (p := p)
    (Nat.add_pos_left (h.owners_pos hp) _) (by rw [h.owners_eq hp, hone])
  refine ⟨s2.setObject this (some q), ?_, h.setObject (hobj2.trans hobj1) hc2 ?_ ?_ ?_⟩
  · rw [State.assign, hp, hq]
    simp only [Option.bind_eq_bind, Option.bind_some, hs1, hs2]
    rfl
  · intro b
    rw [hp]
    exact Nat.sub_add_cancel (Nat.le_add_right_of_le (one_le_owners HashPtr.ps hp b))
  · intro b
    rw [hp]
    exact Nat.sub_add_cancel (Nat.le_add_right_of_le (one_le_owners HashPtr.use hp b))
  · intro r hr a t ht
    rw [← Option.some.inj hr]
    exact h.paired rhs a q t hq ht

/-- No event touches a block that was deleted, and each keeps the invariant. -/
theorem exec (h : Inv s) {e : Event} (he : Allowed s e) : ∃ s', s.exec e = some s' ∧ Inv s' := by
  cases e with
  | construct this str => exact ⟨_, rfl, h.construct he str⟩
  | copy this p0 =>
    obtain ⟨p, hp⟩ := Option.isSome_iff_exists.mp he.2
    exact h.copy he.1 hp
  | assign this rhs =>
    obtain ⟨p, hp⟩ := Option.isSome_iff_exists.mp he.1
    obtain ⟨q, hq⟩ := Option.isSome_iff_exists.mp he.2
    exact h.assign hp hq
  | destroy this =>
    obtain ⟨p, hp⟩ := Option.isSome_iff_exists.mp he
    exact h.destroy hp

end Inv

/-! ### What was deleted -/

/-- No block of `s` that was deleted is there again in `s'`. -/
def Later (s s' : State) : Prop :=
  Blocks.Later s.strings s'.strings ∧ Blocks.Later s.uses s'.uses

theorem later_incr {s s' : State} {p : HashPtr} (h : s.incr p = some s') : Later s s' := by
  obtain ⟨n, -, h⟩ := Option.bind_eq_some_iff.mp h
  obtain ⟨uses, hstore, h⟩ := Option.bind_eq_some_iff.mp h
  rw [← Option.some.inj h]
  exact ⟨.refl _, .store hstore⟩

theorem later_release {s s' : State} {p : HashPtr} (h : s.release p = some s') : Later s s' := by
  obtain ⟨n, -, h⟩ := Option.bind_eq_some_iff.mp h
  obtain ⟨uses, hstore, h⟩ := Option.bind_eq_some_iff.mp h
  split at h
  · obtain ⟨strings, hps, h⟩ := Option.bind_eq_some_iff.mp h
    obtain ⟨uses', huse, h⟩ := Option.bind_eq_some_iff.mp h
    rw [← Option.some.inj h]
    exact ⟨.delete hps, (Blocks.Later.store hstore).trans (.delete huse)⟩
  · rw [← Option.some.inj h]
    exact ⟨.refl _, .store hstore⟩

theorem later_exec {s s' : State} {e : Event} (h : s.exec e = some s') : Later s s' := by
  cases e with
  | construct this str =>
    rw [← Option.some.inj h]
    exact ⟨.new _ _, .new _ _⟩
  | copy this p0 =>
    obtain ⟨p, -, h⟩ := Option.bind_eq_some_iff.mp h
    obtain ⟨s1, hincr, h⟩ := Option.bind_eq_some_iff.mp h
    rw [← Option.some.inj h]
    exact ⟨(later_incr hincr).1, (later_incr hincr).2⟩
  | assign this rhs =>
    obtain ⟨p, -, h⟩ := Option.bind_eq_some_iff.mp h
    obtain ⟨q, -, h⟩ := Option.bind_eq_some_iff.mp h
    obtain ⟨s1, hincr, h⟩ := Option.bind_eq_some_iff.mp h
    obtain ⟨s2, hrelease, h⟩ := Option.bind_eq_some_iff.mp h
    rw [← Option.some.inj h]
    exact ⟨(later_incr hincr).1.trans (later_release hrelease).1,
      (later_incr hincr).2.trans (later_release hrelease).2⟩
  | destroy this =>
    obtain ⟨p, -, h⟩ := Option.bind_eq_some_iff.mp h
    obtain ⟨s1, hrelease, h⟩ := Option.bind_eq_some_iff.mp h
    rw [← Option.some.inj h]
    exact ⟨(later_release hrelease).1, (later_release hrelease).2⟩

theorem step_system (s : State) (e : Event) (s' : State) (h : s.step e = some s') :
    system.step s e s' := by
  unfold State.step at h
  split at h
  · rename_i he
    exact ⟨he, h⟩
  · cases h

theorem Inv.step {s : State} (h : Inv s) {e : Event} {s' : State} (hs : system.step s e s') :
    Inv s' := by
  obtain ⟨t, ht, hinv⟩ := h.exec hs.1
  rw [Option.some.inj (hs.2.symm.trans ht)]
  exact hinv

theorem Inv.of_run {es : List Event} {s : State} (h : system.Run es s) : Inv s :=
  h.invariant (I := fun _ s => Inv s) (by rintro s rfl; exact Inv.start)
    fun _ _ _ _ _ hi hs => hi.step hs

/-! ## The counts are right -/

structure Law (s : State) : Prop where
  /-- `*use` of each object is the number of objects that share its `ps`. -/
  counted : ∀ a p, s.objects a = some p →
    ∃ n, s.uses.load p.use = some n ∧ n.toNat = owners s.ps p.ps
  /-- No object's string was deleted. -/
  string : ∀ a p, s.objects a = some p → (s.strings.load p.ps).isSome = true
  /-- Nothing that was deleted is touched, or deleted again. -/
  defined : ∀ e, Allowed s e → ∃ s', s.exec e = some s'
  /-- A block is deleted in the very step that takes the last object from it. -/
  strings : ∀ e s', system.step s e s' → ∀ b,
    Blocks.Deleted s.strings s'.strings b ↔ 0 < owners s.ps b ∧ owners s'.ps b = 0
  uses : ∀ e s', system.step s e s' → ∀ b,
    Blocks.Deleted s.uses s'.uses b ↔ 0 < owners s.use b ∧ owners s'.use b = 0
  /-- It is not deleted in any later one. -/
  later : ∀ e s', system.step s e s' → Later s s'

theorem Counts.deleted_strings {s s' : State} {k k' l l' : Nat → Nat} (h : Counts s k l)
    (h' : Counts s' k' l') (b : Nat) :
    Blocks.Deleted s.strings s'.strings b ↔ 0 < k b ∧ k' b = 0 := by
  refine and_congr (h.strings b) ?_
  rw [← Option.not_isSome_iff_eq_none, h'.strings b, Nat.not_lt, Nat.le_zero]

theorem Counts.deleted_uses {s s' : State} {k k' l l' : Nat → Nat} (h : Counts s k l)
    (h' : Counts s' k' l') (b : Nat) :
    Blocks.Deleted s.uses s'.uses b ↔ 0 < l b ∧ l' b = 0 := by
  have hsome : ∀ {t : State} {k l}, Counts t k l →
      ((t.uses.load b).isSome = true ↔ 0 < l b) := by
    intro t k l h
    rw [← Option.isSome_map (f := UInt64.toNat), h.uses b]
    split
    · rename_i hpos
      exact ⟨fun _ => hpos, fun _ => rfl⟩
    · rename_i hzero
      exact ⟨fun h => (by cases h), fun h => absurd h hzero⟩
  refine and_congr (hsome h) ?_
  rw [← Option.not_isSome_iff_eq_none, hsome h', Nat.not_lt, Nat.le_zero]

/-- **However the objects are made, copied, assigned and destroyed, the counts are right, nothing
is touched that was deleted, and each block is deleted once, with its last object.** -/
theorem hashPtr_counted (es : List Event) (s : State) (h : system.Run es s) : Law s where
  counted a p hp := by
    have hinv := Inv.of_run h
    rw [hinv.owners_eq hp]
    exact hinv.counts.load_use (hinv.owners_eq hp ▸ hinv.owners_pos hp)
  string a p hp := ((Inv.of_run h).counts.strings p.ps).mpr ((Inv.of_run h).owners_pos hp)
  defined e he := by
    obtain ⟨s', hs', -⟩ := (Inv.of_run h).exec he
    exact ⟨s', hs'⟩
  strings e s' hs := (Inv.of_run h).counts.deleted_strings ((Inv.of_run h).step hs).counts
  uses e s' hs := (Inv.of_run h).counts.deleted_uses ((Inv.of_run h).step hs).counts
  later e s' hs := later_exec hs.2

/-- Two objects share a string, each is assigned the other or itself, and one is destroyed. -/
def twoObjects : List Event :=
  [.construct ⟨8, rfl⟩ "a", .copy ⟨32, rfl⟩ ⟨8, rfl⟩, .assign ⟨8, rfl⟩ ⟨8, rfl⟩,
    .assign ⟨32, rfl⟩ ⟨8, rfl⟩, .destroy ⟨8, rfl⟩]

theorem hashPtr_counted_twoObjects : ∃ s, twoObjects.foldlM State.step empty = some s ∧
    Law s ∧ s.strings.load 0 = some "a" ∧ s.uses.load 0 = some 1 := by
  obtain ⟨s, hs⟩ : ∃ s, twoObjects.foldlM State.step empty = some s := ⟨_, rfl⟩
  have hrun : system.Run twoObjects s :=
    System.Run.exec State.step step_system (.start rfl) twoObjects hs
  have hstring : (twoObjects.foldlM State.step empty).map (fun s => s.strings.load 0) =
    some (some "a") := rfl
  have huse : (twoObjects.foldlM State.step empty).map (fun s => s.uses.load 0) =
    some (some 1) := rfl
  rw [hs] at hstring huse
  exact ⟨s, hs, hashPtr_counted twoObjects s hrun, Option.some.inj hstring,
    Option.some.inj huse⟩

end StudyDoc.PointerLike
