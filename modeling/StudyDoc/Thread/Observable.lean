import StudyDoc.Lib.Guarded
import StudyDoc.Lib.Sweep
import StudyDoc.Lib.Transition
import Mathlib.Data.List.Induction

/-!
# `test_safe_thread.cc`: `Observable`, with weak pointers

Any number of threads call `register_` and `notifyObservers` of one `Observable`, while the objects
that its `weak_ptr`s refer to die at any time.  `notifyObservers` erases from `observers` while it
iterates, all of it under `mutex_`.  In any run, for any order of the threads' statements,

    a pass: entries reached = those when it locked
            `update` called on = those that were alive when reached = those left
    at any time: live entries of observers = live ones of the first entries and of those registered
    registered, of each thread: the arguments of its calls of `register_`, but for a waiting one
    a call that got the mutex comes to its end

(`notifyObservers_law`).  What a pass reaches and calls is read off the run (`State.reach`,
`State.update`); the program keeps no record of it.
-/

namespace StudyDoc.Observable

open Transition Guarded Sweep

/-! ## Algorithm -/

/-- The next statement of a thread. -/
inductive Pc (A : Type) where
  | outside
  | register (x : A)
  | pushBack (x : A)
  /-- `~MutexLockGuard` of `register_` -/
  | pushed
  | notify
  /-- `while(it != observers.end())` -/
  | loop (it : Nat)
  /-- `obj->update(); it++;` -/
  | update (it : Nat) (obj : A)
  /-- `~MutexLockGuard` of `notifyObservers` -/
  | left

/-- A `weak_ptr` is the object it refers to. -/
structure Data (T A : Type) where
  mutex_ : Option T
  observers : List A
  alive : A → Bool
  /-- How many variables `obj` hold the object. -/
  strong : A → Nat

structure State (T A : Type) where
  threads : T → Pc A
  data : Data T A

inductive Event (T A : Type) where
  /-- `t` calls `register_(x)`. -/
  | register (t : T) (x : A)
  | notify (t : T)
  /-- The next statement of `t`. -/
  | run (t : T)
  /-- The last `shared_ptr` to `x` is gone. -/
  | expire (x : A)

section

variable {T A : Type} [DecidableEq T] [DecidableEq A]

namespace Data

def lock (d : Data T A) (t : T) : Option (Data T A) :=
  if d.mutex_ = none then some { d with mutex_ := some t } else none

def unlock (d : Data T A) : Data T A := { d with mutex_ := none }

def pushBack (d : Data T A) (x : A) : Data T A := { d with observers := d.observers ++ [x] }

def erase (d : Data T A) (it : Nat) : Data T A :=
  { d with observers := d.observers.eraseIdx it }

def hold (d : Data T A) (x : A) : Data T A :=
  { d with strong := Function.update d.strong x (d.strong x + 1) }

def release (d : Data T A) (x : A) : Data T A :=
  { d with strong := Function.update d.strong x (d.strong x - 1) }

def expire (d : Data T A) (x : A) : Data T A :=
  { d with alive := Function.update d.alive x false }

end Data

/-- One statement of the thread `t`.  Behind the end of `observers` `it->lock()` is undefined. -/
def Pc.step (t : T) (pc : Pc A) (d : Data T A) : Option (Pc A × Data T A) :=
  match pc with
  | .outside => none
  | .register x => (d.lock t).map fun d => (.pushBack x, d)
  | .pushBack x => some (.pushed, d.pushBack x)
  | .pushed => some (.outside, d.unlock)
  | .notify => (d.lock t).map fun d => (.loop 0, d)
  | .loop it =>
    if it = d.observers.length then some (.left, d)
    else
      match d.observers[it]? with
      | none => none
      | some x => if d.alive x then some (.update it x, d.hold x) else some (.loop it, d.erase it)
  | .update it obj => some (.loop (it + 1), d.release obj)
  | .left => some (.outside, d.unlock)

namespace State

def enter (s : State T A) (t : T) (pc : Pc A) : Option (State T A) :=
  match s.threads t with
  | .outside => some ⟨Function.update s.threads t pc, s.data⟩
  | _ => none

/-- `none`: not possible, or undefined. -/
def step (s : State T A) : Event T A → Option (State T A)
  | .register t x => s.enter t (.register x)
  | .notify t => s.enter t .notify
  | .run t => ((s.threads t).step t s.data).map fun (pc, d) => ⟨Function.update s.threads t pc, d⟩
  | .expire x =>
    if s.data.alive x = true ∧ s.data.strong x = 0 then some ⟨s.threads, s.data.expire x⟩
    else none

end State

/-- Any entries, live, expired, or several times the same; no call has begun. -/
def State.Initial (s : State T A) : Prop :=
  (∀ t, s.threads t = .outside) ∧ s.data.mutex_ = none ∧ ∀ x, s.data.strong x = 0

/-! ## What a run shows -/

/-- The entry that `it` of the thread `t` comes to, and whether `it->lock()` is not null. -/
def State.reach (t : T) (s : State T A) : Event T A → List (A × Bool)
  | .run u =>
    match s.threads t with
    | .loop it =>
      if u = t then (s.data.observers[it]?.map fun x => (x, s.data.alive x)).toList else []
    | _ => []
  | _ => []

/-- The object whose `update` the thread `t` calls. -/
def State.update (t : T) (s : State T A) : Event T A → List A
  | .run u =>
    match s.threads t with
    | .update _ obj => if u = t then [obj] else []
    | _ => []
  | _ => []

def Event.isRun (t : T) : Event T A → Bool
  | run u => u = t
  | _ => false

/-- `t` begins a call. -/
def Event.begins (t : T) : Event T A → Bool
  | register u _ | notify u => u = t
  | _ => false

/-- The argument of a call of `register_` by `t`. -/
def Event.argument (t : T) : Event T A → Option A
  | register u x => if u = t then some x else none
  | _ => none

end

/-- The argument of a `register_` that has not got to its `push_back`. -/
def Pc.pending {A : Type} : Pc A → List A
  | register x | pushBack x => [x]
  | _ => []

section

variable {T A : Type} [DecidableEq T]

/-- A pass that got the mutex in `s₁`, after the labels `es`: what it `reached` and `called`. -/
structure PassLaw (t : T) (s₁ : State T A) (es : List (Event T A)) (s : State T A)
    (reached : List (A × Bool)) (called : List A) : Prop where
  /-- Before the end nothing is added, and what was reached alive was called and is still there. -/
  during : ∀ it, s.threads t = .loop it →
    reached.map Prod.fst ++ s.data.observers.drop it = s₁.data.observers ∧
      called = kept reached ∧ s.data.observers.take it = kept reached
  /-- The next call is that of the last one reached. -/
  updating : ∀ it obj, s.threads t = .update it obj →
    reached.map Prod.fst ++ s.data.observers.drop (it + 1) = s₁.data.observers ∧
      called ++ [obj] = kept reached ∧ s.data.observers.take (it + 1) = kept reached
  /-- At the end the list is what was reached alive. -/
  left : s.threads t = .left → s.data.observers = kept reached
  /-- Over, the pass came to each entry once, in order, and called those alive. -/
  ended : s.threads t = .left ∨ s.threads t = .outside →
    reached.map Prod.fst = s₁.data.observers ∧ called = kept reached
  /-- With the lock and the unlock. -/
  bounded : es.countP (Event.isRun t) ≤ 2 * s₁.data.observers.length + 3

/-- `registered` are the entries that were added to those of `s₀`, and by whom. -/
structure Registered (s₀ : State T A) (es : List (Event T A)) (s : State T A)
    (registered : List (T × A)) : Prop where
  arguments : ∀ t, es.filterMap (Event.argument t) =
    (registered.filter fun r => r.1 = t).map Prod.snd ++ (s.threads t).pending
  order : s.data.observers.Sublist (s₀.data.observers ++ registered.map Prod.snd)
  /-- No registration of a live object is lost, and none is out of its place. -/
  live : s.data.observers.filter s.data.alive =
    (s₀.data.observers ++ registered.map Prod.snd).filter s.data.alive

end

/-! ## The mutex -/

section

variable {T A : Type}

def Pc.inside : Pc A → Bool
  | outside | register _ | notify => false
  | pushBack _ | pushed | loop _ | update _ _ | left => true

/-- How many statements a call has ahead, from the lock on. -/
def Pc.ahead (observers : List A) : Pc A → Nat
  | outside | register _ | notify => 0
  | pushBack _ => 2
  | pushed | left => 1
  | loop it => 2 * (observers.length - it) + 2
  | update it _ => 2 * (observers.length - it) + 1

/-- What a thread knows of the data it has locked. -/
def Knows (pc : Pc A) (d : Data T A) : Prop :=
  match pc with
  | .loop it => it ≤ d.observers.length
  | .update it obj => it < d.observers.length ∧ d.alive obj = true ∧ 0 < d.strong obj
  | _ => True

theorem knows_stable {pc : Pc A} {d d' : Data T A} (ho : pc.inside = false) (_ : True)
    (_ : Knows pc d) : Knows pc d' := by
  cases pc with
  | outside | register x | notify => trivial
  | pushBack x | pushed | loop it | update it obj | left => cases ho

def protocol (T A : Type) : Protocol T (Data T A) fun _ => Pc A where
  owner := Data.mutex_
  inside _ pc := pc.inside
  knows _ := Knows
  resource _ := True
  guarantee _ _ := True
  stable := knows_stable

theorem lock_eq_some_iff {d d' : Data T A} {t : T} :
    d.lock t = some d' ↔ d.mutex_ = none ∧ d' = { d with mutex_ := some t } := by
  unfold Data.lock
  exact guard_iff

variable [DecidableEq A]

/-- An object that dies is not the one in its `update`. -/
theorem knows_expire {pc : Pc A} {d : Data T A} (hk : Knows pc d) {x : A} (hx : d.strong x = 0) :
    Knows pc (d.expire x) := by
  cases pc with
  | outside | register y | pushBack y | pushed | notify | left => trivial
  | loop it => exact hk
  | update it obj =>
    obtain ⟨hit, halive, hstrong⟩ := hk
    have hne : obj ≠ x := by
      rintro rfl
      omega
    refine ⟨hit, ?_, hstrong⟩
    show Function.update d.alive x false obj = true
    rw [Function.update_of_ne hne]
    exact halive

theorem pc_step {t : T} {pc pc' : Pc A} {d d' : Data T A} (hs : pc.step t d = some (pc', d'))
    (hk : Knows pc d) (hown : d.mutex_ = some t ↔ pc.inside = true) :
    (protocol T A).Step t pc d pc' d' := by
  cases pc with
  | outside => cases hs
  | register x =>
    obtain ⟨d1, hd1, heq⟩ := Option.map_eq_some_iff.mp hs
    obtain ⟨hnone, rfl⟩ := lock_eq_some_iff.mp hd1
    cases heq
    exact .into (Or.inl hnone) trivial rfl rfl trivial
  | pushBack x =>
    have hm := hown.mpr rfl
    cases hs
    exact .into (Or.inr hm) trivial hm rfl trivial
  | pushed =>
    have hm := hown.mpr rfl
    cases hs
    exact .leave hm trivial rfl rfl trivial trivial
  | notify =>
    obtain ⟨d1, hd1, heq⟩ := Option.map_eq_some_iff.mp hs
    obtain ⟨hnone, rfl⟩ := lock_eq_some_iff.mp hd1
    cases heq
    exact .into (Or.inl hnone) trivial rfl rfl (Nat.zero_le _)
  | loop it =>
    have hm := hown.mpr rfl
    dsimp only [Pc.step] at hs
    split at hs
    · cases hs
      exact .into (Or.inr hm) trivial hm rfl trivial
    · split at hs
      · cases hs
      · next x hx =>
        obtain ⟨hit, -⟩ := List.getElem?_eq_some_iff.mp hx
        split at hs
        · next halive =>
          cases hs
          refine .into (Or.inr hm) trivial hm rfl ⟨hit, halive, ?_⟩
          show 0 < Function.update d.strong x (d.strong x + 1) x
          rw [Function.update_self]
          exact Nat.succ_pos _
        · cases hs
          refine .into (Or.inr hm) trivial hm rfl ?_
          show it ≤ (d.observers.eraseIdx it).length
          rw [List.length_eraseIdx_of_lt hit]
          omega
  | update it obj =>
    have hm := hown.mpr rfl
    cases hs
    exact .into (Or.inr hm) trivial hm rfl hk.1
  | left =>
    have hm := hown.mpr rfl
    cases hs
    exact .leave hm trivial rfl rfl trivial trivial

/-- Nothing but the mutex stops a call. -/
theorem pc_step_enabled {t : T} {pc : Pc A} {d : Data T A} (hk : Knows pc d)
    (hown : d.mutex_ = some t ↔ pc.inside = true) (hcall : pc ≠ .outside)
    (hm : d.mutex_ = none ∨ d.mutex_ = some t) : ∃ r, pc.step t d = some r := by
  have hlock : pc.inside = false → ∃ d', d.lock t = some d' := by
    intro hout
    have hnone : d.mutex_ = none := hm.resolve_right fun hmine => by
      rw [hown.mp hmine] at hout
      cases hout
    exact ⟨_, lock_eq_some_iff.mpr ⟨hnone, rfl⟩⟩
  cases pc with
  | outside => exact absurd rfl hcall
  | register x | notify =>
    obtain ⟨d', hd'⟩ := hlock rfl
    exact ⟨_, congrArg (Option.map _) hd'⟩
  | pushBack x | pushed | update it obj | left => exact ⟨_, rfl⟩
  | loop it =>
    dsimp only [Pc.step]
    split
    · exact ⟨_, rfl⟩
    · next hend =>
      -- short of the end the cursor is valid
      rw [List.getElem?_eq_getElem (Nat.lt_of_le_of_ne hk hend)]
      dsimp only
      split
      · exact ⟨_, rfl⟩
      · exact ⟨_, rfl⟩

/-- A statement inside brings the call nearer to its end: an erasure shortens what is ahead of the
cursor, and an `update` is two statements for one entry. -/
theorem pc_step_ahead {t : T} {pc pc' : Pc A} {d d' : Data T A}
    (hs : pc.step t d = some (pc', d')) (hin : pc.inside = true) (hk : Knows pc d) :
    (pc' = .outside ∨ pc'.inside = true) ∧ pc'.ahead d'.observers < pc.ahead d.observers := by
  cases pc with
  | outside | register x | notify => cases hin
  | pushBack x =>
    cases hs
    exact ⟨Or.inr rfl, Nat.lt_succ_self _⟩
  | pushed | left =>
    cases hs
    exact ⟨Or.inl rfl, Nat.lt_succ_self _⟩
  | update it obj =>
    cases hs
    refine ⟨Or.inr rfl, ?_⟩
    have hit : it < d.observers.length := hk.1
    show 2 * (d.observers.length - (it + 1)) + 2 < 2 * (d.observers.length - it) + 1
    omega
  | loop it =>
    dsimp only [Pc.step] at hs
    split at hs
    · cases hs
      refine ⟨Or.inr rfl, ?_⟩
      show 1 < 2 * (d.observers.length - it) + 2
      omega
    · split at hs
      · cases hs
      · next x hx =>
        obtain ⟨hit, -⟩ := List.getElem?_eq_some_iff.mp hx
        split at hs
        · cases hs
          refine ⟨Or.inr rfl, ?_⟩
          show 2 * (d.observers.length - it) + 1 < 2 * (d.observers.length - it) + 2
          omega
        · cases hs
          refine ⟨Or.inr rfl, ?_⟩
          show 2 * ((d.observers.eraseIdx it).length - it) + 2 < 2 * (d.observers.length - it) + 2
          rw [List.length_eraseIdx_of_lt hit]
          omega

abbrev Inv (s : State T A) : Prop := (protocol T A).Inv s.threads s.data

variable [DecidableEq T] {s₀ s s' : State T A} {t : T}

omit [DecidableEq A] in
theorem enter_eq_some_iff {pc : Pc A} : s.enter t pc = some s' ↔
    s.threads t = .outside ∧ s' = ⟨Function.update s.threads t pc, s.data⟩ := by
  unfold State.enter
  constructor
  · intro h
    split at h
    · next hout =>
      cases h
      exact ⟨hout, rfl⟩
    · cases h
  · rintro ⟨hout, rfl⟩
    rw [hout]

omit [DecidableEq A] in
theorem enter_inv {pc : Pc A} (h : Inv s) (hs : s.enter t pc = some s') (hpc : pc.inside = false) :
    Inv s' := by
  obtain ⟨hout, rfl⟩ := enter_eq_some_iff.mp hs
  have hin : (s.threads t).inside = false := by rw [hout]; rfl
  refine h.step (.outside hin hpc ?_)
  cases pc with
  | outside | register x | notify => trivial
  | pushBack x | pushed | loop it | update it obj | left => cases hpc

theorem step_inv {e : Event T A} (h : Inv s) (hs : s.step e = some s') : Inv s' := by
  cases e with
  | register t x => exact enter_inv h hs rfl
  | notify t => exact enter_inv h hs rfl
  | run t =>
    obtain ⟨⟨pc, d⟩, hstep, rfl⟩ := Option.map_eq_some_iff.mp hs
    exact h.step (pc_step hstep (h.knows t) (h.owner t))
  | expire x =>
    dsimp only [State.step] at hs
    obtain ⟨⟨-, hx⟩, rfl⟩ := guard_iff.mp hs
    exact h.environment rfl id fun t hk => knows_expire hk hx

omit [DecidableEq A] [DecidableEq T] in
theorem init_inv (h : s.Initial) : Inv s := by
  obtain ⟨hthreads, hmutex, -⟩ := h
  refine ⟨fun t => ?_, fun _ => trivial, fun t => ?_⟩
  · show s.data.mutex_ = some t ↔ (s.threads t).inside = true
    rw [hmutex, hthreads t]
    simp [Pc.inside]
  · show Knows (s.threads t) s.data
    rw [hthreads t]
    trivial

theorem run_inv {es : List (Event T A)} (h : Inv s) (hs : es.foldlM State.step s = some s') :
    Inv s' := by
  induction es generalizing s with
  | nil => exact Option.some.inj hs ▸ h
  | cons e es ih =>
    obtain ⟨s1, hs1, hrest⟩ := Option.bind_eq_some_iff.mp hs
    exact ih (step_inv h hs1) hrest

/-! ## The end of a call -/

/-- The induction is on the statements that are ahead. -/
theorem returns_of_inside (h : Inv s) (hin : (s.threads t).inside = true) :
    ∃ n s', (List.replicate n (.run t)).foldlM State.step s = some s' ∧
      s'.threads t = .outside := by
  induction hn : (s.threads t).ahead s.data.observers using Nat.strongRecOn
    generalizing s with
  | ind n ih =>
    have hcall : s.threads t ≠ .outside := by
      intro hout
      rw [hout] at hin
      cases hin
    obtain ⟨⟨pc, d⟩, hstep⟩ := pc_step_enabled (h.knows t) (h.owner t) hcall
      (Or.inr ((h.owner t).mpr hin))
    have hrun : s.step (.run t) = some ⟨Function.update s.threads t pc, d⟩ := by
      rw [State.step, hstep, Option.map_some]
    obtain ⟨hpc, hlt⟩ := pc_step_ahead hstep hin (h.knows t)
    have hself : Function.update s.threads t pc t = pc := Function.update_self ..
    rcases hpc with hout | hinside
    · refine ⟨1, ⟨Function.update s.threads t pc, d⟩, ?_, hself.trans hout⟩
      rw [List.replicate_one, List.foldlM_cons, hrun]
      rfl
    · obtain ⟨m, s', hs', hout⟩ := ih _ (hn ▸ hlt) (step_inv h hrun)
        ((congrArg Pc.inside hself).trans hinside)
        (congrArg (fun q : Pc A => q.ahead d.observers) hself)
      refine ⟨m + 1, s', ?_, hout⟩
      rw [List.replicate_succ, List.foldlM_cons, hrun]
      exact hs'

/-! ## One pass -/

/-- Where a pass is after `n` statements. -/
def OnPass (entries : List A) (reached : List (A × Bool)) (called : List A) (n : Nat)
    (observers : List A) : Pc A → Prop
  | .loop it => At entries reached observers it ∧ called = kept reached ∧ n ≤ 2 * reached.length
  | .update it obj => At entries reached observers (it + 1) ∧ called ++ [obj] = kept reached ∧
    n + 1 ≤ 2 * reached.length
  | .left => reached.map Prod.fst = entries ∧ called = kept reached ∧ observers = kept reached ∧
    n ≤ 2 * entries.length + 1
  | .outside => reached.map Prod.fst = entries ∧ called = kept reached ∧ n ≤ 2 * entries.length + 2
  | _ => False

variable {entries called : List A} {reached : List (A × Bool)} {n : Nat}

/-- A statement of the thread itself. -/
theorem onPass_run (h : OnPass entries reached called n s.data.observers (s.threads t))
    (hs : s.step (.run t) = some s') :
    OnPass entries (reached ++ s.reach t (.run t)) (called ++ s.update t (.run t)) (n + 1)
      s'.data.observers (s'.threads t) := by
  obtain ⟨⟨pc, d⟩, hstep, rfl⟩ := Option.map_eq_some_iff.mp hs
  simp only [State.reach, State.update, Function.update_self, if_true]
  cases hpc : s.threads t with
  | outside => rw [hpc] at hstep; cases hstep
  | register x | pushBack x | pushed | notify => rw [hpc] at h; exact h.elim
  | loop it =>
    rw [hpc] at h hstep
    obtain ⟨hat, hcalled, hn⟩ := h
    simp only [List.append_nil]
    dsimp only [Pc.step] at hstep
    split at hstep
    · next hend =>
      cases hstep
      rw [List.getElem?_eq_none (Nat.le_of_eq hend.symm), Option.map_none, Option.toList_none,
        List.append_nil]
      obtain ⟨hreached, hleft⟩ := (hend ▸ hat : At entries reached s.data.observers
        s.data.observers.length).finish
      have hlen := hat.reached_length
      exact ⟨hreached, hcalled, hleft, by omega⟩
    · split at hstep
      · cases hstep
      · next x hx =>
        rw [hx, Option.map_some, Option.toList_some]
        split at hstep
        · next halive =>
          cases hstep
          rw [halive]
          refine ⟨hat.keep hx, ?_, ?_⟩
          · rw [kept_concat_true, hcalled]
          · rw [List.length_append, List.length_singleton]
            omega
        · next hdead =>
          cases hstep
          rw [Bool.not_eq_true] at hdead
          rw [hdead]
          refine ⟨hat.erase hx, ?_, ?_⟩
          · rw [kept_concat_false, hcalled]
          · rw [List.length_append, List.length_singleton]
            omega
  | update it obj =>
    rw [hpc] at h hstep
    obtain ⟨hat, hcalled, hn⟩ := h
    cases hstep
    simp only [List.append_nil]
    exact ⟨hat, hcalled, hn⟩
  | left =>
    rw [hpc] at h hstep
    obtain ⟨hreached, hcalled, -, hn⟩ := h
    cases hstep
    simp only [List.append_nil]
    exact ⟨hreached, hcalled, by omega⟩

/-- Nobody else takes a step while the thread is inside. -/
theorem others_out (hi : Inv s) {u : T} (hu : u ≠ t) (hin : (s.threads t).inside = true) :
    s.step (.run u) = none := by
  have hm : s.data.mutex_ = some t := (hi.owner t).mpr hin
  have hout : (s.threads u).inside = false := hi.others (Or.inr hm) hu
  have hlock : s.data.lock u = none := by
    unfold Data.lock
    rw [hm]
    exact if_neg (Option.some_ne_none t)
  dsimp only [State.step]
  rw [Option.map_eq_none_iff]
  cases hpc : s.threads u with
  | outside => rfl
  | register x | notify =>
    dsimp only [Pc.step]
    rw [hlock]
    rfl
  | pushBack x | pushed | loop it | update it obj | left => rw [hpc] at hout; cases hout

omit [DecidableEq A] in
/-- A finished pass does not depend on the list. -/
theorem OnPass.of_outside {observers observers' : List A} {pc : Pc A} (hpc : pc.inside = false)
    (h : OnPass entries reached called n observers pc) :
    OnPass entries reached called n observers' pc := by
  cases pc with
  | outside => exact h
  | register x | notify => exact h.elim
  | pushBack x | pushed | loop it | update it obj | left => cases hpc

omit [DecidableEq A] in
theorem OnPass.enter {u : T} {pc : Pc A}
    (h : OnPass entries reached called n s.data.observers (s.threads t)) (hu : u ≠ t)
    (hs : s.enter u pc = some s') :
    OnPass entries reached called n s'.data.observers (s'.threads t) := by
  obtain ⟨-, rfl⟩ := enter_eq_some_iff.mp hs
  show OnPass entries reached called n s.data.observers (Function.update s.threads u pc t)
  rw [Function.update_of_ne hu.symm]
  exact h

/-- A statement of another thread: the pass is over, or the mutex keeps the other one out. -/
theorem onPass_other {u : T} (h : OnPass entries reached called n s.data.observers (s.threads t))
    (hi : Inv s) (hu : u ≠ t) (hs : s.step (.run u) = some s') :
    OnPass entries reached called n s'.data.observers (s'.threads t) := by
  cases hin : (s.threads t).inside with
  | true =>
    rw [others_out hi hu hin] at hs
    cases hs
  | false =>
    obtain ⟨⟨pc, d⟩, -, rfl⟩ := Option.map_eq_some_iff.mp hs
    show OnPass entries reached called n d.observers (Function.update s.threads u pc t)
    rw [Function.update_of_ne hu.symm]
    exact h.of_outside hin

omit [DecidableEq A] in
theorem reach_of_ne {u : T} (hu : u ≠ t) : s.reach t (.run u) = [] := by
  dsimp only [State.reach]
  split
  · exact if_neg hu
  · rfl

omit [DecidableEq A] in
theorem update_of_ne {u : T} (hu : u ≠ t) : s.update t (.run u) = [] := by
  dsimp only [State.update]
  split
  · exact if_neg hu
  · rfl

/-- Any step that does not begin a new call of the thread. -/
theorem onPass_step {e : Event T A}
    (h : OnPass entries reached called n s.data.observers (s.threads t)) (hi : Inv s)
    (hb : e.begins t = false) (hs : s.step e = some s') :
    OnPass entries (reached ++ s.reach t e) (called ++ s.update t e)
      (n + if e.isRun t then 1 else 0) s'.data.observers (s'.threads t) := by
  cases e with
  | register u x =>
    simp only [State.reach, State.update, List.append_nil]
    exact h.enter (of_decide_eq_false hb) hs
  | notify u =>
    simp only [State.reach, State.update, List.append_nil]
    exact h.enter (of_decide_eq_false hb) hs
  | expire x =>
    simp only [State.reach, State.update, List.append_nil]
    dsimp only [State.step] at hs
    obtain ⟨-, rfl⟩ := guard_iff.mp hs
    exact h
  | run u =>
    by_cases hu : u = t
    · subst hu
      rw [Event.isRun, decide_eq_true rfl, if_pos rfl]
      exact onPass_run h hs
    · rw [reach_of_ne hu, update_of_ne hu, List.append_nil, List.append_nil, Event.isRun,
        decide_eq_false hu, if_neg Bool.false_ne_true]
      exact onPass_other h hi hu hs

theorem onPass_steps {es : List (Event T A)}
    (h : OnPass entries reached called n s.data.observers (s.threads t)) (hi : Inv s)
    (hb : ∀ e ∈ es, e.begins t = false) (hs : es.foldlM State.step s = some s') :
    OnPass entries (reached ++ seen State.step (State.reach t) s es)
      (called ++ seen State.step (State.update t) s es) (n + es.countP (Event.isRun t))
      s'.data.observers (s'.threads t) := by
  induction es generalizing s reached called n with
  | nil =>
    rw [← Option.some.inj hs, seen, seen, List.append_nil, List.append_nil]
    exact h
  | cons e es ih =>
    obtain ⟨s1, hs1, hrest⟩ := Option.bind_eq_some_iff.mp hs
    rw [List.forall_mem_cons] at hb
    have hstep := ih (onPass_step h hi hb.1 hs1) (step_inv hi hs1) hb.2 hrest
    rw [seen_cons hs1, seen_cons hs1, List.countP_cons, ← List.append_assoc, ← List.append_assoc,
      Nat.add_comm (es.countP _), ← Nat.add_assoc]
    exact hstep

omit [DecidableEq A] in
theorem OnPass.count_le {observers : List A} {pc : Pc A}
    (h : OnPass entries reached called n observers pc) : n ≤ 2 * entries.length + 2 := by
  cases pc with
  | register x | pushBack x | pushed | notify => exact h.elim
  | loop it =>
    have hlen := h.1.reached_length
    have hn := h.2.2
    omega
  | update it obj =>
    have hlen := h.1.reached_length
    have hn := h.2.2
    omega
  | left =>
    have hn := h.2.2.2
    omega
  | outside => exact h.2.2

/-- A pass begins with the lock. -/
theorem onPass_lock (hpc : s.threads t = .notify) (hs : s.step (.run t) = some s') :
    OnPass s.data.observers [] [] 0 s'.data.observers (s'.threads t) := by
  obtain ⟨⟨pc, d⟩, hstep, rfl⟩ := Option.map_eq_some_iff.mp hs
  rw [hpc] at hstep
  obtain ⟨d1, hd1, heq⟩ := Option.map_eq_some_iff.mp hstep
  obtain ⟨-, rfl⟩ := lock_eq_some_iff.mp hd1
  cases heq
  show OnPass s.data.observers [] [] 0 s.data.observers (Function.update s.threads t (.loop 0) t)
  rw [Function.update_self]
  exact ⟨.start _, rfl, Nat.zero_le _⟩

theorem passLaw {es : List (Event T A)} (hi : Inv s) (hpc : s.threads t = .notify)
    (hb : ∀ e ∈ es, e.begins t = false)
    (hs : (Event.run t :: es).foldlM State.step s = some s') :
    PassLaw t s (.run t :: es) s' (seen State.step (State.reach t) s (.run t :: es))
      (seen State.step (State.update t) s (.run t :: es)) := by
  obtain ⟨s1, hs1, hrest⟩ := Option.bind_eq_some_iff.mp hs
  have hreach : s.reach t (.run t) = [] := by simp only [State.reach, hpc]
  have hupdate : s.update t (.run t) = [] := by simp only [State.update, hpc]
  have hpass := onPass_steps (onPass_lock hpc hs1) (step_inv hi hs1) hb hrest
  rw [List.nil_append, List.nil_append, Nat.zero_add] at hpass
  rw [seen_cons hs1, seen_cons hs1, hreach, hupdate, List.nil_append, List.nil_append]
  constructor
  case during =>
    intro it hit
    rw [hit] at hpass
    exact ⟨hpass.1.ahead, hpass.2.1, hpass.1.behind⟩
  case updating =>
    intro it obj hit
    rw [hit] at hpass
    exact ⟨hpass.1.ahead, hpass.2.1, hpass.1.behind⟩
  case left =>
    intro hleft
    rw [hleft] at hpass
    exact hpass.2.2.1
  case ended =>
    rintro (hleft | hout)
    · rw [hleft] at hpass
      exact ⟨hpass.1, hpass.2.1⟩
    · rw [hout] at hpass
      exact ⟨hpass.1, hpass.2.1⟩
  case bounded =>
    have hcount : (Event.run t :: es).countP (Event.isRun t) = es.countP (Event.isRun t) + 1 :=
      List.countP_cons_of_pos (decide_eq_true rfl)
    rw [hcount]
    exact Nat.succ_le_succ hpass.count_le

end

/-! ## Registrations -/

section

variable {T A : Type} [DecidableEq T] {s₀ s s' : State T A}

theorem filter_thread_concat (registered : List (T × A)) (u t : T) (x : A) :
    ((registered ++ [(u, x)]).filter fun r => r.1 = t).map Prod.snd =
      (registered.filter fun r => r.1 = t).map Prod.snd ++ if u = t then [x] else [] := by
  rw [List.filter_append, List.map_append]
  by_cases hu : u = t
  · simp [hu]
  · simp [hu]

namespace Registered

variable {es : List (Event T A)} {registered : List (T × A)}

/-- The list and the objects stay, and each thread has called and waits as before. -/
theorem congr {e : Event T A} (h : Registered s₀ es s registered)
    (hdata : s'.data.observers = s.data.observers ∧ s'.data.alive = s.data.alive)
    (hpending : ∀ t, (s'.threads t).pending = (s.threads t).pending ++ (e.argument t).toList) :
    Registered s₀ (es ++ [e]) s' registered where
  arguments t := by
    rw [List.filterMap_append, h.arguments t, hpending t, List.append_assoc]
    congr 2
  order := hdata.1 ▸ h.order
  live := by
    rw [hdata.1, hdata.2]
    exact h.live

theorem enter {e : Event T A} {u : T} {pc : Pc A} (h : Registered s₀ es s registered)
    (hs : s.enter u pc = some s')
    (harg : ∀ t, (e.argument t).toList = if u = t then pc.pending else []) :
    Registered s₀ (es ++ [e]) s' registered := by
  obtain ⟨hout, rfl⟩ := enter_eq_some_iff.mp hs
  refine h.congr ⟨rfl, rfl⟩ fun t => ?_
  rw [harg t]
  show (Function.update s.threads u pc t).pending = _
  by_cases hu : u = t
  · subst hu
    rw [Function.update_self, hout, if_pos rfl]
    rfl
  · rw [Function.update_of_ne (Ne.symm hu), if_neg hu, List.append_nil]

/-- A statement other than a `push_back` and an erasure. -/
theorem run {u : T} {pc : Pc A} {d : Data T A} (h : Registered s₀ es s registered)
    (hdata : d.observers = s.data.observers ∧ d.alive = s.data.alive)
    (hpending : pc.pending = (s.threads u).pending) :
    Registered s₀ (es ++ [.run u]) ⟨Function.update s.threads u pc, d⟩ registered := by
  refine h.congr hdata fun t => ?_
  show (Function.update s.threads u pc t).pending = _ ++ []
  rw [List.append_nil]
  by_cases hu : t = u
  · subst hu
    rw [Function.update_self, hpending]
  · rw [Function.update_of_ne hu]

theorem pushBack {u : T} {x : A} (h : Registered s₀ es s registered)
    (hpc : s.threads u = .pushBack x) :
    Registered s₀ (es ++ [.run u]) ⟨Function.update s.threads u .pushed, s.data.pushBack x⟩
      (registered ++ [(u, x)]) where
  arguments t := by
    have hrun : [Event.run u].filterMap (Event.argument t) = ([] : List A) := rfl
    rw [List.filterMap_append, hrun, List.append_nil, h.arguments t, filter_thread_concat,
      List.append_assoc]
    congr 1
    show (s.threads t).pending = _ ++ (Function.update s.threads u .pushed t).pending
    by_cases hu : u = t
    · subst hu
      rw [Function.update_self, hpc, if_pos rfl]
      rfl
    · rw [Function.update_of_ne (Ne.symm hu), if_neg hu, List.nil_append]
  order := by
    rw [List.map_append, ← List.append_assoc]
    exact h.order.append (List.Sublist.refl [x])
  live := by
    show (s.data.observers ++ [x]).filter s.data.alive = _
    rw [List.map_append, ← List.append_assoc, List.filter_append, List.filter_append, h.live]
    rfl

theorem erase {it : Nat} {x : A} (h : Registered s₀ es s registered)
    (hx : s.data.observers[it]? = some x) (hdead : s.data.alive x = false) :
    Registered s₀ es ⟨s.threads, s.data.erase it⟩ registered where
  arguments := h.arguments
  order := (List.eraseIdx_sublist _ _).trans h.order
  live := (filter_eraseIdx hx hdead).trans h.live

variable [DecidableEq A]

theorem expire (h : Registered s₀ es s registered) (x : A) :
    Registered s₀ es ⟨s.threads, s.data.expire x⟩ registered where
  arguments := h.arguments
  order := h.order
  live := by
    have hless : ∀ l : List A, l.filter (Function.update s.data.alive x false) =
        (l.filter s.data.alive).filter (Function.update s.data.alive x false) := by
      intro l
      rw [List.filter_filter]
      refine List.filter_congr fun y _ => ?_
      by_cases hy : y = x
      · rw [hy, Function.update_self]
        rfl
      · rw [Function.update_of_ne hy, Bool.and_self]
    show s.data.observers.filter (Function.update s.data.alive x false) =
      (s₀.data.observers ++ registered.map Prod.snd).filter (Function.update s.data.alive x false)
    rw [hless, hless (s₀.data.observers ++ registered.map Prod.snd), h.live]

theorem step {e : Event T A} (h : Registered s₀ es s registered) (hs : s.step e = some s') :
    ∃ registered', Registered s₀ (es ++ [e]) s' registered' := by
  cases e with
  | register u x =>
    refine ⟨registered, h.enter hs fun t => ?_⟩
    dsimp only [Event.argument]
    by_cases hu : u = t
    · rw [if_pos hu, if_pos hu]
      rfl
    · rw [if_neg hu, if_neg hu]
      rfl
  | notify u => exact ⟨registered, h.enter hs fun t => (ite_self []).symm⟩
  | expire x =>
    dsimp only [State.step] at hs
    obtain ⟨-, rfl⟩ := guard_iff.mp hs
    exact ⟨registered, (h.expire x).congr ⟨rfl, rfl⟩ fun t => (List.append_nil _).symm⟩
  | run u =>
    obtain ⟨⟨pc, d⟩, hstep, rfl⟩ := Option.map_eq_some_iff.mp hs
    cases hpc : s.threads u with
    | outside => rw [hpc] at hstep; cases hstep
    | register x | notify =>
      rw [hpc] at hstep
      obtain ⟨d1, hd1, heq⟩ := Option.map_eq_some_iff.mp hstep
      obtain ⟨-, rfl⟩ := lock_eq_some_iff.mp hd1
      cases heq
      exact ⟨registered, h.run ⟨rfl, rfl⟩ (by rw [hpc]; rfl)⟩
    | pushBack x =>
      rw [hpc] at hstep
      cases hstep
      exact ⟨_, h.pushBack hpc⟩
    | pushed | update it obj | left =>
      rw [hpc] at hstep
      cases hstep
      exact ⟨registered, h.run ⟨rfl, rfl⟩ (by rw [hpc]; rfl)⟩
    | loop it =>
      rw [hpc] at hstep
      dsimp only [Pc.step] at hstep
      split at hstep
      · cases hstep
        exact ⟨registered, h.run ⟨rfl, rfl⟩ (by rw [hpc]; rfl)⟩
      · split at hstep
        · cases hstep
        · next x hx =>
          split at hstep
          · cases hstep
            exact ⟨registered, h.run ⟨rfl, rfl⟩ (by rw [hpc]; rfl)⟩
          · next hdead =>
            cases hstep
            exact ⟨registered, (h.erase hx (eq_false_of_ne_true hdead)).run ⟨rfl, rfl⟩
              (by rw [hpc])⟩

theorem of_run (h0 : s₀.Initial) (hs : es.foldlM State.step s₀ = some s) :
    ∃ registered, Registered s₀ es s registered := by
  induction es using List.reverseRecOn generalizing s with
  | nil =>
    obtain rfl := Option.some.inj hs
    refine ⟨[], fun t => ?_, ?_, ?_⟩
    · rw [h0.1 t]
      rfl
    · rw [List.map_nil, List.append_nil]
    · rw [List.map_nil, List.append_nil]
  | append_singleton es e ih =>
    rw [List.foldlM_append] at hs
    obtain ⟨s1, hs1, hlast⟩ := Option.bind_eq_some_iff.mp hs
    obtain ⟨registered, h⟩ := ih hs1
    obtain ⟨s2, hs2, hnil⟩ := Option.bind_eq_some_iff.mp hlast
    exact Option.some.inj hnil ▸ h.step hs2

end Registered

/-! ## Every run -/

variable [DecidableEq A]

/-- What holds after the labels `es`, from `s₀` on. -/
structure Law (s₀ : State T A) (es : List (Event T A)) (s : State T A) : Prop where
  /-- Each last pass of a thread, begun or finished, since it got the mutex in `s₁`. -/
  passes : ∀ t pre post s₁, es = pre ++ .run t :: post → pre.foldlM State.step s₀ = some s₁ →
    s₁.threads t = .notify → (∀ e ∈ post, e.begins t = false) →
    PassLaw t s₁ (.run t :: post) s (seen State.step (State.reach t) s₁ (.run t :: post))
      (seen State.step (State.update t) s₁ (.run t :: post))
  registered : ∃ registered, Registered s₀ es s registered
  /-- `update` is called on living objects. -/
  updated : ∀ t it obj, s.threads t = .update it obj → s.data.alive obj = true
  /-- Two threads are never in it. -/
  exclusive : ∀ t u, (s.threads t).inside = true → (s.threads u).inside = true → t = u
  /-- Nothing but the mutex stops a call. -/
  enabled : ∀ t, s.threads t ≠ .outside →
    s.data.mutex_ = none ∨ s.data.mutex_ = some t → ∃ s', s.step (.run t) = some s'
  /-- Each call that got the mutex comes to its end. -/
  returns : ∀ t, (s.threads t).inside = true → ∃ n s',
    (List.replicate n (.run t)).foldlM State.step s = some s' ∧ s'.threads t = .outside

/-- **`Observable`.**  In every run of threads that call `register_` and `notifyObservers`,
whatever dies meanwhile, each pass has done as it should, and comes to its end within twice the
number of entries; and `observers` holds the live ones of all that was registered, in order. -/
theorem notifyObservers_law {es : List (Event T A)} (h0 : s₀.Initial)
    (hs : es.foldlM State.step s₀ = some s) : Law s₀ es s := by
  have hinv : Inv s := run_inv (init_inv h0) hs
  constructor
  case passes =>
    rintro t pre post s₁ rfl hpre hpc hb
    rw [List.foldlM_append, hpre] at hs
    exact passLaw (run_inv (init_inv h0) hpre) hpc hb hs
  case registered => exact Registered.of_run h0 hs
  case updated =>
    intro t it obj hpc
    have hknows := hinv.knows t
    rw [hpc] at hknows
    exact hknows.2.1
  case exclusive =>
    intro t u ht hu
    have hown := (hinv.owner t).mpr ht
    rw [(hinv.owner u).mpr hu] at hown
    exact (Option.some.inj hown).symm
  case enabled =>
    intro t hcall hm
    obtain ⟨⟨pc, d⟩, hstep⟩ := pc_step_enabled (hinv.knows t) (hinv.owner t) hcall hm
    exact ⟨_, by rw [State.step, hstep, Option.map_some]⟩
  case returns => exact fun t hin => returns_of_inside hinv hin

end

/-- Four entries, two of them of a dead object. -/
def fourEntries : State Nat Nat where
  threads _ := .outside
  data := ⟨none, [1, 2, 2, 3], fun x => x ≠ 2, fun _ => 0⟩

/-- While a thread notifies them another one waits to register a fifth; an object that was called
dies before the end. -/
def onePass : List (Event Nat Nat) :=
  [.notify 0, .run 0, .register 1 4] ++ List.replicate 6 (.run 0) ++
    [.expire 1, .run 0, .run 0, .run 1, .run 1]

theorem notifyObservers_law_fourEntries : ∃ s, onePass.foldlM State.step fourEntries = some s ∧
    s.data.observers = [1, 3, 4] ∧ s.threads 0 = .outside ∧
    seen State.step (State.update 0) fourEntries onePass = [1, 3] ∧ Law fourEntries onePass s := by
  have hinit : fourEntries.Initial := ⟨fun _ => rfl, rfl, fun _ => rfl⟩
  obtain ⟨s, hs, hobservers, hpc⟩ : ∃ s, onePass.foldlM State.step fourEntries = some s ∧
      s.data.observers = [1, 3, 4] ∧ s.threads 0 = .outside := ⟨_, rfl, rfl, rfl⟩
  exact ⟨s, hs, hobservers, hpc, rfl, notifyObservers_law hinit hs⟩

end StudyDoc.Observable
