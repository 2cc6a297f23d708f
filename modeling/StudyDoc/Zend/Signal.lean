import StudyDoc.Lib.FreeList
import StudyDoc.Lib.Transition
import Mathlib.Data.List.Basic
import Mathlib.Data.List.Nodup
import Mathlib.Data.List.Perm.Basic
import Mathlib.Logic.Function.Basic
import Mathlib.Tactic.Common

/-!
# `cgi部分php源代码剖析.md`: `zend_signal_handler_defer`

A signal that comes while `depth` is not 0 is put behind the others into a queue; one that comes
while it is 0 is handled, and the queue after it.  A handler is code like any other: signals come
and `depth` changes while it runs.  In all orders of these events

    pavail  ++  phead  ++  what is being handled  ~  pstorage                       (run_partition)
    delayed  =  called from the queue  ++  to be handled now  ++  phead             (run_order)

so a signal gets lost only if as many as `pstorage` has cells are waiting (run_signal).  The loop
that empties the queue ends, whatever comes meanwhile (run_ends).

The runs are those without a call of `zend_signal_handler_unblock`, which the macro
`ZEND_SIGNAL_UNBLOCK_INTERRUPTIONS` makes when `depth` was `blocked`: its body is not in the notes.
-/

namespace StudyDoc.ZendSignal

open FreeList Transition

/-! ## Algorithm -/

/-- `zend_signal_t` -/
structure Signal where
  signo : Nat
  siginfo : Nat
  context : Nat
  deriving DecidableEq

/-- `zend_signal_queue_t`; a pointer to one is its index in `pstorage`. -/
structure Queue where
  zendSignal : Signal
  next : Option Nat

inductive Handler where
  | sigDfl
  | sigIgn
  | of (handler : Nat)
  deriving DecidableEq

/-- `zend_signal_entry_t` with the two flags that are looked at. -/
structure Entry where
  saSiginfo : Bool
  saResethand : Bool
  handler : Handler

/-- `zend_signal_globals_t`; `handlers signo` is `handlers[signo-1]`. -/
structure Globals where
  depth : Int
  blocked : Bool
  running : Bool
  active : Bool
  handlers : Nat → Entry
  pstorage : Nat → Queue
  phead : Option Nat
  ptail : Option Nat
  pavail : Option Nat

def Globals.setNext (g : Globals) (queue : Nat) (next : Option Nat) : Globals :=
  { g with pstorage := Function.update g.pstorage queue { g.pstorage queue with next := next } }

def Globals.setSignal (g : Globals) (queue : Nat) (signal : Signal) : Globals :=
  { g with pstorage :=
      Function.update g.pstorage queue { g.pstorage queue with zendSignal := signal } }

def zeroed : Globals :=
  ⟨0, false, false, false, fun _ => ⟨false, false, .sigDfl⟩, fun _ => ⟨⟨0, 0, 0⟩, none⟩,
    none, none, none⟩

/-- `size` is `ZEND_SIGNAL_QUEUE_SIZE`. -/
def zendSignalGlobalsCtor (size : Nat) : Globals :=
  (List.range size).foldl (fun g x =>
    let g := g.setSignal x { (g.pstorage x).zendSignal with signo := 0 }
    let g := g.setNext x g.pavail
    { g with pavail := some x }) zeroed

inductive Action where
  /-- The default action, by `kill(getpid(), signo)`. -/
  | default
  | ignore
  | siginfo (handler : Nat)
  | plain (handler : Nat)
  deriving DecidableEq

def zendSignalHandler (g : Globals) (signo : Nat) : Globals × Action :=
  let pSig := g.handlers signo
  match pSig.handler with
  | .sigDfl => (g, .default)
  | .sigIgn => (g, .ignore)
  | .of handler =>
    if pSig.saSiginfo then
      if pSig.saResethand then
        ({ g with handlers := Function.update g.handlers signo ⟨false, false, .sigDfl⟩ },
          .siginfo handler)
      else (g, .siginfo handler)
    else (g, .plain handler)

/-- A call of `zend_signal_handler`; `queued` if the signal is from the queue. -/
structure Call where
  signal : Signal
  queued : Bool
  action : Action

/-- The handler that the `zend_signal_handler_defer` with `running` has called. -/
inductive Frame where
  | idle
  /-- For its own signal. -/
  | first
  /-- For the signal of `queue`. -/
  | queued (queue : Nat)

structure State where
  g : Globals
  frame : Frame
  called : List Call
  /-- The signals that were put into the queue. -/
  delayed : List Signal
  /-- "not enough queue storage, lost signal" -/
  lost : List Signal

def State.call (s : State) (signal : Signal) (queued : Bool) : State :=
  let (g, action) := zendSignalHandler s.g signal.signo
  { s with g := g, called := s.called ++ [⟨signal, queued, action⟩] }

/-- The branch that puts the signal into `queue`, which is `pavail`. -/
def Globals.enqueue (g : Globals) (queue : Nat) (signal : Signal) : Globals :=
  let g := { g with pavail := (g.pstorage queue).next }
  let g := g.setSignal queue signal
  let g := g.setNext queue none
  let g := match g.phead, g.ptail with
    | some _, some tail => g.setNext tail (some queue)
    | _, _ => { g with phead := some queue }
  { g with ptail := some queue }

/-- `zend_signal_handler_defer`, up to the first handler that it calls.  `sa_mask` keeps other
signals out until then, and between two handlers. -/
def State.defer (s : State) (signal : Signal) : State :=
  if s.g.active then
    if s.g.depth = 0 then
      let s := if s.g.blocked then { s with g := { s.g with blocked := false } } else s
      if s.g.running = false then
        { State.call { s with g := { s.g with running := true } } signal false with
          frame := .first }
      else s
    else
      let g := { s.g with blocked := true }
      match g.pavail with
      | some queue => { s with g := g.enqueue queue signal, delayed := s.delayed ++ [signal] }
      | none => { s with g := g, lost := s.lost ++ [signal] }
  else s.call signal false

/-- `queue->next = SIGG(pavail); queue->zend_signal.signo = 0; SIGG(pavail) = queue;` -/
def Globals.release (g : Globals) (queue : Nat) : Globals :=
  let g' := g.setNext queue g.pavail
  let g' := g'.setSignal queue { (g'.pstorage queue).zendSignal with signo := 0 }
  { g' with pavail := some queue }

/-- The head of `while (queue)`. -/
def State.whileQueue (s : State) : Option Nat → State
  | some queue =>
    { s.call (s.g.pstorage queue).zendSignal true with frame := .queued queue }
  | none => { s with g := { s.g with running := false }, frame := .idle }

/-- The handler has returned: on to the next one. -/
def State.resume (s : State) : Option State :=
  match s.frame with
  | .idle => none
  | .first => some ({ s with g := { s.g with phead := none } }.whileQueue s.g.phead)
  | .queued queue =>
    let qtmp := (s.g.pstorage queue).next
    some ({ s with g := s.g.release queue }.whileQueue qtmp)

inductive Event where
  | signal (signal : Signal)
  | handlerReturns
  /-- Other code counts `depth` up or down; `zend_signal_handler_unblock` is not called. -/
  | depth (depth : Int)
  /-- `zend_signal_activate`; `handlers` is what it and `zend_signal_register` leave there. -/
  | activate (handlers : Nat → Entry)

def State.step (s : State) : Event → Option State
  | .signal signal => some (s.defer signal)
  | .handlerReturns => s.resume
  | .depth depth => some { s with g := { s.g with depth := depth } }
  | .activate handlers =>
    some { s with g := { s.g with handlers := handlers, active := true, depth := 0 } }

def started (size : Nat) : State := ⟨zendSignalGlobalsCtor size, .idle, [], [], []⟩

def signals (size : Nat) : System State Event where
  init s := s = started size
  step s e s' := s.step e = some s'

/-! ## The cells -/

def Globals.next (g : Globals) (p : Option Nat) : Option Nat := p.bind fun x => (g.pstorage x).next

def Globals.signalOf (g : Globals) (x : Nat) : Signal := (g.pstorage x).zendSignal

def Frame.queue : Frame → Option Nat
  | .queued queue => some queue
  | _ => none

def Frame.running : Frame → Bool
  | .idle => false
  | _ => true

variable {size : Nat} {g : Globals} {s s' : State} {avail pending rest : List Nat}
  {cur : Option Nat} {q : Nat} {signal : Signal}

theorem next_setNext (g : Globals) (q : Nat) (v : Option Nat) :
    (g.setNext q v).next = Function.update g.next (some q) v := by
  funext p
  cases p with
  | none =>
    rw [Function.update_of_ne (Option.some_ne_none q).symm]
    rfl
  | some x =>
    show (Function.update g.pstorage q { g.pstorage q with next := v } x).next = _
    by_cases hx : x = q
    · subst hx
      rw [Function.update_self, Function.update_self]
    · rw [Function.update_of_ne hx, Function.update_of_ne (fun h => hx (Option.some.inj h))]
      rfl

theorem next_setSignal (g : Globals) (q : Nat) (signal : Signal) :
    (g.setSignal q signal).next = g.next := by
  funext p
  cases p with
  | none => rfl
  | some x =>
    show (Function.update g.pstorage q { g.pstorage q with zendSignal := signal } x).next = _
    by_cases hx : x = q
    · subst hx
      rw [Function.update_self]
      rfl
    · rw [Function.update_of_ne hx]
      rfl

theorem signalOf_setNext (g : Globals) (q : Nat) (v : Option Nat) :
    (g.setNext q v).signalOf = g.signalOf := by
  funext x
  show (Function.update g.pstorage q { g.pstorage q with next := v } x).zendSignal = _
  by_cases hx : x = q
  · subst hx
    rw [Function.update_self]
    rfl
  · rw [Function.update_of_ne hx]
    rfl

theorem signalOf_setSignal (g : Globals) (q : Nat) (signal : Signal) :
    (g.setSignal q signal).signalOf = Function.update g.signalOf q signal := by
  funext x
  show (Function.update g.pstorage q { g.pstorage q with zendSignal := signal } x).zendSignal = _
  by_cases hx : x = q
  · subst hx
    rw [Function.update_self, Function.update_self]
  · rw [Function.update_of_ne hx, Function.update_of_ne hx]
    rfl

/-- The three lists that the cells of `pstorage` are on; `cur` is the `queue` of the loop. -/
structure Cells (size : Nat) (g : Globals) (cur : Option Nat) (avail pending rest : List Nat) :
    Prop where
  chainAvail : Chain none g.next g.pavail (avail.map some)
  chainPending : Chain none g.next g.phead (pending.map some)
  chainRest : Chain none g.next cur (rest.map some)
  perm : (avail ++ pending ++ rest).Perm (List.range size)
  tail : ∀ t, pending.getLast? = some t → g.ptail = some t

theorem Cells.nodup (h : Cells size g cur avail pending rest) :
    (avail ++ pending ++ rest).Nodup :=
  h.perm.nodup_iff.mpr List.nodup_range

theorem Cells.notMem_avail (h : Cells size g cur (q :: avail) pending rest) :
    q ∉ avail ∧ q ∉ pending ∧ q ∉ rest := by
  have hnd := h.nodup
  rw [List.cons_append, List.cons_append, List.nodup_cons, List.append_assoc, List.mem_append,
    List.mem_append, not_or, not_or] at hnd
  exact hnd.1

theorem Cells.notMem_rest (h : Cells size g cur avail pending (q :: rest)) :
    q ∉ avail ∧ q ∉ pending ∧ q ∉ rest := by
  have hnd := h.nodup
  rw [List.perm_middle.nodup_iff, List.nodup_cons, List.append_assoc, List.mem_append,
    List.mem_append, not_or, not_or] at hnd
  exact hnd.1

theorem Cells.notMem_of_pending (h : Cells size g cur avail pending rest) (hq : q ∈ pending) :
    q ∉ avail ∧ q ∉ rest := by
  have hnd := h.nodup
  rw [List.nodup_append, List.nodup_append] at hnd
  obtain ⟨⟨-, -, hap⟩, -, hr⟩ := hnd
  exact ⟨fun hm => hap q hm q hq rfl, fun hm => hr q (List.mem_append_right avail hq) q hm rfl⟩

theorem Cells.congr {g' : Globals} (h : Cells size g cur avail pending rest)
    (hnext : g'.next = g.next) (hpavail : g'.pavail = g.pavail) (hphead : g'.phead = g.phead)
    (hptail : g'.ptail = g.ptail) : Cells size g' cur avail pending rest := by
  obtain ⟨h1, h2, h3, h4, h5⟩ := h
  refine ⟨?_, ?_, ?_, h4, ?_⟩
  · rwa [hnext, hpavail]
  · rwa [hnext, hphead]
  · rwa [hnext]
  · rwa [hptail]

theorem Cells.exists_last {a : Nat} (h : Cells size g cur avail pending rest)
    (hp : g.phead = some a) : ∃ t, pending.getLast? = some t := by
  cases pending with
  | nil =>
    have hnil := h.chainPending
    rw [hp] at hnil
    cases hnil
  | cons b l => exact ⟨_, List.getLast?_eq_some_getLast (List.cons_ne_nil b l)⟩

theorem some_notMem {l : List Nat} (h : q ∉ l) : some q ∉ l.map some := by
  intro hm
  obtain ⟨x, hx, heq⟩ := List.mem_map.mp hm
  exact h (Option.some.inj heq ▸ hx)

/-- The links of cells other than `q` and `t` are as before. -/
theorem Chain.of_other {next : Option Nat → Option Nat} {p : Option Nat} {l : List Nat} {t : Nat}
    {v w : Option Nat} (h : Chain none next p (l.map some)) (hq : q ∉ l) (ht : t ∉ l) :
    Chain none (Function.update (Function.update next (some q) v) (some t) w) p (l.map some) := by
  apply h.frame
  intro a ha
  rw [Function.update_of_ne (ne_of_mem_of_not_mem ha (some_notMem ht)),
    Function.update_of_ne (ne_of_mem_of_not_mem ha (some_notMem hq))]

theorem enqueue_empty (signal : Signal) (h : g.phead = none) :
    (g.enqueue q signal).next = Function.update g.next (some q) none ∧
    (g.enqueue q signal).pavail = g.next (some q) ∧ (g.enqueue q signal).phead = some q ∧
    (g.enqueue q signal).ptail = some q ∧
    (g.enqueue q signal).signalOf = Function.update g.signalOf q signal := by
  have heq : g.enqueue q signal =
      { ({ g with pavail := (g.pstorage q).next }.setSignal q signal).setNext q none with
        phead := some q, ptail := some q } := by
    unfold Globals.enqueue
    simp only [Globals.setNext, Globals.setSignal, h]
  rw [heq]
  refine ⟨?_, rfl, rfl, rfl, ?_⟩
  · refine (next_setNext _ q none).trans ?_
    rw [next_setSignal]
    rfl
  · refine (signalOf_setNext _ q none).trans ?_
    rw [signalOf_setSignal]
    rfl

theorem enqueue_behind {a t : Nat} (signal : Signal) (h : g.phead = some a)
    (ht : g.ptail = some t) :
    (g.enqueue q signal).next =
      Function.update (Function.update g.next (some q) none) (some t) (some q) ∧
    (g.enqueue q signal).pavail = g.next (some q) ∧ (g.enqueue q signal).phead = g.phead ∧
    (g.enqueue q signal).ptail = some q ∧
    (g.enqueue q signal).signalOf = Function.update g.signalOf q signal := by
  have heq : g.enqueue q signal =
      { (({ g with pavail := (g.pstorage q).next }.setSignal q signal).setNext q none).setNext t
        (some q) with ptail := some q } := by
    unfold Globals.enqueue
    simp only [Globals.setNext, Globals.setSignal, h, ht]
  rw [heq]
  refine ⟨?_, rfl, rfl, rfl, ?_⟩
  · refine (next_setNext _ t (some q)).trans ?_
    rw [next_setNext, next_setSignal]
    rfl
  · refine (signalOf_setNext _ t (some q)).trans ?_
    rw [signalOf_setNext, signalOf_setSignal]
    rfl

theorem signalOf_enqueue (h : Cells size g cur avail pending rest) (signal : Signal) :
    (g.enqueue q signal).signalOf = Function.update g.signalOf q signal := by
  cases hp : g.phead with
  | none => exact (enqueue_empty signal hp).2.2.2.2
  | some a =>
    obtain ⟨t, ht⟩ := h.exists_last hp
    exact (enqueue_behind signal hp (h.tail t ht)).2.2.2.2

theorem Cells.enqueue (h : Cells size g cur (q :: avail) pending rest) (signal : Signal) :
    Cells size (g.enqueue q signal) cur avail (pending ++ [q]) rest := by
  obtain ⟨hqa, hqp, hqr⟩ := h.notMem_avail
  have hperm : (avail ++ (pending ++ [q]) ++ rest).Perm (List.range size) := by
    have heq : avail ++ (pending ++ [q]) ++ rest = avail ++ pending ++ q :: rest := by simp
    rw [heq]
    exact List.perm_middle.trans h.perm
  obtain ⟨-, -, havail⟩ := h.chainAvail
  cases hp : g.phead with
  | none =>
    obtain ⟨hnext, hpavail, hphead, hptail, -⟩ := enqueue_empty (q := q) signal hp
    have hnil : pending = [] := List.map_eq_nil_iff.mp (h.chainPending.nil_of_null hp)
    refine ⟨?_, ?_, ?_, hperm, ?_⟩
    · rw [hnext, hpavail]
      exact havail.frame fun a ha =>
        Function.update_of_ne (ne_of_mem_of_not_mem ha (some_notMem hqa)) _ _
    · rw [hnext, hphead, hnil]
      refine ⟨rfl, Option.some_ne_none q, ?_⟩
      rw [Function.update_self]
      rfl
    · rw [hnext]
      exact h.chainRest.frame fun a ha =>
        Function.update_of_ne (ne_of_mem_of_not_mem ha (some_notMem hqr)) _ _
    · intro t ht
      rw [List.getLast?_concat] at ht
      rw [hptail, ht]
  | some a =>
    obtain ⟨t, ht⟩ := h.exists_last hp
    obtain ⟨hnext, hpavail, hphead, hptail, -⟩ := enqueue_behind (q := q) signal hp (h.tail t ht)
    obtain ⟨hta, htr⟩ := h.notMem_of_pending (List.mem_of_getLast? ht)
    have hpnd : pending.Nodup := (List.nodup_append.mp h.nodup).1.of_append_right
    refine ⟨?_, ?_, ?_, hperm, ?_⟩
    · rw [hnext, hpavail]
      exact Chain.of_other havail hqa fun hm => hta (List.mem_cons_of_mem q hm)
    · rw [hnext, hphead, List.map_append]
      refine h.chainPending.concat (hpnd.map fun _ _ => Option.some.inj) (Option.some_ne_none q)
        (some_notMem hqp) ?_
      rw [List.getLast?_map, ht]
      rfl
    · rw [hnext]
      exact Chain.of_other h.chainRest hqr htr
    · intro t' ht'
      rw [List.getLast?_concat] at ht'
      rw [hptail, ht']

theorem next_release (g : Globals) (q : Nat) :
    (g.release q).next = Function.update g.next (some q) g.pavail :=
  (next_setSignal _ q _).trans (next_setNext g q g.pavail)

theorem signalOf_release (g : Globals) {x : Nat} (hx : x ≠ q) :
    (g.release q).signalOf x = g.signalOf x := by
  have h1 := congrFun (signalOf_setSignal (g.setNext q g.pavail) q
    { ((g.setNext q g.pavail).pstorage q).zendSignal with signo := 0 }) x
  rw [Function.update_of_ne hx, signalOf_setNext] at h1
  exact h1

/-- The cell of a signal that is handled is free again. -/
theorem Cells.release (h : Cells size g (some q) avail pending (q :: rest)) :
    Cells size (g.release q) (g.next (some q)) (q :: avail) pending rest := by
  obtain ⟨hqa, hqp, hqr⟩ := h.notMem_rest
  refine ⟨?_, ?_, ?_, List.perm_middle.symm.trans h.perm, h.tail⟩
  · rw [next_release]
    exact h.chainAvail.push (Option.some_ne_none q) (some_notMem hqa)
  · rw [next_release]
    exact h.chainPending.frame fun a ha =>
      Function.update_of_ne (ne_of_mem_of_not_mem ha (some_notMem hqp)) _ _
  · rw [next_release]
    exact h.chainRest.2.2.frame fun a ha =>
      Function.update_of_ne (ne_of_mem_of_not_mem ha (some_notMem hqr)) _ _

/-! ## Every step -/

theorem zendSignalHandler_fst (g : Globals) (signo : Nat) :
    ∃ handlers, (zendSignalHandler g signo).1 = { g with handlers := handlers } := by
  unfold zendSignalHandler
  cases hh : (g.handlers signo).handler <;> simp only [hh]
  case sigDfl => exact ⟨g.handlers, rfl⟩
  case sigIgn => exact ⟨g.handlers, rfl⟩
  case of handler =>
    split
    · split
      · exact ⟨_, rfl⟩
      · exact ⟨g.handlers, rfl⟩
    · exact ⟨g.handlers, rfl⟩

/-- The signals from the queue that a handler was called for. -/
def State.taken (s : State) : List Signal := (s.called.filter Call.queued).map Call.signal

structure Inv (size : Nat) (s : State) (avail pending rest : List Nat) : Prop where
  cells : Cells size s.g s.frame.queue avail pending rest
  running : s.g.running = s.frame.running
  order : s.delayed = s.taken ++ rest.tail.map s.g.signalOf ++ pending.map s.g.signalOf

theorem call_g (s : State) (signal : Signal) (queued : Bool) :
    ∃ handlers, (s.call signal queued).g = { s.g with handlers := handlers } :=
  zendSignalHandler_fst s.g signal.signo

theorem Cells.call (h : Cells size s.g cur avail pending rest) (signal : Signal) (queued : Bool) :
    Cells size (s.call signal queued).g cur avail pending rest := by
  obtain ⟨handlers, hg⟩ := call_g s signal queued
  rw [hg]
  exact h.congr rfl rfl rfl rfl

theorem signalOf_call (s : State) (signal : Signal) (queued : Bool) :
    (s.call signal queued).g.signalOf = s.g.signalOf := by
  obtain ⟨handlers, hg⟩ := call_g s signal queued
  rw [hg]
  rfl

theorem running_call (s : State) (signal : Signal) (queued : Bool) :
    (s.call signal queued).g.running = s.g.running := by
  obtain ⟨handlers, hg⟩ := call_g s signal queued
  rw [hg]

theorem taken_call (s : State) (signal : Signal) (queued : Bool) :
    (s.call signal queued).taken = s.taken ++ if queued then [signal] else [] := by
  show ((s.called ++ [Call.mk signal queued (zendSignalHandler s.g signal.signo).2]).filter
    Call.queued).map Call.signal = _
  rw [List.filter_append, List.map_append]
  cases queued <;> rfl

/-- The loop goes on with the signals of `rest`. -/
theorem Inv.whileQueue (hcells : Cells size s.g cur avail pending rest) (hrun : s.g.running = true)
    (horder : s.delayed = s.taken ++ rest.map s.g.signalOf ++ pending.map s.g.signalOf) :
    Inv size (s.whileQueue cur) avail pending rest := by
  cases cur with
  | none =>
    have hnil : rest = [] := List.map_eq_nil_iff.mp (hcells.chainRest.nil_of_null rfl)
    subst hnil
    exact ⟨hcells.congr rfl rfl rfl rfl, rfl, horder⟩
  | some q =>
    cases rest with
    | nil => cases hcells.chainRest
    | cons q' rest =>
      obtain rfl : q = q' := Option.some.inj hcells.chainRest.1
      refine ⟨hcells.call _ true, (running_call s _ true).trans hrun, ?_⟩
      show s.delayed = (s.call (s.g.signalOf q) true).taken ++ _ ++ _
      show _ = _ ++ rest.map (s.call (s.g.signalOf q) true).g.signalOf ++
        pending.map (s.call (s.g.signalOf q) true).g.signalOf
      rw [taken_call, signalOf_call, horder]
      simp

theorem Inv.call (h : Inv size s avail pending rest) (signal : Signal) :
    Inv size (s.call signal false) avail pending rest := by
  refine ⟨h.cells.call signal false, (running_call s signal false).trans h.running, ?_⟩
  show s.delayed = (s.call signal false).taken ++ _ ++ _
  rw [taken_call, signalOf_call, h.order]
  simp

/-- How many times a handler still returns before the loop ends, at most. -/
def left (size : Nat) (frame : Frame) (rest : List Nat) : Nat :=
  match frame with
  | .first => size + 1
  | _ => rest.length

theorem left_whileQueue (s : State) (cur : Option Nat) (rest : List Nat) :
    left size (s.whileQueue cur).frame rest = rest.length := by
  cases cur <;> rfl

theorem Cells.length (h : Cells size g cur avail pending rest) :
    avail.length + pending.length + rest.length = size := by
  have hlen := h.perm.length_eq
  rw [List.length_append, List.length_append, List.length_range] at hlen
  exact hlen

theorem Inv.resume (h : Inv size s avail pending rest) (hst : s.resume = some s') :
    ∃ avail' pending' rest', Inv size s' avail' pending' rest' ∧
      left size s'.frame rest' < left size s.frame rest := by
  have hcells := h.cells
  have hrun := h.running
  have horder := h.order
  unfold State.resume at hst
  cases hf : s.frame with
  | idle => rw [hf] at hst; cases hst
  | first =>
    rw [hf] at hst hcells hrun
    cases hst
    have hnil : rest = [] := List.map_eq_nil_iff.mp (hcells.chainRest.nil_of_null rfl)
    subst hnil
    refine ⟨avail, [], pending, Inv.whileQueue ?_ hrun ?_, ?_⟩
    · refine ⟨hcells.chainAvail, rfl, hcells.chainPending, ?_, nofun⟩
      simpa using hcells.perm
    · rw [List.tail_nil, List.map_nil, List.append_nil] at horder
      rw [List.map_nil, List.append_nil]
      exact horder
    · have hlen := hcells.length
      rw [left_whileQueue]
      show pending.length < size + 1
      omega
  | queued q =>
    rw [hf] at hst hcells hrun
    cases hst
    cases rest with
    | nil => cases hcells.chainRest
    | cons q' rest =>
      obtain rfl : q = q' := Option.some.inj hcells.chainRest.1
      obtain ⟨-, hqp, hqr⟩ := hcells.notMem_rest
      have hsame : ∀ l : List Nat, q ∉ l → l.map (s.g.release q).signalOf =
          l.map s.g.signalOf := fun l hl => List.map_congr_left fun x hx =>
        signalOf_release s.g (ne_of_mem_of_not_mem hx hl)
      refine ⟨q :: avail, pending, rest, Inv.whileQueue hcells.release hrun ?_, ?_⟩
      · show s.delayed = s.taken ++ rest.map (s.g.release q).signalOf ++
          pending.map (s.g.release q).signalOf
        rw [hsame rest hqr, hsame pending hqp]
        exact horder
      · rw [left_whileQueue]
        exact Nat.lt_succ_self rest.length

theorem Inv.setBlocked (h : Inv size s avail pending rest) (blocked : Bool) :
    Inv size { s with g := { s.g with blocked := blocked } } avail pending rest :=
  ⟨h.cells.congr rfl rfl rfl rfl, h.running, h.order⟩

/-- A signal that is handled at once. -/
theorem Inv.first (h : Inv size s avail pending rest) (signal : Signal)
    (hrun : s.g.running = false) :
    Inv size { State.call { s with g := { s.g with running := true } } signal false with
      frame := .first } avail pending rest := by
  have hqueue : s.frame.queue = none := by
    have hframe := h.running
    cases hf : s.frame with
    | queued q => rw [hf, hrun] at hframe; cases hframe
    | _ => rfl
  have hcells := h.cells
  rw [hqueue] at hcells
  have hset : Cells size { s.g with running := true } none avail pending rest :=
    hcells.congr rfl rfl rfl rfl
  refine ⟨hset.call (s := { s with g := { s.g with running := true } }) signal false, ?_, ?_⟩
  · exact running_call _ signal false
  · show s.delayed = (State.call { s with g := { s.g with running := true } } signal false).taken ++
      rest.tail.map
        (State.call { s with g := { s.g with running := true } } signal false).g.signalOf ++
      pending.map
        (State.call { s with g := { s.g with running := true } } signal false).g.signalOf
    rw [taken_call, signalOf_call, if_neg Bool.false_ne_true, List.append_nil]
    exact h.order

theorem running_enqueue (g : Globals) (q : Nat) (signal : Signal) :
    (g.enqueue q signal).running = g.running := by
  unfold Globals.enqueue
  simp only
  split <;> rfl

theorem Inv.enqueue (h : Inv size s (q :: avail) pending rest) (signal : Signal) :
    Inv size { s with g := s.g.enqueue q signal, delayed := s.delayed ++ [signal] }
      avail (pending ++ [q]) rest := by
  obtain ⟨-, hqp, hqr⟩ := h.cells.notMem_avail
  have hsig := signalOf_enqueue (q := q) h.cells signal
  have hsame : ∀ l : List Nat, q ∉ l → l.map (s.g.enqueue q signal).signalOf =
      l.map s.g.signalOf := by
    intro l hl
    rw [hsig]
    exact List.map_congr_left fun x hx =>
      Function.update_of_ne (ne_of_mem_of_not_mem hx hl) _ _
  refine ⟨h.cells.enqueue signal, (running_enqueue s.g q signal).trans h.running, ?_⟩
  show s.delayed ++ [signal] = s.taken ++ rest.tail.map (s.g.enqueue q signal).signalOf ++
    (pending ++ [q]).map (s.g.enqueue q signal).signalOf
  rw [List.map_append, hsame pending hqp,
    hsame rest.tail fun hm => hqr (List.mem_of_mem_tail hm), h.order, hsig]
  simp

theorem Inv.defer (h : Inv size s avail pending rest) (signal : Signal) :
    ∃ avail' pending', Inv size (s.defer signal) avail' pending' rest := by
  unfold State.defer
  by_cases hactive : s.g.active = true
  · rw [if_pos hactive]
    by_cases hdepth : s.g.depth = 0
    · rw [if_pos hdepth]
      have h1 : Inv size (if s.g.blocked = true then
          { s with g := { s.g with blocked := false } } else s) avail pending rest := by
        split
        · exact h.setBlocked false
        · exact h
      refine ⟨avail, pending, ?_⟩
      generalize (if s.g.blocked = true then
          { s with g := { s.g with blocked := false } } else s) = s1 at h1
      show Inv size (if s1.g.running = false then _ else s1) avail pending rest
      split
      · next hrun => exact h1.first signal hrun
      · exact h1
    · rw [if_neg hdepth]
      have h1 := h.setBlocked true
      show ∃ avail' pending', Inv size (match s.g.pavail with
        | some queue => _
        | none => _) avail' pending' rest
      cases avail with
      | nil =>
        rw [show s.g.pavail = none from h.cells.chainAvail]
        exact ⟨[], pending, h1.cells, h1.running, h1.order⟩
      | cons q avail =>
        rw [show s.g.pavail = some q from h.cells.chainAvail.1]
        exact ⟨avail, pending ++ [q], h1.enqueue signal⟩
  · rw [if_neg hactive]
    exact ⟨avail, pending, h.call signal⟩

theorem Inv.step {e : Event} (h : Inv size s avail pending rest) (hst : s.step e = some s') :
    ∃ avail' pending' rest', Inv size s' avail' pending' rest' := by
  cases e with
  | signal signal =>
    cases hst
    obtain ⟨avail', pending', h'⟩ := h.defer signal
    exact ⟨avail', pending', rest, h'⟩
  | handlerReturns =>
    obtain ⟨avail', pending', rest', h', -⟩ := h.resume hst
    exact ⟨avail', pending', rest', h'⟩
  | depth depth =>
    cases hst
    exact ⟨avail, pending, rest, h.cells.congr rfl rfl rfl rfl, h.running, h.order⟩
  | activate handlers =>
    cases hst
    exact ⟨avail, pending, rest, h.cells.congr rfl rfl rfl rfl, h.running, h.order⟩

theorem cells_ctor (size : Nat) :
    Cells size (zendSignalGlobalsCtor size) none (List.range size).reverse [] [] := by
  induction size with
  | zero => exact ⟨rfl, rfl, rfl, .nil, nofun⟩
  | succ n ih =>
    have hsucc : zendSignalGlobalsCtor (n + 1) = (fun g : Globals =>
        { (g.setSignal n { (g.pstorage n).zendSignal with signo := 0 }).setNext n g.pavail with
          pavail := some n }) (zendSignalGlobalsCtor n) := by
      unfold zendSignalGlobalsCtor
      rw [List.range_succ, List.foldl_append]
      rfl
    rw [hsucc, List.range_succ, List.reverse_append, List.reverse_singleton,
      List.singleton_append]
    generalize zendSignalGlobalsCtor n = g at ih
    refine ⟨?_, ih.chainPending, rfl, ?_, nofun⟩
    · have hnext := next_setNext (g.setSignal n { (g.pstorage n).zendSignal with signo := 0 }) n
        g.pavail
      rw [next_setSignal] at hnext
      have hpush := ih.chainAvail.push (Option.some_ne_none n) (some_notMem (by simp))
      rw [← hnext] at hpush
      exact hpush
    · rw [List.append_nil, List.append_nil, List.range_succ]
      exact ((List.reverse_perm _).cons n).trans (List.perm_append_singleton n _).symm

theorem running_ctor (size : Nat) : (zendSignalGlobalsCtor size).running = false := by
  induction size with
  | zero => rfl
  | succ n ih =>
    unfold zendSignalGlobalsCtor
    rw [List.range_succ, List.foldl_append]
    exact ih

theorem inv_reachable (h : (signals size).Reachable s) :
    ∃ avail pending rest, Inv size s avail pending rest := by
  apply h.invariant
  · rintro s rfl
    exact ⟨_, [], [], cells_ctor size, running_ctor size, rfl⟩
  · rintro s e s' - ⟨avail, pending, rest, hi⟩ hst
    exact hi.step hst

theorem map_some_injective {l l' : List Nat} (h : l.map some = l'.map some) : l = l' :=
  List.map_injective_iff.mpr (fun _ _ => Option.some.inj) h

/-- Whoever walks the lists finds those of the invariant. -/
theorem inv_chains (h : (signals size).Reachable s)
    (hpending : Chain none s.g.next s.g.phead (pending.map some))
    (hrest : Chain none s.g.next s.frame.queue (rest.map some)) :
    ∃ avail, Inv size s avail pending rest := by
  obtain ⟨avail, pending', rest', hi⟩ := inv_reachable h
  obtain rfl := map_some_injective (hpending.unique hi.cells.chainPending)
  obtain rfl := map_some_injective (hrest.unique hi.cells.chainRest)
  exact ⟨avail, hi⟩

theorem frame_defer (h : s.g.running = s.frame.running) (hf : s.frame ≠ .idle) (signal : Signal) :
    (s.defer signal).frame = s.frame := by
  have hrun : s.g.running = true := by
    rw [h]
    cases hc : s.frame with
    | idle => exact absurd hc hf
    | _ => rfl
  unfold State.defer
  by_cases hactive : s.g.active = true
  · rw [if_pos hactive]
    by_cases hdepth : s.g.depth = 0
    · rw [if_pos hdepth]
      by_cases hblocked : s.g.blocked = true <;> simp [hblocked, hrun]
    · rw [if_neg hdepth]
      simp only
      split <;> rfl
  · rw [if_neg hactive]
    rfl

def Event.isReturn : Event → Bool
  | .handlerReturns => true
  | _ => false

theorem Inv.ends {es : List Event} (h : Inv size s avail pending rest)
    (hes : es.foldlM State.step s = some s')
    (hreturns : left size s.frame rest ≤ es.countP Event.isReturn) :
    ∃ es₁ es₂ t, es = es₁ ++ es₂ ∧ es₁.foldlM State.step s = some t ∧ t.frame = .idle := by
  induction es generalizing s avail pending rest with
  | nil =>
    refine ⟨[], [], s, rfl, rfl, ?_⟩
    have hrest := h.cells.chainRest
    have hzero := Nat.le_zero.mp hreturns
    cases hf : s.frame with
    | idle => rfl
    | first => rw [hf] at hzero; cases hzero
    | queued q =>
      rw [hf] at hzero hrest
      rw [List.length_eq_zero_iff.mp hzero] at hrest
      cases hrest
  | cons e es ih =>
    by_cases hf : s.frame = .idle
    · exact ⟨[], e :: es, s, rfl, rfl, hf⟩
    · obtain ⟨s1, hs1, hes⟩ := Option.bind_eq_some_iff.mp hes
      have hone : ∃ avail' pending' rest', Inv size s1 avail' pending' rest' ∧
          left size s1.frame rest' ≤ es.countP Event.isReturn := by
        cases e with
        | signal signal =>
          cases hs1
          obtain ⟨avail', pending', h'⟩ := h.defer signal
          refine ⟨avail', pending', rest, h', ?_⟩
          rw [frame_defer h.running hf]
          exact hreturns
        | handlerReturns =>
          obtain ⟨avail', pending', rest', h', hlt⟩ := h.resume hs1
          rw [List.countP_cons_of_pos rfl] at hreturns
          exact ⟨avail', pending', rest', h', by omega⟩
        | depth depth =>
          cases hs1
          exact ⟨avail, pending, rest, ⟨h.cells.congr rfl rfl rfl rfl, h.running, h.order⟩,
            hreturns⟩
        | activate handlers =>
          cases hs1
          exact ⟨avail, pending, rest, ⟨h.cells.congr rfl rfl rfl rfl, h.running, h.order⟩,
            hreturns⟩
      obtain ⟨avail', pending', rest', h', hle⟩ := hone
      obtain ⟨es₁, es₂, t, rfl, ht, hidle⟩ := ih h' hes hle
      refine ⟨e :: es₁, es₂, t, rfl, ?_, hidle⟩
      rw [List.foldlM_cons, hs1]
      exact ht

theorem reachable_of_eval (es : List Event) (h : es.foldlM State.step (started size) = some s) :
    (signals size).Reachable s :=
  ⟨es, System.Run.exec State.step (fun _ _ _ h => h) (.start rfl) es h⟩

/-! ## Main results -/

/-- Each cell of `pstorage` is on one of three lists that end in `NULL`, once. -/
theorem run_partition (size : Nat) {s : State} (h : (signals size).Reachable s) :
    ∃ avail pending rest : List Nat, Chain none s.g.next s.g.pavail (avail.map some) ∧
      Chain none s.g.next s.g.phead (pending.map some) ∧
      Chain none s.g.next s.frame.queue (rest.map some) ∧
      (avail ++ pending ++ rest).Perm (List.range size) ∧
      ∀ t, pending.getLast? = some t → s.g.ptail = some t := by
  obtain ⟨avail, pending, rest, hi⟩ := inv_reachable h
  exact ⟨avail, pending, rest, hi.cells.chainAvail, hi.cells.chainPending, hi.cells.chainRest,
    hi.cells.perm, hi.cells.tail⟩

/-- Three signals while `depth` is 1, for two of which there is room; the next one comes while it
is 0, and its handler has returned. -/
def blockedOnce : List Event :=
  [.activate fun _ => ⟨true, false, .of 7⟩, .depth 1, .signal ⟨15, 1, 1⟩, .signal ⟨10, 2, 2⟩,
    .signal ⟨12, 3, 3⟩, .depth 0, .signal ⟨2, 4, 4⟩, .handlerReturns]

def unblocked : State := (blockedOnce.foldlM State.step (started 2)).getD (started 2)

theorem reachable_unblocked : (signals 2).Reachable unblocked :=
  reachable_of_eval blockedOnce rfl

theorem run_partition_unblocked : (signals 2).Reachable unblocked ∧
    ∃ avail pending rest : List Nat,
      Chain none unblocked.g.next unblocked.g.pavail (avail.map some) ∧
      Chain none unblocked.g.next unblocked.g.phead (pending.map some) ∧
      Chain none unblocked.g.next unblocked.frame.queue (rest.map some) ∧
      (avail ++ pending ++ rest).Perm (List.range 2) ∧
      ∀ t, pending.getLast? = some t → unblocked.g.ptail = some t :=
  ⟨reachable_unblocked, run_partition 2 reachable_unblocked⟩

/-- The signals that were put into the queue are handled in this order, each once: some already,
the others are still there. -/
theorem run_order (size : Nat) {s : State} (pending rest : List Nat)
    (h : (signals size).Reachable s)
    (hpending : Chain none s.g.next s.g.phead (pending.map some))
    (hrest : Chain none s.g.next s.frame.queue (rest.map some)) :
    s.delayed = s.taken ++ rest.tail.map s.g.signalOf ++ pending.map s.g.signalOf := by
  obtain ⟨avail, hi⟩ := inv_chains h hpending hrest
  exact hi.order

theorem run_order_unblocked : unblocked.delayed = [⟨15, 1, 1⟩, ⟨10, 2, 2⟩] ∧
    unblocked.delayed = unblocked.taken ++ [1, 0].tail.map unblocked.g.signalOf ++
      [].map unblocked.g.signalOf :=
  ⟨rfl, run_order 2 [] [1, 0] reachable_unblocked rfl
    ⟨rfl, nofun, rfl, nofun, rfl⟩⟩

/-- What becomes of a signal: it is handled at once, is put into the queue, is lost, or, while a
handler runs and `depth` is 0, is dropped. -/
theorem run_signal (size : Nat) {s : State} (pending rest : List Nat) (signal : Signal)
    (h : (signals size).Reachable s)
    (hpending : Chain none s.g.next s.g.phead (pending.map some))
    (hrest : Chain none s.g.next s.frame.queue (rest.map some)) :
    ((s.defer signal).called.length = s.called.length + 1 ↔
      s.g.active = false ∨ s.g.depth = 0 ∧ s.frame = .idle) ∧
    ((s.defer signal).delayed = s.delayed ++ [signal] ↔
      s.g.active = true ∧ s.g.depth ≠ 0 ∧ pending.length + rest.length < size) ∧
    ((s.defer signal).lost = s.lost ++ [signal] ↔
      s.g.active = true ∧ s.g.depth ≠ 0 ∧ pending.length + rest.length = size) := by
  obtain ⟨avail, hi⟩ := inv_chains h hpending hrest
  have hlen := hi.cells.length
  cases hactive : s.g.active with
  | false =>
    have heq : s.defer signal = s.call signal false := by
      unfold State.defer
      rw [if_neg (by simp [hactive])]
    simp [heq, State.call]
  | true =>
    by_cases hdepth : s.g.depth = 0
    · have hframe : s.frame = .idle ↔ s.g.running = false := by
        rw [hi.running]
        cases s.frame <;> simp [Frame.running]
      rw [hframe]
      cases hrun : s.g.running <;> cases hblocked : s.g.blocked <;>
        simp [State.defer, State.call, hactive, hdepth, hrun, hblocked]
    · cases avail with
      | nil =>
        have hnone : s.g.pavail = none := hi.cells.chainAvail
        have hfull : pending.length + rest.length = size := by simpa using hlen
        simp [State.defer, hactive, hdepth, hnone, hfull]
      | cons q avail =>
        have hsome : s.g.pavail = some q := hi.cells.chainAvail.1
        rw [List.length_cons] at hlen
        have hroom : pending.length + rest.length < size := by omega
        have hne : pending.length + rest.length ≠ size := by omega
        simp [State.defer, hactive, hdepth, hsome, hroom, hne]

theorem run_signal_unblocked :
    ((unblocked.defer ⟨15, 5, 5⟩).called.length = unblocked.called.length + 1 ↔
      unblocked.g.active = false ∨ unblocked.g.depth = 0 ∧ unblocked.frame = .idle) ∧
    ((unblocked.defer ⟨15, 5, 5⟩).delayed = unblocked.delayed ++ [⟨15, 5, 5⟩] ↔
      unblocked.g.active = true ∧ unblocked.g.depth ≠ 0 ∧ 0 + 2 < 2) ∧
    ((unblocked.defer ⟨15, 5, 5⟩).lost = unblocked.lost ++ [⟨15, 5, 5⟩] ↔
      unblocked.g.active = true ∧ unblocked.g.depth ≠ 0 ∧ 0 + 2 = 2) :=
  run_signal 2 [] [1, 0] ⟨15, 5, 5⟩ reachable_unblocked rfl
    ⟨rfl, nofun, rfl, nofun, rfl⟩

/-- Whatever comes meanwhile, the loop ends when the handlers have returned once more than
`pstorage` has cells. -/
theorem run_ends (size : Nat) {s s' : State} {es : List Event} (h : (signals size).Reachable s)
    (hes : es.foldlM State.step s = some s')
    (hreturns : size + 1 ≤ es.countP Event.isReturn) :
    ∃ es₁ es₂ t, es = es₁ ++ es₂ ∧ es₁.foldlM State.step s = some t ∧ t.frame = .idle := by
  obtain ⟨avail, pending, rest, hi⟩ := inv_reachable h
  have hlen := hi.cells.length
  apply hi.ends hes
  refine Nat.le_trans ?_ hreturns
  cases s.frame with
  | first => exact Nat.le_refl _
  | _ =>
    show rest.length ≤ size + 1
    omega

theorem run_ends_unblocked : unblocked.frame.running = true ∧
    ∃ es₁ es₂ t, [.handlerReturns, .handlerReturns, .signal ⟨15, 5, 5⟩, .handlerReturns] =
      es₁ ++ es₂ ∧ es₁.foldlM State.step unblocked = some t ∧ t.frame = .idle := by
  obtain ⟨s', hs'⟩ : ∃ s', [Event.handlerReturns, .handlerReturns, .signal ⟨15, 5, 5⟩,
      .handlerReturns].foldlM State.step unblocked = some s' := ⟨_, rfl⟩
  exact ⟨rfl, run_ends 2 reachable_unblocked hs' (by decide)⟩

end StudyDoc.ZendSignal
