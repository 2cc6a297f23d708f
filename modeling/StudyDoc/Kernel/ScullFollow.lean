import StudyDoc.Lib.FreeList
import StudyDoc.Lib.Transition
import Mathlib.Data.List.Basic
import Mathlib.Data.List.Nodup
import Mathlib.Tactic.Common

/-!
# `linux-c-dev/3/实验总结.md`: `scull_follow`

`scull_follow(dev, n)` gives the node number `n` of the list at `dev->data`, and makes those that
are missing.  In any run of such calls, whatever `kmalloc` returns and whatever others write into
the `data` of the nodes,

    dev->data, next, next, …  =  all that `kmalloc` gave, in this order
    the calls with `n` return the node number `n` of it, or `NULL`                  (run_follow)

and a call returns `NULL` exactly if `kmalloc` fails before there are `n + 1` nodes
(follow_null_iff).
-/

namespace StudyDoc.ScullFollow

open FreeList Transition

/-! ## Algorithm -/

/-- `NULL` is 0. -/
structure ScullQset where
  data : Nat
  next : Nat

/-- `data` is `dev->data`. -/
structure Dev where
  data : Nat
  mem : Nat → ScullQset

/-- `memset(qs, 0, sizeof(struct scull_qset))` -/
def Dev.memset (s : Dev) (qs : Nat) : Dev := { s with mem := Function.update s.mem qs ⟨0, 0⟩ }

/-- `while(n--)`.  `kmalloc` returns the addresses of the list and then `NULL`; what is left of it
is returned. -/
def whileN : Nat → Nat → List Nat → Dev → Dev × Nat × List Nat
  | 0, qs, kmalloc, s => (s, qs, kmalloc)
  | n + 1, qs, kmalloc, s =>
    if (s.mem qs).next = 0 then
      match kmalloc with
      | [] => (s, 0, [])
      | a :: kmalloc =>
        let s := { s with mem := Function.update s.mem qs { s.mem qs with next := a } }
        whileN n a kmalloc (s.memset a)
    else whileN n (s.mem qs).next kmalloc s

def scullFollow (n : Nat) (kmalloc : List Nat) (s : Dev) : Dev × Nat × List Nat :=
  if s.data = 0 then
    match kmalloc with
    | [] => (s, 0, [])
    | a :: kmalloc => whileN n a kmalloc ({ s with data := a }.memset a)
  else whileN n s.data kmalloc s

structure State where
  dev : Dev
  /-- What `kmalloc` gave. -/
  given : List Nat
  /-- The calls so far: `n` and the pointer returned. -/
  calls : List (Nat × Nat)
  /-- What was last written into `data` of a node. -/
  written : Nat → Nat

inductive Event where
  | follow (n : Nat) (kmalloc : List Nat)
  /-- `qs->data = data;` -/
  | write (qs data : Nat)

def State.follow (s : State) (n : Nat) (kmalloc : List Nat) : State :=
  let r := scullFollow n kmalloc s.dev
  { s with dev := r.1, calls := s.calls ++ [(n, r.2.1)],
           given := s.given ++ kmalloc.take (kmalloc.length - r.2.2.length) }

def State.write (s : State) (qs data : Nat) : State :=
  { s with dev := { s.dev with mem :=
                      Function.update s.dev.mem qs { s.dev.mem qs with data := data } },
           written := Function.update s.written qs data }

/-- `kmalloc` gives memory that nobody has; data is written to nodes. -/
def Allowed (s : State) : Event → Prop
  | .follow _ kmalloc => 0 ∉ kmalloc ∧ (s.given ++ kmalloc).Nodup
  | .write qs _ => qs ∈ s.given

instance (s : State) (e : Event) : Decidable (Allowed s e) := by
  cases e <;> unfold Allowed <;> infer_instance

def State.exec (s : State) : Event → State
  | .follow n kmalloc => s.follow n kmalloc
  | .write qs data => s.write qs data

/-- At the start `dev->data` is `NULL`; the memory holds anything. -/
def system : System State Event where
  init s := ∃ mem, s = ⟨⟨0, mem⟩, [], [], fun _ => 0⟩
  step s e s' := Allowed s e ∧ s' = s.exec e

/-! ## One call -/

def Dev.next (s : Dev) (qs : Nat) : Nat := (s.mem qs).next

/-- What the loop does from the first one of `nodes` on: `new` are the nodes that it makes. -/
structure Walked (n : Nat) (nodes kmalloc : List Nat) (s s' : Dev) (r : Nat) (new rest : List Nat) :
    Prop where
  split : kmalloc = new ++ rest
  data : s'.data = s.data
  frame : ∀ a, a ∉ nodes ++ new → s'.mem a = s.mem a
  kept : ∀ a ∈ nodes, (s'.mem a).data = (s.mem a).data
  zeroed : ∀ a ∈ new, (s'.mem a).data = 0
  result : r = (nodes ++ new).getD n 0
  length : nodes.length + new.length =
    max nodes.length (min (n + 1) (nodes.length + kmalloc.length))

variable {n qs : Nat} {l kmalloc : List Nat} {s s' : Dev}

theorem next_memset (s : Dev) (a : Nat) : (s.memset a).next = Function.update s.next a 0 := by
  funext b
  by_cases hb : b = a
  · subst hb
    simp [Dev.next, Dev.memset]
  · simp [Dev.next, Dev.memset, hb]

theorem whileN_next (h : (s.mem qs).next ≠ 0) :
    whileN (n + 1) qs kmalloc s = whileN n (s.mem qs).next kmalloc s := by
  cases kmalloc <;> exact if_neg h

/-- `qs` is the last one: `a` is put behind it, and the loop goes on from there. -/
theorem Walked.make {a r : Nat} {new rest : List Nat} {s1 : Dev} (hne : qs ≠ 0)
    (hqs : qs ∉ a :: kmalloc) (hdata : s1.data = s.data)
    (hmem : s1.mem = Function.update
      (Function.update s.mem qs { s.mem qs with next := a }) a ⟨0, 0⟩)
    (hw : Walked n [a] kmalloc s1 s' r new rest) (hc : Chain 0 s'.next a (a :: new)) :
    Walked (n + 1) [qs] (a :: kmalloc) s s' r (a :: new) rest ∧
      Chain 0 s'.next qs (qs :: a :: new) := by
  obtain ⟨hqsa, hqsk⟩ : qs ≠ a ∧ qs ∉ kmalloc := by simpa using hqs
  have hqsnew : qs ∉ [a] ++ new := by
    intro hm
    rcases List.mem_cons.mp hm with heq | hm
    · exact hqsa heq
    · exact hqsk (hw.split ▸ List.mem_append_left rest hm)
  have hqsmem : s'.mem qs = { s.mem qs with next := a } := by
    rw [hw.frame qs hqsnew, hmem, Function.update_of_ne hqsa, Function.update_self]
  have hqsnext : s'.next qs = a := congrArg ScullQset.next hqsmem
  refine ⟨⟨?_, ?_, ?_, ?_, ?_, ?_, ?_⟩, rfl, hne, ?_⟩
  · rw [List.cons_append, ← hw.split]
  · rw [hw.data, hdata]
  · intro b hb
    simp only [List.cons_append, List.nil_append, List.mem_cons, not_or] at hb
    rw [hw.frame b (by simp [hb]), hmem, Function.update_of_ne hb.2.1, Function.update_of_ne hb.1]
  · intro b hb
    obtain rfl := List.mem_singleton.mp hb
    rw [hqsmem]
  · rw [List.forall_mem_cons]
    refine ⟨?_, hw.zeroed⟩
    rw [hw.kept a List.mem_cons_self, hmem, Function.update_self]
  · rw [hw.result]
    rfl
  · have hlen := hw.length
    simp only [List.length_cons, List.length_nil] at hlen ⊢
    omega
  · rw [hqsnext]
    exact hc

/-- `qs` has a next one: the loop goes on from there. -/
theorem Walked.next {b r : Nat} {new rest : List Nat} (hne : qs ≠ 0) (hb : (s.mem qs).next = b)
    (hqs : qs ∉ b :: l ++ kmalloc) (hw : Walked n (b :: l) kmalloc s s' r new rest)
    (hc : Chain 0 s'.next b (b :: l ++ new)) :
    Walked (n + 1) (qs :: b :: l) kmalloc s s' r new rest ∧
      Chain 0 s'.next qs (qs :: b :: l ++ new) := by
  have hqsnew : qs ∉ b :: l ++ new := by
    intro hm
    apply hqs
    rcases List.mem_append.mp hm with hm | hm
    · exact List.mem_append_left kmalloc hm
    · exact List.mem_append_right _ (hw.split ▸ List.mem_append_left rest hm)
  have hqsmem : s'.mem qs = s.mem qs := hw.frame qs hqsnew
  have hqsnext : s'.next qs = b := (congrArg ScullQset.next hqsmem).trans hb
  refine ⟨⟨hw.split, hw.data, ?_, ?_, hw.zeroed, ?_, ?_⟩, rfl, hne, ?_⟩
  · intro a ha
    exact hw.frame a fun hm => ha (List.mem_cons_of_mem qs hm)
  · rw [List.forall_mem_cons]
    exact ⟨by rw [hqsmem], hw.kept⟩
  · rw [hw.result]
    rfl
  · have hlen := hw.length
    simp only [List.length_cons] at hlen ⊢
    omega
  · rw [hqsnext]
    exact hc

theorem whileN_walked (hchain : Chain 0 s.next qs (qs :: l)) (hnd : (qs :: l ++ kmalloc).Nodup)
    (h0 : 0 ∉ kmalloc) : ∃ new, Walked n (qs :: l) kmalloc s (whileN n qs kmalloc s).1
        (whileN n qs kmalloc s).2.1 new (whileN n qs kmalloc s).2.2 ∧
      Chain 0 (whileN n qs kmalloc s).1.next qs (qs :: l ++ new) := by
  induction n generalizing qs l kmalloc s with
  | zero =>
    refine ⟨[], ⟨rfl, rfl, fun _ _ => rfl, fun _ _ => rfl, nofun, rfl, ?_⟩, ?_⟩
    · simp only [List.length_cons, List.length_nil]
      omega
    · rwa [List.append_nil]
  | succ n ih =>
    obtain ⟨-, hne, hrest⟩ := hchain
    obtain ⟨hqs, hnd⟩ : qs ∉ l ++ kmalloc ∧ (l ++ kmalloc).Nodup := List.nodup_cons.mp hnd
    cases l with
    | nil =>
      have hnull : (s.mem qs).next = 0 := hrest
      cases kmalloc with
      | nil =>
        have heq : whileN (n + 1) qs [] s = (s, 0, []) := by
          rw [whileN, if_pos hnull]
        rw [heq]
        exact ⟨[], ⟨rfl, rfl, fun _ _ => rfl, fun _ _ => rfl, nofun, rfl, by simp⟩,
          ⟨rfl, hne, hrest⟩⟩
      | cons a kmalloc =>
        have ha0 : a ≠ 0 := fun heq => h0 (heq ▸ List.mem_cons_self)
        have heq : whileN (n + 1) qs (a :: kmalloc) s = whileN n a kmalloc (Dev.memset
            { s with mem := Function.update s.mem qs { s.mem qs with next := a } } a) := by
          rw [whileN, if_pos hnull]
        rw [heq]
        generalize hs1 : Dev.memset
          { s with mem := Function.update s.mem qs { s.mem qs with next := a } } a = s1
        have hchain1 : Chain 0 s1.next a [a] := by
          refine ⟨rfl, ha0, ?_⟩
          rw [← hs1, next_memset, Function.update_self]
          rfl
        obtain ⟨new, hw, hc⟩ := ih hchain1 hnd fun hm => h0 (List.mem_cons_of_mem a hm)
        exact ⟨a :: new, hw.make hne hqs (by rw [← hs1]; rfl) (by rw [← hs1]; rfl) hc⟩
    | cons b l =>
      obtain ⟨hb, hb0, htail⟩ := hrest
      have hnb : (s.mem qs).next = b := hb
      have heq : whileN (n + 1) qs kmalloc s = whileN n b kmalloc s := by
        rw [whileN_next (by rw [hnb]; exact hb0), hnb]
      obtain ⟨new, hw, hc⟩ := ih ⟨rfl, hb0, htail⟩ hnd h0
      rw [heq]
      exact ⟨new, hw.next hne hnb hqs hc⟩

theorem scullFollow_next (h : s.data ≠ 0) :
    scullFollow n kmalloc s = whileN n s.data kmalloc s := by
  cases kmalloc <;> exact if_neg h

/-- The whole call. -/
theorem scullFollow_walked (hchain : Chain 0 s.next s.data l) (hnd : (l ++ kmalloc).Nodup)
    (h0 : 0 ∉ kmalloc) : ∃ new, l.length + new.length = max l.length (min (n + 1)
        (l.length + kmalloc.length)) ∧ kmalloc = new ++ (scullFollow n kmalloc s).2.2 ∧
      (scullFollow n kmalloc s).2.1 = (l ++ new).getD n 0 ∧
      Chain 0 (scullFollow n kmalloc s).1.next (scullFollow n kmalloc s).1.data (l ++ new) ∧
      (∀ a ∈ l, ((scullFollow n kmalloc s).1.mem a).data = (s.mem a).data) ∧
      ∀ a ∈ new, ((scullFollow n kmalloc s).1.mem a).data = 0 := by
  cases l with
  | nil =>
    have hnull : s.data = 0 := hchain
    cases kmalloc with
    | nil =>
      have heq : scullFollow n [] s = (s, 0, []) := by rw [scullFollow, if_pos hnull]
      rw [heq]
      exact ⟨[], by simp, rfl, rfl, hnull, nofun, nofun⟩
    | cons a kmalloc =>
      have ha0 : a ≠ 0 := fun heq => h0 (heq ▸ List.mem_cons_self)
      have heq : scullFollow n (a :: kmalloc) s =
          whileN n a kmalloc ({ s with data := a }.memset a) := by
        rw [scullFollow, if_pos hnull]
      have hchain1 : Chain 0 (Dev.memset { s with data := a } a).next a [a] := by
        refine ⟨rfl, ha0, ?_⟩
        rw [next_memset, Function.update_self]
        rfl
      obtain ⟨new, hw, hc⟩ := whileN_walked (n := n) hchain1 hnd
        (fun hm => h0 (List.mem_cons_of_mem a hm))
      rw [heq]
      have hlen := hw.length
      simp only [List.length_cons, List.length_nil] at hlen
      refine ⟨a :: new, ?_, ?_, hw.result, ?_, nofun, ?_⟩
      · simp only [List.length_cons, List.length_nil]
        omega
      · rw [List.cons_append, ← hw.split]
      · rw [hw.data]
        exact hc
      · rw [List.forall_mem_cons]
        refine ⟨?_, hw.zeroed⟩
        rw [hw.kept a List.mem_cons_self]
        simp [Dev.memset]
  | cons qs l =>
    obtain ⟨hqs, hne, hrest⟩ := hchain
    have heq : scullFollow n kmalloc s = whileN n qs kmalloc s := by
      rw [scullFollow_next (by rw [hqs]; exact hne), hqs]
    obtain ⟨new, hw, hc⟩ := whileN_walked (n := n) ⟨rfl, hne, hrest⟩ hnd h0
    rw [heq]
    refine ⟨new, hw.length, hw.split, hw.result, ?_, hw.kept, hw.zeroed⟩
    rw [hw.data, hqs]
    exact hc

/-! ## Every call -/

structure Inv (s : State) : Prop where
  chain : Chain 0 s.dev.next s.dev.data s.given
  nodup : s.given.Nodup
  calls : ∀ c ∈ s.calls, c.2 = 0 ∨ s.given[c.1]? = some c.2
  written : ∀ a ∈ s.given, (s.dev.mem a).data = s.written a
  unwritten : ∀ a, a ∉ s.given → s.written a = 0

theorem getD_zero_or (l : List Nat) (n : Nat) : l.getD n 0 = 0 ∨ l[n]? = some (l.getD n 0) := by
  rw [List.getD_eq_getElem?_getD]
  cases l[n]? with
  | none => exact Or.inl rfl
  | some a => exact Or.inr rfl

/-- A call: the list gets longer, up to `n + 1` nodes if `kmalloc` gives so many. -/
theorem Inv.follow_spec {s : State} (h : Inv s) (ha : Allowed s (.follow n kmalloc)) :
    ∃ new, Inv (s.follow n kmalloc) ∧ (s.follow n kmalloc).given = s.given ++ new ∧
      s.given.length + new.length =
        max s.given.length (min (n + 1) (s.given.length + kmalloc.length)) ∧
      (scullFollow n kmalloc s.dev).2.1 = (s.given ++ new).getD n 0 := by
  obtain ⟨h0, hnd⟩ := ha
  obtain ⟨new, hlen, hsplit, hresult, hchain, hkept, hzeroed⟩ :=
    scullFollow_walked (n := n) h.chain hnd h0
  have hgiven : (s.follow n kmalloc).given = s.given ++ new := by
    show s.given ++ kmalloc.take (kmalloc.length - (scullFollow n kmalloc s.dev).2.2.length) = _
    congr 1
    generalize (scullFollow n kmalloc s.dev).2.2 = rest at hsplit
    subst hsplit
    simp
  have hnew : ∀ a ∈ new, a ∉ s.given := by
    intro a ha hm
    rw [hsplit] at hnd
    exact (List.nodup_append.mp hnd).2.2 a hm a (List.mem_append_left _ ha) rfl
  refine ⟨new, ⟨?_, ?_, ?_, ?_, ?_⟩, hgiven, hlen, hresult⟩
  · rw [hgiven]
    exact hchain
  · rw [hgiven]
    rw [hsplit, ← List.append_assoc] at hnd
    exact (List.nodup_append.mp hnd).1
  · rw [hgiven]
    intro c hc
    rcases List.mem_append.mp hc with hc | hc
    · refine (h.calls c hc).imp_right fun hsome => ?_
      rw [List.getElem?_append_left (List.getElem?_eq_some_iff.mp hsome).1]
      exact hsome
    · obtain rfl := List.mem_singleton.mp hc
      rw [hresult]
      exact getD_zero_or _ _
  · rw [hgiven]
    intro a ha
    rcases List.mem_append.mp ha with ha | ha
    · exact (hkept a ha).trans (h.written a ha)
    · exact (hzeroed a ha).trans (h.unwritten a (hnew a ha)).symm
  · rw [hgiven]
    intro a ha
    exact h.unwritten a fun hm => ha (List.mem_append_left _ hm)

theorem Inv.write {s : State} (h : Inv s) {qs : Nat} (hqs : qs ∈ s.given) (data : Nat) :
    Inv (s.write qs data) := by
  obtain ⟨hchain, hnd, hcalls, hwritten, hun⟩ := h
  refine ⟨?_, hnd, hcalls, ?_, ?_⟩
  · apply hchain.frame
    intro a _
    by_cases haqs : a = qs
    · subst haqs
      simp [Dev.next, State.write]
    · simp [Dev.next, State.write, haqs]
  · intro a ha
    by_cases haqs : a = qs
    · subst haqs
      simp [State.write]
    · simpa [State.write, haqs] using hwritten a ha
  · intro a ha
    have haqs : a ≠ qs := fun heq => ha (heq ▸ hqs)
    simpa [State.write, haqs] using hun a ha

theorem inv_reachable {s : State} (h : system.Reachable s) : Inv s := by
  apply h.invariant
  · rintro s ⟨mem, rfl⟩
    exact ⟨rfl, .nil, nofun, nofun, fun _ _ => rfl⟩
  · rintro s e s' - hi ⟨ha, rfl⟩
    cases e with
    | follow n kmalloc =>
      obtain ⟨new, hi', -⟩ := hi.follow_spec ha
      exact hi'
    | write qs data => exact hi.write ha data

/-! ## Main results -/

/-- The list is what `kmalloc` gave; the calls with `n` returned its node number `n`, so the same
node for the same `n` and different ones for different ones; and nobody's data got lost. -/
theorem run_follow {s : State} (h : system.Reachable s) :
    Chain 0 s.dev.next s.dev.data s.given ∧ s.given.Nodup ∧
    (∀ a ∈ s.given, (s.dev.mem a).data = s.written a) ∧
    (∀ c ∈ s.calls, c.2 = 0 ∨ s.given[c.1]? = some c.2) ∧
    ∀ c ∈ s.calls, ∀ c' ∈ s.calls, c.2 ≠ 0 → c'.2 ≠ 0 → (c.2 = c'.2 ↔ c.1 = c'.1) := by
  have hi := inv_reachable h
  refine ⟨hi.chain, hi.nodup, hi.written, hi.calls, fun c hc c' hc' hne hne' => ?_⟩
  have hsome := (hi.calls c hc).resolve_left hne
  have hsome' := (hi.calls c' hc').resolve_left hne'
  constructor
  · intro heq
    apply (List.getElem?_inj (List.getElem?_eq_some_iff.mp hsome).1 hi.nodup).mp
    rw [hsome, hsome', heq]
  · intro heq
    rw [heq, hsome'] at hsome
    exact (Option.some.inj hsome).symm

/-- Two nodes are made, the second one is written, and a third one cannot be had. -/
def threeCalls : List Event := [.follow 1 [100, 200, 300], .write 200 7, .follow 0 [], .follow 2 []]

def twoNodes : State :=
  threeCalls.foldl State.exec ⟨⟨0, fun _ => ⟨9, 9⟩⟩, [], [], fun _ => 0⟩

theorem reachable_twoNodes : system.Reachable twoNodes := by
  refine System.Reachable.next (e := .follow 2 []) ?_ ⟨by decide, rfl⟩
  refine System.Reachable.next (e := .follow 0 []) ?_ ⟨by decide, rfl⟩
  refine System.Reachable.next (e := .write 200 7) ?_ ⟨by decide, rfl⟩
  refine System.Reachable.next (e := .follow 1 [100, 200, 300]) ?_ ⟨by decide, rfl⟩
  exact .init ⟨fun _ => ⟨9, 9⟩, rfl⟩

theorem run_follow_twoNodes : twoNodes.given = [100, 200] ∧
    twoNodes.calls = [(1, 200), (0, 100), (2, 0)] ∧
    Chain 0 twoNodes.dev.next twoNodes.dev.data twoNodes.given ∧ twoNodes.given.Nodup ∧
    (∀ a ∈ twoNodes.given, (twoNodes.dev.mem a).data = twoNodes.written a) ∧
    (∀ c ∈ twoNodes.calls, c.2 = 0 ∨ twoNodes.given[c.1]? = some c.2) ∧
    ∀ c ∈ twoNodes.calls, ∀ c' ∈ twoNodes.calls, c.2 ≠ 0 → c'.2 ≠ 0 →
      (c.2 = c'.2 ↔ c.1 = c'.1) :=
  ⟨rfl, rfl, run_follow reachable_twoNodes⟩

/-- `NULL` only if `kmalloc` fails before there are enough nodes; those it gave stay in the list. -/
theorem follow_null_iff {s : State} (h : system.Reachable s)
    (ha : Allowed s (.follow n kmalloc)) :
    ((scullFollow n kmalloc s.dev).2.1 = 0 ↔ s.given.length + kmalloc.length ≤ n) ∧
    (s.follow n kmalloc).given.length =
      max s.given.length (min (n + 1) (s.given.length + kmalloc.length)) := by
  have hi := inv_reachable h
  obtain ⟨new, hi', hgiven, hlen, hresult⟩ := hi.follow_spec ha
  have hchain := hi'.chain.notMem
  rw [hgiven] at hchain
  rw [hgiven, List.length_append]
  refine ⟨?_, hlen⟩
  rw [hresult, List.getD_eq_getElem?_getD]
  by_cases hn : n < (s.given ++ new).length
  · rw [List.getElem?_eq_getElem hn, Option.getD_some]
    rw [List.length_append] at hn
    have hne : (s.given ++ new)[n] ≠ 0 := ne_of_mem_of_not_mem (List.getElem_mem _) hchain
    exact ⟨fun h0 => absurd h0 hne, fun hle => by omega⟩
  · rw [List.getElem?_eq_none (Nat.not_lt.mp hn), Option.getD_none]
    rw [List.length_append] at hn
    exact ⟨fun _ => by omega, fun _ => rfl⟩

theorem follow_null_iff_twoNodes :
    ((scullFollow 4 [300] twoNodes.dev).2.1 = 0 ↔ twoNodes.given.length + [300].length ≤ 4) ∧
    (twoNodes.follow 4 [300]).given.length =
      max twoNodes.given.length (min (4 + 1) (twoNodes.given.length + [300].length)) :=
  follow_null_iff reachable_twoNodes ⟨by decide, by decide⟩

end StudyDoc.ScullFollow
