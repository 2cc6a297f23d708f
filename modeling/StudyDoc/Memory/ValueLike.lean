import StudyDoc.Lib.Ledger
import StudyDoc.Lib.Refcount
import StudyDoc.Lib.Transition
import Mathlib.Data.Set.Basic
import Mathlib.Logic.Equiv.Basic
import Mathlib.Tactic.Common

/-!
# `13.2.1行为像值的类.md`: the `HashPtr` that behaves like a value

Objects are constructed, copied, assigned, swapped and destroyed in any order; each has a string of
its own on the heap.  With `s.view` for what the objects mean, a string and a number for each,

    Run es s  →  the same operations on plain values lead to s.view                  (run_values)

No block is touched after it was deleted, none has two owners or none (run_owned).  The `swap` of
`13.3交换操作.md`, which exchanges the pointers, means what the one with three copies means
(swap_copies).
-/

namespace StudyDoc.ValueLike

open Refcount Transition

variable {Place : Type}

/-! ## Algorithm -/

/-- `ps` is the number of a block. -/
structure HashPtr where
  ps : Nat
  i : Int

structure State (Place : Type) where
  strings : Blocks String
  objects : Place → Option HashPtr

namespace State

variable [DecidableEq Place]

def setObject (s : State Place) (this : Place) (p : Option HashPtr) : State Place :=
  { s with objects := Function.update s.objects this p }

/-- `HashPtr(const std::string& s)` -/
def construct (s : State Place) (this : Place) (str : String) : State Place :=
  { s with strings := s.strings.new str }.setObject this (some ⟨s.strings.length, 0⟩)

/-- `HashPtr(const HashPtr &p)` -/
def copy (s : State Place) (this p : Place) : Option (State Place) := do
  let p ← s.objects p
  let str ← s.strings.load p.ps
  let s' := { s with strings := s.strings.new str }
  return s'.setObject this (some ⟨s.strings.length, p.i⟩)

/-- `operator=(const HashPtr &rhs)` -/
def assign (s : State Place) (this rhs : Place) : Option (State Place) := do
  let rhs ← s.objects rhs
  let str ← s.strings.load rhs.ps
  let newp := s.strings.length
  let strings := s.strings.new str
  let p ← s.objects this
  let strings ← strings.delete p.ps
  return { s with strings := strings }.setObject this (some ⟨newp, rhs.i⟩)

/-- `~HashPtr()` -/
def destroy (s : State Place) (this : Place) : Option (State Place) := do
  let p ← s.objects this
  let strings ← s.strings.delete p.ps
  return { s with strings := strings }.setObject this none

/-- `swap(lhs.ps, rhs.ps);` -/
def swapPs (s : State Place) (lhs rhs : Place) : Option (State Place) := do
  let l ← s.objects lhs
  let r ← s.objects rhs
  return (s.setObject lhs (some { l with ps := r.ps })).setObject rhs (some { r with ps := l.ps })

/-- `swap(lhs.i, rhs.i);` -/
def swapI (s : State Place) (lhs rhs : Place) : Option (State Place) := do
  let l ← s.objects lhs
  let r ← s.objects rhs
  return (s.setObject lhs (some { l with i := r.i })).setObject rhs (some { r with i := l.i })

/-- `swap(HashPtr &lhs, HashPtr &rhs)` -/
def swap (s : State Place) (lhs rhs : Place) : Option (State Place) := do
  let s ← s.swapPs lhs rhs
  s.swapI lhs rhs

end State

inductive Event (Place : Type) where
  | construct (this : Place) (str : String)
  | copy (this p : Place)
  | assign (this rhs : Place)
  | destroy (this : Place)
  | swap (lhs rhs : Place)

/-- `none`: a block is touched that was deleted. -/
def State.exec [DecidableEq Place] (s : State Place) : Event Place → Option (State Place)
  | .construct this str => some (s.construct this str)
  | .copy this p => s.copy this p
  | .assign this rhs => s.assign this rhs
  | .destroy this => s.destroy this
  | .swap lhs rhs => s.swap lhs rhs

/-- What the language asks for: an object is made where none is, and used while it lives. -/
def Allowed {α : Type} (objects : Place → Option α) : Event Place → Prop
  | .construct this _ => objects this = none
  | .copy this p => objects this = none ∧ (objects p).isSome
  | .assign this rhs => (objects this).isSome ∧ (objects rhs).isSome
  | .destroy this => (objects this).isSome
  | .swap lhs rhs => (objects lhs).isSome ∧ (objects rhs).isSome

def system (Place : Type) [DecidableEq Place] : System (State Place) (Event Place) where
  init s := s = ⟨[], fun _ => none⟩
  step s e s' := Allowed s.objects e ∧ s.exec e = some s'

/-! ## Values -/

abbrev Values (Place : Type) := Place → Option (String × Int)

/-- The same operations where each object holds its string itself. -/
def Values.exec [DecidableEq Place] (v : Values Place) : Event Place → Values Place
  | .construct this str => Function.update v this (some (str, 0))
  | .copy this p => Function.update v this (v p)
  | .assign this rhs => Function.update v this (v rhs)
  | .destroy this => Function.update v this none
  | .swap lhs rhs => Function.update (Function.update v lhs (v rhs)) rhs (v lhs)

def values (Place : Type) [DecidableEq Place] : System (Values Place) (Event Place) where
  init v := v = fun _ => none
  step v e v' := Allowed v e ∧ v' = v.exec e

/-- What the objects of `s` mean. -/
def State.view (s : State Place) : Values Place := fun this => do
  let p ← s.objects this
  let str ← s.strings.load p.ps
  return (str, p.i)

variable {s s' : State Place} {this lhs rhs temp : Place} {p : HashPtr} {str : String}

/-! ## Who owns which string -/

/-- The blocks that are in use are those of the objects, one for each. -/
def Owned (s : State Place) : Prop :=
  Ledger.Covers ∅ {b | (s.strings.load b).isSome} fun this => (s.objects this).map HashPtr.ps

theorem Owned.load (h : Owned s) (hp : s.objects this = some p) :
    ∃ str, s.strings.load p.ps = some str := by
  have hmem : p.ps ∈ {b | (s.strings.load b).isSome} := h.mem_of_entry (i := this) (by simp [hp])
  exact Option.isSome_iff_exists.mp hmem

theorem Owned.view_eq (h : Owned s) (hp : s.objects this = some p) :
    ∃ str, s.strings.load p.ps = some str ∧ s.view this = some (str, p.i) := by
  obtain ⟨str, hstr⟩ := h.load hp
  refine ⟨str, hstr, ?_⟩
  unfold State.view
  rw [hp, Option.bind_eq_bind, Option.bind_some, hstr]
  rfl

theorem Owned.isSome_view (h : Owned s) (this : Place) :
    (s.view this).isSome = (s.objects this).isSome := by
  cases hp : s.objects this with
  | none =>
    unfold State.view
    rw [hp]
    rfl
  | some p =>
    obtain ⟨str, -, hv⟩ := h.view_eq hp
    rw [hv]
    rfl

variable [DecidableEq Place]

/-- A new object with a new string. -/
def State.give (s : State Place) (this : Place) (str : String) (i : Int) : State Place :=
  { s with strings := s.strings.new str }.setObject this (some ⟨s.strings.length, i⟩)

/-- The object is there no more, nor is its string. -/
def State.take (s : State Place) (this : Place) (ps : Nat) : State Place :=
  { s with strings := s.strings.set ps none }.setObject this none

theorem map_update {α β : Type} (f : α → β) (objects : Place → Option α) (this : Place)
    (x : Option α) : (fun that => (Function.update objects this x that).map f) =
      Function.update (fun that => (objects that).map f) this (x.map f) := by
  funext that
  by_cases hthat : that = this
  · subst hthat
    rw [Function.update_self, Function.update_self]
  · rw [Function.update_of_ne hthat, Function.update_of_ne hthat]

theorem Owned.give (h : Owned s) (hfree : s.objects this = none) (str : String) (i : Int) :
    Owned (s.give this str i) := by
  have hnew : s.strings.length ∉ {b | (s.strings.load b).isSome} := by
    intro hb
    obtain ⟨a, ha⟩ := Option.isSome_iff_exists.mp hb
    exact absurd (Blocks.lt_of_load ha) (Nat.lt_irrefl _)
  have hheld : {b | ((s.strings.new str).load b).isSome} =
      insert s.strings.length {b | (s.strings.load b).isSome} := by
    ext b
    show ((s.strings.new str).load b).isSome ↔ b = s.strings.length ∨ (s.strings.load b).isSome
    rw [Blocks.load_new]
    by_cases hb : b = s.strings.length <;> simp [hb]
  show Ledger.Covers ∅ {b | ((s.strings.new str).load b).isSome} fun that =>
    (Function.update s.objects this (some ⟨s.strings.length, i⟩) that).map HashPtr.ps
  rw [map_update, hheld]
  exact Ledger.Covers.acquire h (by simp [hfree]) hnew

theorem view_give (h : Owned s) (str : String) (i : Int) :
    (s.give this str i).view = Function.update s.view this (some (str, i)) := by
  funext that
  unfold State.give State.setObject State.view
  by_cases hthat : that = this
  · subst hthat
    simp only [Function.update_self, Option.bind_eq_bind, Option.bind_some, Blocks.load_new,
      if_true]
    rfl
  · simp only [Function.update_of_ne hthat, Option.bind_eq_bind]
    cases hp : s.objects that with
    | none => rfl
    | some p =>
      obtain ⟨str', hstr⟩ := h.load hp
      have hne : p.ps ≠ s.strings.length := Nat.ne_of_lt (Blocks.lt_of_load hstr)
      rw [Option.bind_some, Option.bind_some, Blocks.load_new, if_neg hne]

theorem Owned.take (h : Owned s) (hp : s.objects this = some p) : Owned (s.take this p.ps) := by
  obtain ⟨str, hstr⟩ := h.load hp
  have hheld : {b | (Blocks.load (s.strings.set p.ps none) b).isSome} =
      {b | (s.strings.load b).isSome} \ {p.ps} := by
    ext b
    show (Blocks.load (s.strings.set p.ps none) b).isSome ↔
      (s.strings.load b).isSome ∧ b ≠ p.ps
    rw [Blocks.load_set (Blocks.lt_of_load hstr)]
    by_cases hb : b = p.ps <;> simp [hb]
  show Ledger.Covers ∅ {b | (Blocks.load (s.strings.set p.ps none) b).isSome} fun that =>
    (Function.update s.objects this none that).map HashPtr.ps
  rw [map_update, hheld]
  exact Ledger.Covers.release h (by simp [hp])

theorem view_take (h : Owned s) (hp : s.objects this = some p) :
    (s.take this p.ps).view = Function.update s.view this none := by
  obtain ⟨str, hstr⟩ := h.load hp
  funext that
  unfold State.take State.setObject State.view
  by_cases hthat : that = this
  · subst hthat
    simp only [Function.update_self]
    rfl
  · simp only [Function.update_of_ne hthat, Option.bind_eq_bind]
    cases hq : s.objects that with
    | none => rfl
    | some q =>
      have hne : q.ps ≠ p.ps := fun heq =>
        hthat (h.inj that this p.ps (by simp [hq, heq]) (by simp [hp]))
      rw [Option.bind_some, Option.bind_some, Blocks.load_set (Blocks.lt_of_load hstr), if_neg hne]

/-! ## The operations -/

theorem construct_eq (s : State Place) (this : Place) (str : String) :
    s.construct this str = s.give this str 0 := rfl

theorem Owned.copy_eq (h : Owned s) (this : Place) (hp : s.objects rhs = some p) :
    ∃ str, s.view rhs = some (str, p.i) ∧ s.copy this rhs = some (s.give this str p.i) := by
  obtain ⟨str, hstr, hview⟩ := h.view_eq hp
  refine ⟨str, hview, ?_⟩
  unfold State.copy
  rw [hp, Option.bind_eq_bind, Option.bind_some, hstr]
  rfl

theorem Owned.destroy_eq (h : Owned s) (hp : s.objects this = some p) :
    s.destroy this = some (s.take this p.ps) := by
  obtain ⟨str, hstr⟩ := h.load hp
  unfold State.destroy
  rw [hp, Option.bind_eq_bind, Option.bind_some, Blocks.delete_of_load hstr]
  rfl

/-- The assignment takes the old string away and gives a new one, also to the object itself. -/
theorem Owned.assign_eq {q : HashPtr} (h : Owned s) (hp : s.objects this = some p)
    (hq : s.objects rhs = some q) : ∃ str, s.view rhs = some (str, q.i) ∧
      s.assign this rhs = some ((s.take this p.ps).give this str q.i) := by
  obtain ⟨str, hstr, hview⟩ := h.view_eq hq
  obtain ⟨old, hold⟩ := h.load hp
  refine ⟨str, hview, ?_⟩
  have hlt := Blocks.lt_of_load hold
  have hload : (s.strings.new str).load p.ps = some old := by
    rw [Blocks.load_new, if_neg (Nat.ne_of_lt hlt), hold]
  have hset : (s.strings.new str).set p.ps none = Blocks.new (s.strings.set p.ps none) str :=
    List.set_append_left _ _ hlt
  unfold State.assign
  rw [hq, Option.bind_eq_bind, Option.bind_some, hstr, Option.bind_eq_bind, Option.bind_some, hp,
    Option.bind_eq_bind, Option.bind_some, Blocks.delete_of_load hload, hset]
  simp [State.give, State.take, State.setObject]

theorem swapPs_eq {q : HashPtr} (hp : s.objects lhs = some p) (hq : s.objects rhs = some q) :
    s.swapPs lhs rhs = some ((s.setObject lhs (some ⟨q.ps, p.i⟩)).setObject rhs
      (some ⟨p.ps, q.i⟩)) := by
  unfold State.swapPs
  rw [hp, hq]
  rfl

theorem swapI_eq {q : HashPtr} (hp : s.objects lhs = some p) (hq : s.objects rhs = some q) :
    s.swapI lhs rhs = some ((s.setObject lhs (some ⟨p.ps, q.i⟩)).setObject rhs
      (some ⟨q.ps, p.i⟩)) := by
  unfold State.swapI
  rw [hp, hq]
  rfl

/-- Two pointers and two numbers exchanged are two objects exchanged. -/
theorem swap_eq (hl : (s.objects lhs).isSome) (hr : (s.objects rhs).isSome) :
    s.swap lhs rhs = some { s with objects := s.objects ∘ Equiv.swap rhs lhs } := by
  obtain ⟨l, hl⟩ := Option.isSome_iff_exists.mp hl
  obtain ⟨r, hr⟩ := Option.isSome_iff_exists.mp hr
  unfold State.swap
  rw [swapPs_eq hl hr, Option.bind_eq_bind, Option.bind_some, Equiv.comp_swap_eq_update, hl, hr]
  by_cases hne : lhs = rhs
  · subst hne
    obtain rfl := Option.some.inj (hl.symm.trans hr)
    rw [swapI_eq (p := l) (q := l)] <;> simp [State.setObject]
  · rw [swapI_eq (p := ⟨r.ps, l.i⟩) (q := ⟨l.ps, r.i⟩)]
    · congr 1
      unfold State.setObject
      congr 1
      funext that
      by_cases h1 : that = rhs
      · subst h1
        simp
      · by_cases h2 : that = lhs
        · subst h2
          simp [h1]
        · simp [h1, h2]
    · simp [State.setObject, hne]
    · simp [State.setObject]

theorem Owned.swap (h : Owned s) (lhs rhs : Place) :
    Owned { s with objects := s.objects ∘ Equiv.swap rhs lhs } :=
  Ledger.Covers.comp h (Equiv.swap rhs lhs)

theorem view_swap (s : State Place) (lhs rhs : Place) :
    State.view { s with objects := s.objects ∘ Equiv.swap rhs lhs } =
      Function.update (Function.update s.view lhs (s.view rhs)) rhs (s.view lhs) := by
  rw [← Equiv.comp_swap_eq_update]
  rfl

omit [DecidableEq Place] in
theorem allowed_view (h : Owned s) (e : Event Place) : Allowed s.view e ↔ Allowed s.objects e := by
  have hnone : ∀ this, s.view this = none ↔ s.objects this = none := by
    intro this
    rw [← Option.isNone_iff_eq_none, ← Option.isNone_iff_eq_none, ← Option.not_isSome,
      ← Option.not_isSome, h.isSome_view]
  cases e <;> simp only [Allowed, hnone, h.isSome_view]

/-- One operation: nothing deleted is touched, and on the values it does what it should. -/
theorem Owned.exec (h : Owned s) (e : Event Place) (ha : Allowed s.objects e) :
    ∃ s', s.exec e = some s' ∧ Owned s' ∧ s'.view = s.view.exec e := by
  cases e with
  | construct this str => exact ⟨_, rfl, h.give ha str 0, view_give h str 0⟩
  | copy this rhs =>
    obtain ⟨hfree, hrhs⟩ := ha
    obtain ⟨p, hp⟩ := Option.isSome_iff_exists.mp hrhs
    obtain ⟨str, hview, heq⟩ := h.copy_eq this hp
    refine ⟨_, heq, h.give hfree str p.i, ?_⟩
    rw [view_give h, ← hview]
    rfl
  | assign this rhs =>
    obtain ⟨hthis, hrhs⟩ := ha
    obtain ⟨p, hp⟩ := Option.isSome_iff_exists.mp hthis
    obtain ⟨q, hq⟩ := Option.isSome_iff_exists.mp hrhs
    obtain ⟨str, hview, heq⟩ := h.assign_eq hp hq
    have htake := h.take hp
    refine ⟨_, heq, htake.give (Function.update_self ..) str q.i, ?_⟩
    rw [view_give htake, view_take h hp, Function.update_idem, ← hview]
    rfl
  | destroy this =>
    obtain ⟨p, hp⟩ := Option.isSome_iff_exists.mp ha
    exact ⟨_, h.destroy_eq hp, h.take hp, view_take h hp⟩
  | swap lhs rhs => exact ⟨_, swap_eq ha.1 ha.2, h.swap lhs rhs, view_swap s lhs rhs⟩

omit [DecidableEq Place] in
theorem owned_empty : Owned (⟨[], fun _ => none⟩ : State Place) := by
  have hheld : {b | (Blocks.load ([] : Blocks String) b).isSome} = ∅ := by
    ext b
    simp [Blocks.load]
  show Ledger.Covers ∅ {b | (Blocks.load ([] : Blocks String) b).isSome} fun _ : Place => none
  rw [hheld]
  exact Ledger.Covers.start ∅

theorem owned_reachable (h : (system Place).Reachable s) : Owned s := by
  apply h.invariant
  · rintro s rfl
    exact owned_empty
  · rintro s e s' - hi ⟨ha, hs'⟩
    obtain ⟨s1, hs1, ho, -⟩ := hi.exec e ha
    exact Option.some.inj (hs1.symm.trans hs') ▸ ho

/-- Each operation is allowed when it comes. -/
def AllAllowed : Values Place → List (Event Place) → Prop
  | _, [] => True
  | v, e :: es => Allowed v e ∧ AllAllowed (v.exec e) es

theorem Owned.foldlM {es : List (Event Place)} (h : Owned s) (ha : AllAllowed s.view es) :
    ∃ s', es.foldlM State.exec s = some s' ∧ Owned s' ∧ s'.view = es.foldl Values.exec s.view := by
  induction es generalizing s with
  | nil => exact ⟨s, rfl, h, rfl⟩
  | cons e es ih =>
    obtain ⟨s1, hs1, h1, hview⟩ := h.exec e ((allowed_view h e).mp ha.1)
    obtain ⟨s', hs', h', hview'⟩ := ih h1 (hview ▸ ha.2)
    refine ⟨s', ?_, h', ?_⟩
    · rw [List.foldlM_cons, hs1]
      exact hs'
    · rw [hview', hview, List.foldl_cons]

theorem exists_run {pre es : List (Event Place)} (h : (system Place).Run pre s)
    (ha : AllAllowed s.view es) : ∃ s', (system Place).Run (pre ++ es) s' ∧
      s'.view = es.foldl Values.exec s.view := by
  induction es generalizing pre s with
  | nil => exact ⟨s, by rwa [List.append_nil], rfl⟩
  | cons e es ih =>
    have ho := owned_reachable ⟨pre, h⟩
    have hallowed := (allowed_view ho e).mp ha.1
    obtain ⟨s1, hs1, -, hview⟩ := ho.exec e hallowed
    obtain ⟨s', hs', hview'⟩ := ih (h.next ⟨hallowed, hs1⟩) (hview ▸ ha.2)
    rw [List.append_assoc, List.singleton_append] at hs'
    exact ⟨s', hs', by rw [hview', hview, List.foldl_cons]⟩

/-- `HashPtr temp = v1; v1 = v2; v2 = temp;` and the end of the scope of `temp` -/
def swapByCopies (temp v1 v2 : Place) : List (Event Place) :=
  [.copy temp v1, .assign v1 v2, .assign v2 temp, .destroy temp]

theorem foldl_swapByCopies {v : Values Place} (ht : v temp = none) (hl : (v lhs).isSome)
    (hr : (v rhs).isSome) : AllAllowed v (swapByCopies temp lhs rhs) ∧
      (swapByCopies temp lhs rhs).foldl Values.exec v = v.exec (.swap lhs rhs) := by
  have hlt : lhs ≠ temp := by
    rintro rfl
    rw [ht] at hl
    cases hl
  have hrt : rhs ≠ temp := by
    rintro rfl
    rw [ht] at hr
    cases hr
  constructor
  · simp [swapByCopies, AllAllowed, Allowed, Values.exec, Function.update_apply, ht, hl, hr, hlt,
      hrt, hlt.symm, hrt.symm]
  · funext that
    simp only [swapByCopies, List.foldl_cons, List.foldl_nil, Values.exec, Function.update_apply]
    grind

/-! ## Main results -/

/-- The objects behave like values. -/
theorem run_values {es : List (Event Place)} {s : State Place} (h : (system Place).Run es s) :
    (values Place).Run es s.view := by
  induction h with
  | start hinit =>
    subst hinit
    exact .start rfl
  | next hr hst ih =>
    obtain ⟨ha, hs'⟩ := hst
    have ho := owned_reachable ⟨_, hr⟩
    obtain ⟨s1, hs1, -, hview⟩ := ho.exec _ ha
    obtain rfl := Option.some.inj (hs1.symm.trans hs')
    exact ih.next ⟨(allowed_view ho _).mpr ha, hview⟩

/-- Two objects and a copy of the first; an assignment to another one and one to itself. -/
def threeObjects : List (Event Nat) :=
  [.construct 0 "v1", .construct 1 "v2", .copy 2 0, .assign 0 1, .assign 1 1, .swap 1 2]

theorem exists_threeObjects : ∃ s, (system Nat).Run threeObjects s ∧
    s.view = threeObjects.foldl Values.exec fun _ => none :=
  exists_run (.start rfl) (by
    simp [AllAllowed, Allowed, Values.exec, State.view])

theorem run_values_threeObjects : ∃ s, (system Nat).Run threeObjects s ∧
    (values Nat).Run threeObjects s.view := by
  obtain ⟨s, hs, -⟩ := exists_threeObjects
  exact ⟨s, hs, run_values hs⟩

/-- No operation touches a deleted block, and no block has two owners or none. -/
theorem run_owned {s : State Place} (h : (system Place).Reachable s) :
    (∀ e, Allowed s.objects e → (s.exec e).isSome) ∧
    (∀ b, (s.strings.load b).isSome ↔ ∃ this p, s.objects this = some p ∧ p.ps = b) ∧
    ∀ this that p q, s.objects this = some p → s.objects that = some q → p.ps = q.ps →
      this = that := by
  have ho := owned_reachable h
  refine ⟨fun e ha => ?_, fun b => ?_, ?_⟩
  · obtain ⟨s', hs', -⟩ := ho.exec e ha
    rw [hs']
    rfl
  · rw [show (s.strings.load b).isSome ↔ _ from ho.mem_iff b]
    simp
  · intro this that p q hp hq heq
    exact ho.inj this that p.ps (by simp [hp]) (by simp [hq, heq])

theorem run_owned_threeObjects : ∃ s, (system Nat).Run threeObjects s ∧
    (∀ e, Allowed s.objects e → (s.exec e).isSome) ∧
    (∀ b, (s.strings.load b).isSome ↔ ∃ this p, s.objects this = some p ∧ p.ps = b) ∧
    ∀ this that p q, s.objects this = some p → s.objects that = some q → p.ps = q.ps →
      this = that := by
  obtain ⟨s, hs, -⟩ := exists_threeObjects
  exact ⟨s, hs, run_owned ⟨_, hs⟩⟩

/-- The `swap` of the pointers leaves the values that the one with copies leaves. -/
theorem swap_copies {s : State Place} {temp lhs rhs : Place} (h : (system Place).Reachable s)
    (ht : s.objects temp = none) (hl : (s.objects lhs).isSome) (hr : (s.objects rhs).isSome) :
    ∃ s₁ s₂, (swapByCopies temp lhs rhs).foldlM State.exec s = some s₁ ∧
      s.exec (.swap lhs rhs) = some s₂ ∧ s₁.view = s₂.view := by
  have ho := owned_reachable h
  have htv : s.view temp = none := by
    rw [← Option.not_isSome_iff_eq_none, ho.isSome_view, ht]
    exact Bool.false_ne_true
  obtain ⟨hall, hfold⟩ := foldl_swapByCopies htv ((ho.isSome_view lhs).trans hl)
    ((ho.isSome_view rhs).trans hr)
  obtain ⟨s₁, hs₁, -, hview₁⟩ := ho.foldlM hall
  obtain ⟨s₂, hs₂, -, hview₂⟩ := ho.exec (.swap lhs rhs) ⟨hl, hr⟩
  exact ⟨s₁, s₂, hs₁, hs₂, by rw [hview₁, hfold, hview₂]⟩

theorem swap_copies_threeObjects : ∃ s : State Nat, (system Nat).Run threeObjects s ∧
    ∃ s₁ s₂, (swapByCopies 3 0 1).foldlM State.exec s = some s₁ ∧
      s.exec (.swap 0 1) = some s₂ ∧ s₁.view = s₂.view := by
  obtain ⟨s, hs, hview⟩ := exists_threeObjects
  have ho := owned_reachable ⟨_, hs⟩
  have hsome : ∀ this, (s.objects this).isSome =
      (threeObjects.foldl Values.exec (fun _ => none) this).isSome := by
    intro this
    rw [← hview, ho.isSome_view]
  have hfree : s.objects 3 = none := by
    rw [← Option.not_isSome_iff_eq_none, hsome 3]
    decide
  exact ⟨s, hs, swap_copies ⟨_, hs⟩ hfree ((hsome 0).trans rfl) ((hsome 1).trans rfl)⟩

end StudyDoc.ValueLike
