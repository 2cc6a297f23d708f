import StudyDoc.Lib.Bst
import StudyDoc.Lib.Strcmp
import Mathlib.Data.Prod.Lex
import Mathlib.Logic.Function.Basic

/-!
# `二叉树.md`: the comparisons of a search tree, and the search

Items are ordered by name, and by kind where the names are the same:

    toLeft a b   ↔  key a < key b                    (toLeft_iff)
    toRight a b  ↔  the kind of a is above b's       (toRight_iff)

`toRight` has the kinds in the place of the names, so it mirrors `toLeft` exactly where the names
are the same, or in the order of the kinds (toLeft_toRight_iff).

`seekItem` begins at a `look` that nothing was assigned to, and not at the root:

    look.child == NULL  →  look is returned          (seekItem_of_null)

so no tree and no item has the right result for every such `look` (seekItem_never_correct).  All
turns take the same branch (turn_eq), so from the root, too, only the root itself can be found
(seekItem_from_root).
-/

namespace StudyDoc.SearchTree

open CString Bst

/-! ## Algorithm -/

def SLEN : Nat := 20

/-- The string in a `char[SLEN]`, without its NUL. -/
structure Str where
  bytes : List UInt8
  nul_notMem : 0 ∉ bytes
  length_lt : bytes.length < SLEN
deriving DecidableEq

structure Item where
  petname : Str
  petkind : Str
deriving DecidableEq

def toLeft (p1 p2 : Item) : Bool :=
  let re1 := strcmp p1.petname.bytes p2.petname.bytes
  if re1 < 0 then true
  else if re1 = 0 ∧ strcmp p1.petkind.bytes p2.petkind.bytes < 0 then true
  else false

def toRight (p1 p2 : Item) : Bool :=
  let re1 := strcmp p1.petkind.bytes p2.petkind.bytes
  if re1 > 0 then true
  else if re1 = 0 ∧ strcmp p1.petkind.bytes p2.petkind.bytes > 0 then true
  else false

structure Trnode where
  left : Option Nat
  right : Option Nat
  value : Item

/-- A `pair`: `child` and `parent`. -/
abbrev Pair : Type := Place Nat

/-- What the code does: it reads through a null pointer, returns, or goes on in its loop. -/
inductive Outcome where
  | fault
  | ret (look : Pair)
  | next (look : Pair)

/-- `p->value`, if `p` is not null. -/
def valueAt (node : Nat → Trnode) (p : Option Nat) : Option Item := p.map fun a => (node a).value

/-- One turn of `while(look.child != NULL)`, the nodes at their addresses. -/
def turn (node : Nat → Trnode) (search_value : Item) (root : Option Nat) (look : Pair) : Outcome :=
  match look.child with
  | none => .ret look
  | some child =>
    match valueAt node (root.bind fun r => (node r).left) with
    | none => .fault
    | some value =>
      if toLeft search_value value then .next ⟨(node child).left, look.child⟩
      else
        match valueAt node (root.bind fun r => (node r).right) with
        | none => .fault
        | some value =>
          if toRight search_value value then .next ⟨(node child).right, look.child⟩
          else .ret look

/-- `n` turns at the most. -/
def walk (node : Nat → Trnode) (search_value : Item) (root : Option Nat) : Nat → Pair → Outcome
  | 0, look => .next look
  | n + 1, look =>
    match turn node search_value root look with
    | .next look => walk node search_value root n look
    | o => o

/-- The function, from what is in `look` at first. -/
def seekItem (node : Nat → Trnode) (search_value : Item) (root : Option Nat) (look : Pair)
    (n : Nat) : Outcome :=
  if look.child = none then .ret look else walk node search_value root n look

/-! ## The order of the items -/

namespace Str

variable (s t : Str)

theorem codes_eq_iff : codes s.bytes = codes t.bytes ↔ s = t := by
  rw [codes_injective.eq_iff, Str.mk.injEq]

theorem strcmp_neg_iff : strcmp s.bytes t.bytes < 0 ↔ codes s.bytes < codes t.bytes :=
  CString.strcmp_neg_iff s.nul_notMem t.nul_notMem

theorem strcmp_pos_iff : 0 < strcmp s.bytes t.bytes ↔ codes t.bytes < codes s.bytes :=
  CString.strcmp_pos_iff s.nul_notMem t.nul_notMem

theorem strcmp_eq_zero_iff : strcmp s.bytes t.bytes = 0 ↔ codes s.bytes = codes t.bytes := by
  rw [CString.strcmp_eq_zero_iff s.nul_notMem t.nul_notMem, codes_injective.eq_iff]

end Str

def key (a : Item) : List Nat ×ₗ List Nat := toLex (codes a.petname.bytes, codes a.petkind.bytes)

theorem key_injective : Function.Injective key := by
  intro a b h
  obtain ⟨hname, hkind⟩ := Prod.mk.inj (toLex.injective h)
  cases a with
  | mk name kind =>
    cases b with
    | mk name' kind' =>
      rw [Item.mk.injEq]
      exact ⟨(name.codes_eq_iff name').mp hname, (kind.codes_eq_iff kind').mp hkind⟩

theorem toLeft_iff (a b : Item) : toLeft a b = true ↔ key a < key b := by
  unfold toLeft key
  rw [Prod.Lex.toLex_lt_toLex]
  simp only [Str.strcmp_neg_iff, Str.strcmp_eq_zero_iff]
  by_cases h : codes a.petname.bytes < codes b.petname.bytes
  · simp [h]
  · simp [h]

theorem toRight_iff (a b : Item) :
    toRight a b = true ↔ codes b.petkind.bytes < codes a.petkind.bytes := by
  unfold toRight
  rw [← Str.strcmp_pos_iff]
  by_cases h : 0 < strcmp a.petkind.bytes b.petkind.bytes
  · simp [h]
  · simp [h]

theorem toLeft_strictTotalOrder : IsStrictTotalOrder Item fun a b => toLeft a b = true := by
  have h : (fun a b => toLeft a b = true) = Function.onFun (· < ·) key := by
    funext a b
    exact propext (toLeft_iff a b)
  rw [h]
  exact key_injective.isStrictTotalOrder_onFun (r := (· < ·))

/-! ## The two tests -/

def ExactlyOne (p q r : Prop) : Prop := (p ∧ ¬ q ∧ ¬ r) ∨ (¬ p ∧ q ∧ ¬ r) ∨ (¬ p ∧ ¬ q ∧ r)

/-- The two tests are mirror images of each other at `a` and `b`. -/
def Mirrored (a b : Item) : Prop :=
  ExactlyOne (toLeft a b = true) (toRight a b = true) (a = b) ∧
    (toRight a b = true ↔ toLeft b a = true)

theorem exactlyOne_toLeft (a b : Item) :
    ExactlyOne (toLeft a b = true) (toLeft b a = true) (a = b) := by
  rw [toLeft_iff, toLeft_iff, ← key_injective.eq_iff]
  rcases lt_trichotomy (key a) (key b) with h | h | h
  · exact Or.inl ⟨h, not_lt_of_gt h, ne_of_lt h⟩
  · exact Or.inr (Or.inr ⟨not_lt_of_ge (ge_of_eq h), not_lt_of_ge (le_of_eq h), h⟩)
  · exact Or.inr (Or.inl ⟨not_lt_of_gt h, h, ne_of_gt h⟩)

/-- The names are the same, or in the order of the kinds. -/
def SameOrder (a b : Item) : Prop :=
  a.petname = b.petname ∨
    (0 < strcmp a.petname.bytes b.petname.bytes ↔ 0 < strcmp a.petkind.bytes b.petkind.bytes)

theorem toRight_toLeft_iff (a b : Item) :
    (toRight a b = true ↔ toLeft b a = true) ↔ SameOrder a b := by
  have hname : codes b.petname.bytes = codes a.petname.bytes ↔ a.petname = b.petname := by
    rw [Str.codes_eq_iff]
    exact eq_comm
  rw [toRight_iff, toLeft_iff, key, key, Prod.Lex.toLex_lt_toLex, hname, SameOrder,
    Str.strcmp_pos_iff, Str.strcmp_pos_iff]
  by_cases heq : a.petname = b.petname
  · simp [heq]
  · simp only [heq, false_and, or_false, false_or]
    exact iff_comm

/-- **`toLeft` orders the items, and `toRight` mirrors it where names and kinds agree.** -/
theorem toLeft_toRight_iff (a b : Item) :
    (IsStrictTotalOrder Item fun a b => toLeft a b = true) ∧ (Mirrored a b ↔ SameOrder a b) := by
  refine ⟨toLeft_strictTotalOrder, ?_⟩
  rw [← toRight_toLeft_iff a b]
  constructor
  · exact fun h => h.2
  · intro h
    refine ⟨?_, h⟩
    rw [h]
    exact exactlyOne_toLeft a b

/-- A string of one byte. -/
def single (c : UInt8) (h : 0 ∉ [c]) : Str := ⟨[c], h, Nat.lt_of_sub_ne_zero (Nat.succ_ne_zero 18)⟩

theorem nul_notMem_a : (0 : UInt8) ∉ [97] := by decide

theorem nul_notMem_b : (0 : UInt8) ∉ [98] := by decide

/-- The item "a", "b", and the item "b", "a": each is on both sides of the other. -/
theorem not_mirrored :
    ¬ Mirrored ⟨single 97 nul_notMem_a, single 98 nul_notMem_b⟩
      ⟨single 98 nul_notMem_b, single 97 nul_notMem_a⟩ := by
  rintro ⟨-, h⟩
  exact absurd (h.mp (by decide)) (by decide)

/-! ## The search -/

/-- The nodes at `p` and below are those of the tree. -/
def Represents (node : Nat → Trnode) : Option Nat → Tree Nat Item → Prop
  | p, .nil => p = none
  | p, .node a l value r =>
    p = some a ∧ (node a).value = value ∧
      Represents node (node a).left l ∧ Represents node (node a).right r

/-- A tree in the memory, ordered by name and kind. -/
structure StoredTree where
  node : Nat → Trnode
  root : Option Nat
  tree : Tree Nat Item
  repr : Represents node root tree
  ordered : tree.Ordered key

namespace StoredTree

/-- Where the item is, or would go to. -/
def place (t : StoredTree) (item : Item) : Pair := t.tree.place key (key item) none

theorem place_child (t : StoredTree) (item : Item) {p : Nat}
    (h : (t.place item).child = some p) : t.tree.Mem p item := by
  obtain ⟨a, ha, heq⟩ := Tree.place_some h
  exact key_injective heq ▸ ha

theorem place_child_none_iff (t : StoredTree) (item : Item) :
    (t.place item).child = none ↔ ∀ p, ¬ t.tree.Mem p item := by
  rw [place, Tree.place_none_iff t.ordered]
  constructor
  · exact fun h p hp => h p item hp rfl
  · intro h p a ha heq
    exact h p (key_injective heq ▸ ha)

end StoredTree

/-- The search returns, with the place of the item. -/
def Correct (t : StoredTree) (item : Item) (look : Pair) : Prop :=
  ∃ n, seekItem t.node item t.root look n = .ret (t.place item)

/-- The branch that a turn takes. -/
inductive Branch where
  | fault
  | left
  | right
  | stay

def branch (node : Nat → Trnode) (item : Item) (root : Option Nat) : Branch :=
  match valueAt node (root.bind fun r => (node r).left) with
  | none => .fault
  | some value =>
    if toLeft item value then .left
    else
      match valueAt node (root.bind fun r => (node r).right) with
      | none => .fault
      | some value => if toRight item value then .right else .stay

variable {node : Nat → Trnode} {item : Item} {root : Option Nat}

/-- The branch is not chosen by the node the search has come to. -/
theorem turn_eq {look : Pair} {c : Nat} (h : look.child = some c) :
    turn node item root look =
      match branch node item root with
      | .fault => .fault
      | .left => .next ⟨(node c).left, some c⟩
      | .right => .next ⟨(node c).right, some c⟩
      | .stay => .ret look := by
  unfold turn branch
  rw [h]
  cases valueAt node (root.bind fun r => (node r).left) with
  | none => rfl
  | some value =>
    by_cases hleft : toLeft item value = true
    · simp [hleft]
    · cases valueAt node (root.bind fun r => (node r).right) with
      | none => simp [hleft]
      | some value' =>
        by_cases hright : toRight item value' = true
        · simp [hleft, hright]
        · simp [hleft, hright]

theorem seekItem_of_null {look : Pair} (h : look.child = none) (n : Nat) :
    seekItem node item root look n = .ret look := if_pos h

theorem walk_succ {look : Pair} {c : Nat} (h : look.child = some c) (n : Nat) :
    walk node item root (n + 1) look =
      match branch node item root with
      | .fault => .fault
      | .left => walk node item root n ⟨(node c).left, some c⟩
      | .right => walk node item root n ⟨(node c).right, some c⟩
      | .stay => .ret look := by
  rw [walk, turn_eq h]
  cases branch node item root <;> rfl

theorem walk_null {look : Pair} (h : look.child = none) (n : Nat) :
    walk node item root (n + 1) look = .ret look := by
  rw [walk, turn, h]

/-- A search that moves ends behind the last node of a path. -/
theorem walk_child (hmoves : branch node item root ≠ .stay) {n : Nat} {look look' : Pair}
    (h : walk node item root n look = .ret look') : look'.child = none := by
  induction n generalizing look with
  | zero => cases h
  | succ n ih =>
    cases hchild : look.child with
    | none =>
      rw [walk_null hchild] at h
      exact Outcome.ret.inj h ▸ hchild
    | some c =>
      rw [walk_succ hchild] at h
      cases hbranch : branch node item root with
      | fault =>
        rw [hbranch] at h
        cases h
      | left =>
        rw [hbranch] at h
        exact ih h
      | right =>
        rw [hbranch] at h
        exact ih h
      | stay => exact absurd hbranch hmoves

/-- From any node of a tree the loop comes to an end. -/
theorem walk_ends {p : Option Nat} {t : Tree Nat Item} (h : Represents node p t)
    (parent : Option Nat) : ∃ n, ∀ look, walk node item root n ⟨p, parent⟩ ≠ .next look := by
  induction t generalizing p parent with
  | nil =>
    have hp : p = none := h
    refine ⟨1, fun look => ?_⟩
    rw [walk_null hp]
    exact Outcome.noConfusion
  | node a l value r left right =>
    obtain ⟨rfl, -, hl, hr⟩ := h
    cases hbranch : branch node item root with
    | fault =>
      refine ⟨1, fun look => ?_⟩
      rw [walk_succ rfl, hbranch]
      exact Outcome.noConfusion
    | left =>
      obtain ⟨n, hn⟩ := left hl (some a)
      refine ⟨n + 1, fun look => ?_⟩
      rw [walk_succ rfl, hbranch]
      exact hn look
    | right =>
      obtain ⟨n, hn⟩ := right hr (some a)
      refine ⟨n + 1, fun look => ?_⟩
      rw [walk_succ rfl, hbranch]
      exact hn look
    | stay =>
      refine ⟨1, fun look => ?_⟩
      rw [walk_succ rfl, hbranch]
      exact Outcome.noConfusion

/-- Without a left child of the root, a null pointer is read through in the first turn. -/
theorem seekItem_fault {look : Pair} (hroot : (root.bind fun r => (node r).left) = none)
    (h : look.child ≠ none) (n : Nat) : seekItem node item root look (n + 1) = .fault := by
  obtain ⟨c, hc⟩ := Option.ne_none_iff_exists'.mp h
  have hbranch : branch node item root = .fault := by
    unfold branch
    rw [hroot]
    rfl
  rw [seekItem, if_neg h, walk_succ hc, hbranch]

/-- A search that begins at the root finds no item below it either. -/
theorem seekItem_from_root {n : Nat} {look : Pair}
    (h : seekItem node item root ⟨root, none⟩ n = .ret look) :
    look.child = none ∨ look.child = root := by
  cases root with
  | none => exact Or.inr (congrArg Place.child (Outcome.ret.inj h)).symm
  | some c =>
    replace h : walk node item (some c) n ⟨some c, none⟩ = .ret look := h
    by_cases hstay : branch node item (some c) = .stay
    · cases n with
      | zero => cases h
      | succ n =>
        rw [walk_succ rfl, hstay] at h
        exact Or.inr (congrArg Place.child (Outcome.ret.inj h)).symm
    · exact Or.inl (walk_child hstay h)

/-- **No search is right whatever is in `look`.** -/
theorem seekItem_never_correct (t : StoredTree) (item : Item) :
    ¬ ∀ look, Correct t item look := by
  intro h
  have hnull : ∀ parent, (⟨none, parent⟩ : Pair) = t.place item := by
    intro parent
    obtain ⟨n, hn⟩ := h ⟨none, parent⟩
    rw [seekItem_of_null rfl] at hn
    exact Outcome.ret.inj hn
  have hparent : (none : Option Nat) = some 0 :=
    congrArg Place.parent ((hnull none).trans (hnull (some 0)).symm)
  cases hparent

/-- A tree of one node. -/
def oneNode (item : Item) : StoredTree where
  node _ := ⟨none, none, item⟩
  root := some 0
  tree := .node 0 .nil item .nil
  repr := ⟨rfl, rfl, rfl, rfl⟩
  ordered := ⟨trivial, trivial, fun _ _ h => absurd h id, fun _ _ h => absurd h id⟩

/-- The item of the node is not found. -/
theorem oneNode_not_correct :
    ¬ Correct (oneNode ⟨single 97 nul_notMem_a, single 98 nul_notMem_b⟩)
      ⟨single 97 nul_notMem_a, single 98 nul_notMem_b⟩ ⟨none, none⟩ := by
  rintro ⟨n, hn⟩
  rw [seekItem_of_null rfl] at hn
  have hchild := congrArg Place.child (Outcome.ret.inj hn)
  have hmem := (StoredTree.place_child_none_iff _ _).mp hchild.symm 0
  exact hmem (Or.inr (Or.inl ⟨rfl, rfl⟩))

end StudyDoc.SearchTree
