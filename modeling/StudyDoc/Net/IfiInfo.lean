import StudyDoc.Lib.Leak
import StudyDoc.Net.IfConf

/-!
# `get_ifi_info` and `free_ifi_info`

`SIOCGIFCONF` leaves an array of `struct ifreq` in `buf`, through which the loop walks with
`ptr += sizeof(ifr->ifr_name) + len`; each record of the wanted family becomes a node of a list.

    the walk visits the k records ↔ k = 0, or k = 1, AF_INET6 and IPV6 is defined      (walks_iff)
    every block is freed exactly once ↔ no listed record has an ifi_dstaddr
                                                        (free_ifi_info_get_ifi_info_iff)

A step takes 32 bytes where a record has 40, and `free_ifi_info` leaves out `ifi_dstaddr`.
`calloc` finds memory.
-/

namespace StudyDoc.IfiInfo

open CStruct IfConf Leak

/-! ## Algorithm -/

def AF_INET : Nat := 2
def AF_INET6 : Nat := 10

def IFF_UP : UInt16 := 0x1
def IFF_BROADCAST : UInt16 := 0x2
def IFF_POINTOPOINT : UInt16 := 0x10

def IFI_ALIAS : Nat := 1
def IFI_NAME : Nat := 16
def IFNAMSIZ : Nat := 16

def sockaddr : List Member := [halfwords 1, bytes 14]

def sockaddr_in6 : List Member := [halfwords 1, halfwords 1, words 1, words 4, words 1]

/-- What is found at `ptr`, and the flags that `SIOCGIFFLAGS` stores for it. -/
structure Ifreq where
  ifr_name : List Char
  sa_family : Nat
  ifr_flags : UInt16

/-! ### The walk -/

/-- `len`; `ipv6` says whether `IPV6` is defined. -/
def sockaddrLen (ipv6 : Bool) (sa_family : Nat) : Nat :=
  if ipv6 = true ∧ sa_family = AF_INET6 then sizeof sockaddr_in6 else sizeof sockaddr

theorem sockaddrLen_pos (ipv6 : Bool) (sa_family : Nat) : 0 < sockaddrLen ipv6 sa_family := by
  unfold sockaddrLen
  split
  · decide
  · decide

/-- The values of `ptr - buf` at which a record is looked at. -/
def walk (ipv6 : Bool) (ifr : Nat → Ifreq) (ifc_len ptr : Nat) : List Nat :=
  if ptr < ifc_len then
    ptr :: walk ipv6 ifr ifc_len (ptr + (IFNAMSIZ + sockaddrLen ipv6 (ifr ptr).sa_family))
  else []
termination_by ifc_len - ptr
decreasing_by
  have := sockaddrLen_pos ipv6 (ifr ptr).sa_family
  omega

/-- Each of the `k` records once, in order, and nothing behind the last one. -/
def Walks (ipv6 : Bool) (ifr : Nat → Ifreq) (k : Nat) : Prop :=
  walk ipv6 ifr (k * sizeof ifreq) 0 = (List.range k).map (· * sizeof ifreq) ∧
    ∀ ptr ∈ walk ipv6 ifr (k * sizeof ifreq) 0, ptr + sizeof ifreq ≤ k * sizeof ifreq

/-! ### The list -/

/-- `struct ifi_info`, and the block it is in. -/
structure Ifi where
  ifi : Nat
  ifi_name : List Char
  ifi_flags : UInt16
  ifi_myflags : Nat
  ifi_addr : Option Nat
  ifi_brdaddr : Option Nat
  ifi_dstaddr : Option Nat

/-- The variables of the loop; `ifis` is the list from `ifihead` on. -/
structure Loop where
  heap : Heap
  lastname : List Char
  ifis : List Ifi

/-- `if (flags & flag) p = calloc(..)` -/
def callocIf (flags flag : UInt16) (heap : Heap) (p : Option Nat) : Heap × Option Nat :=
  if flags &&& flag ≠ 0 then (heap.malloc.1, some heap.malloc.2) else (heap, p)

/-- `switch (ifr->ifr_addr.sa_family)`: `ifi_addr` and `ifi_dstaddr`.  A broadcast address goes
into `ifi_dstaddr` too. -/
def addresses (ifr : Ifreq) (heap : Heap) : Heap × Option Nat × Option Nat :=
  if ifr.sa_family = AF_INET then
    let addr := heap.malloc
    let brd := callocIf ifr.ifr_flags IFF_BROADCAST addr.1 none
    let dst := callocIf ifr.ifr_flags IFF_POINTOPOINT brd.1 brd.2
    (dst.1, some addr.2, dst.2)
  else if ifr.sa_family = AF_INET6 then
    let addr := heap.malloc
    let dst := callocIf ifr.ifr_flags IFF_POINTOPOINT addr.1 none
    (dst.1, some addr.2, dst.2)
  else (heap, none, none)

/-- `strchr(ifr->ifr_name, ':')`, and the name ends there. -/
def cut (ifr_name : List Char) : List Char := (ifr_name.takeWhile (· ≠ ':')).take IFNAMSIZ

/-- The body of the loop behind the step. -/
def record (family : Nat) (doaliases : Int) (s : Loop) (ifr : Ifreq) : Loop :=
  if ifr.sa_family ≠ family then s
  else if s.lastname = cut ifr.ifr_name ∧ doaliases = 0 then s
  else if ifr.ifr_flags &&& IFF_UP = 0 then { s with lastname := cut ifr.ifr_name }
  else
    let ifi := s.heap.malloc
    let addr := addresses ifr ifi.1
    { heap := addr.1
      lastname := cut ifr.ifr_name
      ifis := s.ifis ++ [{
        ifi := ifi.2
        ifi_name := (cut ifr.ifr_name).take (IFI_NAME - 1)
        ifi_flags := ifr.ifr_flags
        ifi_myflags := if s.lastname = cut ifr.ifr_name then IFI_ALIAS else 0
        ifi_addr := addr.2.1
        ifi_brdaddr := none
        ifi_dstaddr := addr.2.2 }] }

/-- The buffers that were too small. -/
def sizing : Nat → Heap → Heap
  | 0, heap => heap
  | turns + 1, heap => sizing turns (heap.malloc.1.free heap.malloc.2)

/-- `turns` is the number of turns that did not end the first loop. -/
def get_ifi_info (ipv6 : Bool) (turns ifc_len : Nat) (ifr : Nat → Ifreq) (family : Nat)
    (doaliases : Int) : Heap × List Ifi :=
  let buf := (sizing turns Heap.empty).malloc
  let s := ((walk ipv6 ifr ifc_len 0).map ifr).foldl (record family doaliases) ⟨buf.1, [], []⟩
  (s.heap.free buf.2, s.ifis)

def freeIfSet (p : Option Nat) (heap : Heap) : Heap :=
  match p with
  | some b => heap.free b
  | none => heap

def free_ifi_info : List Ifi → Heap → Heap
  | [], heap => heap
  | ifi :: rest, heap =>
    free_ifi_info rest ((freeIfSet ifi.ifi_brdaddr (freeIfSet ifi.ifi_addr heap)).free ifi.ifi)

/-! ### Which records have an `ifi_dstaddr` -/

/-- The records that pass the checks of the loop, which become the nodes (ifis_foldl). -/
def listed (family : Nat) (doaliases : Int) : List Char → List Ifreq → List Ifreq
  | _, [] => []
  | lastname, ifr :: ifrs =>
    if ifr.sa_family ≠ family then listed family doaliases lastname ifrs
    else if lastname = cut ifr.ifr_name ∧ doaliases = 0 then listed family doaliases lastname ifrs
    else if ifr.ifr_flags &&& IFF_UP = 0 then listed family doaliases (cut ifr.ifr_name) ifrs
    else ifr :: listed family doaliases (cut ifr.ifr_name) ifrs

def HasDst (ifr : Ifreq) : Prop :=
  (ifr.sa_family = AF_INET ∧ ifr.ifr_flags &&& IFF_BROADCAST ≠ 0) ∨
  ((ifr.sa_family = AF_INET ∨ ifr.sa_family = AF_INET6) ∧ ifr.ifr_flags &&& IFF_POINTOPOINT ≠ 0)

instance (ifr : Ifreq) : Decidable (HasDst ifr) := inferInstanceAs (Decidable (_ ∨ _))

/-! ## Lemmas -/

/-! ### The walk -/

theorem sizeof_ifreq : sizeof ifreq = 40 := by decide

theorem walk_of_lt {ipv6 : Bool} {ifr : Nat → Ifreq} {ifc_len ptr : Nat} (h : ptr < ifc_len) :
    walk ipv6 ifr ifc_len ptr =
      ptr :: walk ipv6 ifr ifc_len (ptr + (IFNAMSIZ + sockaddrLen ipv6 (ifr ptr).sa_family)) := by
  rw [walk, if_pos h]

theorem walk_of_le {ipv6 : Bool} {ifr : Nat → Ifreq} {ifc_len ptr : Nat} (h : ifc_len ≤ ptr) :
    walk ipv6 ifr ifc_len ptr = [] := by
  rw [walk, if_neg (Nat.not_lt.mpr h)]

/-- A step goes to the next record of 40 bytes only if it goes behind the last one. -/
theorem sockaddrLen_cases (ipv6 : Bool) (sa_family : Nat) :
    (ipv6 = true ∧ sa_family = AF_INET6 ∧ IFNAMSIZ + sockaddrLen ipv6 sa_family = 44) ∨
    (¬ (ipv6 = true ∧ sa_family = AF_INET6) ∧ IFNAMSIZ + sockaddrLen ipv6 sa_family = 32) := by
  unfold sockaddrLen
  by_cases h : ipv6 = true ∧ sa_family = AF_INET6
  · rw [if_pos h]
    exact Or.inl ⟨h.1, h.2, rfl⟩
  · rw [if_neg h]
    exact Or.inr ⟨h, rfl⟩

theorem walk_ne_of_two {ipv6 : Bool} {ifr : Nat → Ifreq} {k : Nat} (hk : 2 ≤ k) :
    walk ipv6 ifr (k * sizeof ifreq) 0 ≠ (List.range k).map (· * sizeof ifreq) := by
  intro h
  have hlt : IFNAMSIZ + sockaddrLen ipv6 (ifr 0).sa_family < k * sizeof ifreq := by
    rw [sizeof_ifreq]
    rcases sockaddrLen_cases ipv6 (ifr 0).sa_family with ⟨-, -, hstep⟩ | ⟨-, hstep⟩
    · omega
    · omega
  obtain ⟨j, rfl⟩ : ∃ j, k = j + 1 + 1 := ⟨k - 2, by omega⟩
  -- the second place looked at, against the second record
  rw [walk_of_lt (by omega), Nat.zero_add, walk_of_lt hlt, List.range_succ_eq_map,
    List.range_succ_eq_map] at h
  simp only [List.map_cons, List.cons.injEq, Nat.succ_eq_add_one, Nat.zero_add, Nat.one_mul] at h
  have hsecond := h.2.1
  rw [sizeof_ifreq] at hsecond
  rcases sockaddrLen_cases ipv6 (ifr 0).sa_family with ⟨-, -, hstep⟩ | ⟨-, hstep⟩
  · omega
  · omega

theorem walks_one_iff {ipv6 : Bool} {ifr : Nat → Ifreq} :
    Walks ipv6 ifr 1 ↔ ipv6 = true ∧ (ifr 0).sa_family = AF_INET6 := by
  unfold Walks
  rw [sizeof_ifreq, walk_of_lt (by omega), Nat.zero_add]
  rcases sockaddrLen_cases ipv6 (ifr 0).sa_family with ⟨hipv6, hfam, hstep⟩ | ⟨hne, hstep⟩
  · rw [hstep, walk_of_le (by omega)]
    simp [hipv6, hfam]
  · rw [hstep, walk_of_lt (by omega)]
    simp [hne]

/-! ### Blocks -/

/-- The blocks of a node that `free_ifi_info` gives back. -/
def Ifi.owned (ifi : Ifi) : List Nat :=
  ifi.ifi_addr.toList ++ (ifi.ifi_brdaddr.toList ++ [ifi.ifi])

variable {heap : Heap} {held lost : List Nat}

theorem owns_callocIf (h : heap.Owns held) (flags flag : UInt16) (p : Option Nat) :
    ∃ new, (callocIf flags flag heap p).1.Owns (new ++ held) ∧
      (new = [] ↔ flags &&& flag = 0) := by
  unfold callocIf
  by_cases hset : flags &&& flag ≠ 0
  · rw [if_pos hset]
    exact ⟨[heap.malloc.2], h.malloc, by simp [hset]⟩
  · rw [if_neg hset]
    exact ⟨[], h, by simp [not_not.mp hset]⟩

/-- What `ifi_dstaddr` was set to is lost, each time. -/
theorem owns_addresses (h : heap.Owns held) (ifr : Ifreq) :
    ∃ new, (addresses ifr heap).1.Owns (new ++ ((addresses ifr heap).2.1.toList ++ held)) ∧
      (new = [] ↔ ¬ HasDst ifr) := by
  unfold addresses HasDst
  by_cases hin : ifr.sa_family = AF_INET
  · rw [if_pos hin]
    obtain ⟨brd, hbrd, hbrd0⟩ := owns_callocIf h.malloc ifr.ifr_flags IFF_BROADCAST none
    obtain ⟨dst, hdst, hdst0⟩ := owns_callocIf hbrd ifr.ifr_flags IFF_POINTOPOINT
      (callocIf ifr.ifr_flags IFF_BROADCAST heap.malloc.1 none).2
    refine ⟨dst ++ brd, ?_, ?_⟩
    · rw [List.append_assoc]
      exact hdst
    · rw [List.append_eq_nil_iff, hdst0, hbrd0]
      simp [hin, and_comm]
  · rw [if_neg hin]
    by_cases hin6 : ifr.sa_family = AF_INET6
    · rw [if_pos hin6]
      obtain ⟨dst, hdst, hdst0⟩ := owns_callocIf h.malloc ifr.ifr_flags IFF_POINTOPOINT none
      have hne : AF_INET6 ≠ AF_INET := by decide
      exact ⟨dst, hdst, by rw [hdst0]; simp [hin6, hne]⟩
    · rw [if_neg hin6]
      exact ⟨[], h, by simp [hin, hin6]⟩

/-- During the loop: the list, what was lost, and the rest. -/
def Kept (s : Loop) (lost held : List Nat) : Prop :=
  s.heap.Owns (lost ++ (s.ifis.flatMap Ifi.owned ++ held))

theorem listed_cons (family : Nat) (doaliases : Int) (lastname : List Char) (ifr : Ifreq)
    (ifrs : List Ifreq) : listed family doaliases lastname (ifr :: ifrs) =
      if ifr.sa_family ≠ family then listed family doaliases lastname ifrs
      else if lastname = cut ifr.ifr_name ∧ doaliases = 0 then
        listed family doaliases lastname ifrs
      else if ifr.ifr_flags &&& IFF_UP = 0 then listed family doaliases (cut ifr.ifr_name) ifrs
      else ifr :: listed family doaliases (cut ifr.ifr_name) ifrs := rfl

theorem kept_record (family : Nat) (doaliases : Int) {s : Loop} (h : Kept s lost held)
    (ifr : Ifreq) (ifrs : List Ifreq) :
    ∃ new, Kept (record family doaliases s ifr) (new ++ lost) held ∧
      ((∀ r ∈ listed family doaliases s.lastname (ifr :: ifrs), ¬ HasDst r) ↔ new = [] ∧
        ∀ r ∈ listed family doaliases (record family doaliases s ifr).lastname ifrs, ¬ HasDst r) := by
  rw [listed_cons]
  unfold record
  by_cases hfam : ifr.sa_family ≠ family
  · rw [if_pos hfam, if_pos hfam]
    exact ⟨[], h, by simp⟩
  rw [if_neg hfam, if_neg hfam]
  by_cases halias : s.lastname = cut ifr.ifr_name ∧ doaliases = 0
  · rw [if_pos halias, if_pos halias]
    exact ⟨[], h, by simp⟩
  rw [if_neg halias, if_neg halias]
  by_cases hup : ifr.ifr_flags &&& IFF_UP = 0
  · rw [if_pos hup, if_pos hup]
    exact ⟨[], h, by simp⟩
  rw [if_neg hup, if_neg hup]
  obtain ⟨new, hnew, hnew0⟩ := owns_addresses (Heap.Owns.malloc h) ifr
  refine ⟨new, hnew.perm ?_, by rw [List.forall_mem_cons, hnew0]⟩
  refine List.perm_iff_count.mpr fun b => ?_
  simp only [List.flatMap_append, List.flatMap_singleton, Ifi.owned, Option.toList_none,
    List.nil_append, List.count_append, List.count_cons, List.count_nil]
  omega

theorem kept_foldl (family : Nat) (doaliases : Int) (ifrs : List Ifreq) {s : Loop}
    (h : Kept s lost held) :
    ∃ new, Kept (ifrs.foldl (record family doaliases) s) (new ++ lost) held ∧
      (new = [] ↔ ∀ r ∈ listed family doaliases s.lastname ifrs, ¬ HasDst r) := by
  induction ifrs generalizing s lost with
  | nil => exact ⟨[], h, by simp [listed]⟩
  | cons ifr ifrs ih =>
    obtain ⟨new, hnew, hnew0⟩ := kept_record family doaliases h ifr ifrs
    obtain ⟨rest, hrest, hrest0⟩ := ih hnew
    refine ⟨rest ++ new, by rw [List.append_assoc]; exact hrest, ?_⟩
    rw [List.append_eq_nil_iff, hrest0, hnew0, and_comm]

/-- The list has a node for each listed record, in their order. -/
theorem ifis_foldl (family : Nat) (doaliases : Int) (ifrs : List Ifreq) (s : Loop) :
    (ifrs.foldl (record family doaliases) s).ifis.map Ifi.ifi_flags =
      s.ifis.map Ifi.ifi_flags ++
        (listed family doaliases s.lastname ifrs).map Ifreq.ifr_flags := by
  induction ifrs generalizing s with
  | nil => simp [listed]
  | cons ifr ifrs ih =>
    rw [List.foldl_cons, ih, listed_cons]
    unfold record
    by_cases hfam : ifr.sa_family ≠ family
    · rw [if_pos hfam, if_pos hfam]
    rw [if_neg hfam, if_neg hfam]
    by_cases halias : s.lastname = cut ifr.ifr_name ∧ doaliases = 0
    · rw [if_pos halias, if_pos halias]
    rw [if_neg halias, if_neg halias]
    by_cases hup : ifr.ifr_flags &&& IFF_UP = 0
    · rw [if_pos hup, if_pos hup]
    · rw [if_neg hup, if_neg hup]
      simp

theorem owns_sizing (turns : Nat) (h : heap.Owns held) : (sizing turns heap).Owns held := by
  induction turns generalizing heap with
  | zero => exact h
  | succ turns ih => exact ih h.malloc.free

theorem owns_freeIfSet {p : Option Nat} (h : heap.Owns (p.toList ++ held)) :
    (freeIfSet p heap).Owns held := by
  cases p with
  | none => exact h
  | some b => exact h.free

theorem owns_free_ifi_info (ifis : List Ifi) (h : heap.Owns (ifis.flatMap Ifi.owned ++ held)) :
    (free_ifi_info ifis heap).Owns held := by
  induction ifis generalizing heap with
  | nil => exact h
  | cons ifi rest ih =>
    rw [List.flatMap_cons, Ifi.owned, List.append_assoc, List.append_assoc, List.append_assoc] at h
    exact ih (owns_freeIfSet (owns_freeIfSet h)).free

/-! ## Main results -/

theorem walks_iff (ipv6 : Bool) (ifr : Nat → Ifreq) (k : Nat) : Walks ipv6 ifr k ↔
    k = 0 ∨ (k = 1 ∧ ipv6 = true ∧ (ifr 0).sa_family = AF_INET6) := by
  rcases Nat.lt_or_ge k 2 with hlt | hge
  · obtain rfl | rfl : k = 0 ∨ k = 1 := by omega
    · simp [Walks, walk_of_le]
    · simp [walks_one_iff]
  · constructor
    · rintro ⟨hwalk, -⟩
      exact absurd hwalk (walk_ne_of_two hge)
    · omega

/-- One record: another one is looked at 8 bytes before its end. -/
theorem not_walks : ¬ Walks false (fun _ => ⟨"lo".toList, AF_INET, IFF_UP⟩) 1 := by
  rw [walks_one_iff]
  decide

theorem free_ifi_info_get_ifi_info_iff (ipv6 : Bool) (turns ifc_len : Nat) (ifr : Nat → Ifreq)
    (family : Nat) (doaliases : Int) :
    (free_ifi_info (get_ifi_info ipv6 turns ifc_len ifr family doaliases).2
      (get_ifi_info ipv6 turns ifc_len ifr family doaliases).1).FreedOnce ↔
    ∀ r ∈ listed family doaliases [] ((walk ipv6 ifr ifc_len 0).map ifr), ¬ HasDst r := by
  have hbuf := (owns_sizing turns Heap.owns_empty).malloc
  have hstart : Kept ⟨(sizing turns Heap.empty).malloc.1, [], []⟩ []
    [(sizing turns Heap.empty).malloc.2] := hbuf
  obtain ⟨lost, hkept, hlost⟩ := kept_foldl family doaliases
    ((walk ipv6 ifr ifc_len 0).map ifr) hstart
  rw [← hlost]
  unfold get_ifi_info
  refine Heap.Owns.freedOnce_iff (owns_free_ifi_info _ (Heap.Owns.free (Heap.Owns.perm hkept ?_)))
  refine List.perm_iff_count.mpr fun b => ?_
  simp only [List.append_nil, List.count_append, List.count_cons, List.count_nil]
  omega

/-- `ifconfig` of one Ethernet card. -/
def eth0 (ptr : Nat) : Ifreq :=
  if ptr = 0 then ⟨"eth0".toList, AF_INET, IFF_UP ||| IFF_BROADCAST⟩ else ⟨[], 0, 0⟩

theorem walk_eth0 : walk false eth0 40 0 = [0, 32] := by
  rw [walk_of_lt (by omega)]
  show 0 :: walk false eth0 40 32 = [0, 32]
  rw [walk_of_lt (by omega)]
  show [0, 32] ++ walk false eth0 40 64 = [0, 32]
  rw [walk_of_le (by omega), List.append_nil]

/-- The block of the broadcast address, the fifth one, is not given back. -/
theorem not_freedOnce :
    ¬ (free_ifi_info (get_ifi_info false 1 40 eth0 AF_INET 0).2
      (get_ifi_info false 1 40 eth0 AF_INET 0).1).FreedOnce := by
  intro h
  have hdst := h 4
  unfold get_ifi_info at hdst
  rw [walk_eth0] at hdst
  revert hdst
  decide

end StudyDoc.IfiInfo
