import StudyDoc.Lib.Lines
import StudyDoc.Net.MyRead

/-!
# `common.h` and the notes on thread-specific data: `readline`

One loop over a source of bytes: `read(fd, &c, 1)` in `common.h`, `my_read` and its `Rline` in the
notes.  Either source still holds some stream `t`; a call takes a piece off its front.

    stored = takePiece newline (maxlen - 1) t                            (loop_spec)
    until a call returns 0: the stored strings = pieces of the stream    (readline_pieces)
    int n = size_t n for every piece                                     (readline_agree_iff)
    a result >= 0 is the number of bytes stored ↔ not stopped by maxlen  (readline_counted_iff)
-/

namespace StudyDoc.Readline

open Lines MyRead

/-! ## Algorithm -/

/-- What a call returns, before the conversion to its return type (`none`: it read through a bad
pointer), the bytes it stored before the NUL, and the source afterwards. -/
structure Line (σ : Type) where
  ret : Option Int
  stored : List UInt8
  state : σ

def newline (c : UInt8) : Bool := c == 10

section

variable {σ : Type} (next : σ → Got × σ)

/-- `for(n = 1; n < maxlen; n++)`, from `n` on with `m` rounds to go.  `n` counts bytes stored in
memory, so it stays within `ssize_t`. -/
def loop : Nat → Int → List UInt8 → σ → Line σ
  | 0, n, stored, state => ⟨some n, stored, state⟩
  | m + 1, n, stored, state =>
    match next state with
    | (.byte c, state) =>
      if newline c then ⟨some n, stored ++ [c], state⟩
      else loop m (n + 1) (stored ++ [c]) state
    | (.eof, state) => ⟨some (n - 1), stored, state⟩
    | (.error, state) => ⟨some (-1), stored, state⟩
    | (.undefined, state) => ⟨none, stored, state⟩

def readlineWith (maxlen : UInt64) (state : σ) : Line σ := loop next (maxlen.toNat - 1) 1 [] state

/-- The first `k` calls: what each returned and stored. -/
def lines (readline : σ → Line σ) : Nat → σ → List (Option Int × List UInt8)
  | 0, _ => []
  | k + 1, state =>
    let line := readline state
    (line.ret, line.stored) :: lines readline k line.state

/-- Calls until one returns 0: what the calls before it stored, and what it stored itself. -/
def readAll (readline : σ → Line σ) : Nat → σ → Option (List (List UInt8) × List UInt8)
  | 0, _ => none
  | fuel + 1, state =>
    let line := readline state
    if line.ret = some 0 then some ([], line.stored)
    else
      (readAll readline fuel line.state).map fun (strings, last) => (line.stored :: strings, last)

end

def INT_MAX : Int := 2147483647

/-- The conversion of an `ssize_t` to `int`. -/
def toInt (n : Int) : Int := n.bmod 4294967296

/-- The conversion of an `ssize_t` to `size_t`. -/
def toSize (n : Int) : Int := n % 18446744073709551616

/-- `result = read(fileFd,&c,1)` and the tests on `result`, from the label `again` on. -/
def readByte : List (Read 1) → Got × List (Read 1)
  | [] => (.eof, [])
  | .data bytes pos _ :: rest => (.byte bytes[0], rest)
  | .eof :: rest => (.eof, rest)
  | .fail e :: rest => if e = EINTR then readByte rest else (.error, rest)

/-- `int readline` of `common.h`. -/
def readline (maxlen : UInt64) (rs : List (Read 1)) : Line (List (Read 1)) :=
  let line := readlineWith readByte maxlen rs
  { line with ret := line.ret.map toInt }

namespace Notes

/-- `my_read((Rline*)tsd, fd, &c)` -/
def nextByte : Rline Notes.MAXLINE × List (Read Notes.MAXLINE) →
    Got × Rline Notes.MAXLINE × List (Read Notes.MAXLINE) :=
  fun (tsd, rs) =>
    let call := Notes.myRead tsd rs
    (call.got, call.tsd, call.rest)

/-- `size_t readline` of the notes. -/
def readline (maxlen : UInt64) (state : Rline Notes.MAXLINE × List (Read Notes.MAXLINE)) :
    Line (Rline Notes.MAXLINE × List (Read Notes.MAXLINE)) :=
  let line := readlineWith nextByte maxlen state
  { line with ret := line.ret.map toSize }

end Notes

/-! ## A source of bytes -/

section

variable {σ : Type} {next : σ → Got × σ}

/-- `Hold state t`: the stream `t` is still to come.  A step takes its first byte. -/
def Source (next : σ → Got × σ) (Hold : σ → List UInt8 → Prop) : Prop :=
  ∀ state t, Hold state t → (next state).1 = Got.ofStream t ∧ Hold (next state).2 t.tail

theorem readByte_source : Source readByte Feed := by
  intro rs t h
  induction h with
  | nil => exact ⟨rfl, .nil⟩
  | eof h _ => exact ⟨rfl, h⟩
  | intr _ ih => exact ih
  | @data rs s bytes pos le h _ =>
    obtain ⟨c, rfl⟩ := List.length_eq_one_iff.mp (Nat.le_antisymm le pos)
    exact ⟨rfl, h⟩

theorem nextByte_source :
    Source Notes.nextByte (fun state t => Holds state.1 state.2 t) := by
  intro state t h
  exact Notes.myRead_next h

/-- No line end within the `m` bytes that are the limit. -/
def capped (m : Nat) (x : List UInt8) : Bool := x.length == m && !x.getLast?.any newline

/-- What `readline` returns for the piece `x`: one more than its length at the limit. -/
def retOf (m : Nat) (x : List UInt8) : Nat := x.length + (capped m x).toNat

theorem capped_cons {c : UInt8} (hc : newline c = false) (m : Nat) (x : List UInt8) :
    capped (m + 1) (c :: x) = capped m x := by
  unfold capped
  rw [List.getLast?_cons]
  cases hx : x.getLast? with
  | none => simp [hc]
  | some b => simp

theorem retOf_cons {c : UInt8} (hc : newline c = false) (m : Nat) (x : List UInt8) :
    retOf (m + 1) (c :: x) = retOf m x + 1 := by
  unfold retOf
  rw [capped_cons hc, List.length_cons]
  omega

theorem loop_spec {Hold : σ → List UInt8 → Prop} (hs : Source next Hold) (m : Nat) :
    ∀ (n : Int) (stored : List UInt8) (state : σ) (t : List UInt8), Hold state t →
      (loop next m n stored state).ret = some (n - 1 + retOf m (takePiece newline m t)) ∧
      (loop next m n stored state).stored = stored ++ takePiece newline m t ∧
      Hold (loop next m n stored state).state (dropPiece newline m t) := by
  induction m with
  | zero =>
    intro n stored state t h
    refine ⟨?_, by simp [loop], by simpa [loop, dropPiece] using h⟩
    simp [loop, retOf, capped]
  | succ m ih =>
    intro n stored state t h
    obtain ⟨hgot, hhold⟩ := hs state t h
    generalize hnext : next state = r at hgot hhold
    obtain ⟨got, state'⟩ := r
    dsimp only at hgot hhold
    cases t with
    | nil =>
      obtain rfl : got = .eof := hgot
      unfold loop
      rw [hnext]
      exact ⟨by simp [retOf, capped], by simp, by simpa [dropPiece] using hhold⟩
    | cons c t =>
      obtain rfl : got = .byte c := hgot
      unfold loop
      rw [hnext]
      dsimp only
      cases hc : newline c with
      | true =>
        rw [takePiece_last newline hc, if_pos rfl]
        refine ⟨?_, rfl, by simpa [dropPiece, takePiece_last newline hc] using hhold⟩
        simp [retOf, capped, hc]
      | false =>
        obtain ⟨hret, hstored, hrest⟩ := ih (n + 1) (stored ++ [c]) state' t hhold
        rw [takePiece_cons newline hc, if_neg (by decide), retOf_cons hc]
        refine ⟨?_, ?_, by simpa [dropPiece, takePiece_cons newline hc] using hrest⟩
        · rw [hret]
          congr 1
          push_cast
          omega
        · rw [hstored, List.append_assoc]
          rfl

end

/-- A `readline` that takes pieces off its source and returns `conv n`. -/
def Cuts {σ : Type} (readline : σ → Line σ) (conv : Int → Int) (m : Nat)
    (Hold : σ → List UInt8 → Prop) : Prop :=
  ∀ state t, Hold state t →
    (readline state).ret = some (conv (retOf m (takePiece newline m t))) ∧
    (readline state).stored = takePiece newline m t ∧
    Hold (readline state).state (dropPiece newline m t)

theorem readline_cuts (maxlen : UInt64) :
    Cuts (readline maxlen) toInt (maxlen.toNat - 1) Feed := by
  intro rs t h
  obtain ⟨hret, hstored, hrest⟩ := loop_spec readByte_source (maxlen.toNat - 1) 1 [] rs t h
  refine ⟨?_, hstored, hrest⟩
  unfold readline readlineWith
  simp [hret]

theorem Notes.readline_cuts (maxlen : UInt64) :
    Cuts (Notes.readline maxlen) id (maxlen.toNat - 1)
      (fun state t => Holds state.1 state.2 t) := by
  intro state t h
  obtain ⟨hret, hstored, hrest⟩ := loop_spec nextByte_source (maxlen.toNat - 1) 1 [] state t h
  refine ⟨?_, hstored, hrest⟩
  have hle := takePiece_length_le newline (maxlen.toNat - 1) t
  have hsize := maxlen.toNat_lt
  have hone := Bool.toNat_le (capped (maxlen.toNat - 1) (takePiece newline (maxlen.toNat - 1) t))
  unfold readline readlineWith
  simp only [hret, Option.map_some, id_eq]
  congr 1
  unfold toSize retOf
  omega

/-! ## Calling until 0 -/

/-- A read of one byte, whatever the limit. -/
def oneByte {cap : Nat} (hcap : 0 < cap) (c : UInt8) : Read cap := .data [c] Nat.one_pos hcap

theorem feed_oneByte {cap : Nat} (hcap : 0 < cap) (c : UInt8) {rs : List (Read cap)}
    {s : List UInt8} (h : Feed rs s) : Feed (oneByte hcap c :: rs) (c :: s) := .data _ _ h

theorem retOf_pos {m : Nat} {x : List UInt8} (h : x ≠ []) : 0 < retOf m x :=
  Nat.lt_of_lt_of_le (List.length_pos_of_ne_nil h) (Nat.le_add_right _ _)

theorem retOf_le {m : Nat} {x : List UInt8} (h : x.length ≤ m) : retOf m x ≤ m + 1 :=
  Nat.add_le_add h (Bool.toNat_le _)

theorem toInt_eq_self_iff (n : Nat) : toInt n = n ↔ (n : Int) ≤ INT_MAX := by
  unfold toInt INT_MAX
  constructor
  · intro h
    have hlt := Int.bmod_lt (x := n) (m := 4294967296) (by decide)
    rw [h] at hlt
    omega
  · intro h
    apply Int.bmod_eq_of_le <;> omega

theorem readAll_pieces {maxlen : UInt64} (h2 : 2 ≤ maxlen.toNat)
    (hmax : (maxlen.toNat : Int) ≤ INT_MAX) (s : List UInt8) :
    ∀ (rs : List (Read 1)) (fuel : Nat), Feed rs s → s.length < fuel →
      readAll (readline maxlen) fuel rs =
        some (pieces newline (maxlen.toNat - 1) s, []) := by
  induction s using pieces_induction newline (m := maxlen.toNat - 1) with
  | hnil s hs =>
    intro rs fuel h hfuel
    obtain ⟨fuel, rfl⟩ := Nat.exists_eq_succ_of_ne_zero (Nat.ne_of_gt (Nat.zero_lt_of_lt hfuel))
    obtain ⟨hret, hstored, -⟩ := readline_cuts maxlen rs s h
    have hcapped : capped (maxlen.toNat - 1) ([] : List UInt8) = false := by
      unfold capped
      simp
      omega
    have hzero : (readline maxlen rs).ret = some 0 := by
      rw [hret, hs]
      unfold retOf
      rw [hcapped]
      rfl
    unfold readAll
    rw [pieces_eq_nil newline hs]
    simp only [hzero, if_true, hstored, hs]
  | hcons s hs ih =>
    intro rs fuel h hfuel
    obtain ⟨fuel, rfl⟩ := Nat.exists_eq_succ_of_ne_zero (Nat.ne_of_gt (Nat.zero_lt_of_lt hfuel))
    obtain ⟨hret, hstored, hrest⟩ := readline_cuts maxlen rs s h
    have hlt := dropPiece_length_lt newline (maxlen.toNat - 1) s hs
    have hle := retOf_le (takePiece_length_le newline (maxlen.toNat - 1) s)
    have hpos := retOf_pos (m := maxlen.toNat - 1) hs
    have hne : (readline maxlen rs).ret ≠ some 0 := by
      have hsame := (toInt_eq_self_iff
        (retOf (maxlen.toNat - 1) (takePiece newline (maxlen.toNat - 1) s))).mpr (by omega)
      rw [hret, hsame]
      intro hz
      have := Option.some.inj hz
      omega
    unfold readAll
    rw [pieces_cons newline hs]
    simp only [if_neg hne, hstored, ih _ fuel hrest (by omega), Option.map_some]

/-- **Lines of a file.**  Calling `readline` until it returns 0 comes to an end.  The strings stored
before are the file, each at most `maxlen - 1` bytes with a newline only at its end, and all but
the last end in one or have `maxlen - 1` bytes; the call that returns 0 stores none. -/
theorem readline_pieces (maxlen : UInt64) (h2 : 2 ≤ maxlen.toNat)
    (hmax : (maxlen.toNat : Int) ≤ INT_MAX) (rs : List (Read 1)) (s : List UInt8)
    (h : Feed rs s) :
    ∃ strings, (∀ fuel, s.length < fuel → readAll (readline maxlen) fuel rs = some (strings, [])) ∧
      strings.flatten = s ∧
      (∀ x ∈ strings, x.length ≤ maxlen.toNat - 1 ∧ ∀ c ∈ x.dropLast, newline c = false) ∧
      (∀ x ∈ strings.dropLast, x.getLast?.any newline = true ∨ x.length = maxlen.toNat - 1) := by
  refine ⟨pieces newline (maxlen.toNat - 1) s, fun fuel hfuel => ?_, ?_, fun x hx => ⟨?_, ?_⟩, ?_⟩
  · exact readAll_pieces h2 hmax s rs fuel h hfuel
  · exact flatten_pieces newline (by omega) s
  · exact length_le_of_mem_pieces newline s x hx
  · exact inner_of_mem_pieces newline s x hx
  · exact full_of_mem_pieces newline s

/-- Two lines, an interrupted read, strings of at most three bytes. -/
theorem readline_pieces_twoLines : ∃ strings,
    (∀ fuel, 3 < fuel → readAll (readline 4) fuel
      [oneByte Nat.one_pos 97, .fail EINTR, oneByte Nat.one_pos 10, oneByte Nat.one_pos 98] =
        some (strings, [])) ∧
    strings.flatten = [97, 10, 98] := by
  have h := feed_oneByte Nat.one_pos 98 .nil
  have h := feed_oneByte Nat.one_pos 97 (.intr (feed_oneByte Nat.one_pos 10 h))
  obtain ⟨strings, hall, hflat, -, -⟩ := readline_pieces 4 (by decide) (by decide) _ _ h
  exact ⟨strings, hall, hflat⟩

/-! ## The two versions -/

/-- What calls that cut up `t` return and store. -/
def expected (conv : Int → Int) (m : Nat) : Nat → List UInt8 → List (Option Int × List UInt8)
  | 0, _ => []
  | k + 1, t =>
    (some (conv (retOf m (takePiece newline m t))), takePiece newline m t) ::
      expected conv m k (dropPiece newline m t)

theorem lines_eq_expected {σ : Type} {readline : σ → Line σ} {conv : Int → Int} {m : Nat}
    {Hold : σ → List UInt8 → Prop} (hc : Cuts readline conv m Hold) (k : Nat) :
    ∀ state t, Hold state t → lines readline k state = expected conv m k t := by
  induction k with
  | zero => exact fun _ _ _ => rfl
  | succ k ih =>
    intro state t h
    obtain ⟨hret, hstored, hrest⟩ := hc state t h
    show ((readline state).ret, (readline state).stored) ::
      lines readline k (readline state).state = _
    rw [ih _ _ hrest, hret, hstored]
    rfl

/-- An `int` holds the length of every piece, with the one added at the limit. -/
def Short (maxlen : UInt64) (s : List UInt8) : Prop :=
  ∀ x ∈ pieces newline (maxlen.toNat - 1) s, (x.length : Int) ≤ INT_MAX ∧
    (x.length = maxlen.toNat - 1 → (x.length : Int) = INT_MAX → x.getLast?.any newline = true)

theorem retOf_le_INT_MAX_iff {m : Nat} {x : List UInt8} :
    (retOf m x : Int) ≤ INT_MAX ↔ (x.length : Int) ≤ INT_MAX ∧
      (x.length = m → (x.length : Int) = INT_MAX → x.getLast?.any newline = true) := by
  unfold retOf capped
  by_cases hm : x.length = m
  · cases hn : x.getLast?.any newline with
    | true => simp
    | false =>
      simp only [hm, beq_self_eq_true, Bool.not_false, Bool.and_self, Bool.toNat_true]
      push_cast
      constructor
      · intro h
        exact ⟨by omega, by omega⟩
      · rintro ⟨hle, hne⟩
        have : (m : Int) ≠ INT_MAX := fun h => by cases hne trivial h
        omega
  · have hbeq : (x.length == m) = false := by simpa using hm
    simp [hm, hbeq]

theorem expected_agree_iff (m : Nat) (t : List UInt8) :
    (∀ k, expected toInt m k t = expected id m k t) ↔
      ∀ x ∈ pieces newline m t, (retOf m x : Int) ≤ INT_MAX := by
  induction t using pieces_induction newline (m := m) with
  | hnil t h =>
    rw [pieces_eq_nil newline h]
    refine iff_of_true (fun k => ?_) (by simp)
    have hsame : dropPiece newline m t = t := by simp [dropPiece, h]
    have hconv : toInt (retOf m ([] : List UInt8)) = retOf m ([] : List UInt8) := by
      apply (toInt_eq_self_iff _).mpr
      have := Bool.toNat_le (capped m ([] : List UInt8))
      unfold retOf INT_MAX
      rw [List.length_nil]
      omega
    induction k with
    | zero => rfl
    | succ k ih =>
      unfold expected
      rw [h, hsame, hconv, ih]
      rfl
  | hcons t h ih =>
    rw [pieces_cons newline h, List.forall_mem_cons, ← ih]
    constructor
    · intro hall
      constructor
      · have hone := (List.cons.inj (hall 1)).1
        have hret := Option.some.inj (congrArg Prod.fst hone)
        exact (toInt_eq_self_iff _).mp hret
      · intro k
        exact (List.cons.inj (hall (k + 1))).2
    · rintro ⟨hfirst, hrest⟩ k
      cases k with
      | zero => rfl
      | succ k =>
        unfold expected
        rw [hrest k, (toInt_eq_self_iff _).mpr hfirst]
        rfl

/-- **Buffered and unbuffered.**  The calls of the two versions return and store the same, however
the stream is cut up for either, exactly if an `int` can hold the length of every piece. -/
theorem readline_agree_iff (maxlen : UInt64) (s : List UInt8) (rs : List (Read 1))
    (rs' : List (Read Notes.MAXLINE)) (h : Feed rs s) (h' : Feed rs' s) :
    (∀ k, lines (Notes.readline maxlen) k (.zero, rs') = lines (readline maxlen) k rs) ↔
      Short maxlen s := by
  have hunbuffered := fun k => lines_eq_expected (readline_cuts maxlen) k rs s h
  have hbuffered := fun k =>
    lines_eq_expected (Notes.readline_cuts maxlen) k (.zero, rs') s (holds_zero h')
  have hshort : Short maxlen s ↔
      ∀ x ∈ pieces newline (maxlen.toNat - 1) s, (retOf (maxlen.toNat - 1) x : Int) ≤ INT_MAX :=
    forall₂_congr fun x _ => retOf_le_INT_MAX_iff.symm
  rw [hshort, ← expected_agree_iff]
  refine forall_congr' fun k => ?_
  rw [hunbuffered k, hbuffered k]
  exact eq_comm

theorem short_of_maxlen {maxlen : UInt64} (hmax : (maxlen.toNat : Int) ≤ INT_MAX)
    (s : List UInt8) : Short maxlen s := by
  intro x hx
  have hle := length_le_of_mem_pieces newline s x hx
  unfold INT_MAX at hmax ⊢
  constructor
  · omega
  · intro _ hlen
    omega

/-- Two lines, read byte by byte and at once: three calls. -/
theorem readline_agree_iff_twoLines :
    lines (Notes.readline 4) 3 (.zero, [.fail EINTR, .data [97, 10] (by decide) (by decide)]) =
      lines (readline 4) 3 [oneByte Nat.one_pos 97, oneByte Nat.one_pos 10] := by
  have h := feed_oneByte Nat.one_pos 97 (feed_oneByte Nat.one_pos 10 .nil)
  refine (readline_agree_iff 4 [97, 10] _ _ h ?_).mpr (short_of_maxlen (by decide) _) 3
  exact .intr (.data (by decide) (by decide) .nil)

theorem feed_map_oneByte {cap : Nat} (hcap : 0 < cap) (s : List UInt8) :
    Feed (s.map (oneByte hcap)) s := by
  induction s with
  | nil => exact .nil
  | cons c s ih => exact feed_oneByte hcap c ih

theorem readline_narrows {n : Nat} {maxlen : UInt64} (hn : INT_MAX < n)
    (hm : n ≤ maxlen.toNat - 1) :
    lines (Notes.readline maxlen) 1
        (.zero, (List.replicate n 97).map (oneByte (Nat.zero_lt_succ 1023))) ≠
      lines (readline maxlen) 1 ((List.replicate n 97).map (oneByte Nat.one_pos)) := by
  have hline : ∀ a ∈ List.replicate n (97 : UInt8), newline a = false := by
    intro a ha
    rw [List.eq_of_mem_replicate ha]
    rfl
  have hpiece : takePiece newline (maxlen.toNat - 1) (List.replicate n 97) =
      List.replicate n 97 := by
    rw [takePiece_of_forall newline _ hline]
    apply List.take_of_length_le
    rwa [List.length_replicate]
  rw [lines_eq_expected (Notes.readline_cuts maxlen) 1 _ _ (holds_zero (feed_map_oneByte _ _)),
    lines_eq_expected (readline_cuts maxlen) 1 _ _ (feed_map_oneByte _ _)]
  intro hsame
  have hret := Option.some.inj (congrArg Prod.fst (List.cons.inj hsame).1)
  have hle := (toInt_eq_self_iff _).mp hret.symm
  have hlen : n ≤ retOf (maxlen.toNat - 1)
      (takePiece newline (maxlen.toNat - 1) (List.replicate n 97)) := by
    rw [hpiece]
    unfold retOf
    rw [List.length_replicate]
    exact Nat.le_add_right _ _
  omega

/-- A line of 2^31 bytes, and room for it. -/
theorem readline_narrows_longLine :
    lines (Notes.readline 4294967296) 1
        (.zero, (List.replicate 2147483648 97).map (oneByte (Nat.zero_lt_succ 1023))) ≠
      lines (readline 4294967296) 1
        ((List.replicate 2147483648 97).map (oneByte Nat.one_pos)) :=
  readline_narrows (by decide) (by decide)

/-! ## The result and the bytes stored -/

/-- The limit stops a piece exactly if there is no line end among that many bytes. -/
theorem capped_takePiece_iff (m : Nat) (t : List UInt8) :
    capped m (takePiece newline m t) = true ↔
      m ≤ t.length ∧ ∀ c ∈ t.take m, newline c = false := by
  induction m generalizing t with
  | zero =>
    rw [takePiece_zero]
    exact iff_of_true rfl ⟨Nat.zero_le _, by simp⟩
  | succ m ih =>
    cases t with
    | nil => simp [capped]
    | cons c t =>
      rw [List.take_succ_cons, List.forall_mem_cons, List.length_cons, Nat.add_le_add_iff_right]
      cases hc : newline c with
      | true =>
        rw [takePiece_last newline hc]
        simp [capped, hc]
      | false =>
        rw [takePiece_cons newline hc, capped_cons hc, ih t]
        simp

/-- A result that is not negative is the number of bytes before the NUL. -/
def Counted {σ : Type} (line : Line σ) : Prop :=
  ∀ n, line.ret = some n → 0 ≤ n → n = line.stored.length

/-- **The result.**  It counts the bytes stored exactly if fewer than `maxlen - 1` bytes are there
or a newline is among the first `maxlen - 1`. -/
theorem readline_counted_iff (maxlen : UInt64) (h1 : 1 ≤ maxlen.toNat)
    (hmax : (maxlen.toNat : Int) ≤ INT_MAX) (rs : List (Read 1)) (s : List UInt8)
    (h : Feed rs s) : Counted (readline maxlen rs) ↔
      s.length < maxlen.toNat - 1 ∨ ∃ c ∈ s.take (maxlen.toNat - 1), newline c = true := by
  obtain ⟨hret, hstored, -⟩ := readline_cuts maxlen rs s h
  have hcapped := capped_takePiece_iff (maxlen.toNat - 1) s
  have hle := takePiece_length_le newline (maxlen.toNat - 1) s
  generalize takePiece newline (maxlen.toNat - 1) s = x at hret hstored hcapped hle
  have hint : toInt (retOf (maxlen.toNat - 1) x) = retOf (maxlen.toNat - 1) x := by
    have hbound := retOf_le hle
    exact (toInt_eq_self_iff _).mpr (by omega)
  have hcounted : Counted (readline maxlen rs) ↔ capped (maxlen.toNat - 1) x = false := by
    unfold Counted
    rw [hret, hstored, hint]
    unfold retOf
    cases capped (maxlen.toNat - 1) x with
    | false => exact iff_of_true (fun n hn _ => (Option.some.inj hn).symm) rfl
    | true =>
      refine iff_of_false (fun hall => ?_) (by decide)
      have hn := hall _ rfl (Int.natCast_nonneg _)
      rw [Bool.toNat_true] at hn
      omega
  rw [hcounted, ← Bool.not_eq_true, hcapped, not_and_or, Nat.not_le]
  simp

/-- A line and a half: the newline stops it in time. -/
theorem readline_counted_twoLines :
    Counted (readline 4 [oneByte Nat.one_pos 97, .fail EINTR, oneByte Nat.one_pos 10]) ↔
      2 < 3 ∨ ∃ c ∈ [97, 10], newline c = true :=
  readline_counted_iff 4 (by decide) (by decide) _ [97, 10]
    (feed_oneByte Nat.one_pos 97 (.intr (feed_oneByte Nat.one_pos 10 .nil)))

/-- At the limit of one byte, stored, the result is 2. -/
theorem readline_not_counted : ¬ ∀ (maxlen : UInt64) (rs : List (Read 1)) (s : List UInt8),
    1 ≤ maxlen.toNat → (maxlen.toNat : Int) ≤ INT_MAX → Feed rs s →
    Counted (readline maxlen rs) := by
  intro h
  have hcounted := h 2 [oneByte Nat.one_pos 97] [97] (by decide) (by decide)
    (feed_oneByte Nat.one_pos 97 .nil) 2 rfl (by decide)
  exact absurd hcounted (by decide)

end StudyDoc.Readline
