import StudyDoc.Net.ConnectNonb
import StudyDoc.Net.WebClient

/-!
# Section 16.5: what the web client makes of the events

The loop of `main` once more, one `read` at a time, with the value that `getsockopt` puts into
`error`, with `errno`, and with what is printed.  A turn of the pass over the files depends on the
flags and the sets (Web.turn); everything else is as in `WebClient` (program_of_events).

    a request is written after SO_ERROR = 0 only, and no failed read is printed, in every state
      ↔  SO_ERROR is always 0, and a read fails only with EINTR             (web_events_lawful_iff)

`error` is not looked at, and `read` returning -1 is told from data by `errno == EINTR` only.
-/

namespace StudyDoc.WebEvents

open Transition WebClient ConnectNonb

/-! ## Algorithm -/

def MAXLINE : Nat := 255

/-- The answers to the calls that one step may make, and `errno` behind `select`. -/
structure Answers where
  connect : Connect
  select : WebClient.Select
  errno : Errno
  getsockopt : Getsockopt
  read : Read MAXLINE

variable {nfiles : Nat}

structure State (nfiles : Nat) where
  web : Web nfiles
  pc : Pc
  errno : Errno
  /-- What `getsockopt` stored for a file. -/
  soError : Fin nfiles → Option Int
  /-- The result of `read` behind each `printf("read:%s\n", buf)`. -/
  printed : List (Read MAXLINE)

/-- What is done with a file. -/
inductive Turn where
  | skip
  | connected
  | readable

def turn (w : Web nfiles) (i : Fin nfiles) (rs ws : FdSet) : Turn :=
  let flags := (w.file i).f_flags
  let fd := (w.file i).f_fd
  if flags = 0 ∨ flags &&& F_DONE ≠ 0 then .skip
  else if flags &&& F_CONNECTING ≠ 0 ∧ (rs fd = true ∨ ws fd = true) then .connected
  else if flags &&& F_READING ≠ 0 ∧ rs fd = true then .readable
  else .skip

/-- `errno` behind a `read`: it stays if that did not fail. -/
def errnoAfter (errno : Errno) : Read MAXLINE → Errno
  | .fail e => e
  | .data _ _ _ => errno
  | .eof => errno

/-- One turn of `while(1)`; `next` is where the pass goes on. -/
def State.readOnce (s : State nfiles) (i : Fin nfiles) (next : Pc) (r : Read MAXLINE) :
    State nfiles :=
  if r.ret = 0 then { s with web := s.web.finish i, pc := next }
  else if errnoAfter s.errno r = EINTR then { s with errno := errnoAfter s.errno r }
  else { s with errno := errnoAfter s.errno r, printed := s.printed ++ [r] }

def State.serve (s : State nfiles) (i : Fin nfiles) (rs ws : FdSet) (k : Answers) : State nfiles :=
  let next := Pc.pass (i + 1) rs ws
  match turn s.web i rs ws with
  | .skip => { s with pc := next }
  | .connected =>
    match k.getsockopt with
    | .fail _ => { s with pc := .exit .sockError }
    | .soError error => { s with
        web := s.web.request i
        pc := next
        soError := Function.update s.soError i (some error) }
  | .readable => s.readOnce i next k.read

/-- The state of `WebClient`. -/
def State.client (s : State nfiles) : WebClient.State nfiles := ⟨s.web, s.pc⟩

/-- The answers as they are there. -/
def Answers.kernel (k : Answers) : Kernel where
  connect := k.connect
  select := k.select
  getsockopt :=
    match k.getsockopt with
    | .fail _ => -1
    | .soError _ => 0
  reads := [k.read.ret]

def State.step (maxconn : Int) (s : State nfiles) (k : Answers) : Option (State nfiles) :=
  match s.pc with
  | .pass i rs ws =>
    if h : i < nfiles then some (s.serve ⟨i, h⟩ rs ws k) else some { s with pc := .top }
  | .select => (s.client.step maxconn k.kernel).map fun c =>
      { s with web := c.web, pc := c.pc, errno := k.errno }
  | .top | .connecting | .ended | .exit _ => (s.client.step maxconn k.kernel).map fun c =>
      { s with web := c.web, pc := c.pc }

def events (nfiles : Nat) (maxconn : Int) : System (State nfiles) Answers where
  init s := ∃ file errno, s = ⟨(start file).web, (start file).pc, errno, fun _ => none, []⟩
  step s k s' := s.step maxconn k = some s'

/-! ### What is asked for -/

structure Lawful (s : State nfiles) : Prop where
  requested : ∀ g ∈ s.web.gets, s.soError g.file = some 0
  reading : ∀ i, (s.web.file i).f_flags = F_READING → s.soError i = some 0
  printed : ∀ r ∈ s.printed, r.failed = false

/-- `SO_ERROR` is 0, and a `read` that fails was interrupted. -/
structure Good (t : Turn) (k : Answers) : Prop where
  soError : t = .connected → ∀ error, k.getsockopt = .soError error → error = 0
  read : t = .readable → ∀ e, k.read = .fail e → e = EINTR

/-- Each turn of the pass is. -/
def Clean (s : State nfiles) (k : Answers) : Prop :=
  ∀ i rs ws (h : i < nfiles), s.pc = .pass i rs ws → Good (turn s.web ⟨i, h⟩ rs ws) k

/-! ## Lemmas -/

variable {maxconn : Int} {s s' : State nfiles} {k : Answers}

theorem serve_eq (w : Web nfiles) (i : Fin nfiles) (rs ws : FdSet) (k : Kernel) :
    w.serve i rs ws k =
      match turn w i rs ws with
      | .skip => some (.ok w)
      | .connected =>
        if k.getsockopt < 0 then some (.error .sockError) else some (.ok (w.request i))
      | .readable => if 0 ∈ k.reads then some (.ok (w.finish i)) else none := by
  unfold Web.serve turn
  dsimp only
  split
  · rfl
  · split
    · rfl
    · split <;> rfl

theorem readOnce_cases (s : State nfiles) (i : Fin nfiles) (next : Pc) (r : Read MAXLINE) :
    (r.ret = 0 ∧ s.readOnce i next r = { s with web := s.web.finish i, pc := next }) ∨
    (r.ret ≠ 0 ∧ errnoAfter s.errno r = EINTR ∧
      s.readOnce i next r = { s with errno := errnoAfter s.errno r }) ∨
    (r.ret ≠ 0 ∧ errnoAfter s.errno r ≠ EINTR ∧
      s.readOnce i next r =
        { s with errno := errnoAfter s.errno r, printed := s.printed ++ [r] }) := by
  unfold State.readOnce
  by_cases hret : r.ret = 0
  · exact Or.inl ⟨hret, if_pos hret⟩
  · rw [if_neg hret]
    by_cases hintr : errnoAfter s.errno r = EINTR
    · exact Or.inr (Or.inl ⟨hret, hintr, if_pos hintr⟩)
    · exact Or.inr (Or.inr ⟨hret, hintr, if_neg hintr⟩)

/-! ### The pass is that of `WebClient` -/

theorem client_serve (s : State nfiles) (i : Fin nfiles) (rs ws : FdSet) (k : Answers) :
    (s.serve i rs ws k).client = s.client ∨
      (s.web.serve i rs ws k.kernel).map (s.client.after (.pass (i + 1) rs ws)) =
        some (s.serve i rs ws k).client := by
  rw [serve_eq]
  unfold State.serve
  cases hturn : turn s.web i rs ws with
  | skip => exact Or.inr rfl
  | connected =>
    cases hopt : k.getsockopt with
    | fail e =>
      simp only [Answers.kernel, hopt]
      exact Or.inr rfl
    | soError error =>
      simp only [Answers.kernel, hopt]
      exact Or.inr rfl
  | readable =>
    simp only [Answers.kernel, List.mem_singleton]
    rcases readOnce_cases s i (.pass (i + 1) rs ws) k.read with
      ⟨hret, hs⟩ | ⟨-, -, hs⟩ | ⟨-, -, hs⟩
    · rw [hs, if_pos hret.symm]
      exact Or.inr rfl
    · rw [hs]
      exact Or.inl rfl
    · rw [hs]
      exact Or.inl rfl

theorem step_pass {i : Nat} {rs ws : FdSet} (hpc : s.pc = .pass i rs ws) :
    s.step maxconn k =
      if h : i < nfiles then some (s.serve ⟨i, h⟩ rs ws k) else some { s with pc := .top } := by
  unfold State.step
  rw [hpc]

/-- A turn of the pass or its end; outside of it a step is one of `WebClient`. -/
theorem step_cases (hs : s.step maxconn k = some s') :
    (∃ i rs ws, ∃ h : i < nfiles, s.pc = .pass i rs ws ∧ s' = s.serve ⟨i, h⟩ rs ws k) ∨
    (∃ i rs ws, s.pc = .pass i rs ws ∧ ¬ i < nfiles ∧ s' = { s with pc := .top }) ∨
    ((∀ i rs ws, s.pc ≠ .pass i rs ws) ∧ s.client.step maxconn k.kernel = some s'.client ∧
      s'.soError = s.soError ∧ s'.printed = s.printed) := by
  cases h : s.pc with
  | pass i rs ws =>
    rw [step_pass h] at hs
    by_cases hi : i < nfiles
    · rw [dif_pos hi] at hs
      exact Or.inl ⟨i, rs, ws, hi, rfl, (Option.some.inj hs).symm⟩
    · rw [dif_neg hi] at hs
      exact Or.inr (Or.inl ⟨i, rs, ws, rfl, hi, (Option.some.inj hs).symm⟩)
  | top | connecting | select | ended | exit e =>
    unfold State.step at hs
    simp only [h] at hs
    obtain ⟨c, hc, rfl⟩ := Option.map_eq_some_iff.mp hs
    exact Or.inr (Or.inr ⟨nofun, hc, rfl, rfl⟩)

theorem client_step (hs : s.step maxconn k = some s') :
    s'.client = s.client ∨ s.client.step maxconn k.kernel = some s'.client := by
  rcases step_cases hs with ⟨i, rs, ws, hi, hpc, rfl⟩ | ⟨i, rs, ws, hpc, hi, rfl⟩ | ⟨-, hc, -, -⟩
  · have hclient : s.client.pc = .pass i rs ws := hpc
    unfold WebClient.State.step
    simp only [hclient, dif_pos hi]
    exact client_serve s ⟨i, hi⟩ rs ws k
  · have hclient : s.client.pc = .pass i rs ws := hpc
    unfold WebClient.State.step
    simp only [hclient, dif_neg hi]
    exact Or.inr rfl
  · exact Or.inr hc

/-- Whatever happens here happens there. -/
theorem program_of_events (h : (events nfiles maxconn).Reachable s) :
    (program nfiles maxconn).Reachable s.client := by
  refine h.map State.client ?_ fun s k s' hs => ?_
  · rintro s ⟨file, errno, rfl⟩
    exact ⟨file, rfl⟩
  · rcases client_step hs with heq | hstep
    · exact Or.inl heq
    · exact Or.inr ⟨k.kernel, hstep⟩

/-! ### One step -/

/-- A file that is started is not read yet. -/
theorem connectNext_frame {w w' : Web nfiles} {c : Connect} (h : w.connectNext c = .ok w') :
    w'.gets = w.gets ∧
      ∀ i, (w'.file i).f_flags = F_READING → (w.file i).f_flags = F_READING := by
  have hflags : ∀ (i j : Fin nfiles) (fd : Int),
      (Function.update w.file i { w.file i with f_flags := F_CONNECTING, f_fd := fd } j).f_flags =
        F_READING → (w.file j).f_flags = F_READING := by
    intro i j fd hj
    by_cases hji : j = i
    · rw [hji, Function.update_self] at hj
      exact absurd hj (show F_CONNECTING ≠ F_READING by decide)
    · rwa [Function.update_of_ne hji] at hj
  unfold Web.connectNext at h
  cases hi : w.unstarted with
  | none =>
    rw [hi] at h
    cases h
  | some i =>
    simp only [hi] at h
    cases c with
    | fail => cases h
    | ok fd | inProgress fd =>
      obtain rfl := Except.ok.inj h
      exact ⟨rfl, fun j hj => hflags i j fd hj⟩

theorem client_frame {c c' : WebClient.State nfiles} {k : Kernel}
    (hpc : ∀ i rs ws, c.pc ≠ .pass i rs ws) (hs : c.step maxconn k = some c') :
    c'.web.gets = c.web.gets ∧
      ∀ i, (c'.web.file i).f_flags = F_READING → (c.web.file i).f_flags = F_READING := by
  unfold WebClient.State.step at hs
  cases h : c.pc with
  | pass i rs ws => exact absurd h (hpc i rs ws)
  | top | select =>
    simp only [h] at hs
    obtain rfl := Option.some.inj hs
    exact ⟨rfl, fun _ hi => hi⟩
  | connecting =>
    simp only [h] at hs
    split at hs
    · obtain rfl := Option.some.inj hs
      cases hnext : c.web.connectNext k.connect with
      | error e => exact ⟨rfl, fun _ hi => hi⟩
      | ok w' => exact connectNext_frame hnext
    · obtain rfl := Option.some.inj hs
      exact ⟨rfl, fun _ hi => hi⟩
  | ended | exit e =>
    simp only [h] at hs
    cases hs

/-- The request is the one thing that needs `SO_ERROR` to be 0. -/
theorem lawful_request (h : Lawful s) (i : Fin nfiles) (next : Pc) (error : Int) :
    Lawful { s with
      web := s.web.request i
      pc := next
      soError := Function.update s.soError i (some error) } ↔ error = 0 := by
  constructor
  · intro hl
    have hi : Function.update s.soError i (some error) i = some 0 :=
      hl.requested ⟨i, (s.web.file i).f_fd, (s.web.file i).f_name⟩
        (List.mem_append_right _ List.mem_cons_self)
    rw [Function.update_self] at hi
    exact Option.some.inj hi
  · rintro rfl
    have hstored : ∀ j, s.soError j = some 0 → Function.update s.soError i (some 0) j = some 0 := by
      intro j hj
      by_cases hji : j = i
      · rw [hji, Function.update_self]
      · rwa [Function.update_of_ne hji]
    refine ⟨fun g hg => ?_, fun j hj => ?_, h.printed⟩
    · rcases List.mem_append.mp hg with hg | hg
      · exact hstored _ (h.requested g hg)
      · rw [List.mem_singleton.mp hg]
        exact Function.update_self ..
    · by_cases hji : j = i
      · rw [hji]
        exact Function.update_self ..
      · have hflags : (s.web.file j).f_flags = F_READING := by
          have hfile : ((s.web.request i).file j) = s.web.file j := Function.update_of_ne hji ..
          rwa [hfile] at hj
        exact hstored j (h.reading j hflags)

theorem lawful_finish (h : Lawful s) (i : Fin nfiles) (next : Pc) :
    Lawful { s with web := s.web.finish i, pc := next } := by
  refine ⟨h.requested, fun j hj => ?_, h.printed⟩
  by_cases hji : j = i
  · have hfile : ((s.web.finish i).file j).f_flags = F_DONE := by
      simp [hji, Web.finish]
    exact absurd (hfile.symm.trans hj) (by decide)
  · have hfile : (s.web.finish i).file j = s.web.file j := Function.update_of_ne hji ..
    exact h.reading j (hfile ▸ hj)

/-- One `read`: what was printed is data if a failure was a signal. -/
theorem lawful_readOnce (h : Lawful s) (i : Fin nfiles) (next : Pc) (r : Read MAXLINE) :
    Lawful (s.readOnce i next r) ↔ ∀ e, r = .fail e → e = EINTR := by
  rcases readOnce_cases s i next r with ⟨hret, hs⟩ | ⟨-, hintr, hs⟩ | ⟨-, hintr, hs⟩
  · rw [hs]
    refine iff_of_true (lawful_finish h i next) ?_
    rintro e rfl
    exact absurd hret (show (-1 : Int) ≠ 0 by decide)
  · rw [hs]
    refine iff_of_true ⟨h.requested, h.reading, h.printed⟩ ?_
    rintro e rfl
    exact hintr
  · rw [hs]
    constructor
    · rintro hl e rfl
      have hfailed := hl.printed (.fail e) (List.mem_append_right _ List.mem_cons_self)
      exact absurd hfailed (by simp [Read.failed])
    · intro hgood
      refine ⟨h.requested, h.reading, fun r' hr' => ?_⟩
      rcases List.mem_append.mp hr' with hr' | hr'
      · exact h.printed r' hr'
      · rw [List.mem_singleton.mp hr']
        cases hr : r with
        | data bytes pos le => rfl
        | eof => rfl
        | fail e =>
          rw [hr] at hintr
          exact absurd (hgood e hr) hintr

theorem lawful_serve (h : Lawful s) (i : Fin nfiles) (rs ws : FdSet) (k : Answers) :
    Lawful (s.serve i rs ws k) ↔ Good (turn s.web i rs ws) k := by
  unfold State.serve
  cases hturn : turn s.web i rs ws with
  | skip => exact iff_of_true ⟨h.requested, h.reading, h.printed⟩ ⟨nofun, nofun⟩
  | connected =>
    cases hopt : k.getsockopt with
    | fail e =>
      refine iff_of_true ⟨h.requested, h.reading, h.printed⟩ ⟨fun _ error he => ?_, nofun⟩
      cases hopt.symm.trans he
    | soError error =>
      simp only
      rw [lawful_request h]
      constructor
      · rintro rfl
        refine ⟨fun _ error he => ?_, nofun⟩
        exact (Getsockopt.soError.inj (hopt.symm.trans he)).symm
      · exact fun hgood => hgood.soError rfl error hopt
  | readable =>
    simp only
    rw [lawful_readOnce h]
    exact ⟨fun hr => ⟨nofun, fun _ => hr⟩, fun hgood => hgood.read rfl⟩

theorem clean_of_pass {i : Nat} {rs ws : FdSet} (hpc : s.pc = .pass i rs ws) :
    Clean s k ↔ ∀ h : i < nfiles, Good (turn s.web ⟨i, h⟩ rs ws) k := by
  constructor
  · exact fun hclean hi => hclean i rs ws hi hpc
  · intro hgood i' rs' ws' hi' hpc'
    obtain ⟨rfl, rfl, rfl⟩ := Pc.pass.inj (hpc.symm.trans hpc')
    exact hgood hi'

theorem lawful_step (h : Lawful s) (hs : s.step maxconn k = some s') :
    Lawful s' ↔ Clean s k := by
  rcases step_cases hs with ⟨i, rs, ws, hi, hpc, rfl⟩ | ⟨i, rs, ws, hpc, hi, rfl⟩ |
    ⟨hpc, hc, herr, hprinted⟩
  · rw [lawful_serve h, clean_of_pass hpc]
    exact ⟨fun hgood _ => hgood, fun hgood => hgood hi⟩
  · rw [clean_of_pass hpc]
    exact iff_of_true ⟨h.requested, h.reading, h.printed⟩ fun hi' => absurd hi' hi
  · obtain ⟨hgets, hreading⟩ := client_frame hpc hc
    refine iff_of_true ⟨fun g hg => ?_, fun i hi => ?_, fun r hr => ?_⟩ ?_
    · rw [herr]
      exact h.requested g (hgets ▸ hg)
    · rw [herr]
      exact h.reading i (hreading i hi)
    · exact h.printed r (hprinted ▸ hr)
    · exact fun i rs ws _ hp => absurd hp (hpc i rs ws)

theorem lawful_start {s : State nfiles} (h : (events nfiles maxconn).init s) : Lawful s := by
  obtain ⟨file, errno, rfl⟩ := h
  exact ⟨nofun, fun i hi => absurd hi (show 0 ≠ F_READING by decide), nofun⟩

theorem clean_of_stuck (h : ∀ s', ¬ s.step maxconn k = some s') : Clean s k := by
  intro i rs ws hi hpc
  rw [step_pass hpc, dif_pos hi] at h
  exact absurd rfl (h _)

/-! ## Main result -/

theorem web_events_lawful_iff (nfiles : Nat) (maxconn : Int) (es : List Answers) :
    (events nfiles maxconn).Always es Lawful ↔ (events nfiles maxconn).Along es Clean :=
  System.always_iff_along (fun _ => lawful_start) (fun _ _ _ _ h hs => lawful_step h hs)
    (fun _ _ h => clean_of_stuck h) es

def oneFile : Fin 1 → File := fun _ => ⟨"/a", "host", 0, 0⟩

/-- The connection is refused, which makes the descriptor ready. -/
def refusedLater : Answers :=
  ⟨.inProgress 3, .ready (fun _ => true) (fun _ => true), 0, .soError ECONNREFUSED, .eof⟩

/-- Before the loop, with one file to fetch. -/
def first : State 1 := ⟨(start oneFile).web, (start oneFile).pc, 0, fun _ => none, []⟩

/-- The request is written all the same. -/
theorem web_events_not_lawful :
    ¬ (events 1 1).Always (List.replicate 5 refusedLater) Lawful := by
  intro halways
  obtain ⟨s, hs⟩ : ∃ s, (List.replicate 5 refusedLater).foldlM (State.step 1) first = some s :=
    ⟨_, rfl⟩
  have hgets : ((List.replicate 5 refusedLater).foldlM (State.step 1) first).map
    (fun s => s.web.gets.map fun g => s.soError g.file) = some [some 111] := by decide
  rw [hs] at hgets
  have hstart : (events 1 1).Run [] first := .start ⟨oneFile, 0, rfl⟩
  have hrun := hstart.exec (State.step 1) (fun _ _ _ h => h) (List.replicate 5 refusedLater) hs
  have hlaw := halways (List.replicate 5 refusedLater) [] s (List.append_nil _).symm hrun
  have herrors : (s.web.gets.map fun g => s.soError g.file) = [some 111] := Option.some.inj hgets
  have hmem : some 111 ∈ s.web.gets.map fun g => s.soError g.file := by
    rw [herrors]
    exact List.mem_singleton_self _
  obtain ⟨g, hg, hg0⟩ := List.mem_map.mp hmem
  exact absurd (hg0.symm.trans (hlaw.requested g hg)) (by decide)

end StudyDoc.WebEvents
