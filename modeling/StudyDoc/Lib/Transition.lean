import Mathlib.Logic.Basic

/-!
# Labelled transition systems

`S.Run es s`: some run of `S` that takes the labels `es`, in order, ends in `s`.
Safety facts are proved once per step:

    (∀ s, init s → I [] s) → (every step keeps I) → ∀ es s, Run es s → I es s      (Run.invariant)

`I` may speak of the labels seen so far, so a history needs no ghost state.
`Along` is the form for a law about every moment of one run, `Always` for one about its states;
`seen` is what one watches on the way.
-/

namespace Transition

/-- A step function with a guard. -/
theorem guard_iff {σ : Type} {c : Prop} [Decidable c] {s s' : σ} :
    (if c then some s else none) = some s' ↔ c ∧ s' = s := by
  rw [Option.ite_none_right_eq_some]
  exact and_congr_right fun _ => ⟨fun h => (Option.some.inj h).symm, fun h => congrArg some h.symm⟩

/-- What `f` sees, in order, along the labels that a step function gets to from a state. -/
def seen {σ ε β : Type} (step : σ → ε → Option σ) (f : σ → ε → List β) : σ → List ε → List β
  | _, [] => []
  | s, e :: es => f s e ++ (match step s e with
    | some s' => seen step f s' es
    | none => [])

theorem seen_cons {σ ε β : Type} {step : σ → ε → Option σ} {f : σ → ε → List β} {s s' : σ} {e : ε}
    (h : step s e = some s') (es : List ε) :
    seen step f s (e :: es) = f s e ++ seen step f s' es := by
  rw [seen, h]

structure System (σ ε : Type) where
  init : σ → Prop
  step : σ → ε → σ → Prop

namespace System

variable {σ ε : Type} {S : System σ ε}

inductive Run (S : System σ ε) : List ε → σ → Prop
  | start {s : σ} : S.init s → Run S [] s
  | next {es : List ε} {s : σ} {e : ε} {s' : σ} :
      Run S es s → S.step s e s' → Run S (es ++ [e]) s'

/-- A run that a step function computes. -/
theorem Run.exec (f : σ → ε → Option σ) (hf : ∀ s e s', f s e = some s' → S.step s e s')
    {es : List ε} {s s' : σ} (h : S.Run es s) (es' : List ε) (he : es'.foldlM f s = some s') :
    S.Run (es ++ es') s' := by
  induction es' generalizing es s with
  | nil =>
    rw [List.append_nil, ← Option.some.inj he]
    exact h
  | cons e es' ih =>
    obtain ⟨s1, hs1, hrest⟩ := Option.bind_eq_some_iff.mp he
    have hrun := ih (h.next (hf s e s1 hs1)) hrest
    rwa [List.append_assoc, List.singleton_append] at hrun

def Reachable (S : System σ ε) (s : σ) : Prop := ∃ es, S.Run es s

theorem Run.invariant {I : List ε → σ → Prop} (h0 : ∀ s, S.init s → I [] s)
    (hs : ∀ es s e s', S.Run es s → I es s → S.step s e s' → I (es ++ [e]) s')
    {es : List ε} {s : σ} (h : S.Run es s) : I es s := by
  induction h with
  | start hi => exact h0 _ hi
  | next hr hst ih => exact hs _ _ _ _ hr ih hst

theorem Reachable.init {s : σ} (h : S.init s) : S.Reachable s := ⟨[], .start h⟩

theorem Reachable.next {s : σ} {e : ε} {s' : σ} (h : S.Reachable s) (hs : S.step s e s') :
    S.Reachable s' := by
  obtain ⟨es, hr⟩ := h
  exact ⟨es ++ [e], hr.next hs⟩

/-- The invariant rule: `I` holds at the start and every step out of a reachable state keeps it. -/
theorem Reachable.invariant {I : σ → Prop} (h0 : ∀ s, S.init s → I s)
    (hs : ∀ s e s', S.Reachable s → I s → S.step s e s' → I s')
    {s : σ} (h : S.Reachable s) : I s := by
  obtain ⟨es, hr⟩ := h
  exact hr.invariant (I := fun _ s => I s) h0 (fun es s e s' hr hi hst => hs s e s' ⟨es, hr⟩ hi hst)

/-- A map of states under which a step is a step of the other system, or none. -/
theorem Reachable.map {σ' ε' : Type} {T : System σ' ε'} (f : σ → σ')
    (h0 : ∀ s, S.init s → T.init (f s))
    (hs : ∀ s e s', S.step s e s' → f s' = f s ∨ ∃ e', T.step (f s) e' (f s'))
    {s : σ} (h : S.Reachable s) : T.Reachable (f s) := by
  refine h.invariant (I := fun s => T.Reachable (f s)) (fun s hi => .init (h0 s hi)) ?_
  intro s e s' _ hr hst
  rcases hs s e s' hst with heq | ⟨e', he⟩
  · exact heq ▸ hr
  · exact hr.next he

/-- `Q s e` at every moment of the label sequence `es` that a run gets to: `s` is the state
there and `e` the next label (which need not lead to a further state). -/
def Along (S : System σ ε) (es : List ε) (Q : σ → ε → Prop) : Prop :=
  ∀ pre e post s, es = pre ++ e :: post → S.Run pre s → Q s e

theorem along_of_reachable {Q : σ → ε → Prop} (h : ∀ s e, S.Reachable s → Q s e) (es : List ε) :
    S.Along es Q :=
  fun pre e _ s _ hr => h s e ⟨pre, hr⟩

/-- `Q` at every moment of the label sequence that a step function gets to from `s`. -/
def HoldsAlong (f : σ → ε → Option σ) (Q : σ → ε → Prop) : σ → List ε → Prop
  | _, [] => True
  | s, e :: es => Q s e ∧ (match f s e with
    | some s' => HoldsAlong f Q s' es
    | none => True)

instance decidableHoldsAlong (f : σ → ε → Option σ) (Q : σ → ε → Prop)
    [∀ s e, Decidable (Q s e)] : ∀ s es, Decidable (HoldsAlong f Q s es)
  | _, [] => isTrue trivial
  | s, e :: es => by
    have : Decidable (match f s e with
        | some s' => HoldsAlong f Q s' es
        | none => True) := by
      cases f s e with
      | none => exact isTrue trivial
      | some s' => exact decidableHoldsAlong f Q s' es
    unfold HoldsAlong
    exact instDecidableAnd

/-- For a system with one start and a step function, a law along a run is evaluated. -/
theorem along_of_holdsAlong {f : σ → ε → Option σ} {Q : σ → ε → Prop} {s0 : σ} {es : List ε}
    (h0 : ∀ s, S.init s → s = s0) (hf : ∀ s e s', S.step s e s' → f s e = some s')
    (h : HoldsAlong f Q s0 es) : S.Along es Q := by
  have hrun : ∀ {pre : List ε} {s : σ}, S.Run pre s → ∀ post, HoldsAlong f Q s0 (pre ++ post) →
      HoldsAlong f Q s post := by
    intro pre s hr
    induction hr with
    | start hi =>
      intro post hp
      rw [h0 _ hi]
      exact hp
    | next hr hst ih =>
      intro post hp
      rw [List.append_assoc] at hp
      have hs := (ih _ hp).2
      rw [hf _ _ _ hst] at hs
      exact hs
  rintro pre e post s rfl hr
  exact (hrun hr (e :: post) h).1

/-- A step function has one state for each sequence of labels. -/
theorem Run.eval {f : σ → ε → Option σ} {s0 : σ} (h0 : ∀ s, S.init s → s = s0)
    (hf : ∀ s e s', S.step s e s' → f s e = some s') {es : List ε} {s : σ} (h : S.Run es s) :
    es.foldlM f s0 = some s := by
  induction h with
  | start hi =>
    rw [h0 _ hi]
    rfl
  | next hr hst ih =>
    rw [List.foldlM_append, ih, Option.bind_eq_bind, Option.bind_some, List.foldlM_cons,
      hf _ _ _ hst]
    rfl

/-- A law along a run of a step function, by one label more. -/
theorem Run.along_concat {f : σ → ε → Option σ} {s0 : σ} {Q : σ → ε → Prop}
    (h0 : ∀ s, S.init s → s = s0) (hf : ∀ s e s', S.step s e s' → f s e = some s')
    {es : List ε} {s : σ} {e : ε} (h : S.Run es s) :
    S.Along (es ++ [e]) Q ↔ S.Along es Q ∧ Q s e := by
  constructor
  · intro hq
    refine ⟨?_, hq es e [] s rfl h⟩
    rintro pre e' post t rfl hr
    exact hq pre e' (post ++ [e]) t (by rw [List.append_assoc, List.cons_append]) hr
  · rintro ⟨hq, hlast⟩ pre e' post t he hr
    rcases List.eq_nil_or_concat post with rfl | ⟨post, e'', rfl⟩
    · obtain ⟨rfl, hlabel⟩ := List.append_inj' he rfl
      obtain rfl := List.singleton_inj.mp hlabel
      have hst : s = t := Option.some.inj ((h.eval h0 hf).symm.trans (hr.eval h0 hf))
      exact hst ▸ hlast
    · rw [List.concat_eq_append, ← List.cons_append, ← List.append_assoc] at he
      obtain ⟨hes, -⟩ := List.append_inj' he rfl
      exact hq pre e' post t hes hr

/-- Two laws that agree at every reachable state agree along every run. -/
theorem along_congr {Q Q' : σ → ε → Prop} (h : ∀ s e, S.Reachable s → (Q s e ↔ Q' s e))
    (es : List ε) : S.Along es Q ↔ S.Along es Q' :=
  ⟨fun hq pre e post s he hr => (h s e ⟨pre, hr⟩).mp (hq pre e post s he hr),
    fun hq pre e post s he hr => (h s e ⟨pre, hr⟩).mpr (hq pre e post s he hr)⟩

theorem Along.left {Q : σ → ε → Prop} {es es' : List ε} (h : S.Along (es ++ es') Q) :
    S.Along es Q := by
  intro pre e post s he hr
  apply h pre e (post ++ es') s _ hr
  rw [he, List.append_assoc, List.cons_append]

/-- The invariant rule along a run every step of which meets `Q`. -/
theorem Run.invariantAlong {Q : σ → ε → Prop} {I : σ → Prop} (h0 : ∀ s, S.init s → I s)
    (hs : ∀ s e s', S.Reachable s → I s → Q s e → S.step s e s' → I s')
    {es : List ε} {s : σ} (h : S.Run es s) (hq : S.Along es Q) : I s := by
  induction h with
  | start hi => exact h0 _ hi
  | @next es s e s' hr hst ih => exact hs s e s' ⟨es, hr⟩ (ih hq.left) (hq es e [] s rfl hr) hst

/-- `I` in every state that the run `es` passes through. -/
def Always (S : System σ ε) (es : List ε) (I : σ → Prop) : Prop :=
  ∀ pre post s, es = pre ++ post → S.Run pre s → I s

/-- Where `Q` says of each step whether it keeps `I`, a run keeps `I` exactly if it meets `Q`. -/
theorem always_iff_along {I : σ → Prop} {Q : σ → ε → Prop} (h0 : ∀ s, S.init s → I s)
    (hs : ∀ s e s', S.Reachable s → I s → S.step s e s' → (I s' ↔ Q s e))
    (hq : ∀ s e, (∀ s', ¬ S.step s e s') → Q s e) (es : List ε) :
    S.Always es I ↔ S.Along es Q := by
  constructor
  · intro halways pre e post s he hr
    by_cases hen : ∃ s', S.step s e s'
    · obtain ⟨s', hst⟩ := hen
      have hs' : I s' := halways (pre ++ [e]) post s' (by simp [he]) (hr.next hst)
      exact (hs s e s' ⟨pre, hr⟩ (halways pre (e :: post) s he hr) hst).mp hs'
    · exact hq s e (not_exists.mp hen)
  · rintro halong pre post s rfl hr
    exact hr.invariantAlong h0
      (fun s e s' hreach hi hqe hst => (hs s e s' hreach hi hst).mpr hqe) halong.left

end System

end Transition
