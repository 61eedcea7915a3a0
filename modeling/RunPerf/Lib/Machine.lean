import Mathlib.Data.List.Induction

/-!
# Labelled machines and their runs

A machine has initial states and labelled steps.  A path records the labels of
its steps in order, so that a property of a run may speak about what happened
(the trace) as well as about where the run ended (the state).  Paths grow at
their end, which is the direction in which invariants are proved.
-/

namespace RunPerf.Lib

/-- A labelled transition system with its initial states. -/
structure Machine (State Event : Type*) where
  Init : State → Prop
  Step : State → Event → State → Prop

namespace Machine

variable {State Event : Type*} {M : Machine State Event}

/-- `M.Path s trace t`: performing the events of `trace` in order leads from `s` to `t`. -/
inductive Path (M : Machine State Event) (s : State) : List Event → State → Prop
  | nil : Path M s [] s
  | snoc {trace : List Event} {t u : State} {event : Event} :
      Path M s trace t → M.Step t event u → Path M s (trace ++ [event]) u

/-- The states `M` reaches from an initial state, with the trace that leads there. -/
def Run (M : Machine State Event) (trace : List Event) (t : State) : Prop :=
  ∃ s, M.Init s ∧ M.Path s trace t

theorem Path.single {s t : State} {event : Event} (hstep : M.Step s event t) :
    M.Path s [event] t :=
  Path.nil.snoc hstep

theorem Path.append {s t u : State} {first second : List Event} (hfirst : M.Path s first t)
    (hsecond : M.Path t second u) : M.Path s (first ++ second) u := by
  induction hsecond with
  | nil => simpa using hfirst
  | snoc _ hstep ih =>
      rw [← List.append_assoc]
      exact ih.snoc hstep

/-- The last step of a path. -/
theorem Path.exists_last {s t : State} {trace : List Event} {event : Event}
    (hpath : M.Path s (trace ++ [event]) t) : ∃ u, M.Path s trace u ∧ M.Step u event t := by
  generalize hall : trace ++ [event] = all at hpath
  cases hpath with
  | nil => simp at hall
  | snoc hfirst hstep =>
      obtain ⟨rfl, hevent⟩ := List.append_inj' hall rfl
      obtain rfl := List.singleton_inj.mp hevent
      exact ⟨_, hfirst, hstep⟩

/-- A path goes through a state at every point of its trace. -/
theorem Path.split {s t : State} {first second : List Event}
    (hpath : M.Path s (first ++ second) t) : ∃ u, M.Path s first u ∧ M.Path u second t := by
  induction second using List.reverseRecOn generalizing t with
  | nil => exact ⟨t, by simpa using hpath, .nil⟩
  | append_singleton second event ih =>
      rw [← List.append_assoc] at hpath
      obtain ⟨v, hbefore, hstep⟩ := hpath.exists_last
      obtain ⟨u, hfirst, hsecond⟩ := ih hbefore
      exact ⟨u, hfirst, hsecond.snoc hstep⟩

/-- A path along a computed sequence of states. -/
theorem Path.of_foldlM {next : State → Event → Option State}
    (hnext : ∀ s event t, next s event = some t → M.Step s event t) {trace : List Event}
    {s t : State} (h : trace.foldlM next s = some t) : M.Path s trace t := by
  induction trace using List.reverseRecOn generalizing t with
  | nil =>
      cases h
      exact .nil
  | append_singleton trace event ih =>
      rw [List.foldlM_append] at h
      obtain ⟨u, hfirst, hlast⟩ := Option.bind_eq_some_iff.mp h
      have hstep : next u event = some t := by simpa using hlast
      exact (ih hfirst).snoc (hnext u event t hstep)

theorem Run.append {t u : State} {first second : List Event} (hrun : M.Run first t)
    (hpath : M.Path t second u) : M.Run (first ++ second) u := by
  obtain ⟨s, hinit, hfirst⟩ := hrun
  exact ⟨s, hinit, hfirst.append hpath⟩

/-- The invariant rule for paths from an arbitrary state. -/
theorem Path.invariant {P : List Event → State → Prop} {s : State} (hs : P [] s)
    (hstep : ∀ trace u event v, M.Path s trace u → P trace u → M.Step u event v →
      P (trace ++ [event]) v)
    {trace : List Event} {t : State} (hpath : M.Path s trace t) : P trace t := by
  induction hpath with
  | nil => exact hs
  | snoc hpath hlast ih => exact hstep _ _ _ _ hpath ih hlast

/-- **The invariant rule.**  What holds initially and is preserved by every step
of a run holds at the end of every run. -/
theorem Run.invariant {P : List Event → State → Prop}
    (hinit : ∀ s, M.Init s → P [] s)
    (hstep : ∀ trace s event t, M.Run trace s → P trace s → M.Step s event t →
      P (trace ++ [event]) t)
    {trace : List Event} {t : State} (hrun : M.Run trace t) : P trace t := by
  obtain ⟨s, hs, hpath⟩ := hrun
  exact hpath.invariant (hinit s hs) fun trace u event v hbefore h hlast =>
    hstep trace u event v ⟨s, hs, hbefore⟩ h hlast

/-- **The simulation rule.**  If every step of `M` is matched by a step of `N` with
the same event, then every run of `M` is a run of `N`. -/
theorem Run.simulation {State' : Type*} {N : Machine State' Event} {R : State → State' → Prop}
    (hinit : ∀ s, M.Init s → ∃ s', N.Init s' ∧ R s s')
    (hstep : ∀ s s' event t, R s s' → M.Step s event t → ∃ t', N.Step s' event t' ∧ R t t')
    {trace : List Event} {t : State} (hrun : M.Run trace t) : ∃ t', N.Run trace t' ∧ R t t' := by
  refine Run.invariant (P := fun trace t => ∃ t', N.Run trace t' ∧ R t t') ?_ ?_ hrun
  · intro s hs
    obtain ⟨s', hs', hrel⟩ := hinit s hs
    exact ⟨s', ⟨s', hs', .nil⟩, hrel⟩
  · rintro trace s event t - ⟨s', hrun', hrel⟩ hlast
    obtain ⟨t', hlast', hrel'⟩ := hstep s s' event t hrel hlast
    exact ⟨t', hrun'.append (.single hlast'), hrel'⟩

/-- The machine that only takes the steps of `M` allowed by `Guard`. -/
def restrict (M : Machine State Event) (Guard : State → Event → Prop) :
    Machine State Event where
  Init := M.Init
  Step s event t := M.Step s event t ∧ Guard s event

theorem Path.of_restrict {Guard : State → Event → Prop} {s t : State} {trace : List Event}
    (hpath : (M.restrict Guard).Path s trace t) : M.Path s trace t := by
  induction hpath with
  | nil => exact .nil
  | snoc _ hstep ih => exact ih.snoc hstep.1

theorem Path.restrict_mono {Guard Weaker : State → Event → Prop}
    (h : ∀ s event, Guard s event → Weaker s event) {s t : State} {trace : List Event}
    (hpath : (M.restrict Guard).Path s trace t) : (M.restrict Weaker).Path s trace t := by
  induction hpath with
  | nil => exact .nil
  | snoc _ hstep ih => exact ih.snoc ⟨hstep.1, h _ _ hstep.2⟩

theorem Run.of_restrict {Guard : State → Event → Prop} {trace : List Event} {t : State}
    (hrun : (M.restrict Guard).Run trace t) : M.Run trace t := by
  obtain ⟨s, hinit, hpath⟩ := hrun
  exact ⟨s, hinit, hpath.of_restrict⟩

/-! ## Ranks -/

/-- **The rank rule.**  If the steps of a path never raise the rank, and those with the events
`own` lower it, there are no more of them than the rank has room for. -/
theorem Path.countP_add_rank_le {P : State → Prop} {rank : State → ℕ} {own : Event → Bool}
    {s t : State} {trace : List Event} (hs : P s)
    (hstep : ∀ u event v, P u → M.Step u event v →
      P v ∧ rank v + (if own event then 1 else 0) ≤ rank u)
    (hpath : M.Path s trace t) : P t ∧ trace.countP own + rank t ≤ rank s := by
  refine hpath.invariant (P := fun trace t => P t ∧ trace.countP own + rank t ≤ rank s)
    ⟨hs, by simp⟩ ?_
  rintro trace u event v - ⟨hu, hle⟩ hlast
  obtain ⟨hv, hlower⟩ := hstep u event v hu hlast
  refine ⟨hv, ?_⟩
  rw [List.countP_append, List.countP_singleton]
  omega

/-- If there is a step that lowers the rank as long as `Goal` does not hold, `Goal` can be
reached. -/
theorem exists_path_of_rank {P Goal : State → Prop} {rank : State → ℕ}
    (hstep : ∀ s, P s → ¬ Goal s → ∃ event t, M.Step s event t ∧ P t ∧ rank t < rank s)
    {s : State} (hs : P s) : ∃ trace t, M.Path s trace t ∧ P t ∧ Goal t := by
  induction hrank : rank s using Nat.strongRecOn generalizing s with
  | ind n ih =>
      by_cases hgoal : Goal s
      · exact ⟨[], s, .nil, hs, hgoal⟩
      · obtain ⟨event, t, hfirst, ht, hlower⟩ := hstep s hs hgoal
        obtain ⟨trace, u, hpath, hu, hreached⟩ := ih (rank t) (by omega) ht rfl
        exact ⟨event :: trace, u, (Path.single hfirst).append hpath, hu, hreached⟩

end Machine

end RunPerf.Lib
