import RunPerf.Lib.Machine

/-!
# A bounded first-in first-out queue

The specification that a ring is measured against: the state is the list of
queued entries, a producer appends a prefix of what it offers as long as the
capacity allows, a consumer takes entries from the front.
-/

namespace RunPerf.Lib

variable {α : Type*}

/-- What happens at a queue: of a list that is offered the first `n` entries are
accepted, or the entries `out` are consumed. -/
inductive QueueEvent (α : Type*)
  | accept (offered : List α) (n : ℕ)
  | consume (out : List α)

inductive QueueStep (capacity : ℕ) : List α → QueueEvent α → List α → Prop
  | accept {queue offered : List α} {n : ℕ} (hshort : n ≤ offered.length)
      (hfit : queue.length + n ≤ capacity) :
      QueueStep capacity queue (.accept offered n) (queue ++ offered.take n)
  | consume {out queue : List α} : QueueStep capacity (out ++ queue) (.consume out) queue

/-- The queue of the given capacity, initially empty. -/
def boundedQueue (α : Type*) (capacity : ℕ) : Machine (List α) (QueueEvent α) where
  Init queue := queue = []
  Step := QueueStep capacity

namespace QueueEvent

/-- The entries an event puts into the queue. -/
def entriesIn : QueueEvent α → List α
  | accept offered n => offered.take n
  | consume _ => []

/-- The entries an event takes out of the queue. -/
def entriesOut : QueueEvent α → List α
  | accept _ _ => []
  | consume out => out

end QueueEvent

/-- Everything accepted along a trace, in order. -/
def accepted (trace : List (QueueEvent α)) : List α := trace.flatMap QueueEvent.entriesIn

/-- Everything consumed along a trace, in order. -/
def consumed (trace : List (QueueEvent α)) : List α := trace.flatMap QueueEvent.entriesOut

@[simp] theorem accepted_snoc (trace : List (QueueEvent α)) (event : QueueEvent α) :
    accepted (trace ++ [event]) = accepted trace ++ event.entriesIn := by
  simp [accepted]

@[simp] theorem consumed_snoc (trace : List (QueueEvent α)) (event : QueueEvent α) :
    consumed (trace ++ [event]) = consumed trace ++ event.entriesOut := by
  simp [consumed]

/-- **Conservation and order.**  What was accepted is what was consumed followed by
what is still queued. -/
theorem accepted_eq_consumed_append {capacity : ℕ} {trace : List (QueueEvent α)}
    {queue : List α} (hrun : (boundedQueue α capacity).Run trace queue) :
    accepted trace = consumed trace ++ queue := by
  refine hrun.invariant (P := fun trace queue => accepted trace = consumed trace ++ queue) ?_ ?_
  · rintro queue rfl
    rfl
  · rintro trace queue event next - ih hstep
    cases hstep with
    | accept _ _ => simp [ih, QueueEvent.entriesIn, QueueEvent.entriesOut]
    | consume => simp [ih, QueueEvent.entriesIn, QueueEvent.entriesOut]

end RunPerf.Lib
