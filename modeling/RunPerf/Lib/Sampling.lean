import Mathlib.Algebra.BigOperators.Group.List.Basic
import Mathlib.Algebra.Group.Nat.Hom
import Mathlib.Tactic

/-!
# A counter that is sampled

Amounts are added to a counter, and an observer samples it from time to time and shows how much
it has grown since the sample before.  What is shown for a sample is then what was added since
the last one (`Shows`): every amount is shown once, with the first sample behind it.

The counter takes its values in a group, so it may wrap.
-/

namespace RunPerf.Lib

/-- What happens to a counter. -/
inductive Sampling (A : Type*)
  | add (amount : A)
  | sample

namespace Sampling

variable {A B : Type*}

/-- The amounts that were added, in order. -/
def amounts (marks : List (Sampling A)) : List A :=
  marks.filterMap fun
    | .add amount => some amount
    | .sample => none

def map (f : A → B) : Sampling A → Sampling B
  | .add amount => .add (f amount)
  | .sample => .sample

section Intervals

variable [AddCommMonoid A] [AddCommMonoid B]

/-- What was added up to each sample since the one before, and what was added since the last. -/
def cut (marks : List (Sampling A)) : List A × A :=
  marks.foldl
    (fun sums mark =>
      match mark with
      | .add amount => (sums.1, sums.2 + amount)
      | .sample => (sums.1 ++ [sums.2], 0))
    ([], 0)

/-- What was added between two samples. -/
def intervals (marks : List (Sampling A)) : List A := (cut marks).1

/-- What was added behind the last sample. -/
def rest (marks : List (Sampling A)) : A := (cut marks).2

@[simp] theorem intervals_snoc_add (marks : List (Sampling A)) (amount : A) :
    intervals (marks ++ [.add amount]) = intervals marks := by
  simp [intervals, cut]

@[simp] theorem intervals_snoc_sample (marks : List (Sampling A)) :
    intervals (marks ++ [.sample]) = intervals marks ++ [rest marks] := by
  simp [intervals, rest, cut]

@[simp] theorem rest_snoc_add (marks : List (Sampling A)) (amount : A) :
    rest (marks ++ [.add amount]) = rest marks + amount := by
  simp [rest, cut]

@[simp] theorem rest_snoc_sample (marks : List (Sampling A)) : rest (marks ++ [.sample]) = 0 := by
  simp [rest, cut]

/-- Nothing is lost between the intervals. -/
theorem sum_intervals_add_rest (marks : List (Sampling A)) :
    (intervals marks).sum + rest marks = (amounts marks).sum := by
  induction marks using List.reverseRecOn with
  | nil => simp [intervals, rest, cut, amounts]
  | append_singleton marks mark ih =>
      cases mark with
      | add amount =>
          rw [intervals_snoc_add, rest_snoc_add, ← add_assoc, ih]
          simp [amounts]
      | sample =>
          rw [intervals_snoc_sample, rest_snoc_sample, List.sum_append, List.sum_singleton,
            add_zero, ih]
          simp [amounts]

/-- The intervals of a counter in another group. -/
theorem cut_map (f : A →+ B) (marks : List (Sampling A)) :
    intervals (marks.map (map f)) = (intervals marks).map f ∧
      rest (marks.map (map f)) = f (rest marks) := by
  induction marks using List.reverseRecOn with
  | nil => simp [intervals, rest, cut]
  | append_singleton marks mark ih =>
      obtain ⟨hintervals, hrest⟩ := ih
      cases mark with
      | add amount => simp [map, hintervals, hrest]
      | sample => simp [map, hintervals, hrest]

end Intervals

/-! ## What the observer shows -/

variable [AddCommGroup A] {marks : List (Sampling A)} {value last sampled : A}
  {loaded : Option A} {shown : List A}

/-- The counter stands at `value` and the observer has shown `shown` so far.  It remembers the
sample that it showed `last`, and may have a newer one that it has not shown yet. -/
structure Shows (marks : List (Sampling A)) (value last : A) (loaded : Option A)
    (shown : List A) : Prop where
  value_eq : value = (amounts marks).sum
  last_eq : last = shown.sum
  intervals_eq : intervals marks =
    shown ++ (loaded.map fun sampled => sampled - last).toList

theorem Shows.nil : Shows ([] : List (Sampling A)) 0 0 none [] :=
  ⟨rfl, rfl, rfl⟩

theorem Shows.add (h : Shows marks value last loaded shown) (amount : A) :
    Shows (marks ++ [.add amount]) (value + amount) last loaded shown := by
  refine ⟨?_, h.last_eq, ?_⟩
  · rw [h.value_eq]
    simp [amounts]
  · rw [intervals_snoc_add, h.intervals_eq]

/-- A sample finds what was added since the one before. -/
theorem Shows.sample (h : Shows marks value last none shown) :
    Shows (marks ++ [.sample]) value last (some value) shown := by
  have hshown : intervals marks = shown := by simpa using h.intervals_eq
  refine ⟨?_, h.last_eq, ?_⟩
  · rw [h.value_eq]
    simp [amounts]
  · have hsum := sum_intervals_add_rest marks
    rw [← h.value_eq, hshown, ← h.last_eq] at hsum
    rw [intervals_snoc_sample, hshown, ← hsum]
    simp

/-- The observer shows how much the counter has grown. -/
theorem Shows.print (h : Shows marks value last (some sampled) shown) :
    Shows marks value sampled none (shown ++ [sampled - last]) := by
  refine ⟨h.value_eq, ?_, ?_⟩
  · rw [List.sum_append, ← h.last_eq]
    simp
  · simpa using h.intervals_eq

/-- What was shown, with what was sampled or added since, is all there is. -/
theorem Shows.sum_add (h : Shows marks value last loaded shown) :
    shown.sum + ((intervals marks).drop shown.length).sum + rest marks = value := by
  have hsum := sum_intervals_add_rest marks
  have hsplit : (intervals marks).sum =
      shown.sum + ((intervals marks).drop shown.length).sum := by
    rw [h.intervals_eq, List.drop_left, List.sum_append]
  rw [h.value_eq, ← hsum, hsplit]

end Sampling

end RunPerf.Lib
