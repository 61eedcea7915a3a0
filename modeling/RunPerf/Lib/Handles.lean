import Mathlib.Data.Finset.Basic
import Mathlib.Tactic

/-!
# Handles that are acquired and released

Computations that acquire handles from a system, release them, and may fail.  A handle is told
apart from all others by its serial number, also if the system gives out the same name again, so
releasing a handle twice is always noticed.

`onError` is how an early exit cleans up.  `recorded` keeps what a call found and what it left.
-/

namespace RunPerf.Lib

structure Handle (Kind : Type*) where
  kind : Kind
  serial : ℕ
deriving DecidableEq

/-- What a recorded call found and left, and whether it failed. -/
structure CallRecord (Kind : Type*) where
  failed : Bool
  found : Finset (Handle Kind)
  left : Finset (Handle Kind)

/-- A failed call leaves what it found. -/
def CallRecord.Clean {Kind : Type*} (call : CallRecord Kind) : Prop :=
  call.failed = true → call.left = call.found

structure Handles (Kind : Type*) where
  held : Finset (Handle Kind)
  next : ℕ
  /-- A handle was released that was not held. -/
  twice : Bool
  calls : List (CallRecord Kind)
  fresh : ∀ handle ∈ held, handle.serial < next

/-- A computation with handles, which may fail. -/
abbrev Acquiring (Kind ε : Type) := ExceptT ε (StateM (Handles Kind))

namespace Handles

variable {Kind : Type} {ε α β : Type}

/-- If `body` fails, clean up behind it. -/
def onError (cleanup : Handles Kind → Handles Kind) (body : Acquiring Kind ε α) :
    Acquiring Kind ε α :=
  fun s =>
    match body s with
    | (.ok a, t) => (.ok a, t)
    | (.error e, t) => (.error e, cleanup t)

/-- If `first` fails, go on with `second` instead. -/
def orElse (first second : Acquiring Kind ε α) : Acquiring Kind ε α :=
  fun s =>
    match first s with
    | (.ok a, t) => (.ok a, t)
    | (.error _, t) => second t

def record (failed : Bool) (found : Finset (Handle Kind)) (s : Handles Kind) : Handles Kind :=
  { s with calls := s.calls ++ [⟨failed, found, s.held⟩] }

def recorded (body : Acquiring Kind ε α) : Acquiring Kind ε α :=
  fun s =>
    match body s with
    | (.ok a, t) => (.ok a, t.record false s.held)
    | (.error e, t) => (.error e, t.record true s.held)

/-! ## Pre- and postconditions -/

/-- How `body` ends when it is started in `s`. -/
def Ends (body : Acquiring Kind ε α) (s : Handles Kind) (ok : α → Handles Kind → Prop)
    (error : Handles Kind → Prop) : Prop :=
  match body s with
  | (.ok a, t) => ok a t
  | (.error _, t) => error t

section Rules

variable {s : Handles Kind} {cleanup : Handles Kind → Handles Kind} {x : Acquiring Kind ε α}
  {f : α → Acquiring Kind ε β} {ok ok' : α → Handles Kind → Prop}
  {error error' : Handles Kind → Prop}

theorem ends_pure {a : α} (h : ok a s) : Ends (pure a : Acquiring Kind ε α) s ok error := h

theorem ends_throw {e : ε} (h : error s) : Ends (throw e : Acquiring Kind ε α) s ok error := h

theorem ends_bind {ok : β → Handles Kind → Prop}
    (h : Ends x s (fun a t => Ends (f a) t ok error) error) : Ends (x >>= f) s ok error := by
  unfold Ends at h ⊢
  show match (ExceptT.bind x f) s with | (.ok b, t) => ok b t | (.error _, t) => error t
  simp only [ExceptT.bind, ExceptT.mk, bind, StateT.bind]
  cases hx : x s with
  | mk result t =>
      rw [hx] at h
      cases result with
      | ok a => exact h
      | error e => exact h

theorem ends_onError (h : Ends x s ok fun t => error (cleanup t)) :
    Ends (onError cleanup x) s ok error := by
  unfold Ends onError at *
  cases hx : x s with
  | mk result t => cases result <;> simpa [hx] using h

theorem ends_orElse {y : Acquiring Kind ε α}
    (h : Ends x s ok fun t => Ends y t ok error) : Ends (orElse x y) s ok error := by
  unfold Ends orElse at *
  cases hx : x s with
  | mk result t => cases result <;> simpa [hx] using h

theorem ends_recorded (h : Ends x s (fun a t => ok a (t.record false s.held))
    fun t => error (t.record true s.held)) : Ends (recorded x) s ok error := by
  unfold Ends recorded at *
  cases hx : x s with
  | mk result t => cases result <;> simpa [hx] using h

theorem Ends.imp (h : Ends x s ok error) (hok : ∀ a t, ok a t → ok' a t)
    (herror : ∀ t, error t → error' t) : Ends x s ok' error' := by
  unfold Ends at *
  cases hx : x s with
  | mk result t =>
      rw [hx] at h
      cases result with
      | ok a => exact hok a t h
      | error e => exact herror t h

/-- What holds however a computation ends. -/
theorem Ends.snd (h : Ends x s (fun _ t => error t) error) : error (x s).2 := by
  unfold Ends at h
  cases hx : x s with
  | mk result t =>
      rw [hx] at h
      cases result <;> exact h

end Rules

/-! ## Acquiring and releasing -/

variable [DecidableEq Kind]

def release (handle : Handle Kind) (s : Handles Kind) : Handles Kind where
  held := s.held.erase handle
  next := s.next
  twice := s.twice || decide (handle ∉ s.held)
  calls := s.calls
  fresh := fun h hmem => s.fresh h (Finset.mem_of_mem_erase hmem)

/-- The handle of kind `kind` that is acquired next. -/
def upcoming (kind : Kind) (s : Handles Kind) : Handle Kind := ⟨kind, s.next⟩

def grant (kind : Kind) (s : Handles Kind) : Handles Kind where
  held := insert (s.upcoming kind) s.held
  next := s.next + 1
  twice := s.twice
  calls := s.calls
  fresh := by
    intro handle hmem
    rcases Finset.mem_insert.mp hmem with rfl | hold
    · exact Nat.lt_succ_self _
    · exact (s.fresh handle hold).trans (Nat.lt_succ_self _)

def acquire (kind : Kind) : Acquiring Kind ε (Handle Kind) :=
  fun s => (.ok (s.upcoming kind), s.grant kind)

theorem ends_acquire {s : Handles Kind} {kind : Kind} {ok : Handle Kind → Handles Kind → Prop}
    {error : Handles Kind → Prop} (h : ok (s.upcoming kind) (s.grant kind)) :
    Ends (acquire kind : Acquiring Kind ε _) s ok error := h

/-- Release handles one after the other. -/
def releaseAll (handles : List (Handle Kind)) (s : Handles Kind) : Handles Kind :=
  handles.foldl (fun s handle => s.release handle) s

theorem releaseAll_spec {handles : List (Handle Kind)} {s : Handles Kind} (hnodup : handles.Nodup)
    (hheld : ∀ handle ∈ handles, handle ∈ s.held) :
    (s.releaseAll handles).twice = s.twice ∧ (s.releaseAll handles).calls = s.calls := by
  induction handles generalizing s with
  | nil => exact ⟨rfl, rfl⟩
  | cons handle rest ih =>
      obtain ⟨hnew, hrest⟩ := List.nodup_cons.mp hnodup
      obtain ⟨htwice, hcalls⟩ := ih (s := s.release handle) hrest (by
        intro other hother
        have hne : other ≠ handle := fun heq => hnew (heq ▸ hother)
        exact Finset.mem_erase.mpr ⟨hne, hheld other (List.mem_cons_of_mem _ hother)⟩)
      refine ⟨htwice.trans ?_, hcalls⟩
      simp [release, hheld handle List.mem_cons_self]

/-- From `s` to `t`, `more` has been acquired and nothing was released twice. -/
structure Adds (s : Handles Kind) (more : Finset (Handle Kind)) (t : Handles Kind) : Prop where
  held : t.held = s.held ∪ more
  later : ∀ handle ∈ more, s.next ≤ handle.serial
  next : s.next ≤ t.next
  twice : t.twice = s.twice
  calls : t.calls = s.calls

namespace Adds

variable {s t u : Handles Kind} {more further : Finset (Handle Kind)} {handle : Handle Kind}

theorem refl (s : Handles Kind) : Adds s ∅ s where
  held := (Finset.union_empty _).symm
  later := by simp
  next := le_rfl
  twice := rfl
  calls := rfl

/-- What was acquired was not held before. -/
theorem notMem (h : Adds s more t) (hmem : handle ∈ more) : handle ∉ s.held :=
  fun hheld => absurd (s.fresh handle hheld) (Nat.not_lt.mpr (h.later handle hmem))

theorem grant (h : Adds s more t) (kind : Kind) :
    Adds s (insert (t.upcoming kind) more) (t.grant kind) where
  held := by
    show insert (t.upcoming kind) t.held = _
    rw [h.held, Finset.union_insert]
  later := by
    intro handle hmem
    rcases Finset.mem_insert.mp hmem with rfl | hold
    · exact h.next
    · exact h.later handle hold
  next := h.next.trans (Nat.le_succ _)
  twice := h.twice
  calls := h.calls

theorem release (h : Adds s more t) (handle : Handle Kind) (hmem : handle ∈ more) :
    Adds s (more.erase handle) (t.release handle) where
  held := by
    show t.held.erase handle = _
    rw [h.held, Finset.erase_union_distrib, Finset.erase_eq_of_notMem (h.notMem hmem)]
  later := fun other hother => h.later other (Finset.mem_of_mem_erase hother)
  next := h.next
  twice := by
    have hheld : handle ∈ t.held := by
      rw [h.held]
      exact Finset.mem_union_right _ hmem
    show (t.twice || decide (handle ∉ t.held)) = s.twice
    rw [h.twice, decide_eq_false (not_not.mpr hheld), Bool.or_false]
  calls := h.calls

theorem congr (h : Adds s more t) (heq : more = further) : Adds s further t := heq ▸ h

/-- A failed call is clean exactly if it added nothing. -/
theorem held_eq_iff (h : Adds s more t) : t.held = s.held ↔ more = ∅ := by
  constructor
  · intro heq
    rw [Finset.eq_empty_iff_forall_notMem]
    intro handle hmem
    apply h.notMem hmem
    rw [← heq, h.held]
    exact Finset.mem_union_right _ hmem
  · intro heq
    rw [h.held, heq, Finset.union_empty]

end Adds

end Handles

end RunPerf.Lib
