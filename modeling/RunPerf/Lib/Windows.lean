import RunPerf.Lib.Machine
import Mathlib.Tactic

/-!
# Items in windows

A source emits items and opens a new window from time to time.  It emits at most `cap` items in
a window, and a window is open for at least `period`; otherwise the times are arbitrary.

In half-open intervals of one period there are then at most two windows that count, hence at
most `2 * cap` items (`inInterval_le`), and up to a time `T` at most as many windows as periods
have begun (`upTo_le`).
-/

namespace RunPerf.Lib

/-- What a source does, with the time. -/
inductive Mark
  | item (time : ℕ)
  | reset (time : ℕ)
deriving DecidableEq, Repr

/-- The times of the items, in order. -/
def itemTimes (trace : List Mark) : List ℕ :=
  trace.filterMap fun
    | .item time => some time
    | .reset _ => none

/-- The times at which a window opens, in order. -/
def resetTimes (trace : List Mark) : List ℕ :=
  trace.filterMap fun
    | .item _ => none
    | .reset time => some time

/-- The open window: when it was opened, the items in it, and the time of the last mark. -/
structure Window where
  start : ℕ
  count : ℕ
  now : ℕ

inductive WindowStep (period cap : ℕ) (w : Window) : Mark → Window → Prop
  | item {time : ℕ} (hnow : w.now ≤ time) (hcap : w.count < cap) :
      WindowStep period cap w (.item time) ⟨w.start, w.count + 1, time⟩
  | reset {time : ℕ} (hnow : w.now ≤ time) (hperiod : w.start + period ≤ time) :
      WindowStep period cap w (.reset time) ⟨time, 0, time⟩

/-- A source whose first window opens at `start`. -/
def windows (period cap start : ℕ) : Machine Window Mark where
  Init w := w = ⟨start, 0, start⟩
  Step := WindowStep period cap

namespace Windows

variable {period cap start : ℕ} {s t : Window} {trace : List Mark}

@[simp] theorem itemTimes_append (first second : List Mark) :
    itemTimes (first ++ second) = itemTimes first ++ itemTimes second :=
  List.filterMap_append

@[simp] theorem resetTimes_append (first second : List Mark) :
    resetTimes (first ++ second) = resetTimes first ++ resetTimes second :=
  List.filterMap_append

/-- What holds of every window. -/
structure Sound (cap : ℕ) (w : Window) : Prop where
  opened : w.start ≤ w.now
  count : w.count ≤ cap

theorem sound_step {mark : Mark} (h : Sound cap s) (hstep : WindowStep period cap s mark t) :
    Sound cap t := by
  obtain ⟨hopened, hcount⟩ := h
  cases hstep with
  | item hnow hcap => exact ⟨hopened.trans hnow, hcap⟩
  | reset hnow hperiod => exact ⟨le_rfl, Nat.zero_le _⟩

theorem sound_path (h : Sound cap s) (hpath : (windows period cap start).Path s trace t) :
    Sound cap t :=
  hpath.invariant (P := fun _ w => Sound cap w) h fun _ _ _ _ _ hw hstep => sound_step hw hstep

/-- Items in the open window, as many as it has room for. -/
theorem path_items {times : List ℕ} (hforward : (s.now :: times).IsChain (· ≤ ·))
    (hcap : s.count + times.length ≤ cap) :
    ∃ now ∈ s.now :: times, (windows period cap start).Path s (times.map .item)
      ⟨s.start, s.count + times.length, now⟩ := by
  induction times generalizing s with
  | nil => exact ⟨s.now, List.mem_cons_self, .nil⟩
  | cons time rest ih =>
      obtain ⟨hnow, hrest⟩ := List.isChain_cons_cons.mp hforward
      rw [List.length_cons] at hcap
      have hfirst : (windows period cap start).Path s [.item time] ⟨s.start, s.count + 1, time⟩ :=
        .single (.item hnow (by omega))
      obtain ⟨now, hmem, hlater⟩ := ih (s := ⟨s.start, s.count + 1, time⟩) hrest (by
        show s.count + 1 + rest.length ≤ cap
        omega)
      refine ⟨now, List.mem_cons_of_mem _ hmem, ?_⟩
      rw [List.length_cons, Nat.add_comm rest.length, ← Nat.add_assoc]
      exact hfirst.append hlater

/-! ## Windows -/

/-- Windows are opened at least a period apart. -/
theorem isChain_resetTimes (hpath : (windows period cap start).Path s trace t) :
    (s.start :: resetTimes trace).IsChain (fun r r' => r + period ≤ r') := by
  have h : (s.start :: resetTimes trace).IsChain (fun r r' => r + period ≤ r') ∧
      (s.start :: resetTimes trace).getLast? = some t.start := by
    refine hpath.invariant (P := fun trace t =>
      (s.start :: resetTimes trace).IsChain (fun r r' => r + period ≤ r') ∧
        (s.start :: resetTimes trace).getLast? = some t.start) ⟨.singleton _, rfl⟩ ?_
    rintro trace u mark v - ⟨hchain, hlast⟩ hstep
    cases hstep with
    | item hnow hcap => simpa [resetTimes] using ⟨hchain, hlast⟩
    | reset hnow hperiod =>
        rename_i time
        have hmore : s.start :: resetTimes (trace ++ [.reset time]) =
            (s.start :: resetTimes trace) ++ [time] := by
          simp [resetTimes]
        rw [hmore]
        refine ⟨List.isChain_append.mpr ⟨hchain, .singleton _, ?_⟩, List.getLast?_concat⟩
        intro x hx y hy
        rw [hlast, Option.mem_some_iff] at hx
        rw [List.head?_cons, Option.mem_some_iff] at hy
        rw [← hx, ← hy]
        exact hperiod
  exact h.1

/-- While no window is opened, the items are counted. -/
theorem count_of_no_reset (hpath : (windows period cap start).Path s trace t)
    (hnone : resetTimes trace = []) : t.count = s.count + (itemTimes trace).length := by
  have h : resetTimes trace = [] → t.count = s.count + (itemTimes trace).length := by
    refine hpath.invariant (P := fun trace t => resetTimes trace = [] →
      t.count = s.count + (itemTimes trace).length) (fun _ => rfl) ?_
    intro trace u mark v _ ih hstep hnone
    cases hstep with
    | item hnow hcap =>
        have hbefore := ih (by simpa [resetTimes] using hnone)
        simp [itemTimes] at hbefore ⊢
        omega
    | reset hnow hperiod => simp [resetTimes] at hnone
  exact h hnone

/-- **A window has at most `cap` items.** -/
theorem length_window_le {first inside last : List Mark} (h : Sound cap s)
    (hpath : (windows period cap start).Path s (first ++ inside ++ last) t)
    (hnone : resetTimes inside = []) : (itemTimes inside).length ≤ cap := by
  obtain ⟨v, hbefore, -⟩ := hpath.split
  obtain ⟨u, -, hinside⟩ := hbefore.split
  have hcount := count_of_no_reset hinside hnone
  have hsound := (sound_path h hbefore).count
  omega

/-! ## Intervals -/

/-- The items of `trace` in the period from `a` on. -/
def inInterval (period a : ℕ) (trace : List Mark) : ℕ :=
  (itemTimes trace).countP fun time => a ≤ time ∧ time < a + period

/-- What is known about the interval, depending on where the open window began. -/
structure Counted (period cap a : ℕ) (trace : List Mark) (w : Window) : Prop where
  sound : Sound cap w
  /-- The interval has not begun. -/
  early : w.now < a → inInterval period a trace = 0
  /-- Only items of the open window count. -/
  first : w.start < a → inInterval period a trace ≤ w.count
  /-- The open window is the second one that counts. -/
  second : w.start < a + period → inInterval period a trace ≤ cap + w.count
  bound : inInterval period a trace ≤ 2 * cap

theorem inInterval_snoc_item (a time : ℕ) (trace : List Mark) :
    inInterval period a (trace ++ [.item time]) =
      inInterval period a trace + if a ≤ time ∧ time < a + period then 1 else 0 := by
  simp [inInterval, itemTimes, List.countP_append, List.countP_singleton]

theorem inInterval_snoc_reset (a time : ℕ) (trace : List Mark) :
    inInterval period a (trace ++ [.reset time]) = inInterval period a trace := by
  simp [inInterval, itemTimes]

theorem counted_step {a : ℕ} {mark : Mark} (h : Counted period cap a trace s)
    (hstep : WindowStep period cap s mark t) : Counted period cap a (trace ++ [mark]) t := by
  have hsound := sound_step h.sound hstep
  obtain ⟨⟨hopened, hcount⟩, hearly, hfirst, hsecond, hbound⟩ := h
  cases hstep with
  | item hnow hcap =>
      rename_i time
      refine ⟨hsound, fun (hlt : time < a) => ?_, fun (hlt : s.start < a) => ?_,
        fun (hlt : s.start < a + period) => ?_, ?_⟩
      · rw [inInterval_snoc_item, if_neg (by omega)]
        exact hearly (by omega)
      · show _ ≤ s.count + 1
        rw [inInterval_snoc_item]
        split <;> omega
      · show _ ≤ cap + (s.count + 1)
        rw [inInterval_snoc_item]
        split <;> omega
      · rw [inInterval_snoc_item]
        split <;> omega
  | reset hnow hperiod =>
      rename_i time
      refine ⟨hsound, fun (hlt : time < a) => ?_, fun (hlt : time < a) => ?_,
        fun (hlt : time < a + period) => ?_, ?_⟩
      all_goals
        rw [inInterval_snoc_reset]
        omega

/-- **Any interval of one period has at most `2 * cap` items.** -/
theorem inInterval_le (hs : s = ⟨start, 0, start⟩)
    (hpath : (windows period cap start).Path s trace t) (a : ℕ) :
    inInterval period a trace ≤ 2 * cap := by
  have hinit : Counted period cap a [] s := by
    subst hs
    exact ⟨⟨le_rfl, Nat.zero_le _⟩, fun _ => rfl, fun _ => Nat.zero_le _, fun _ => Nat.zero_le _,
      Nat.zero_le _⟩
  exact (hpath.invariant (P := Counted period cap a) hinit
    fun _ _ _ _ _ h hstep => counted_step h hstep).bound

/-! ## Up to a time -/

/-- The items of `trace` up to the time `T`. -/
def upTo (T : ℕ) (trace : List Mark) : ℕ := (itemTimes trace).countP fun time => time ≤ T

theorem upTo_append (T : ℕ) (first second : List Mark) :
    upTo T (first ++ second) = upTo T first + upTo T second := by
  rw [upTo, itemTimes_append, List.countP_append]
  rfl

/-- What is known about the items up to `T`, in terms of the periods since `start`. -/
structure CountedUpTo (period cap start T : ℕ) (trace : List Mark) (w : Window) : Prop where
  sound : Sound cap w
  started : start ≤ w.start
  running : w.start ≤ T → upTo T trace ≤ cap * ((w.start - start) / period) + w.count
  total : upTo T trace ≤ cap * ((T - start) / period + 1)

theorem upTo_snoc_item (T time : ℕ) (trace : List Mark) :
    upTo T (trace ++ [.item time]) = upTo T trace + if time ≤ T then 1 else 0 := by
  simp [upTo, itemTimes, List.countP_append, List.countP_singleton]

theorem upTo_snoc_reset (T time : ℕ) (trace : List Mark) :
    upTo T (trace ++ [.reset time]) = upTo T trace := by
  simp [upTo, itemTimes]

/-- Windows that began by `T` are among the periods up to `T`. -/
theorem windows_le (period cap start : ℕ) {time T count : ℕ} (htime : time ≤ T)
    (hcount : count ≤ cap) :
    cap * ((time - start) / period) + count ≤ cap * ((T - start) / period + 1) := by
  have hdiv : (time - start) / period ≤ (T - start) / period := Nat.div_le_div_right (by omega)
  calc cap * ((time - start) / period) + count
      ≤ cap * ((T - start) / period) + cap := Nat.add_le_add (Nat.mul_le_mul_left cap hdiv) hcount
    _ = cap * ((T - start) / period + 1) := (Nat.mul_succ _ _).symm

theorem countedUpTo_step {T : ℕ} {mark : Mark} (hperiod : 0 < period)
    (h : CountedUpTo period cap start T trace s) (hstep : WindowStep period cap s mark t) :
    CountedUpTo period cap start T (trace ++ [mark]) t := by
  have hsound := sound_step h.sound hstep
  obtain ⟨⟨hopened, hcount⟩, hstarted, hrunning, htotal⟩ := h
  cases hstep with
  | item hnow hcap =>
      rename_i time
      refine ⟨hsound, hstarted, ?_, ?_⟩
      · intro hT
        have hle := hrunning hT
        rw [upTo_snoc_item]
        simp only
        split <;> omega
      · rw [upTo_snoc_item]
        split
        · -- The window is open at `T`.
          rename_i htime
          have hle := hrunning (by omega)
          have hbound := windows_le period cap start
            (show s.start ≤ T by omega) (show s.count + 1 ≤ cap by omega)
          omega
        · omega
  | reset hnow hapart =>
      rename_i time
      refine ⟨hsound, by simp only; omega, ?_, ?_⟩
      · intro hT
        simp only at hT ⊢
        have hle := hrunning (by omega)
        rw [upTo_snoc_reset, Nat.add_zero]
        have hdiv : (s.start - start) / period + 1 ≤ (time - start) / period := by
          rw [← Nat.add_div_right _ hperiod]
          exact Nat.div_le_div_right (by omega)
        calc upTo T trace
            ≤ cap * ((s.start - start) / period) + s.count := hle
          _ ≤ cap * ((s.start - start) / period + 1) := by rw [Nat.mul_succ]; omega
          _ ≤ cap * ((time - start) / period) := Nat.mul_le_mul_left cap hdiv
      · rw [upTo_snoc_reset]
        exact htotal

/-- **Up to a time there are at most as many windows as periods have begun.** -/
theorem upTo_le (hperiod : 0 < period) (hs : s = ⟨start, 0, start⟩)
    (hpath : (windows period cap start).Path s trace t) (T : ℕ) :
    upTo T trace ≤ cap * ((T - start) / period + 1) := by
  have hinit : CountedUpTo period cap start T [] s := by
    subst hs
    exact ⟨⟨le_rfl, Nat.zero_le _⟩, le_rfl, fun _ => Nat.zero_le _, Nat.zero_le _⟩
  exact (hpath.invariant (P := CountedUpTo period cap start T) hinit
    fun _ _ _ _ _ h hstep => countedUpTo_step hperiod h hstep).total

/-! ## Several sources -/

/-- **Sources side by side.**  None of them starts before `first`, so each has had at most the
windows of the periods since. -/
theorem sum_upTo_le {ι : Type*} (sources : Finset ι) (opens : ι → ℕ) (traces : ι → List Mark)
    {first : ℕ} (hperiod : 0 < period) (hfirst : ∀ i ∈ sources, first ≤ opens i)
    (hpath : ∀ i ∈ sources, ∃ w,
      (windows period cap (opens i)).Path ⟨opens i, 0, opens i⟩ (traces i) w) (T : ℕ) :
    ∑ i ∈ sources, upTo T (traces i) ≤ sources.card * cap * ((T - first) / period + 1) := by
  have hsource : ∀ i ∈ sources, upTo T (traces i) ≤ cap * ((T - first) / period + 1) := by
    intro i hi
    obtain ⟨w, hw⟩ := hpath i hi
    have hlater := hfirst i hi
    calc upTo T (traces i)
        ≤ cap * ((T - opens i) / period + 1) := upTo_le hperiod rfl hw T
      _ ≤ cap * ((T - first) / period + 1) := by
          apply Nat.mul_le_mul_left
          exact Nat.add_le_add_right (Nat.div_le_div_right (by omega)) 1
  calc ∑ i ∈ sources, upTo T (traces i)
      ≤ ∑ _i ∈ sources, cap * ((T - first) / period + 1) := Finset.sum_le_sum hsource
    _ = sources.card * cap * ((T - first) / period + 1) := by
        rw [Finset.sum_const, smul_eq_mul, Nat.mul_assoc]

end Windows

end RunPerf.Lib
