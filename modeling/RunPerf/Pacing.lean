import RunPerf.Lib.Windows

/-!
# Pacing

The UDP client and the AF_XDP generator pace themselves in the same way: they count what
they sent since `sec_start`, and once the count has reached the budget of a worker they
sleep for the rest of the second and start over.

In terms of `Lib.Windows`, what is sent since `sec_start` is a window, and starting over opens
the next one.
-/

namespace RunPerf

open RunPerf.Lib

/-- One second on the clock, in nanoseconds. -/
def second : ℕ := 1000000000

/-- What a worker has sent since the last start, and when that was. -/
structure Pacer where
  sentSec : UInt64
  secStart : ℕ
deriving DecidableEq, Repr

namespace Pacer

def note (p : Pacer) (n : UInt64) : Pacer := { p with sentSec := p.sentSec + n }

/-- The time to sleep when the clock shows `read`: the rest of the second, or nothing. -/
def pause (p : Pacer) (read : ℕ) : ℕ := second - (read - p.secStart)

/-- The pacing at the end of a turn.  The clock shows `read`, and shows the next start
`late` after the end of the sleep.  A budget of `0` means no limit. -/
def pace (budget : UInt64) (read late : ℕ) (p : Pacer) : Pacer :=
  if budget > 0 ∧ p.sentSec ≥ budget then ⟨0, read + p.pause read + late⟩ else p

/-- The worker has to sleep and start over. -/
def Due (budget : UInt64) (p : Pacer) : Prop := budget > 0 ∧ p.sentSec ≥ budget

instance (budget : UInt64) (p : Pacer) : Decidable (p.Due budget) :=
  inferInstanceAs (Decidable (_ ∧ _))

/-- What the pacing shows: the new `sec_start`, if there is one. -/
def paceMarks (budget : UInt64) (read late : ℕ) (p : Pacer) : List Mark :=
  if p.Due budget then [.reset (p.pace budget read late).secStart] else []

/-- When the pacing is over. -/
def paceEnd (budget : UInt64) (read late : ℕ) (p : Pacer) : ℕ :=
  if p.Due budget then (p.pace budget read late).secStart else read

variable {budget : UInt64} {p : Pacer} (read late : ℕ)

theorem itemTimes_paceMarks : itemTimes (p.paceMarks budget read late) = [] := by
  unfold paceMarks
  split <;> rfl

theorem pace_of_due (hdue : p.Due budget) :
    p.pace budget read late = ⟨0, read + p.pause read + late⟩ := if_pos hdue

theorem pace_of_not_due (hdue : ¬ p.Due budget) : p.pace budget read late = p := if_neg hdue

/-- Behind the pacing the budget is not used up. -/
theorem sentSec_pace_lt (hbudget : 1 ≤ budget) : (p.pace budget read late).sentSec < budget := by
  by_cases hdue : p.Due budget
  · rw [pace_of_due read late hdue]
    exact UInt64.lt_iff_toNat_lt.mpr (UInt64.le_iff_toNat_le.mp hbudget)
  · rw [pace_of_not_due read late hdue]
    exact UInt64.not_le.mp fun hle => hdue ⟨UInt64.lt_iff_toNat_lt.mpr hbudget, hle⟩

/-- The open window of a paced worker. -/
def window (p : Pacer) (now : ℕ) : Window := ⟨p.secStart, p.sentSec.toNat, now⟩

/-- **The pacing opens windows a second apart.** -/
theorem path_pace (budget : UInt64) (cap start : ℕ) {now : ℕ} (hstart : p.secStart ≤ now)
    (hnow : now ≤ read) :
    ∃ mid, (p.pace budget read late).secStart ≤ mid ∧ mid ≤ p.paceEnd budget read late ∧
      (windows second cap start).Path (p.window now) (p.paceMarks budget read late)
        ((p.pace budget read late).window mid) := by
  by_cases hdue : p.Due budget
  · rw [paceMarks, paceEnd, if_pos hdue, if_pos hdue, pace_of_due read late hdue]
    refine ⟨_, le_rfl, le_rfl, ?_⟩
    -- The sleep lasts at least until a second has passed since `sec_start`.
    refine .single (.reset ?_ ?_)
    · show now ≤ read + p.pause read + late
      omega
    · show p.secStart + second ≤ read + p.pause read + late
      rw [pause]
      omega
  · rw [paceMarks, paceEnd, if_neg hdue, if_neg hdue, pace_of_not_due read late hdue]
    exact ⟨now, hstart, hnow, .nil⟩

end Pacer

end RunPerf
