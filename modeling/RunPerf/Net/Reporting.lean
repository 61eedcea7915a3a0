import Mathlib.Order.Monotone.Basic
import Mathlib.Tactic

/-!
# The time that the summary divides by

`tcp_client` and `udp_client` have the same frame.  They start the reporter, read the clock,
spawn their workers and join them, clear `run`, join the reporter, and take the time since the
clock was read as the duration of the test.  The reporter looks at `run` between sleeps of one
second, so it may be asleep when `run` is cleared, and the join waits for the rest of the
sleep.

A schedule says when each worker ends and how long every other step takes, in nanoseconds.
The reported time is the sending time plus what the own steps of the client take after the
last worker has ended, plus the wait for the reporter (`secs_eq`).  The wait is nothing only
if the reporter happens to look at `run` between the moment it is cleared and the join.
-/

namespace RunPerf.Net

/-- One second. -/
def second : ℕ := 1000000000

/-- When the workers of a client end, and how long the steps around them take. -/
structure Schedule where
  /-- When the reporter first loads `run`. -/
  reporterStart : ℕ
  /-- What the reporter takes from the end of a sleep to the next load, and into the sleep. -/
  report : ℕ → ℕ
  /-- `start`. -/
  start : ℕ
  /-- When all workers are spawned. -/
  spawned : ℕ
  /-- When each worker ends, and how long its join takes from then on. -/
  workers : List (ℕ × ℕ)
  /-- From the last join to the store to `run`. -/
  store : ℕ
  /-- From the store into the join of the reporter. -/
  call : ℕ
  /-- From the last load of the reporter to the return of its join. -/
  exit : ℕ
  /-- From there to the reading of the clock. -/
  read : ℕ
  start_le_spawned : start ≤ spawned
  start_le_end : ∀ worker ∈ workers, start ≤ worker.1

/-- The loop of the reporter from its `k`-th load on, which happens at `now`: the time of the
load that finds `run` cleared. -/
def reporterLoop (report : ℕ → ℕ) (stored k now : ℕ) : ℕ :=
  if now < stored then reporterLoop report stored (k + 1) (now + second + report k) else now
termination_by stored - now
decreasing_by
  unfold second
  omega

/-- The loop over the handles: a join returns when the worker has ended. -/
def joinAll (now : ℕ) : List (ℕ × ℕ) → ℕ
  | [] => now
  | (ended, join) :: rest => joinAll (max now ended + join) rest

namespace Schedule

variable (s : Schedule)

/-- When all workers are joined. -/
def joined : ℕ := joinAll s.spawned s.workers

/-- When `run` is cleared. -/
def stored : ℕ := s.joined + s.store

/-- When the client is in the join of the reporter. -/
def joinCall : ℕ := s.stored + s.call

/-- When the reporter finds `run` cleared. -/
def reporterExit : ℕ := reporterLoop s.report s.stored 0 s.reporterStart

def joinReturn : ℕ := max s.joinCall (s.reporterExit + s.exit)

/-- `secs` of the summary: `start.elapsed()`. -/
def secs : ℕ := s.joinReturn + s.read - s.start

/-- When the last worker has ended. -/
def lastEnd : ℕ := s.workers.foldl (fun last worker => max last worker.1) s.start

/-- The time from `start` until the last worker has ended. -/
def sendingTime : ℕ := s.lastEnd - s.start

/-- When the reporter would load `run` for the `k`-th time. -/
def check (s : Schedule) : ℕ → ℕ
  | 0 => s.reporterStart
  | k + 1 => s.check k + second + s.report k

/-! ## The reporter -/

theorem check_strictMono : StrictMono s.check := by
  apply strictMono_nat_of_lt_succ
  intro k
  rw [check, second]
  omega

/-- The loop ends with the first load behind the store. -/
theorem reporterLoop_spec (k : ℕ) :
    ∃ m, k ≤ m ∧ reporterLoop s.report s.stored k (s.check k) = s.check m ∧
      s.stored ≤ s.check m ∧ ∀ j, k ≤ j → j < m → s.check j < s.stored := by
  -- By induction on what is left until the store.
  induction hleft : s.stored - s.check k using Nat.strong_induction_on generalizing k with
  | _ left ih =>
      unfold reporterLoop
      split
      · rename_i hbefore
        have hstep := s.check_strictMono (Nat.lt_add_one k)
        obtain ⟨m, hle, hloop, hstored, hfirst⟩ := ih _ (by omega) (k + 1) rfl
        refine ⟨m, by omega, hloop, hstored, ?_⟩
        intro j hj hjm
        rcases Nat.eq_or_lt_of_le hj with rfl | hlater
        · exact hbefore
        · exact hfirst j hlater hjm
      · rename_i hbehind
        exact ⟨k, le_rfl, rfl, Nat.le_of_not_lt hbehind, fun j hj hjm => by omega⟩

theorem reporterExit_spec :
    ∃ m, s.reporterExit = s.check m ∧ s.stored ≤ s.check m ∧ ∀ j < m, s.check j < s.stored := by
  obtain ⟨m, -, hloop, hstored, hfirst⟩ := s.reporterLoop_spec 0
  exact ⟨m, hloop, hstored, fun j hj => hfirst j (Nat.zero_le j) hj⟩

/-- No load behind the store comes before the one that ends the loop. -/
theorem reporterExit_le {k : ℕ} (hk : s.stored ≤ s.check k) : s.reporterExit ≤ s.check k := by
  obtain ⟨m, hexit, -, hfirst⟩ := s.reporterExit_spec
  rw [hexit]
  refine s.check_strictMono.monotone (Nat.le_of_not_lt fun hlt => ?_)
  exact absurd (hfirst k hlt) (Nat.not_lt.mpr hk)

/-! ## The client -/

theorem le_joinAll (now : ℕ) (workers : List (ℕ × ℕ)) :
    now ≤ joinAll now workers ∧ ∀ worker ∈ workers, worker.1 ≤ joinAll now workers := by
  induction workers generalizing now with
  | nil => exact ⟨le_rfl, by simp⟩
  | cons first rest ih =>
      obtain ⟨hnow, hrest⟩ := ih (max now first.1 + first.2)
      rw [joinAll]
      refine ⟨by omega, ?_⟩
      intro worker hworker
      rcases List.mem_cons.mp hworker with rfl | hlater
      · omega
      · exact hrest worker hlater

theorem foldl_max_le {bound : ℕ} (workers : List (ℕ × ℕ)) (last : ℕ) (hlast : last ≤ bound)
    (hworkers : ∀ worker ∈ workers, worker.1 ≤ bound) :
    workers.foldl (fun last worker => max last worker.1) last ≤ bound := by
  induction workers generalizing last with
  | nil => exact hlast
  | cons first rest ih =>
      refine ih _ (max_le hlast (hworkers first List.mem_cons_self)) ?_
      exact fun worker hworker => hworkers worker (List.mem_cons_of_mem _ hworker)

theorem le_foldl_max (workers : List (ℕ × ℕ)) (last : ℕ) :
    last ≤ workers.foldl (fun last worker => max last worker.1) last := by
  induction workers generalizing last with
  | nil => exact le_rfl
  | cons first rest ih => exact (le_max_left _ _).trans (ih _)

theorem start_le_lastEnd : s.start ≤ s.lastEnd := le_foldl_max s.workers s.start

theorem lastEnd_le_joined : s.lastEnd ≤ s.joined := by
  obtain ⟨hspawned, hends⟩ := le_joinAll s.spawned s.workers
  exact foldl_max_le s.workers s.start (s.start_le_spawned.trans hspawned) hends

/-- What the client's own steps take between the end of the last worker and the reading of the
clock. -/
def own : ℕ := (s.joinCall - s.lastEnd) + s.read

/-- How long the client waits in the join of the reporter. -/
def wait : ℕ := s.joinReturn - s.joinCall

theorem lastEnd_le_joinCall : s.lastEnd ≤ s.joinCall := by
  have hjoined := s.lastEnd_le_joined
  unfold joinCall stored
  omega

/-- The reported time is the sending time, the own steps of the client and the wait. -/
theorem secs_eq : s.secs = s.sendingTime + s.own + s.wait := by
  have hstart := s.start_le_lastEnd
  have hcall := s.lastEnd_le_joinCall
  have hreturn : s.joinCall ≤ s.joinReturn := le_max_left _ _
  unfold secs sendingTime own wait
  omega

/-- Joining the reporter takes no time exactly if it looks at `run` after the store and early
enough before the join. -/
theorem wait_eq_zero_iff :
    s.wait = 0 ↔ ∃ k, s.stored ≤ s.check k ∧ s.check k + s.exit ≤ s.joinCall := by
  obtain ⟨m, hexit, hstored, -⟩ := s.reporterExit_spec
  unfold wait joinReturn
  constructor
  · intro hzero
    exact ⟨m, hstored, by omega⟩
  · rintro ⟨k, hk, hcall⟩
    have hle := s.reporterExit_le hk
    omega

/-- The own steps of the client take no time. -/
def Immediate : Prop :=
  s.joined = s.lastEnd ∧ s.store = 0 ∧ s.call = 0 ∧ s.read = 0

theorem own_eq_zero_iff : s.own = 0 ↔ s.Immediate := by
  have hjoined := s.lastEnd_le_joined
  unfold own joinCall stored Immediate
  omega

/-- **When the reported time is the sending time.**  The reported time is the sending time, the
own steps of the client and the wait for the reporter.  The wait is nothing exactly if the
reporter looks at `run` between the store and the join; and the reported time is the sending
time exactly if the client's own steps take no time and the reporter looks at `run`, and
leaves, at the very moment in which the last worker ends. -/
theorem secs_eq_sendingTime_iff :
    s.secs = s.sendingTime + s.own + s.wait ∧
    (s.wait = 0 ↔ ∃ k, s.stored ≤ s.check k ∧ s.check k + s.exit ≤ s.joinCall) ∧
    (s.secs = s.sendingTime ↔
      s.Immediate ∧ s.exit = 0 ∧ ∃ k, s.check k = s.lastEnd) := by
  refine ⟨s.secs_eq, s.wait_eq_zero_iff, ?_⟩
  have hsecs := s.secs_eq
  have hwait := s.wait_eq_zero_iff
  constructor
  · intro heq
    have himmediate := s.own_eq_zero_iff.mp (by omega)
    obtain ⟨k, hstored, hcall⟩ := hwait.mp (by omega)
    obtain ⟨hjoined, hstore, hcallZero, hread⟩ := himmediate
    unfold joinCall at hcall
    unfold stored at hstored hcall
    exact ⟨⟨hjoined, hstore, hcallZero, hread⟩, by omega, k, by omega⟩
  · rintro ⟨himmediate, hexit, k, hk⟩
    have hown := s.own_eq_zero_iff.mpr himmediate
    obtain ⟨hjoined, hstore, hcallZero, hread⟩ := himmediate
    have hzero : s.wait = 0 := by
      refine hwait.mpr ⟨k, ?_, ?_⟩
      · unfold stored
        omega
      · unfold joinCall stored
        omega
    omega

/-- One worker that ends `ended` nanoseconds after the start, with steps that take no time. -/
def sample (ended : ℕ) : Schedule where
  reporterStart := 0
  report _ := 0
  start := 0
  spawned := 0
  workers := [(ended, 0)]
  store := 0
  call := 0
  exit := 0
  read := 0
  start_le_spawned := le_rfl
  start_le_end := by simp

/-- A test of one second whose worker ends a nanosecond after the deadline.  The reporter has
just looked at `run` and sleeps for another second: two seconds are reported. -/
theorem secs_ne_sendingTime :
    (sample 1000000001).sendingTime = 1000000001 ∧ (sample 1000000001).secs = 2000000000 := by
  constructor
  · rfl
  · have hexit : (sample 1000000001).reporterExit = 2000000000 := by
      show reporterLoop (fun _ => 0) 1000000001 0 0 = 2000000000
      rw [reporterLoop, if_pos (by decide), reporterLoop, if_pos (by decide), reporterLoop,
        if_neg (by decide)]
      rfl
    unfold secs joinReturn
    rw [hexit]
    rfl

end Schedule

end RunPerf.Net
