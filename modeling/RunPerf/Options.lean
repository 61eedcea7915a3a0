import RunPerf.Guard
import RunPerf.Pinning

/-!
# Starting a client from its options

What `main`, `tcp_client` and `udp_client` compute from the options before and while they start
their workers, as the release build does it: products wrap, but a division by zero and an
`Instant` behind the end of the clock stop the program.

The index into the CPU list is safe for every list.  The division is not: a UDP client takes
`--threads 0` as it is, and with a target rate it divides by it.  The deadline is not either, as
`--duration` may be any `u64`.  Both are reached only behind `oom_guard`.
-/

namespace RunPerf.Options

open RunPerf.Cpus RunPerf.Pinning

/-- The options of a client: `none` if an option is missing or no number. -/
structure ClientArgs where
  udp : Bool
  threads : Option UInt64
  duration : Option UInt64
  len : Option UInt64
  targetPps : Option UInt64
  cpus : Option (List Char)
  numa : Option (List Char)

/-- What the client finds: the CPUs, the lists of the NUMA nodes, the available memory in
kilobytes, and the seconds on the clock. -/
structure Host where
  os : Os
  readNode : ℕ → Option (List Char)
  memAvailableKb : Option UInt64
  now : ℕ

inductive Crash
  | divisionByZero
  | instantOverflow
deriving DecidableEq

/-- Why no worker is started. -/
inductive Stop
  /-- `oom_guard` has printed this and exited. -/
  | refused (message : String)
  /-- The CPU list does not fit into a vector. -/
  | noMemory
  | crash (crash : Crash)

/-- How a worker starts: the index of its CPU in the list, its deadline, how long it waits
before it connects (in milliseconds), and its budget. -/
structure WorkerStart where
  cpuIndex : Option ℕ
  deadline : ℕ
  stagger : UInt64
  budget : UInt64

/-- `Instant + Duration::from_secs`, in seconds. -/
def addSecs (now : ℕ) (duration : UInt64) : Except Crash ℕ :=
  if now + duration.toNat < 2 ^ 63 then .ok (now + duration.toNat) else .error .instantOverflow

/-- Division of `u64`. -/
def div (a b : UInt64) : Except Crash UInt64 :=
  if b = 0 then .error .divisionByZero else .ok (a / b)

/-- Remainder of `usize`. -/
def rem (a b : ℕ) : Except Crash ℕ :=
  if b = 0 then .error .divisionByZero else .ok (a % b)

/-- The index that `pin` computes. -/
def pinIndex (cpus : List ℕ) (i : ℕ) : Except Crash (Option ℕ) :=
  if cpus = [] then .ok none else (rem i cpus.length).map some

/-- `pps_per_thread`. -/
def ppsPerThread (targetPps threads : UInt64) : Except Crash UInt64 :=
  if targetPps = 0 then .ok 0 else (div targetPps threads).map fun share => max share 1

/-- `tcp_client` up to the start of its workers. -/
def tcpClient (now : ℕ) (threads duration : UInt64) (cpus : List ℕ) :
    Except Crash (List WorkerStart) := do
  let deadline ← addSecs now duration
  (List.range threads.toNat).mapM fun t => do
    let cpuIndex ← pinIndex cpus t
    return ⟨cpuIndex, deadline, UInt64.ofNat t * 25, 0⟩

/-- `udp_client` up to the start of its workers. -/
def udpClient (now : ℕ) (threads duration targetPps : UInt64) (cpus : List ℕ) :
    Except Crash (List WorkerStart) := do
  let deadline ← addSecs now duration
  let budget ← ppsPerThread targetPps threads
  (List.range threads.toNat).mapM fun t => do
    let cpuIndex ← pinIndex cpus t
    return ⟨cpuIndex, deadline, 0, budget⟩

/-- `cpus` of `main`. -/
def ClientArgs.cpuList (args : ClientArgs) (host : Host) : List ℕ :=
  mainCpus host.os host.readNode args.cpus (args.numa.bind parseUsize)

/-- `threads` of `main`: without the option, one per CPU for UDP and one for TCP. -/
def ClientArgs.threadCount (args : ClientArgs) (host : Host) : UInt64 :=
  args.threads.getD (if args.udp then UInt64.ofNat (args.cpuList host).length else 1)

/-- What `main` plans to allocate. -/
def ClientArgs.planned (args : ClientArgs) (host : Host) : UInt64 :=
  clientPlanned args.udp (args.threadCount host) (args.len.getD 1400)

/-- `main` with a client, up to the start of the workers.  A vector of `usize` has less than
`2 ^ 60` entries. -/
def startClient (host : Host) (args : ClientArgs) : Except Stop (List WorkerStart) :=
  let cpus := args.cpuList host
  let threads := args.threadCount host
  let duration := args.duration.getD 10
  if 2 ^ 60 ≤ cpus.length then .error .noMemory
  else
    match oomGuard host.memAvailableKb (args.planned host) with
    | .error message => .error (.refused message)
    | .ok () =>
        (if args.udp then udpClient host.now threads duration (args.targetPps.getD 0) cpus
          else tcpClient host.now threads duration cpus).mapError .crash

/-! ## What can go wrong -/

theorem pinIndex_ok (cpus : List ℕ) (i : ℕ) : ∃ index, pinIndex cpus i = .ok index := by
  unfold pinIndex
  split
  · exact ⟨none, rfl⟩
  · rename_i hne
    have hlength : cpus.length ≠ 0 := fun h => hne (List.length_eq_zero_iff.mp h)
    rw [rem, if_neg hlength]
    exact ⟨_, rfl⟩

theorem mapM_ok {α : Type} {f : ℕ → Except Crash α} (h : ∀ t, ∃ a, f t = .ok a) (list : List ℕ) :
    ∃ results, list.mapM f = .ok results := by
  induction list with
  | nil => exact ⟨[], rfl⟩
  | cons t rest ih =>
      obtain ⟨a, ha⟩ := h t
      obtain ⟨results, hrest⟩ := ih
      exact ⟨a :: results, by rw [List.mapM_cons, ha, hrest]; rfl⟩

/-- No worker fails to start because of its index. -/
theorem workers_ok (cpus : List ℕ) (threads : UInt64) (start : Option ℕ → ℕ → WorkerStart) :
    ∃ workers, (List.range threads.toNat).mapM (fun t => do
      let cpuIndex ← pinIndex cpus t
      return start cpuIndex t) = .ok workers := by
  refine mapM_ok (fun t => ?_) _
  obtain ⟨index, hindex⟩ := pinIndex_ok cpus t
  exact ⟨start index t, by rw [hindex]; rfl⟩

/-- Success of a computation, as a fact about its result. -/
def Succeeds {α : Type} (result : Except Crash α) : Prop := ∃ a, result = .ok a

theorem succeeds_addSecs_iff (now : ℕ) (duration : UInt64) :
    Succeeds (addSecs now duration) ↔ now + duration.toNat < 2 ^ 63 := by
  unfold Succeeds addSecs
  split <;> simp_all

theorem succeeds_ppsPerThread_iff (targetPps threads : UInt64) :
    Succeeds (ppsPerThread targetPps threads) ↔ ¬ (threads = 0 ∧ targetPps ≠ 0) := by
  unfold Succeeds ppsPerThread div
  split
  · simp_all
  · split <;> simp_all [Except.map]

theorem succeeds_tcpClient_iff (now : ℕ) (threads duration : UInt64) (cpus : List ℕ) :
    Succeeds (tcpClient now threads duration cpus) ↔ now + duration.toNat < 2 ^ 63 := by
  rw [← succeeds_addSecs_iff]
  unfold tcpClient
  cases haddSecs : addSecs now duration with
  | error crash => simp [Succeeds, bind, Except.bind]
  | ok deadline =>
      have hworkers := workers_ok cpus threads fun cpuIndex t =>
        ⟨cpuIndex, deadline, UInt64.ofNat t * 25, 0⟩
      exact iff_of_true hworkers ⟨deadline, rfl⟩

theorem succeeds_udpClient_iff (now : ℕ) (threads duration targetPps : UInt64)
    (cpus : List ℕ) :
    Succeeds (udpClient now threads duration targetPps cpus) ↔
      now + duration.toNat < 2 ^ 63 ∧ ¬ (threads = 0 ∧ targetPps ≠ 0) := by
  rw [← succeeds_addSecs_iff, ← succeeds_ppsPerThread_iff]
  unfold udpClient
  cases haddSecs : addSecs now duration with
  | error crash => simp [Succeeds, bind, Except.bind]
  | ok deadline =>
      cases hbudget : ppsPerThread targetPps threads with
      | error crash => simp [Succeeds, bind, Except.bind]
      | ok budget =>
          have hworkers := workers_ok cpus threads fun cpuIndex _ =>
            ⟨cpuIndex, deadline, 0, budget⟩
          exact iff_of_true hworkers ⟨⟨deadline, rfl⟩, ⟨budget, rfl⟩⟩

/-- Without the option there is at least one thread. -/
theorem threadCount_eq_zero_iff {host : Host} {args : ClientArgs}
    (hfits : (args.cpuList host).length < 2 ^ 60) :
    args.threadCount host = 0 ↔ args.threads = some 0 := by
  unfold ClientArgs.threadCount
  cases args.threads with
  | some threads => simp
  | none =>
      have hne : (args.cpuList host).length ≠ 0 := fun h =>
        mainCpus_ne_nil _ _ _ _ (List.length_eq_zero_iff.mp h)
      simp only [Option.getD_none, reduceCtorEq, iff_false]
      split
      · intro hzero
        have htoNat := congrArg UInt64.toNat hzero
        rw [UInt64.toNat_ofNat_of_lt' (show _ < 2 ^ 64 by omega)] at htoNat
        exact hne htoNat
      · decide

theorem mapError_crash {α : Type} (result : Except Crash α) :
    (∀ crash, result.mapError Stop.crash ≠ .error (.crash crash)) ↔ Succeeds result := by
  cases result with
  | ok a => simp [Except.mapError, Succeeds]
  | error crash => simp [Except.mapError, Succeeds]

/-- **When the numeric options cannot crash a client.** -/
theorem client_options_safe_iff (host : Host) (args : ClientArgs) :
    (∀ crash, startClient host args ≠ .error (.crash crash)) ↔
      2 ^ 60 ≤ (args.cpuList host).length ∨
      oomCap host.memAvailableKb < args.planned host ∨
      (host.now + (args.duration.getD 10).toNat < 2 ^ 63 ∧
        ¬ (args.udp = true ∧ args.threads = some 0 ∧ args.targetPps.getD 0 ≠ 0)) := by
  unfold startClient
  simp only
  by_cases hfits : 2 ^ 60 ≤ (args.cpuList host).length
  · rw [if_pos hfits]
    exact iff_of_true (by simp) (.inl hfits)
  rw [if_neg hfits]
  by_cases hplanned : oomCap host.memAvailableKb < args.planned host
  · rw [oomGuard, if_pos hplanned]
    exact iff_of_true (by simp) (.inr (.inl hplanned))
  rw [oomGuard, if_neg hplanned]
  simp only [mapError_crash, hfits, hplanned, false_or]
  rw [← threadCount_eq_zero_iff (Nat.lt_of_not_le hfits)]
  cases hudp : args.udp with
  | true => simp [succeeds_udpClient_iff]
  | false => simp [succeeds_tcpClient_iff]

def sampleHost : Host := ⟨eightCpus, fun _ => none, none, 1000⟩

/-- `--udp --threads 0 --target-pps 1000`. -/
def noThreads : ClientArgs := ⟨true, some 0, none, none, some 1000, none, none⟩

/-- The share of each of no threads. -/
theorem client_options_divide_by_zero :
    startClient sampleHost noThreads = .error (.crash .divisionByZero) := rfl

end RunPerf.Options
