import RunPerf.Xdp.BlastAccounting

/-!
# How the generator ends

A worker looks at the clock before each iteration of `tx_loop` and stops when the deadline has
passed.  In between it pins itself, recycles frames, makes up to 64 attempts of three steps
each, kicks, counts and paces; none of this waits for the kernel.  `Worker.rank` counts the steps
that are left until the next look at the clock and the end.

Hence a worker makes at most 200 steps behind the deadline, whatever the kernel and the other
workers do in between, and as long as it has not ended it can make the next one.  So every `join`
of `xdp_udp_blast` returns.
-/

namespace RunPerf.Xdp

open RunPerf.Lib

/-! ## The steps to the end -/

/-- The steps of `tx_loop` until it has ended, if the deadline has passed.  Behind a kick the two
counters are steps too. -/
def Gen.Pc.rank : Gen.Pc → ℕ
  | .head => 1
  | .recycle _ => 3 * Gen.txBatch + 8
  | .batch 0 _ => 6
  | .batch (left + 1) _ => 3 * left + 10
  | .holding _ left _ => 3 * left + 9
  | .written _ left _ => 3 * left + 8
  | .giveBack _ _ => 7
  | .kicked _ => 5
  | .pace _ => 2
  | .stopped => 0
  | .panicked => 0

namespace Gen

variable {cfg : Config} {read late : ℕ} {s t : State} {event : Event}

/-- Behind the check of the loop every step leads on to the end; a kick leaves two steps for the
counters. -/
theorem rank_of_loopStep (hpc : s.pc ≠ .head)
    (hstep : loopStep cfg read late s = some (event, t)) :
    t.pc.rank < s.pc.rank ∧ ((∃ pending, event = .kickReturn pending) →
      t.pc.rank + 2 < s.pc.rank) := by
  cases hs : s.pc with
  | head => exact absurd hs hpc
  | recycle done =>
      rw [loopStep_recycle cfg read late hs] at hstep
      cases hstep
      simp [Pc.rank, txBatch]
  | batch left sent =>
      cases left with
      | zero =>
          by_cases hsent : sent > 0
          · rw [loopStep_kick cfg read late hs hsent] at hstep
            cases hstep
            simp [Pc.rank]
          · rw [loopStep_noKick cfg read late hs hsent] at hstep
            cases hstep
            simp [Pc.rank]
      | succ left =>
          cases hpool : s.pool.getLast? with
          | none =>
              rw [loopStep_pop_none cfg read late hs hpool] at hstep
              cases hstep
              simp [Pc.rank]
          | some addr =>
              rw [loopStep_pop_some cfg read late hs hpool] at hstep
              cases hstep
              simp [Pc.rank]
  | holding addr left sent =>
      cases hwrite : cfg.hdr.writeFrame cfg.cpu (readBytes s.area addr.toNat frameSize.toNat)
          s.payload with
      | none =>
          rw [loopStep_panic cfg read late hs hwrite] at hstep
          cases hstep
          simp [Pc.rank]
      | some written =>
          rw [loopStep_write cfg read late hs hwrite] at hstep
          cases hstep
          simp [Pc.rank]
  | written desc left sent =>
      simp only [loopStep, hs] at hstep
      cases hstep
      split
      · simp [Pc.rank]
      · cases left with
        | zero => simp [Pc.rank]
        | succ left => simp [Pc.rank, Nat.mul_succ]
  | giveBack addr sent =>
      simp only [loopStep, hs] at hstep
      cases hstep
      simp [Pc.rank]
  | kicked sent =>
      rw [loopStep_kicked cfg read late hs] at hstep
      cases hstep
      simp [Pc.rank]
  | pace kicked =>
      rw [loopStep_pace cfg read late hs] at hstep
      cases hstep
      simp [Pc.rank]
  | stopped => simp [loopStep, hs] at hstep
  | panicked => simp [loopStep, hs] at hstep

end Gen

namespace Blast

/-- The steps of a thread outside `tx_loop` until it has ended. -/
def Phase.rank : Phase → ℕ
  | .starting => 1
  | .looping => 0
  | .counting _ => 2
  | .adding _ => 1
  | .dead => 0

/-- The steps of a thread until it has ended, if the deadline has passed. -/
def Worker.rank (worker : Worker) : ℕ :=
  if worker.phase = .dead then 0 else worker.phase.rank + worker.gen.pc.rank

/-- A step of the thread itself, not of the kernel at its rings. -/
def WorkerEvent.own : WorkerEvent → Bool
  | .gen (.take _) => false
  | .gen (.complete _) => false
  | _ => true

section Worker

variable {pins : Option Bool} {cfg : Gen.Config} {worker next : Worker} {event : WorkerEvent}

theorem Worker.rank_of_looping (hphase : worker.phase = .looping) :
    worker.rank = worker.gen.pc.rank := by
  simp [Worker.rank, hphase, Phase.rank]

/-- **One step.**  Only going on with `tx_loop` raises the rank; every other step of the thread
lowers it, and the kernel leaves it as it is. -/
theorem rank_step (hstep : WorkerStep pins cfg worker event next) :
    ((∃ found pending, event = .gen (.dequeue found pending)) ∧ worker.rank = 1 ∧
      next.rank = 200) ∨
      next.rank + (if event.own then 1 else 0) ≤ worker.rank := by
  cases hstep with
  | pin hphase hpin =>
      right
      simp [Worker.rank, Phase.rank, WorkerEvent.own, hphase]
  | pinPanic hphase hpin =>
      right
      simp [Worker.rank, Phase.rank, WorkerEvent.own, hphase]
  | @gen event t hturn hstep =>
      cases hstep with
      | @loop read late _ _ hstep =>
          -- The kernel makes no step of the loop, so the thread is at it.
          have hloop := Gen.loop_of_loopStep hstep
          have hphase : worker.phase = .looping := by
            rcases hturn with hphase | hkernel
            · exact hphase
            · cases event <;> first | exact hkernel.elim | exact hloop.elim
          rw [Worker.rank_of_looping hphase]
          by_cases hhead : worker.gen.pc = .head
          · -- A new iteration begins; this is where the clock is read.
            left
            rw [Gen.loopStep_head cfg read late hhead] at hstep
            cases hstep
            exact ⟨⟨_, _, rfl⟩, by rw [hhead]; rfl, Worker.rank_of_looping hphase⟩
          · right
            obtain ⟨hlower, hkick⟩ := Gen.rank_of_loopStep hhead hstep
            cases event with
            | kickReturn pending =>
                have hlower := hkick ⟨pending, rfl⟩
                simp [Worker.rank, Worker.after, Phase.rank, WorkerEvent.own]
                omega
            | take frame => exact hloop.elim
            | complete addr => exact hloop.elim
            | _ =>
                simpa [Worker.rank, Worker.after, Phase.rank, WorkerEvent.own, hphase] using hlower
      | stop hpc =>
          right
          have hphase : worker.phase = .looping := hturn.resolve_right id
          simp [Worker.rank, Worker.after, Phase.rank, WorkerEvent.own, hphase, hpc, Gen.Pc.rank]
      | take htake =>
          right
          exact le_rfl
      | complete hheld =>
          right
          exact le_rfl
  | addPkts hphase =>
      right
      simp [Worker.rank, Phase.rank, WorkerEvent.own, hphase]
  | addBytes hphase =>
      right
      simp [Worker.rank, Phase.rank, WorkerEvent.own, hphase]

/-- A look at the clock is never more than 200 steps away. -/
theorem rank_le_of_run {trace : List WorkerEvent}
    (hrun : (workerMachine pins cfg).Run trace worker) :
    worker.rank ≤ 200 := by
  refine hrun.invariant (P := fun _ worker => worker.rank ≤ 200) ?_ ?_
  · rintro worker ⟨⟨-, -, -, -, -, -, -, -, -, -, hpc, -⟩, hphase⟩
    simp [Worker.rank, Phase.rank, hphase, hpc, Gen.Pc.rank]
  · intro trace u event v _ hle hstep
    rcases rank_step hstep with ⟨-, -, heq⟩ | hlower
    · exact heq.le
    · omega

theorem Worker.rank_eq_zero_iff : worker.rank = 0 ↔ worker.Ended := by
  obtain ⟨gen, phase⟩ := worker
  cases phase with
  | looping =>
      rw [Worker.rank_of_looping rfl]
      cases hpc : gen.pc with
      | batch left sent => cases left <;> simp [Worker.Ended, hpc, Gen.Pc.rank]
      | _ => simp [Worker.Ended, hpc, Gen.Pc.rank]
  | _ => simp [Worker.rank, Phase.rank, Worker.Ended]

/-- What the look at the clock allows: `tx_loop` goes on before the deadline and stops behind it. -/
def WorkerEvent.Timely (deadline time : ℕ) : WorkerEvent → Prop
  | .gen (.dequeue _ _) => time < deadline
  | .gen .stop => deadline ≤ time
  | _ => True

/-- **Progress.**  Behind the deadline a thread that has not ended can make a step. -/
theorem exists_own_step {deadline time : ℕ} (pins : Option Bool) (cfg : Gen.Config)
    (hended : ¬ worker.Ended) (htime : deadline ≤ time) :
    ∃ event next, WorkerStep pins cfg worker event next ∧ event.own = true ∧
      event.Timely deadline time := by
  cases hphase : worker.phase with
  | starting =>
      cases hpins : pins with
      | none => exact ⟨_, _, .pinPanic hphase rfl, rfl, trivial⟩
      | some pinned => exact ⟨_, _, .pin hphase rfl, rfl, trivial⟩
  | counting sent => exact ⟨_, _, .addPkts hphase, rfl, trivial⟩
  | adding bytes => exact ⟨_, _, .addBytes hphase, rfl, trivial⟩
  | dead => exact absurd (.inl hphase) hended
  | looping =>
      -- Only the head of the loop depends on the clock, and there `tx_loop` stops.
      have hloop {event : Gen.Event} {t : Gen.State}
          (hstep : Gen.loopStep cfg 0 0 worker.gen = some (event, t))
          (hown : (WorkerEvent.gen event).own = true)
          (htimely : (WorkerEvent.gen event).Timely deadline time) :
          ∃ event next, WorkerStep pins cfg worker event next ∧ event.own = true ∧
            event.Timely deadline time :=
        ⟨_, _, .gen (.inl hphase) (.loop hstep), hown, htimely⟩
      cases hpc : worker.gen.pc with
      | head => exact ⟨_, _, .gen (.inl hphase) (.stop hpc), rfl, htime⟩
      | recycle done => exact hloop (Gen.loopStep_recycle cfg 0 0 hpc) rfl trivial
      | batch left sent =>
          cases left with
          | zero =>
              by_cases hsent : sent > 0
              · exact hloop (Gen.loopStep_kick cfg 0 0 hpc hsent) rfl trivial
              · exact hloop (Gen.loopStep_noKick cfg 0 0 hpc hsent) rfl trivial
          | succ left =>
              cases hpool : worker.gen.pool.getLast? with
              | none => exact hloop (Gen.loopStep_pop_none cfg 0 0 hpc hpool) rfl trivial
              | some addr => exact hloop (Gen.loopStep_pop_some cfg 0 0 hpc hpool) rfl trivial
      | holding addr left sent =>
          cases hwrite : cfg.hdr.writeFrame cfg.cpu
              (readBytes worker.gen.area addr.toNat frameSize.toNat) worker.gen.payload with
          | none => exact hloop (Gen.loopStep_panic cfg 0 0 hpc hwrite) rfl trivial
          | some written => exact hloop (Gen.loopStep_write cfg 0 0 hpc hwrite) rfl trivial
      | written desc left sent =>
          cases hproduce : (worker.gen.tx.produceTx [desc]).2 with
          | zero =>
              obtain ⟨t, hstep⟩ : ∃ t, Gen.loopStep cfg 0 0 worker.gen =
                  some (.produce worker.gen.payload 0, t) := by
                simp only [Gen.loopStep, hpc, hproduce]
                exact ⟨_, rfl⟩
              exact hloop hstep rfl trivial
          | succ n => exact hloop (Gen.loopStep_produce cfg 0 0 hpc hproduce) rfl trivial
      | giveBack addr sent =>
          obtain ⟨t, hstep⟩ : ∃ t, Gen.loopStep cfg 0 0 worker.gen = some (.giveBack, t) := by
            simp only [Gen.loopStep, hpc]
            exact ⟨_, rfl⟩
          exact hloop hstep rfl trivial
      | kicked sent => exact hloop (Gen.loopStep_kicked cfg 0 0 hpc) rfl trivial
      | pace kicked => exact hloop (Gen.loopStep_pace cfg 0 0 hpc) rfl trivial
      | stopped => exact absurd (.inr ⟨hphase, .inl hpc⟩) hended
      | panicked => exact absurd (.inr ⟨hphase, .inr hpc⟩) hended

/-- A thread that has ended makes no step. -/
theorem own_of_ended (hended : worker.Ended) (hstep : WorkerStep pins cfg worker event next) :
    event.own = false := by
  have hzero := Worker.rank_eq_zero_iff.mpr hended
  rcases rank_step hstep with ⟨-, hone, -⟩ | hlower
  · omega
  · cases hown : event.own with
    | false => rfl
    | true =>
        rw [hown, if_pos rfl] at hlower
        omega

end Worker

/-! ## All workers, with a clock -/

/-- All workers and the clock: a step is over at a time that is not before the last. -/
def clocked (os : Pinning.Os) (cpu : Simd.Cpu) (cpus : List ℕ) (plan : Plan) :
    Machine (State × ℕ) (Event × ℕ) where
  Init s := (machine os cpu cpus plan).Init s.1
  Step s entry t := s.2 ≤ entry.2 ∧ t.2 = entry.2 ∧ entry.1.2.Timely plan.deadline entry.2 ∧
    (machine os cpu cpus plan).Step s.1 entry.1 t.1

/-- The steps that the thread of worker `w` made. -/
def ownSteps (w : ℕ) (trace : List (Event × ℕ)) : ℕ :=
  trace.countP fun entry => entry.1.1 = w && entry.1.2.own

section Clocked

variable {os : Pinning.Os} {cpu : Simd.Cpu} {cpus : List ℕ} {plan : Plan}
  {first last : State × ℕ} {before after : List (Event × ℕ)}

/-- Without the times, this is a run of the workers. -/
theorem run_of_clocked (hrun : (clocked os cpu cpus plan).Run before first) :
    (machine os cpu cpus plan).Run (before.map Prod.fst) first.1 := by
  refine hrun.invariant
    (P := fun trace s => (machine os cpu cpus plan).Run (trace.map Prod.fst) s.1) ?_ ?_
  · intro s hinit
    exact ⟨s.1, hinit, .nil⟩
  · rintro trace s entry t - ih ⟨-, -, -, hstep⟩
    rw [List.map_append]
    exact ih.append (.single hstep)

/-- Behind the deadline the steps of a thread lower its rank, and nothing raises it. -/
theorem rank_clocked_step (w : ℕ) {entry : Event × ℕ} (hdeadline : plan.deadline ≤ first.2)
    (hstep : (clocked os cpu cpus plan).Step first entry last) :
    plan.deadline ≤ last.2 ∧
      (last.1.states w).rank + (if entry.1.1 = w && entry.1.2.own then 1 else 0) ≤
        (first.1.states w).rank := by
  obtain ⟨⟨party, event⟩, time⟩ := entry
  obtain ⟨hlater, htime, htimely, -, state, hworker, hlast⟩ := hstep
  simp only at hlater htime htimely hworker hlast
  refine ⟨by omega, ?_⟩
  rw [hlast]
  by_cases hparty : party = w
  · subst hparty
    have hlower : state.rank + (if event.own then 1 else 0) ≤ (first.1.states party).rank := by
      rcases rank_step hworker with ⟨⟨found, pending, rfl⟩, -⟩ | hlower
      · have hearly : time < plan.deadline := htimely
        omega
      · exact hlower
    simpa using hlower
  · simp [hparty, Function.update_of_ne (Ne.symm hparty)]

/-- A thread that has not ended can make a step of the whole. -/
theorem exists_clocked_step {w time : ℕ} (hw : w < plan.socks.length)
    (hended : ¬ (first.1.states w).Ended) (htime : first.2 ≤ time)
    (hdeadline : plan.deadline ≤ time) :
    ∃ event next, event.own = true ∧
      (clocked os cpu cpus plan).Step first ((w, event), time) (next, time) := by
  obtain ⟨event, next, hstep, hown, htimely⟩ := exists_own_step (Pinning.pinWorker os cpus w)
    (plan.config cpu w) hended hdeadline
  exact ⟨event, _, hown, htime, rfl, htimely, Finset.mem_range.mpr hw, next, hstep, rfl⟩

/-- From any state behind the deadline all threads can come to their end. -/
theorem exists_ended (hdeadline : plan.deadline ≤ first.2) :
    ∃ more final, (clocked os cpu cpus plan).Path first more final ∧
      ∀ w < plan.socks.length, (final.1.states w).Ended := by
  have hprogress : ∀ s : State × ℕ, plan.deadline ≤ s.2 →
      ¬ (∀ w < plan.socks.length, (s.1.states w).Ended) →
      ∃ event t, (clocked os cpu cpus plan).Step s event t ∧ plan.deadline ≤ t.2 ∧
        ∑ w ∈ Finset.range plan.socks.length, (t.1.states w).rank <
          ∑ w ∈ Finset.range plan.socks.length, (s.1.states w).rank := by
    intro s hs hnot
    obtain ⟨w, hnot⟩ := not_forall.mp hnot
    obtain ⟨hw, hended⟩ := Classical.not_imp.mp hnot
    obtain ⟨event, next, hown, hstep⟩ := exists_clocked_step hw hended le_rfl hs
    refine ⟨_, _, hstep, hs, ?_⟩
    apply Finset.sum_lt_sum
    · intro other _
      have hle := (rank_clocked_step other hs hstep).2
      omega
    · have hlower := (rank_clocked_step w hs hstep).2
      simp only [hown, decide_true, Bool.and_true, if_true] at hlower
      exact ⟨w, Finset.mem_range.mpr hw, hlower⟩
  obtain ⟨more, final, hpath, -, hended⟩ := Machine.exists_path_of_rank hprogress hdeadline
  exact ⟨more, final, hpath, hended⟩

/-- **The generator ends.**  Behind the deadline, whatever the kernel and the other workers do,
the thread of a worker makes at most 200 steps; it can make the next one at any time as long as
it has not ended, and none when it has; and all threads can come to their end. -/
theorem workers_end_after_deadline (hrun : (clocked os cpu cpus plan).Run before first)
    (hdeadline : plan.deadline ≤ first.2)
    (hpath : (clocked os cpu cpus plan).Path first after last) :
    (∀ w < plan.socks.length,
      ownSteps w after ≤ 200 ∧
      (¬ (last.1.states w).Ended → ∀ time, last.2 ≤ time → ∃ event next, event.own = true ∧
        (clocked os cpu cpus plan).Step last ((w, event), time) (next, time)) ∧
      ((last.1.states w).Ended → ∀ event time next,
        (clocked os cpu cpus plan).Step last ((w, event), time) next → event.own = false)) ∧
    ∃ more final, (clocked os cpu cpus plan).Path last more final ∧
      ∀ w < plan.socks.length, (final.1.states w).Ended := by
  have hrank (w : ℕ) := hpath.countP_add_rank_le (P := fun s => plan.deadline ≤ s.2) hdeadline
    fun u event v hu hstep => rank_clocked_step w hu hstep
  have hlast : plan.deadline ≤ last.2 := (hrank 0).1
  refine ⟨fun w hw => ⟨?_, ?_, ?_⟩, exists_ended hlast⟩
  · -- The rank bounds the steps that are left, and it is at most 200 in every run.
    have hworker := Machine.run_of_parallel (run_of_clocked hrun) (Finset.mem_range.mpr hw)
    have hle := rank_le_of_run hworker
    have hcount := (hrank w).2
    rw [ownSteps]
    omega
  · intro hended time htime
    exact exists_clocked_step hw hended htime (by omega)
  · rintro hended event time next ⟨-, -, -, -, state, hstep, -⟩
    exact own_of_ended hended hstep

end Clocked

/-- The worker of `onePlan` has begun an iteration when the deadline passes. -/
theorem exists_overdue_run :
    ∃ before first, (clocked oneCpu ⟨true, false, false, false⟩ [0] onePlan).Run before first ∧
      first.2 = 10 ∧ ¬ (first.1.states 0).Ended := by
  have hnext {s : State} {worker next : Worker} {event : WorkerEvent} {now time : ℕ}
      (hworker : s.states 0 = worker) (hlater : now ≤ time)
      (hstep : WorkerStep (Pinning.pinWorker oneCpu [0] 0) oneConfig worker event next)
      (htimely : event.Timely 10 time) :
      ∃ t : State, t.states 0 = next ∧
        (clocked oneCpu ⟨true, false, false, false⟩ [0] onePlan).Step (s, now)
          ((0, event), time) (t, time) := by
    subst hworker
    refine ⟨_, ?_, hlater, rfl, htimely, Finset.mem_range.mpr Nat.zero_lt_one, next, hstep, rfl⟩
    exact Function.update_self 0 next s.states
  let start : State := ⟨fun _ => ⟨Gen.started oneConfig 0, .starting⟩, 0⟩
  have hinit : (clocked oneCpu ⟨true, false, false, false⟩ [0] onePlan).Init (start, 0) := by
    refine ⟨fun w hw => ⟨?_, rfl⟩, rfl⟩
    obtain rfl : w = 0 := Nat.lt_one_iff.mp (Finset.mem_range.mp hw)
    exact Gen.init_started _ _
  have hpin : Pinning.pinWorker oneCpu [0] 0 = some true := by decide
  obtain ⟨s, hs, hpinned⟩ := hnext (s := start) rfl (Nat.le_refl 0)
    (WorkerStep.pin rfl hpin) trivial
  obtain ⟨t, ht, hdequeue⟩ := hnext hs (Nat.le_refl 0)
    (WorkerStep.gen (.inl rfl) (.loop (Gen.loopStep_head oneConfig 0 0 rfl)))
    (show 0 < 10 by decide)
  obtain ⟨u, hu, hextend⟩ := hnext ht (Nat.zero_le 10)
    (WorkerStep.gen (.inl rfl) (.loop (Gen.loopStep_recycle oneConfig 0 0 rfl))) trivial
  refine ⟨_, (u, 10), ⟨_, hinit, ((Machine.Path.single hpinned).snoc hdequeue).snoc hextend⟩, rfl,
    ?_⟩
  rw [← Worker.rank_eq_zero_iff, hu, Worker.rank_of_looping rfl]
  simp [Gen.Pc.rank, Gen.txBatch]

theorem workers_end_overdue :
    ∃ before first, (clocked oneCpu ⟨true, false, false, false⟩ [0] onePlan).Run before first ∧
      onePlan.deadline ≤ first.2 ∧ ¬ (first.1.states 0).Ended ∧
      ∃ more final, (clocked oneCpu ⟨true, false, false, false⟩ [0] onePlan).Path first more final ∧
        ownSteps 0 more ≤ 200 ∧ (final.1.states 0).Ended := by
  obtain ⟨before, first, hrun, htime, hended⟩ := exists_overdue_run
  have hdeadline : onePlan.deadline ≤ first.2 := htime.ge
  obtain ⟨-, more, final, hpath, hall⟩ := workers_end_after_deadline hrun hdeadline .nil
  have hsteps := (workers_end_after_deadline hrun hdeadline hpath).1 0 Nat.zero_lt_one
  exact ⟨before, first, hrun, hdeadline, hended, more, final, hpath, hsteps.1,
    hall 0 Nat.zero_lt_one⟩

end Blast

end RunPerf.Xdp
