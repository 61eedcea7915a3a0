import RunPerf.Xdp.GenRuns

/-!
# When the generator sends

The generator with a clock.  Every step is over at some time, which is not before the step
began; the pacing takes as long as it sleeps, possibly longer.  A packet is sent when its
descriptor is on the TX ring.

What a worker with a budget `B` does is a run of `Lib.windows` with the cap `B + 63`
(`exists_window_path`): a batch begins while the budget is not used up and has at most 64
packets.
-/

namespace RunPerf.Xdp.Gen

open RunPerf.Lib

variable {cfg : Config} {s t : State}

/-- An event, the time when it was over, and whether it has set `sec_start`. -/
structure Timed where
  event : Event
  time : ℕ
  restart : Bool

/-- The packets and the new `sec_start` that an event shows. -/
def Timed.marks (timed : Timed) : List Mark :=
  match timed.event with
  | .produce _ n => if n = 0 then [] else [.item timed.time]
  | _ => if timed.restart then [.reset timed.time] else []

/-- The pacing is the next step and has to sleep. -/
def State.Restarts (cfg : Config) (s : State) : Bool :=
  match s.pc with
  | .pace _ => decide (s.pacer.Due cfg.ppsPer)
  | _ => false

/-- When the next step of `tx_loop` is over. -/
def State.stepEnd (cfg : Config) (read late : ℕ) (s : State) : ℕ :=
  match s.pc with
  | .pace _ => s.pacer.paceEnd cfg.ppsPer read late
  | _ => read

inductive TimedStep (cfg : Config) (s : State × ℕ) : Timed → State × ℕ → Prop
  | loop {read late : ℕ} {event : Event} {t : State} (hread : s.2 ≤ read)
      (hstep : loopStep cfg read late s.1 = some (event, t)) :
      TimedStep cfg s ⟨event, s.1.stepEnd cfg read late, s.1.Restarts cfg⟩
        (t, s.1.stepEnd cfg read late)
  /-- The deadline, or the kernel. -/
  | outside {time : ℕ} {event : Event} {t : State} (htime : s.2 ≤ time)
      (hstep : Step cfg s.1 event t) (hevent : ¬ event.Loop) :
      TimedStep cfg s ⟨event, time, false⟩ (t, time)

/-- The generator with a clock, which starts when `sec_start` is read. -/
def timed (cfg : Config) : Machine (State × ℕ) Timed where
  Init s := (machine cfg).Init s.1 ∧ s.1.pacer.secStart = s.2
  Step := TimedStep cfg

/-- When a worker sent and when it started over. -/
def timeline (trace : List Timed) : List Mark := trace.flatMap Timed.marks

/-- Without the times, this is a run of the generator. -/
theorem path_of_timed {first last : State × ℕ} {trace : List Timed}
    (hpath : (timed cfg).Path first trace last) :
    (machine cfg).Path first.1 (trace.map Timed.event) last.1 := by
  induction hpath with
  | nil => exact .nil
  | snoc _ hstep ih =>
      rw [List.map_append]
      cases hstep with
      | loop hread hstep => exact ih.snoc (.loop hstep)
      | outside htime hstep hevent => exact ih.snoc hstep

/-! ## The steps and the pacing -/

/-- The packets of the current batch. -/
def Pc.sent : Pc → UInt64
  | .batch _ sent => sent
  | .holding _ _ sent => sent
  | .written _ _ sent => sent
  | .giveBack _ sent => sent
  | .kicked sent => sent
  | _ => 0

/-- The packets that the current batch may still send. -/
def Pc.left : Pc → ℕ
  | .head => txBatch
  | .recycle _ => txBatch
  | .batch left _ => left
  | .holding _ left _ => left + 1
  | .written _ left _ => left + 1
  | _ => 0

def Pc.Pacing : Pc → Prop
  | .pace _ => True
  | _ => False

/-- What a step of `tx_loop` means for the pacing. -/
inductive Paced (cfg : Config) (read late : ℕ) (s : State) : Event → State → Prop
  /-- Nothing is sent. -/
  | quiet {event : Event} {t : State} (hevent : event.Loop)
      (hmarks : ∀ time, Timed.marks ⟨event, time, false⟩ = []) (hs : ¬ s.pc.Pacing)
      (ht : ¬ t.pc.Pacing) (hpacer : t.pacer = s.pacer) (hsent : t.pc.sent = s.pc.sent)
      (hleft : t.pc.left ≤ s.pc.left) : Paced cfg read late s event t
  | panic {t : State} (hs : ¬ s.pc.Pacing) (hpacer : t.pacer = s.pacer) (ht : t.pc = .panicked) :
      Paced cfg read late s .panic t
  | produce {payload : List UInt8} {n : ℕ} {t : State} (hn : n ≠ 0) (hs : ¬ s.pc.Pacing)
      (ht : ¬ t.pc.Pacing) (hpacer : t.pacer = s.pacer) (hsent : t.pc.sent = s.pc.sent + 1)
      (hleft : t.pc.left + 1 = s.pc.left) : Paced cfg read late s (.produce payload n) t
  /-- The batch is over: its packets are counted. -/
  | noted {event : Event} {t : State} (hevent : event.Loop)
      (hmarks : ∀ time, Timed.marks ⟨event, time, false⟩ = [])
      (hs : ¬ s.pc.Pacing) (ht : ∃ kicked, t.pc = .pace kicked)
      (hpacer : t.pacer = s.pacer.note s.pc.sent) : Paced cfg read late s event t
  | next {kicked : Bool} {pending : ℕ} {t : State} (hs : s.pc = .pace kicked) (ht : t.pc = .head)
      (hpacer : t.pacer = s.pacer.pace cfg.ppsPer read late) :
      Paced cfg read late s (.next kicked pending) t

theorem Paced.of_pc {read late : ℕ} {event : Event} {pc : Pc} (hpc : s.pc = pc)
    (hevent : event.Loop) (hmarks : ∀ time, Timed.marks ⟨event, time, false⟩ = [])
    (hs : ¬ pc.Pacing) (ht : ¬ t.pc.Pacing) (hpacer : t.pacer = s.pacer)
    (hsent : t.pc.sent = pc.sent) (hleft : t.pc.left ≤ pc.left) :
    Paced cfg read late s event t := by
  subst hpc
  exact .quiet hevent hmarks hs ht hpacer hsent hleft

theorem paced_of_loopStep {read late : ℕ} {event : Event}
    (hstep : loopStep cfg read late s = some (event, t)) : Paced cfg read late s event t := by
  cases hpc : s.pc with
  | head =>
      rw [loopStep_head cfg read late hpc] at hstep
      cases hstep
      exact .of_pc hpc trivial (fun _ => rfl) id id rfl rfl le_rfl
  | recycle done =>
      rw [loopStep_recycle cfg read late hpc] at hstep
      cases hstep
      exact .of_pc hpc trivial (fun _ => rfl) id id rfl rfl le_rfl
  | batch left sent =>
      cases left with
      | zero =>
          by_cases hsent : sent > 0
          · rw [loopStep_kick cfg read late hpc hsent] at hstep
            cases hstep
            exact .of_pc hpc trivial (fun _ => rfl) id id rfl rfl le_rfl
          · rw [loopStep_noKick cfg read late hpc hsent] at hstep
            cases hstep
            have hzero : sent = 0 := UInt64.le_antisymm (UInt64.not_lt.mp hsent) UInt64.zero_le
            refine .noted trivial (fun _ => rfl) ?_ ⟨false, rfl⟩ ?_
            · simp [hpc, Pc.Pacing]
            · simp [hpc, Pc.sent, hzero, Pacer.note]
      | succ left =>
          cases hpool : s.pool.getLast? with
          | none =>
              rw [loopStep_pop_none cfg read late hpc hpool] at hstep
              cases hstep
              exact .of_pc hpc trivial (fun _ => rfl) id id rfl rfl (Nat.zero_le _)
          | some addr =>
              rw [loopStep_pop_some cfg read late hpc hpool] at hstep
              cases hstep
              exact .of_pc hpc trivial (fun _ => rfl) id id rfl rfl le_rfl
  | holding addr left sent =>
      cases hwrite : cfg.hdr.writeFrame cfg.cpu (readBytes s.area addr.toNat frameSize.toNat)
          s.payload with
      | none =>
          rw [loopStep_panic cfg read late hpc hwrite] at hstep
          cases hstep
          exact .panic (by simp [hpc, Pc.Pacing]) rfl rfl
      | some written =>
          rw [loopStep_write cfg read late hpc hwrite] at hstep
          cases hstep
          exact .of_pc hpc trivial (fun _ => rfl) id id rfl rfl le_rfl
  | written desc left sent =>
      cases hproduce : (s.tx.produceTx [desc]).2 with
      | zero =>
          simp only [loopStep, hpc, hproduce, if_true] at hstep
          cases hstep
          exact .of_pc hpc trivial (fun _ => rfl) id id rfl rfl (Nat.zero_le _)
      | succ n =>
          rw [loopStep_produce cfg read late hpc hproduce] at hstep
          cases hstep
          refine .produce n.succ_ne_zero ?_ id rfl ?_ ?_ <;>
            simp [hpc, Pc.Pacing, Pc.sent, Pc.left]
  | giveBack addr sent =>
      simp only [loopStep, hpc] at hstep
      cases hstep
      exact .of_pc hpc trivial (fun _ => rfl) id id rfl rfl le_rfl
  | kicked sent =>
      rw [loopStep_kicked cfg read late hpc] at hstep
      cases hstep
      refine .noted trivial (fun _ => rfl) ?_ ⟨true, rfl⟩ ?_ <;> simp [hpc, Pc.Pacing, Pc.sent]
  | pace kicked =>
      rw [loopStep_pace cfg read late hpc] at hstep
      cases hstep
      exact .next hpc rfl rfl
  | stopped => simp [loopStep, hpc] at hstep
  | panicked => simp [loopStep, hpc] at hstep

theorem loop_of_loopStep {read late : ℕ} {event : Event}
    (hstep : loopStep cfg read late s = some (event, t)) : event.Loop := by
  cases paced_of_loopStep hstep with
  | quiet hevent => exact hevent
  | panic => trivial
  | produce => trivial
  | noted hevent => exact hevent
  | next => trivial

/-! ## The windows of a worker -/

/-- The open window of a worker that has sent the packets of `s` since `sec_start`. -/
structure Tracks (cfg : Config) (s : State × ℕ) (w : Window) : Prop where
  start : w.start = s.1.pacer.secStart
  opened : w.start ≤ w.now
  now : w.now ≤ s.2
  count : s.1.pc ≠ .panicked → w.count = s.1.pacer.sentSec.toNat + s.1.pc.sent.toNat
  room : s.1.pc.sent.toNat + s.1.pc.left ≤ txBatch
  /-- A batch begins while the budget is not used up. -/
  budget : ¬ s.1.pc.Pacing → s.1.pacer.sentSec < cfg.ppsPer

variable {w : Window} {now read late : ℕ} {event : Event}

theorem Tracks.quiet {later : ℕ} (h : Tracks cfg (s, now) w) (hlater : now ≤ later)
    (hpacing : ¬ t.pc.Pacing → ¬ s.pc.Pacing) (hpacer : t.pacer = s.pacer)
    (hsent : t.pc.sent = s.pc.sent) (hleft : t.pc.left ≤ s.pc.left)
    (hpanicked : t.pc ≠ .panicked → s.pc ≠ .panicked) : Tracks cfg (t, later) w := by
  obtain ⟨hstart, hopened, hnow, hcount, hroom, hbudget⟩ := h
  refine ⟨by rw [hstart, hpacer], hopened, hnow.trans hlater, ?_, ?_, ?_⟩
  · intro hne
    show w.count = t.pacer.sentSec.toNat + t.pc.sent.toNat
    rw [hcount (hpanicked hne), hpacer, hsent]
  · show t.pc.sent.toNat + t.pc.left ≤ txBatch
    rw [hsent]
    simp only at hroom
    omega
  · intro ht
    show t.pacer.sentSec < cfg.ppsPer
    rw [hpacer]
    exact hbudget (hpacing ht)

theorem Tracks.panic (h : Tracks cfg (s, now) w) (hread : now ≤ read) (hs : ¬ s.pc.Pacing)
    (hpacer : t.pacer = s.pacer) (ht : t.pc = .panicked) : Tracks cfg (t, read) w := by
  refine ⟨by rw [h.start, hpacer], h.opened, h.now.trans hread, fun hne => absurd ht hne, ?_, ?_⟩
  · simp [ht, Pc.sent, Pc.left]
  · intro _
    show t.pacer.sentSec < cfg.ppsPer
    rw [hpacer]
    exact h.budget hs

/-- The window has room for the batch. -/
theorem Tracks.count_lt (h : Tracks cfg (s, now) w) (hs : ¬ s.pc.Pacing)
    (hrunning : s.pc ≠ .panicked) :
    w.count = s.pacer.sentSec.toNat + s.pc.sent.toNat ∧
      s.pacer.sentSec.toNat + s.pc.sent.toNat + s.pc.left < cfg.ppsPer.toNat + 64 := by
  have hroom : s.pc.sent.toNat + s.pc.left ≤ 64 := h.room
  have hlt : s.pacer.sentSec.toNat < cfg.ppsPer.toNat := UInt64.lt_iff_toNat_lt.mp (h.budget hs)
  exact ⟨h.count hrunning, by omega⟩

theorem Tracks.produce (h : Tracks cfg (s, now) w) (hread : now ≤ read) (hs : ¬ s.pc.Pacing)
    (hrunning : s.pc ≠ .panicked) (hpacer : t.pacer = s.pacer)
    (hsent : t.pc.sent = s.pc.sent + 1) (hleft : t.pc.left + 1 = s.pc.left) :
    w.count < cfg.ppsPer.toNat + 63 ∧ Tracks cfg (t, read) ⟨w.start, w.count + 1, read⟩ := by
  obtain ⟨hcount, hlt⟩ := h.count_lt hs hrunning
  have hroom : s.pc.sent.toNat + s.pc.left ≤ 64 := h.room
  have hsucc : t.pc.sent.toNat = s.pc.sent.toNat + 1 := by
    rw [hsent, UInt64.toNat_add, UInt64.toNat_one, Nat.mod_eq_of_lt (by omega)]
  refine ⟨by omega, by rw [h.start, hpacer], h.opened.trans (h.now.trans hread), le_rfl, ?_, ?_, ?_⟩
  · intro _
    show w.count + 1 = t.pacer.sentSec.toNat + t.pc.sent.toNat
    rw [hpacer]
    omega
  · show t.pc.sent.toNat + t.pc.left ≤ 64
    omega
  · intro _
    show t.pacer.sentSec < cfg.ppsPer
    rw [hpacer]
    exact h.budget hs

theorem Tracks.note {kicked : Bool} (hfit : cfg.ppsPer.toNat ≤ 2 ^ 64 - 64)
    (h : Tracks cfg (s, now) w) (hread : now ≤ read) (hs : ¬ s.pc.Pacing)
    (hrunning : s.pc ≠ .panicked) (ht : t.pc = .pace kicked)
    (hpacer : t.pacer = s.pacer.note s.pc.sent) : Tracks cfg (t, read) w := by
  obtain ⟨hcount, hlt⟩ := h.count_lt hs hrunning
  refine ⟨by rw [h.start, hpacer]; rfl, h.opened, h.now.trans hread, ?_, ?_, ?_⟩
  · intro _
    show w.count = t.pacer.sentSec.toNat + t.pc.sent.toNat
    rw [hpacer, ht, hcount]
    show _ = (s.pacer.sentSec + s.pc.sent).toNat + 0
    rw [UInt64.toNat_add, Nat.mod_eq_of_lt (by omega), Nat.add_zero]
  · simp [ht, Pc.sent, Pc.left]
  · simp [ht, Pc.Pacing]

theorem Tracks.pace {mid later : ℕ} (hbudget : 1 ≤ cfg.ppsPer)
    (hpacer : t.pacer = s.pacer.pace cfg.ppsPer read late) (ht : t.pc = .head)
    (hopened : t.pacer.secStart ≤ mid) (hmid : mid ≤ later) :
    Tracks cfg (t, later) (t.pacer.window mid) := by
  refine ⟨rfl, hopened, hmid, ?_, ?_, ?_⟩
  · simp [ht, Pc.sent, Pacer.window]
  · simp [ht, Pc.sent, Pc.left]
  · intro _
    show t.pacer.sentSec < cfg.ppsPer
    rw [hpacer]
    exact Pacer.sentSec_pace_lt read late hbudget

theorem marks_next {kicked : Bool} {pending : ℕ} (hs : s.pc = .pace kicked) :
    Timed.marks ⟨.next kicked pending, s.stepEnd cfg read late, s.Restarts cfg⟩ =
      s.pacer.paceMarks cfg.ppsPer read late := by
  by_cases hdue : s.pacer.Due cfg.ppsPer
  · simp [Timed.marks, State.Restarts, State.stepEnd, hs, Pacer.paceMarks, Pacer.paceEnd, hdue]
  · simp [Timed.marks, State.Restarts, hs, Pacer.paceMarks, hdue]

/-- A step of `tx_loop` is matched by the steps of the windows that it shows. -/
theorem exists_path_of_loopStep {start : ℕ} (hbudget : 1 ≤ cfg.ppsPer)
    (hfit : cfg.ppsPer.toNat ≤ 2 ^ 64 - 64) (h : Tracks cfg (s, now) w) (hread : now ≤ read)
    (hstep : loopStep cfg read late s = some (event, t)) :
    ∃ w', (windows second (cfg.ppsPer.toNat + 63) start).Path w
        (Timed.marks ⟨event, s.stepEnd cfg read late, s.Restarts cfg⟩) w' ∧
      Tracks cfg (t, s.stepEnd cfg read late) w' := by
  have hrunning : s.pc ≠ .panicked := by
    intro hpc
    simp [loopStep, hpc] at hstep
  have hend (hs : ¬ s.pc.Pacing) : s.stepEnd cfg read late = read ∧ s.Restarts cfg = false := by
    unfold State.stepEnd State.Restarts
    cases hpc : s.pc <;> simp_all [Pc.Pacing]
  cases paced_of_loopStep hstep with
  | quiet hevent hmarks hs ht hpacer hsent hleft =>
      obtain ⟨hover, hrestarts⟩ := hend hs
      rw [hover, hrestarts, hmarks]
      exact ⟨w, .nil, h.quiet hread (fun _ => hs) hpacer hsent hleft fun _ => hrunning⟩
  | panic hs hpacer ht =>
      obtain ⟨hover, hrestarts⟩ := hend hs
      rw [hover, hrestarts]
      exact ⟨w, .nil, h.panic hread hs hpacer ht⟩
  | @produce payload n _ hn hs ht hpacer hsent hleft =>
      obtain ⟨hover, hrestarts⟩ := hend hs
      obtain ⟨hroom, htracks⟩ := h.produce hread hs hrunning hpacer hsent hleft
      have hmarks : Timed.marks ⟨.produce payload n, read, false⟩ = [.item read] := if_neg hn
      rw [hover, hrestarts, hmarks]
      exact ⟨_, .single (.item (h.now.trans hread) hroom), htracks⟩
  | noted hevent hmarks hs ht hpacer =>
      obtain ⟨hover, hrestarts⟩ := hend hs
      obtain ⟨kicked, ht⟩ := ht
      rw [hover, hrestarts, hmarks]
      exact ⟨w, .nil, h.note hfit hread hs hrunning ht hpacer⟩
  | @next kicked pending _ hs ht hpacer =>
      have hw : w = s.pacer.window w.now := by
        rw [Pacer.window, ← h.start]
        have hcount : w.count = s.pacer.sentSec.toNat := by
          rw [h.count hrunning, hs]
          rfl
        rw [← hcount]
      obtain ⟨mid, hopened, hmid, hpath⟩ := s.pacer.path_pace read late cfg.ppsPer
        (cfg.ppsPer.toNat + 63) start (h.start.symm.trans_le h.opened) (h.now.trans hread)
      have hover : s.stepEnd cfg read late = s.pacer.paceEnd cfg.ppsPer read late := by
        simp [State.stepEnd, hs]
      rw [← hw, ← hpacer] at hpath
      rw [marks_next hs, hover]
      exact ⟨t.pacer.window mid, hpath, .pace hbudget hpacer ht (by rwa [hpacer]) hmid⟩

theorem exists_path_of_step {start : ℕ} {first last : State × ℕ} {event : Timed}
    (hbudget : 1 ≤ cfg.ppsPer) (hfit : cfg.ppsPer.toNat ≤ 2 ^ 64 - 64) (h : Tracks cfg first w)
    (hstep : TimedStep cfg first event last) :
    ∃ w', (windows second (cfg.ppsPer.toNat + 63) start).Path w event.marks w' ∧
      Tracks cfg last w' := by
  cases hstep with
  | loop hread hstep => exact exists_path_of_loopStep hbudget hfit h hread hstep
  | outside htime hstep hevent =>
      cases hstep with
      | loop hstep => exact absurd (loop_of_loopStep hstep) hevent
      | stop hpc =>
          refine ⟨w, .nil, h.quiet htime ?_ rfl ?_ ?_ ?_⟩ <;>
            simp [hpc, Pc.Pacing, Pc.sent, Pc.left]
      | take htake => exact ⟨w, .nil, h.quiet htime id rfl rfl le_rfl id⟩
      | complete hheld => exact ⟨w, .nil, h.quiet htime id rfl rfl le_rfl id⟩

/-- **What a paced worker does is a run of windows.** -/
theorem exists_window_path {first last : State × ℕ} {trace : List Timed}
    (hbudget : 1 ≤ cfg.ppsPer) (hfit : cfg.ppsPer.toNat ≤ 2 ^ 64 - 64)
    (hinit : (timed cfg).Init first) (hpath : (timed cfg).Path first trace last) :
    ∃ w, (windows second (cfg.ppsPer.toNat + 63) first.2).Path ⟨first.2, 0, first.2⟩
      (timeline trace) w := by
  obtain ⟨⟨-, -, -, -, -, -, -, -, -, hsent, hpc, -⟩, hstart⟩ := hinit
  have hfirst : Tracks cfg first ⟨first.2, 0, first.2⟩ := by
    refine ⟨hstart.symm, le_rfl, le_rfl, ?_, ?_, ?_⟩
    · simp [hsent, hpc, Pc.sent]
    · simp [hpc, Pc.sent, Pc.left]
    · intro _
      rw [hsent]
      exact UInt64.lt_iff_toNat_lt.mpr (UInt64.le_iff_toNat_le.mp hbudget)
  have hrun : ∃ w, (windows second (cfg.ppsPer.toNat + 63) first.2).Path ⟨first.2, 0, first.2⟩
      (timeline trace) w ∧ Tracks cfg last w := by
    refine hpath.invariant (P := fun trace last =>
      ∃ w, (windows second (cfg.ppsPer.toNat + 63) first.2).Path ⟨first.2, 0, first.2⟩
        (timeline trace) w ∧ Tracks cfg last w) ⟨_, .nil, hfirst⟩ ?_
    rintro trace u event v - ⟨w, hw, htracks⟩ hstep
    obtain ⟨w', hw', htracks'⟩ := exists_path_of_step hbudget hfit htracks hstep
    refine ⟨w', ?_, htracks'⟩
    simpa [timeline] using hw.append hw'
  obtain ⟨w, hw, -⟩ := hrun
  exact ⟨w, hw⟩

end RunPerf.Xdp.Gen
