import RunPerf.Xdp.GenDelivery
import RunPerf.Xdp.GenOversized

/-!
# Stalls of the generator

`tx_loop` kicks the kernel at the end of a batch, but only if the batch has put something on
the TX ring.  Suppose that the kernel takes descriptors in response to a kick only, and that
a kick may fail.  Then the worker can end up with all frames on the TX ring: it finds no
frame, sends nothing, kicks nobody, and no frame ever comes back.

This happens exactly if a kick returns with all 2048 frames pending
(`Tracked.full`, `Tracked.room`).  An iteration without a kick is one that has found no
frame when it began (`Paired`), which is why two of them in a row with descriptors pending
are two iterations in a row that have found no frame.
-/

namespace RunPerf.Xdp.Gen

open RunPerf.Lib

variable {cfg : Config} {trace : List Event} {s t : State} {event : Event}

/-- The generator with a kernel that takes descriptors during a kick only. -/
def kickDriven (cfg : Config) : Machine State Event :=
  (machine cfg).restrict fun s event => ∀ frame, event = .take frame → ∃ sent, s.pc = .kicked sent

/-- Descriptors are pending, no frame is anywhere else, and nobody will ever kick again. -/
structure Stalled (cfg : Config) (s : State) : Prop where
  head : s.pc = .head
  pending : s.tx.contents ≠ []
  pool : s.pool = []
  comp : s.comp.contents = []
  kernel : s.kernel = []
  unkicked : ∀ trace t, (kickDriven cfg).Path s trace t → Event.kick ∉ trace

/-- The frames at hand and the descriptors pending at the beginning of each iteration. -/
def begun (trace : List Event) : List (ℕ × ℕ) :=
  trace.filterMap fun
    | .dequeue found pending => some (found, pending)
    | _ => none

/-- Whether each iteration that is over has kicked, and the descriptors pending at its end. -/
def ended (trace : List Event) : List (Bool × ℕ) :=
  trace.filterMap fun
    | .next kicked pending => some (kicked, pending)
    | _ => none

/-- If descriptors are pending at the end of an iteration, this iteration or the next one
kicks. -/
def KickedInTime (trace : List Event) : Prop :=
  (ended trace).IsChain fun this next => 0 < this.2 → this.1 ∨ next.1

/-- No two iterations in a row find no frame while descriptors are pending. -/
def NotStarvedTwice (trace : List Event) : Prop :=
  ((begun trace).take (ended trace).length).IsChain fun this next =>
    0 < this.2 → 0 < this.1 ∨ 0 < next.1

/-! ## A stall lasts -/

/-- Where the loop passes through when it finds no frame. -/
inductive Pc.Idle : Pc → Prop
  | head : Idle .head
  | recycle : Idle (.recycle [])
  | batch (left : ℕ) : Idle (.batch left 0)
  | pace (kicked : Bool) : Idle (.pace kicked)
  | stopped : Idle .stopped

/-- No frame is anywhere but on the TX ring. -/
structure Dead (s : State) : Prop where
  comp : s.comp.Represents ringSize []
  pool : s.pool = []
  kernel : s.kernel = []
  idle : s.pc.Idle

theorem Dead.loop {read late : ℕ} (h : Dead s)
    (hstep : loopStep cfg read late s = some (event, t)) :
    Dead t ∧ t.tx = s.tx ∧ event ≠ .kick := by
  have hidle := h.idle
  generalize hpc : s.pc = pc at hidle
  cases hidle with
  | head =>
      obtain ⟨hout, hempty⟩ := h.comp.dequeueAll
      rw [loopStep_head cfg read late hpc, hout] at hstep
      cases hstep
      exact ⟨⟨hempty, h.pool, h.kernel, .recycle⟩, rfl, by simp⟩
  | recycle =>
      rw [loopStep_recycle cfg read late hpc] at hstep
      cases hstep
      exact ⟨⟨h.comp, by simp [h.pool], h.kernel, .batch _⟩, rfl, by simp⟩
  | batch left =>
      cases left with
      | zero =>
          rw [loopStep_noKick cfg read late hpc (by decide)] at hstep
          cases hstep
          exact ⟨⟨h.comp, h.pool, h.kernel, .pace _⟩, rfl, by simp⟩
      | succ left =>
          rw [loopStep_pop_none cfg read late hpc (by simp [h.pool])] at hstep
          cases hstep
          exact ⟨⟨h.comp, h.pool, h.kernel, .batch _⟩, rfl, by simp⟩
  | pace kicked =>
      rw [loopStep_pace cfg read late hpc] at hstep
      cases hstep
      exact ⟨⟨h.comp, h.pool, h.kernel, .head⟩, rfl, by simp⟩
  | stopped => simp [loopStep, hpc] at hstep

theorem Dead.step (h : Dead s) (hstep : (kickDriven cfg).Step s event t) :
    Dead t ∧ t.tx = s.tx ∧ event ≠ .kick := by
  obtain ⟨hstep, hguard⟩ := hstep
  cases hstep with
  | loop hloop => exact h.loop hloop
  | stop hpc => exact ⟨⟨h.comp, h.pool, h.kernel, .stopped⟩, rfl, by simp⟩
  | take htake =>
      -- Nobody is in a kick.
      obtain ⟨sent, hpc⟩ := hguard _ rfl
      have hidle := h.idle
      rw [hpc] at hidle
      cases hidle
  | complete hheld => simp [h.kernel] at hheld

theorem Dead.path (h : Dead s) (hpath : (kickDriven cfg).Path s trace t) :
    Dead t ∧ t.tx = s.tx ∧ Event.kick ∉ trace := by
  refine hpath.invariant (P := fun trace t => Dead t ∧ t.tx = s.tx ∧ Event.kick ∉ trace)
    ⟨h, rfl, by simp⟩ ?_
  rintro trace u event v - ⟨hdead, htx, hunkicked⟩ hstep
  obtain ⟨hdead', htx', hevent⟩ := hdead.step hstep
  refine ⟨hdead', htx'.trans htx, ?_⟩
  simp [hunkicked, hevent.symm]

theorem Dead.stalled (h : Dead s) (hpc : s.pc = .head) (hpending : s.tx.contents ≠ []) :
    Stalled cfg s :=
  ⟨hpc, hpending, h.pool, h.comp.contents_eq, h.kernel, fun _ _ hpath => (h.path hpath).2.2⟩

/-! ## Iterations -/

/-- How the end of an iteration goes with its beginning. -/
def Matches (first : ℕ × ℕ) (last : Bool × ℕ) : Prop :=
  last.1 = decide (0 < first.1) ∧ (first.1 = 0 → last.2 = first.2)

/-- What holds in an iteration that has found `found` frames and `pending` descriptors. -/
def Phase (found pending : ℕ) (s : State) : Prop :=
  match s.pc with
  | .recycle done => found = s.pool.length + done.length ∧ s.tx.contents.length = pending
  | .batch left sent =>
      sent = 0 ∧ s.tx.contents.length = pending ∧
          (left = txBatch ∧ found = s.pool.length ∨ left = 0 ∧ found = 0) ∨
        0 < sent.toNat ∧ sent.toNat + left ≤ txBatch ∧ 0 < found
  | .holding _ left sent => sent.toNat + left < txBatch ∧ 0 < found
  | .written _ left sent => sent.toNat + left < txBatch ∧ 0 < found
  | .kicked _ => 0 < found
  | .pace kicked => Matches (found, pending) (kicked, s.tx.contents.length)
  | _ => False

/-- The iterations that are over, and the current one. -/
inductive Paired (trace : List Event) (s : State) : Prop
  | between (hpc : s.pc = .head ∨ s.pc = .stopped)
      (h : List.Forall₂ Matches (begun trace) (ended trace)) : Paired trace s
  | inside {before : List (ℕ × ℕ)} {found pending : ℕ}
      (hbegun : begun trace = before ++ [(found, pending)])
      (h : List.Forall₂ Matches before (ended trace)) (hphase : Phase found pending s) :
      Paired trace s

/-- Since the last kick nothing was put on the TX ring. -/
def Pc.Settled : Pc → Prop
  | .head => True
  | .recycle _ => True
  | .batch _ sent => sent = 0
  | .pace _ => True
  | .stopped => True
  | _ => False

structure Tracked (trace : List Event) (s : State) : Prop where
  paired : Paired trace s
  room : Event.kickReturn 2048 ∉ trace → s.pc.Settled → s.tx.contents.length < 2048
  full : Event.kickReturn 2048 ∈ trace → Dead s ∧ s.tx.contents.length = 2048

/-! ## One iteration -/

theorem occupancy_tx (h : Inv cfg trace s) : s.tx.occupancy = s.tx.contents.length :=
  h.conserved.tx.occupancy_eq

theorem begun_dequeue (found pending : ℕ) :
    begun (trace ++ [.dequeue found pending]) = begun trace ++ [(found, pending)] := by
  simp [begun]

theorem ended_next (kicked : Bool) (pending : ℕ) :
    ended (trace ++ [.next kicked pending]) = ended trace ++ [(kicked, pending)] := by
  simp [ended]

/-- Events that neither begin nor end an iteration. -/
def Event.Inner : Event → Prop
  | .dequeue _ _ => False
  | .next _ _ => False
  | _ => True

/-- A step inside an iteration, or one of the kernel. -/
theorem Paired.keep (h : Paired trace s) (hinner : event.Inner)
    (hbetween : s.pc = .head ∨ s.pc = .stopped → t.pc = s.pc)
    (hphase : ∀ found pending, Phase found pending s → Phase found pending t) :
    Paired (trace ++ [event]) t := by
  have hbegun : begun (trace ++ [event]) = begun trace := by
    cases event <;> simp_all [begun, Event.Inner]
  have hended : ended (trace ++ [event]) = ended trace := by
    cases event <;> simp_all [ended, Event.Inner]
  cases h with
  | between hpc h =>
      refine .between ?_ (by rw [hbegun, hended]; exact h)
      rw [hbetween hpc]
      exact hpc
  | inside hold h hs => exact .inside (hbegun.trans hold) (by rw [hended]; exact h) (hphase _ _ hs)

/-- The next attempt begins: the batch is untouched, or something has been sent. -/
theorem Phase.pop {found pending left : ℕ} {sent : UInt64} (h : Phase found pending s)
    (hpc : s.pc = .batch (left + 1) sent) :
    sent = 0 ∧ s.tx.contents.length = pending ∧ left + 1 = txBatch ∧ found = s.pool.length ∨
      0 < sent.toNat ∧ sent.toNat + (left + 1) ≤ txBatch ∧ 0 < found := by
  simp only [Phase, hpc] at h
  rcases h with ⟨hsent, hpending, ⟨hleft, hfound⟩ | ⟨hleft, -⟩⟩ | hsending
  · exact .inl ⟨hsent, hpending, hleft, hfound⟩
  · omega
  · exact .inr hsending

theorem toNat_sent_succ {sent : UInt64} {left : ℕ} (h : sent.toNat + left < txBatch) :
    (sent + 1).toNat = sent.toNat + 1 := by
  have hbatch : txBatch = 64 := rfl
  rw [UInt64.toNat_add, UInt64.toNat_one, Nat.mod_eq_of_lt (by omega)]

theorem Phase.extend {found pending : ℕ} {done : List UInt64} (h : Phase found pending s)
    (hpc : s.pc = .recycle done) :
    Phase found pending { s with pool := s.pool ++ done, pc := .batch txBatch 0 } := by
  simp only [Phase, hpc] at h
  obtain ⟨hfound, hpending⟩ := h
  exact .inl ⟨rfl, hpending, .inl ⟨rfl, by rw [List.length_append, hfound]⟩⟩

theorem Phase.popNone {found pending left : ℕ} {sent seq : UInt64} {payload : List UInt8}
    (h : Phase found pending s) (hpc : s.pc = .batch (left + 1) sent) (hpool : s.pool = []) :
    Phase found pending { s with payload := payload, seq := seq, pc := .batch 0 sent } := by
  rcases h.pop hpc with ⟨hsent, hpending, -, hfound⟩ | ⟨hsent, hbound, hfound⟩
  · rw [hpool, List.length_nil] at hfound
    exact .inl ⟨hsent, hpending, .inr ⟨rfl, hfound⟩⟩
  · exact .inr ⟨hsent, by omega, hfound⟩

theorem Phase.popSome {found pending left : ℕ} {sent addr : UInt64} (h : Phase found pending s)
    (hpc : s.pc = .batch (left + 1) sent) (hlast : s.pool.getLast? = some addr) :
    sent.toNat + left < txBatch ∧ 0 < found := by
  have hpool := List.length_pos_of_mem (List.mem_of_getLast? hlast)
  rcases h.pop hpc with ⟨rfl, -, hleft, rfl⟩ | ⟨-, hbound, hfound⟩
  · refine ⟨?_, hpool⟩
    rw [UInt64.toNat_zero]
    omega
  · exact ⟨by omega, hfound⟩

theorem Phase.produce {found pending left : ℕ} {desc : XdpDesc} {sent : UInt64} {tx : DescRing}
    (h : Phase found pending s) (hpc : s.pc = .written desc left sent) :
    Phase found pending { s with tx := tx, pc := .batch left (sent + 1) } := by
  simp only [Phase, hpc] at h
  obtain ⟨hbound, hfound⟩ := h
  refine .inr ⟨?_, ?_, hfound⟩
  · rw [toNat_sent_succ hbound]
    omega
  · rw [toNat_sent_succ hbound]
    omega

/-- A batch that has sent something has found something. -/
theorem Phase.found_of_sent {found pending left : ℕ} {sent : UInt64} (h : Phase found pending s)
    (hpc : s.pc = .batch left sent) (hsent : sent > 0) : 0 < found := by
  simp only [Phase, hpc] at h
  rcases h with ⟨rfl, -⟩ | ⟨-, -, hfound⟩
  · exact absurd hsent (by decide)
  · exact hfound

/-- A batch that ends with nothing sent has found nothing. -/
theorem Phase.noKick {found pending : ℕ} {sent : UInt64} (h : Phase found pending s)
    (hpc : s.pc = .batch 0 sent) (hsent : ¬ sent > 0) :
    Matches (found, pending) (false, s.tx.contents.length) := by
  simp only [Phase, hpc] at h
  rcases h with ⟨-, hpending, ⟨hleft, -⟩ | ⟨-, rfl⟩⟩ | ⟨hpos, -⟩
  · cases hleft
  · exact ⟨rfl, fun _ => hpending⟩
  · exact absurd (UInt64.lt_iff_toNat_lt.mpr (by simpa using hpos)) hsent

theorem paired_step (hpayload : cfg.payloadLen ≤ 4054) (hinv : Inv cfg trace s)
    (h : Paired trace s) (hstep : (kickDriven cfg).Step s event t) :
    Paired (trace ++ [event]) t := by
  obtain ⟨hstep, hguard⟩ := hstep
  cases move_of_step hpayload hinv hstep with
  | dequeue hpc =>
      cases h with
      | between _ h =>
          refine .inside (begun_dequeue _ _) ?_ ?_
          · simpa [ended] using h
          · exact ⟨rfl, (occupancy_tx hinv).symm⟩
      | inside _ _ hphase => simp [Phase, hpc] at hphase
  | extend hpc => exact h.keep trivial (by simp [hpc]) fun _ _ hs => hs.extend hpc
  | popNone hpc hpool =>
      exact h.keep trivial (by simp [hpc]) fun _ _ hs => hs.popNone hpc hpool
  | popSome hpc hlast =>
      exact h.keep trivial (by simp [hpc]) fun _ _ hs => hs.popSome hpc hlast
  | write hpc hwrite =>
      refine h.keep trivial (by simp [hpc]) fun _ _ hs => ?_
      simpa only [Phase, hpc] using hs
  | produce hpc => exact h.keep trivial (by simp [hpc]) fun _ _ hs => hs.produce hpc
  | kick hpc hsent =>
      exact h.keep trivial (by simp [hpc]) fun _ _ hs => hs.found_of_sent hpc hsent
  | noKick hpc hsent =>
      exact h.keep trivial (by simp [hpc]) fun _ _ hs => hs.noKick hpc hsent
  | kickReturn hpc =>
      refine h.keep trivial (by simp [hpc]) fun _ _ hs => ?_
      simp only [Phase, hpc] at hs
      exact ⟨(decide_eq_true hs).symm, fun hzero => absurd hzero hs.ne'⟩
  | next read late hpc =>
      cases h with
      | between hbetween _ => simp [hpc] at hbetween
      | inside hbegun h hphase =>
          simp only [Phase, hpc] at hphase
          have hsame : ∀ kicked n, begun (trace ++ [.next kicked n]) = begun trace := by
            simp [begun]
          refine .between (.inl rfl) ?_
          rw [ended_next, occupancy_tx hinv, hsame, hbegun]
          exact List.rel_append h (.cons hphase .nil)
  | stop hpc =>
      cases h with
      | between _ h => exact .between (.inr rfl) (by simpa [begun, ended] using h)
      | inside _ _ hphase => simp [Phase, hpc] at hphase
  | take htake =>
      -- The kernel is in a kick, where only the number of frames found matters.
      obtain ⟨sent, hpc⟩ := hguard _ rfl
      refine h.keep trivial (by simp [hpc]) fun _ _ hs => ?_
      simpa only [Phase, hpc] using hs
  | complete hheld => exact h.keep trivial (fun _ => rfl) fun _ _ hs => hs

/-! ## Whole runs -/

theorem Paired.phase_of_written {desc : XdpDesc} {left : ℕ} {sent : UInt64} (h : Paired trace s)
    (hpc : s.pc = .written desc left sent) : sent.toNat + left < txBatch := by
  cases h with
  | between hbetween _ => simp [hpc] at hbetween
  | inside _ _ hphase =>
      simp only [Phase, hpc] at hphase
      exact hphase.1

theorem room_step (hpayload : cfg.payloadLen ≤ 4054) (hinv : Inv cfg trace s)
    (hpaired : Paired trace s) (hstep : (kickDriven cfg).Step s event t)
    (hnew : event ≠ .kickReturn 2048) (h : s.pc.Settled → s.tx.contents.length < 2048)
    (hsettled : t.pc.Settled) : t.tx.contents.length < 2048 := by
  obtain ⟨hstep, hguard⟩ := hstep
  cases move_of_step hpayload hinv hstep with
  | dequeue hpc => exact h (by simp [hpc, Pc.Settled])
  | extend hpc => exact h (by simp [hpc, Pc.Settled])
  | popNone hpc hpool => exact h (by rw [hpc]; exact hsettled)
  | popSome hpc hlast => exact hsettled.elim
  | write hpc hwrite => exact hsettled.elim
  | produce hpc =>
      -- The number of frames sent in a batch does not wrap to zero.
      have hsucc := toNat_sent_succ (hpaired.phase_of_written hpc)
      have hzero := congrArg UInt64.toNat hsettled
      rw [hsucc, UInt64.toNat_zero] at hzero
      omega
  | kick hpc hsent => exact hsettled.elim
  | noKick hpc hsent =>
      refine h ?_
      rw [hpc]
      exact UInt64.toNat_inj.mp (by simpa [UInt64.lt_iff_toNat_lt] using hsent)
  | kickReturn hpc =>
      have hle := hinv.conserved.tx.length_le
      have hne : s.tx.contents.length ≠ 2048 := by
        intro hfull
        rw [occupancy_tx hinv, hfull] at hnew
        exact hnew rfl
      have hsize : ringSize.toNat = 2048 := rfl
      show s.tx.contents.length < 2048
      omega
  | next read late hpc => exact h (by simp [hpc, Pc.Settled])
  | stop hpc => exact h (by simp [hpc, Pc.Settled])
  | take htake =>
      obtain ⟨sent, hpc⟩ := hguard _ rfl
      simp [Pc.Settled, hpc] at hsettled
  | complete hheld => exact h hsettled

/-- After a kick that returns with all frames pending, no frame is anywhere else. -/
theorem dead_of_full (hpayload : cfg.payloadLen ≤ 4054) (hinv : Inv cfg trace s)
    (hstep : Step cfg s (.kickReturn 2048) t) : Dead t ∧ t.tx.contents.length = 2048 := by
  generalize hevent : Event.kickReturn 2048 = event at hstep
  cases move_of_step hpayload hinv hstep with
  | kickReturn hpc =>
      injection hevent with hfull
      rw [occupancy_tx hinv] at hfull
      have hlength := hinv.conserved.length_places
      simp only [State.places, State.inHand, hpc, List.length_append, List.length_map,
        List.length_nil, ← hfull] at hlength
      have hcomp : s.comp.contents = [] := List.length_eq_zero_iff.mp (by omega)
      have hpool : s.pool = [] := List.length_eq_zero_iff.mp (by omega)
      have hkernel : s.kernel = [] := List.length_eq_zero_iff.mp (by omega)
      refine ⟨⟨?_, hpool, hkernel, .pace true⟩, hfull.symm⟩
      rw [← hcomp]
      exact hinv.conserved.comp
  | _ => cases hevent

theorem tracked_step (hpayload : cfg.payloadLen ≤ 4054) (hinv : Inv cfg trace s)
    (h : Tracked trace s) (hstep : (kickDriven cfg).Step s event t) :
    Tracked (trace ++ [event]) t := by
  refine ⟨paired_step hpayload hinv h.paired hstep, ?_, ?_⟩
  · intro hnone
    simp only [List.mem_append, List.mem_singleton, not_or] at hnone
    exact room_step hpayload hinv h.paired hstep (Ne.symm hnone.2) (h.room hnone.1)
  · intro hmem
    rcases List.mem_append.mp hmem with hold | hnew
    · obtain ⟨hdead, hfull⟩ := h.full hold
      obtain ⟨hdead', htx, -⟩ := hdead.step hstep
      exact ⟨hdead', by rw [htx]; exact hfull⟩
    · rw [← List.mem_singleton.mp hnew] at hstep
      exact dead_of_full hpayload hinv hstep.1

theorem tracked_run (hpayload : cfg.payloadLen ≤ 4054) (hrun : (kickDriven cfg).Run trace s) :
    Tracked trace s := by
  refine hrun.invariant (P := Tracked) ?_ ?_
  · intro s hinit
    have hempty := (inv_init hinit).delivered.count
    obtain ⟨-, -, -, -, -, -, -, -, -, -, hpc, -⟩ := hinit
    refine ⟨.between (.inl hpc) .nil, fun _ _ => ?_, by simp⟩
    simp only [accepted, List.filterMap_nil, List.length_nil] at hempty
    omega
  · intro trace s event t hbefore h hstep
    exact tracked_step hpayload (inv_run hpayload hbefore.of_restrict) h hstep

/-- Chains of related entries. -/
theorem isChain_iff_of_forall₂ {α β : Type*} {R : α → β → Prop} {S : α → α → Prop}
    {T : β → β → Prop} (hiff : ∀ a a' b b', R a b → R a' b' → (S a a' ↔ T b b'))
    {first : List α} {second : List β} (h : List.Forall₂ R first second) :
    first.IsChain S ↔ second.IsChain T := by
  induction h with
  | nil => simp
  | cons hhead htail ih =>
      cases htail with
      | nil => simp
      | cons hnext _ =>
          rw [List.isChain_cons_cons, List.isChain_cons_cons, hiff _ _ _ _ hhead hnext, ih]

/-- The beginnings of the iterations that are over go with their ends. -/
theorem Paired.matches (h : Paired trace s) :
    List.Forall₂ Matches ((begun trace).take (ended trace).length) (ended trace) := by
  cases h with
  | between _ h =>
      rw [← h.length_eq, List.take_length]
      exact h
  | inside hbegun h _ =>
      rw [hbegun, ← h.length_eq, List.take_left]
      exact h

theorem kickedInTime_iff_of_paired (h : Paired trace s) :
    KickedInTime trace ↔ NotStarvedTwice trace := by
  refine (isChain_iff_of_forall₂ ?_ h.matches).symm
  rintro ⟨found, pending⟩ ⟨found', pending'⟩ ⟨kicked, left⟩ ⟨kicked', left'⟩ hthis hnext
  obtain ⟨rfl, hsame⟩ := hthis
  obtain ⟨rfl, -⟩ := hnext
  simp only [decide_eq_true_eq] at hsame ⊢
  by_cases hfound : found = 0
  · rw [hsame hfound]
  · simp [Nat.pos_of_ne_zero hfound]

theorem Tracked.stalled_iff (h : Tracked trace s) (hinv : Inv cfg trace s) :
    Stalled cfg s ↔ s.pc = .head ∧ Event.kickReturn 2048 ∈ trace := by
  constructor
  · intro hstalled
    refine ⟨hstalled.head, ?_⟩
    by_contra hnone
    have hroom := h.room hnone (by simp [hstalled.head, Pc.Settled])
    have hfull := hinv.conserved.length_pending (inHand_head hstalled.head) hstalled.pool
      hstalled.kernel hstalled.comp
    omega
  · rintro ⟨hpc, hmem⟩
    obtain ⟨hdead, hfull⟩ := h.full hmem
    exact hdead.stalled hpc (List.ne_nil_of_length_pos (by omega))

theorem Unsent.ended_eq (h : Unsent cfg trace s) : ended trace = [] := by
  refine h.filterMap_eq_nil fun event hearly => ?_
  cases event <;> simp_all [Event.Early]

/-- A kernel that answers no kick. -/
theorem run_of_alone {start : State} (hinit : (machine cfg).Init start)
    (hpath : (alone cfg).Path start trace s) : (kickDriven cfg).Run trace s := by
  refine ⟨start, hinit, hpath.restrict_mono ?_⟩
  rintro _ _ hloop frame rfl
  exact hloop.elim

/-- **When the generator stalls.**  In every run with a kernel that takes descriptors during
a kick only, the worker is stalled at the head of its loop exactly if some kick has returned
with all 2048 frames pending.  Of two iterations in a row one kicks, if descriptors are
pending at the end of the first, exactly if no two of them in a row have found no frame while
descriptors were pending. -/
theorem tx_stalls_after_failed_kick (hrun : (kickDriven cfg).Run trace s) :
    (Stalled cfg s ↔ s.pc = .head ∧ Event.kickReturn 2048 ∈ trace) ∧
      (KickedInTime trace ↔ NotStarvedTwice trace) := by
  by_cases hpayload : cfg.payloadLen ≤ 4054
  · have h := tracked_run hpayload hrun
    exact ⟨h.stalled_iff (inv_run hpayload hrun.of_restrict), kickedInTime_iff_of_paired h.paired⟩
  · -- The first `write_frame` panics before anything is sent.
    have hunsent := unsent_run (not_le.mp hpayload) hrun.of_restrict
    refine ⟨iff_of_false ?_ ?_, iff_of_true ?_ ?_⟩
    · intro hstalled
      exact hstalled.pending hunsent.tx.contents_eq
    · rintro ⟨-, hmem⟩
      exact hunsent.early _ hmem
    · rw [KickedInTime, hunsent.ended_eq]
      exact .nil
    · rw [NotStarvedTwice, hunsent.ended_eq]
      exact .nil

/-- After one iteration, whose kick was answered by nobody, the worker is not stalled. -/
theorem tx_not_stalled_after_one_kick :
    ∃ trace s, (kickDriven sampleConfig).Run trace s ∧ s.pc = .head ∧
      results trace = List.replicate txBatch true ∧ Event.kickReturn 2048 ∉ trace ∧
      ¬ Stalled sampleConfig s := by
  have hpayload : sampleConfig.payloadLen ≤ 4054 := by decide
  have hinit := init_started sampleConfig 4294967295
  have hnil : (started sampleConfig 4294967295).comp.Represents ringSize [] :=
    Ring.represents_nil rfl rfl
  have hbatch : txBatch = 64 := rfl
  obtain ⟨trace, s, hpath, hresults, hpc, hpool, -⟩ := exists_iteration hpayload
    (inv_init hinit) rfl hnil.contents_eq (length_txPool.symm ▸ by decide)
  have hrun := run_of_alone hinit hpath
  have hnone : Event.kickReturn 2048 ∉ trace := by
    intro hmem
    have hempty := ((tracked_run hpayload hrun).full hmem).1.pool
    have hlength : (started sampleConfig 4294967295).pool.length = 2048 := length_txPool
    rw [hempty, List.length_nil] at hpool
    omega
  refine ⟨trace, s, hrun, hpc, hresults, hnone, ?_⟩
  intro hstalled
  exact hnone ((tx_stalls_after_failed_kick hrun).1.mp hstalled).2

/-- If the kernel answers none of the first 32 kicks, the worker is stalled. -/
theorem tx_stall_reachable :
    ∃ trace s, (kickDriven sampleConfig).Run trace s ∧ Stalled sampleConfig s := by
  have hpayload : sampleConfig.payloadLen ≤ 4054 := by decide
  have hinit := init_started sampleConfig 4294967295
  obtain ⟨trace, s, hpath, -, hpc, hpool, hkernel, -, hcomp, hpending⟩ :=
    exists_drained sampleConfig hpayload 4294967295
  have hrun := run_of_alone hinit hpath
  have hinv := inv_run hpayload hrun.of_restrict
  have hdead : Dead s := by
    refine ⟨?_, hpool, hkernel, by rw [hpc]; exact .head⟩
    rw [← hcomp]
    exact hinv.conserved.comp
  exact ⟨trace, s, hrun, hdead.stalled hpc (List.ne_nil_of_length_pos (by omega))⟩

end RunPerf.Xdp.Gen
