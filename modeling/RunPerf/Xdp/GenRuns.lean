import RunPerf.Xdp.GenFrames

/-!
# Runs of the generator

What the worker can do while the kernel is idle.  An attempt succeeds whenever there is a
frame in the pool (`exists_attempt`), so an iteration sends a whole batch as long as the
pool lasts (`exists_iteration`), and after 32 iterations all frames are on the TX ring
(`exists_drained`).  These runs show that the situations in which the generator goes wrong
do arise.
-/

namespace RunPerf.Xdp.Gen

open RunPerf.Lib

variable {cfg : Config} {trace : List Event} {s t : State}

/-- The steps of `tx_loop` itself. -/
def Event.Loop : Event → Prop
  | .stop => False
  | .take _ => False
  | .complete _ => False
  | _ => True

/-- The generator with an idle kernel, before the deadline. -/
def alone (cfg : Config) : Machine State Event :=
  (machine cfg).restrict fun _ event => event.Loop

/-- What an idle kernel leaves as it is. -/
structure Untouched (s t : State) : Prop where
  kernel : t.kernel = s.kernel
  taken : t.taken = s.taken
  comp : t.comp.contents = s.comp.contents

theorem Untouched.trans {u : State} (h : Untouched s t) (h' : Untouched t u) : Untouched s u :=
  ⟨h'.kernel.trans h.kernel, h'.taken.trans h.taken, h'.comp.trans h.comp⟩

theorem results_append (first second : List Event) :
    results (first ++ second) = results first ++ results second :=
  List.filterMap_append

theorem inv_path {trace' : List Event} (hpayload : cfg.payloadLen ≤ 4054) (h : Inv cfg trace s)
    (hpath : (machine cfg).Path s trace' t) : Inv cfg (trace ++ trace') t := by
  refine hpath.invariant (P := fun later t => Inv cfg (trace ++ later) t) (by simpa using h) ?_
  intro later u event v _ hu hstep
  rw [← List.append_assoc]
  exact inv_step hpayload hu hstep

theorem alone_step {read late : ℕ} {event : Event}
    (hstep : loopStep cfg read late s = some (event, t)) (hloop : event.Loop) :
    (alone cfg).Step s event t :=
  ⟨.loop hstep, hloop⟩

/-! ## Attempts -/

/-- With a frame in the pool, an attempt succeeds. -/
theorem exists_attempt (hpayload : cfg.payloadLen ≤ 4054) (h : Inv cfg trace s) (left : ℕ)
    {addr sent : UInt64} (hpc : s.pc = .batch (left + 1) sent)
    (hlast : s.pool.getLast? = some addr) :
    ∃ trace' t, (alone cfg).Path s trace' t ∧ results trace' = [true] ∧
      t.pc = .batch left (sent + 1) ∧ t.pool = s.pool.dropLast ∧ Untouched s t := by
  have hpop := loopStep_pop_some cfg 0 0 hpc hlast
  have hpopped := inv_pop_some h hpc hlast
  have hframe := writeFrame_of_inv hpayload hpopped.stamped addr
  have hwritten := inv_write hpayload hpopped rfl hframe
  have hone := (hwritten.conserved.produceTx _ rfl).1
  refine ⟨_, _, ((Machine.Path.single (alone_step hpop trivial)).snoc
    (alone_step (loopStep_write cfg 0 0 rfl hframe) trivial)).snoc
    (alone_step (loopStep_produce cfg 0 0 rfl hone) trivial), ?_, rfl, rfl,
    ⟨rfl, rfl, rfl⟩⟩
  simp [results]

theorem exists_attempts (hpayload : cfg.payloadLen ≤ 4054) (n left : ℕ) {sent : UInt64}
    (h : Inv cfg trace s) (hpc : s.pc = .batch (left + n) sent) (hpool : n ≤ s.pool.length) :
    ∃ trace' t, (alone cfg).Path s trace' t ∧ results trace' = List.replicate n true ∧
      t.pc = .batch left (sent + UInt64.ofNat n) ∧ t.pool.length = s.pool.length - n ∧
      Untouched s t := by
  induction n generalizing s trace sent with
  | zero => exact ⟨[], s, .nil, rfl, by simpa using hpc, rfl, ⟨rfl, rfl, rfl⟩⟩
  | succ n ih =>
      have hne : s.pool ≠ [] := by
        rintro hnil
        simp [hnil] at hpool
      obtain ⟨first, t, hfirst, hresult, htpc, htpool, hsame⟩ := exists_attempt hpayload h
        (left + n) (by rw [hpc]; rfl) (List.getLast?_eq_getLast_of_ne_nil hne)
      have hlength : t.pool.length = s.pool.length - 1 := by
        rw [htpool, List.length_dropLast]
      obtain ⟨later, u, hlater, hresults, hupc, hupool, hsame'⟩ :=
        ih (inv_path hpayload h hfirst.of_restrict) htpc (by omega)
      refine ⟨first ++ later, u, hfirst.append hlater, ?_, ?_, ?_, hsame.trans hsame'⟩
      · rw [results_append, hresult, hresults]
        rfl
      · rw [hupc, UInt64.add_assoc, Nat.add_comm n 1, UInt64.ofNat_add]
        rfl
      · omega

/-! ## Iterations -/

/-- While nothing comes back, an iteration sends a whole batch if the pool has one. -/
theorem exists_iteration (hpayload : cfg.payloadLen ≤ 4054) (h : Inv cfg trace s)
    (hpc : s.pc = .head) (hcomp : s.comp.contents = []) (hpool : txBatch ≤ s.pool.length) :
    ∃ trace' t, (alone cfg).Path s trace' t ∧ results trace' = List.replicate txBatch true ∧
      t.pc = .head ∧ t.pool.length = s.pool.length - txBatch ∧ Untouched s t := by
  obtain ⟨hout, hempty⟩ := h.conserved.comp.dequeueAll
  rw [hcomp] at hout
  -- The loop goes on and finds nothing to recycle.
  have hdequeue := loopStep_head cfg 0 0 hpc
  rw [hout] at hdequeue
  have hstart := (Machine.Path.single (alone_step hdequeue trivial)).snoc
    (alone_step (loopStep_recycle cfg 0 0 rfl) trivial)
  have hinv := inv_path hpayload h hstart.of_restrict
  obtain ⟨sending, t, hsending, hresults, htpc, htpool, hsame⟩ :=
    exists_attempts hpayload txBatch 0 hinv rfl (by simpa using hpool)
  -- The batch is over: kick, return from the kick, pace.
  have hkick := loopStep_kick cfg 0 0 htpc (by decide)
  have hend := ((Machine.Path.single (alone_step hkick trivial)).snoc
    (alone_step (loopStep_kicked cfg 0 0 rfl) trivial)).snoc
    (alone_step (loopStep_pace cfg 0 0 rfl) trivial)
  refine ⟨_, _, (hstart.append hsending).append hend, ?_, rfl, ?_, ?_⟩
  · rw [results_append, results_append, hresults]
    simp [results]
  · simpa using htpool
  · have hbegin : s.comp.dequeueAll.1.contents = s.comp.contents := by
      rw [hcomp]
      exact hempty.contents_eq
    exact ⟨hsame.kernel, hsame.taken, hsame.comp.trans hbegin⟩

/-- Whole batches until the pool is empty. -/
theorem exists_iterations (hpayload : cfg.payloadLen ≤ 4054) (n : ℕ) (h : Inv cfg trace s)
    (hpc : s.pc = .head) (hcomp : s.comp.contents = []) (hpool : s.pool.length = n * txBatch) :
    ∃ trace' t, (alone cfg).Path s trace' t ∧
      results trace' = List.replicate (n * txBatch) true ∧ t.pc = .head ∧ t.pool = [] ∧
      Untouched s t := by
  induction n generalizing s trace with
  | zero =>
      refine ⟨[], s, .nil, by simp [results], hpc, ?_, ⟨rfl, rfl, rfl⟩⟩
      exact List.length_eq_zero_iff.mp (by simpa using hpool)
  | succ n ih =>
      rw [Nat.succ_mul] at hpool
      obtain ⟨first, t, hfirst, hresult, htpc, htpool, hsame⟩ :=
        exists_iteration hpayload h hpc hcomp (by omega)
      obtain ⟨later, u, hlater, hresults, hupc, hupool, hsame'⟩ :=
        ih (inv_path hpayload h hfirst.of_restrict) htpc (hsame.comp.trans hcomp) (by omega)
      refine ⟨first ++ later, u, hfirst.append hlater, ?_, hupc, hupool, hsame.trans hsame'⟩
      rw [results_append, hresult, hresults, List.replicate_append_replicate, Nat.succ_mul,
        Nat.add_comm]

/-- The generator at its start, with all ring indices at `start`. -/
def started (cfg : Config) (start : UInt32) : State where
  tx := emptyRing start ⟨0, 0, 0⟩
  comp := emptyRing start 0
  pool := txPool
  area := fun _ => 0
  payload := copyAt 0 (toLeBytes cfg.worker) (List.replicate cfg.payloadLen 0)
  seq := 0
  pkts := 0
  bytes := 0
  pacer := ⟨0, 0⟩
  pc := .head
  kernel := []
  taken := 0

theorem init_started (cfg : Config) (start : UInt32) : (machine cfg).Init (started cfg start) :=
  ⟨rfl, rfl, rfl, rfl, rfl, rfl, rfl, rfl, rfl, rfl, rfl, rfl, rfl⟩

/-- Where all frames are if they are nowhere else. -/
theorem Conserved.length_pending (h : Conserved s) (hhand : s.inHand = []) (hpool : s.pool = [])
    (hkernel : s.kernel = []) (hcomp : s.comp.contents = []) : s.tx.contents.length = 2048 := by
  have hlength := h.length_places
  simpa [State.places, hhand, hpool, hkernel, hcomp] using hlength

theorem inHand_head (hpc : s.pc = .head) : s.inHand = [] := by
  simp [State.inHand, hpc]

/-- After 32 iterations with an idle kernel all frames are on the TX ring. -/
theorem exists_drained (cfg : Config) (hpayload : cfg.payloadLen ≤ 4054) (start : UInt32) :
    ∃ trace s, (alone cfg).Path (started cfg start) trace s ∧
      results trace = List.replicate 2048 true ∧ s.pc = .head ∧ s.pool = [] ∧ s.kernel = [] ∧
      s.taken = 0 ∧ s.comp.contents = [] ∧ s.tx.contents.length = 2048 := by
  have hnil : (started cfg start).comp.Represents ringSize [] := Ring.represents_nil rfl rfl
  have hempty := hnil.contents_eq
  have hinit := inv_init (init_started cfg start)
  obtain ⟨trace, s, hpath, hresults, hpc, hpool, hsame⟩ :=
    exists_iterations hpayload 32 hinit rfl hempty length_txPool
  have hcomp := hsame.comp.trans hempty
  have hinv := inv_path hpayload hinit hpath.of_restrict
  have hpending := hinv.conserved.length_pending (inHand_head hpc) hpool hsame.kernel hcomp
  exact ⟨trace, s, hpath, hresults, hpc, hpool, hsame.kernel, hsame.taken, hcomp, hpending⟩

/-! ## An empty pool -/

/-- With nothing in the pool and nothing completed, an iteration fails in its first attempt,
kicks nobody and leaves rings and pool as they are. -/
theorem exists_failed_iteration (h : Inv cfg trace s)
    (hpc : s.pc = .head) (hcomp : s.comp.contents = []) (hpool : s.pool = []) :
    ∃ trace' t, (alone cfg).Path s trace' t ∧ results trace' = [false] ∧ t.pc = .head ∧
      t.pool = [] ∧ t.tx = s.tx ∧ Untouched s t := by
  obtain ⟨hout, hempty⟩ := h.conserved.comp.dequeueAll
  rw [hcomp] at hout
  have hdequeue := loopStep_head cfg 0 0 hpc
  rw [hout, hpool] at hdequeue
  have hpath := ((((Machine.Path.single (alone_step hdequeue trivial)).snoc
    (alone_step (loopStep_recycle cfg 0 0 rfl) trivial)).snoc
    (alone_step (loopStep_pop_none cfg 0 0 rfl rfl) trivial)).snoc
    (alone_step (loopStep_noKick cfg 0 0 rfl (by decide)) trivial)).snoc
    (alone_step (loopStep_pace cfg 0 0 rfl) trivial)
  refine ⟨_, _, hpath, ?_, rfl, rfl, rfl, ⟨rfl, rfl, ?_⟩⟩
  · simp [results]
  · rw [hcomp]
    exact hempty.contents_eq

/-! ## The kernel catches up -/

/-- The kernel can take everything that is on the TX ring. -/
theorem exists_take_all (hpayload : cfg.payloadLen ≤ 4054) (n : ℕ) (h : Inv cfg trace s)
    (hpending : s.tx.contents.length = n) :
    ∃ trace' t, (machine cfg).Path s trace' t ∧ results trace' = [] ∧
      t.taken = s.taken + n := by
  induction n generalizing s trace with
  | zero => exact ⟨[], s, .nil, rfl, rfl⟩
  | succ n ih =>
      obtain ⟨desc, tx, htake⟩ := h.conserved.tx.exists_kernelTake (by omega)
      have hpath : (machine cfg).Path s [.take (frameOf s.area desc)] _ :=
        .single (Step.take htake)
      obtain ⟨rest, hcons, htx⟩ := h.conserved.tx.kernelTake htake
      obtain ⟨later, t, hlater, hresults, htaken⟩ := ih (inv_path hpayload h hpath) (by
        show tx.contents.length = n
        rw [htx.contents_eq]
        rw [hcons, List.length_cons] at hpending
        omega)
      refine ⟨_, t, hpath.append hlater, ?_, ?_⟩
      · rw [results_append, hresults]
        rfl
      · rw [htaken]
        show s.taken + 1 + n = _
        omega

/-- With all frames on the TX ring, the kernel takes the first one and completes it, and the
next attempt sends it again. -/
theorem exists_revived (hpayload : cfg.payloadLen ≤ 4054) (h : Inv cfg trace s)
    (hpc : s.pc = .head) (hpool : s.pool = []) (hkernel : s.kernel = [])
    (hcomp : s.comp.contents = []) :
    ∃ trace' t, (machine cfg).Path s trace' t ∧ results trace' = [true] ∧
      t.taken = s.taken + 1 ∧ t.tx.contents.length = 2048 := by
  have hpending := h.conserved.length_pending (inHand_head hpc) hpool hkernel hcomp
  obtain ⟨desc, tx, htake⟩ := h.conserved.tx.exists_kernelTake (by omega)
  have htaken : (machine cfg).Path s [.take (frameOf s.area desc)] _ :=
    .single (Step.take htake)
  have hheld : (s.kernel ++ [(s.taken, desc)])[0]? = some (s.taken, desc) := by
    simp [hkernel]
  have hcompleted := htaken.snoc (Step.complete hheld)
  have hinv := inv_path hpayload h hcompleted
  have hback : (s.comp.kernelPost desc.addr).contents = [desc.addr] := by
    have hposted := h.conserved.comp.kernelPost (by rw [hcomp]; decide) desc.addr
    rw [hposted.contents_eq, hcomp]
    rfl
  obtain ⟨hout, hempty⟩ := hinv.conserved.comp.dequeueAll
  have hdone : (s.comp.kernelPost desc.addr).dequeueAll.2 = [desc.addr] := hout.trans hback
  -- The loop goes on and finds the completed frame.
  have hrecycled := (hcompleted.snoc (Step.loop (loopStep_head cfg 0 0 hpc))).snoc
    (Step.loop (loopStep_recycle cfg 0 0 rfl))
  have hinvRecycled := inv_path hpayload h hrecycled
  have hlast : (s.pool ++ (s.comp.kernelPost desc.addr).dequeueAll.2).getLast? =
      some desc.addr := by
    rw [hdone, List.getLast?_append]
    rfl
  obtain ⟨sending, t, hsending, hresult, htpc, htpool, hsame⟩ :=
    exists_attempt hpayload hinvRecycled 63 rfl hlast
  have hpath := hrecycled.append hsending.of_restrict
  refine ⟨_, t, hpath, ?_, hsame.taken, ?_⟩
  · rw [results_append, hresult]
    simp [results]
  · refine (inv_path hpayload h hpath).conserved.length_pending ?_ ?_ ?_ ?_
    · simp [State.inHand, htpc]
    · rw [htpool, hdone, hpool]
      rfl
    · rw [hsame.kernel]
      simp [hkernel]
    · rw [hsame.comp]
      exact hempty.contents_eq

end RunPerf.Xdp.Gen
