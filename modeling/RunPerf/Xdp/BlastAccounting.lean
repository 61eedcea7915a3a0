import RunPerf.Xdp.Blast

/-!
# What the generator counts

A worker counts a frame when the kick behind its batch has returned, whether the kernel has taken
the frame or not.  So its share of `pkts` with the frames of the batch under way is the number of
descriptors it has put on the TX ring (`Gen.Booked`), and these are the frames that the kernel
took and those still on the ring.  The two `fetch_add`s follow one behind the other, so that the
shared counters lag behind the shares by what the workers are about to add (`Posted`).
-/

namespace RunPerf.Xdp

open RunPerf.Lib

/-! ## The share of a worker -/

namespace Gen

variable {cfg : Config} {trace : List Event} {s t : State} {event : Event}

/-- The share of a worker in the counters. -/
structure Booked (cfg : Config) (trace : List Event) (s : State) : Prop where
  pkts : s.pkts + s.pc.sent = UInt64.ofNat (accepted trace).length
  bytes : s.bytes = s.pkts * cfg.frameTotal

theorem accepted_append (first second : List Event) :
    accepted (first ++ second) = accepted first ++ accepted second :=
  List.filterMap_append

/-- A step that accepts nothing and counts nothing. -/
theorem Booked.quiet (h : Booked cfg trace s) (haccepted : accepted [event] = [])
    (hpkts : t.pkts = s.pkts) (hbytes : t.bytes = s.bytes) (hsent : t.pc.sent = s.pc.sent) :
    Booked cfg (trace ++ [event]) t where
  pkts := by
    rw [hpkts, hsent, accepted_append, haccepted, List.append_nil]
    exact h.pkts
  bytes := by
    rw [hpkts, hbytes]
    exact h.bytes

theorem Booked.produce {desc : XdpDesc} {left : ℕ} {sent : UInt64} (h : Booked cfg trace s)
    (hpc : s.pc = .written desc left sent) :
    Booked cfg (trace ++ [.produce s.payload 1])
      { s with tx := (s.tx.produceTx [desc]).1, pc := .batch left (sent + 1) } where
  pkts := by
    have hpkts : s.pkts + sent = UInt64.ofNat (accepted trace).length := by
      simpa [hpc, Pc.sent] using h.pkts
    rw [accepted_append, List.length_append, UInt64.ofNat_add, ← hpkts, add_assoc]
    rfl
  bytes := h.bytes

theorem Booked.kickReturn {pending : ℕ} {sent : UInt64} (h : Booked cfg trace s)
    (hpc : s.pc = .kicked sent) :
    Booked cfg (trace ++ [.kickReturn pending])
      { s with
          pkts := s.pkts + sent
          bytes := s.bytes + sent * cfg.frameTotal
          pacer := s.pacer.note sent
          pc := .pace true } where
  pkts := by
    have hpkts : s.pkts + sent = UInt64.ofNat (accepted trace).length := by
      simpa [hpc, Pc.sent] using h.pkts
    have hnone : accepted [.kickReturn pending] = [] := rfl
    rw [accepted_append, hnone, List.append_nil]
    exact (add_zero _).trans hpkts
  bytes := by
    rw [h.bytes]
    exact (add_mul _ _ _).symm

end Gen

/-! ## The shared counters -/

namespace Blast

section Worker

variable {pins : Option Bool} {cfg : Gen.Config} {trace : List WorkerEvent} {worker : Worker}

/-- What the worker has counted in its share and is about to add to `pkts`. -/
def Phase.pktsDue : Phase → UInt64
  | .counting sent => sent
  | _ => 0

/-- What it has added to `pkts` and is about to add to `bytes`. -/
def Phase.bytesDue : Phase → UInt64
  | .adding bytes => bytes
  | _ => 0

/-- What the worker has added to the counters, against its share. -/
structure Posted (cfg : Gen.Config) (trace : List WorkerEvent) (worker : Worker) : Prop where
  pkts : (trace.map added).sum.1 + worker.phase.pktsDue = worker.gen.pkts
  bytes : (trace.map added).sum.2 + worker.phase.bytesDue = (trace.map added).sum.1 * cfg.frameTotal

/-- An event that adds nothing. -/
theorem Posted.quiet {event : WorkerEvent} {next : Worker} (h : Posted cfg trace worker)
    (hadded : added event = 0)
    (hpkts : next.phase.pktsDue + worker.gen.pkts = worker.phase.pktsDue + next.gen.pkts)
    (hbytes : next.phase.bytesDue = worker.phase.bytesDue) :
    Posted cfg (trace ++ [event]) next := by
  have hsum : ((trace ++ [event]).map added).sum = (trace.map added).sum := by
    simp [hadded]
  refine ⟨?_, by rw [hsum, hbytes]; exact h.bytes⟩
  rw [hsum]
  apply add_right_cancel (b := worker.phase.pktsDue + worker.gen.pkts)
  calc (trace.map added).sum.1 + next.phase.pktsDue + (worker.phase.pktsDue + worker.gen.pkts)
      = ((trace.map added).sum.1 + worker.phase.pktsDue) +
          (next.phase.pktsDue + worker.gen.pkts) := by abel
    _ = next.gen.pkts + (worker.phase.pktsDue + worker.gen.pkts) := by
        rw [h.pkts, hpkts]
        abel

end Worker

variable {os : Pinning.Os} {cpu : Simd.Cpu} {cpus : List ℕ} {plan : Plan} {trace : List Event}
  {s : State}

/-- The frames that the worker has sent and that are not yet in `pkts`. -/
def Worker.uncounted (worker : Worker) : UInt64 := worker.phase.pktsDue + worker.gen.pc.sent

/-- The length of every frame. -/
def Plan.frameTotal (plan : Plan) : ℕ := outerHdr + plan.payloadLen

/-- One worker with frames of 60 bytes, from 1.1.1.1 to 2.2.2.2. -/
def onePlan : Plan where
  socks := [⟨3, 0⟩]
  hdr := .new (.replicate 6 0) (.replicate 6 1) (.replicate 4 1) (.replicate 4 2) 40000 5201
  payloadLen := 18
  deadline := 10
  ppsPer := 0
  payload_min := by decide

/-- A host that has the CPU 0. -/
def oneCpu : Pinning.Os where
  present cpu := cpu = 0
  getaffinity := none
  setaffinity set := Pinning.cpuIsset 0 set
  refuses := by
    intro set hset
    by_contra hne
    simpa using hset 0 (by simpa using hne)

/-- The configuration of its worker, on a CPU without any extension. -/
def oneConfig : Gen.Config := onePlan.config ⟨true, false, false, false⟩ 0

end Blast

end RunPerf.Xdp
