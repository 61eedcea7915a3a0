import RunPerf.Lib.Machine
import RunPerf.Pacing
import RunPerf.Xdp.Chunks
import RunPerf.Xdp.Frame

/-!
# The AF_XDP generator

`tx_loop` gives the completed frames back to the pool, makes up to 64 attempts to send a
frame (`tx_one`), kicks the kernel if one of them succeeded, and paces itself.  An attempt
stamps the payload with the next sequence number, takes a frame from the end of the pool,
writes the packet into it and puts a descriptor on the TX ring; it fails if the pool is
empty, or if the ring is full, in which case the frame goes back to the pool.  The first
failure ends the batch.

Between any two of these steps the kernel may take the oldest descriptor from the TX ring,
or post the address of a frame that it holds to the completion ring.
-/

namespace RunPerf.Xdp.Gen

open RunPerf.Lib

/-- `TX_BATCH`. -/
def txBatch : ℕ := 64

/-- What is fixed while `tx_loop` runs.  `xdp_udp_blast` raises the length of the payload to
16, so that the header fits. -/
structure Config where
  cpu : Simd.Cpu
  hdr : FrameHeader
  worker : UInt64
  payloadLen : ℕ
  ppsPer : UInt64
  payload_min : 16 ≤ payloadLen

/-- `frame_total`. -/
def Config.frameTotal (cfg : Config) : UInt64 := UInt64.ofNat (outerHdr + cfg.payloadLen)

/-- Where `tx_loop` stands.  `left` counts the attempts that the batch still allows and
`sent` those that succeeded. -/
inductive Pc
  /-- Before the check of the loop. -/
  | head
  /-- The completed addresses are dequeued and not yet back in the pool. -/
  | recycle (done : List UInt64)
  /-- In the batch, before the next attempt; with none left, behind the batch. -/
  | batch (left : ℕ) (sent : UInt64)
  /-- `tx_one` has popped a frame. -/
  | holding (addr : UInt64) (left : ℕ) (sent : UInt64)
  /-- `tx_one` has written the frame. -/
  | written (desc : XdpDesc) (left : ℕ) (sent : UInt64)
  /-- `tx_one` found the ring full. -/
  | giveBack (addr : UInt64) (sent : UInt64)
  /-- In the `sendto` of `kick`. -/
  | kicked (sent : UInt64)
  /-- Before the pacing. -/
  | pace (kicked : Bool)
  | stopped
  | panicked

/-- `TxState` with the locals of `tx_loop` and the shared counters, and the descriptors that
the kernel holds, each with its position among all it has taken. -/
structure State where
  tx : DescRing
  comp : AddrRing
  pool : List UInt64
  area : ℕ → UInt8
  payload : List UInt8
  seq : UInt64
  pkts : UInt64
  bytes : UInt64
  pacer : Pacer
  pc : Pc
  kernel : List (ℕ × XdpDesc)
  taken : ℕ

inductive Event
  /-- The loop goes on; `found` frames are at hand for the batch. -/
  | dequeue (found pending : ℕ)
  | extend
  /-- An attempt begins: `pool.pop()`. -/
  | pop (addr : Option UInt64)
  | write
  | panic
  /-- `produce_tx` for the frame of this payload, with its result. -/
  | produce (payload : List UInt8) (n : ℕ)
  | giveBack
  | kick
  | noKick
  | kickReturn (pending : ℕ)
  /-- The iteration is over. -/
  | next (kicked : Bool) (pending : ℕ)
  | stop
  /-- The kernel takes a descriptor and finds this frame. -/
  | take (frame : List UInt8)
  | complete (addr : UInt64)

/-- The next step of `tx_loop`, which goes on at the check of the loop.  The clock readings
only matter to the pacing. -/
def loopStep (cfg : Config) (read late : ℕ) (s : State) : Option (Event × State) :=
  match s.pc with
  | .head =>
      let dequeued := s.comp.dequeueAll
      some (.dequeue (s.pool.length + dequeued.2.length) s.tx.occupancy,
        { s with comp := dequeued.1, pc := .recycle dequeued.2 })
  | .recycle done => some (.extend, { s with pool := s.pool ++ done, pc := .batch txBatch 0 })
  | .batch (left + 1) sent =>
      -- The number is used up before it is known whether there is a frame.
      let stamped := { s with payload := copyAt 8 (toLeBytes s.seq) s.payload, seq := s.seq + 1 }
      match s.pool.getLast? with
      | none => some (.pop none, { stamped with pc := .batch 0 sent })
      | some addr =>
          some (.pop (some addr),
            { stamped with pool := s.pool.dropLast, pc := .holding addr left sent })
  | .holding addr left sent =>
      match cfg.hdr.writeFrame cfg.cpu (readBytes s.area addr.toNat frameSize.toNat) s.payload with
      | none => some (.panic, { s with pc := .panicked })
      | some (buf, len) =>
          some (.write,
            { s with
                area := writeBytes s.area addr.toNat buf
                pc := .written ⟨addr, UInt32.ofNat len, 0⟩ left sent })
  | .written desc left sent =>
      let produced := s.tx.produceTx [desc]
      some (.produce s.payload produced.2,
        { s with
            tx := produced.1
            pc := if produced.2 = 0 then .giveBack desc.addr sent else .batch left (sent + 1) })
  | .giveBack addr sent =>
      some (.giveBack, { s with pool := s.pool ++ [addr], pc := .batch 0 sent })
  | .batch 0 sent =>
      if sent > 0 then some (.kick, { s with pc := .kicked sent })
      else some (.noKick, { s with pc := .pace false })
  | .kicked sent =>
      some (.kickReturn s.tx.occupancy,
        { s with
            pkts := s.pkts + sent
            bytes := s.bytes + sent * cfg.frameTotal
            pacer := s.pacer.note sent
            pc := .pace true })
  | .pace kicked =>
      some (.next kicked s.tx.occupancy,
        { s with pacer := s.pacer.pace cfg.ppsPer read late, pc := .head })
  | .stopped => none
  | .panicked => none

section LoopStep

variable (cfg : Config) (read late : ℕ) {s : State}

theorem loopStep_head (hpc : s.pc = .head) :
    loopStep cfg read late s =
      some (.dequeue (s.pool.length + s.comp.dequeueAll.2.length) s.tx.occupancy,
        { s with comp := s.comp.dequeueAll.1, pc := .recycle s.comp.dequeueAll.2 }) := by
  simp only [loopStep, hpc]

theorem loopStep_recycle {done : List UInt64} (hpc : s.pc = .recycle done) :
    loopStep cfg read late s =
      some (.extend, { s with pool := s.pool ++ done, pc := .batch txBatch 0 }) := by
  simp only [loopStep, hpc]

theorem loopStep_pop_none {left : ℕ} {sent : UInt64} (hpc : s.pc = .batch (left + 1) sent)
    (hpool : s.pool.getLast? = none) :
    loopStep cfg read late s =
      some (.pop none,
        { s with
            payload := copyAt 8 (toLeBytes s.seq) s.payload
            seq := s.seq + 1
            pc := .batch 0 sent }) := by
  simp only [loopStep, hpc, hpool]

theorem loopStep_pop_some {left : ℕ} {sent addr : UInt64} (hpc : s.pc = .batch (left + 1) sent)
    (hpool : s.pool.getLast? = some addr) :
    loopStep cfg read late s =
      some (.pop (some addr),
        { s with
            payload := copyAt 8 (toLeBytes s.seq) s.payload
            seq := s.seq + 1
            pool := s.pool.dropLast
            pc := .holding addr left sent }) := by
  simp only [loopStep, hpc, hpool]

theorem loopStep_write {left len : ℕ} {sent addr : UInt64} {buf : List UInt8}
    (hpc : s.pc = .holding addr left sent)
    (hwrite : cfg.hdr.writeFrame cfg.cpu (readBytes s.area addr.toNat frameSize.toNat) s.payload =
      some (buf, len)) :
    loopStep cfg read late s =
      some (.write,
        { s with
            area := writeBytes s.area addr.toNat buf
            pc := .written ⟨addr, UInt32.ofNat len, 0⟩ left sent }) := by
  simp only [loopStep, hpc, hwrite]

theorem loopStep_panic {left : ℕ} {sent addr : UInt64} (hpc : s.pc = .holding addr left sent)
    (hwrite : cfg.hdr.writeFrame cfg.cpu (readBytes s.area addr.toNat frameSize.toNat) s.payload =
      none) :
    loopStep cfg read late s = some (.panic, { s with pc := .panicked }) := by
  simp only [loopStep, hpc, hwrite]

theorem loopStep_produce {desc : XdpDesc} {left n : ℕ} {sent : UInt64}
    (hpc : s.pc = .written desc left sent) (hproduce : (s.tx.produceTx [desc]).2 = n + 1) :
    loopStep cfg read late s =
      some (.produce s.payload (n + 1),
        { s with tx := (s.tx.produceTx [desc]).1, pc := .batch left (sent + 1) }) := by
  simp only [loopStep, hpc, hproduce, Nat.add_one_ne_zero, if_false]

theorem loopStep_kick {sent : UInt64} (hpc : s.pc = .batch 0 sent) (hsent : sent > 0) :
    loopStep cfg read late s = some (.kick, { s with pc := .kicked sent }) := by
  simp only [loopStep, hpc, if_pos hsent]

theorem loopStep_noKick {sent : UInt64} (hpc : s.pc = .batch 0 sent) (hsent : ¬ sent > 0) :
    loopStep cfg read late s = some (.noKick, { s with pc := .pace false }) := by
  simp only [loopStep, hpc, if_neg hsent]

theorem loopStep_kicked {sent : UInt64} (hpc : s.pc = .kicked sent) :
    loopStep cfg read late s =
      some (.kickReturn s.tx.occupancy,
        { s with
            pkts := s.pkts + sent
            bytes := s.bytes + sent * cfg.frameTotal
            pacer := s.pacer.note sent
            pc := .pace true }) := by
  simp only [loopStep, hpc]

theorem loopStep_pace {kicked : Bool} (hpc : s.pc = .pace kicked) :
    loopStep cfg read late s =
      some (.next kicked s.tx.occupancy,
        { s with pacer := s.pacer.pace cfg.ppsPer read late, pc := .head }) := by
  simp only [loopStep, hpc]

end LoopStep

inductive Step (cfg : Config) (s : State) : Event → State → Prop
  | loop {read late : ℕ} {event : Event} {t : State}
      (hstep : loopStep cfg read late s = some (event, t)) : Step cfg s event t
  | stop (hpc : s.pc = .head) : Step cfg s .stop { s with pc := .stopped }
  | take {desc : XdpDesc} {tx : DescRing} (htake : s.tx.kernelTake = some (desc, tx)) :
      Step cfg s (.take (frameOf s.area desc))
        { s with tx := tx, kernel := s.kernel ++ [(s.taken, desc)], taken := s.taken + 1 }
  | complete {i ticket : ℕ} {desc : XdpDesc} (hheld : s.kernel[i]? = some (ticket, desc)) :
      Step cfg s (.complete desc.addr)
        { s with kernel := s.kernel.eraseIdx i, comp := s.comp.kernelPost desc.addr }

/-- The payload of the attempt with number `seq`. -/
def Config.payloadOf (cfg : Config) (seq : UInt64) : List UInt8 :=
  toLeBytes cfg.worker ++ (toLeBytes seq ++ List.replicate (cfg.payloadLen - 16) 0)

/-- The generator as `Umem::new` and `xdp_udp_blast` leave it: all frames in the pool, the
rings empty, at any index. -/
def machine (cfg : Config) : Machine State Event where
  Init s := s.tx.size = ringSize ∧ s.tx.producer = s.tx.consumer ∧
    s.comp.size = ringSize ∧ s.comp.producer = s.comp.consumer ∧
    s.pool = txPool ∧
    s.payload = copyAt 0 (toLeBytes cfg.worker) (List.replicate cfg.payloadLen 0) ∧
    s.seq = 0 ∧ s.pkts = 0 ∧ s.bytes = 0 ∧ s.pacer.sentSec = 0 ∧ s.pc = .head ∧
    s.kernel = [] ∧ s.taken = 0
  Step := Step cfg

/-! ## What a trace says -/

/-- The payloads that were put on the TX ring, in order. -/
def accepted (trace : List Event) : List (List UInt8) :=
  trace.filterMap fun
    | .produce payload n => if n = 0 then none else some payload
    | _ => none

/-- The results of the attempts that are over, in order. -/
def results (trace : List Event) : List Bool :=
  trace.filterMap fun
    | .pop none => some false
    | .produce _ n => some (n ≠ 0)
    | _ => none

/-- The frames that the kernel took, in order, as it found them. -/
def takenFrames (trace : List Event) : List (List UInt8) :=
  trace.filterMap fun
    | .take frame => some frame
    | _ => none

/-- The numbers of the attempts that succeeded. -/
def successes (base : ℕ) : List Bool → List ℕ
  | [] => []
  | true :: rest => base :: successes (base + 1) rest
  | false :: rest => successes (base + 1) rest

theorem successes_append (base : ℕ) (first second : List Bool) :
    successes base (first ++ second) =
      successes base first ++ successes (base + first.length) second := by
  induction first generalizing base with
  | nil => rfl
  | cons result rest ih =>
      cases result
      · simp only [List.cons_append, successes, List.length_cons, ih]
        congr 2
        omega
      · simp only [List.cons_append, successes, List.length_cons, ih]
        congr 3
        omega

/-! ## Where the frames are -/

/-- The frames between two places: those to be recycled, or the one `tx_one` holds. -/
def State.inHand (s : State) : List UInt64 :=
  match s.pc with
  | .recycle done => done
  | .holding addr _ _ => [addr]
  | .written desc _ _ => [desc.addr]
  | .giveBack addr _ => [addr]
  | _ => []

/-- The frames in the pool, in hand, on the TX ring, with the kernel and on the completion
ring. -/
def State.places (s : State) : List UInt64 :=
  s.pool ++ s.inHand ++ s.tx.contents.map XdpDesc.addr ++
    s.kernel.map (fun held => held.2.addr) ++ s.comp.contents

/-- An attempt has begun and its result is open. -/
def State.InAttempt (s : State) : Prop :=
  match s.pc with
  | .holding _ _ _ => True
  | .written _ _ _ => True
  | _ => False

end RunPerf.Xdp.Gen
