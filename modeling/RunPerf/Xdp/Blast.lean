import Mathlib.Data.UInt
import RunPerf.Lib.Parallel
import RunPerf.Options
import RunPerf.Xdp.Arp
import RunPerf.Xdp.GenAttempt
import RunPerf.Xdp.GenTimed
import RunPerf.Xdp.SinkSetup

/-!
# The generator as a whole

`xdp_udp_blast` finds out its own addresses and the hardware address of the destination, opens
one socket for each worker, and starts a thread for each socket.  A thread pins itself to its CPU
(and dies if that panics), then runs `tx_loop`.  All threads count in `pkts` and `bytes`, one
after the other, behind each kick.

The machine of one worker is that of `RunPerf.Xdp.Gen` with the two `fetch_add`s as steps of
their own; the fields `pkts` and `bytes` of its state are its share.  All workers run side by
side, with the kernel at each of their rings.
-/

namespace RunPerf.Xdp.Blast

open RunPerf.Lib

/-! ## Set-up -/

/-- An entry of `getifaddrs`: the name, unless it is not UTF-8, and the bytes of the IPv4
address, unless the entry has none. -/
structure IfEntry where
  name : Option String
  inet : Option (Vector UInt8 4)

/-- `local_ipv4`, where `ifaddrs` is what `getifaddrs` gives. -/
def localIpv4 (iface : String) (ifaddrs : Option (List IfEntry)) : Option (Vector UInt8 4) :=
  ifaddrs.bind fun entries => entries.findSome? fun entry =>
    entry.inet.bind fun ip => if entry.name.getD "" = iface then some ip else none

/-- What the generator finds on the host, beside what the sink finds: the addresses of the
interfaces, the `address` file of an interface, the texts of the ARP table, the CPU and the
seconds on the clock. -/
structure Host extends Xdp.Host where
  ifaddrs : Option (List IfEntry)
  address : String → Option (List Char)
  arp : ℕ → Option (List Char)
  cpu : Simd.Cpu
  now : ℕ

/-- The arguments of `xdp_udp_blast`. -/
structure Args where
  iface : String
  dst : Vector UInt8 4 × UInt16
  payloadLen : UInt64
  duration : UInt64
  targetPps : UInt64
  cpus : List ℕ

/-- Why no worker is started. -/
inductive Stop
  | error (text : String)
  | crash (crash : Options.Crash)

/-- What the workers start from. -/
structure Plan where
  socks : List XskSocket
  hdr : FrameHeader
  payloadLen : ℕ
  deadline : ℕ
  ppsPer : UInt64
  payload_min : 16 ≤ payloadLen

/-- `ok_or`. -/
def okOr {α : Type} (text : String) : Option α → Except Stop α
  | some a => .ok a
  | none => .error (.error text)

/-- Zero-copy mode is tried only with a program attached. -/
def openBlast (host : Xdp.Host) (ifindex : UInt32) (tryZc : Bool) (queueId : UInt32) :
    Except String XskSocket :=
  if tryZc then Sink.openSocket host ifindex queueId
  else Sink.createXskSocket host ifindex queueId false

/-- `xdp_udp_blast` up to the start of the threads; `feature` says whether the program was built
with `xdp`. -/
def setup (host : Host) (feature : Bool) (args : Args) : Except Stop Plan := do
  let ifidx ← okOr ("iface " ++ args.iface ++ " not found") (host.ifaceIndex args.iface)
  let srcIp ← okOr "no IPv4 on iface" (localIpv4 args.iface host.ifaddrs)
  let srcMac ← okOr "no MAC on iface" (Arp.localMac (host.address args.iface))
  let dstMac ← okOr "cannot resolve dst MAC via ARP" (Arp.resolveServerMac args.dst.1 host.arp)
  let workers := Sink.workers args.cpus (host.rxQueueCount args.iface)
  let tryZc := feature && (host.load args.iface).isOk
  let socks ← ((List.range workers.toNat).mapM fun q =>
    openBlast host.toHost ifidx tryZc (UInt32.ofNat q)).mapError .error
  let deadline ← (Options.addSecs host.now args.duration).mapError .crash
  let ppsPer ← (Options.ppsPerThread args.targetPps (UInt64.ofNat workers.toNat)).mapError .crash
  return {
    socks := socks
    hdr := .new srcMac dstMac srcIp args.dst.1 40000 args.dst.2
    payloadLen := max args.payloadLen.toNat 16
    deadline := deadline
    ppsPer := ppsPer
    payload_min := le_max_right _ _ }

/-- What the thread of worker `w` runs `tx_loop` with. -/
def Plan.config (plan : Plan) (cpu : Simd.Cpu) (w : ℕ) : Gen.Config where
  cpu := cpu
  hdr := plan.hdr
  worker := UInt64.ofNat w
  payloadLen := plan.payloadLen
  ppsPer := plan.ppsPer
  payload_min := plan.payload_min

/-! ## The workers -/

/-- Where the thread of a worker stands, outside `tx_loop` and at its counters. -/
inductive Phase
  /-- Before `pin_to_cpu`. -/
  | starting
  | looping
  /-- `kick` has returned. -/
  | counting (sent : UInt64)
  /-- `pkts` is counted. -/
  | adding (bytes : UInt64)
  /-- `pin_to_cpu` has panicked. -/
  | dead
deriving DecidableEq

structure Worker where
  gen : Gen.State
  phase : Phase

inductive WorkerEvent
  | pin (pinned : Bool)
  | pinPanic
  | gen (event : Gen.Event)
  /-- `pkts.fetch_add`. -/
  | addPkts (sent : UInt64)
  /-- `bytes.fetch_add`. -/
  | addBytes (bytes : UInt64)

def Worker.after (worker : Worker) : Gen.Event → Phase
  | .kickReturn _ => .counting worker.gen.pc.sent
  | _ => worker.phase

/-- The steps of a worker with the kernel, which waits for nobody; `pins` is what `pin_to_cpu`
does. -/
inductive WorkerStep (pins : Option Bool) (cfg : Gen.Config) (worker : Worker) :
    WorkerEvent → Worker → Prop
  | pin {pinned : Bool} (hphase : worker.phase = .starting) (hpin : pins = some pinned) :
      WorkerStep pins cfg worker (.pin pinned) { worker with phase := .looping }
  | pinPanic (hphase : worker.phase = .starting) (hpin : pins = none) :
      WorkerStep pins cfg worker .pinPanic { worker with phase := .dead }
  | gen {event : Gen.Event} {t : Gen.State} (hturn : worker.phase = .looping ∨ event.Kernel)
      (hstep : Gen.Step cfg worker.gen event t) :
      WorkerStep pins cfg worker (.gen event) ⟨t, worker.after event⟩
  | addPkts {sent : UInt64} (hphase : worker.phase = .counting sent) :
      WorkerStep pins cfg worker (.addPkts sent)
        { worker with phase := .adding (sent * cfg.frameTotal) }
  | addBytes {bytes : UInt64} (hphase : worker.phase = .adding bytes) :
      WorkerStep pins cfg worker (.addBytes bytes) { worker with phase := .looping }

def workerMachine (pins : Option Bool) (cfg : Gen.Config) : Machine Worker WorkerEvent where
  Init worker := (Gen.machine cfg).Init worker.gen ∧ worker.phase = .starting
  Step := WorkerStep pins cfg

/-- What an event adds to `pkts` and to `bytes`. -/
def added : WorkerEvent → UInt64 × UInt64
  | .addPkts sent => (sent, 0)
  | .addBytes bytes => (0, bytes)
  | _ => 0

abbrev State := Machine.Joint ℕ Worker (UInt64 × UInt64)

abbrev Event := ℕ × WorkerEvent

/-- The threads of `xdp_udp_blast`, one for each socket. -/
def machine (os : Pinning.Os) (cpu : Simd.Cpu) (cpus : List ℕ) (plan : Plan) :
    Machine State Event :=
  .parallel (fun w => workerMachine (Pinning.pinWorker os cpus w) (plan.config cpu w))
    (Finset.range plan.socks.length) added

/-- The counter `pkts`. -/
def pkts (s : State) : UInt64 := s.shared.1

/-- The counter `bytes`. -/
def bytes (s : State) : UInt64 := s.shared.2

/-- The thread has come to its end, so that `join` returns. -/
def Worker.Ended (worker : Worker) : Prop :=
  worker.phase = .dead ∨
    worker.phase = .looping ∧ (worker.gen.pc = .stopped ∨ worker.gen.pc = .panicked)

/-! ## One worker -/

section Worker

variable {pins : Option Bool} {cfg : Gen.Config} {trace : List WorkerEvent} {worker : Worker}

end Worker

end RunPerf.Xdp.Blast
