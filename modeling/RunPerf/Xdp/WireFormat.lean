import RunPerf.Xdp.Filter
import RunPerf.Xdp.GenFrames
import RunPerf.Xdp.Sink
import RunPerf.Xdp.Template

/-!
# Generator, filter and sink agree on the wire format

The layout of a frame is written down three times: in the offsets of the template, in the
header structs and bounds checks of the XDP program, and in the constant 42 of the sink.
This file shows that the three agree.  A frame of the generator is UDP over IPv4 without
options for the program, and the sink reads the stamped payload behind its headers.  Both
look at bytes of the frame only, so padding behind the frame does not matter.
-/

namespace RunPerf.Xdp

open RunPerf.Lib RunPerf.Receive

/-- A payload as `tx_loop` stamps it: the index of the worker, then the number. -/
def stampPayload (worker seq : UInt64) (payload : List UInt8) : List UInt8 :=
  copyAt 8 (toLeBytes seq) (copyAt 0 (toLeBytes worker) payload)

theorem stampPayload_eq (worker seq : UInt64) (payload : List UInt8) :
    stampPayload worker seq payload =
      toLeBytes worker ++ (toLeBytes seq ++ payload.drop 16) := by
  have h := copyAt_copyAt_zero (toLeBytes worker) (toLeBytes seq) payload
  rwa [length_toLeBytes, length_toLeBytes] at h

theorem length_stampPayload (worker seq : UInt64) {payload : List UInt8}
    (hmin : 16 ≤ payload.length) : (stampPayload worker seq payload).length = payload.length := by
  rw [stampPayload_eq]
  simp only [List.length_append, length_toLeBytes, List.length_drop]
  omega

/-- The payloads of a run are stamped. -/
theorem Gen.Config.payloadOf_eq_stampPayload (cfg : Gen.Config) (seq : UInt64) :
    cfg.payloadOf seq =
      stampPayload cfg.worker seq (List.replicate cfg.payloadLen 0) := by
  rw [stampPayload_eq, List.drop_replicate, Gen.Config.payloadOf]

section Frames

variable (srcMac dstMac : Vector UInt8 6) (srcIp dstIp : Vector UInt8 4)
  (srcPort dstPort : UInt16)

/-- For the XDP program, whatever follows the frame, it is UDP over IPv4. -/
theorem isUdpIpv4_frameBytes (dns padding : List UInt8) :
    IsUdpIpv4 ((FrameHeader.new srcMac dstMac srcIp dstIp srcPort dstPort).frameBytes dns ++
      padding) := by
  obtain ⟨hhigh, hlow, hihl, hprotocol⟩ :=
    FrameHeader.new_fields srcMac dstMac srcIp dstIp srcPort dstPort
  refine ⟨?_, ?_, ?_, ?_⟩
  · rw [beAt, FrameHeader.getD_frameBytes _ _ _ (by decide) (by decide),
      FrameHeader.getD_frameBytes _ _ _ (by decide) (by decide), hhigh, hlow]
    rfl
  · rw [FrameHeader.getD_frameBytes _ _ _ (by decide) (by decide), hihl]
    rfl
  · rw [FrameHeader.getD_frameBytes _ _ _ (by decide) (by decide), hprotocol]
  · rw [List.length_append, FrameHeader.length_frameBytes]
    have houter : outerHdr = 42 := rfl
    omega

/-- For the sink, whatever follows the frame, it carries the stamps. -/
theorem header_frameBytes (hdr : FrameHeader) (worker seq : UInt64)
    (payload padding : List UInt8) :
    header Sink.hdrs (hdr.frameBytes (stampPayload worker seq payload) ++ padding) =
      some (worker, seq) := by
  have hhead : (patchHeaders hdr.tpl (stampPayload worker seq payload).length).length =
      Sink.hdrs := by
    rw [length_patchHeaders, hdr.tpl_length]
    rfl
  have hframe : hdr.frameBytes (stampPayload worker seq payload) ++ padding =
      patchHeaders hdr.tpl (stampPayload worker seq payload).length ++
        (toLeBytes worker ++ (toLeBytes seq ++ (payload.drop 16 ++ padding))) := by
    rw [FrameHeader.frameBytes, stampPayload_eq]
    simp only [List.append_assoc]
  rw [hframe, header_stamped _ hhead]

/-- What `rx_loop` does with a frame that carries a stream id and a number. -/
theorem Sink.lastSeq_loopStep {s : Sink.State} {desc : XdpDesc} {todo : List XdpDesc}
    {recycle : List UInt64} {sid seq : UInt64} (hpc : s.pc = .batch (desc :: todo) recycle)
    (hheader : header hdrs (frameOf s.area desc) = some (sid, seq)) :
    (Sink.loopStep s).2.lastSeq = Function.update s.lastSeq sid (some seq) := by
  have hstep : (Sink.loopStep s).2.lastSeq =
      (countPacket hdrs s.lastSeq (frameOf s.area desc) (frameOf s.area desc).length).1 := by
    simp only [Sink.loopStep, hpc]
  rw [hstep, countPacket_fst, hheader]

/-- **Generator, XDP program and sink agree on the wire format.**  For all addresses and
ports, every worker, number and payload of 16 to 4054 bytes, `write_frame` builds a frame in
the 4096 bytes of a chunk that, with any padding behind it, the program redirects on every
queue with a socket, and from which `rx_loop` notes exactly that number for that worker. -/
theorem frame_redirected_and_decoded (Socket : Type*) (cpu : Simd.Cpu) (worker seq : UInt64)
    (payload out : List UInt8) (hmin : 16 ≤ payload.length) (hmax : payload.length ≤ 4054)
    (hout : out.length = frameSize.toNat) :
    ∃ buf len, (FrameHeader.new srcMac dstMac srcIp dstIp srcPort dstPort).writeFrame cpu out
        (stampPayload worker seq payload) = some (buf, len) ∧
      ∀ padding : List UInt8,
        (∀ (xsks : Xsks Socket) (queue : UInt32) (sock : Socket), xsks.lookup queue = some sock →
          dnsXdpClient xsks (buf.take len ++ padding) queue = .redirect sock) ∧
        header Sink.hdrs (buf.take len ++ padding) = some (worker, seq) ∧
        ∀ (s : Sink.State) (desc : XdpDesc) (todo : List XdpDesc) (recycle : List UInt64),
          s.pc = .batch (desc :: todo) recycle →
          frameOf s.area desc = buf.take len ++ padding →
          (Sink.loopStep s).2.lastSeq = Function.update s.lastSeq worker (some seq) := by
  let hdr := FrameHeader.new srcMac dstMac srcIp dstIp srcPort dstPort
  let dns := stampPayload worker seq payload
  have hdns : dns.length = payload.length := length_stampPayload worker seq hmin
  have hfit : outerHdr + dns.length ≤ out.length := by
    have hframe : frameSize.toNat = 4096 := rfl
    have houter : outerHdr = 42 := rfl
    omega
  refine ⟨_, _, hdr.writeFrame_eq cpu hfit, fun padding => ?_⟩
  have hframe : (hdr.frameBytes dns ++ out.drop (outerHdr + dns.length)).take
      (outerHdr + dns.length) = hdr.frameBytes dns :=
    List.take_left' (hdr.length_frameBytes dns)
  have hheader : header Sink.hdrs (hdr.frameBytes dns ++ padding) = some (worker, seq) :=
    header_frameBytes hdr worker seq payload padding
  rw [hframe]
  refine ⟨?_, hheader, ?_⟩
  · intro xsks queue sock hsock
    rw [redirect_iff]
    exact ⟨.inl (isUdpIpv4_frameBytes srcMac dstMac srcIp dstIp srcPort dstPort dns padding), hsock⟩
  · intro s desc todo recycle hpc hread
    rw [← hread] at hheader
    exact Sink.lastSeq_loopStep hpc hheader

/-- The frames that the kernel takes in a run of the generator are such frames: each is
redirected, and decoded as a number of its worker. -/
theorem taken_redirected_and_decoded {Socket : Type*} {cfg : Gen.Config} {trace : List Gen.Event}
    {s : Gen.State} (hhdr : cfg.hdr = FrameHeader.new srcMac dstMac srcIp dstIp srcPort dstPort)
    (hpayload : cfg.payloadLen ≤ 4054) (hrun : (Gen.machine cfg).Run trace s)
    {frame : List UInt8} (hmem : frame ∈ Gen.takenFrames trace) (padding : List UInt8)
    {xsks : Xsks Socket} {queue : UInt32} {sock : Socket} (hsock : xsks.lookup queue = some sock) :
    dnsXdpClient xsks (frame ++ padding) queue = .redirect sock ∧
      ∃ seq, header Sink.hdrs (frame ++ padding) = some (cfg.worker, seq) := by
  have h := Gen.inv_run hpayload hrun
  rw [h.taken_eq_take, h.stamped.accepted] at hmem
  obtain ⟨payload, hpayload, rfl⟩ := List.mem_map.mp (List.mem_of_mem_take hmem)
  obtain ⟨number, -, rfl⟩ := List.mem_map.mp hpayload
  rw [cfg.payloadOf_eq_stampPayload, hhdr]
  constructor
  · rw [redirect_iff]
    exact ⟨.inl (isUdpIpv4_frameBytes srcMac dstMac srcIp dstIp srcPort dstPort _ padding), hsock⟩
  · exact ⟨_, header_frameBytes _ _ _ _ padding⟩

end Frames

/-- The shortest payload in a buffer of ones, from worker 3, padded with two bytes, on queue 0
whose socket is 9. -/
theorem frame_redirected_and_decoded_shortest :
    ∃ buf len, (FrameHeader.new (Vector.replicate 6 1) (Vector.replicate 6 2)
        (Vector.replicate 4 10) (Vector.replicate 4 11) 40000 5201).writeFrame
          ⟨true, false, false, false⟩ (List.replicate 4096 1)
          (stampPayload 3 7 (List.replicate 16 0)) = some (buf, len) ∧
      dnsXdpClient ⟨fun _ => some 9⟩ (buf.take len ++ [0, 0]) 0 = .redirect 9 ∧
      header Sink.hdrs (buf.take len ++ [0, 0]) = some (3, 7) := by
  obtain ⟨buf, len, hwrite, hframe⟩ := frame_redirected_and_decoded (Vector.replicate 6 1)
    (Vector.replicate 6 2) (Vector.replicate 4 10) (Vector.replicate 4 11) 40000 5201 ℕ
    ⟨true, false, false, false⟩ 3 7 (List.replicate 16 0) (List.replicate 4096 1) (by simp)
    (by simp) (by rw [List.length_replicate]; rfl)
  obtain ⟨hredirect, hheader, -⟩ := hframe [0, 0]
  exact ⟨buf, len, hwrite, hredirect _ 0 9 rfl, hheader⟩

end RunPerf.Xdp
