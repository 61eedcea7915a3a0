import Mathlib.Data.Bool.Count
import RunPerf.Loss.Conservation
import RunPerf.Xdp.BlastFrames
import RunPerf.Xdp.WireFormat

/-!
# Where the frames of the generator go

A worker of `xdp_udp_blast` uses up a number in every attempt, whether there is a frame for it or
not.  The frames on the wire differ in their payloads only: whatever part of the headers the
receiving NIC looks at to choose a queue, all of them arrive on the same one.  So at most one
`rx_loop` of the sink sees them, none if the queue has no socket, and for a network that keeps
the order within a stream

  `received + drops + unseen = attempts = pkts + failed`

The drops that the sink reports are the frames that were lost or left on the TX rings, and the
attempts that found the pool empty, less what is unseen.
-/

namespace RunPerf.Loss

open RunPerf.Lib RunPerf.Receive RunPerf.Net RunPerf.Xdp RunPerf.Xdp.Blast

/-! ## The workers of the generator -/

section Generator

variable {os : Pinning.Os} {cpu : Simd.Cpu} {cpus : List ℕ} {plan : Plan}
  {trace : List Blast.Event} {s : Blast.State} {arrived : List (ℕ × List UInt8)}

/-- The headers of all frames, as far as they do not depend on the payload. -/
def headersOf (plan : Plan) : List UInt8 := patchHeaders plan.hdr.tpl plan.payloadLen

theorem take_frame (plan : Plan) (w : ℕ) (seq : UInt64) (padding : List UInt8) :
    (plan.frame w seq ++ padding).take outerHdr = headersOf plan := by
  have hlength : (toLeBytes (UInt64.ofNat w) ++
      (toLeBytes seq ++ List.replicate (plan.payloadLen - 16) 0)).length = plan.payloadLen := by
    have hmin := plan.payload_min
    simp only [List.length_append, length_toLeBytes, List.length_replicate]
    omega
  rw [Plan.frame, FrameHeader.frameBytes, hlength, List.append_assoc, headersOf]
  exact List.take_left' (by rw [length_patchHeaders, plan.hdr.tpl_length])

end Generator

/-! ## The sink -/

/-- What the NIC of the sink gets: the frames that arrive, with whatever they are padded with. -/
def delivered (pad : List UInt8 → List UInt8) (arrived : List (ℕ × List UInt8)) :
    List (List UInt8) :=
  arrived.map fun entry => entry.2 ++ pad entry.2

/-- The frames with the queue that the NIC chooses for them by their headers. -/
def onQueues (rss : List UInt8 → UInt32) (frames : List (List UInt8)) :
    List (UInt32 × List UInt8) :=
  frames.map fun frame => (rss (frame.take outerHdr), frame)

section Sink

variable {plan : Plan} {xsks : Xsks XskSocket} {socks : List XskSocket} {count : ℕ}

theorem considersUdp_frame {srcMac dstMac : Vector UInt8 6} {srcIp dstIp : Vector UInt8 4}
    {srcPort dstPort : UInt16} (hhdr : plan.hdr = .new srcMac dstMac srcIp dstIp srcPort dstPort)
    (w : ℕ) (seq : UInt64) (padding : List UInt8) :
    considersUdp (plan.frame w seq ++ padding) := by
  rw [considersUdp_iff, Plan.frame, hhdr]
  exact .inl (isUdpIpv4_frameBytes srcMac dstMac srcIp dstIp srcPort dstPort _ padding)

/-- What an `rx_loop` counts that has read all that was posted to it. -/
theorem counters_of_read {trace : List Sink.Event} {s : Sink.State}
    (hrun : Sink.machine.Run trace s) (hread : s.pending = []) :
    s.counters = Counters.zero.add ((Sink.posted trace).map List.length).sum
      (Sink.posted trace).length
      (gapTotal LastSeq.new ((Sink.posted trace).filterMap (header Sink.hdrs))) := by
  have haccounted := (Sink.inv_run hrun).accounted
  have hposted : Sink.posted trace = Sink.readFrames trace := by
    rw [haccounted.posted, hread, List.map_nil, List.append_nil]
  rw [haccounted.counters, apply_countPackets, hposted]

end Sink

end RunPerf.Loss
