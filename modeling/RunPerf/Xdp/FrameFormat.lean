import RunPerf.Xdp.Checksum

/-!
# The frames that `write_frame` builds

A receiver decodes from a frame exactly what `FrameHeader::new` was given and the lengths of the
payload, and the checksum of the IP header verifies.  Most fields are those of the template,
which the patches leave alone; the lengths are below `2 ^ 16` as long as the payload has at most
65507 bytes; and the checksum is computed while its own two bytes are still zero.
-/

namespace RunPerf.Xdp

open RunPerf.Lib

/-! ## Slices of a buffer that is patched -/

/-- The `len` bytes from `off` on. -/
def slice (off len : ℕ) (buf : List UInt8) : List UInt8 := (buf.drop off).take len

theorem slice_append {off len : ℕ} {head : List UInt8} (h : off + len ≤ head.length)
    (rest : List UInt8) : slice off len (head ++ rest) = slice off len head := by
  unfold slice
  rw [List.drop_append_of_le_length (by omega), List.take_append_of_le_length]
  rw [List.length_drop]
  omega

/-- A word within the slice. -/
theorem slice_setBe_inside {off len i : ℕ} (hi : off ≤ i) (out : List UInt8) (word : UInt16) :
    slice off len (setBe out i word) = setBe (slice off len out) (i - off) word := by
  have hfirst : ¬ i < off := by omega
  have hsecond : ¬ i + 1 < off := by omega
  have hnext : i + 1 - off = i - off + 1 := by omega
  unfold slice setBe
  rw [List.drop_set, if_neg hsecond, List.drop_set, if_neg hfirst, List.take_set, List.take_set,
    hnext]

/-- A word behind the slice. -/
theorem slice_setBe_behind {off len i : ℕ} (hi : off + len ≤ i) (out : List UInt8)
    (word : UInt16) : slice off len (setBe out i word) = slice off len out := by
  rw [slice_setBe_inside (by omega)]
  have hlength : (slice off len out).length ≤ i - off := by
    unfold slice
    rw [List.length_take]
    omega
  unfold setBe
  rw [List.set_eq_of_length_le (by rw [List.length_set]; omega), List.set_eq_of_length_le hlength]

theorem slice_eq_of_getD {off len : ℕ} {first second : List UInt8}
    (hlength : first.length = second.length)
    (h : ∀ i, off ≤ i → i < off + len → first.getD i 0 = second.getD i 0) :
    slice off len first = slice off len second := by
  apply List.ext_getElem
  · simp [slice, hlength]
  · intro i hfirst hsecond
    have hbound : off + i < first.length ∧ i < len := by
      simp only [slice, List.length_take, List.length_drop] at hfirst
      omega
    have hbyte := h (off + i) (by omega) (by omega)
    rw [List.getD_eq_getElem _ _ hbound.1, List.getD_eq_getElem _ _ (by omega)] at hbyte
    simpa [slice] using hbyte

/-! ## The fields -/

/-- What the first 42 bytes of a frame say, for a payload of `n` bytes. -/
structure Decodes (srcMac dstMac : Vector UInt8 6) (srcIp dstIp : Vector UInt8 4)
    (srcPort dstPort : UInt16) (n : ℕ) (frame : List UInt8) : Prop where
  dstMac : slice 0 6 frame = dstMac.toList
  srcMac : slice 6 6 frame = srcMac.toList
  etherType : beAt frame 12 = 0x0800
  version : frame.getD 14 0 >>> 4 = 4
  ihl : frame.getD 14 0 &&& 0xF = 5
  totalLength : beAt frame 16 = 28 + n
  protocol : frame.getD 23 0 = 17
  srcIp : slice 26 4 frame = srcIp.toList
  dstIp : slice 30 4 frame = dstIp.toList
  srcPort : beAt frame 34 = srcPort.toNat
  dstPort : beAt frame 36 = dstPort.toNat
  udpLength : beAt frame 38 = 8 + n
  udpChecksum : beAt frame 40 = 0
  /-- The check over the IP header. -/
  verifies : ipv4Checksum (slice 14 20 frame) = 0

section Frame

variable (hdr : FrameHeader) (dns rest : List UInt8)

theorem FrameHeader.slice_frameBytes {off len : ℕ}
    (hunpatched : ∀ i, off ≤ i → i < off + len → i ∉ [16, 17, 24, 25, 38, 39])
    (hlt : off + len ≤ outerHdr) :
    slice off len (hdr.frameBytes dns ++ rest) = slice off len hdr.tpl := by
  have hhead : (patchHeaders hdr.tpl dns.length).length = outerHdr := by
    rw [length_patchHeaders, hdr.tpl_length]
  rw [FrameHeader.frameBytes, List.append_assoc, slice_append (by rwa [hhead])]
  apply slice_eq_of_getD (length_patchHeaders _ _)
  intro i hoff hi
  exact getD_patchHeaders_of_unpatched _ _ (hunpatched i hoff hi)

theorem FrameHeader.beAt_frameBytes_of_unpatched {i : ℕ} (hi : i ∉ [16, 17, 24, 25, 38, 39])
    (hnext : i + 1 ∉ [16, 17, 24, 25, 38, 39]) (hlt : i + 1 < outerHdr) :
    beAt (hdr.frameBytes dns ++ rest) i = beAt hdr.tpl i := by
  unfold beAt
  rw [hdr.getD_frameBytes dns rest hi (by omega), hdr.getD_frameBytes dns rest hnext hlt]

/-- **The checksum of the IP header verifies**, if the template has a zero in its place. -/
theorem FrameHeader.ipv4Checksum_frameBytes (hzero : beAt hdr.tpl 24 = 0) :
    ipv4Checksum (slice 14 20 (hdr.frameBytes dns ++ rest)) = 0 := by
  let patched := setBe hdr.tpl 16 (UInt16.ofNat ipv4Hdr + UInt16.ofNat (udpHdr + dns.length))
  have hlength : patched.length = 42 := by
    rw [length_setBe, hdr.tpl_length]
    rfl
  have hslice : (slice 14 20 patched).length = 20 := by
    simp [slice, hlength]
  have hheader : slice 14 20 (patchHeaders hdr.tpl dns.length) =
      setBe (slice 14 20 patched) (2 * 5) (ipv4Checksum (slice 14 20 patched)) := by
    show slice 14 20 (setBe (setBe patched 24 (ipv4Checksum (slice 14 20 patched))) 38 _) = _
    rw [slice_setBe_behind (by omega), slice_setBe_inside (by omega)]
  have hword : beAt (slice 14 20 patched) (2 * 5) = 0 := by
    have hshift : beAt (slice 14 20 patched) 10 = beAt patched 24 := by
      simp [beAt, slice, List.getD_eq_getElem?_getD, List.getElem?_drop]
    rw [hshift, beAt_setBe_of_ne (by omega), hzero]
  rw [FrameHeader.frameBytes, List.append_assoc, slice_append, hheader]
  · exact ipv4Checksum_stored (by omega) (by omega) hword
  · rw [length_patchHeaders, hdr.tpl_length]
    decide

end Frame

/-! ## The fields of a frame of `new` -/

section New

variable (srcMac dstMac : Vector UInt8 6) (srcIp dstIp : Vector UInt8 4)
  (srcPort dstPort : UInt16)

/-- The fields of the template that the patches leave alone, and a zero for the checksum. -/
theorem FrameHeader.new_slices :
    let tpl := (FrameHeader.new srcMac dstMac srcIp dstIp srcPort dstPort).tpl
    slice 0 6 tpl = dstMac.toList ∧ slice 6 6 tpl = srcMac.toList ∧ beAt tpl 12 = 0x0800 ∧
      slice 26 4 tpl = srcIp.toList ∧ slice 30 4 tpl = dstIp.toList ∧
      beAt tpl 34 = srcPort.toNat ∧ beAt tpl 36 = dstPort.toNat ∧ beAt tpl 40 = 0 ∧
      beAt tpl 24 = 0 := by
  obtain ⟨a, b, c, d, e, f, hdst⟩ := exists_six dstMac
  obtain ⟨a', b', c', d', e', f', hsrc⟩ := exists_six srcMac
  obtain ⟨g, h, i, j, hsrcIp⟩ := exists_four srcIp
  obtain ⟨g', h', i', j', hdstIp⟩ := exists_four dstIp
  simp only [FrameHeader.new, templateBytes_eq, hdst, hsrc, hsrcIp, hdstIp]
  exact ⟨rfl, rfl, rfl, rfl, rfl, toNat_bytes srcPort, toNat_bytes dstPort, rfl, rfl⟩

theorem decodes_frameBytes {dns : List UInt8} (hdns : dns.length ≤ 65507) (rest : List UInt8) :
    Decodes srcMac dstMac srcIp dstIp srcPort dstPort dns.length
      ((FrameHeader.new srcMac dstMac srcIp dstIp srcPort dstPort).frameBytes dns ++ rest) := by
  let hdr := FrameHeader.new srcMac dstMac srcIp dstIp srcPort dstPort
  obtain ⟨hdstMac, hsrcMac, htype, hsrcIp, hdstIp, hsrcPort, hdstPort, hudpChecksum, hzero⟩ :=
    FrameHeader.new_slices srcMac dstMac srcIp dstIp srcPort dstPort
  obtain ⟨-, -, hihl, hprotocol⟩ :=
    FrameHeader.new_fields srcMac dstMac srcIp dstIp srcPort dstPort
  have hslice : ∀ off len, off + len ≤ outerHdr →
      (∀ i, off ≤ i → i < off + len → i ∉ [16, 17, 24, 25, 38, 39]) →
      slice off len (hdr.frameBytes dns ++ rest) = slice off len hdr.tpl :=
    fun _ _ hlt hunpatched => hdr.slice_frameBytes dns rest hunpatched hlt
  have hfirst : (hdr.frameBytes dns ++ rest).getD 14 0 = 0x45 :=
    (hdr.getD_frameBytes dns rest (by decide) (by decide)).trans hihl
  refine ⟨?_, ?_, ?_, ?_, ?_, ?_, ?_, ?_, ?_, ?_, ?_, ?_, ?_, ?_⟩
  · exact (hslice 0 6 (by decide) (by simp; omega)).trans hdstMac
  · exact (hslice 6 6 (by decide) (by simp; omega)).trans hsrcMac
  · rw [hdr.beAt_frameBytes_of_unpatched dns rest (by decide) (by decide) (by decide), htype]
  · rw [hfirst]
    decide
  · rw [hfirst]
    decide
  · rw [hdr.beAt_frameBytes dns rest (by decide), beAt_ipTot hdr.tpl_length]
    omega
  · exact (hdr.getD_frameBytes dns rest (by decide) (by decide)).trans hprotocol
  · exact (hslice 26 4 (by decide) (by simp; omega)).trans hsrcIp
  · exact (hslice 30 4 (by decide) (by simp; omega)).trans hdstIp
  · exact (hdr.beAt_frameBytes_of_unpatched dns rest (by decide) (by decide) (by decide)).trans
      hsrcPort
  · exact (hdr.beAt_frameBytes_of_unpatched dns rest (by decide) (by decide) (by decide)).trans
      hdstPort
  · rw [hdr.beAt_frameBytes dns rest (by decide), beAt_udpLen hdr.tpl_length]
    omega
  · exact (hdr.beAt_frameBytes_of_unpatched dns rest (by decide) (by decide) (by decide)).trans
      hudpChecksum
  · exact hdr.ipv4Checksum_frameBytes dns rest hzero

/-- **`write_frame` builds a correct frame.**  For all addresses and ports, every payload of at
most 65507 bytes and every buffer with room for the frame, whatever is in it: the call returns
the length of the frame; the headers decode to what `new` was given and to the lengths of the
payload, and the checksum verifies; the payload follows; nothing of the frame depends on the old
contents of the buffer; and behind the frame the buffer is as it was. -/
theorem write_frame_correct (cpu : Simd.Cpu) (dns out : List UInt8) (hdns : dns.length ≤ 65507)
    (hout : 42 + dns.length ≤ out.length) :
    ∃ buf, (FrameHeader.new srcMac dstMac srcIp dstIp srcPort dstPort).writeFrame cpu out dns =
        some (buf, 42 + dns.length) ∧
      Decodes srcMac dstMac srcIp dstIp srcPort dstPort dns.length buf ∧
      slice 42 dns.length buf = dns ∧
      (∀ out' : List UInt8, 42 + dns.length ≤ out'.length →
        ∃ buf',
          (FrameHeader.new srcMac dstMac srcIp dstIp srcPort dstPort).writeFrame cpu out' dns =
          some (buf', 42 + dns.length) ∧
        buf'.take (42 + dns.length) = buf.take (42 + dns.length)) ∧
      buf.length = out.length ∧ buf.drop (42 + dns.length) = out.drop (42 + dns.length) := by
  let hdr := FrameHeader.new srcMac dstMac srcIp dstIp srcPort dstPort
  have hlength : (hdr.frameBytes dns).length = 42 + dns.length := hdr.length_frameBytes dns
  have hhead : (patchHeaders hdr.tpl dns.length).length = 42 := by
    rw [length_patchHeaders, hdr.tpl_length]
    rfl
  refine ⟨_, hdr.writeFrame_eq cpu hout,
    decodes_frameBytes srcMac dstMac srcIp dstIp srcPort dstPort hdns _, ?_, ?_, ?_, ?_⟩
  · show ((patchHeaders hdr.tpl dns.length ++ dns ++ _).drop 42).take dns.length = dns
    rw [List.append_assoc, List.drop_left' hhead, List.take_left]
  · intro out' hout'
    refine ⟨_, hdr.writeFrame_eq cpu hout', ?_⟩
    rw [List.take_left' hlength, List.take_left' hlength]
  · rw [List.length_append, hlength, List.length_drop]
    show 42 + dns.length + (out.length - (42 + dns.length)) = out.length
    omega
  · exact List.drop_left' hlength

end New

/-- The frame of the repository's test, in a buffer of ones with two bytes to spare. -/
theorem write_frame_correct_hello :
    ∃ buf, (FrameHeader.new #v[0x00, 0x11, 0x22, 0x33, 0x44, 0x55]
          #v[0xAA, 0xBB, 0xCC, 0xDD, 0xEE, 0xFF] #v[198, 51, 100, 1] #v[198, 51, 100, 2]
          12345 53).writeFrame ⟨true, false, false, false⟩ (List.replicate 61 1)
          [104, 101, 108, 108, 111, 32, 100, 110, 115, 32, 112, 97, 121, 108, 111, 97, 100] =
        some (buf, 59) ∧
      ipv4Checksum (slice 14 20 buf) = 0 ∧ buf.drop 59 = [1, 1] := by
  obtain ⟨buf, hwrite, hdecodes, -, -, -, hbehind⟩ := write_frame_correct
    #v[0x00, 0x11, 0x22, 0x33, 0x44, 0x55] #v[0xAA, 0xBB, 0xCC, 0xDD, 0xEE, 0xFF]
    #v[198, 51, 100, 1] #v[198, 51, 100, 2] 12345 53 ⟨true, false, false, false⟩
    [104, 101, 108, 108, 111, 32, 100, 110, 115, 32, 112, 97, 121, 108, 111, 97, 100]
    (List.replicate 61 1) (by decide) (by decide)
  exact ⟨buf, hwrite, hdecodes.verifies, hbehind⟩

end RunPerf.Xdp
