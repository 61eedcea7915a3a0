import RunPerf.Lib.Bytes
import RunPerf.Xdp.Frame

/-!
# The header template and its fields

`FrameHeader::new` fills the 42 bytes of the template; `write_frame` overwrites six of them
in every frame, the two lengths and the checksum.  What a receiver finds at the other
offsets is therefore what `new` put there, whatever the payload is
(`getD_patchHeaders_of_unpatched`), and the two lengths are those of the payload, modulo
`2 ^ 16` (`beAt_ipTot`, `beAt_udpLen`).
-/

namespace RunPerf.Xdp

open RunPerf.Lib

/-! ## `FrameHeader::new` -/

/-- The 42 bytes that `FrameHeader::new` builds. -/
def templateBytes (srcMac dstMac : Vector UInt8 6) (srcIp dstIp : Vector UInt8 4)
    (srcPort dstPort : UInt16) : List UInt8 :=
  let tpl := List.replicate outerHdr 0
  let tpl := copyAt 0 dstMac.toList tpl
  let tpl := copyAt 6 srcMac.toList tpl
  let tpl := copyAt 12 [0x08, 0x00] tpl
  -- Version 4, five words of header; don't fragment; time to live; UDP.
  let tpl := tpl.set ethHdr 0x45
  let tpl := tpl.set (ethHdr + 6) 0x40
  let tpl := tpl.set (ethHdr + 8) 64
  let tpl := tpl.set (ethHdr + 9) 17
  let tpl := copyAt (ethHdr + 12) srcIp.toList tpl
  let tpl := copyAt (ethHdr + 16) dstIp.toList tpl
  let tpl := setBe tpl (ethHdr + ipv4Hdr) srcPort
  setBe tpl (ethHdr + ipv4Hdr + 2) dstPort

theorem exists_six (mac : Vector UInt8 6) :
    ∃ a b c d e f, mac.toList = [a, b, c, d, e, f] := by
  have hlength := mac.length_toList
  match mac.toList, hlength with
  | [a, b, c, d, e, f], _ => exact ⟨a, b, c, d, e, f, rfl⟩

theorem exists_four (ip : Vector UInt8 4) : ∃ a b c d, ip.toList = [a, b, c, d] := by
  have hlength := ip.length_toList
  match ip.toList, hlength with
  | [a, b, c, d], _ => exact ⟨a, b, c, d, rfl⟩

/-- The fields in the order of the frame: no two of the copies overlap. -/
theorem templateBytes_eq (srcMac dstMac : Vector UInt8 6) (srcIp dstIp : Vector UInt8 4)
    (srcPort dstPort : UInt16) :
    templateBytes srcMac dstMac srcIp dstIp srcPort dstPort =
      dstMac.toList ++ (srcMac.toList ++ (([0x08, 0x00] : List UInt8) ++
        (([0x45, 0, 0, 0, 0, 0, 0x40, 0, 64, 17, 0, 0] : List UInt8) ++
          (srcIp.toList ++ (dstIp.toList ++ [(srcPort >>> 8).toUInt8, srcPort.toUInt8,
            (dstPort >>> 8).toUInt8, dstPort.toUInt8, 0, 0, 0, 0]))))) := by
  obtain ⟨a, b, c, d, e, f, hdst⟩ := exists_six dstMac
  obtain ⟨a', b', c', d', e', f', hsrc⟩ := exists_six srcMac
  obtain ⟨g, h, i, j, hsrcIp⟩ := exists_four srcIp
  obtain ⟨g', h', i', j', hdstIp⟩ := exists_four dstIp
  have hzeros : List.replicate outerHdr (0 : UInt8) =
      [0, 0, 0, 0, 0, 0, 0, 0, 0, 0, 0, 0, 0, 0, 0, 0, 0, 0, 0, 0, 0, 0, 0, 0, 0, 0, 0, 0, 0, 0,
        0, 0, 0, 0, 0, 0, 0, 0, 0, 0, 0, 0] := rfl
  simp [templateBytes, hzeros, hdst, hsrc, hsrcIp, hdstIp, copyAt, setBe, ethHdr, ipv4Hdr]

/-- `FrameHeader::new`. -/
def FrameHeader.new (srcMac dstMac : Vector UInt8 6) (srcIp dstIp : Vector UInt8 4)
    (srcPort dstPort : UInt16) : FrameHeader where
  tpl := templateBytes srcMac dstMac srcIp dstIp srcPort dstPort
  tpl_length := by
    rw [templateBytes_eq]
    simp [outerHdr, ethHdr, ipv4Hdr, udpHdr]

/-- The bytes by which a receiver recognises UDP over IPv4 without options. -/
theorem FrameHeader.new_fields (srcMac dstMac : Vector UInt8 6) (srcIp dstIp : Vector UInt8 4)
    (srcPort dstPort : UInt16) :
    let tpl := (FrameHeader.new srcMac dstMac srcIp dstIp srcPort dstPort).tpl
    tpl.getD 12 0 = 0x08 ∧ tpl.getD 13 0 = 0x00 ∧ tpl.getD 14 0 = 0x45 ∧ tpl.getD 23 0 = 17 := by
  obtain ⟨a, b, c, d, e, f, hdst⟩ := exists_six dstMac
  obtain ⟨a', b', c', d', e', f', hsrc⟩ := exists_six srcMac
  simp only [FrameHeader.new, templateBytes_eq, hdst, hsrc]
  exact ⟨rfl, rfl, rfl, rfl⟩

/-! ## The patches of `write_frame` -/

theorem getD_setBe_of_ne {out : List UInt8} {i j : ℕ} (hfirst : j ≠ i) (hsecond : j ≠ i + 1)
    (word : UInt16) : (setBe out i word).getD j 0 = out.getD j 0 := by
  simp [setBe, List.getD_eq_getElem?_getD, hfirst.symm, hsecond.symm]

/-- The two bytes of a word. -/
theorem toNat_bytes (word : UInt16) :
    256 * (word >>> 8).toUInt8.toNat + word.toUInt8.toNat = word.toNat := by
  have hword := word.toNat_lt
  have hshift : (word >>> 8).toNat = word.toNat / 2 ^ 8 := by
    rw [UInt16.toNat_shiftRight]
    exact Nat.shiftRight_eq_div_pow _ 8
  rw [UInt16.toNat_toUInt8, UInt16.toNat_toUInt8, hshift]
  omega

/-- A word that was written is read back. -/
theorem beAt_setBe {out : List UInt8} {i : ℕ} (h : i + 1 < out.length) (word : UInt16) :
    beAt (setBe out i word) i = word.toNat := by
  have hhigh : (setBe out i word).getD i 0 = (word >>> 8).toUInt8 := by
    simp [setBe, List.getD_eq_getElem?_getD, Nat.lt_of_succ_lt h]
  have hlow : (setBe out i word).getD (i + 1) 0 = word.toUInt8 := by
    simp [setBe, List.getD_eq_getElem?_getD, h]
  rw [beAt, hhigh, hlow, toNat_bytes]

theorem beAt_setBe_of_ne {out : List UInt8} {i j : ℕ} (h : j + 1 < i ∨ i + 1 < j)
    (word : UInt16) : beAt (setBe out i word) j = beAt out j := by
  unfold beAt
  rw [getD_setBe_of_ne (by omega) (by omega), getD_setBe_of_ne (by omega) (by omega)]

/-- Away from the two lengths and the checksum, the patches change nothing. -/
theorem getD_patchHeaders_of_unpatched (out : List UInt8) (n : ℕ) {i : ℕ}
    (hi : i ∉ [16, 17, 24, 25, 38, 39]) : (patchHeaders out n).getD i 0 = out.getD i 0 := by
  simp only [List.mem_cons, List.not_mem_nil, or_false, not_or] at hi
  simp only [patchHeaders, ethHdr, ipv4Hdr]
  rw [getD_setBe_of_ne (by omega) (by omega), getD_setBe_of_ne (by omega) (by omega),
    getD_setBe_of_ne (by omega) (by omega)]

/-- The total length of the IP packet. -/
theorem beAt_ipTot {out : List UInt8} (hout : out.length = outerHdr) (n : ℕ) :
    beAt (patchHeaders out n) 16 = (28 + n) % 2 ^ 16 := by
  have h42 : out.length = 42 := hout
  simp only [patchHeaders, ethHdr, ipv4Hdr]
  rw [beAt_setBe_of_ne (by omega), beAt_setBe_of_ne (by omega), beAt_setBe (by omega),
    ← UInt16.ofNat_add, UInt16.toNat_ofNat', udpHdr]
  omega

/-- The length of the UDP datagram. -/
theorem beAt_udpLen {out : List UInt8} (hout : out.length = outerHdr) (n : ℕ) :
    beAt (patchHeaders out n) 38 = (8 + n) % 2 ^ 16 := by
  have h42 : out.length = 42 := hout
  simp only [patchHeaders, ethHdr, ipv4Hdr]
  rw [beAt_setBe (by simp only [length_setBe]; omega), UInt16.toNat_ofNat', udpHdr]

/-! ## The fields of a frame -/

section Frame

variable (hdr : FrameHeader) (dns rest : List UInt8)

/-- The bytes of the template that every frame keeps. -/
theorem FrameHeader.getD_frameBytes {i : ℕ} (hi : i ∉ [16, 17, 24, 25, 38, 39])
    (hlt : i < outerHdr) : (hdr.frameBytes dns ++ rest).getD i 0 = hdr.tpl.getD i 0 := by
  have hhead : (patchHeaders hdr.tpl dns.length).length = outerHdr := by
    rw [length_patchHeaders, hdr.tpl_length]
  rw [frameBytes, List.append_assoc, List.getD_append _ _ _ _ (by rwa [hhead]),
    getD_patchHeaders_of_unpatched _ _ hi]

theorem FrameHeader.beAt_frameBytes {i : ℕ} (hi : i + 1 < outerHdr) :
    beAt (hdr.frameBytes dns ++ rest) i = beAt (patchHeaders hdr.tpl dns.length) i := by
  rw [frameBytes, List.append_assoc, beAt_append (by rwa [length_patchHeaders, hdr.tpl_length])]

end Frame

end RunPerf.Xdp
