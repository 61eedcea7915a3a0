import RunPerf.Simd

/-!
# The frame builder

`write_frame` copies a template of the Ethernet, IPv4 and UDP headers to the start of a
buffer, patches the two lengths and the IP checksum, and copies the payload behind it.
The template has exactly 42 bytes, which the type carries.

What the call leaves in the buffer does not depend on what was there before, except
behind the frame (`writeFrame_eq`): the frame is `frameBytes`, 42 bytes that depend on the
template and the length of the payload, and the payload.
-/

namespace RunPerf.Xdp

open RunPerf.Simd

def ethHdr : ℕ := 14

def ipv4Hdr : ℕ := 20

def udpHdr : ℕ := 8

def outerHdr : ℕ := ethHdr + ipv4Hdr + udpHdr

/-- The header template. -/
structure FrameHeader where
  tpl : List UInt8
  tpl_length : tpl.length = outerHdr

/-- `u16::from_be_bytes` of two bytes, as `u32`. -/
def beWord (high low : UInt8) : UInt32 := high.toUInt32 <<< 8 ||| low.toUInt32

/-- The sum over the 16-bit words, in `u32`. -/
def wordSum (hdr : List UInt8) : UInt32 :=
  (List.range (hdr.length / 2)).foldl
    (fun sum i => sum + beWord (hdr.getD (2 * i) 0) (hdr.getD (2 * i + 1) 0)) 0

theorem toNat_foldCarry_step (sum : UInt32) :
    ((sum &&& (0xFFFF : UInt32)) + (sum >>> 16)).toNat =
      sum.toNat % 2 ^ 16 + sum.toNat / 2 ^ 16 := by
  have hand : (sum &&& (0xFFFF : UInt32)).toNat = sum.toNat % 2 ^ 16 := by
    rw [UInt32.toNat_and]
    exact Nat.and_two_pow_sub_one_eq_mod _ 16
  have hshift : (sum >>> 16).toNat = sum.toNat / 2 ^ 16 := by
    rw [UInt32.toNat_shiftRight]
    exact Nat.shiftRight_eq_div_pow _ 16
  have hsum := sum.toNat_lt
  rw [UInt32.toNat_add, hand, hshift]
  omega

/-- `while sum >> 16 != 0`: add the carry back in. -/
def foldCarry (sum : UInt32) : UInt32 :=
  if sum >>> 16 ≠ 0 then foldCarry ((sum &&& (0xFFFF : UInt32)) + (sum >>> 16)) else sum
termination_by sum.toNat
decreasing_by
  rename_i hcarry
  have hpos : sum.toNat / 2 ^ 16 ≠ 0 := by
    intro hzero
    apply hcarry
    rw [← UInt32.toNat_inj, UInt32.toNat_shiftRight]
    exact (Nat.shiftRight_eq_div_pow _ 16).trans hzero
  rw [toNat_foldCarry_step]
  omega

def ipv4Checksum (hdr : List UInt8) : UInt16 := ~~~(foldCarry (wordSum hdr)).toUInt16

/-- Two bytes, high byte first, at `i` and `i + 1`. -/
def setBe (out : List UInt8) (i : ℕ) (word : UInt16) : List UInt8 :=
  (out.set i (word >>> 8).toUInt8).set (i + 1) word.toUInt8

/-- The patches of `write_frame` to the headers at the start of `out`, for a payload of
`n` bytes.  The lengths are computed in `u16`. -/
def patchHeaders (out : List UInt8) (n : ℕ) : List UInt8 :=
  let udpLen := UInt16.ofNat (udpHdr + n)
  let ipTot := UInt16.ofNat ipv4Hdr + udpLen
  let out := setBe out (ethHdr + 2) ipTot
  let cksum := ipv4Checksum ((out.drop ethHdr).take ipv4Hdr)
  let out := setBe out (ethHdr + 10) cksum
  setBe out (ethHdr + ipv4Hdr + 4) udpLen

/-- `write_frame`, with the buffer after the call and the length it returns; `none` where
an index or a slice is out of bounds and the call panics. -/
def FrameHeader.writeFrame (cpu : Cpu) (hdr : FrameHeader) (out dns : List UInt8) :
    Option (List UInt8 × ℕ) :=
  let total := outerHdr + dns.length
  if out.length < outerHdr then none
  else
    let out := patchHeaders (hdr.tpl ++ out.drop outerHdr) dns.length
    if out.length < total then none
    else
      match memcpyDispatch cpu ((out.drop outerHdr).take (total - outerHdr)) dns with
      | none => none
      | some payload => some (out.take outerHdr ++ (payload ++ out.drop total), total)

/-! ## What a frame is -/

/-- The frame of a payload. -/
def FrameHeader.frameBytes (hdr : FrameHeader) (dns : List UInt8) : List UInt8 :=
  patchHeaders hdr.tpl dns.length ++ dns

theorem length_setBe (out : List UInt8) (i : ℕ) (word : UInt16) :
    (setBe out i word).length = out.length := by
  simp [setBe]

theorem setBe_append {head rest : List UInt8} {i : ℕ} (h : i + 1 < head.length) (word : UInt16) :
    setBe (head ++ rest) i word = setBe head i word ++ rest := by
  unfold setBe
  rw [List.set_append_left _ _ (by omega), List.set_append_left _ _ (by rwa [List.length_set])]

theorem length_patchHeaders (out : List UInt8) (n : ℕ) :
    (patchHeaders out n).length = out.length := by
  simp only [patchHeaders, length_setBe]

/-- The patches stay within the headers and read nothing behind them. -/
theorem patchHeaders_append {head : List UInt8} (hhead : head.length = outerHdr)
    (rest : List UInt8) (n : ℕ) :
    patchHeaders (head ++ rest) n = patchHeaders head n ++ rest := by
  have h42 : head.length = 42 := hhead
  have hip : ∀ word, (((setBe head (ethHdr + 2) word ++ rest).drop ethHdr).take ipv4Hdr) =
      ((setBe head (ethHdr + 2) word).drop ethHdr).take ipv4Hdr := by
    intro word
    rw [List.drop_append_of_le_length, List.take_append_of_le_length]
    · simp only [List.length_drop, length_setBe, h42, ethHdr, ipv4Hdr]
      omega
    · simp only [length_setBe, h42, ethHdr]
      omega
  simp only [patchHeaders]
  rw [setBe_append (by rw [h42]; decide), hip, setBe_append (by rw [length_setBe, h42]; decide),
    setBe_append (by rw [length_setBe, length_setBe, h42]; decide)]

theorem FrameHeader.length_frameBytes (hdr : FrameHeader) (dns : List UInt8) :
    (hdr.frameBytes dns).length = outerHdr + dns.length := by
  rw [frameBytes, List.length_append, length_patchHeaders, hdr.tpl_length]

/-- **What `write_frame` writes.** -/
theorem FrameHeader.writeFrame_eq (cpu : Cpu) (hdr : FrameHeader) {out dns : List UInt8}
    (hfit : outerHdr + dns.length ≤ out.length) :
    hdr.writeFrame cpu out dns = some
      (hdr.frameBytes dns ++ out.drop (outerHdr + dns.length), outerHdr + dns.length) := by
  have hhead : (patchHeaders hdr.tpl dns.length).length = outerHdr := by
    rw [length_patchHeaders, hdr.tpl_length]
  have hrest : dns.length ≤ (out.drop outerHdr).length := by
    rw [List.length_drop]
    omega
  unfold writeFrame
  simp only [patchHeaders_append hdr.tpl_length, List.drop_left' hhead, List.take_left' hhead,
    Nat.add_sub_cancel_left]
  rw [if_neg (by omega), if_neg (by rw [List.length_append]; omega),
    memcpyDispatch_eq cpu (by rw [List.length_take]; omega)]
  have hcopy : ((out.drop outerHdr).take dns.length).drop dns.length = [] := by
    apply List.drop_eq_nil_of_le
    rw [List.length_take]
    omega
  have htail : (patchHeaders hdr.tpl dns.length ++ out.drop outerHdr).drop
      (outerHdr + dns.length) = out.drop (outerHdr + dns.length) := by
    rw [← List.drop_drop, List.drop_left' hhead, List.drop_drop]
  simp only [hcopy, htail, List.append_nil, frameBytes, List.append_assoc]

/-- A buffer that is too short makes the call panic. -/
theorem FrameHeader.writeFrame_eq_none (cpu : Cpu) (hdr : FrameHeader) {out dns : List UInt8}
    (hshort : out.length < outerHdr + dns.length) : hdr.writeFrame cpu out dns = none := by
  unfold writeFrame
  simp only
  split
  · rfl
  · rename_i hlong
    rw [if_pos]
    rw [length_patchHeaders, List.length_append, hdr.tpl_length, List.length_drop]
    omega

end RunPerf.Xdp
