import RunPerf.Lib.SharedMemory
import RunPerf.Xdp.Filter

/-!
# What the XDP program reads

`dns_xdp_client` gets two addresses, `data` and `data_end`, and checks before each header that it
ends by `data_end`.  Here it is a program of loads from memory, in the order of the source.  Every
load is of bytes of the frame, nothing is stored, and the verdict is that of `dnsXdpClient` on the
bytes between the two addresses (`program_reads_frame_only`): whatever lies around the frame makes
no difference.
-/

namespace RunPerf.Xdp

open RunPerf.Lib

variable {Socket : Type*}

/-- Two bytes as a number of the little-endian host. -/
def wordOf (bytes : List UInt8) : UInt16 := loadU16 bytes 0

namespace Program

/-- Behind the IP header: the UDP header has to fit. -/
def udp (xsks : Xsks Socket) (dataEnd : ℕ) (rxQueueIndex : UInt32) (pointer : ℕ) :
    Prog (XdpAction Socket) :=
  if pointer + sizeofUdphdr > dataEnd then .done .pass
  else .done (bpfRedirectMap xsks rxQueueIndex)

/-- The branch for IPv4. -/
def ipv4 (xsks : Xsks Socket) (dataEnd : ℕ) (rxQueueIndex : UInt32) (ip : ℕ) :
    Prog (XdpAction Socket) :=
  if ip + sizeofIphdr > dataEnd then .done .pass
  else .load (ip + 9) 1 fun protocol =>
    if protocol.getD 0 0 ≠ 17 then .done .pass
    else .load ip 1 fun first =>
      let ihl := first.getD 0 0 &&& 0xF
      if ihl &&& 0xF ≠ 5 then .done .pass else udp xsks dataEnd rxQueueIndex (ip + 20)

/-- The branch for IPv6. -/
def ipv6 (xsks : Xsks Socket) (dataEnd : ℕ) (rxQueueIndex : UInt32) (ip6 : ℕ) :
    Prog (XdpAction Socket) :=
  if ip6 + sizeofIpv6hdr > dataEnd then .done .pass
  else .load (ip6 + 6) 1 fun nexthdr =>
    if nexthdr.getD 0 0 ≠ 17 then .done .pass
    else udp xsks dataEnd rxQueueIndex (ip6 + sizeofIpv6hdr)

/-- `dns_xdp_client`. -/
def dnsXdpClient (xsks : Xsks Socket) (data dataEnd : ℕ) (rxQueueIndex : UInt32) :
    Prog (XdpAction Socket) :=
  if data + sizeofEthhdr > dataEnd then .done .pass
  else .load (data + 12) 2 fun proto =>
    let ethProto := bswap16 (wordOf proto)
    if ethProto = 0x0800 then ipv4 xsks dataEnd rxQueueIndex (data + sizeofEthhdr)
    else if ethProto = 0x86DD then ipv6 xsks dataEnd rxQueueIndex (data + sizeofEthhdr)
    else .done .pass

end Program

/-! ## The loads -/

section Loads

variable (xsks : Xsks Socket) (queue : UInt32) (mem : ℕ → UInt8) (data len : ℕ)

theorem getD_readBytes {i : ℕ} (h : i < len) :
    (readBytes mem data len).getD i 0 = mem (data + i) := by
  simp [readBytes, List.getD, h]

theorem wordOf_readBytes {i : ℕ} (h : i + 1 < len) :
    wordOf (readBytes mem (data + i) 2) = loadU16 (readBytes mem data len) i := by
  unfold wordOf loadU16
  rw [getD_readBytes mem data len (by omega), getD_readBytes mem data len h,
    getD_readBytes mem (data + i) 2 Nat.two_pos, getD_readBytes mem (data + i) 2 Nat.one_lt_two]
  rfl

/-- What the check of the UDP header gives, for a header at `pointer` in a frame of `len` bytes. -/
def udpVerdict (pointer : ℕ) : XdpAction Socket :=
  if len < pointer + sizeofUdphdr then .pass else bpfRedirectMap xsks queue

theorem readsOnly_udp (pointer : ℕ) :
    Prog.ReadsOnly (Program.udp xsks (data + len) queue (data + pointer)) mem data (data + len)
      (udpVerdict xsks queue len pointer) := by
  unfold Program.udp udpVerdict
  by_cases hfit : len < pointer + sizeofUdphdr
  · rw [if_pos (by omega), if_pos hfit]
    exact Prog.readsOnly_done
  · rw [if_neg (by omega), if_neg hfit]
    exact Prog.readsOnly_done

theorem readsOnly_ipv4 :
    Prog.ReadsOnly (Program.ipv4 xsks (data + len) queue (data + 14)) mem data (data + len)
      (if len < 34 then .pass
      else if (readBytes mem data len).getD 23 0 ≠ 17 then .pass
      else if (readBytes mem data len).getD 14 0 &&& 0xF &&& 0xF ≠ 5 then .pass
      else udpVerdict xsks queue len 34) := by
  unfold Program.ipv4 sizeofIphdr
  by_cases hip : len < 34
  · rw [if_pos (show data + 14 + 20 > data + len by omega), if_pos hip]
    exact Prog.readsOnly_done
  rw [if_neg (show ¬ data + 14 + 20 > data + len by omega), if_neg hip,
    getD_readBytes mem data len (show 23 < len by omega),
    getD_readBytes mem data len (show 14 < len by omega)]
  refine Prog.readsOnly_load (by omega) (by omega) ?_
  rw [getD_readBytes mem (data + 14 + 9) 1 Nat.zero_lt_one]
  refine Prog.readsOnly_ite (fun _ => Prog.readsOnly_done) fun _ => ?_
  refine Prog.readsOnly_load (by omega) (by omega) ?_
  rw [getD_readBytes mem (data + 14) 1 Nat.zero_lt_one]
  exact Prog.readsOnly_ite (fun _ => Prog.readsOnly_done)
    fun _ => readsOnly_udp xsks queue mem data len 34

theorem readsOnly_ipv6 :
    Prog.ReadsOnly (Program.ipv6 xsks (data + len) queue (data + 14)) mem data (data + len)
      (if len < 54 then .pass
      else if (readBytes mem data len).getD 20 0 ≠ 17 then .pass
      else udpVerdict xsks queue len 54) := by
  unfold Program.ipv6 sizeofIpv6hdr
  by_cases hip6 : len < 54
  · rw [if_pos (show data + 14 + 40 > data + len by omega), if_pos hip6]
    exact Prog.readsOnly_done
  rw [if_neg (show ¬ data + 14 + 40 > data + len by omega), if_neg hip6,
    getD_readBytes mem data len (show 20 < len by omega)]
  refine Prog.readsOnly_load (by omega) (by omega) ?_
  rw [getD_readBytes mem (data + 14 + 6) 1 Nat.zero_lt_one]
  exact Prog.readsOnly_ite (fun _ => Prog.readsOnly_done)
    fun _ => readsOnly_udp xsks queue mem data len 54

/-- The verdict of the program as a chain of the same checks. -/
theorem dnsXdpClient_eq_checks (frame : List UInt8) :
    dnsXdpClient xsks frame queue =
      if frame.length < 14 then .pass
      else if bswap16 (loadU16 frame 12) = 0x0800 then
        (if frame.length < 34 then .pass
        else if frame.getD 23 0 ≠ 17 then .pass
        else if frame.getD 14 0 &&& 0xF &&& 0xF ≠ 5 then .pass
        else udpVerdict xsks queue frame.length 34)
      else if bswap16 (loadU16 frame 12) = 0x86DD then
        (if frame.length < 54 then .pass
        else if frame.getD 20 0 ≠ 17 then .pass
        else udpVerdict xsks queue frame.length 54)
      else .pass := by
  unfold dnsXdpClient udpPointer sizeofEthhdr sizeofIphdr sizeofIpv6hdr
  simp only [Nat.reduceAdd]
  by_cases heth : frame.length < 14
  · rw [if_pos heth, if_pos heth]
  rw [if_neg heth, if_neg heth]
  by_cases hip : bswap16 (loadU16 frame 12) = 0x0800
  · rw [if_pos hip, if_pos hip]
    split_ifs <;> rfl
  rw [if_neg hip, if_neg hip]
  by_cases hip6 : bswap16 (loadU16 frame 12) = 0x86DD
  · rw [if_pos hip6, if_pos hip6]
    split_ifs <;> rfl
  rw [if_neg hip6, if_neg hip6]

theorem readsOnly_frame :
    Prog.ReadsOnly (Program.dnsXdpClient xsks data (data + len) queue) mem data (data + len)
      (dnsXdpClient xsks (readBytes mem data len) queue) := by
  rw [dnsXdpClient_eq_checks, length_readBytes]
  unfold Program.dnsXdpClient sizeofEthhdr
  by_cases heth : len < 14
  · rw [if_pos (show data + 14 > data + len by omega), if_pos heth]
    exact Prog.readsOnly_done
  rw [if_neg (show ¬ data + 14 > data + len by omega), if_neg heth]
  refine Prog.readsOnly_load (by omega) (by omega) ?_
  rw [wordOf_readBytes mem data len (show 12 + 1 < len by omega)]
  refine Prog.readsOnly_ite (fun _ => readsOnly_ipv4 xsks queue mem data len) fun _ => ?_
  exact Prog.readsOnly_ite (fun _ => readsOnly_ipv6 xsks queue mem data len)
    fun _ => Prog.readsOnly_done

end Loads

/-- **What the program reads.**  For any contents of memory and any two addresses, every load of
`dns_xdp_client` is of bytes of the frame, it changes nothing, and its verdict is that on the bytes
between `data` and `data_end`. -/
theorem program_reads_frame_only (xsks : Xsks Socket) (queue : UInt32) (mem : ℕ → UInt8)
    (data dataEnd : ℕ) :
    (∀ access ∈ (Program.dnsXdpClient xsks data dataEnd queue).accesses mem,
      data ≤ access.1 ∧ access.1 + access.2 ≤ dataEnd) ∧
    (Program.dnsXdpClient xsks data dataEnd queue).run mem =
      (dnsXdpClient xsks (readBytes mem data (dataEnd - data)) queue, mem) := by
  rcases le_total data dataEnd with hle | hge
  · obtain ⟨len, rfl⟩ := Nat.exists_eq_add_of_le hle
    rw [Nat.add_sub_cancel_left]
    have hreads := readsOnly_frame xsks queue mem data len
    exact ⟨hreads.within, hreads.run⟩
  · -- There is no room for an Ethernet header.
    have hnone : data + sizeofEthhdr > dataEnd := by
      unfold sizeofEthhdr
      omega
    rw [Program.dnsXdpClient, if_pos hnone, Nat.sub_eq_zero_of_le hge]
    exact ⟨by simp [Prog.accesses], rfl⟩

end RunPerf.Xdp
