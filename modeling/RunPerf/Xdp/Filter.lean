import RunPerf.Lib.Bytes

/-!
# The XDP program

`dns_xdp_client` sees every frame that arrives on the interface.  It passes a frame to the
kernel unless it finds a UDP header behind an Ethernet header and an IPv4 header without
options, or behind an Ethernet header and an IPv6 header; such a frame it redirects to the
socket that the map `XSKS` holds for the queue, and `bpf_redirect_map` falls back to
`XDP_PASS` if there is none.

The program is a chain of bounds checks and comparisons.  `redirect_iff` says what the chain
accepts: `IsUdpIpv4` or `IsUdpIpv6`.
-/

namespace RunPerf.Xdp

open RunPerf.Lib

/-! ## The map of sockets -/

/-- `max_entries` of `XSKS`. -/
def maxEntries : ℕ := 64

/-- `XSKS`: the socket of each queue that has one. -/
structure Xsks (Socket : Type*) where
  entries : Fin maxEntries → Option Socket

variable {Socket : Type*}

def Xsks.empty : Xsks Socket := ⟨fun _ => none⟩

/-- A lookup in the map; a key behind its end has no entry. -/
def Xsks.lookup (xsks : Xsks Socket) (key : UInt32) : Option Socket :=
  if h : key.toNat < maxEntries then xsks.entries ⟨key.toNat, h⟩ else none

/-- An update of the map, which fails for a key behind its end. -/
def Xsks.set (xsks : Xsks Socket) (key : UInt32) (sock : Socket) : Option (Xsks Socket) :=
  if h : key.toNat < maxEntries then
    some ⟨Function.update xsks.entries ⟨key.toNat, h⟩ (some sock)⟩
  else none

theorem Xsks.lookup_empty (key : UInt32) : (Xsks.empty : Xsks Socket).lookup key = none := by
  simp [lookup, empty]

theorem Xsks.lookup_set {xsks updated : Xsks Socket} {key : UInt32} {sock : Socket}
    (hset : xsks.set key sock = some updated) (other : UInt32) :
    updated.lookup other = if other = key then some sock else xsks.lookup other := by
  unfold Xsks.set at hset
  split at hset
  · rename_i hkey
    obtain rfl := Option.some.inj hset
    by_cases heq : other = key
    · subst heq
      simp [lookup, hkey]
    · have hne : other.toNat ≠ key.toNat := fun h => heq (UInt32.toNat_inj.mp h)
      simp [lookup, heq, Fin.ext_iff, hne]
  · cases hset

/-! ## The program -/

/-- The verdict on a frame: the kernel's stack gets it, or a socket. -/
inductive XdpAction (Socket : Type*)
  | pass
  | redirect (sock : Socket)
deriving DecidableEq

/-- `bpf_redirect_map(&XSKS, key, XDP_PASS)`. -/
def bpfRedirectMap (xsks : Xsks Socket) (key : UInt32) : XdpAction Socket :=
  match xsks.lookup key with
  | some sock => .redirect sock
  | none => .pass

/-- A load of two bytes on the little-endian host. -/
def loadU16 (data : List UInt8) (i : ℕ) : UInt16 :=
  UInt16.ofNat ((data.getD i 0).toNat + 256 * (data.getD (i + 1) 0).toNat)

/-- `__builtin_bswap16`. -/
def bswap16 (word : UInt16) : UInt16 := word <<< 8 ||| word >>> 8

/-- The sizes of `struct ethhdr`, `struct iphdr`, `struct ipv6hdr` and `struct udphdr`. -/
def sizeofEthhdr : ℕ := 14

def sizeofIphdr : ℕ := 20

def sizeofIpv6hdr : ℕ := 40

def sizeofUdphdr : ℕ := 8

/-- The pointer `udp` as an offset into the frame, where the program gets as far as setting
it.  Every load is behind the bounds check that covers it. -/
def udpPointer (data : List UInt8) : Option ℕ :=
  if data.length < sizeofEthhdr then none
  else
    let ethProto := bswap16 (loadU16 data 12)
    if ethProto = 0x0800 then
      let ip := sizeofEthhdr
      let protocol := data.getD (ip + 9) 0
      let ihl := data.getD ip 0 &&& 0xF
      if data.length < ip + sizeofIphdr then none
      else if protocol ≠ 17 then none
      else if ihl &&& 0xF ≠ 5 then none
      else some (ip + 20)
    else if ethProto = 0x86DD then
      let ip6 := sizeofEthhdr
      let nexthdr := data.getD (ip6 + 6) 0
      if data.length < ip6 + sizeofIpv6hdr then none
      else if nexthdr ≠ 17 then none
      else some (ip6 + sizeofIpv6hdr)
    else none

/-- `dns_xdp_client`, for the bytes between `data` and `data_end`. -/
def dnsXdpClient (xsks : Xsks Socket) (data : List UInt8) (rxQueueIndex : UInt32) :
    XdpAction Socket :=
  match udpPointer data with
  | none => .pass
  | some udp =>
      if data.length < udp + sizeofUdphdr then .pass else bpfRedirectMap xsks rxQueueIndex

/-- The program considers the frame UDP: it gets as far as the map. -/
def considersUdp (data : List UInt8) : Bool :=
  match udpPointer data with
  | none => false
  | some udp => udp + sizeofUdphdr ≤ data.length

/-! ## What the program accepts -/

/-- UDP over IPv4 without options. -/
structure IsUdpIpv4 (data : List UInt8) : Prop where
  ethertype : beAt data 12 = 0x0800
  ihl : data.getD 14 0 &&& 0xF = 5
  protocol : data.getD 23 0 = 17
  length : 42 ≤ data.length

/-- UDP right behind an IPv6 header. -/
structure IsUdpIpv6 (data : List UInt8) : Prop where
  ethertype : beAt data 12 = 0x86DD
  nexthdr : data.getD 20 0 = 17
  length : 62 ≤ data.length

theorem toNat_bswap16 (word : UInt16) :
    (bswap16 word).toNat = 256 * (word.toNat % 256) + word.toNat / 256 := by
  have hword := word.toNat_lt
  have hleft : (word <<< 8).toNat = (word.toNat % 256) <<< 8 := by
    rw [UInt16.toNat_shiftLeft, Nat.shiftLeft_eq, Nat.shiftLeft_eq]
    have hshift : (8 : UInt16).toNat % 16 = 8 := rfl
    rw [hshift]
    omega
  have hright : (word >>> 8).toNat = word.toNat / 256 := by
    rw [UInt16.toNat_shiftRight]
    exact Nat.shiftRight_eq_div_pow _ 8
  have hlt : word.toNat / 256 < 2 ^ 8 := by omega
  rw [bswap16, UInt16.toNat_or, hleft, hright, ← Nat.shiftLeft_add_eq_or_of_lt hlt,
    Nat.shiftLeft_eq]
  omega

/-- The swapped load is the big-endian word. -/
theorem toNat_bswap16_loadU16 (data : List UInt8) (i : ℕ) :
    (bswap16 (loadU16 data i)).toNat = beAt data i := by
  have hhigh := (data.getD i 0).toNat_lt
  have hlow := (data.getD (i + 1) 0).toNat_lt
  rw [toNat_bswap16, loadU16, UInt16.toNat_ofNat', beAt]
  omega

theorem bswap16_loadU16_eq_iff (data : List UInt8) (i : ℕ) (word : UInt16) :
    bswap16 (loadU16 data i) = word ↔ beAt data i = word.toNat := by
  rw [← UInt16.toNat_inj, toNat_bswap16_loadU16]

private theorem and_low_nibble (byte : UInt8) : byte &&& 0xF &&& 0xF = byte &&& 0xF := by
  rw [UInt8.and_assoc, UInt8.and_self]

theorem IsUdpIpv4.udpPointer_eq {data : List UInt8} (h : IsUdpIpv4 data) :
    udpPointer data = some 34 := by
  have hlength := h.length
  have hproto : bswap16 (loadU16 data 12) = 0x0800 :=
    (bswap16_loadU16_eq_iff data 12 0x0800).mpr h.ethertype
  unfold udpPointer sizeofEthhdr sizeofIphdr
  simp only [and_low_nibble]
  rw [if_neg (by omega), if_pos hproto, if_neg (by omega), if_neg (not_not.mpr h.protocol),
    if_neg (not_not.mpr h.ihl)]

theorem IsUdpIpv6.udpPointer_eq {data : List UInt8} (h : IsUdpIpv6 data) :
    udpPointer data = some 54 := by
  have hlength := h.length
  have hproto : bswap16 (loadU16 data 12) = 0x86DD :=
    (bswap16_loadU16_eq_iff data 12 0x86DD).mpr h.ethertype
  have hother : bswap16 (loadU16 data 12) ≠ 0x0800 := by
    rw [hproto]
    decide
  unfold udpPointer sizeofEthhdr sizeofIpv6hdr
  simp only
  rw [if_neg (by omega), if_neg hother, if_pos hproto, if_neg (by omega),
    if_neg (not_not.mpr h.nexthdr)]

/-- Where the program finds a UDP header that fits, the frame is one of the two kinds. -/
theorem isUdp_of_udpPointer {data : List UInt8} {udp : ℕ} (h : udpPointer data = some udp)
    (hfit : udp + sizeofUdphdr ≤ data.length) : IsUdpIpv4 data ∨ IsUdpIpv6 data := by
  unfold udpPointer at h
  simp only [and_low_nibble] at h
  unfold sizeofUdphdr at hfit
  split at h
  · cases h
  split at h
  · rename_i hproto
    split at h
    · cases h
    split at h
    · cases h
    split at h
    · cases h
    rename_i hprotocol hihl
    obtain rfl := Option.some.inj h
    exact .inl ⟨(bswap16_loadU16_eq_iff data 12 0x0800).mp hproto, not_not.mp hihl,
      not_not.mp hprotocol, hfit⟩
  split at h
  · rename_i hproto
    split at h
    · cases h
    split at h
    · cases h
    rename_i hnexthdr
    obtain rfl := Option.some.inj h
    exact .inr ⟨(bswap16_loadU16_eq_iff data 12 0x86DD).mp hproto, not_not.mp hnexthdr, hfit⟩
  · cases h

/-- The frames that get as far as the map are those of the two kinds. -/
theorem considersUdp_iff (data : List UInt8) :
    considersUdp data = true ↔ IsUdpIpv4 data ∨ IsUdpIpv6 data := by
  constructor
  · intro h
    unfold considersUdp at h
    split at h
    · cases h
    · rename_i hpointer
      exact isUdp_of_udpPointer hpointer (of_decide_eq_true h)
  · rintro (h4 | h6)
    · rw [considersUdp, h4.udpPointer_eq]
      exact decide_eq_true h4.length
    · rw [considersUdp, h6.udpPointer_eq]
      exact decide_eq_true h6.length

/-- The verdict is that of the map for these frames, and to pass all others. -/
theorem dnsXdpClient_eq (xsks : Xsks Socket) (data : List UInt8) (queue : UInt32) :
    dnsXdpClient xsks data queue =
      if considersUdp data then bpfRedirectMap xsks queue else .pass := by
  unfold dnsXdpClient considersUdp
  cases udpPointer data with
  | none => rfl
  | some udp =>
      by_cases hfit : data.length < udp + sizeofUdphdr
      · simp [hfit]
      · simp [hfit, Nat.le_of_not_lt hfit]

/-- **What the program redirects**: UDP over IPv4 without options or over IPv6, on a queue
that has a socket. -/
theorem redirect_iff (xsks : Xsks Socket) (data : List UInt8) (queue : UInt32) (sock : Socket) :
    dnsXdpClient xsks data queue = .redirect sock ↔
      (IsUdpIpv4 data ∨ IsUdpIpv6 data) ∧ xsks.lookup queue = some sock := by
  rw [dnsXdpClient_eq, ← considersUdp_iff, bpfRedirectMap]
  by_cases hudp : considersUdp data
  · cases hlookup : xsks.lookup queue <;> simp [hudp]
  · simp [hudp]

end RunPerf.Xdp
