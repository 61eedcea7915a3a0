import RunPerf.Lib.Bytes
import RunPerf.Xdp.Umem

/-!
# The frames of the UMEM

`Umem::new` divides the area into 4096 chunks of 4096 bytes.  The first half goes into the
fill ring, the second half is the pool of the transmit side.  A descriptor points to bytes
of the area; as long as it stays within a chunk, what is written to another chunk does not
change them.
-/

namespace RunPerf.Xdp

open RunPerf.Lib

/-- The chunk of the UMEM that an offset lies in. -/
def chunk (addr : UInt64) : ℕ := addr.toNat / frameSize.toNat

/-- The offset of a chunk, computed in `u32`. -/
def frameAddr (i : ℕ) : UInt64 := (UInt32.ofNat i * frameSize).toUInt64

/-- The offsets that `Umem::new` puts into the fill ring. -/
def rxAddrs : List UInt64 := (List.range ringSize.toNat).map frameAddr

/-- The offsets that `Umem::new` returns as the pool of the transmit side. -/
def txPool : List UInt64 :=
  (List.range' ringSize.toNat (frameCount.toNat - ringSize.toNat)).map frameAddr

/-- The bytes a descriptor points to. -/
def frameOf (area : ℕ → UInt8) (desc : XdpDesc) : List UInt8 :=
  readBytes area desc.addr.toNat desc.len.toNat

theorem toNat_frameAddr {i : ℕ} (h : i < frameCount.toNat) :
    (frameAddr i).toNat = i * frameSize.toNat := by
  have hlt : i < 4096 := h
  have hframe : frameSize.toNat = 4096 := rfl
  simp only [frameAddr, UInt32.toNat_toUInt64, UInt32.toNat_mul, UInt32.toNat_ofNat', hframe]
  omega

theorem chunk_frameAddr {i : ℕ} (h : i < frameCount.toNat) : chunk (frameAddr i) = i := by
  rw [chunk, toNat_frameAddr h]
  exact Nat.mul_div_cancel i (by decide)

theorem map_chunk_rxAddrs : rxAddrs.map chunk = List.range ringSize.toNat := by
  rw [rxAddrs, List.map_map]
  conv_rhs => rw [← List.map_id (List.range ringSize.toNat)]
  apply List.map_congr_left
  intro i hi
  exact chunk_frameAddr ((List.mem_range.mp hi).trans (by decide))

theorem length_txPool : txPool.length = 2048 := by
  rw [txPool, List.length_map, List.length_range']
  rfl

theorem exists_of_mem_txPool {addr : UInt64} (h : addr ∈ txPool) :
    ∃ i, 2048 ≤ i ∧ i < 4096 ∧ addr.toNat = i * 4096 := by
  obtain ⟨i, hi, rfl⟩ := List.mem_map.mp h
  obtain ⟨hlow, hhigh⟩ := List.mem_range'_1.mp hi
  have hlow' : 2048 ≤ i := hlow
  have hhigh' : i < 4096 := hhigh
  exact ⟨i, hlow', hhigh', toNat_frameAddr hhigh'⟩

theorem nodup_txPool : txPool.Nodup := by
  refine List.Nodup.map_on ?_ List.nodup_range'
  intro i hi j hj heq
  have hi' : i < frameCount.toNat := (List.mem_range'_1.mp hi).2
  have hj' : j < frameCount.toNat := (List.mem_range'_1.mp hj).2
  rw [← chunk_frameAddr hi', heq, chunk_frameAddr hj']

/-- Writing into one chunk leaves a frame of another chunk as it is. -/
theorem frameOf_writeBytes {area : ℕ → UInt8} {desc : XdpDesc} {c off : ℕ}
    {packet : List UInt8} (hne : chunk desc.addr ≠ c)
    (hinside : desc.addr.toNat % frameSize.toNat + desc.len.toNat ≤ frameSize.toNat)
    (hfit : off + packet.length ≤ frameSize.toNat) :
    frameOf (writeBytes area (c * frameSize.toNat + off) packet) desc = frameOf area desc := by
  have hframe : frameSize.toNat = 4096 := rfl
  unfold chunk at hne
  rw [hframe] at hne hinside hfit ⊢
  apply readBytes_writeBytes_of_disjoint
  omega

/-- Writing to one frame of the pool leaves another one as it is. -/
theorem frameOf_writeBytes_of_ne {area : ℕ → UInt8} {desc : XdpDesc} {addr : UInt64}
    {buf : List UInt8} (haddr : addr ∈ txPool) (hdesc : desc.addr ∈ txPool)
    (hne : desc.addr ≠ addr) (hlen : desc.len.toNat ≤ frameSize.toNat)
    (hbuf : buf.length ≤ frameSize.toNat) :
    frameOf (writeBytes area addr.toNat buf) desc = frameOf area desc := by
  obtain ⟨i, -, -, hi⟩ := exists_of_mem_txPool haddr
  obtain ⟨j, -, -, hj⟩ := exists_of_mem_txPool hdesc
  have hij : i ≠ j := by
    rintro rfl
    exact hne (UInt64.toNat_inj.mp (hj.trans hi.symm))
  have hframe : frameSize.toNat = 4096 := rfl
  rw [hframe] at hlen hbuf
  apply readBytes_writeBytes_of_disjoint
  omega

/-- An empty ring of the size the source uses. -/
def emptyRing {α : Type*} (start : UInt32) (entry : α) : Ring α :=
  ⟨start, start, fun _ => entry, 2048, 2047, ⟨11, by decide, rfl⟩, rfl⟩

end RunPerf.Xdp
