import RunPerf.Lib.Bytes
import RunPerf.Simd

/-!
# The copies of `simd.rs` on memory

The copy routines work on raw pointers that they advance, and on the length that is left.  Here
they are modelled on a flat memory that records the address of every byte that is read or
written.  Nothing in the routines knows where the slices end; that they stay inside is proved.

A piece of a copy that ends where the next one begins makes a longer piece
(`Copied.append`), as long as the two slices do not overlap.  So whatever the width of the
blocks, all routines leave the same memory, and it is the one that the model on slices gives.
-/

namespace RunPerf.Simd

open RunPerf.Lib

/-- A memory, with the addresses that were read and written. -/
structure Mem where
  bytes : ℕ → UInt8
  reads : List ℕ
  writes : List ℕ

namespace Mem

/-- `width` bytes from `src` through a register to `dst`. -/
def move (width dst src : ℕ) (m : Mem) : Mem where
  bytes := writeBytes m.bytes dst (readBytes m.bytes src width)
  reads := m.reads ++ List.range' src width
  writes := m.writes ++ List.range' dst width

/-- `while len >= width`: the pointers and the length that are left, and the memory. -/
def moveBlocks (width dst src len : ℕ) (m : Mem) : ℕ × ℕ × ℕ × Mem :=
  if 0 < width ∧ width ≤ len then
    moveBlocks width (dst + width) (src + width) (len - width) (m.move width dst src)
  else (dst, src, len, m)
termination_by len

/-- `for i in 0..len`: single bytes. -/
def moveTail (dst src len : ℕ) (m : Mem) : Mem :=
  (List.range len).foldl (fun m i => m.move 1 (dst + i) (src + i)) m

def memcpySse2 (dst src len : ℕ) (m : Mem) : Mem :=
  let (dst, src, len, m) := moveBlocks 16 dst src len m
  moveTail dst src len m

def memcpyAvx2 (dst src len : ℕ) (m : Mem) : Mem :=
  let (dst, src, len, m) := moveBlocks 32 dst src len m
  if len ≥ 16 then moveTail (dst + 16) (src + 16) (len - 16) (m.move 16 dst src)
  else moveTail dst src len m

/-- `dst[..len].copy_from_slice(src)`. -/
def memcpyScalar (dst src len : ℕ) (m : Mem) : Mem := m.move len dst src

def memcpyDispatch (cpu : Cpu) (dst src len : ℕ) (m : Mem) : Mem :=
  if cpu.x86_64 then
    match detect cpu with
    | .avx2 | .avx512 => memcpyAvx2 dst src len m
    | _ => memcpySse2 dst src len m
  else memcpyScalar dst src len m

end Mem

/-! ## Pieces of a copy -/

/-- The `n` bytes at `src` and those at `dst` do not overlap. -/
def Apart (dst src n : ℕ) : Prop := src + n ≤ dst ∨ dst + n ≤ src

/-- From `before` to `after`, `n` bytes were copied from `src` to `dst`, and no other byte was
read or written. -/
structure Copied (dst src n : ℕ) (before after : Mem) : Prop where
  moved : ∀ i < n, after.bytes (dst + i) = before.bytes (src + i)
  kept : ∀ a, ¬ (dst ≤ a ∧ a < dst + n) → after.bytes a = before.bytes a
  reads : ∀ a ∈ after.reads, a ∈ before.reads ∨ src ≤ a ∧ a < src + n
  writes : ∀ a ∈ after.writes, a ∈ before.writes ∨ dst ≤ a ∧ a < dst + n

section Pieces

variable {dst src : ℕ} {before between after : Mem}

theorem Copied.nil (dst src : ℕ) (m : Mem) : Copied dst src 0 m m :=
  ⟨by simp, fun _ _ => rfl, fun _ ha => .inl ha, fun _ ha => .inl ha⟩

/-- One move is a piece, also where it overlaps itself: all is read before anything is
written. -/
theorem copied_move (width dst src : ℕ) (m : Mem) :
    Copied dst src width m (m.move width dst src) := by
  refine ⟨?_, ?_, ?_, ?_⟩
  · intro i hi
    simp [Mem.move, writeBytes, readBytes, List.getD_eq_getElem?_getD, hi]
  · intro a ha
    simp only [Mem.move, writeBytes, length_readBytes]
    rw [if_neg ha]
  · intro a ha
    exact (List.mem_append.mp ha).imp_right fun hnew => List.mem_range'_1.mp hnew
  · intro a ha
    exact (List.mem_append.mp ha).imp_right fun hnew => List.mem_range'_1.mp hnew

/-- **Adjacent pieces.**  The first piece has not touched what the second one reads. -/
theorem Copied.append {n more : ℕ} (hapart : Apart dst src (n + more))
    (hfirst : Copied dst src n before between)
    (hsecond : Copied (dst + n) (src + n) more between after) :
    Copied dst src (n + more) before after := by
  refine ⟨?_, ?_, ?_, ?_⟩
  · intro i hi
    rcases Nat.lt_or_ge i n with hearly | hlate
    · rw [hsecond.kept (dst + i) (by omega), hfirst.moved i hearly]
    · have hmoved := hsecond.moved (i - n) (by omega)
      have hsource : between.bytes (src + i) = before.bytes (src + i) := by
        apply hfirst.kept
        unfold Apart at hapart
        omega
      have hdst : dst + n + (i - n) = dst + i := by omega
      have hsrc : src + n + (i - n) = src + i := by omega
      rw [hdst, hsrc, hsource] at hmoved
      exact hmoved
  · intro a ha
    rw [hsecond.kept a (by omega), hfirst.kept a (by omega)]
  · intro a ha
    rcases hsecond.reads a ha with hearlier | hlater
    · rcases hfirst.reads a hearlier with hold | hnew
      · exact .inl hold
      · exact .inr (by omega)
    · exact .inr (by omega)
  · intro a ha
    rcases hsecond.writes a ha with hearlier | hlater
    · rcases hfirst.writes a hearlier with hold | hnew
      · exact .inl hold
      · exact .inr (by omega)
    · exact .inr (by omega)

end Pieces

/-! ## The routines -/

section Routines

variable {dst src len : ℕ}

/-- The blocks are a piece, and what is left follows it. -/
theorem copied_moveBlocks (width : ℕ) (hwidth : 0 < width) (m : Mem) (hapart : Apart dst src len) :
    ∃ n left after, Mem.moveBlocks width dst src len m = (dst + n, src + n, left, after) ∧
      n + left = len ∧ Copied dst src n m after := by
  induction len using Nat.strong_induction_on generalizing dst src m with
  | h len ih =>
      rw [Mem.moveBlocks]
      by_cases hmore : width ≤ len
      · have hrest : Apart (dst + width) (src + width) (len - width) := by
          unfold Apart at *
          omega
        obtain ⟨n, left, after, hblocks, hlen, hcopied⟩ :=
          ih (len - width) (by omega) (m.move width dst src) hrest
        refine ⟨width + n, left, after, ?_, by omega, ?_⟩
        · rw [if_pos ⟨hwidth, hmore⟩, hblocks, Nat.add_assoc, Nat.add_assoc]
        · refine (copied_move width dst src m).append ?_ hcopied
          unfold Apart at *
          omega
      · rw [if_neg fun h => hmore h.2]
        exact ⟨0, len, m, rfl, by omega, Copied.nil dst src m⟩

theorem copied_moveTail (m : Mem) (hapart : Apart dst src len) :
    Copied dst src len m (Mem.moveTail dst src len m) := by
  unfold Mem.moveTail
  induction len with
  | zero => exact Copied.nil dst src m
  | succ len ih =>
      rw [List.range_succ, List.foldl_append]
      refine (ih ?_).append hapart (copied_move 1 (dst + len) (src + len) _)
      unfold Apart at *
      omega

theorem copied_memcpySse2 (m : Mem) (hapart : Apart dst src len) :
    Copied dst src len m (Mem.memcpySse2 dst src len m) := by
  obtain ⟨n, left, between, hblocks, rfl, hcopied⟩ := copied_moveBlocks 16 (by decide) m hapart
  have hrest : Apart (dst + n) (src + n) left := by
    unfold Apart at *
    omega
  simp only [Mem.memcpySse2, hblocks]
  exact hcopied.append hapart (copied_moveTail between hrest)

theorem copied_memcpyAvx2 (m : Mem) (hapart : Apart dst src len) :
    Copied dst src len m (Mem.memcpyAvx2 dst src len m) := by
  obtain ⟨n, left, between, hblocks, rfl, hcopied⟩ := copied_moveBlocks 32 (by decide) m hapart
  simp only [Mem.memcpyAvx2, hblocks]
  refine hcopied.append hapart ?_
  have hrest : Apart (dst + n) (src + n) left := by
    unfold Apart at *
    omega
  split
  · rename_i hsixteen
    have htail : Apart (dst + n + 16) (src + n + 16) (left - 16) := by
      unfold Apart at *
      omega
    have hboth := (copied_move 16 (dst + n) (src + n) between).append
      (by rwa [Nat.add_sub_cancel' hsixteen]) (copied_moveTail _ htail)
    rwa [Nat.add_sub_cancel' hsixteen] at hboth
  · exact copied_moveTail between hrest

theorem copied_memcpyDispatch (cpu : Cpu) (m : Mem) (hapart : Apart dst src len) :
    Copied dst src len m (Mem.memcpyDispatch cpu dst src len m) := by
  unfold Mem.memcpyDispatch
  split
  · split
    · exact copied_memcpyAvx2 m hapart
    · exact copied_memcpyAvx2 m hapart
    · exact copied_memcpySse2 m hapart
  · exact copied_move len dst src m

end Routines

/-! ## The slices -/

/-- What a copy leaves in the destination slice. -/
theorem Copied.readBytes_eq {dst src n len : ℕ} {before after : Mem}
    (h : Copied dst src n before after) (hn : n ≤ len) :
    readBytes after.bytes dst len =
      readBytes before.bytes src n ++ (readBytes before.bytes dst len).drop n := by
  apply List.ext_getElem
  · simp only [List.length_append, List.length_drop, length_readBytes]
    omega
  · intro i hi hi'
    have hlt : i < len := by rwa [length_readBytes] at hi
    rcases Nat.lt_or_ge i n with hearly | hlate
    · rw [List.getElem_append_left (by rwa [length_readBytes])]
      simpa [readBytes] using h.moved i hearly
    · have hkept := h.kept (dst + i) (by omega)
      rw [List.getElem_append_right (by rwa [length_readBytes])]
      simp only [readBytes, List.getElem_map, List.getElem_range, List.getElem_drop,
        List.length_map, List.length_range]
      rw [hkept, Nat.add_sub_cancel' hlate]

/-- **All copy paths are the same function.**  For a source of `n` bytes and a destination of at
least as many that does not overlap it, on every CPU: each routine leaves the source's bytes in
the destination and behind them what was there, leaves all other memory alone, and reads and
writes no byte at or past `n`; and that is the result of the model on slices. -/
theorem copy_paths_agree (bytes : ℕ → UInt8) (dst src n len : ℕ) (hn : n ≤ len)
    (hapart : src + n ≤ dst ∨ dst + len ≤ src) (cpu : Cpu) :
    (∀ copy ∈ [Mem.memcpyAvx2, Mem.memcpySse2, Mem.memcpyScalar, Mem.memcpyDispatch cpu],
      let after := copy dst src n ⟨bytes, [], []⟩
      readBytes after.bytes dst len =
          readBytes bytes src n ++ (readBytes bytes dst len).drop n ∧
        (∀ a, ¬ (dst ≤ a ∧ a < dst + n) → after.bytes a = bytes a) ∧
        (∀ a ∈ after.reads, src ≤ a ∧ a < src + n) ∧
        ∀ a ∈ after.writes, dst ≤ a ∧ a < dst + n) ∧
    memcpyDispatch cpu (readBytes bytes dst len) (readBytes bytes src n) =
      some (readBytes (Mem.memcpyDispatch cpu dst src n ⟨bytes, [], []⟩).bytes dst len) := by
  have happly : Apart dst src n := by
    unfold Apart
    omega
  have hspec : ∀ copy ∈ [Mem.memcpyAvx2, Mem.memcpySse2, Mem.memcpyScalar,
      Mem.memcpyDispatch cpu],
      Copied dst src n ⟨bytes, [], []⟩ (copy dst src n ⟨bytes, [], []⟩) := by
    simp only [List.forall_mem_cons]
    exact ⟨copied_memcpyAvx2 _ happly, copied_memcpySse2 _ happly, copied_move n dst src _,
      copied_memcpyDispatch cpu _ happly, by simp⟩
  constructor
  · intro copy hcopy after
    have h := hspec copy hcopy
    refine ⟨h.readBytes_eq hn, h.kept, ?_, ?_⟩
    · intro a ha
      exact (h.reads a ha).resolve_left (by simp)
    · intro a ha
      exact (h.writes a ha).resolve_left (by simp)
  · rw [memcpyDispatch_eq cpu (by simpa using hn),
      (copied_memcpyDispatch cpu _ happly).readBytes_eq hn, length_readBytes]

/-- 49 bytes into a slice of 53: a block of 32, one of 16, and a single byte. -/
theorem copy_paths_agree_49 :
    (Mem.memcpyAvx2 100 0 49 ⟨fun a => UInt8.ofNat a, [], []⟩).bytes 148 = 48 ∧
      (Mem.memcpyAvx2 100 0 49 ⟨fun a => UInt8.ofNat a, [], []⟩).bytes 149 = 149 ∧
      (Mem.memcpySse2 100 0 49 ⟨fun a => UInt8.ofNat a, [], []⟩).bytes 148 = 48 ∧
      (Mem.memcpySse2 100 0 49 ⟨fun a => UInt8.ofNat a, [], []⟩).bytes 149 = 149 := by
  obtain ⟨hpaths, -⟩ := copy_paths_agree (fun a => UInt8.ofNat a) 100 0 49 53 (by decide)
    (by decide) ⟨true, true, true, false⟩
  obtain ⟨hslice, hkept, -, -⟩ := hpaths Mem.memcpyAvx2 (by simp)
  obtain ⟨hslice', hkept', -, -⟩ := hpaths Mem.memcpySse2 (by simp)
  refine ⟨?_, hkept 149 (by decide), ?_, hkept' 149 (by decide)⟩
  · have hbyte := congrArg (fun buf => buf.getD 48 0) hslice
    simpa [readBytes, List.getD_eq_getElem?_getD] using hbyte
  · have hbyte := congrArg (fun buf => buf.getD 48 0) hslice'
    simpa [readBytes, List.getD_eq_getElem?_getD] using hbyte

end RunPerf.Simd
