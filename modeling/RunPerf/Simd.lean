import Mathlib.Data.List.Basic
import Mathlib.Tactic

/-!
# The copy of `simd.rs`

`memcpy_dispatch` copies a slice with the widest registers the CPU has.  The routines
work on raw pointers, so they are modelled with a copy of a block that fails where it
would leave one of the two slices; a whole copy that succeeds has stayed within them.

Whatever the level, the result is the source followed by what the destination had behind
it (`memcpyDispatch_eq`).
-/

namespace RunPerf.Simd

inductive SimdLevel
  | scalar
  | sse2
  | sse42
  | avx2
  | avx512
deriving DecidableEq, Repr

/-- What decides the level: the architecture of the build and what the CPU reports. -/
structure Cpu where
  x86_64 : Bool
  sse42 : Bool
  avx2 : Bool
  avx512f : Bool

def detect (cpu : Cpu) : SimdLevel :=
  if cpu.x86_64 then
    if cpu.avx512f then .avx512
    else if cpu.avx2 then .avx2
    else if cpu.sse42 then .sse42
    else .sse2
  else .scalar

/-- Move `width` bytes from `src` to `dst`, both at `pos`; `none` outside of a slice. -/
def copyBlock (width pos : ℕ) (dst src : List UInt8) : Option (List UInt8) :=
  if pos + width ≤ src.length ∧ pos + width ≤ dst.length then
    some (dst.take pos ++ ((src.drop pos).take width ++ dst.drop (pos + width)))
  else none

/-- `while len >= width`: blocks of `width` bytes, with the position and the length that
are left. -/
def copyBlocks (width pos len : ℕ) (dst src : List UInt8) : Option (ℕ × ℕ × List UInt8) :=
  if 0 < width ∧ width ≤ len then do
    let dst ← copyBlock width pos dst src
    copyBlocks width (pos + width) (len - width) dst src
  else some (pos, len, dst)
termination_by len

/-- The scalar tail: `len` single bytes. -/
def copyTail (pos : ℕ) : ℕ → List UInt8 → List UInt8 → Option (List UInt8)
  | 0, dst, _ => some dst
  | len + 1, dst, src => do
      let dst ← copyBlock 1 pos dst src
      copyTail (pos + 1) len dst src

def memcpySse2 (dst src : List UInt8) (len : ℕ) : Option (List UInt8) := do
  let (pos, len, dst) ← copyBlocks 16 0 len dst src
  copyTail pos len dst src

def memcpyAvx2 (dst src : List UInt8) (len : ℕ) : Option (List UInt8) := do
  let (pos, len, dst) ← copyBlocks 32 0 len dst src
  if len ≥ 16 then
    let dst ← copyBlock 16 pos dst src
    copyTail (pos + 16) (len - 16) dst src
  else copyTail pos len dst src

/-- `dst[..len].copy_from_slice(src)`, which panics if `dst` is too short. -/
def memcpyScalar (dst src : List UInt8) : Option (List UInt8) :=
  if src.length ≤ dst.length then some (src ++ dst.drop src.length) else none

def memcpyDispatch (cpu : Cpu) (dst src : List UInt8) : Option (List UInt8) :=
  if cpu.x86_64 then
    match detect cpu with
    | .avx2 | .avx512 => memcpyAvx2 dst src src.length
    | _ => memcpySse2 dst src src.length
  else memcpyScalar dst src

/-! ## Every level copies the same -/

section Copy

variable {dst src : List UInt8}

/-- The destination after its first `pos` bytes have been copied. -/
def copied (pos : ℕ) (dst src : List UInt8) : List UInt8 := src.take pos ++ dst.drop pos

/-- One block moves the copy forward by its width. -/
theorem copyBlock_copied {width pos : ℕ} (hsrc : pos + width ≤ src.length)
    (hdst : src.length ≤ dst.length) :
    copyBlock width pos (copied pos dst src) src = some (copied (pos + width) dst src) := by
  have hpos : (src.take pos).length = pos := by
    rw [List.length_take]
    omega
  have hlength : (copied pos dst src).length = dst.length := by
    rw [copied, List.length_append, hpos, List.length_drop]
    omega
  rw [copyBlock, if_pos ⟨hsrc, by omega⟩]
  congr 1
  have hold : (copied pos dst src).drop (pos + width) = dst.drop (pos + width) := by
    rw [copied, ← List.drop_drop, List.drop_left' hpos, List.drop_drop]
  have hnew : src.take pos ++ (src.drop pos).take width = src.take (pos + width) :=
    List.take_add.symm
  rw [hold, copied, List.take_left' hpos, ← List.append_assoc, hnew, copied]

theorem copyBlocks_copied (width pos : ℕ) {len : ℕ} (hwidth : 0 < width)
    (hlen : pos + len = src.length) (hdst : src.length ≤ dst.length) :
    ∃ pos' len', copyBlocks width pos len (copied pos dst src) src =
      some (pos', len', copied pos' dst src) ∧ pos' + len' = src.length := by
  induction len using Nat.strong_induction_on generalizing pos with
  | h len ih =>
      rw [copyBlocks]
      by_cases hmore : width ≤ len
      · rw [if_pos ⟨hwidth, hmore⟩, copyBlock_copied (by omega) hdst]
        exact ih (len - width) (by omega) (pos + width) (by omega)
      · rw [if_neg fun h => hmore h.2]
        exact ⟨pos, len, rfl, hlen⟩

theorem copyTail_copied {pos len : ℕ} (hlen : pos + len = src.length)
    (hdst : src.length ≤ dst.length) :
    copyTail pos len (copied pos dst src) src = some (copied src.length dst src) := by
  induction len generalizing pos with
  | zero =>
      rw [← hlen]
      rfl
  | succ len ih =>
      rw [copyTail, copyBlock_copied (by omega) hdst]
      exact ih (by omega)

theorem copied_length (dst src : List UInt8) :
    copied src.length dst src = src ++ dst.drop src.length := by
  rw [copied, List.take_length]

theorem memcpySse2_eq (hdst : src.length ≤ dst.length) :
    memcpySse2 dst src src.length = some (src ++ dst.drop src.length) := by
  obtain ⟨pos, len, hblocks, hlen⟩ := copyBlocks_copied 16 0 (by omega)
    (Nat.zero_add src.length) hdst
  have hstart : copied 0 dst src = dst := rfl
  rw [hstart] at hblocks
  simp only [memcpySse2, hblocks, Option.bind_eq_bind, Option.bind_some]
  rw [copyTail_copied hlen hdst, copied_length]

theorem memcpyAvx2_eq (hdst : src.length ≤ dst.length) :
    memcpyAvx2 dst src src.length = some (src ++ dst.drop src.length) := by
  obtain ⟨pos, len, hblocks, hlen⟩ := copyBlocks_copied 32 0 (by omega)
    (Nat.zero_add src.length) hdst
  have hstart : copied 0 dst src = dst := rfl
  rw [hstart] at hblocks
  simp only [memcpyAvx2, hblocks, Option.bind_eq_bind, Option.bind_some]
  split
  · rw [copyBlock_copied (by omega) hdst, Option.bind_some, copyTail_copied (by omega) hdst,
      copied_length]
  · rw [copyTail_copied hlen hdst, copied_length]

/-- **Every level copies the same**: the source, and behind it what was there. -/
theorem memcpyDispatch_eq (cpu : Cpu) (hdst : src.length ≤ dst.length) :
    memcpyDispatch cpu dst src = some (src ++ dst.drop src.length) := by
  unfold memcpyDispatch
  split
  · split
    · exact memcpyAvx2_eq hdst
    · exact memcpyAvx2_eq hdst
    · exact memcpySse2_eq hdst
  · exact if_pos hdst

end Copy

end RunPerf.Simd
