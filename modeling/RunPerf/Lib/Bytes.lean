import Mathlib.Data.List.GetD
import Mathlib.Tactic

/-!
# Bytes: little-endian words and slices of a memory

The little-endian form of a 64-bit word with its round trip, single bytes and
big-endian words of a buffer, and a flat byte memory with reads and writes of
whole slices.
-/

namespace RunPerf.Lib

/-! ## Little-endian words -/

/-- The number whose little-endian digits are the given bytes. -/
def leValue : List UInt8 → ℕ
  | [] => 0
  | byte :: rest => byte.toNat + 256 * leValue rest

/-- `u64::from_le_bytes`, on the eight bytes of a slice. -/
def fromLeBytes (bytes : List UInt8) : UInt64 := UInt64.ofNat (leValue bytes)

/-- `u64::to_le_bytes`. -/
def toLeBytes (word : UInt64) : List UInt8 :=
  (List.range 8).map fun i => UInt8.ofNat (word.toNat / 256 ^ i)

@[simp] theorem length_toLeBytes (word : UInt64) : (toLeBytes word).length = 8 := by
  simp [toLeBytes]

theorem leValue_append (bytes : List UInt8) (byte : UInt8) :
    leValue (bytes ++ [byte]) = leValue bytes + 256 ^ bytes.length * byte.toNat := by
  induction bytes with
  | nil => simp [leValue]
  | cons first rest ih =>
      simp only [List.cons_append, leValue, ih, List.length_cons, pow_succ]
      ring

theorem leValue_digits (n count : ℕ) :
    leValue ((List.range count).map fun i => UInt8.ofNat (n / 256 ^ i)) = n % 256 ^ count := by
  induction count with
  | zero => simp [leValue, Nat.mod_one]
  | succ count ih =>
      rw [List.range_succ, List.map_append, List.map_singleton, leValue_append, ih,
        List.length_map, List.length_range, Nat.mod_pow_succ, UInt8.toNat_ofNat']

theorem leValue_lt (bytes : List UInt8) : leValue bytes < 256 ^ bytes.length := by
  induction bytes with
  | nil => exact Nat.one_pos
  | cons byte rest ih =>
      have hbyte := byte.toNat_lt
      rw [leValue, List.length_cons, pow_succ]
      omega

/-- The digits of a number are the bytes that it was read from. -/
theorem digits_leValue (bytes : List UInt8) :
    (List.range bytes.length).map (fun i => UInt8.ofNat (leValue bytes / 256 ^ i)) = bytes := by
  induction bytes with
  | nil => rfl
  | cons byte rest ih =>
      have hbyte := byte.toNat_lt
      have hfirst : UInt8.ofNat (leValue (byte :: rest) / 256 ^ 0) = byte := by
        apply UInt8.toNat_inj.mp
        rw [UInt8.toNat_ofNat', pow_zero, Nat.div_one, leValue]
        omega
      have hlater (i : ℕ) : leValue (byte :: rest) / 256 ^ (i + 1) = leValue rest / 256 ^ i := by
        have hdiv : leValue (byte :: rest) / 256 = leValue rest := by
          rw [leValue]
          omega
        rw [pow_succ', ← Nat.div_div_eq_div_mul, hdiv]
      rw [List.length_cons, List.range_succ_eq_map, List.map_cons, List.map_map, hfirst]
      congr 1
      calc (List.range rest.length).map _
          = (List.range rest.length).map fun i => UInt8.ofNat (leValue rest / 256 ^ i) :=
            List.map_congr_left fun i _ => congrArg UInt8.ofNat (hlater i)
        _ = rest := ih

/-- Writing a word and reading it back gives the word. -/
@[simp] theorem fromLeBytes_toLeBytes (word : UInt64) : fromLeBytes (toLeBytes word) = word := by
  have hlt : word.toNat % 256 ^ 8 = word.toNat := Nat.mod_eq_of_lt word.toNat_lt
  rw [fromLeBytes, toLeBytes, leValue_digits, hlt, UInt64.ofNat_toNat]

/-! ## Slices of a buffer -/

/-- `buf` with `bytes` copied over it from `off` on. -/
def copyAt (off : ℕ) (bytes buf : List UInt8) : List UInt8 :=
  buf.take off ++ (bytes ++ buf.drop (off + bytes.length))

theorem length_copyAt {off : ℕ} {bytes buf : List UInt8} (h : off + bytes.length ≤ buf.length) :
    (copyAt off bytes buf).length = buf.length := by
  simp only [copyAt, List.length_append, List.length_take, List.length_drop]
  omega

/-- Two adjacent copies that start a buffer. -/
theorem copyAt_copyAt_zero (first second buf : List UInt8) :
    copyAt first.length second (copyAt 0 first buf) =
      first ++ (second ++ buf.drop (first.length + second.length)) := by
  have hfirst : copyAt 0 first buf = first ++ buf.drop first.length := by
    simp [copyAt]
  have hdrop : (first ++ buf.drop first.length).drop (first.length + second.length) =
      buf.drop (first.length + second.length) := by
    rw [← List.drop_drop, List.drop_left, List.drop_drop]
  rw [hfirst, copyAt, List.take_left, hdrop]

/-! ## Big-endian words in a buffer -/

/-- The 16-bit number that stands at `i`, high byte first. -/
def beAt (buf : List UInt8) (i : ℕ) : ℕ :=
  256 * (buf.getD i 0).toNat + (buf.getD (i + 1) 0).toNat

theorem beAt_lt (buf : List UInt8) (i : ℕ) : beAt buf i < 2 ^ 16 := by
  have hhigh := (buf.getD i 0).toNat_lt
  have hlow := (buf.getD (i + 1) 0).toNat_lt
  unfold beAt
  omega

theorem beAt_append {buf rest : List UInt8} {i : ℕ} (h : i + 1 < buf.length) :
    beAt (buf ++ rest) i = beAt buf i := by
  unfold beAt
  rw [List.getD_append _ _ _ _ (by omega), List.getD_append _ _ _ _ h]

/-! ## Slices of a memory -/

/-- The `len` bytes of `mem` from `off` on. -/
def readBytes (mem : ℕ → UInt8) (off len : ℕ) : List UInt8 :=
  (List.range len).map fun i => mem (off + i)

/-- `mem` with `bytes` written from `off` on. -/
def writeBytes (mem : ℕ → UInt8) (off : ℕ) (bytes : List UInt8) : ℕ → UInt8 := fun j =>
  if off ≤ j ∧ j < off + bytes.length then bytes.getD (j - off) 0 else mem j

@[simp] theorem length_readBytes (mem : ℕ → UInt8) (off len : ℕ) :
    (readBytes mem off len).length = len := by
  simp [readBytes]

theorem take_readBytes (mem : ℕ → UInt8) (off : ℕ) {n len : ℕ} (h : n ≤ len) :
    (readBytes mem off len).take n = readBytes mem off n := by
  simp [readBytes, ← List.map_take, List.take_range, Nat.min_eq_left h]

/-- A write is read back. -/
theorem readBytes_writeBytes_self (mem : ℕ → UInt8) (off : ℕ) (bytes : List UInt8) :
    readBytes (writeBytes mem off bytes) off bytes.length = bytes := by
  apply List.ext_getElem
  · simp
  · intro i hi hlen
    simp [readBytes, writeBytes, hlen]

/-- A write is not seen outside the bytes it covers. -/
theorem readBytes_writeBytes_of_disjoint (mem : ℕ → UInt8) {off off' len : ℕ}
    {bytes : List UInt8} (h : off' + len ≤ off ∨ off + bytes.length ≤ off') :
    readBytes (writeBytes mem off bytes) off' len = readBytes mem off' len := by
  apply List.map_congr_left
  intro i hi
  have hi' := List.mem_range.mp hi
  unfold writeBytes
  rw [if_neg]
  omega

end RunPerf.Lib
