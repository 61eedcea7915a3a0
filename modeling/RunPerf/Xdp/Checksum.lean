import RunPerf.Xdp.Template

/-!
# The Internet checksum

`ipv4_checksum` adds the 16-bit words of a header, folds the carries back in, and takes the
complement.  Folding keeps the sum modulo 65535, and it keeps apart the two forms of zero: only
zero itself folds to zero (`foldCarry_spec`).  So the checksum is zero exactly if the words add
up to a multiple of 65535 that is not zero (`ipv4Checksum_eq_zero_iff`), which is what storing
the checksum in a word that was zero makes them do.

The sum is computed in `u32`; up to 65537 words it does not wrap (`partialSum_add_lt`), and the
folding loop ends after at most two turns (`exists_foldLoop`).
-/

namespace RunPerf.Xdp

open RunPerf.Lib

/-! ## Folding -/

/-- What the folding loop leaves: 16 bits that are the sum modulo 65535, and zero only for
zero. -/
structure Folded (sum fold : ℕ) : Prop where
  lt : fold < 2 ^ 16
  mod : fold % 65535 = sum % 65535
  zero : fold = 0 ↔ sum = 0

theorem Folded.unique {sum fold fold' : ℕ} (h : Folded sum fold) (h' : Folded sum fold') :
    fold = fold' := by
  obtain ⟨hlt, hmod, hzero⟩ := h
  obtain ⟨hlt', hmod', hzero'⟩ := h'
  omega

/-- The loop goes on while there is a carry. -/
theorem carry_iff (sum : UInt32) : sum >>> 16 ≠ 0 ↔ 2 ^ 16 ≤ sum.toNat := by
  have hshift : (sum >>> 16).toNat = sum.toNat / 2 ^ 16 := by
    rw [UInt32.toNat_shiftRight]
    exact Nat.shiftRight_eq_div_pow _ 16
  rw [Ne, ← UInt32.toNat_inj, hshift, UInt32.toNat_zero]
  omega

theorem foldCarry_spec (sum : UInt32) : Folded sum.toNat (foldCarry sum).toNat := by
  induction sum using foldCarry.induct with
  | case1 sum hcarry ih =>
      rw [foldCarry, if_pos hcarry]
      rw [toNat_foldCarry_step] at ih
      refine ⟨ih.lt, ?_, ?_⟩
      · rw [ih.mod]
        omega
      · rw [ih.zero]
        omega
  | case2 sum hcarry =>
      rw [foldCarry, if_neg hcarry]
      rw [carry_iff] at hcarry
      exact ⟨by omega, rfl, Iff.rfl⟩

/-- The folding loop, started with `sum`, ends with `fold` after `n` turns. -/
inductive FoldLoop : UInt32 → ℕ → UInt32 → Prop
  | done {sum : UInt32} (h : ¬ sum >>> 16 ≠ 0) : FoldLoop sum 0 sum
  | turn {sum fold : UInt32} {n : ℕ} (h : sum >>> 16 ≠ 0)
      (hrest : FoldLoop ((sum &&& (0xFFFF : UInt32)) + (sum >>> 16)) n fold) :
      FoldLoop sum (n + 1) fold

theorem foldLoop_of_lt {sum : UInt32} (h : sum.toNat < 2 ^ 16) :
    FoldLoop sum 0 (foldCarry sum) := by
  have hdone : ¬ sum >>> 16 ≠ 0 := by
    rw [carry_iff]
    omega
  rw [foldCarry, if_neg hdone]
  exact .done hdone

/-- One more turn, if a turn leaves a sum from which `n` turns are enough. -/
theorem exists_foldLoop_succ {sum : UInt32} {n : ℕ}
    (h : ∃ m ≤ n, FoldLoop ((sum &&& (0xFFFF : UInt32)) + (sum >>> 16)) m
      (foldCarry ((sum &&& (0xFFFF : UInt32)) + (sum >>> 16)))) :
    ∃ m ≤ n + 1, FoldLoop sum m (foldCarry sum) := by
  by_cases hcarry : sum >>> 16 ≠ 0
  · obtain ⟨m, hm, hloop⟩ := h
    rw [foldCarry, if_pos hcarry]
    exact ⟨m + 1, by omega, .turn hcarry hloop⟩
  · rw [carry_iff] at hcarry
    exact ⟨0, by omega, foldLoop_of_lt (by omega)⟩

/-- **The folding loop ends after at most two turns.** -/
theorem exists_foldLoop (sum : UInt32) : ∃ n ≤ 2, FoldLoop sum n (foldCarry sum) := by
  -- The first turn leaves at most `0x1fffe`, the second one at most `0xffff`.
  have hlt := sum.toNat_lt
  refine exists_foldLoop_succ (exists_foldLoop_succ ⟨0, le_rfl, foldLoop_of_lt ?_⟩)
  rw [toNat_foldCarry_step, toNat_foldCarry_step]
  omega

/-! ## The sum of the words -/

/-- The sum of the 16-bit words, as a natural number. -/
def wordTotal (hdr : List UInt8) : ℕ := ∑ i ∈ Finset.range (hdr.length / 2), beAt hdr (2 * i)

theorem toNat_beWord (high low : UInt8) :
    (beWord high low).toNat = 256 * high.toNat + low.toNat := by
  have hhigh := high.toNat_lt
  have hlow := low.toNat_lt
  have hshift : (high.toUInt32 <<< 8).toNat = high.toNat <<< 8 := by
    rw [UInt32.toNat_shiftLeft, UInt8.toNat_toUInt32]
    show high.toNat <<< 8 % 2 ^ 32 = _
    rw [Nat.shiftLeft_eq]
    omega
  rw [beWord, UInt32.toNat_or, hshift, UInt8.toNat_toUInt32,
    ← Nat.shiftLeft_add_eq_or_of_lt (show low.toNat < 2 ^ 8 by omega), Nat.shiftLeft_eq]
  omega

/-- The sum of the first `count` words, as the loop computes it. -/
def partialSum (hdr : List UInt8) (count : ℕ) : UInt32 :=
  (List.range count).foldl
    (fun sum i => sum + beWord (hdr.getD (2 * i) 0) (hdr.getD (2 * i + 1) 0)) 0

theorem partialSum_succ (hdr : List UInt8) (count : ℕ) :
    partialSum hdr (count + 1) =
      partialSum hdr count + beWord (hdr.getD (2 * count) 0) (hdr.getD (2 * count + 1) 0) := by
  rw [partialSum, List.range_succ, List.foldl_append]
  rfl

theorem sum_beAt_le (hdr : List UInt8) (count : ℕ) :
    ∑ i ∈ Finset.range count, beAt hdr (2 * i) ≤ 65535 * count := by
  induction count with
  | zero => exact le_rfl
  | succ count ih =>
      have hlt := beAt_lt hdr (2 * count)
      rw [Finset.sum_range_succ]
      omega

/-- The `u32` sum does not wrap. -/
theorem toNat_partialSum (hdr : List UInt8) {count : ℕ} (hcount : count ≤ 65537) :
    (partialSum hdr count).toNat = ∑ i ∈ Finset.range count, beAt hdr (2 * i) := by
  induction count with
  | zero => rfl
  | succ count ih =>
      have hbound := sum_beAt_le hdr (count + 1)
      have hword : (beWord (hdr.getD (2 * count) 0) (hdr.getD (2 * count + 1) 0)).toNat =
          beAt hdr (2 * count) := toNat_beWord _ _
      rw [Finset.sum_range_succ] at hbound ⊢
      rw [partialSum_succ, UInt32.toNat_add, ih (by omega), hword, Nat.mod_eq_of_lt (by omega)]

theorem toNat_wordSum {hdr : List UInt8} (hwords : hdr.length / 2 ≤ 65537) :
    (wordSum hdr).toNat = wordTotal hdr :=
  toNat_partialSum hdr hwords

/-- No addition of the loop overflows. -/
theorem partialSum_add_lt {hdr : List UInt8} (hwords : hdr.length / 2 ≤ 65537) {k : ℕ}
    (hk : k < hdr.length / 2) :
    (partialSum hdr k).toNat + (beWord (hdr.getD (2 * k) 0) (hdr.getD (2 * k + 1) 0)).toNat <
      2 ^ 32 := by
  have hbound := sum_beAt_le hdr (k + 1)
  have hword : (beWord (hdr.getD (2 * k) 0) (hdr.getD (2 * k + 1) 0)).toNat = beAt hdr (2 * k) :=
    toNat_beWord _ _
  rw [Finset.sum_range_succ] at hbound
  rw [toNat_partialSum hdr (by omega), hword]
  omega

/-! ## The checksum -/

theorem toNat_ipv4Checksum (hdr : List UInt8) :
    (ipv4Checksum hdr).toNat = 65535 - (foldCarry (wordSum hdr)).toNat := by
  have hfold := (foldCarry_spec (wordSum hdr)).lt
  rw [ipv4Checksum, UInt16.toNat_not, UInt32.toNat_toUInt16, Nat.mod_eq_of_lt hfold]
  rfl

/-- **When the checksum is zero.** -/
theorem ipv4Checksum_eq_zero_iff {hdr : List UInt8} (hwords : hdr.length / 2 ≤ 65537) :
    ipv4Checksum hdr = 0 ↔ wordTotal hdr % 65535 = 0 ∧ wordTotal hdr ≠ 0 := by
  have hfold := foldCarry_spec (wordSum hdr)
  rw [toNat_wordSum hwords] at hfold
  obtain ⟨hlt, hmod, hzero⟩ := hfold
  rw [← UInt16.toNat_inj, toNat_ipv4Checksum, UInt16.toNat_zero]
  omega

/-- Storing a word changes the total by that word. -/
theorem wordTotal_setBe {hdr : List UInt8} {j : ℕ} (hj : 2 * j + 1 < hdr.length) (word : UInt16) :
    wordTotal (setBe hdr (2 * j) word) + beAt hdr (2 * j) = wordTotal hdr + word.toNat := by
  have hmem : j ∈ Finset.range (hdr.length / 2) := Finset.mem_range.mpr (by omega)
  have hother : ∀ i ∈ (Finset.range (hdr.length / 2)).erase j,
      beAt (setBe hdr (2 * j) word) (2 * i) = beAt hdr (2 * i) := by
    intro i hi
    have hne := Finset.ne_of_mem_erase hi
    exact beAt_setBe_of_ne (by omega) word
  unfold wordTotal
  rw [length_setBe, ← Finset.add_sum_erase _ _ hmem, ← Finset.add_sum_erase _ _ hmem,
    Finset.sum_congr rfl hother, beAt_setBe hj]
  omega

/-- **A stored checksum verifies.**  Where the word at `j` was zero, storing the checksum there
makes the checksum of the whole zero. -/
theorem ipv4Checksum_stored {hdr : List UInt8} {j : ℕ} (hj : 2 * j + 1 < hdr.length)
    (hwords : hdr.length / 2 ≤ 65537) (hzero : beAt hdr (2 * j) = 0) :
    ipv4Checksum (setBe hdr (2 * j) (ipv4Checksum hdr)) = 0 := by
  have htotal := wordTotal_setBe hj (ipv4Checksum hdr)
  have hfold := foldCarry_spec (wordSum hdr)
  rw [toNat_wordSum hwords] at hfold
  obtain ⟨hlt, hmod, hfoldZero⟩ := hfold
  rw [hzero, toNat_ipv4Checksum] at htotal
  rw [ipv4Checksum_eq_zero_iff (by rwa [length_setBe])]
  omega

/-! ## The Internet checksum -/

/-- Addition in one's complement: the carry out of the 16 bits is added at the other end. -/
def onesAdd (a b : ℕ) : ℕ := (a + b) % 2 ^ 16 + (a + b) / 2 ^ 16

/-- The one's complement sum of the first `count` words. -/
def onesSum (hdr : List UInt8) (count : ℕ) : ℕ :=
  (List.range count).foldl (fun sum i => onesAdd sum (beAt hdr (2 * i))) 0

theorem Folded.onesAdd {sum fold word : ℕ} (h : Folded sum fold) (hword : word < 2 ^ 16) :
    Folded (sum + word) (onesAdd fold word) := by
  obtain ⟨hlt, hmod, hzero⟩ := h
  unfold Xdp.onesAdd
  exact ⟨by omega, by omega, by omega⟩

theorem folded_onesSum (hdr : List UInt8) (count : ℕ) :
    Folded (∑ i ∈ Finset.range count, beAt hdr (2 * i)) (onesSum hdr count) := by
  induction count with
  | zero => exact ⟨Nat.two_pow_pos 16, rfl, Iff.rfl⟩
  | succ count ih =>
      rw [Finset.sum_range_succ, onesSum, List.range_succ, List.foldl_append]
      exact ih.onesAdd (beAt_lt hdr (2 * count))

/-- The checksum is the complement of the one's complement sum. -/
theorem toNat_ipv4Checksum_eq_onesSum {hdr : List UInt8} (hwords : hdr.length / 2 ≤ 65537) :
    (ipv4Checksum hdr).toNat = 65535 - onesSum hdr (hdr.length / 2) := by
  have hfold := foldCarry_spec (wordSum hdr)
  rw [toNat_wordSum hwords] at hfold
  rw [toNat_ipv4Checksum, hfold.unique (folded_onesSum hdr (hdr.length / 2))]

/-- A word set to zero is zero. -/
theorem beAt_cleared {hdr : List UInt8} {j : ℕ} (hj : 2 * j + 1 < hdr.length) :
    beAt (setBe hdr (2 * j) 0) (2 * j) = 0 := beAt_setBe hj 0

/-- **One changed word is seen**, unless the two words are the two forms of zero. -/
theorem ipv4Checksum_changed {hdr : List UInt8} (hwords : hdr.length / 2 ≤ 65537)
    (hchecked : ipv4Checksum hdr = 0) {j : ℕ} (hj : 2 * j + 1 < hdr.length) {word : UInt16}
    (hne : word.toNat ≠ beAt hdr (2 * j))
    (hzeros : ¬ ((beAt hdr (2 * j) = 0x0000 ∧ word = 0xFFFF) ∨
      (beAt hdr (2 * j) = 0xFFFF ∧ word = 0x0000))) :
    ipv4Checksum (setBe hdr (2 * j) word) ≠ 0 := by
  have htotal := wordTotal_setBe hj word
  have hold := beAt_lt hdr (2 * j)
  have hnew := word.toNat_lt
  have hforms : ¬ ((beAt hdr (2 * j) = 0 ∧ word.toNat = 65535) ∨
      (beAt hdr (2 * j) = 65535 ∧ word.toNat = 0)) := by
    rintro (⟨hfirst, hsecond⟩ | ⟨hfirst, hsecond⟩)
    · exact hzeros (.inl ⟨hfirst, UInt16.toNat_inj.mp hsecond⟩)
    · exact hzeros (.inr ⟨hfirst, UInt16.toNat_inj.mp hsecond⟩)
  rw [Ne, ipv4Checksum_eq_zero_iff (by rwa [length_setBe])]
  rw [ipv4Checksum_eq_zero_iff hwords] at hchecked
  omega

/-- **`ipv4_checksum` is the Internet checksum.** -/
theorem ipv4_checksum_correct (hdr : List UInt8) (hwords : hdr.length / 2 ≤ 65537) :
    (∀ k < hdr.length / 2, (partialSum hdr k).toNat +
        (beWord (hdr.getD (2 * k) 0) (hdr.getD (2 * k + 1) 0)).toNat < 2 ^ 32) ∧
      wordSum hdr = partialSum hdr (hdr.length / 2) ∧
      (∃ n ≤ 2, FoldLoop (wordSum hdr) n (foldCarry (wordSum hdr))) ∧
      (ipv4Checksum hdr).toNat = 65535 - onesSum hdr (hdr.length / 2) ∧
      (∀ j, 2 * j + 1 < hdr.length →
        let cleared := setBe hdr (2 * j) 0
        ipv4Checksum (setBe cleared (2 * j) (ipv4Checksum cleared)) = 0) ∧
      (ipv4Checksum hdr = 0 → ∀ j, 2 * j + 1 < hdr.length → ∀ word : UInt16,
        word.toNat ≠ beAt hdr (2 * j) →
        ¬ ((beAt hdr (2 * j) = 0x0000 ∧ word = 0xFFFF) ∨
          (beAt hdr (2 * j) = 0xFFFF ∧ word = 0x0000)) →
        ipv4Checksum (setBe hdr (2 * j) word) ≠ 0) := by
  refine ⟨fun k hk => partialSum_add_lt hwords hk, rfl, exists_foldLoop _,
    toNat_ipv4Checksum_eq_onesSum hwords, ?_, ?_⟩
  · intro j hj
    exact ipv4Checksum_stored (by rwa [length_setBe]) (by rwa [length_setBe]) (beAt_cleared hj)
  · intro hchecked j hj word hne hzeros
    exact ipv4Checksum_changed hwords hchecked hj hne hzeros

/-- Two words with the checksum zero: either of them is found again, and a change is seen. -/
theorem ipv4_checksum_correct_two_words :
    ipv4Checksum [0x12, 0x34, 0xed, 0xcb] = 0 ∧
      ipv4Checksum (setBe [0x12, 0x34, 0, 0] 2 (ipv4Checksum [0x12, 0x34, 0, 0])) = 0 ∧
      ipv4Checksum [0x12, 0x35, 0xed, 0xcb] ≠ 0 := by
  obtain ⟨-, -, -, -, hstored, hchanged⟩ :=
    ipv4_checksum_correct [0x12, 0x34, 0xed, 0xcb] (by decide)
  have hchecked : ipv4Checksum [0x12, 0x34, 0xed, 0xcb] = 0 := by
    rw [ipv4Checksum_eq_zero_iff (by decide)]
    decide
  exact ⟨hchecked, hstored 1 (by decide),
    hchanged hchecked 0 (by decide) 0x1235 (by decide) (by decide)⟩

end RunPerf.Xdp
