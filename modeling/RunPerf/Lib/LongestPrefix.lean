import Mathlib.Data.List.MinMax
import Mathlib.Tactic

/-!
# Longest-prefix match

A prefix of a word is given by its first bits.  A word agrees with a prefix if it has these bits,
which can be seen under a mask (`Prefix.agrees_iff_masked`); the number of ones in the mask is the
length of the prefix (`Prefix.toNat_cpop_mask`).  Both stay so if the bytes of all words are
swapped.

`longestMatch` is the first of the entries with the longest prefix, among those that agree with a
word.  It can be found in one pass that keeps the best entry so far (`longestMatch_snoc`).
-/

namespace RunPerf.Lib

/-! ## Swapped bytes -/

/-- A word of four bytes with its bytes in the other order. -/
def swapBytes (x : BitVec 32) : BitVec 32 :=
  x.extractLsb' 0 8 ++ x.extractLsb' 8 8 ++ x.extractLsb' 16 8 ++ x.extractLsb' 24 8

theorem exists_bytes (x : BitVec 32) : ∃ a b c d : BitVec 8, x = a ++ b ++ c ++ d := by
  refine ⟨x.extractLsb' 24 8, x.extractLsb' 16 8, x.extractLsb' 8 8, x.extractLsb' 0 8, ?_⟩
  have hhigh : x.extractLsb' 24 8 ++ x.extractLsb' 16 8 = x.extractLsb' 16 16 :=
    BitVec.extractLsb'_append_extractLsb'_eq_extractLsb' rfl
  have hthree : x.extractLsb' 16 16 ++ x.extractLsb' 8 8 = x.extractLsb' 8 24 :=
    BitVec.extractLsb'_append_extractLsb'_eq_extractLsb' rfl
  have hall : x.extractLsb' 8 24 ++ x.extractLsb' 0 8 = x.extractLsb' 0 32 :=
    BitVec.extractLsb'_append_extractLsb'_eq_extractLsb' rfl
  rw [hhigh, hthree, hall, BitVec.extractLsb'_eq_self]

theorem swapBytes_append (a b c d : BitVec 8) :
    swapBytes (a ++ b ++ c ++ d) = d ++ c ++ b ++ a := by
  have hfirst : (a ++ b ++ c ++ d).extractLsb' 0 8 = d := BitVec.extractLsb'_append_eq_right
  have hsecond : (a ++ b ++ c ++ d).extractLsb' 8 8 = c := by
    rw [BitVec.extractLsb'_append_eq_of_le (by decide)]
    exact BitVec.extractLsb'_append_eq_right
  have hthird : (a ++ b ++ c ++ d).extractLsb' 16 8 = b := by
    rw [BitVec.extractLsb'_append_eq_of_le (by decide),
      BitVec.extractLsb'_append_eq_of_le (by decide)]
    exact BitVec.extractLsb'_append_eq_right
  have hfourth : (a ++ b ++ c ++ d).extractLsb' 24 8 = a := by
    rw [BitVec.extractLsb'_append_eq_of_le (by decide),
      BitVec.extractLsb'_append_eq_of_le (by decide)]
    exact BitVec.extractLsb'_append_eq_left
  rw [swapBytes, hfirst, hsecond, hthird, hfourth]

theorem swapBytes_swapBytes (x : BitVec 32) : swapBytes (swapBytes x) = x := by
  obtain ⟨a, b, c, d, rfl⟩ := exists_bytes x
  rw [swapBytes_append, swapBytes_append]

theorem swapBytes_inj {x y : BitVec 32} : swapBytes x = swapBytes y ↔ x = y :=
  (Function.LeftInverse.injective swapBytes_swapBytes).eq_iff

theorem bytes_and (a b c d a' b' c' d' : BitVec 8) :
    (a ++ b ++ c ++ d) &&& (a' ++ b' ++ c' ++ d') =
      (a &&& a') ++ (b &&& b') ++ (c &&& c') ++ (d &&& d') := by
  rw [BitVec.and_append, BitVec.and_append, BitVec.and_append]

theorem swapBytes_and (x y : BitVec 32) : swapBytes x &&& swapBytes y = swapBytes (x &&& y) := by
  obtain ⟨a, b, c, d, rfl⟩ := exists_bytes x
  obtain ⟨a', b', c', d', rfl⟩ := exists_bytes y
  calc swapBytes (a ++ b ++ c ++ d) &&& swapBytes (a' ++ b' ++ c' ++ d')
      = (d ++ c ++ b ++ a) &&& (d' ++ c' ++ b' ++ a') := by
        rw [swapBytes_append, swapBytes_append]
    _ = (d &&& d') ++ (c &&& c') ++ (b &&& b') ++ (a &&& a') := bytes_and _ _ _ _ _ _ _ _
    _ = swapBytes ((a &&& a') ++ (b &&& b') ++ (c &&& c') ++ (d &&& d')) :=
        (swapBytes_append _ _ _ _).symm
    _ = swapBytes ((a ++ b ++ c ++ d) &&& (a' ++ b' ++ c' ++ d')) :=
        congrArg swapBytes (bytes_and _ _ _ _ _ _ _ _).symm

/-- Swapping the bytes keeps the number of ones. -/
theorem toNat_cpop_swapBytes (x : BitVec 32) : (swapBytes x).cpop.toNat = x.cpop.toNat := by
  obtain ⟨a, b, c, d, rfl⟩ := exists_bytes x
  rw [swapBytes_append]
  simp only [BitVec.toNat_cpop_append]
  omega

/-! ## Prefixes and masks -/

/-- The first `len` bits of `network`. -/
structure Prefix (w : ℕ) where
  network : BitVec w
  len : ℕ
  len_le : len ≤ w

namespace Prefix

variable {w : ℕ} (p : Prefix w)

/-- The first bits of `x` are those of the prefix. -/
def Agrees (x : BitVec w) : Prop := p.network >>> (w - p.len) = x >>> (w - p.len)

instance (x : BitVec w) : Decidable (p.Agrees x) :=
  inferInstanceAs (Decidable (p.network >>> (w - p.len) = x >>> (w - p.len)))

/-- The empty prefix agrees with every word. -/
theorem agrees_of_len_eq_zero (h : p.len = 0) (x : BitVec w) : p.Agrees x := by
  rw [Agrees, h, Nat.sub_zero, BitVec.ushiftRight_eq_zero (le_refl w),
    BitVec.ushiftRight_eq_zero (le_refl w)]

/-- The word with ones in the place of the prefix. -/
def mask : BitVec w := BitVec.allOnes w <<< (w - p.len)

theorem agrees_iff_masked (x : BitVec w) :
    p.Agrees x ↔ x &&& p.mask = p.network &&& p.mask := by
  rw [mask, ← BitVec.shiftLeft_ushiftRight, ← BitVec.shiftLeft_ushiftRight, Agrees, eq_comm]
  constructor
  · intro h
    rw [h]
  · intro h
    -- The bits that were shifted in are shifted out again.
    have hback (y : BitVec w) : y >>> (w - p.len) <<< (w - p.len) >>> (w - p.len) =
        y >>> (w - p.len) := by
      ext i hi
      have hlt := @BitVec.lt_of_getLsbD w y (w - p.len + i)
      simpa using hlt
    rw [← hback x, h, hback]

theorem toNat_cpop_mask : p.mask.cpop.toNat = p.len := by
  have hbits (pos : ℕ) (hpos : pos ≤ w) : p.mask.cpopNatRec pos 0 = pos - (w - p.len) := by
    induction pos with
    | zero => simp
    | succ pos ih =>
        rw [BitVec.cpopNatRec_succ, BitVec.cpopNatRec_eq, ih (by omega), mask,
          BitVec.getLsbD_shiftLeft, BitVec.getLsbD_allOnes]
        by_cases hzero : pos < w - p.len
        · simp [hzero]
          omega
        · simp [hzero, show pos < w by omega, show pos - (w - p.len) < w by omega]
          omega
  have hle := p.len_le
  rw [BitVec.toNat_cpop, hbits w le_rfl]
  omega

end Prefix

/-! ## The longest match -/

variable {α : Type*} {w : ℕ}

/-- The first of the entries with the longest prefix that agrees with `x`. -/
def longestMatch (prefixOf : α → Prefix w) (x : BitVec w) (entries : List α) : Option α :=
  (entries.filter fun entry => (prefixOf entry).Agrees x).argmax fun entry => (prefixOf entry).len

/-- The better one of the best entry so far and the next one. -/
def keepLonger (prefixOf : α → Prefix w) (x : BitVec w) (best : Option α) (entry : α) :
    Option α :=
  if (prefixOf entry).Agrees x then
    match best with
    | none => some entry
    | some best => if (prefixOf best).len < (prefixOf entry).len then some entry else some best
  else best

/-- No entry before `entry` agrees with `x` and has a prefix as long, and none behind it has a
longer one. -/
structure FirstLongest (prefixOf : α → Prefix w) (x : BitVec w) (before : List α) (entry : α)
    (after : List α) : Prop where
  agrees : (prefixOf entry).Agrees x
  before : ∀ other ∈ before, (prefixOf other).Agrees x →
    (prefixOf other).len < (prefixOf entry).len
  after : ∀ other ∈ after, (prefixOf other).Agrees x →
    (prefixOf other).len ≤ (prefixOf entry).len

variable {prefixOf : α → Prefix w} {x : BitVec w}

theorem longestMatch_eq_none_iff {entries : List α} :
    longestMatch prefixOf x entries = none ↔ ∀ entry ∈ entries, ¬ (prefixOf entry).Agrees x := by
  simp [longestMatch, List.argmax_eq_none, List.filter_eq_nil_iff]

/-- One more entry for the pass that keeps the best one. -/
theorem longestMatch_snoc (entries : List α) (entry : α) :
    longestMatch prefixOf x (entries ++ [entry]) =
      keepLonger prefixOf x (longestMatch prefixOf x entries) entry := by
  unfold longestMatch keepLonger
  by_cases hagrees : (prefixOf entry).Agrees x
  · rw [if_pos hagrees, List.filter_append, List.filter_cons_of_pos (by simpa using hagrees),
      List.filter_nil, List.argmax_concat]
    cases List.argmax (fun entry => (prefixOf entry).len)
      (entries.filter fun entry => (prefixOf entry).Agrees x) with
    | none => rfl
    | some best => rfl
  · rw [if_neg hagrees, List.filter_append, List.filter_cons_of_neg (by simpa using hagrees),
      List.filter_nil, List.append_nil]

theorem FirstLongest.snoc {before after : List α} {best entry : α}
    (h : FirstLongest prefixOf x before best after)
    (hle : (prefixOf entry).Agrees x → (prefixOf entry).len ≤ (prefixOf best).len) :
    FirstLongest prefixOf x before best (after ++ [entry]) :=
  ⟨h.agrees, h.before, List.forall_mem_append.mpr ⟨h.after, List.forall_mem_singleton.mpr hle⟩⟩

theorem FirstLongest.lt_of_lt {before after : List α} {best : α} {len : ℕ}
    (h : FirstLongest prefixOf x before best after) (hlt : (prefixOf best).len < len) :
    ∀ other ∈ before ++ best :: after, (prefixOf other).Agrees x → (prefixOf other).len < len := by
  refine List.forall_mem_append.mpr ⟨?_, List.forall_mem_cons.mpr ⟨fun _ => hlt, ?_⟩⟩
  · intro other hother hagrees
    exact (h.before other hother hagrees).trans hlt
  · intro other hother hagrees
    exact (h.after other hother hagrees).trans_lt hlt

/-- **The longest match is the first one of the greatest length.** -/
theorem firstLongest_of_longestMatch {entries : List α} {entry : α}
    (h : longestMatch prefixOf x entries = some entry) :
    ∃ before after, entries = before ++ entry :: after ∧
      FirstLongest prefixOf x before entry after := by
  induction entries using List.reverseRecOn generalizing entry with
  | nil => simp [longestMatch] at h
  | append_singleton entries last ih =>
      rw [longestMatch_snoc] at h
      unfold keepLonger at h
      by_cases hagrees : (prefixOf last).Agrees x
      · rw [if_pos hagrees] at h
        cases hbest : longestMatch prefixOf x entries with
        | none =>
            rw [hbest] at h
            obtain rfl := Option.some.inj h
            have hnone := longestMatch_eq_none_iff.mp hbest
            exact ⟨entries, [], rfl, hagrees,
              fun other hother hmatch => absurd hmatch (hnone other hother), by simp⟩
        | some best =>
            obtain ⟨before, after, rfl, hfirst⟩ := ih hbest
            rw [hbest] at h
            simp only at h
            split at h
            · rename_i hlonger
              obtain rfl := Option.some.inj h
              exact ⟨_, [], rfl, hagrees, hfirst.lt_of_lt hlonger, by simp⟩
            · rename_i hshorter
              obtain rfl := Option.some.inj h
              exact ⟨before, after ++ [last], by simp, hfirst.snoc fun _ => not_lt.mp hshorter⟩
      · rw [if_neg hagrees] at h
        obtain ⟨before, after, rfl, hfirst⟩ := ih h
        exact ⟨before, after ++ [last], by simp, hfirst.snoc fun hmatch => absurd hmatch hagrees⟩

end RunPerf.Lib
