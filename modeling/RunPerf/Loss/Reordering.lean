import RunPerf.Loss.Reports

/-!
# Reordered and repeated packets

The gap detector remembers the last number of a stream and nothing else.  A packet that
arrives late is not counted as loss itself, but the numbers between it and its
predecessor are counted again when the stream moves forward.

For a single stream the arrivals are a walk over the numbers: a step forward from `p` to
`q` adds `q - p - 1` drops, a step back none.  Let `changes` be the number of steps that
move at all and `setBack` the length of the steps back, the ends included.  Then

  `drops + changes + first = last + setBack`

(`streamGaps_walk`).  A walk visits at most `changes + 1` numbers, which bounds the drops
by what never arrived plus `setBack`.  The bound is attained by `0, 2, 1, 3`.
-/

namespace RunPerf.Loss

open RunPerf.Lib RunPerf.Receive RunPerf.Net

/-- How many of the numbers `0, ..., n - 1` are not among the arrivals. -/
def missing (n : ℕ) (seqs : List UInt64) : ℕ :=
  ((List.range n).filter fun q => UInt64.ofNat q ∉ seqs).length

/-- The total length of the steps back, both ends counted. -/
def setBack : List UInt64 → ℕ
  | prev :: seq :: rest =>
      (if seq < prev then prev.toNat - seq.toNat + 1 else 0) + setBack (seq :: rest)
  | _ => 0

/-- The number of steps to a different number. -/
def changes : List UInt64 → ℕ
  | prev :: seq :: rest => (if seq = prev then 0 else 1) + changes (seq :: rest)
  | _ => 0

/-- The drops of a walk, by its ends and its steps back. -/
theorem streamGaps_walk (first : UInt64) (rest : List UInt64)
    (hlt : ∀ q ∈ first :: rest, q.toNat + 1 < 2 ^ 64) :
    streamGaps (some first) rest + changes (first :: rest) + first.toNat =
      (rest.getLastD first).toNat + setBack (first :: rest) := by
  induction rest generalizing first with
  | nil => simp [streamGaps, changes, setBack]
  | cons seq rest ih =>
      have hfirst := hlt first List.mem_cons_self
      have hrest := ih seq fun q hq => hlt q (List.mem_cons_of_mem _ hq)
      rw [streamGaps, gap_some hfirst, changes, setBack, List.getLastD_cons]
      -- Forward, on the spot, or back.
      rcases lt_trichotomy first.toNat seq.toNat with hforward | hsame | hback
      · have hne : seq ≠ first := fun heq => by simp [heq] at hforward
        have hnot : ¬ seq < first := by
          rw [UInt64.lt_iff_toNat_lt]
          omega
        rw [if_neg hne, if_neg hnot]
        omega
      · obtain rfl := UInt64.toNat_inj.mp hsame
        rw [if_pos rfl, if_neg (UInt64.lt_irrefl _)]
        omega
      · have hne : seq ≠ first := fun heq => by simp [heq] at hback
        rw [if_neg hne, if_pos (UInt64.lt_iff_toNat_lt.mpr hback)]
        omega

/-- A walk sees at most one new number with every change. -/
theorem card_toFinset_le_changes (first : UInt64) (rest : List UInt64) :
    (first :: rest).toFinset.card ≤ changes (first :: rest) + 1 := by
  induction rest generalizing first with
  | nil => simp [changes]
  | cons seq rest ih =>
      have hrest := ih seq
      rw [changes, List.toFinset_cons]
      by_cases hsame : seq = first
      · subst hsame
        have hmem : seq ∈ (seq :: rest).toFinset := by simp
        rw [Finset.insert_eq_of_mem hmem, if_pos rfl, Nat.zero_add]
        exact hrest
      · have hinsert := Finset.card_insert_le first (seq :: rest).toFinset
        rw [if_neg hsame]
        omega

/-- What did not arrive and what did together are all numbers sent. -/
theorem le_missing_add_card {n : ℕ} (hn : n ≤ 2 ^ 64) (seqs : List UInt64) :
    n ≤ missing n seqs + seqs.toFinset.card := by
  have harrived : ((List.range n).filter fun q => UInt64.ofNat q ∈ seqs).length ≤
      seqs.toFinset.card := by
    have hnodup : ((List.range n).filter fun q => UInt64.ofNat q ∈ seqs).Nodup :=
      List.nodup_range.filter _
    rw [← List.toFinset_card_of_nodup hnodup]
    apply Finset.card_le_card_of_injOn UInt64.ofNat
    · intro q hq
      simpa using (List.mem_filter.mp (List.mem_toFinset.mp hq)).2
    · intro q hq r hr heq
      have hq' := List.mem_range.mp (List.mem_filter.mp (List.mem_toFinset.mp hq)).1
      have hr' := List.mem_range.mp (List.mem_filter.mp (List.mem_toFinset.mp hr)).1
      have htoNat := congrArg UInt64.toNat heq
      simp only [UInt64.toNat_ofNat'] at htoNat
      omega
  have hsplit := List.length_eq_length_filter_add (l := List.range n)
    fun q => decide (UInt64.ofNat q ∉ seqs)
  simp only [List.length_range, decide_not, Bool.not_not] at hsplit
  unfold missing
  simp only [decide_not]
  omega

theorem streamGaps_le_missing_add_setBack {n : ℕ} (hn : n < 2 ^ 64) (seqs : List UInt64)
    (hsent : ∀ q ∈ seqs, q.toNat < n) :
    streamGaps none seqs ≤ missing n seqs + setBack seqs := by
  cases seqs with
  | nil => simp [streamGaps]
  | cons first rest =>
      have hwalk := streamGaps_walk first rest fun q hq => by
        have := hsent q hq
        omega
      have hvisited := card_toFinset_le_changes first rest
      have hall := le_missing_add_card hn.le (first :: rest)
      have hlast : (rest.getLastD first).toNat < n :=
        hsent _ List.getLastD_mem_cons
      rw [streamGaps, gap]
      omega

/-- Arrivals that never go back have no steps back. -/
theorem setBack_of_ordered {seqs : List UInt64} (h : seqs.Pairwise (· ≤ ·)) :
    setBack seqs = 0 := by
  induction seqs with
  | nil => rfl
  | cons first rest ih =>
      cases rest with
      | nil => rfl
      | cons seq rest =>
          rw [List.pairwise_cons] at h
          rw [setBack, ih h.2, if_neg (UInt64.not_lt.mpr (h.1 seq List.mem_cons_self))]

/-- **What reordering costs.**  Of a stream numbered from `0` to `n - 1` let any numbers
arrive, in any order and any number of times.  The drops either receiver reports are at
most the numbers that never arrived plus the total length of the steps back.  Hence
repeated packets alone, without any step back, are never reported as loss. -/
theorem drops_le_missing_add_setBack {n : ℕ} (hn : n < 2 ^ 64) {sid : UInt64}
    {seqs : List UInt64} (hsent : ∀ q ∈ seqs, q.toNat < n) {d : UInt64}
    (hreport : Reports (seqs.map fun seq => (sid, seq)) d) :
    d.toNat ≤ missing n seqs + setBack seqs ∧
      (seqs.Pairwise (· ≤ ·) → d.toNat ≤ missing n seqs) := by
  have hbound := streamGaps_le_missing_add_setBack hn seqs hsent
  have hdrops : d.toNat ≤ streamGaps none seqs := by
    rw [hreport.drops_eq_streamGaps, UInt64.toNat_ofNat']
    exact Nat.mod_le _ _
  refine ⟨hdrops.trans hbound, ?_⟩
  intro hordered
  rw [setBack_of_ordered hordered, Nat.add_zero] at hbound
  exact hdrops.trans hbound

/-- The datagram of a stream with nothing behind the header. -/
def stamped (sid seq : UInt64) : Datagram := toLeBytes sid ++ toLeBytes seq

theorem header_stamped_zero (sid seq : UInt64) : header 0 (stamped sid seq) = some (sid, seq) := by
  simpa [stamped] using header_stamped [] rfl sid seq []

theorem reports_stamped (sid : UInt64) (seqs : List UInt64) (hlength : seqs.length ≤ batch) :
    Reports (seqs.map fun seq => (sid, seq)) (UInt64.ofNat (streamGaps none seqs)) := by
  have hreport : Reports (seqs.map fun seq => (sid, seq))
      (workerDrops 0 [seqs.map (stamped sid)]) := by
    apply Reports.udp
    · simpa using hlength
    · simp [List.filterMap_map, header_stamped_zero]
  rw [← hreport.drops_eq_streamGaps]
  exact hreport

/-- Number 1 arrives twice and number 3 never: one drop, whatever the repetition. -/
theorem drops_le_missing_of_repeated :
    ∃ d, Reports ([0, 1, 1, 2, 4].map fun seq => (7, seq)) d ∧
      d.toNat ≤ missing 5 [0, 1, 1, 2, 4] := by
  have hreport := reports_stamped 7 [0, 1, 1, 2, 4] (by decide)
  exact ⟨_, hreport,
    (drops_le_missing_add_setBack (n := 5) (by decide) (by simp) hreport).2 (by decide)⟩

/-- Numbers 1 and 2 arrive in the wrong order: nothing is missing, and two drops are
reported. -/
theorem drops_not_le_missing_of_swapped :
    Reports ([0, 2, 1, 3].map fun seq => (7, seq)) 2 ∧ missing 4 [0, 2, 1, 3] = 0 ∧
      ¬ (2 : UInt64).toNat ≤ missing 4 [0, 2, 1, 3] := by
  have hreport := reports_stamped 7 [0, 2, 1, 3] (by decide)
  have hdrops : UInt64.ofNat (streamGaps none [0, 2, 1, 3]) = 2 := by decide
  rw [hdrops] at hreport
  exact ⟨hreport, by decide, by decide⟩

end RunPerf.Loss
