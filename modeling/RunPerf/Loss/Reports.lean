import RunPerf.Net.Accounting
import RunPerf.Xdp.Sink

/-!
# The loss a receiver reports

`Reports headers d` says that a receiver, the UDP worker or the AF_XDP sink, has counted
packets with the given headers and that its drops counter is `d`.  Whichever receiver it
was, `d` is the total of the gaps, so the statements about loss can speak of both.

A receiver reports no loss exactly when no number of a stream is more than one ahead of
the number before it (`streamGaps_eq_zero_iff`), which is how the absence of phantom loss
is decided for every sender.
-/

namespace RunPerf.Loss

open RunPerf.Lib RunPerf.Receive RunPerf.Net RunPerf.Xdp

/-- The drops counter of a UDP worker that started with all counters at zero. -/
def workerDrops (len : ℕ) (batches : List (List Datagram)) : UInt64 :=
  (Counters.zero.applyAll ((UdpWorker.new len).run batches).2).drops

/-- A receiver that has counted packets with these headers, in this order, shows `d`
drops.  Packets too short for a header may have come in between. -/
inductive Reports (headers : List (UInt64 × UInt64)) : UInt64 → Prop
  | udp (len : ℕ) (batches : List (List Datagram))
      (hbatch : ∀ arrived ∈ batches, arrived.length ≤ batch)
      (harrived : batches.flatten.filterMap (header 0) = headers) :
      Reports headers (workerDrops len batches)
  | xdp (trace : List Sink.Event) (s : Sink.State) (hrun : Sink.machine.Run trace s)
      (hread : (Sink.readFrames trace).filterMap (header Sink.hdrs) = headers) :
      Reports headers s.counters.drops

theorem workerDrops_eq (len : ℕ) {batches : List (List Datagram)}
    (hbatch : ∀ arrived ∈ batches, arrived.length ≤ batch) :
    workerDrops len batches =
      UInt64.ofNat (gapTotal LastSeq.new (batches.flatten.filterMap (header 0))) := by
  rw [workerDrops, UdpWorker.apply_run _ _ hbatch]
  simp [Counters.add, Counters.zero, UdpWorker.new]

theorem Reports.drops_eq {headers : List (UInt64 × UInt64)} {d : UInt64}
    (h : Reports headers d) : d = UInt64.ofNat (gapTotal LastSeq.new headers) := by
  cases h with
  | udp len batches hbatch harrived => rw [workerDrops_eq len hbatch, harrived]
  | xdp trace s hrun hread =>
      rw [(Sink.inv_run hrun).accounted.counters, apply_countPackets, hread]
      simp [Counters.add, Counters.zero]

/-! ## A single stream -/

theorem gapTotal_single (lastSeq : LastSeq) (sid : UInt64) (seqs : List UInt64) :
    gapTotal lastSeq (seqs.map fun seq => (sid, seq)) = streamGaps (lastSeq sid) seqs := by
  induction seqs generalizing lastSeq with
  | nil => rfl
  | cons seq rest ih => simp [gapTotal, streamGaps, ih]

/-- What is reported for a single stream. -/
theorem Reports.drops_eq_streamGaps {sid : UInt64} {seqs : List UInt64} {d : UInt64}
    (h : Reports (seqs.map fun seq => (sid, seq)) d) :
    d = UInt64.ofNat (streamGaps none seqs) := by
  rw [h.drops_eq, gapTotal_single]
  rfl

/-! ## When no loss is reported -/

/-- A gap is only zero where the number is at most one ahead: also when `prev + 1` wraps,
what is added is not zero. -/
theorem gap_some_eq_zero_iff (prev seq : UInt64) :
    gap (some prev) seq = 0 ↔ ¬ seq > prev + 1 := by
  by_cases hgap : seq > prev + 1
  · -- The number is above `prev + 1`, so it is not `prev + 1` and the difference is not zero.
    have hne : (seq - prev - 1).toNat ≠ 0 := by
      have hlt := UInt64.lt_iff_toNat_lt.mp hgap
      have hseq := seq.toNat_lt
      have hprev := prev.toNat_lt
      simp only [UInt64.toNat_add, UInt64.toNat_sub, UInt64.toNat_one] at hlt ⊢
      omega
    rw [gap, if_pos hgap]
    exact iff_of_false hne (not_not_intro hgap)
  · rw [gap, if_neg hgap]
    exact iff_of_true rfl hgap

theorem streamGaps_some_eq_zero_iff (prev : UInt64) (seqs : List UInt64) :
    streamGaps (some prev) seqs = 0 ↔
      (prev :: seqs).IsChain fun x y => ¬ y > x + 1 := by
  induction seqs generalizing prev with
  | nil => simp [streamGaps]
  | cons seq rest ih =>
      rw [streamGaps, Nat.add_eq_zero_iff, gap_some_eq_zero_iff, ih, List.isChain_cons_cons]

/-- **No gaps**: every number is at most one ahead of its predecessor. -/
theorem streamGaps_eq_zero_iff (seqs : List UInt64) :
    streamGaps none seqs = 0 ↔ seqs.IsChain fun x y => ¬ y > x + 1 := by
  cases seqs with
  | nil => simp [streamGaps]
  | cons first rest =>
      rw [streamGaps, gap, Nat.zero_add]
      exact streamGaps_some_eq_zero_iff first rest

/-! ## Numbers that only grow

The senders count in natural numbers here, and stamp the count modulo `2 ^ 64`. -/

section Growing

variable {sid d : UInt64} {numbers : List ℕ}

/-- Consecutive numbers show no loss, not even where the count wraps. -/
theorem Reports.drops_eq_zero_of_consecutive
    (h : Reports (numbers.map fun number => (sid, UInt64.ofNat number)) d)
    (hconsecutive : numbers.IsChain fun x y => y = x + 1) : d = 0 := by
  have hgaps : streamGaps none (numbers.map UInt64.ofNat) = 0 := by
    rw [streamGaps_eq_zero_iff, List.isChain_map]
    apply hconsecutive.imp
    rintro x y rfl
    rw [UInt64.ofNat_add]
    exact UInt64.lt_irrefl _
  have hreport : Reports ((numbers.map UInt64.ofNat).map fun seq => (sid, seq)) d := by
    rw [List.map_map]
    exact h
  rw [hreport.drops_eq_streamGaps, hgaps]
  rfl

/-- Increasing numbers cannot have so many gaps that the counter wraps back to zero. -/
theorem streamGaps_lt_of_increasing (seqs : List UInt64) (h : seqs.Pairwise (· < ·)) :
    streamGaps none seqs < 2 ^ 64 := by
  cases seqs with
  | nil => simp [streamGaps]
  | cons first rest =>
      have htelescope := streamGaps_of_increasing first rest h
      have hlast := (rest.getLastD first).toNat_lt
      rw [streamGaps, gap]
      omega

/-- **No loss is reported exactly when the numbers are consecutive**, as long as they grow
and none of them has wrapped. -/
theorem Reports.drops_eq_zero_iff_consecutive
    (h : Reports (numbers.map fun number => (sid, UInt64.ofNat number)) d)
    (hgrow : numbers.Pairwise (· < ·)) (hlt : ∀ number ∈ numbers, number < 2 ^ 64) :
    d = 0 ↔ numbers.IsChain fun x y => y = x + 1 := by
  refine ⟨?_, h.drops_eq_zero_of_consecutive⟩
  intro hzero
  have hseqs : (numbers.map UInt64.ofNat).Pairwise (· < ·) := by
    rw [List.pairwise_map]
    refine hgrow.imp_of_mem ?_
    intro x y hx hy hxy
    rw [UInt64.lt_iff_toNat_lt, UInt64.toNat_ofNat', UInt64.toNat_ofNat',
      Nat.mod_eq_of_lt (hlt x hx), Nat.mod_eq_of_lt (hlt y hy)]
    exact hxy
  have hreport : Reports ((numbers.map UInt64.ofNat).map fun seq => (sid, seq)) d := by
    rw [List.map_map]
    exact h
  have hgaps : streamGaps none (numbers.map UInt64.ofNat) = 0 := by
    have htoNat := congrArg UInt64.toNat (hreport.drops_eq_streamGaps.symm.trans hzero)
    rw [UInt64.toNat_ofNat', Nat.mod_eq_of_lt (streamGaps_lt_of_increasing _ hseqs)] at htoNat
    exact htoNat
  rw [streamGaps_eq_zero_iff, List.isChain_map] at hgaps
  rw [List.isChain_iff_getElem] at hgaps ⊢
  intro i hi
  have hstep : numbers[i] < numbers[i + 1] :=
    List.pairwise_iff_getElem.mp hgrow i (i + 1) (by omega) hi (by omega)
  have hsucc := hlt numbers[i + 1] (List.getElem_mem _)
  have hnot := hgaps i hi
  rw [gt_iff_lt, UInt64.lt_iff_toNat_lt, UInt64.toNat_add, UInt64.toNat_ofNat',
    UInt64.toNat_ofNat', UInt64.toNat_one] at hnot
  omega

end Growing

end RunPerf.Loss
