import RunPerf.Loss.Reports
import RunPerf.Net.Client

/-!
# Datagrams the kernel refused

A turn of the client's send loop uses up 64 sequence numbers, also when `sendmmsg` sends
fewer datagrams or none.  If the network then delivers everything in order, the server
sees the numbers of `sentSeqs`, and shows no drops exactly when these are consecutive.

They are consecutive in few cases only (`isChain_sentSeqs_iff`): a turn that sends less
than a whole batch leaves a hole behind, unless nothing was sent up to then or nothing is
sent any more.  Otherwise the datagrams that were refused locally show up as loss.
-/

namespace RunPerf.Loss

open RunPerf.Lib RunPerf.Receive RunPerf.Net

/-- Turns that send less than a whole batch come only before the first datagram or
with the last one. -/
def ShortOnlyAtEnds (results : List ℤ) : Prop :=
  ∀ i : Fin results.length, results[i] < batch →
    (∀ ret ∈ results.take (i + 1), ret ≤ 0) ∨ (∀ ret ∈ results.drop (i + 1), ret ≤ 0)

instance (results : List ℤ) : Decidable (ShortOnlyAtEnds results) :=
  inferInstanceAs (Decidable (∀ _ : Fin _, _))

/-! ## The numbers on the wire -/

/-- The first number on the wire is the first of all only if the first turn sent
something. -/
theorem head?_sentSeqs_eq_base_iff (base : ℕ) (ret : ℤ) (rest : List ℤ) :
    (sentSeqs base (ret :: rest)).head? = some base ↔ 0 < ret := by
  rw [sentSeqs]
  by_cases hpos : 0 < ret
  · obtain ⟨n, hn⟩ : ∃ n, ret.toNat = n + 1 := ⟨ret.toNat - 1, by omega⟩
    simp [hn, List.range'_succ, hpos]
  · have hzero : ret.toNat = 0 := by omega
    simp only [hzero, List.range'_zero, List.nil_append, hpos, iff_false]
    intro hhead
    have hle := le_of_mem_sentSeqs (List.mem_of_mem_head? hhead)
    have hbatch : batch = 64 := rfl
    omega

/-- What a turn adds must join what comes after it: either nothing does, or the turn
sent a whole batch and the next turn sends something. -/
theorem isChain_sentSeqs_cons {base : ℕ} {ret : ℤ} {rest : List ℤ} (hpos : 0 < ret)
    (hret : ret ≤ batch) :
    (sentSeqs base (ret :: rest)).IsChain (fun x y => y = x + 1) ↔
      (sentSeqs (base + batch) rest).IsChain (fun x y => y = x + 1) ∧
        (sentSeqs (base + batch) rest = [] ∨
          (ret = batch ∧ (sentSeqs (base + batch) rest).head? = some (base + batch))) := by
  have hlast : (List.range' base ret.toNat).getLast? = some (base + ret.toNat - 1) := by
    rw [List.getLast?_range', if_neg (by omega)]
  rw [sentSeqs, List.isChain_append, hlast]
  simp only [List.isChain_range', true_and, Option.mem_some_iff, forall_eq']
  refine and_congr_right fun _ => ?_
  cases hhead : (sentSeqs (base + batch) rest).head? with
  | none => simp [List.head?_eq_none_iff.mp hhead]
  | some y =>
      have hne : sentSeqs (base + batch) rest ≠ [] := by
        intro hnil
        simp [hnil] at hhead
      have hle := le_of_mem_sentSeqs (List.mem_of_mem_head? hhead)
      simp only [Option.mem_some_iff, forall_eq', hne, false_or, Option.some.injEq]
      omega

/-! ## When they are consecutive -/

theorem shortOnlyAtEnds_cons (ret : ℤ) (rest : List ℤ) :
    ShortOnlyAtEnds (ret :: rest) ↔
      (ret < batch → ret ≤ 0 ∨ ∀ r ∈ rest, r ≤ 0) ∧
        ∀ i : Fin rest.length, rest[i] < batch →
          (ret ≤ 0 ∧ ∀ r ∈ rest.take (i + 1), r ≤ 0) ∨ ∀ r ∈ rest.drop (i + 1), r ≤ 0 := by
  unfold ShortOnlyAtEnds
  constructor
  · intro h
    refine ⟨fun hshort => ?_, fun i hi => ?_⟩
    · simpa using h ⟨0, by simp⟩ hshort
    · simpa using h i.succ hi
  · rintro ⟨hzero, hsucc⟩ i
    refine Fin.cases ?_ (fun j => ?_) i
    · intro hshort
      simpa using hzero hshort
    · intro hshort
      simpa using hsucc j hshort

/-- The step of the induction below for a turn that sends something. -/
private theorem shortOnlyAtEnds_after {base : ℕ} {ret : ℤ} (hret : ret ≤ batch)
    (rest : List ℤ) :
    (ShortOnlyAtEnds rest ∧ ((∀ r ∈ rest, r ≤ 0) ∨
        (ret = batch ∧ (sentSeqs base rest).head? = some base))) ↔
      (ret < batch → ∀ r ∈ rest, r ≤ 0) ∧
        ∀ i : Fin rest.length, rest[i] < batch → ∀ r ∈ rest.drop (i + 1), r ≤ 0 := by
  constructor
  · rintro ⟨hends, hnothing | ⟨hwhole, hhead⟩⟩
    · exact ⟨fun _ => hnothing, fun i _ r hr => hnothing r (List.mem_of_mem_drop hr)⟩
    · refine ⟨fun hshort => by omega, fun i hi => ?_⟩
      cases rest with
      | nil => exact i.elim0
      | cons next later =>
          -- The next turn sends something, so the first alternative is excluded.
          have hpos := (head?_sentSeqs_eq_base_iff base next later).mp hhead
          refine (hends i hi).resolve_left fun hearly => ?_
          have hle := hearly next (by simp)
          omega
  · rintro ⟨hshort, hlater⟩
    refine ⟨fun i hi => .inr (hlater i hi), ?_⟩
    by_cases hwhole : ret = batch
    · cases rest with
      | nil => exact .inl (by simp)
      | cons next later =>
          by_cases hpos : 0 < next
          · exact .inr ⟨hwhole, (head?_sentSeqs_eq_base_iff base next later).mpr hpos⟩
          · have hnext : next < batch := lt_of_le_of_lt (not_lt.mp hpos) (by decide)
            have hnone := hlater ⟨0, by simp⟩ hnext
            refine .inl (List.forall_mem_cons.mpr ⟨not_lt.mp hpos, ?_⟩)
            simpa using hnone
    · exact .inl (hshort (by omega))

/-- **The numbers on the wire are consecutive exactly when short turns are at the ends.** -/
theorem isChain_sentSeqs_iff (base : ℕ) {results : List ℤ} (hret : ∀ ret ∈ results, ret ≤ batch) :
    (sentSeqs base results).IsChain (fun x y => y = x + 1) ↔ ShortOnlyAtEnds results := by
  induction results generalizing base with
  | nil =>
      refine iff_of_true List.IsChain.nil ?_
      intro i
      exact i.elim0
  | cons ret rest ih =>
      have hfirst := hret ret List.mem_cons_self
      have hrest := ih (base + batch) fun r hr => hret r (List.mem_cons_of_mem _ hr)
      rw [shortOnlyAtEnds_cons]
      by_cases hpos : 0 < ret
      · rw [isChain_sentSeqs_cons hpos hfirst, hrest, sentSeqs_eq_nil_iff]
        have hnot : ¬ ret ≤ 0 := by omega
        simp only [hnot, false_or, false_and]
        exact shortOnlyAtEnds_after hfirst rest
      · -- A turn that sends nothing, with nothing sent before, changes nothing.
        have hzero : ret.toNat = 0 := by omega
        have hle : ret ≤ 0 := by omega
        rw [sentSeqs, hzero, List.range'_zero, List.nil_append, hrest]
        simp only [hle, true_and, true_or, implies_true]
        rfl

/-! ## What the server shows -/

/-- **Phantom loss on the socket path.**  A client thread runs through turns with any
results of `sendmmsg`, and one worker receives everything that was sent, once and in
order, in any batches.  If short turns are at the ends only, the worker shows no drops.
As long as the sequence numbers do not wrap, it shows none in this case only. -/
theorem refused_shown_as_drops (len serverLen : ℕ) (sid ppsPerThread : UInt64) (now : ℕ)
    (turns : List SendTurn) (hret : ∀ turn ∈ turns, -1 ≤ turn.ret ∧ turn.ret ≤ 64)
    (batches : List (List Datagram)) (hbatch : ∀ arrived ∈ batches, arrived.length ≤ batch)
    (hdelivered : batches.flatten = UdpThread.sent len sid ppsPerThread now turns) :
    (ShortOnlyAtEnds (turns.map SendTurn.ret) → workerDrops serverLen batches = 0) ∧
      (64 * turns.length ≤ 2 ^ 64 → workerDrops serverLen batches = 0 →
        ShortOnlyAtEnds (turns.map SendTurn.ret)) := by
  have hresults : ∀ ret ∈ turns.map SendTurn.ret, ret ≤ batch := by
    intro ret hmem
    obtain ⟨turn, hturn, rfl⟩ := List.mem_map.mp hmem
    exact (hret turn hturn).2
  have hreport : Reports
      ((sentSeqs 0 (turns.map SendTurn.ret)).map fun number => (sid, UInt64.ofNat number))
      (workerDrops serverLen batches) := by
    apply Reports.udp _ _ hbatch
    rw [hdelivered]
    exact UdpThread.header_sent len sid ppsPerThread now turns fun turn h => (hret turn h).2
  constructor
  · intro hends
    exact hreport.drops_eq_zero_of_consecutive ((isChain_sentSeqs_iff 0 hresults).mpr hends)
  · intro hlength hzero
    have hlt : ∀ number ∈ sentSeqs 0 (turns.map SendTurn.ret), number < 2 ^ 64 := by
      intro number hmem
      have h := lt_of_mem_sentSeqs hresults hmem
      rw [Nat.zero_add, List.length_map] at h
      exact h.trans_le hlength
    rw [← isChain_sentSeqs_iff 0 hresults]
    exact (hreport.drops_eq_zero_iff_consecutive (sentSeqs_increasing 0 hresults) hlt).mp hzero

/-- A failed turn, a whole batch and two datagrams at the end: no drops. -/
theorem refused_not_shown_at_ends :
    workerDrops 0 ((UdpThread.sent 0 7 0 0 [⟨-1, 0, 0⟩, ⟨64, 0, 0⟩, ⟨2, 0, 0⟩]).map
      fun datagram => [datagram]) = 0 := by
  have h := refused_shown_as_drops 0 0 7 0 0 [⟨-1, 0, 0⟩, ⟨64, 0, 0⟩, ⟨2, 0, 0⟩] (by simp)
    ((UdpThread.sent 0 7 0 0 [⟨-1, 0, 0⟩, ⟨64, 0, 0⟩, ⟨2, 0, 0⟩]).map fun datagram => [datagram])
    (by simp [batch]) (by simp [← List.flatMap_def])
  exact h.1 (by decide)

/-- Two turns that send one datagram each, both delivered at once: the 63 datagrams the
kernel refused in the first turn are shown as drops. -/
theorem refused_shown_between_short_turns :
    workerDrops 0 [UdpThread.sent 0 7 0 0 [⟨1, 0, 0⟩, ⟨1, 0, 0⟩]] = 63 := by
  have hheaders := UdpThread.header_sent 0 7 0 0 [⟨1, 0, 0⟩, ⟨1, 0, 0⟩] (by decide)
  have hbatch : ∀ arrived ∈ [UdpThread.sent 0 7 0 0 [⟨1, 0, 0⟩, ⟨1, 0, 0⟩]],
      arrived.length ≤ batch := by
    simp [UdpThread.sent, UdpThread.run, UdpThread.turn, UdpThread.length_stampedBufs, batch]
  rw [workerDrops_eq 0 hbatch, List.flatten_singleton, hheaders]
  decide

end RunPerf.Loss
