import RunPerf.Net.Server

/-!
# What the UDP server's counters say

Two consequences of `UdpWorker.apply_run`.

* For streams whose numbers arrive in strictly increasing order the gaps telescope
  to `last - first + 1 - received`, so the loss is exact, whatever the interleaving
  of the streams, the batches and the old contents of the buffers.
* The counters form a commutative monoid under the effect of `fetch_add`, and the
  gaps are a sum over streams.  Hence dividing the streams over several workers,
  each with its own `last_seq`, gives what a single worker gives.
-/

namespace RunPerf.Net

open RunPerf.Lib RunPerf.Receive

/-! ## Streams in order -/

/-- What is missing between the first and the last number of a stream, judged by the
count of those received. -/
def missingBetween : List UInt64 → ℕ
  | [] => 0
  | first :: rest =>
      (rest.getLastD first).toNat - first.toNat + 1 - (first :: rest).length

theorem streamGaps_of_increasing (first : UInt64) (rest : List UInt64)
    (hincreasing : (first :: rest).Pairwise (· < ·)) :
    streamGaps (some first) rest + rest.length + first.toNat = (rest.getLastD first).toNat := by
  induction rest generalizing first with
  | nil => simp [streamGaps]
  | cons seq rest ih =>
      rw [List.pairwise_cons] at hincreasing
      have hlt : first.toNat < seq.toNat :=
        UInt64.lt_iff_toNat_lt.mp (hincreasing.1 seq List.mem_cons_self)
      have hseq := seq.toNat_lt
      have hrest := ih seq hincreasing.2
      rw [streamGaps, gap_some (by omega), List.length_cons, List.getLastD_cons]
      omega

theorem streamGaps_none_of_increasing (seqs : List UInt64) (h : seqs.Pairwise (· < ·)) :
    streamGaps none seqs = missingBetween seqs := by
  cases seqs with
  | nil => rfl
  | cons first rest =>
      have htelescope := streamGaps_of_increasing first rest h
      rw [streamGaps, gap, missingBetween, List.length_cons]
      omega

/-- **Loss accounting is exact for in-order streams.**  The final counters of a worker
are the number of datagrams, the sum of their lengths and, summed over the streams
seen, what is missing between the first and the last number; all modulo `2 ^ 64`. -/
theorem worker_counters_of_increasing (len : ℕ) (batches : List (List Datagram))
    (hbatch : ∀ arrived ∈ batches, 1 ≤ arrived.length ∧ arrived.length ≤ batch)
    (hfit : ∀ arrived ∈ batches, ∀ datagram ∈ arrived, datagram.length ≤ bufSize len)
    (hincreasing : ∀ sid,
      (seqsOf sid (batches.flatten.filterMap (header 0))).Pairwise (· < ·)) :
    Counters.zero.applyAll ((UdpWorker.new len).run batches).2 =
      { bytes := UInt64.ofNat (batches.flatten.map List.length).sum
        packets := UInt64.ofNat batches.flatten.length
        drops := UInt64.ofNat
          (∑ sid ∈ ((batches.flatten.filterMap (header 0)).map Prod.fst).toFinset,
            missingBetween (seqsOf sid (batches.flatten.filterMap (header 0)))) } := by
  rw [UdpWorker.apply_run _ _ fun arrived h => (hbatch arrived h).2]
  have hlength : (batches.flatten.map fun datagram => min datagram.length (bufSize len)) =
      batches.flatten.map List.length := by
    apply List.map_congr_left
    intro datagram hmem
    obtain ⟨arrived, harrived, hdatagram⟩ := List.mem_flatten.mp hmem
    exact Nat.min_eq_left (hfit arrived harrived datagram hdatagram)
  have hgaps := gapTotal_eq_sum
    ((batches.flatten.filterMap (header 0)).map Prod.fst).toFinset
    (UdpWorker.new len).lastSeq (batches.flatten.filterMap (header 0))
    (fun h hh => List.mem_toFinset.mpr (List.mem_map_of_mem hh))
  have hstreams : ∀ sid, streamGaps ((UdpWorker.new len).lastSeq sid)
      (seqsOf sid (batches.flatten.filterMap (header 0))) =
        missingBetween (seqsOf sid (batches.flatten.filterMap (header 0))) :=
    fun sid => streamGaps_none_of_increasing _ (hincreasing sid)
  rw [hlength, hgaps, Finset.sum_congr rfl fun sid _ => hstreams sid]
  simp [Counters.add, Counters.zero]

/-- Two datagrams of stream 7, numbered 0 and 3, received in two batches: two are
missing. -/
theorem worker_counters_of_two_batches :
    Counters.zero.applyAll ((UdpWorker.new 0).run
      [[toLeBytes 7 ++ toLeBytes 0], [toLeBytes 7 ++ toLeBytes 3]]).2 = ⟨32, 2, 2⟩ := by
  have hheader : ∀ sid seq, header 0 (toLeBytes sid ++ toLeBytes seq) = some (sid, seq) := by
    intro sid seq
    simpa using header_stamped [] rfl sid seq []
  have hheaders : [[toLeBytes 7 ++ toLeBytes 0], [toLeBytes 7 ++ toLeBytes 3]].flatten.filterMap
      (header 0) = [(7, 0), (7, 3)] := by
    simp [hheader]
  rw [worker_counters_of_increasing]
  · rw [hheaders]
    decide
  · simp [batch]
  · simp [bufSize]
  · intro sid
    rw [hheaders]
    by_cases hsid : sid = 7
    · subst hsid
      decide
    · simp [seqsOf, Ne.symm hsid]

/-! ## Several workers -/

instance : Zero Counters := ⟨Counters.zero⟩

/-- Componentwise wrapping addition. -/
instance : Add Counters :=
  ⟨fun c d => ⟨c.bytes + d.bytes, c.packets + d.packets, c.drops + d.drops⟩⟩

theorem counters_add (c d : Counters) :
    c + d = ⟨c.bytes + d.bytes, c.packets + d.packets, c.drops + d.drops⟩ := rfl

theorem counters_zero : (0 : Counters) = ⟨0, 0, 0⟩ := rfl

/-- The effects of `fetch_add`s commute. -/
instance : AddCommMonoid Counters where
  add_assoc c d e := by simp only [counters_add, UInt64.add_assoc]
  zero_add c := by simp [counters_add, counters_zero]
  add_zero c := by simp [counters_add, counters_zero]
  add_comm c d := by simp only [counters_add, UInt64.add_comm]
  nsmul := nsmulRec

/-- What a single operation adds. -/
def amount : CounterOp → Counters
  | .bytes n => ⟨n, 0, 0⟩
  | .packets n => ⟨0, n, 0⟩
  | .drops n => ⟨0, 0, n⟩

theorem applyAll_eq_add_sum (c : Counters) (ops : List CounterOp) :
    c.applyAll ops = c + (ops.map amount).sum := by
  induction ops generalizing c with
  | nil => simp [Counters.applyAll]
  | cons op rest ih =>
      have hop : c.apply op = c + amount op := by
        cases op <;> simp [Counters.apply, amount, counters_add]
      have hrest := ih (c.apply op)
      simp only [Counters.applyAll, List.foldl_cons, List.map_cons, List.sum_cons] at hrest ⊢
      rw [hrest, hop, add_assoc]

theorem applyAll_zero (ops : List CounterOp) :
    Counters.zero.applyAll ops = (ops.map amount).sum := by
  rw [applyAll_eq_add_sum]
  exact zero_add _

theorem sum_add_zero {W : Type*} (workers : Finset W) (b p d : W → ℕ) :
    ∑ w ∈ workers, Counters.zero.add (b w) (p w) (d w) =
      Counters.zero.add (∑ w ∈ workers, b w) (∑ w ∈ workers, p w) (∑ w ∈ workers, d w) := by
  classical
  induction workers using Finset.induction_on with
  | empty => simp [Counters.add, Counters.zero, counters_zero]
  | insert w rest hnot ih =>
      rw [Finset.sum_insert hnot, Finset.sum_insert hnot, Finset.sum_insert hnot,
        Finset.sum_insert hnot, ih]
      simp [Counters.add, Counters.zero, counters_add, UInt64.ofNat_add]

/-- The headers of the datagrams that go to one worker are those of its streams. -/
theorem seqsOf_itemsOf {W : Type*} [DecidableEq W] (assign : UInt64 → W)
    (arrivals : List (W × Datagram))
    (hassign : ∀ arrival ∈ arrivals, ∀ h, header 0 arrival.2 = some h → arrival.1 = assign h.1)
    (w : W) (sid : UInt64) :
    seqsOf sid ((itemsOf w arrivals).filterMap (header 0)) =
      if assign sid = w then seqsOf sid ((arrivals.map Prod.snd).filterMap (header 0)) else [] := by
  induction arrivals with
  | nil => simp [seqsOf]
  | cons arrival rest ih =>
      have hrest := ih fun a ha => hassign a (List.mem_cons_of_mem _ ha)
      have hfirst := hassign arrival List.mem_cons_self
      rw [itemsOf_cons]
      cases hheader : header 0 arrival.2 with
      | none => split <;> simp [hheader, hrest]
      | some h =>
          have hworker := hfirst h hheader
          rw [List.map_cons, List.filterMap_cons, hheader, seqsOf_cons]
          by_cases hsid : h.1 = sid
          · -- The stream of the first arrival gains its number, at its own worker only.
            subst hsid
            rw [if_pos rfl]
            by_cases hw : assign h.1 = w
            · rw [if_pos hw] at hrest ⊢
              rw [if_pos (hworker.trans hw), List.filterMap_cons, hheader, seqsOf_cons, if_pos rfl,
                hrest]
            · rw [if_neg hw] at hrest ⊢
              rw [if_neg fun heq => hw (hworker.symm.trans heq), hrest]
          · rw [if_neg hsid]
            split
            · rw [List.filterMap_cons, hheader, seqsOf_cons, if_neg hsid, hrest]
            · exact hrest

/-- The gaps of all workers together are the gaps of a single one. -/
theorem sum_gapTotal_itemsOf {W : Type*} [Fintype W] [DecidableEq W] (assign : UInt64 → W)
    (arrivals : List (W × Datagram))
    (hassign : ∀ arrival ∈ arrivals, ∀ h, header 0 arrival.2 = some h → arrival.1 = assign h.1) :
    ∑ w, gapTotal LastSeq.new ((itemsOf w arrivals).filterMap (header 0)) =
      gapTotal LastSeq.new ((arrivals.map Prod.snd).filterMap (header 0)) := by
  let headers := (arrivals.map Prod.snd).filterMap (header 0)
  let streams := (headers.map Prod.fst).toFinset
  have hall : ∀ h ∈ headers, h.1 ∈ streams := fun h hh =>
    List.mem_toFinset.mpr (List.mem_map_of_mem hh)
  have hpart : ∀ w, ∀ h ∈ (itemsOf w arrivals).filterMap (header 0), h.1 ∈ streams := by
    intro w h hh
    apply hall
    obtain ⟨datagram, hmem, hheader⟩ := List.mem_filterMap.mp hh
    obtain ⟨arrival, harrival, rfl⟩ := List.mem_map.mp hmem
    exact List.mem_filterMap.mpr
      ⟨arrival.2, List.mem_map_of_mem (List.mem_filter.mp harrival).1, hheader⟩
  calc ∑ w, gapTotal LastSeq.new ((itemsOf w arrivals).filterMap (header 0))
      = ∑ w, ∑ sid ∈ streams,
          streamGaps none (seqsOf sid ((itemsOf w arrivals).filterMap (header 0))) :=
        Finset.sum_congr rfl fun w _ => gapTotal_eq_sum streams _ _ (hpart w)
    _ = ∑ sid ∈ streams, ∑ w,
          streamGaps none (seqsOf sid ((itemsOf w arrivals).filterMap (header 0))) :=
        Finset.sum_comm
    _ = ∑ sid ∈ streams, streamGaps none (seqsOf sid headers) := by
        apply Finset.sum_congr rfl
        intro sid _
        -- Of the workers only the one the stream is assigned to sees it.
        rw [Finset.sum_eq_single (assign sid)]
        · rw [seqsOf_itemsOf assign arrivals hassign, if_pos rfl]
        · intro w _ hne
          rw [seqsOf_itemsOf assign arrivals hassign, if_neg hne.symm]
          rfl
        · intro hnot
          exact absurd (Finset.mem_univ _) hnot
    _ = gapTotal LastSeq.new headers := (gapTotal_eq_sum streams _ _ hall).symm

/-- **What the workers add up to**, however the datagrams are spread over them, cut into
batches, and however the `fetch_add`s of the workers interleave. -/
theorem workers_counters {W : Type*} [Fintype W] [DecidableEq W] (len : ℕ)
    (arrivals : List (W × Datagram)) {batches : W → List (List Datagram)}
    (hbatch : ∀ w, ∀ arrived ∈ batches w, arrived.length ≤ batch)
    (hcut : ∀ w, (batches w).flatten = itemsOf w arrivals) {schedule : List (W × CounterOp)}
    (hschedule : IsInterleaving (fun w => ((UdpWorker.new len).run (batches w)).2) schedule) :
    Counters.zero.applyAll (schedule.map Prod.snd) =
      Counters.zero.add (arrivals.map fun arrival => min arrival.2.length (bufSize len)).sum
        arrivals.length
        (∑ w, gapTotal LastSeq.new ((itemsOf w arrivals).filterMap (header 0))) := by
  have hworker : ∀ w, ((itemsOf w schedule).map amount).sum =
      Counters.zero.add
        ((itemsOf w arrivals).map fun datagram => min datagram.length (bufSize len)).sum
        ((itemsOf w arrivals).map fun _ => 1).sum
        (gapTotal LastSeq.new ((itemsOf w arrivals).filterMap (header 0))) := by
    intro w
    rw [hschedule w, ← applyAll_zero, UdpWorker.apply_run _ _ (hbatch w), hcut w]
    simp [UdpWorker.new]
  have hsum := sum_itemsOf amount schedule
  rw [applyAll_zero, List.map_map]
  simp only [Function.comp_def]
  rw [hsum, Finset.sum_congr rfl fun w _ => hworker w, sum_add_zero,
    ← sum_itemsOf (fun datagram : Datagram => min datagram.length (bufSize len)),
    ← sum_itemsOf (fun _ : Datagram => 1)]
  simp

/-- **Splitting the receive work over workers does not change the result.**  Every
stream goes to one worker, a datagram without a header to any; each worker cuts what
it receives into batches as it likes, and the `fetch_add`s of the workers interleave in
any order.  The counters end as those of a single worker that receives everything in
order of arrival. -/
theorem workers_counters_eq_single {W : Type*} [Fintype W] [DecidableEq W] (len : ℕ)
    (assign : UInt64 → W) (arrivals : List (W × Datagram))
    (hassign : ∀ arrival ∈ arrivals, ∀ h, header 0 arrival.2 = some h → arrival.1 = assign h.1)
    (batches : W → List (List Datagram))
    (hbatch : ∀ w, ∀ arrived ∈ batches w, arrived.length ≤ batch)
    (hcut : ∀ w, (batches w).flatten = itemsOf w arrivals)
    (schedule : List (W × CounterOp))
    (hschedule : IsInterleaving (fun w => ((UdpWorker.new len).run (batches w)).2) schedule)
    (single : List (List Datagram)) (hsingle : ∀ arrived ∈ single, arrived.length ≤ batch)
    (hflat : single.flatten = arrivals.map Prod.snd) :
    Counters.zero.applyAll (schedule.map Prod.snd) =
      Counters.zero.applyAll ((UdpWorker.new len).run single).2 := by
  rw [workers_counters len arrivals hbatch hcut hschedule,
    sum_gapTotal_itemsOf assign arrivals hassign, UdpWorker.apply_run _ _ hsingle, hflat]
  simp [UdpWorker.new, List.map_map, Function.comp_def]

/-- Two workers, one stream each and a datagram too short for a header. -/
theorem workers_counters_eq_single_two :
    let even := toLeBytes 0 ++ toLeBytes 5
    let odd := toLeBytes 1 ++ toLeBytes 9
    let opsEven := ((UdpWorker.new 0).run [[even, []]]).2
    let opsOdd := ((UdpWorker.new 0).run [[odd]]).2
    Counters.zero.applyAll (opsOdd ++ opsEven) =
      Counters.zero.applyAll ((UdpWorker.new 0).run [[even, odd], [[]]]).2 := by
  intro even odd opsEven opsOdd
  have h := workers_counters_eq_single (W := Bool) 0 (fun sid => sid = 1)
    [(false, even), (true, odd), (false, [])] (by simp [even, odd, header])
    (fun w => if w then [[odd]] else [[even, []]]) (by simp [batch]) (by simp [itemsOf])
    (opsOdd.map (fun op => (true, op)) ++ opsEven.map (fun op => (false, op)))
    (by simp [IsInterleaving, itemsOf, List.filter_map, Function.comp_def, opsOdd, opsEven])
    [[even, odd], [[]]] (by simp [batch]) (by simp)
  simpa [List.map_append, List.map_map, Function.comp_def] using h

end RunPerf.Net
