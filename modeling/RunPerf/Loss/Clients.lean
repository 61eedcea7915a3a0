import RunPerf.Loss.Refused

/-!
# Two clients and one worker

The worker keeps its last numbers by stream id, and every client numbers its threads from
zero.  So the datagrams of two clients that meet in one worker are one stream to it
wherever the thread indices agree: it compares the number of one client with the last
number of the other.

Within the arrivals of a stream, two neighbours of the same client carry consecutive
numbers, because nothing is lost and nothing refused.  What remains are the places where
the client changes.  No drops are shown if the number never jumps ahead at such a place,
and up to `2 ^ 32` datagrams, where the counter cannot wrap, only then.
-/

namespace RunPerf.Loss

open RunPerf.Lib RunPerf.Receive RunPerf.Net

/-- A datagram of the two clients, with the client and the thread that sent it. -/
abbrev Arrival := (Bool × UInt64) × Datagram

/-- The arrivals of one stream: which client, and which number. -/
def streamArrivals (sid : UInt64) : List Arrival → List (Bool × UInt64)
  | [] => []
  | arrival :: rest =>
      if arrival.1.2 = sid then
        ((header 0 arrival.2).toList.map fun h => (arrival.1.1, h.2)) ++ streamArrivals sid rest
      else streamArrivals sid rest

/-- Wherever the client changes within a stream, the number is at most one ahead of the
other client's. -/
def NeverAhead (schedule : List Arrival) : Prop :=
  ∀ sid, (streamArrivals sid schedule).IsChain fun x y => x.1 ≠ y.1 → ¬ y.2 > x.2 + 1

/-! ## A client that is never refused -/

theorem sentSeqs_of_whole (base : ℕ) {results : List ℤ} (h : ∀ ret ∈ results, ret = 64) :
    sentSeqs base results = List.range' base (batch * results.length) := by
  induction results generalizing base with
  | nil => rfl
  | cons ret rest ih =>
      have hbatch : batch = 64 := rfl
      rw [sentSeqs, h ret List.mem_cons_self, ih _ fun r hr => h r (List.mem_cons_of_mem _ hr),
        List.length_cons, Nat.mul_succ, Nat.add_comm (batch * _), hbatch]
      exact List.range'_append_1

/-- What a thread of such a client puts on the wire. -/
theorem header_wire (client : UdpClient) (t : UInt64)
    (hwhole : ∀ turn ∈ client.turns t, turn.ret = 64) :
    ∃ n, (client.wire t).filterMap (header 0) =
      (List.range n).map fun number => (t, UInt64.ofNat number) := by
  unfold UdpClient.wire
  split
  · refine ⟨batch * ((client.turns t).map SendTurn.ret).length, ?_⟩
    have hresults : ∀ ret ∈ (client.turns t).map SendTurn.ret, ret = 64 := by
      intro ret hmem
      obtain ⟨turn, hturn, rfl⟩ := List.mem_map.mp hmem
      exact hwhole turn hturn
    rw [UdpThread.header_sent _ _ _ _ _ fun turn h => (hwhole turn h).le,
      sentSeqs_of_whole 0 hresults, List.range_eq_range']
  · exact ⟨0, rfl⟩

/-! ## The arrivals of a stream -/

/-- Every arrival carries the index of its thread. -/
def Tagged (schedule : List Arrival) : Prop :=
  ∀ arrival ∈ schedule, ∀ h, header 0 arrival.2 = some h → h.1 = arrival.1.2

theorem seqsOf_schedule {schedule : List Arrival} (htagged : Tagged schedule) (sid : UInt64) :
    seqsOf sid ((schedule.map Prod.snd).filterMap (header 0)) =
      (streamArrivals sid schedule).map Prod.snd := by
  induction schedule with
  | nil => rfl
  | cons arrival rest ih =>
      have hrest := ih fun a ha => htagged a (List.mem_cons_of_mem _ ha)
      have hsid := htagged arrival List.mem_cons_self
      rw [List.map_cons, streamArrivals]
      cases hheader : header 0 arrival.2 with
      | none =>
          rw [List.filterMap_cons_none hheader, hrest]
          split <;> rfl
      | some h =>
          rw [List.filterMap_cons_some hheader, ← hsid h hheader, seqsOf_cons, hrest]
          split <;> rfl

theorem itemsOf_streamArrivals (client : Bool) (sid : UInt64) (schedule : List Arrival) :
    itemsOf client (streamArrivals sid schedule) =
      ((itemsOf (client, sid) schedule).filterMap (header 0)).map Prod.snd := by
  induction schedule with
  | nil => rfl
  | cons arrival rest ih =>
      obtain ⟨⟨sender, t⟩, datagram⟩ := arrival
      rw [streamArrivals, itemsOf_cons]
      by_cases ht : t = sid
      · by_cases hsender : sender = client
        · cases hheader : header 0 datagram with
          | none => simp [ht, hsender, hheader, ih]
          | some h => simp [ht, hsender, hheader, itemsOf_cons, ih]
        · cases hheader : header 0 datagram with
          | none => simp [ht, hsender, ih]
          | some h => simp [ht, hsender, itemsOf_cons, ih]
      · simp [ht, ih]

section Clients

variable {clients : Bool → UdpClient} {schedule : List Arrival}

/-- Each thread's arrivals are numbered from zero on. -/
theorem header_itemsOf (hwhole : ∀ c t, ∀ turn ∈ (clients c).turns t, turn.ret = 64)
    (hschedule : IsInterleaving (fun party => (clients party.1).wire party.2) schedule)
    (party : Bool × UInt64) :
    ∃ n, (itemsOf party schedule).filterMap (header 0) =
      (List.range n).map fun number => (party.2, UInt64.ofNat number) := by
  rw [hschedule party]
  exact header_wire (clients party.1) party.2 (hwhole party.1 party.2)

theorem header_of_mem (hwhole : ∀ c t, ∀ turn ∈ (clients c).turns t, turn.ret = 64)
    (hschedule : IsInterleaving (fun party => (clients party.1).wire party.2) schedule)
    {arrival : Arrival} (hmem : arrival ∈ schedule) {h : UInt64 × UInt64}
    (hheader : header 0 arrival.2 = some h) :
    h.1 = arrival.1.2 ∧ h.2.toNat < schedule.length := by
  obtain ⟨n, hn⟩ := header_itemsOf hwhole hschedule arrival.1
  have hitem : arrival.2 ∈ itemsOf arrival.1 schedule :=
    List.mem_map_of_mem (List.mem_filter.mpr ⟨hmem, by simp⟩)
  have hmapped : h ∈ (itemsOf arrival.1 schedule).filterMap (header 0) :=
    List.mem_filterMap.mpr ⟨arrival.2, hitem, hheader⟩
  have hcount : n ≤ schedule.length := by
    calc n = ((itemsOf arrival.1 schedule).filterMap (header 0)).length := by simp [hn]
      _ ≤ (itemsOf arrival.1 schedule).length := List.length_filterMap_le _ _
      _ ≤ schedule.length := by
        rw [itemsOf, List.length_map]
        exact List.length_filter_le _ _
  rw [hn] at hmapped
  obtain ⟨number, hnumber, rfl⟩ := List.mem_map.mp hmapped
  have hlt := List.mem_range.mp hnumber
  refine ⟨rfl, ?_⟩
  show (UInt64.ofNat number).toNat < _
  rw [UInt64.toNat_ofNat']
  exact ((Nat.mod_le _ _).trans_lt hlt).trans_le hcount

/-- Neighbours of one client within a stream are consecutive. -/
theorem consecutive_of_same_client
    (hwhole : ∀ c t, ∀ turn ∈ (clients c).turns t, turn.ret = 64)
    (hschedule : IsInterleaving (fun party => (clients party.1).wire party.2) schedule)
    (sid : UInt64) :
    (streamArrivals sid schedule).IsChain fun x y => x.1 = y.1 → y.2 = x.2 + 1 := by
  apply isChain_of_itemsOf (R := fun x y : UInt64 => y = x + 1)
  intro client
  obtain ⟨n, hn⟩ := header_itemsOf hwhole hschedule (client, sid)
  rw [itemsOf_streamArrivals, hn, List.map_map, List.isChain_map, List.range_eq_range']
  apply (List.isChain_range' 0 n 1).imp
  rintro x y rfl
  simp [UInt64.ofNat_add]

end Clients

/-! ## How large the drops can get -/

/-- With numbers up to `top`, a packet adds at most `top`. -/
theorem gapTotal_le {top : ℕ} (htop : top + 1 < 2 ^ 64) (lastSeq : LastSeq)
    (hlast : ∀ sid prev, lastSeq sid = some prev → prev.toNat ≤ top)
    (headers : List (UInt64 × UInt64)) (hheaders : ∀ h ∈ headers, h.2.toNat ≤ top) :
    gapTotal lastSeq headers ≤ headers.length * top := by
  induction headers generalizing lastSeq with
  | nil => simp [gapTotal]
  | cons h rest ih =>
      have hfirst := hheaders h List.mem_cons_self
      have hgap : gap (lastSeq h.1) h.2 ≤ top := by
        cases hprev : lastSeq h.1 with
        | none => exact Nat.zero_le _
        | some prev =>
            have hle := hlast h.1 prev hprev
            rw [gap_some (by omega)]
            omega
      have hrest := ih (Function.update lastSeq h.1 (some h.2))
        (by
          intro sid prev hprev
          by_cases hsid : sid = h.1
          · subst hsid
            rw [Function.update_self, Option.some.injEq] at hprev
            rw [← hprev]
            exact hfirst
          · rw [Function.update_of_ne hsid] at hprev
            exact hlast sid prev hprev)
        fun g hg => hheaders g (List.mem_cons_of_mem _ hg)
      rw [gapTotal, List.length_cons, Nat.succ_mul]
      omega

theorem gapTotal_lt_of_arrivals {clients : Bool → UdpClient} {schedule : List Arrival}
    (hwhole : ∀ c t, ∀ turn ∈ (clients c).turns t, turn.ret = 64)
    (hschedule : IsInterleaving (fun party => (clients party.1).wire party.2) schedule)
    (hshort : schedule.length * schedule.length ≤ 2 ^ 64) :
    gapTotal LastSeq.new ((schedule.map Prod.snd).filterMap (header 0)) < 2 ^ 64 := by
  cases hlength : schedule.length with
  | zero => simp [List.length_eq_zero_iff.mp hlength, gapTotal]
  | succ top =>
      rw [hlength] at hshort
      have htop : top + 1 < 2 ^ 64 := by
        by_contra hlarge
        have hsquare := Nat.mul_le_mul (not_lt.mp hlarge) (not_lt.mp hlarge)
        omega
      have hheaders : ∀ h ∈ (schedule.map Prod.snd).filterMap (header 0), h.2.toNat ≤ top := by
        intro h hh
        obtain ⟨datagram, hmem, hheader⟩ := List.mem_filterMap.mp hh
        obtain ⟨arrival, harrival, rfl⟩ := List.mem_map.mp hmem
        have hlt := (header_of_mem hwhole hschedule harrival hheader).2
        omega
      have hcount : ((schedule.map Prod.snd).filterMap (header 0)).length ≤ top + 1 := by
        have hle := List.length_filterMap_le (header 0) (schedule.map Prod.snd)
        rwa [List.length_map, hlength] at hle
      calc gapTotal LastSeq.new ((schedule.map Prod.snd).filterMap (header 0))
          ≤ ((schedule.map Prod.snd).filterMap (header 0)).length * top :=
            gapTotal_le htop _ (by simp [LastSeq.new]) _ hheaders
        _ ≤ (top + 1) * top := Nat.mul_le_mul_right _ hcount
        _ < (top + 1) * (top + 1) :=
            Nat.mul_lt_mul_of_pos_left (Nat.lt_succ_self _) (Nat.succ_pos _)
        _ ≤ 2 ^ 64 := hshort

/-! ## What the worker shows -/

/-- The gaps, summed over any streams that include all that arrived. -/
theorem gapTotal_schedule {schedule : List Arrival} (htagged : Tagged schedule)
    (streams : Finset UInt64)
    (hall : ∀ h ∈ (schedule.map Prod.snd).filterMap (header 0), h.1 ∈ streams) :
    gapTotal LastSeq.new ((schedule.map Prod.snd).filterMap (header 0)) =
      ∑ sid ∈ streams, streamGaps none ((streamArrivals sid schedule).map Prod.snd) := by
  rw [gapTotal_eq_sum streams _ _ hall]
  apply Finset.sum_congr rfl
  intro sid _
  rw [← seqsOf_schedule htagged]
  rfl

/-- **Two clients at one worker.**  Let two clients run with any number of threads, no send
refused, and let everything they send arrive at one worker in some interleaving, in any
batches.  If in no stream the number jumps ahead where the client changes, the worker
shows no drops.  As long as the drops cannot wrap, it shows none in this case only. -/
theorem clients_disturb_drops (clients : Bool → UdpClient)
    (hwhole : ∀ c t, ∀ turn ∈ (clients c).turns t, turn.ret = 64) (schedule : List Arrival)
    (hschedule : IsInterleaving (fun party => (clients party.1).wire party.2) schedule)
    (serverLen : ℕ) (batches : List (List Datagram))
    (hbatch : ∀ arrived ∈ batches, arrived.length ≤ batch)
    (harrived : batches.flatten = schedule.map Prod.snd) :
    (NeverAhead schedule → workerDrops serverLen batches = 0) ∧
      (schedule.length * schedule.length ≤ 2 ^ 64 → workerDrops serverLen batches = 0 →
        NeverAhead schedule) := by
  let headers := (schedule.map Prod.snd).filterMap (header 0)
  let streams := (headers.map Prod.fst).toFinset
  have hall : ∀ h ∈ headers, h.1 ∈ streams := fun h hh =>
    List.mem_toFinset.mpr (List.mem_map_of_mem hh)
  have htagged : Tagged schedule := fun arrival hmem h hheader =>
    (header_of_mem hwhole hschedule hmem hheader).1
  have hdrops : workerDrops serverLen batches = UInt64.ofNat (gapTotal LastSeq.new headers) := by
    rw [workerDrops_eq serverLen hbatch, harrived]
  constructor
  · intro hnever
    have hzero : ∀ sid ∈ streams,
        streamGaps none ((streamArrivals sid schedule).map Prod.snd) = 0 := by
      intro sid _
      have hsame := consecutive_of_same_client hwhole hschedule sid
      have hother := hnever sid
      rw [streamGaps_eq_zero_iff, List.isChain_map]
      rw [List.isChain_iff_getElem] at hsame hother ⊢
      intro i hi
      -- The neighbours are of one client and consecutive, or of two and not ahead.
      by_cases hclient : (streamArrivals sid schedule)[i].1 = (streamArrivals sid schedule)[i + 1].1
      · rw [hsame i hi hclient]
        exact UInt64.lt_irrefl _
      · exact hother i hi hclient
    rw [hdrops, gapTotal_schedule htagged streams hall, Finset.sum_eq_zero hzero]
    rfl
  · intro hshort hzero sid
    have hsmall := gapTotal_lt_of_arrivals hwhole hschedule hshort
    have hgaps : gapTotal LastSeq.new headers = 0 := by
      have htoNat := congrArg UInt64.toNat (hdrops.symm.trans hzero)
      rwa [UInt64.toNat_ofNat', Nat.mod_eq_of_lt hsmall] at htoNat
    have hsum := gapTotal_schedule htagged (insert sid streams) fun h hh =>
      Finset.mem_insert_of_mem (hall h hh)
    have hstream := Finset.sum_eq_zero_iff.mp (hsum.symm.trans hgaps) sid
      (Finset.mem_insert_self _ _)
    rw [streamGaps_eq_zero_iff, List.isChain_map] at hstream
    exact hstream.imp fun _ _ hnot _ => hnot

/-- A client with one thread that sends a single batch. -/
def oneBatch : UdpClient := ⟨1, 0, 0, fun _ => 0, fun _ => [⟨64, 0, 0⟩]⟩

/-- An order of two such clients in which only thread 0 appears is an interleaving if it
has each client's batch in order. -/
theorem isInterleaving_oneBatch {schedule : List Arrival}
    (h : ∀ client, itemsOf (client, 0) schedule = oneBatch.wire 0)
    (hzero : ∀ arrival ∈ schedule, arrival.1.2 = 0) :
    IsInterleaving (fun party => oneBatch.wire party.2) schedule := by
  rintro ⟨client, t⟩
  by_cases ht : t = 0
  · subst ht
    exact h client
  · have hnot : ¬ t < oneBatch.threads := by
      intro hlt
      have htoNat : t.toNat < 1 := UInt64.lt_iff_toNat_lt.mp hlt
      apply ht
      rw [← UInt64.toNat_inj, UInt64.toNat_zero]
      omega
    have hnone : itemsOf (client, t) schedule = [] := by
      rw [itemsOf, List.map_eq_nil_iff, List.filter_eq_nil_iff]
      intro arrival hmem heq
      have hparty : arrival.1 = (client, t) := of_decide_eq_true heq
      exact ht (by rw [← hzero arrival hmem, hparty])
    rw [hnone]
    exact (if_neg hnot).symm

theorem streamArrivals_eq_nil {sid : UInt64} {schedule : List Arrival}
    (h : ∀ arrival ∈ schedule, arrival.1.2 ≠ sid) : streamArrivals sid schedule = [] := by
  induction schedule with
  | nil => rfl
  | cons arrival rest ih =>
      rw [streamArrivals, if_neg (h arrival List.mem_cons_self)]
      exact ih fun a ha => h a (List.mem_cons_of_mem _ ha)

/-- The second client's batch arrives after the first client's: no drops. -/
theorem clients_undisturbed_in_turn :
    workerDrops 0 ((oneBatch.wire 0 ++ oneBatch.wire 0).map fun datagram => [datagram]) = 0 := by
  let schedule : List Arrival := (oneBatch.wire 0).map (Prod.mk (false, 0)) ++
    (oneBatch.wire 0).map (Prod.mk (true, 0))
  have hzero : ∀ arrival ∈ schedule, arrival.1.2 = 0 := by
    intro arrival hmem
    rcases List.mem_append.mp hmem with h | h
    · obtain ⟨_, _, rfl⟩ := List.mem_map.mp h
      rfl
    · obtain ⟨_, _, rfl⟩ := List.mem_map.mp h
      rfl
  have hnever : NeverAhead schedule := by
    intro sid
    by_cases hsid : sid = 0
    · subst hsid
      decide +kernel
    · rw [streamArrivals_eq_nil fun arrival hmem heq => hsid (heq.symm.trans (hzero arrival hmem))]
      exact .nil
  refine (clients_disturb_drops (fun _ => oneBatch) (by simp [oneBatch]) schedule
    (isInterleaving_oneBatch ?_ hzero) 0 _ (by simp [batch]) ?_).1 hnever
  · intro client
    cases client <;> simp [schedule]
  · simp [schedule, ← List.flatMap_def]

/-- The first datagram of the second client arrives after two of the first client's: the
first client's third datagram is taken for one that skips a number. -/
theorem clients_disturbed_when_mixed :
    let wire := oneBatch.wire 0
    let schedule : List Arrival := (wire.take 2).map (Prod.mk (false, 0)) ++
      (wire.take 1).map (Prod.mk (true, 0)) ++ (wire.drop 2).map (Prod.mk (false, 0)) ++
      (wire.drop 1).map (Prod.mk (true, 0))
    IsInterleaving (fun party => oneBatch.wire party.2) schedule ∧
      workerDrops 0 (schedule.map fun arrival => [arrival.2]) = 1 := by
  intro wire schedule
  constructor
  · apply isInterleaving_oneBatch
    · intro client
      simp only [schedule, itemsOf_append, itemsOf_map_mk]
      cases client <;> simp [wire, -List.drop_one]
    · simp only [schedule, List.mem_append, List.mem_map]
      rintro arrival (((⟨_, _, rfl⟩ | ⟨_, _, rfl⟩) | ⟨_, _, rfl⟩) | ⟨_, _, rfl⟩) <;> rfl
  · have hbatch : ∀ arrived ∈ schedule.map fun arrival => [arrival.2], arrived.length ≤ batch := by
      intro arrived hmem
      obtain ⟨arrival, _, rfl⟩ := List.mem_map.mp hmem
      exact (by decide : 1 ≤ batch)
    rw [workerDrops_eq 0 hbatch]
    decide +kernel

end RunPerf.Loss
