import RunPerf.Net.ClientAccounting

/-!
# Where the numbers of a test go

A thread of `udp_client` stamps 64 numbers for every batch.  Each of them is refused by the
kernel, or lost on the way, or received; the server sees of it what lies between the first and
the last number that it received of a stream.  So for a network that keeps the order within a
stream

  `received + drops + unseen = stamped = sent + refused`

where `unseen` counts the numbers in front of the first and behind the last one received.  The
drops that a server reports are what the network lost together with what the kernel refused, less
what is unseen.
-/

namespace RunPerf.Loss

open RunPerf.Lib RunPerf.Receive RunPerf.Net

/-! ## One stream -/

/-- Of the numbers below `n`, those in front of the first and behind the last of `seqs`. -/
def unseen (n : ℕ) : List UInt64 → ℕ
  | [] => n
  | first :: rest => first.toNat + (n - 1 - (rest.getLastD first).toNat)

theorem missingBetween_add_unseen {n : ℕ} {seqs : List UInt64} (h : seqs.Pairwise (· < ·))
    (hlt : ∀ seq ∈ seqs, seq.toNat < n) :
    seqs.length + missingBetween seqs + unseen n seqs = n := by
  cases seqs with
  | nil => simp [missingBetween, unseen]
  | cons first rest =>
      have hgaps := streamGaps_of_increasing first rest h
      have hlast : (rest.getLastD first).toNat < n :=
        hlt _ List.getLastD_mem_cons
      rw [missingBetween, unseen, List.length_cons]
      omega

/-! ## The threads of a client -/

section Client

variable (client : UdpClient)

def threadIds : Finset UInt64 := (Finset.range client.threads.toNat).image UInt64.ofNat

/-- The numbers that a thread has used up. -/
def stampedBy (t : UInt64) : ℕ := batch * (client.turns t).length

/-- The datagrams of a thread that `sendmmsg` did not take. -/
def refusedBy (t : UInt64) : ℕ := ((client.turns t).map fun turn => batch - turn.ret.toNat).sum

theorem mem_threadIds {t : UInt64} : t ∈ threadIds client ↔ t < client.threads := by
  simp only [threadIds, Finset.mem_image, Finset.mem_range]
  constructor
  · rintro ⟨i, hi, rfl⟩
    have hthreads := client.threads.toNat_lt
    rw [UInt64.lt_iff_toNat_lt, UInt64.toNat_ofNat_of_lt' (show i < 2 ^ 64 by omega)]
    exact hi
  · intro hlt
    exact ⟨t.toNat, UInt64.lt_iff_toNat_lt.mp hlt, UInt64.ofNat_toNat⟩

theorem length_sentSeqs (base : ℕ) (results : List ℤ) :
    (sentSeqs base results).length = (results.map Int.toNat).sum := by
  induction results generalizing base with
  | nil => rfl
  | cons ret rest ih => simp [sentSeqs, ih]

variable {client}

theorem taken_add_refusedBy (h : client.Answered) (t : UInt64) :
    ((client.turns t).map fun turn => turn.ret.toNat).sum + refusedBy client t =
      stampedBy client t := by
  have hret := h t
  unfold refusedBy stampedBy
  generalize client.turns t = turns at hret
  induction turns with
  | nil => rfl
  | cons turn rest ih =>
      have hfirst := hret turn List.mem_cons_self
      have hrest := ih fun turn hturn => hret turn (List.mem_cons_of_mem _ hturn)
      have hbatch : batch = 64 := rfl
      simp only [List.map_cons, List.sum_cons, List.length_cons, Nat.mul_succ]
      omega

/-- Every datagram of a thread has a number. -/
theorem length_seqsOf {t : UInt64} {datagrams : List Datagram}
    (h : ∀ datagram ∈ datagrams, ∃ seq, header 0 datagram = some (t, seq)) :
    (seqsOf t (datagrams.filterMap (header 0))).length = datagrams.length := by
  induction datagrams with
  | nil => rfl
  | cons datagram rest ih =>
      obtain ⟨seq, hheader⟩ := h datagram List.mem_cons_self
      have hrest := ih fun other hother => h other (List.mem_cons_of_mem _ hother)
      rw [List.filterMap_cons, hheader, seqsOf_cons, if_pos rfl, List.length_cons, hrest,
        List.length_cons]

theorem header_of_mem_wire {t : UInt64} {datagram : Datagram} (h : datagram ∈ client.wire t) :
    ∃ seq, header 0 datagram = some (t, seq) := by
  obtain ⟨hlength, hsid⟩ := UdpClient.shape_of_mem_wire h
  exact UdpThread.exists_header hlength hsid

/-- What a thread puts on the wire and what is refused are its numbers. -/
theorem length_wire_add_refusedBy (h : client.Answered) {t : UInt64} (ht : t < client.threads) :
    (client.wire t).length + refusedBy client t = stampedBy client t := by
  have hlength : (seqsOf t ((client.wire t).filterMap (header 0))).length =
      (client.wire t).length :=
    length_seqsOf fun datagram hmem => header_of_mem_wire hmem
  rw [UdpClient.seqsOf_wire h, if_pos ht, List.length_map, length_sentSeqs, List.map_map] at hlength
  rw [← hlength]
  exact taken_add_refusedBy h t

theorem lt_stampedBy (h : client.Answered) {t seq : UInt64}
    (hmem : seq ∈ seqsOf t ((client.wire t).filterMap (header 0))) :
    seq.toNat < stampedBy client t := by
  rw [UdpClient.seqsOf_wire h] at hmem
  split at hmem
  · obtain ⟨number, hnumber, rfl⟩ := List.mem_map.mp hmem
    have hlt := lt_of_mem_sentSeqs (fun ret hret => by
      obtain ⟨turn, hturn, rfl⟩ := List.mem_map.mp hret
      exact h.ret_le t turn hturn) hnumber
    rw [List.length_map, Nat.zero_add] at hlt
    rw [UInt64.toNat_ofNat']
    exact (Nat.mod_le _ _).trans_lt hlt
  · cases hmem

end Client

/-! ## What arrives -/

section Arrived

variable {client : UdpClient} {onWire arrived : List (UInt64 × Datagram)}

/-- The numbers of a stream in order of their arrival. -/
def arrivedSeqs (arrived : List (UInt64 × Datagram)) (t : UInt64) : List UInt64 :=
  seqsOf t ((itemsOf t arrived).filterMap (header 0))

theorem arrivedSeqs_sublist (hlossy : ∀ t, (itemsOf t arrived).Sublist (client.wire t))
    (t : UInt64) :
    (arrivedSeqs arrived t).Sublist (seqsOf t ((client.wire t).filterMap (header 0))) :=
  (((hlossy t).filterMap _).filter _).map _

/-- Nothing arrives that is not from one of the threads. -/
theorem mem_of_arrived (hlossy : ∀ t, (itemsOf t arrived).Sublist (client.wire t))
    {arrival : UInt64 × Datagram} (h : arrival ∈ arrived) :
    arrival.2 ∈ client.wire arrival.1 := by
  refine (hlossy arrival.1).subset ?_
  exact List.mem_map.mpr ⟨arrival, List.mem_filter.mpr ⟨h, by simp⟩, rfl⟩

theorem lt_threads_of_arrived (hlossy : ∀ t, (itemsOf t arrived).Sublist (client.wire t))
    {arrival : UInt64 × Datagram} (h : arrival ∈ arrived) : arrival.1 < client.threads := by
  by_contra hge
  have hmem := mem_of_arrived hlossy h
  rw [UdpClient.wire, if_neg hge] at hmem
  cases hmem

theorem arrivedSeqs_increasing (h : client.Answered) (hwire : IsInterleaving client.wire onWire)
    (hlossy : ∀ t, (itemsOf t arrived).Sublist (client.wire t)) {t : UInt64}
    (hfit : stampedBy client t < 2 ^ 64) : (arrivedSeqs arrived t).Pairwise (· < ·) := by
  have hbatch : batch = 64 := rfl
  rw [stampedBy, hbatch] at hfit
  have hincreasing := UdpClient.seqsOf_increasing h hwire
    (show (client.turns t).length ≤ _ by omega)
  rw [UdpClient.seqsOf_onWire hwire] at hincreasing
  exact hincreasing.sublist (arrivedSeqs_sublist hlossy t)

/-- The numbers of one thread: received, between two received, or unseen. -/
theorem arrived_add_unseen (h : client.Answered) (hwire : IsInterleaving client.wire onWire)
    (hlossy : ∀ t, (itemsOf t arrived).Sublist (client.wire t)) {t : UInt64}
    (hfit : stampedBy client t < 2 ^ 64) :
    (itemsOf t arrived).length + missingBetween (arrivedSeqs arrived t) +
      unseen (stampedBy client t) (arrivedSeqs arrived t) = stampedBy client t := by
  have hlength : (arrivedSeqs arrived t).length = (itemsOf t arrived).length :=
    length_seqsOf fun datagram hmem => header_of_mem_wire ((hlossy t).subset hmem)
  rw [← hlength]
  exact missingBetween_add_unseen (arrivedSeqs_increasing h hwire hlossy hfit)
    fun seq hseq => lt_stampedBy h ((arrivedSeqs_sublist hlossy t).subset hseq)

theorem seqsOf_arrived (hlossy : ∀ t, (itemsOf t arrived).Sublist (client.wire t)) (t : UInt64) :
    seqsOf t ((arrived.map Prod.snd).filterMap (header 0)) = arrivedSeqs arrived t := by
  have hassign : ∀ arrival ∈ arrived, ∀ h, header 0 arrival.2 = some h → arrival.1 = id h.1 := by
    intro arrival hmem h hheader
    obtain ⟨seq, hseq⟩ := header_of_mem_wire (mem_of_arrived hlossy hmem)
    rw [hheader] at hseq
    rw [Option.some.inj hseq]
    rfl
  have hitems := seqsOf_itemsOf id arrived hassign t t
  rw [id_eq, if_pos rfl] at hitems
  exact hitems.symm

/-- **What the workers report**, when every stream goes to one of them. -/
theorem lossy_counters {W : Type*} [Fintype W] [DecidableEq W] (h : client.Answered)
    (hwire : IsInterleaving client.wire onWire)
    (hlossy : ∀ t, (itemsOf t arrived).Sublist (client.wire t))
    (hfit : ∀ t ∈ threadIds client, stampedBy client t < 2 ^ 64) (serverLen : ℕ)
    (assign : UInt64 → W)
    {batches : W → List (List Datagram)}
    (hbatch : ∀ w, ∀ received ∈ batches w, received.length ≤ batch)
    (hcut : ∀ w, (batches w).flatten =
      itemsOf w (arrived.map fun arrival => (assign arrival.1, arrival.2)))
    {serverOps : List (W × CounterOp)}
    (hserver : IsInterleaving (fun w => ((UdpWorker.new serverLen).run (batches w)).2)
      serverOps) :
    (Counters.zero.applyAll (serverOps.map Prod.snd)).packets = UInt64.ofNat arrived.length ∧
    (Counters.zero.applyAll (serverOps.map Prod.snd)).drops =
      UInt64.ofNat (∑ t ∈ threadIds client, missingBetween (arrivedSeqs arrived t)) := by
  -- A datagram of thread `t` carries the stream id `t`, so its worker is that of its stream.
  have hassign : ∀ arrival ∈ arrived.map fun arrival => (assign arrival.1, arrival.2),
      ∀ h, header 0 arrival.2 = some h → arrival.1 = assign h.1 := by
    rintro _ hmem pair hheader
    obtain ⟨arrival, harrival, rfl⟩ := List.mem_map.mp hmem
    obtain ⟨seq, hseq⟩ := header_of_mem_wire (mem_of_arrived hlossy harrival)
    rw [hheader] at hseq
    rw [Option.some.inj hseq]
  have hstreams : ∀ pair ∈ (arrived.map Prod.snd).filterMap (header 0),
      pair.1 ∈ threadIds client := by
    intro pair hmem
    obtain ⟨datagram, hdatagram, hheader⟩ := List.mem_filterMap.mp hmem
    obtain ⟨arrival, harrival, rfl⟩ := List.mem_map.mp hdatagram
    obtain ⟨seq, hseq⟩ := header_of_mem_wire (mem_of_arrived hlossy harrival)
    rw [hheader] at hseq
    rw [Option.some.inj hseq, mem_threadIds]
    exact lt_threads_of_arrived hlossy harrival
  have hgaps : gapTotal LastSeq.new ((arrived.map Prod.snd).filterMap (header 0)) =
      ∑ t ∈ threadIds client, missingBetween (arrivedSeqs arrived t) := by
    rw [gapTotal_eq_sum (threadIds client) _ _ hstreams]
    refine Finset.sum_congr rfl fun t ht => ?_
    rw [seqsOf_arrived hlossy]
    exact streamGaps_none_of_increasing _ (arrivedSeqs_increasing h hwire hlossy (hfit t ht))
  have hsnd : (arrived.map fun arrival => (assign arrival.1, arrival.2)).map Prod.snd =
      arrived.map Prod.snd := by
    rw [List.map_map]
    rfl
  rw [workers_counters serverLen _ hbatch hcut hserver, sum_gapTotal_itemsOf assign _ hassign,
    hsnd, hgaps]
  simp [Counters.add, Counters.zero]

theorem length_eq_sum_itemsOf {schedule : List (UInt64 × Datagram)} {parties : Finset UInt64}
    (h : ∀ entry ∈ schedule, entry.1 ∈ parties) :
    schedule.length = ∑ t ∈ parties, (itemsOf t schedule).length := by
  have hsum := sum_itemsOf_of_mem (fun _ : Datagram => 1) parties schedule h
  simpa using hsum

theorem mem_threadIds_of_onWire (hwire : IsInterleaving client.wire onWire)
    {entry : UInt64 × Datagram} (h : entry ∈ onWire) : entry.1 ∈ threadIds client := by
  rw [mem_threadIds]
  exact lt_threads_of_arrived (fun t => hwire t ▸ List.Sublist.refl _) h

end Arrived

/-- **Where the numbers go.**  A client of any number of threads sends, with any results of
`sendmmsg`; the network loses any of its datagrams and keeps the order within each stream; the
streams are spread over the workers of a server, which cut what they receive into batches, and
the `fetch_add`s of either side interleave, in any way.  As long as the client uses less than
`2 ^ 64` numbers, every one of them was sent or refused; and every one was received, or is
reported as a drop, or is unseen.  So the drops are what was lost and what was refused, less the
unseen. -/
theorem loss_conserved (client : UdpClient) (h : client.Answered)
    (onWire : List (UInt64 × Datagram)) (hwire : IsInterleaving client.wire onWire)
    (clientOps : List (UInt64 × CounterOp)) (hclient : IsInterleaving client.ops clientOps)
    (arrived : List (UInt64 × Datagram))
    (hlossy : ∀ t, (itemsOf t arrived).Sublist (client.wire t))
    (hfit : ∑ t ∈ threadIds client, stampedBy client t < 2 ^ 64)
    (serverLen : ℕ) {W : Type*} [Fintype W] [DecidableEq W] (assign : UInt64 → W)
    (batches : W → List (List Datagram))
    (hbatch : ∀ w, ∀ received ∈ batches w, received.length ≤ batch)
    (hcut : ∀ w, (batches w).flatten =
      itemsOf w (arrived.map fun arrival => (assign arrival.1, arrival.2)))
    (serverOps : List (W × CounterOp))
    (hserver : IsInterleaving (fun w => ((UdpWorker.new serverLen).run (batches w)).2)
      serverOps) :
    let sent := Counters.zero.applyAll (clientOps.map Prod.snd)
    let received := Counters.zero.applyAll (serverOps.map Prod.snd)
    let stamped := ∑ t ∈ threadIds client, stampedBy client t
    let refused := ∑ t ∈ threadIds client, refusedBy client t
    let unseen := ∑ t ∈ threadIds client, unseen (stampedBy client t) (arrivedSeqs arrived t)
    sent.packets.toNat + refused = stamped ∧
    received.packets.toNat + received.drops.toNat + unseen = stamped ∧
    received.packets.toNat ≤ sent.packets.toNat ∧
    received.drops.toNat + unseen =
      (sent.packets.toNat - received.packets.toNat) + refused := by
  intro sent received stamped refused hidden
  have hsmall : ∀ t ∈ threadIds client, stampedBy client t < 2 ^ 64 := fun t ht =>
    (Finset.single_le_sum (fun _ _ => Nat.zero_le _) ht).trans_lt hfit
  have harrived : arrived.length = ∑ t ∈ threadIds client, (itemsOf t arrived).length :=
    length_eq_sum_itemsOf fun entry hentry =>
      (mem_threadIds client).mpr (lt_threads_of_arrived hlossy hentry)
  have hwired : onWire.length = ∑ t ∈ threadIds client, (client.wire t).length := by
    rw [length_eq_sum_itemsOf fun entry hentry => mem_threadIds_of_onWire hwire hentry]
    exact Finset.sum_congr rfl fun t _ => by rw [hwire t]
  -- The two accounts, first over the natural numbers and thread by thread.
  have hseen : arrived.length +
      ∑ t ∈ threadIds client, missingBetween (arrivedSeqs arrived t) + hidden = stamped := by
    rw [harrived, ← Finset.sum_add_distrib, ← Finset.sum_add_distrib]
    exact Finset.sum_congr rfl fun t ht => arrived_add_unseen h hwire hlossy (hsmall t ht)
  have hsent : onWire.length + refused = stamped := by
    rw [hwired, ← Finset.sum_add_distrib]
    exact Finset.sum_congr rfl fun t ht =>
      length_wire_add_refusedBy h ((mem_threadIds client).mp ht)
  have hfewer : arrived.length ≤ onWire.length := by
    rw [harrived, hwired]
    exact Finset.sum_le_sum fun t _ => (hlossy t).length_le
  have hcounted : sent.packets = UInt64.ofNat onWire.length := by
    change (Counters.zero.applyAll (clientOps.map Prod.snd)).packets = _
    rw [UdpClient.counters_eq h hwire hclient]
    simp [Counters.add, Counters.zero]
  obtain ⟨hpackets, hdrops⟩ :=
    lossy_counters h hwire hlossy hsmall serverLen assign hbatch hcut hserver
  -- All the sums are parts of `stamped`, so no counter has wrapped.
  have hbelow : stamped < 2 ^ 64 := hfit
  have hsentNat : sent.packets.toNat = onWire.length := by
    rw [hcounted, UInt64.toNat_ofNat_of_lt' (show _ < 2 ^ 64 by omega)]
  have hpacketsNat : received.packets.toNat = arrived.length := by
    rw [hpackets, UInt64.toNat_ofNat_of_lt' (show _ < 2 ^ 64 by omega)]
  have hdropsNat : received.drops.toNat =
      ∑ t ∈ threadIds client, missingBetween (arrivedSeqs arrived t) := by
    rw [hdrops, UInt64.toNat_ofNat_of_lt' (show _ < 2 ^ 64 by omega)]
  omega

/-- Three datagrams of one batch are sent, and the second of them is lost. -/
theorem loss_conserved_middle :
    let client := UdpClient.oneThread 0 [⟨3, 0, 0⟩]
    let arrived := ((client.wire 0).eraseIdx 1).map (Prod.mk (0 : UInt64))
    let received := Counters.zero.applyAll
      ((UdpWorker.new 0).run [(client.wire 0).eraseIdx 1]).2
    (Counters.zero.applyAll (client.ops 0)).packets.toNat + 61 = 64 ∧
      received.packets.toNat + received.drops.toNat + unseen 64 (arrivedSeqs arrived 0) = 64 := by
  intro client arrived received
  obtain ⟨hwire, hops⟩ := UdpClient.isInterleaving_oneThread 0 [⟨3, 0, 0⟩]
  have hanswered : client.Answered := fun _ => by
    simp [client, UdpClient.oneThread]
  have hlossy : ∀ t, (itemsOf t arrived).Sublist (client.wire t) := by
    intro t
    rw [itemsOf_map_mk]
    split
    · rename_i heq
      rw [← heq]
      exact List.eraseIdx_sublist _ _
    · exact List.nil_sublist _
  have hthreads : threadIds client = {0} := by decide
  have hlength : ∀ batch' ∈ [(client.wire 0).eraseIdx 1], batch'.length ≤ batch := by
    intro batch' hbatch'
    rw [List.mem_singleton.mp hbatch']
    have hcount := length_wire_add_refusedBy hanswered (show 0 < client.threads by decide)
    have hle := (List.eraseIdx_sublist (client.wire 0) 1).length_le
    have hstamped : stampedBy client 0 = batch := rfl
    omega
  have hserver : IsInterleaving (fun _ : Unit => ((UdpWorker.new 0).run
      [(client.wire 0).eraseIdx 1]).2) (((UdpWorker.new 0).run
      [(client.wire 0).eraseIdx 1]).2.map (Prod.mk ())) :=
    isInterleaving_single () fun _ hother => absurd rfl hother
  have hmain := loss_conserved client hanswered _ hwire _ hops arrived hlossy
    (by rw [hthreads]; decide) 0 (fun _ => ()) (fun _ => [(client.wire 0).eraseIdx 1])
    (fun _ => hlength) (by simp [arrived, itemsOf, List.map_map, Function.comp_def]) _ hserver
  simp only [hthreads, Finset.sum_singleton, List.map_map, Function.comp_def, List.map_id'] at hmain
  exact ⟨hmain.1, hmain.2.1⟩

end RunPerf.Loss
