import RunPerf.Net.Accounting
import RunPerf.Net.Client

/-!
# What the UDP client sends and what it counts

The threads of `udp_client` share two counters and nothing else.  A thread adds to them the
number of datagrams that `sendmmsg` took, and that number times the length; the additions of
the threads interleave in any order.  The datagrams reach the wire in any order as well, but
those of one thread in the order in which it sent them.

The buffers of a thread are used again in every turn, and the numbers of refused datagrams
are used up.  Neither shows on the wire: all datagrams have the same length and the id of
their thread (`shape_of_mem_run`), and as long as a thread has not gone through all `2 ^ 64`
numbers, every number comes later than the one before it.
-/

namespace RunPerf.Net

open RunPerf.Lib RunPerf.Receive

namespace UdpThread

variable {len : ℕ} {sid : UInt64}

/-- Whatever a thread sends has the length of the client and the id of the thread. -/
theorem shape_of_mem_run (ppsPerThread : UInt64) (t : UdpThread len sid) (turns : List SendTurn)
    {datagram : Datagram} (h : datagram ∈ (t.run ppsPerThread turns).2.1) :
    datagram.length = payloadLen len ∧ datagram.take 8 = toLeBytes sid := by
  induction turns generalizing t with
  | nil => simp [run] at h
  | cons outside rest ih =>
      rcases List.mem_append.mp h with hnow | hlater
      · exact t.stampedBufs_shape (List.mem_of_mem_take hnow)
      · exact ih (t.turn ppsPerThread outside).1 hlater

/-- What a turn adds to the counters is what it puts on the wire. -/
theorem amount_turn (ppsPerThread : UInt64) (t : UdpThread len sid) (outside : SendTurn)
    (hret : outside.ret ≤ batch) :
    ((t.turn ppsPerThread outside).2.2.map amount).sum =
      Counters.zero.add (((t.turn ppsPerThread outside).2.1.map List.length).sum)
        (t.turn ppsPerThread outside).2.1.length 0 := by
  have hlength : (t.turn ppsPerThread outside).2.1.length = outside.ret.toNat := by
    show (t.stampedBufs.take outside.ret.toNat).length = _
    rw [List.length_take, t.length_stampedBufs]
    omega
  have hbytes : ((t.turn ppsPerThread outside).2.1.map List.length).sum =
      outside.ret.toNat * payloadLen len := by
    have hall : ∀ n ∈ (t.turn ppsPerThread outside).2.1.map List.length, n = payloadLen len := by
      intro n hn
      obtain ⟨datagram, hmem, rfl⟩ := List.mem_map.mp hn
      exact (t.stampedBufs_shape (List.mem_of_mem_take hmem)).1
    rw [List.sum_eq_card_nsmul _ _ hall, List.length_map, hlength, smul_eq_mul]
  rw [hlength, hbytes]
  show ((if outside.ret > 0 then _ else _ : List CounterOp).map amount).sum = _
  split
  · simp [amount, counters_add, counters_zero, Counters.add, Counters.zero, UInt64.ofNat_mul]
  · have hzero : outside.ret.toNat = 0 := by omega
    simp [hzero, counters_zero, Counters.add, Counters.zero]

theorem amount_run (ppsPerThread : UInt64) (t : UdpThread len sid) (turns : List SendTurn)
    (hret : ∀ outside ∈ turns, outside.ret ≤ batch) :
    ((t.run ppsPerThread turns).2.2.map amount).sum =
      Counters.zero.add (((t.run ppsPerThread turns).2.1.map List.length).sum)
        (t.run ppsPerThread turns).2.1.length 0 := by
  induction turns generalizing t with
  | nil => simp [run, counters_zero, Counters.add, Counters.zero]
  | cons outside rest ih =>
      have hfirst := t.amount_turn ppsPerThread outside (hret outside List.mem_cons_self)
      have hrest := ih (t.turn ppsPerThread outside).1 fun b hb =>
        hret b (List.mem_cons_of_mem _ hb)
      rw [run, List.map_append, List.sum_append, hfirst, hrest, List.map_append, List.sum_append,
        List.length_append]
      simp [Counters.add, Counters.zero, counters_add, UInt64.ofNat_add]

/-- A datagram of that shape carries the id of the thread. -/
theorem exists_header {datagram : Datagram} (hlength : datagram.length = payloadLen len)
    (hsid : datagram.take 8 = toLeBytes sid) : ∃ seq, header 0 datagram = some (sid, seq) := by
  have hmin := hdr_le_payloadLen len
  refine ⟨fromLeBytes ((datagram.drop 8).take 8), ?_⟩
  rw [header, if_pos (by omega), List.drop_zero, hsid, fromLeBytes_toLeBytes, Nat.zero_add]

end UdpThread

namespace UdpClient

/-- What thread `t` does to the shared counters, in order. -/
def ops (client : UdpClient) (t : UInt64) : List CounterOp :=
  if t < client.threads then
    ((UdpThread.new client.len t (client.start t)).run client.ppsPerThread (client.turns t)).2.2
  else []

/-- `sendmmsg` fails, or sends no more than the batch. -/
def Answered (client : UdpClient) : Prop :=
  ∀ t, ∀ turn ∈ client.turns t, -1 ≤ turn.ret ∧ turn.ret ≤ 64

variable {client : UdpClient} {onWire : List (UInt64 × Datagram)}

theorem Answered.ret_le (h : client.Answered) (t : UInt64) :
    ∀ turn ∈ client.turns t, turn.ret ≤ batch := fun turn hturn => (h t turn hturn).2

theorem amount_ops (h : client.Answered) (t : UInt64) :
    ((client.ops t).map amount).sum =
      Counters.zero.add ((client.wire t).map List.length).sum (client.wire t).length 0 := by
  unfold ops wire
  split
  · exact UdpThread.amount_run _ _ _ (h.ret_le t)
  · simp [counters_zero, Counters.add, Counters.zero]

/-- **The counters are what is on the wire**, however the threads interleave. -/
theorem counters_eq (h : client.Answered) (hwire : IsInterleaving client.wire onWire)
    {schedule : List (UInt64 × CounterOp)} (hschedule : IsInterleaving client.ops schedule) :
    Counters.zero.applyAll (schedule.map Prod.snd) =
      Counters.zero.add (onWire.map fun sent => sent.2.length).sum onWire.length 0 := by
  -- Only the threads that take part in one of the two schedules count.
  let parties := (schedule.map Prod.fst ++ onWire.map Prod.fst).toFinset
  have hops : ∀ entry ∈ schedule, entry.1 ∈ parties := fun entry hentry =>
    List.mem_toFinset.mpr (List.mem_append_left _ (List.mem_map_of_mem hentry))
  have hsent : ∀ entry ∈ onWire, entry.1 ∈ parties := fun entry hentry =>
    List.mem_toFinset.mpr (List.mem_append_right _ (List.mem_map_of_mem hentry))
  have hcount : onWire.length = (onWire.map fun _ => 1).sum := by simp
  calc Counters.zero.applyAll (schedule.map Prod.snd)
      = (schedule.map fun entry => amount entry.2).sum := by
        rw [applyAll_zero, List.map_map]
        rfl
    _ = ∑ t ∈ parties, ((itemsOf t schedule).map amount).sum :=
        sum_itemsOf_of_mem amount parties schedule hops
    _ = ∑ t ∈ parties, Counters.zero.add ((itemsOf t onWire).map List.length).sum
          ((itemsOf t onWire).map fun _ => 1).sum 0 := by
        refine Finset.sum_congr rfl fun t _ => ?_
        rw [hschedule t, amount_ops h t, hwire t]
        simp
    _ = Counters.zero.add (onWire.map fun sent => sent.2.length).sum onWire.length 0 := by
        rw [sum_add_zero, hcount, sum_itemsOf_of_mem List.length parties onWire hsent,
          sum_itemsOf_of_mem (fun _ => 1) parties onWire hsent]
        simp

/-- What is on the wire was sent by the thread it is tagged with. -/
theorem mem_wire (hwire : IsInterleaving client.wire onWire) {sent : UInt64 × Datagram}
    (hmem : sent ∈ onWire) : sent.2 ∈ client.wire sent.1 := by
  rw [← hwire sent.1]
  exact List.mem_map.mpr ⟨sent, List.mem_filter.mpr ⟨hmem, by simp⟩, rfl⟩

theorem shape_of_mem_wire {t : UInt64} {datagram : Datagram} (h : datagram ∈ client.wire t) :
    datagram.length = payloadLen client.len ∧ datagram.take 8 = toLeBytes t := by
  unfold wire at h
  split at h
  · exact UdpThread.shape_of_mem_run _ _ _ h
  · simp at h

theorem shape_of_mem_onWire (hwire : IsInterleaving client.wire onWire)
    {sent : UInt64 × Datagram} (hmem : sent ∈ onWire) :
    sent.2.length = payloadLen client.len ∧ ∃ seq, header 0 sent.2 = some (sent.1, seq) := by
  obtain ⟨hlength, hsid⟩ := shape_of_mem_wire (mem_wire hwire hmem)
  exact ⟨hlength, UdpThread.exists_header hlength hsid⟩

/-- The numbers of a stream on the wire are those its thread sent, in order. -/
theorem seqsOf_onWire (hwire : IsInterleaving client.wire onWire) (t : UInt64) :
    seqsOf t (onWire.filterMap fun sent => header 0 sent.2) =
      seqsOf t ((client.wire t).filterMap (header 0)) := by
  have hassign : ∀ sent ∈ onWire, ∀ h, header 0 sent.2 = some h → sent.1 = id h.1 := by
    intro sent hmem h hheader
    obtain ⟨-, seq, hseq⟩ := shape_of_mem_onWire hwire hmem
    rw [hheader] at hseq
    rw [Option.some.inj hseq]
    rfl
  have hparty := seqsOf_itemsOf id onWire hassign t t
  rw [id_eq, if_pos rfl, hwire t, List.filterMap_map] at hparty
  exact hparty.symm

theorem seqsOf_wire (h : client.Answered) (t : UInt64) :
    seqsOf t ((client.wire t).filterMap (header 0)) =
      if t < client.threads then
        (sentSeqs 0 ((client.turns t).map SendTurn.ret)).map UInt64.ofNat
      else [] := by
  unfold wire
  split
  · rw [UdpThread.header_sent _ _ _ _ _ (h.ret_le t)]
    simp [seqsOf, List.filter_map, Function.comp_def]
  · rfl

/-- Up to `2 ^ 58` batches the numbers of a thread do not wrap. -/
theorem seqsOf_increasing (h : client.Answered) (hwire : IsInterleaving client.wire onWire)
    {t : UInt64} (hturns : (client.turns t).length ≤ 2 ^ 58) :
    (seqsOf t (onWire.filterMap fun sent => header 0 sent.2)).Pairwise (· < ·) := by
  rw [seqsOf_onWire hwire, seqsOf_wire h]
  split
  · have hret : ∀ ret ∈ (client.turns t).map SendTurn.ret, ret ≤ batch := by
      intro ret hret
      obtain ⟨turn, hturn, rfl⟩ := List.mem_map.mp hret
      exact h.ret_le t turn hturn
    have hbound : ∀ number ∈ sentSeqs 0 ((client.turns t).map SendTurn.ret), number < 2 ^ 64 := by
      intro number hmem
      have hlt := lt_of_mem_sentSeqs hret hmem
      have hbatch : batch = 64 := rfl
      rw [List.length_map, hbatch] at hlt
      omega
    rw [List.pairwise_map]
    refine (sentSeqs_increasing 0 hret).imp_of_mem ?_
    intro x y hx hy hxy
    rwa [UInt64.lt_iff_toNat_lt, UInt64.toNat_ofNat', UInt64.toNat_ofNat',
      Nat.mod_eq_of_lt (hbound x hx), Nat.mod_eq_of_lt (hbound y hy)]
  · exact List.Pairwise.nil

/-- Pairs are distinct if the numbers of every stream are. -/
theorem nodup_of_seqsOf {headers : List (UInt64 × UInt64)}
    (h : ∀ sid, (seqsOf sid headers).Nodup) : headers.Nodup := by
  induction headers with
  | nil => exact List.nodup_nil
  | cons first rest ih =>
      have hrest : ∀ sid, (seqsOf sid rest).Nodup := by
        intro sid
        have hsid := h sid
        rw [seqsOf_cons] at hsid
        split at hsid
        · exact hsid.of_cons
        · exact hsid
      refine List.nodup_cons.mpr ⟨?_, ih hrest⟩
      intro hmem
      have hown := h first.1
      rw [seqsOf_cons, if_pos rfl] at hown
      refine (List.nodup_cons.mp hown).1 ?_
      exact List.mem_map.mpr ⟨first, List.mem_filter.mpr ⟨hmem, by simp⟩, rfl⟩

/-- **The client's accounting is exact.**  For every number of threads, all results of
`sendmmsg`, and every order in which the datagrams reach the wire and the additions the
counters: each datagram has the length of the client and the id of its thread; as long as no
thread makes more than `2 ^ 58` batches, so that its numbers do not wrap, no pair of id and
number occurs twice and the numbers of every stream increase; and the counters end as the
number and the total length of the datagrams, modulo `2 ^ 64`. -/
theorem client_accounting_exact (client : UdpClient) (h : client.Answered)
    (onWire : List (UInt64 × Datagram)) (hwire : IsInterleaving client.wire onWire)
    (schedule : List (UInt64 × CounterOp)) (hschedule : IsInterleaving client.ops schedule) :
    (∀ sent ∈ onWire, sent.2.length = max client.len 16 ∧
      ∃ seq, header 0 sent.2 = some (sent.1, seq)) ∧
    ((∀ t, (client.turns t).length ≤ 2 ^ 58) →
      (onWire.filterMap fun sent => header 0 sent.2).Nodup ∧
      ∀ sid, (seqsOf sid (onWire.filterMap fun sent => header 0 sent.2)).Pairwise (· < ·)) ∧
    (Counters.zero.applyAll (schedule.map Prod.snd)).packets = UInt64.ofNat onWire.length ∧
    (Counters.zero.applyAll (schedule.map Prod.snd)).bytes =
      UInt64.ofNat (onWire.map fun sent => sent.2.length).sum := by
  have hcounters := counters_eq h hwire hschedule
  refine ⟨fun sent hmem => shape_of_mem_onWire hwire hmem, fun hturns => ?_, ?_, ?_⟩
  · have hincreasing : ∀ sid, (seqsOf sid (onWire.filterMap fun sent =>
        header 0 sent.2)).Pairwise (· < ·) := fun sid => seqsOf_increasing h hwire (hturns sid)
    refine ⟨nodup_of_seqsOf fun sid => ?_, hincreasing⟩
    exact (hincreasing sid).imp UInt64.ne_of_lt
  · rw [hcounters]
    simp [Counters.add, Counters.zero]
  · rw [hcounters]
    simp [Counters.add, Counters.zero]

/-- A client with one thread and no target. -/
def oneThread (len : ℕ) (turns : List SendTurn) : UdpClient :=
  ⟨1, len, 0, fun _ => 0, fun _ => turns⟩

/-- With one thread there is one order. -/
theorem isInterleaving_oneThread (len : ℕ) (turns : List SendTurn) :
    IsInterleaving (oneThread len turns).wire
        (((oneThread len turns).wire 0).map (Prod.mk 0)) ∧
      IsInterleaving (oneThread len turns).ops (((oneThread len turns).ops 0).map (Prod.mk 0)) := by
  have hother : ∀ t : UInt64, t ≠ 0 → ¬ t < 1 := by
    intro t hne hlt
    rw [UInt64.lt_iff_toNat_lt, UInt64.toNat_one] at hlt
    exact hne (UInt64.toNat_inj.mp (Nat.lt_one_iff.mp hlt))
  exact ⟨isInterleaving_single 0 fun t ht => if_neg (hother t ht),
    isInterleaving_single 0 fun t ht => if_neg (hother t ht)⟩

theorem header_wire_oneThread (len : ℕ) {turns : List SendTurn}
    (hret : ∀ turn ∈ turns, turn.ret ≤ batch) :
    ((oneThread len turns).wire 0).filterMap (header 0) =
      (sentSeqs 0 (turns.map SendTurn.ret)).map fun number => (0, UInt64.ofNat number) :=
  UdpThread.header_sent len 0 0 0 turns hret

/-- A batch of which two datagrams are sent, one that fails, and one of which one is sent. -/
theorem client_accounting_exact_three :
    let client := oneThread 0 [⟨2, 0, 0⟩, ⟨-1, 0, 0⟩, ⟨1, 0, 0⟩]
    (client.wire 0).filterMap (header 0) = [(0, 0), (0, 1), (0, 128)] ∧
      (∀ datagram ∈ client.wire 0, datagram.length = 16) ∧
      (Counters.zero.applyAll (client.ops 0)).packets = UInt64.ofNat (client.wire 0).length := by
  intro client
  obtain ⟨hwire, hops⟩ := isInterleaving_oneThread 0 [⟨2, 0, 0⟩, ⟨-1, 0, 0⟩, ⟨1, 0, 0⟩]
  have hanswered : client.Answered := fun _ => by
    simp [client, oneThread]
  obtain ⟨hshape, -, hpackets, -⟩ := client_accounting_exact client hanswered _ hwire _ hops
  refine ⟨?_, ?_, ?_⟩
  · rw [header_wire_oneThread 0 (by decide)]
    decide
  · intro datagram hmem
    exact (hshape (0, datagram) (List.mem_map_of_mem hmem)).1
  · simpa [client, List.map_map, Function.comp_def] using hpackets

/-- A thread whose first datagram is followed by refused batches up to the end of the number
space: the datagram after them carries the first number again. -/
theorem client_numbers_wrap :
    let client := oneThread 64
      (⟨1, 0, 0⟩ :: (List.replicate (2 ^ 58 - 1) ⟨-1, 0, 0⟩ ++ [⟨1, 0, 0⟩]))
    client.Answered ∧ ∃ onWire, IsInterleaving client.wire onWire ∧
      (onWire.filterMap fun sent => header 0 sent.2) = [(0, 0), (0, 0)] ∧
      ¬ (onWire.filterMap fun sent => header 0 sent.2).Nodup ∧
      ¬ (seqsOf 0 (onWire.filterMap fun sent => header 0 sent.2)).Pairwise (· < ·) := by
  intro client
  have hanswered : client.Answered := by
    intro t turn hturn
    rcases List.mem_cons.mp hturn with rfl | hlater
    · decide
    · rcases List.mem_append.mp hlater with hrefused | hlast
      · rw [List.eq_of_mem_replicate hrefused]
        decide
      · rw [List.mem_singleton.mp hlast]
        decide
  -- The refused batches use up all numbers but the first 64.
  have hnumbers : sentSeqs 0 ((client.turns 0).map SendTurn.ret) = [0, 2 ^ 64] := by
    have hrefused : sentSeqs batch (List.replicate (2 ^ 58 - 1) (-1)) = [] := by
      rw [sentSeqs_eq_nil_iff]
      intro ret hret
      rw [List.eq_of_mem_replicate hret]
      decide
    show sentSeqs 0 (List.map SendTurn.ret (_ :: (_ ++ _))) = _
    rw [List.map_cons, List.map_append, List.map_replicate, sentSeqs, Nat.zero_add,
      sentSeqs_append, hrefused, List.length_replicate]
    rfl
  have hheaders : ((client.wire 0).map (Prod.mk (0 : UInt64))).filterMap
      (fun sent => header 0 sent.2) = [(0, 0), (0, 0)] := by
    have hwire := header_wire_oneThread 64 (hanswered.ret_le 0)
    rw [List.filterMap_map]
    refine hwire.trans ?_
    rw [hnumbers]
    rfl
  refine ⟨hanswered, _, (isInterleaving_oneThread 64 _).1, hheaders, ?_, ?_⟩
  · rw [hheaders]
    decide
  · rw [hheaders]
    decide

end UdpClient

end RunPerf.Net
