import RunPerf.Net.ClientAccounting

/-!
# The volume that client and server report

The client counts what it sends, a number of datagrams times its own length; the server
counts what `recvmmsg` reports, which is a datagram cut to the server's buffer.  The two ends
have a `--len` each.  If the network delivers everything exactly once, the packets agree in
any case, and the bytes agree as long as a datagram of the client fits into a buffer of the
server: `max len 16` on the one side, `max len 2048` on the other.
-/

namespace RunPerf.Net

open RunPerf.Lib RunPerf.Receive

/-- The server never has buffers of less than 2048 bytes. -/
theorem bufSize_eq (len : ℕ) : bufSize len = max len 2048 := by
  have hhdr : hdr = 16 := rfl
  unfold bufSize
  omega

section Delivered

variable {client : UdpClient} {onWire : List (UInt64 × Datagram)} {W : Type*}
  {arrivals : List (W × Datagram)}

/-- All datagrams have the client's length, so that sums over them are products. -/
theorem sum_lengths (hwire : IsInterleaving client.wire onWire) (f : ℕ → ℕ) :
    (onWire.map fun sent => f sent.2.length).sum = onWire.length * f (payloadLen client.len) := by
  have hall : ∀ n ∈ onWire.map fun sent => f sent.2.length, n = f (payloadLen client.len) := by
    intro n hn
    obtain ⟨sent, hmem, rfl⟩ := List.mem_map.mp hn
    rw [(UdpClient.shape_of_mem_onWire hwire hmem).1]
  rw [List.sum_eq_card_nsmul _ _ hall, List.length_map, smul_eq_mul]

theorem sum_arrivals (hdelivered : (arrivals.map Prod.snd).Perm (onWire.map Prod.snd))
    (f : ℕ → ℕ) : (arrivals.map fun arrival => f arrival.2.length).sum =
      (onWire.map fun sent => f sent.2.length).sum := by
  have hperm := (hdelivered.map fun datagram => f datagram.length).sum_eq
  rw [List.map_map, List.map_map] at hperm
  exact hperm

/-- What the client counts. -/
theorem sent_counters (h : client.Answered) (hwire : IsInterleaving client.wire onWire)
    {clientOps : List (UInt64 × CounterOp)} (hclient : IsInterleaving client.ops clientOps) :
    Counters.zero.applyAll (clientOps.map Prod.snd) =
      Counters.zero.add (onWire.length * payloadLen client.len) onWire.length 0 := by
  rw [← sum_lengths hwire fun n => n]
  exact UdpClient.counters_eq h hwire hclient

/-- What the server counts. -/
theorem received_counters [Fintype W] [DecidableEq W]
    (hwire : IsInterleaving client.wire onWire) (serverLen : ℕ)
    (hdelivered : (arrivals.map Prod.snd).Perm (onWire.map Prod.snd))
    {batches : W → List (List Datagram)}
    (hbatch : ∀ w, ∀ arrived ∈ batches w, arrived.length ≤ batch)
    (hcut : ∀ w, (batches w).flatten = itemsOf w arrivals) {serverOps : List (W × CounterOp)}
    (hserver : IsInterleaving (fun w => ((UdpWorker.new serverLen).run (batches w)).2) serverOps) :
    Counters.zero.applyAll (serverOps.map Prod.snd) =
      Counters.zero.add (onWire.length * min (payloadLen client.len) (bufSize serverLen))
        onWire.length
        (∑ w, gapTotal LastSeq.new ((itemsOf w arrivals).filterMap (header 0))) := by
  have hlength : arrivals.length = onWire.length := by
    simpa using hdelivered.length_eq
  rw [← sum_lengths hwire fun n => min n (bufSize serverLen),
    ← sum_arrivals hdelivered fun n => min n (bufSize serverLen), ← hlength]
  exact workers_counters serverLen arrivals hbatch hcut hserver

end Delivered

/-- **The volume that the two ends report.**  Every datagram on the wire is delivered exactly
once, in any order, to any worker; the workers cut what they receive into batches, and the
`fetch_add`s of both sides interleave, in any way.  Then the packets agree, the bytes are as
many times the length of a datagram, on the server's side cut to its buffer, and they agree
if the datagram fits into it. -/
theorem volume_agrees (client : UdpClient) (h : client.Answered)
    (onWire : List (UInt64 × Datagram)) (hwire : IsInterleaving client.wire onWire)
    (clientOps : List (UInt64 × CounterOp)) (hclient : IsInterleaving client.ops clientOps)
    (serverLen : ℕ) {W : Type*} [Fintype W] [DecidableEq W] (arrivals : List (W × Datagram))
    (hdelivered : (arrivals.map Prod.snd).Perm (onWire.map Prod.snd))
    (batches : W → List (List Datagram))
    (hbatch : ∀ w, ∀ arrived ∈ batches w, arrived.length ≤ batch)
    (hcut : ∀ w, (batches w).flatten = itemsOf w arrivals) (serverOps : List (W × CounterOp))
    (hserver : IsInterleaving (fun w => ((UdpWorker.new serverLen).run (batches w)).2) serverOps) :
    let sent := Counters.zero.applyAll (clientOps.map Prod.snd)
    let received := Counters.zero.applyAll (serverOps.map Prod.snd)
    received.packets = sent.packets ∧
    sent.bytes = UInt64.ofNat (onWire.length * max client.len 16) ∧
    received.bytes =
      UInt64.ofNat (onWire.length * min (max client.len 16) (max serverLen 2048)) ∧
    (max client.len 16 ≤ max serverLen 2048 → received.bytes = sent.bytes) := by
  intro sent received
  have hsent : sent = Counters.zero.add (onWire.length * max client.len 16) onWire.length 0 :=
    sent_counters h hwire hclient
  have hreceived := received_counters hwire serverLen hdelivered hbatch hcut hserver
  rw [bufSize_eq] at hreceived
  refine ⟨?_, ?_, ?_, ?_⟩
  · have hpackets := congrArg Counters.packets hreceived
    rw [hsent]
    exact hpackets
  · rw [hsent]
    simp [Counters.add, Counters.zero]
  · refine (congrArg Counters.bytes hreceived).trans ?_
    simp [Counters.add, Counters.zero, payloadLen, hdr]
  · intro hfits
    have hmin : min (payloadLen client.len) (max serverLen 2048) = max client.len 16 :=
      Nat.min_eq_left hfits
    have hbytes := congrArg Counters.bytes hreceived
    rw [hmin] at hbytes
    rw [hsent]
    exact hbytes

/-- A client that sends one datagram. -/
theorem length_wire_one (len : ℕ) :
    ((UdpClient.oneThread len [⟨1, 0, 0⟩]).wire 0).length = 1 := by
  show (List.take 1 (UdpThread.new len 0 0).stampedBufs ++ []).length = 1
  rw [List.append_nil, List.length_take, UdpThread.length_stampedBufs]
  rfl

theorem answered_one (len : ℕ) : (UdpClient.oneThread len [⟨1, 0, 0⟩]).Answered := by
  intro t turn hturn
  rw [List.mem_singleton.mp hturn]
  decide

theorem one_batch (len : ℕ) :
    ∀ arrived ∈ [(UdpClient.oneThread len [⟨1, 0, 0⟩]).wire 0], arrived.length ≤ batch := by
  intro arrived harrived
  rw [List.mem_singleton.mp harrived, length_wire_one]
  decide

/-- One datagram, and a server with one worker that receives it. -/
theorem volume_agrees_one :
    let client := UdpClient.oneThread 64 [⟨1, 0, 0⟩]
    (Counters.zero.applyAll ((UdpWorker.new 1400).run [client.wire 0]).2).bytes =
      (Counters.zero.applyAll (client.ops 0)).bytes := by
  intro client
  have horder := UdpClient.isInterleaving_oneThread 64 [⟨1, 0, 0⟩]
  have hvolume := volume_agrees client (answered_one 64) _ horder.1 _ horder.2 1400
    ((client.wire 0).map (Prod.mk ())) (by simp [client, List.map_map, Function.comp_def])
    (fun _ => [client.wire 0]) (fun _ => one_batch 64) (by simp) _
    (isInterleaving_single () fun _ hother => absurd rfl hother)
  have hbytes := hvolume.2.2.2 (by decide)
  simpa [client, List.map_map, Function.comp_def] using hbytes

/-- What the client counts for one datagram. -/
theorem sent_bytes_one (len : ℕ) :
    (Counters.zero.applyAll ((UdpClient.oneThread len [⟨1, 0, 0⟩]).ops 0)).bytes =
      UInt64.ofNat (payloadLen len) := by
  have horder := UdpClient.isInterleaving_oneThread len [⟨1, 0, 0⟩]
  have hsent := sent_counters (answered_one len) horder.1 horder.2
  rw [List.length_map, length_wire_one, Nat.one_mul, List.map_map] at hsent
  have hbytes := congrArg Counters.bytes hsent
  simpa [Function.comp_def, Counters.add, Counters.zero, UdpClient.oneThread] using hbytes

/-- What a worker counts for it. -/
theorem received_bytes_one (len serverLen : ℕ) :
    (Counters.zero.applyAll ((UdpWorker.new serverLen).run
        [(UdpClient.oneThread len [⟨1, 0, 0⟩]).wire 0]).2).bytes =
      UInt64.ofNat (min (payloadLen len) (bufSize serverLen)) := by
  obtain ⟨datagram, hwire⟩ := List.length_eq_one_iff.mp (length_wire_one len)
  have hlength : datagram.length = payloadLen len := by
    have hmem : datagram ∈ (UdpClient.oneThread len [⟨1, 0, 0⟩]).wire 0 := by simp [hwire]
    exact (UdpClient.shape_of_mem_wire hmem).1
  rw [UdpWorker.apply_run _ _ (one_batch len), hwire]
  simp [Counters.add, Counters.zero, hlength]

/-- A datagram of 4096 bytes, and a server that was started without `--len` and receives it:
of the 4096 bytes that the client counts the server counts 2048. -/
theorem volume_differs :
    let client := UdpClient.oneThread 4096 [⟨1, 0, 0⟩]
    client.Answered ∧ (client.wire 0).length = 1 ∧
      (Counters.zero.applyAll (client.ops 0)).bytes = 4096 ∧
      (Counters.zero.applyAll ((UdpWorker.new 1400).run [client.wire 0]).2).bytes = 2048 :=
  ⟨answered_one 4096, length_wire_one 4096, sent_bytes_one 4096, received_bytes_one 4096 1400⟩

end RunPerf.Net
