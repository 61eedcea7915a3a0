import RunPerf.Loss.XdpConservation

/-!
# The two receivers agree

The same packets can be received by `udp_server`, through the sockets of its workers, or by
`xdp_udp_sink`, past the network stack of the kernel.  The server sees datagrams, which the kernel
spreads over its workers; the sink sees whole frames, which the NIC spreads over the queues.  Both
look for the stream id and the number, one of them at the start of the datagram, the other behind
42 bytes of headers.

Padding is what can make a difference: the server never sees it, and for the sink a short datagram
with padding looks like one with a header.  If there is no such packet, which is so for everything
that the clients send, and if every stream keeps to one worker and to one queue, then both report
the same packets and the same drops.  The bytes differ by the headers and the padding, and by what
a datagram is longer than a buffer of the server.
-/

namespace RunPerf.Loss

open RunPerf.Lib RunPerf.Receive RunPerf.Net RunPerf.Xdp

/-! ## Packets on the wire -/

/-- A UDP packet over IPv4: the headers, the datagram, and what the frame is padded with. -/
structure Packet where
  outer : List UInt8
  datagram : Datagram
  padding : List UInt8
  length_outer : outer.length = outerHdr
  udp : IsUdpIpv4 outer

/-- The frame that the NIC gets. -/
def Packet.frame (p : Packet) : List UInt8 := p.outer ++ (p.datagram ++ p.padding)

/-- The datagram carries a stream id and a number, or there is no room for them in the frame. -/
def Packet.Plain (p : Packet) : Prop :=
  16 ≤ p.datagram.length ∨ p.datagram.length + p.padding.length < 16

theorem Packet.take_frame (p : Packet) : p.frame.take outerHdr = p.outer :=
  List.take_left' p.length_outer

theorem Packet.length_frame (p : Packet) :
    p.frame.length = 42 + (p.datagram.length + p.padding.length) := by
  rw [Packet.frame, List.length_append, List.length_append, p.length_outer]
  rfl

/-- The program only looks at the headers. -/
theorem Packet.considersUdp_frame (p : Packet) : considersUdp p.frame := by
  have hlength : p.outer.length = 42 := p.length_outer
  have hbyte : ∀ i < 42, p.frame.getD i 0 = p.outer.getD i 0 := fun i hi =>
    List.getD_append _ _ _ _ (by omega)
  rw [considersUdp_iff]
  refine .inl ⟨?_, ?_, ?_, ?_⟩
  · rw [beAt, hbyte _ (by decide), hbyte _ (by decide)]
    exact p.udp.ethertype
  · rw [hbyte _ (by decide)]
    exact p.udp.ihl
  · rw [hbyte _ (by decide)]
    exact p.udp.protocol
  · rw [p.length_frame]
    exact Nat.le_add_right _ _

/-- The sink finds in the frame what the server finds in the datagram, unless the padding fills a
header up. -/
theorem Packet.header_frame_iff (p : Packet) :
    header Sink.hdrs p.frame = header 0 p.datagram ↔ p.Plain := by
  have hhdrs : Sink.hdrs = 42 := rfl
  have houter : p.outer.length = 42 := p.length_outer
  have hlength := p.length_frame
  by_cases hlong : 16 ≤ p.datagram.length
  · -- Both words lie in the datagram, so the padding is not looked at.
    refine ⟨fun _ => .inl hlong, fun _ => ?_⟩
    have hword : ∀ k, k + 8 ≤ 16 →
        (p.frame.drop (42 + k)).take 8 = (p.datagram.drop k).take 8 := by
      intro k hk
      have hdrop : p.frame.drop (42 + k) = (p.datagram ++ p.padding).drop k := by
        rw [← List.drop_drop, Packet.frame, List.drop_left' houter]
      rw [hdrop, List.drop_append_of_le_length (by omega),
        List.take_append_of_le_length (by rw [List.length_drop]; omega)]
    rw [header, header, if_pos (by omega), if_pos (by omega), hhdrs]
    exact congrArg some (congrArg₂ (fun sid seq => (fromLeBytes sid, fromLeBytes seq))
      (hword 0 (by decide)) (hword 8 (by decide)))
  · -- The server finds nothing, and the sink does so only if the whole frame is too short.
    have hnone : header 0 p.datagram = none := if_neg (by omega)
    rw [hnone, header]
    split
    · rename_i hroom
      refine ⟨fun heq => absurd heq (Option.some_ne_none _), fun hplain => ?_⟩
      rcases hplain with hplain | hplain <;> omega
    · rename_i hroom
      exact ⟨fun _ => .inr (by omega), fun _ => rfl⟩

/-! ## The server -/

section Server

variable {packets : List Packet} {W : Type*} [Fintype W] [DecidableEq W] {len : ℕ}
  {reuseport : List UInt8 → W} {workerOf : UInt64 → W} {batches : W → List (List Datagram)}
  {schedule : List (W × CounterOp)}

/-- The gaps that all parties find together are those that one party would find, if every stream
goes to one of them. -/
theorem sum_gapTotal_filter (who : Packet → W) (workerOf : UInt64 → W)
    (hstreams : ∀ p ∈ packets, ∀ h, header 0 p.datagram = some h → who p = workerOf h.1) :
    ∑ w, gapTotal LastSeq.new
        ((packets.filter fun p => who p = w).filterMap fun p => header 0 p.datagram) =
      gapTotal LastSeq.new (packets.filterMap fun p => header 0 p.datagram) := by
  have hsum := sum_gapTotal_itemsOf workerOf (packets.map fun p => (who p, p.datagram)) (by
    intro arrival harrival h hheader
    obtain ⟨p, hp, rfl⟩ := List.mem_map.mp harrival
    exact hstreams p hp h hheader)
  simpa only [itemsOf_map, List.map_map, List.filterMap_map, Function.comp_def] using hsum

/-- What the workers of the server report. -/
theorem server_counters
    (hstreams : ∀ p ∈ packets, ∀ h, header 0 p.datagram = some h →
      reuseport p.outer = workerOf h.1)
    (hbatch : ∀ w, ∀ arrived ∈ batches w, arrived.length ≤ batch)
    (hcut : ∀ w, (batches w).flatten =
      (packets.filter fun p => reuseport p.outer = w).map Packet.datagram)
    (hschedule : IsInterleaving (fun w => ((UdpWorker.new len).run (batches w)).2) schedule) :
    Counters.zero.applyAll (schedule.map Prod.snd) =
      Counters.zero.add (packets.map fun p => min p.datagram.length (bufSize len)).sum
        packets.length (gapTotal LastSeq.new (packets.filterMap fun p => header 0 p.datagram)) := by
  have hcounters := workers_counters len (packets.map fun p => (reuseport p.outer, p.datagram))
    hbatch (fun w => by rw [hcut, itemsOf_map]) hschedule
  rw [hcounters, ← sum_gapTotal_filter (fun p => reuseport p.outer) workerOf hstreams]
  simp only [itemsOf_map, List.map_map, List.filterMap_map, List.length_map, Function.comp_def]

end Server

/-! ## The sink -/

section Sink

variable {packets : List Packet} {rss : List UInt8 → UInt32} {queueOf : UInt64 → UInt32}
  {xsks : Xsks XskSocket} {socks : List XskSocket} {count : ℕ}

/-- The socket of a queue gets the frames that the NIC puts there. -/
theorem redirectedTo_packets (h : Sink.Registered xsks socks count) {w : ℕ} {sock : XskSocket}
    (hsock : socks[w]? = some sock) :
    Sink.redirectedTo xsks (onQueues rss (packets.map Packet.frame)) sock =
      (packets.filter fun p => (rss p.outer).toNat = w).map Packet.frame := by
  rw [h.redirectedTo_eq hsock, onQueues, List.map_map, List.filter_map, List.map_map]
  simp [Function.comp_def, Packet.take_frame, Packet.considersUdp_frame]

/-- The gaps that the queues find together. -/
theorem sum_gapTotal_queues {n : ℕ}
    (hstreams : ∀ p ∈ packets, ∀ h, header 0 p.datagram = some h → rss p.outer = queueOf h.1)
    (hqueues : ∀ p ∈ packets, (rss p.outer).toNat < n) :
    ∑ w ∈ Finset.range n, gapTotal LastSeq.new
        ((packets.filter fun p => (rss p.outer).toNat = w).filterMap
          fun p => header 0 p.datagram) =
      gapTotal LastSeq.new (packets.filterMap fun p => header 0 p.datagram) := by
  by_cases hnil : packets = []
  · simp [hnil, gapTotal]
  obtain ⟨first, hfirst⟩ := List.exists_mem_of_ne_nil _ hnil
  -- As parties the queues have to be a finite type; all that occur are below `n`.
  have : NeZero n := ⟨Nat.ne_zero_of_lt (hqueues first hfirst)⟩
  let queue (p : Packet) : Fin n := Fin.ofNat n (rss p.outer).toNat
  rw [Finset.sum_range, ← sum_gapTotal_filter queue (fun sid => Fin.ofNat n (queueOf sid).toNat)
    fun p hp h hheader => by rw [← hstreams p hp h hheader]]
  refine Finset.sum_congr rfl fun w _ => ?_
  have hsame : (packets.filter fun p => (rss p.outer).toNat = w) =
      packets.filter fun p => queue p = w := by
    refine List.filter_congr fun p hp => ?_
    rw [decide_eq_decide, Fin.ext_iff, Fin.val_ofNat, Nat.mod_eq_of_lt (hqueues p hp)]
  rw [hsame]

/-- What the `rx_loop`s of all queues report. -/
theorem sink_counters (h : Sink.Registered xsks socks count)
    (hplain : ∀ p ∈ packets, p.Plain)
    (hstreams : ∀ p ∈ packets, ∀ h, header 0 p.datagram = some h → rss p.outer = queueOf h.1)
    (hqueues : ∀ p ∈ packets, (rss p.outer).toNat < socks.length)
    {trace : ℕ → List Sink.Event} {sinks : ℕ → Sink.State}
    (hposted : ∀ w sock, socks[w]? = some sock → Sink.machine.Run (trace w) (sinks w) ∧
      Sink.posted (trace w) =
        Sink.redirectedTo xsks (onQueues rss (packets.map Packet.frame)) sock)
    (hread : ∀ w < socks.length, (sinks w).pending = []) :
    ∑ w ∈ Finset.range socks.length, (sinks w).counters =
      Counters.zero.add (packets.map fun p => p.frame.length).sum packets.length
        (gapTotal LastSeq.new (packets.filterMap fun p => header 0 p.datagram)) := by
  have hsink : ∀ w ∈ Finset.range socks.length, (sinks w).counters = Counters.zero.add
      ((itemsOf w (packets.map fun p => ((rss p.outer).toNat, p))).map
        fun p => p.frame.length).sum
      ((itemsOf w (packets.map fun p => ((rss p.outer).toNat, p))).map fun _ => 1).sum
      (gapTotal LastSeq.new ((packets.filter fun p => (rss p.outer).toNat = w).filterMap
        fun p => header 0 p.datagram)) := by
    intro w hw
    have hlt := Finset.mem_range.mp hw
    have hsock := List.getElem?_eq_getElem hlt
    obtain ⟨hrun, hframes⟩ := hposted w _ hsock
    rw [redirectedTo_packets h hsock] at hframes
    have hheaders : ((packets.filter fun p => (rss p.outer).toNat = w).map
        Packet.frame).filterMap (header Sink.hdrs) =
          (packets.filter fun p => (rss p.outer).toNat = w).filterMap
            fun p => header 0 p.datagram := by
      rw [List.filterMap_map]
      refine List.filterMap_congr fun p hp => ?_
      exact p.header_frame_iff.mpr (hplain p (List.mem_filter.mp hp).1)
    rw [counters_of_read hrun (hread w hlt), hframes, hheaders, itemsOf_map]
    simp [Function.comp_def]
  have hmem : ∀ entry ∈ packets.map fun p => ((rss p.outer).toNat, p),
      entry.1 ∈ Finset.range socks.length := by
    intro entry hentry
    obtain ⟨p, hp, rfl⟩ := List.mem_map.mp hentry
    exact Finset.mem_range.mpr (hqueues p hp)
  have hbytes := sum_itemsOf_of_mem (fun p : Packet => p.frame.length) _ _ hmem
  have hcount := sum_itemsOf_of_mem (fun _ : Packet => 1) _ _ hmem
  rw [Finset.sum_congr rfl hsink, sum_add_zero, ← hbytes, ← hcount,
    sum_gapTotal_queues hstreams hqueues]
  simp [Function.comp_def]

end Sink

/-! ## The main statement -/

/-- **Both receivers report the same.**  The packets are received once by a server with any number
of workers, which cut what they get into batches as they like and whose `fetch_add`s interleave in
any order, and once by a sink with any number of queues, whose `rx_loop`s have read all that was
redirected to them.  If each stream keeps to one worker and to one queue with a socket, and no
padding fills up a header, then packets and drops are equal, and the sink has counted the bytes of
the frames where the server has counted what fits into its buffers. -/
theorem receivers_agree {packets : List Packet} (hplain : ∀ p ∈ packets, p.Plain)
    {W : Type*} [Fintype W] [DecidableEq W] (len : ℕ) (reuseport : List UInt8 → W)
    (workerOf : UInt64 → W)
    (hworkers : ∀ p ∈ packets, ∀ h, header 0 p.datagram = some h →
      reuseport p.outer = workerOf h.1)
    {batches : W → List (List Datagram)}
    (hbatch : ∀ w, ∀ arrived ∈ batches w, arrived.length ≤ batch)
    (hcut : ∀ w, (batches w).flatten =
      (packets.filter fun p => reuseport p.outer = w).map Packet.datagram)
    {schedule : List (W × CounterOp)}
    (hschedule : IsInterleaving (fun w => ((UdpWorker.new len).run (batches w)).2) schedule)
    (rss : List UInt8 → UInt32) (queueOf : UInt64 → UInt32)
    (hstreams : ∀ p ∈ packets, ∀ h, header 0 p.datagram = some h → rss p.outer = queueOf h.1)
    {host : Xdp.Host} {iface : String} {cpus : List ℕ} {xsks : Xsks XskSocket}
    {socks : List XskSocket} (hsetup : Sink.setup host iface cpus = .ok (xsks, socks))
    (hqueues : ∀ p ∈ packets, (rss p.outer).toNat < socks.length)
    {trace : ℕ → List Sink.Event} {sinks : ℕ → Sink.State}
    (hposted : ∀ w sock, socks[w]? = some sock → Sink.machine.Run (trace w) (sinks w) ∧
      Sink.posted (trace w) =
        Sink.redirectedTo xsks (onQueues rss (packets.map Packet.frame)) sock)
    (hread : ∀ w < socks.length, (sinks w).pending = []) :
    let server := Counters.zero.applyAll (schedule.map Prod.snd)
    let sink := ∑ w ∈ Finset.range socks.length, (sinks w).counters
    sink.packets = server.packets ∧ sink.drops = server.drops ∧
      sink.bytes = server.bytes + UInt64.ofNat (packets.map fun p =>
        p.frame.length - min p.datagram.length (bufSize len)).sum := by
  intro server sink
  have hserver : server = _ := server_counters hworkers hbatch hcut hschedule
  have hsink : sink = _ := sink_counters (Sink.registered_of_setup hsetup).1 hplain hstreams
    hqueues hposted hread
  have hbytes : (packets.map fun p => p.frame.length).sum =
      (packets.map fun p => min p.datagram.length (bufSize len)).sum +
        (packets.map fun p => p.frame.length - min p.datagram.length (bufSize len)).sum := by
    rw [← List.sum_map_add]
    refine congrArg List.sum (List.map_congr_left fun p _ => ?_)
    have hlength := p.length_frame
    omega
  -- Packets and drops are the same sums on both sides.
  rw [hserver, hsink, hbytes]
  exact ⟨rfl, rfl, by simp [Counters.add, UInt64.ofNat_add, UInt64.add_assoc]⟩

/-- A packet of one of two clients, who send from two ports. -/
def samplePacket (second : Bool) (sid seq : UInt64) (padding : List UInt8) : Packet where
  outer := (sampleIpv4 44 24 []).set 35 (if second then 0x41 else 0x40)
  datagram := toLeBytes sid ++ toLeBytes seq
  padding := padding
  length_outer := by cases second <;> decide
  udp := by cases second <;> exact ⟨by decide, by decide, by decide, by decide⟩

/-- The port that a packet comes from, as the NIC and the kernel see it. -/
def samplePort (outer : List UInt8) : Bool := outer.getD 35 0 = 0x41

def samplePackets : List Packet :=
  [samplePacket false 0 5 [], samplePacket true 1 9 [], samplePacket false 0 8 [0, 0]]

theorem header_samplePacket (second : Bool) (sid seq : UInt64) (padding : List UInt8) :
    header 0 (samplePacket second sid seq padding).datagram = some (sid, seq) := by
  have hheader := header_stamped [] rfl sid seq []
  rwa [List.append_nil] at hheader

/-- Stream 1 comes from the second port. -/
theorem samplePort_of_header {p : Packet} (hp : p ∈ samplePackets) {h : UInt64 × UInt64}
    (hheader : header 0 p.datagram = some h) : samplePort p.outer = decide (h.1 = 1) := by
  simp only [samplePackets, List.mem_cons, List.not_mem_nil, or_false] at hp
  rcases hp with rfl | rfl | rfl
  all_goals
    rw [header_samplePacket] at hheader
    rw [← Option.some.inj hheader]
    rfl

/-- Two streams with a loss of two in one of them, received by two workers and by two queues. -/
theorem receivers_agree_two :
    let datagram (second : Bool) (sid seq : UInt64) := (samplePacket second sid seq []).datagram
    let ops (batch : List Datagram) := ((UdpWorker.new 0).run [batch]).2
    let server := Counters.zero.applyAll
      (ops [datagram true 1 9] ++ ops [datagram false 0 5, datagram false 0 8])
    let rss (outer : List UInt8) : UInt32 := if samplePort outer then 1 else 0
    ∃ (xsks : Xsks XskSocket) (socks : List XskSocket) (trace : ℕ → List Sink.Event)
      (sinks : ℕ → Sink.State),
      Sink.setup (Sink.sampleHost 2) "eth0" [0, 1] = .ok (xsks, socks) ∧
      (∀ w sock, socks[w]? = some sock → Sink.machine.Run (trace w) (sinks w) ∧
        Sink.posted (trace w) =
          Sink.redirectedTo xsks (onQueues rss (samplePackets.map Packet.frame)) sock) ∧
      (∑ w ∈ Finset.range socks.length, (sinks w).counters).packets = server.packets ∧
      (∑ w ∈ Finset.range socks.length, (sinks w).counters).drops = server.drops := by
  intro datagram ops server rss
  obtain ⟨xsks, socks, hsetup⟩ := Sink.exists_setup "eth0" [0, 1] rfl rfl
    (fun q _ => Sink.sampleHost_opens 2 q) (by decide)
  have hregistered := (Sink.registered_of_setup hsetup).1
  have hlength : socks.length = 2 := hregistered.length
  have hfit : ∀ w : ℕ, ∀ frame ∈ (samplePackets.filter fun p =>
      (rss p.outer).toNat = w).map Packet.frame, frame.length ≤ frameSize.toNat := by
    intro w frame hframe
    obtain ⟨p, hp, rfl⟩ := List.mem_map.mp hframe
    have hall : ∀ p ∈ samplePackets, p.frame.length ≤ frameSize.toNat := by decide
    exact hall p (List.mem_filter.mp hp).1
  choose trace sinks hrun hposted hpc hrx _ using fun w => Sink.exists_delivery _ (hfit w)
  have hgets : ∀ w sock, socks[w]? = some sock → Sink.machine.Run (trace w) (sinks w) ∧
      Sink.posted (trace w) =
        Sink.redirectedTo xsks (onQueues rss (samplePackets.map Packet.frame)) sock :=
    fun w sock hsock => ⟨hrun w, by rw [hposted, redirectedTo_packets hregistered hsock]⟩
  have hread : ∀ w < socks.length, (sinks w).pending = [] := fun w _ => by
    simp [Sink.State.pending, Sink.State.todo, hpc, hrx]
  have hplain : ∀ p ∈ samplePackets, p.Plain := by
    simp [samplePackets, samplePacket, Packet.Plain]
  let batches (w : Bool) : List (List Datagram) :=
    if w then [[datagram true 1 9]] else [[datagram false 0 5, datagram false 0 8]]
  have hcut : ∀ w, (batches w).flatten =
      (samplePackets.filter fun p => samplePort p.outer = w).map Packet.datagram := by decide
  have hschedule : IsInterleaving (fun w => ((UdpWorker.new 0).run (batches w)).2)
      ((ops [datagram true 1 9]).map (Prod.mk true) ++
        (ops [datagram false 0 5, datagram false 0 8]).map (Prod.mk false)) := by
    intro w
    cases w <;> simp [batches, ops]
  have hrss : ∀ p ∈ samplePackets, ∀ h, header 0 p.datagram = some h →
      rss p.outer = if h.1 = 1 then 1 else 0 := by
    intro p hp h hheader
    simp only [rss, samplePort_of_header hp hheader, decide_eq_true_eq]
  have hagree := receivers_agree hplain 0 samplePort (fun sid => sid = 1)
    (fun _ hp _ hheader => samplePort_of_header hp hheader) (by decide) hcut hschedule rss
    (fun sid => if sid = 1 then 1 else 0) hrss hsetup (by rw [hlength]; decide) hgets hread
  rw [List.map_append, List.map_map, List.map_map] at hagree
  exact ⟨xsks, socks, trace, sinks, hsetup, hgets, by simpa using hagree.1,
    by simpa using hagree.2.1⟩

end RunPerf.Loss
