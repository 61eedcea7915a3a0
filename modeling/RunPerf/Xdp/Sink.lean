import RunPerf.Lib.Machine
import RunPerf.Receive.Gaps
import RunPerf.Xdp.Chunks

/-!
# The AF_XDP sink and its frames

`rx_loop` takes all descriptors from the RX ring, reads and counts the frame of each,
and gives the addresses back to the fill ring in one batch, whose result it ignores.
The kernel runs in between at any time: it takes the oldest fill entry, later writes a
packet into the chunk of that entry and posts a descriptor for it.  A posted address
need not be the start of the chunk, and `rx_loop` recycles it as it is; the kernel maps
every fill address to its chunk.

Frames are conserved (`Inv`): each of the 2048 RX chunks is in exactly one of the fill
ring, the kernel, the RX ring and the current batch.  Everything else follows by
counting.  The fill ring has as many cells as there are chunks, so a recycled batch
always fits; a chunk the kernel holds is not one that is being read, so a packet is
still what the kernel wrote when it is counted.
-/

namespace RunPerf.Xdp

open RunPerf.Lib RunPerf.Receive

namespace Sink

/-- `HDRS`: Ethernet, IPv4 and UDP header. -/
def hdrs : ℕ := 42

/-- Where `rx_loop` stands: before `consume_rx`, or in the loop over a batch with the
descriptors still to read and the addresses to recycle. -/
inductive Pc
  | poll
  | batch (todo : List XdpDesc) (recycle : List UInt64)

/-- The socket, the locals of `rx_loop` with the counters, and the fill entries that
the kernel has taken. -/
structure State where
  fill : AddrRing
  rx : DescRing
  area : ℕ → UInt8
  lastSeq : LastSeq
  counters : Counters
  pc : Pc
  kernel : List UInt64

inductive Event
  | consumeRx (descs : List XdpDesc)
  | readFrame (frame : List UInt8)
  | recycle (addrs : List UInt64) (enqueued : ℕ)
  | takeFill (addr : UInt64)
  | post (packet : List UInt8)

/-- The next step of `rx_loop`. -/
def loopStep (s : State) : Event × State :=
  match s.pc with
  | .poll =>
      let consumed := s.rx.consumeRx
      (.consumeRx consumed.2,
        { s with
            rx := consumed.1
            pc := if consumed.2.isEmpty then .poll else .batch consumed.2 [] })
  | .batch (desc :: todo) recycle =>
      let frame := frameOf s.area desc
      let counted := countPacket hdrs s.lastSeq frame frame.length
      (.readFrame frame,
        { s with
            lastSeq := counted.1
            counters := s.counters.applyAll counted.2
            pc := .batch todo (recycle ++ [desc.addr]) })
  | .batch [] recycle =>
      let enqueued := s.fill.enqueueBatch recycle
      (.recycle recycle enqueued.2, { s with fill := enqueued.1, pc := .poll })

/-- The kernel writes `packet` at `off` in the chunk of the `i`-th entry it holds and
posts a descriptor for it. -/
def State.post (s : State) (i off : ℕ) (addr : UInt64) (packet : List UInt8) : State :=
  let start := chunk addr * frameSize.toNat + off
  { s with
      area := writeBytes s.area start packet
      rx := s.rx.kernelPost ⟨UInt64.ofNat start, UInt32.ofNat packet.length, 0⟩
      kernel := s.kernel.eraseIdx i }

inductive Step (s : State) : Event → State → Prop
  | loop : Step s (loopStep s).1 (loopStep s).2
  | takeFill {addr : UInt64} {fill : AddrRing} (htake : s.fill.kernelTake = some (addr, fill)) :
      Step s (.takeFill addr) { s with fill := fill, kernel := s.kernel ++ [addr] }
  | post {i off : ℕ} {addr : UInt64} {packet : List UInt8} (hheld : s.kernel[i]? = some addr)
      (hoff : off < frameSize.toNat) (hfit : off + packet.length ≤ frameSize.toNat) :
      Step s (.post packet) (s.post i off addr packet)

/-- The sink as `Umem::new` and `create_xsk_socket` leave it: all RX chunks in the fill
ring, the RX ring empty, at any index. -/
def machine : Machine State Event where
  Init s := (∃ empty : AddrRing, empty.size = ringSize ∧ empty.producer = empty.consumer ∧
      s.fill = (empty.enqueueBatch rxAddrs).1) ∧
    s.rx.size = ringSize ∧ s.rx.producer = s.rx.consumer ∧
    s.lastSeq = LastSeq.new ∧ s.counters = Counters.zero ∧ s.pc = .poll ∧ s.kernel = []
  Step := Step

/-! ## What a trace says -/

/-- The packets the kernel posted, in order. -/
def posted (trace : List Event) : List (List UInt8) :=
  trace.filterMap fun
    | .post packet => some packet
    | _ => none

/-- The frames `rx_loop` read and counted, in order, with the bytes it found. -/
def readFrames (trace : List Event) : List (List UInt8) :=
  trace.filterMap fun
    | .readFrame frame => some frame
    | _ => none

/-! ## Where the chunks are -/

def State.todo (s : State) : List XdpDesc :=
  match s.pc with
  | .poll => []
  | .batch todo _ => todo

def State.recycle (s : State) : List UInt64 :=
  match s.pc with
  | .poll => []
  | .batch _ recycle => recycle

/-- The chunks in the fill ring, the kernel, the RX ring and the current batch. -/
def State.places (s : State) : List ℕ :=
  s.fill.contents.map chunk ++ s.kernel.map chunk ++
    s.rx.contents.map (fun desc => chunk desc.addr) ++
    (s.todo.map (fun desc => chunk desc.addr) ++ s.recycle.map chunk)

/-- The descriptors posted and not yet read, oldest first. -/
def State.pending (s : State) : List XdpDesc := s.todo ++ s.rx.contents

/-- Every RX chunk is in exactly one place, and what was posted lies in its chunk. -/
structure Conserved (s : State) : Prop where
  fill : s.fill.Represents ringSize s.fill.contents
  rx : s.rx.Represents ringSize s.rx.contents
  places : s.places.Perm (List.range ringSize.toNat)
  inside : ∀ desc ∈ s.pending,
    desc.addr.toNat % frameSize.toNat + desc.len.toNat ≤ frameSize.toNat

/-- What was posted is what was read followed by what is still to be read, and what
was read is what the counters say. -/
structure Accounted (trace : List Event) (s : State) : Prop where
  posted : posted trace = readFrames trace ++ s.pending.map (frameOf s.area)
  lastSeq : s.lastSeq = (countPackets hdrs LastSeq.new (readFrames trace)).1
  counters : s.counters =
    Counters.zero.applyAll (countPackets hdrs LastSeq.new (readFrames trace)).2

/-- Every batch that was given back was enqueued as a whole. -/
def AllRecycled (trace : List Event) : Prop :=
  ∀ addrs n, Event.recycle addrs n ∈ trace → n = addrs.length

structure Inv (trace : List Event) (s : State) : Prop where
  conserved : Conserved s
  accounted : Accounted trace s
  recycled : AllRecycled trace

/-- The chunks together are as many as a ring has cells. -/
theorem Conserved.length_places {s : State} (h : Conserved s) : s.places.length = 2048 := by
  rw [h.places.length_eq, List.length_range]
  rfl

/-- A step that keeps the number of times each chunk occurs keeps every chunk in one place. -/
theorem Conserved.places_perm {s t : State} (h : Conserved s)
    (hcount : ∀ c, t.places.count c = s.places.count c) :
    t.places.Perm (List.range ringSize.toNat) :=
  (List.perm_iff_count.mpr hcount).trans h.places

theorem inv_init {s : State} (h : machine.Init s) : Inv [] s := by
  obtain ⟨⟨empty, hsize, hempty, hfill⟩, hrxSize, hrxEmpty, hlast, hcounters, hpc, hkernel⟩ := h
  have hfilled := (Ring.represents_nil hsize hempty).enqueueBatch rxAddrs (by simp [rxAddrs])
  rw [← hfill, List.nil_append] at hfilled
  have hrx := Ring.represents_nil hrxSize hrxEmpty
  have htodo : s.todo = [] := by simp [State.todo, hpc]
  have hpending : s.pending = [] := by simp [State.pending, htodo, hrx.contents_eq]
  refine ⟨⟨?_, ?_, ?_, ?_⟩, ⟨?_, ?_, ?_⟩, ?_⟩
  · rw [hfilled.2.contents_eq]
    exact hfilled.2
  · rw [hrx.contents_eq]
    exact hrx
  · have hplaces : s.places = rxAddrs.map chunk := by
      simp [State.places, State.recycle, hpc, htodo, hkernel, hrx.contents_eq,
        hfilled.2.contents_eq]
    rw [hplaces, map_chunk_rxAddrs]
  · simp [hpending]
  · simp [posted, readFrames, hpending]
  · simpa [readFrames, countPackets] using hlast
  · simpa [readFrames, countPackets, Counters.applyAll] using hcounters
  · simp [AllRecycled]

/-! ## Steps that neither read nor post -/

/-- The steps that move chunks without reading or posting a frame. -/
def Event.Quiet : Event → Prop
  | .readFrame _ => False
  | .post _ => False
  | _ => True

theorem Accounted.quiet {trace : List Event} {s t : State} {event : Event}
    (h : Accounted trace s) (hquiet : event.Quiet) (hpending : t.pending = s.pending)
    (harea : t.area = s.area) (hlast : t.lastSeq = s.lastSeq)
    (hcounters : t.counters = s.counters) : Accounted (trace ++ [event]) t := by
  have hreads : readFrames (trace ++ [event]) = readFrames trace := by
    cases event <;> simp_all [readFrames, Event.Quiet]
  have hposted : Sink.posted (trace ++ [event]) = Sink.posted trace := by
    cases event <;> simp_all [Sink.posted, Event.Quiet]
  refine ⟨?_, ?_, ?_⟩
  · rw [hposted, hreads, hpending, harea, h.posted]
  · rw [hreads, hlast, h.lastSeq]
  · rw [hreads, hcounters, h.counters]

theorem AllRecycled.snoc {trace : List Event} (h : AllRecycled trace) {event : Event}
    (hevent : ∀ addrs n, event = .recycle addrs n → n = addrs.length) :
    AllRecycled (trace ++ [event]) := by
  intro addrs n hmem
  rcases List.mem_append.mp hmem with hold | hnew
  · exact h addrs n hold
  · exact hevent addrs n (List.mem_singleton.mp hnew).symm

/-! ## Every step conserves the chunks -/

theorem inv_consumeRx {trace : List Event} {s : State} (h : Inv trace s) (hpc : s.pc = .poll) :
    Inv (trace ++ [(loopStep s).1]) (loopStep s).2 := by
  obtain ⟨hout, hrx⟩ := h.conserved.rx.consumeRx
  have htodo : s.todo = [] := by simp [State.todo, hpc]
  have hrecycle : s.recycle = [] := by simp [State.recycle, hpc]
  have hstep : loopStep s = (.consumeRx s.rx.contents,
      { s with
          rx := s.rx.consumeRx.1
          pc := if s.rx.contents.isEmpty then .poll else .batch s.rx.contents [] }) := by
    simp only [loopStep, hpc, hout]
  have htodo' : (loopStep s).2.todo = s.rx.contents := by
    rw [hstep]
    cases hcontents : s.rx.contents <;> simp [State.todo]
  have hrecycle' : (loopStep s).2.recycle = [] := by
    rw [hstep]
    cases hcontents : s.rx.contents <;> simp [State.recycle]
  have hrx' : (loopStep s).2.rx.contents = [] := by
    rw [hstep]
    exact hrx.contents_eq
  have hpending : (loopStep s).2.pending = s.pending := by
    simp [State.pending, htodo, htodo', hrx']
  refine ⟨⟨?_, ?_, ?_, ?_⟩, h.accounted.quiet ?_ hpending ?_ ?_ ?_, h.recycled.snoc ?_⟩
  · rw [hstep]
    exact h.conserved.fill
  · rw [hrx', hstep]
    exact hrx
  · have hplaces := h.conserved.places
    simp only [State.places, htodo, hrecycle, htodo', hrecycle', hrx', List.map_nil,
      List.append_nil] at hplaces ⊢
    rw [hstep]
    exact hplaces
  · rw [hpending]
    exact h.conserved.inside
  all_goals simp [hstep, Event.Quiet]

theorem inv_readFrame {trace : List Event} {s : State} {desc : XdpDesc} {todo : List XdpDesc}
    {recycle : List UInt64} (h : Inv trace s) (hpc : s.pc = .batch (desc :: todo) recycle) :
    Inv (trace ++ [(loopStep s).1]) (loopStep s).2 := by
  let frame := frameOf s.area desc
  let counted := countPacket hdrs s.lastSeq frame frame.length
  have hstep : loopStep s = (.readFrame frame,
      { s with
          lastSeq := counted.1
          counters := s.counters.applyAll counted.2
          pc := .batch todo (recycle ++ [desc.addr]) }) := by
    simp only [loopStep, hpc, frame, counted]
  have hpending : s.pending = desc :: (loopStep s).2.pending := by
    simp [State.pending, State.todo, hpc, hstep]
  have hreads : readFrames (trace ++ [(loopStep s).1]) = readFrames trace ++ [frame] := by
    simp [hstep, readFrames]
  have hcounted : countPackets hdrs LastSeq.new (readFrames trace ++ [frame]) =
      (counted.1, (countPackets hdrs LastSeq.new (readFrames trace)).2 ++ counted.2) := by
    rw [countPackets_append, ← h.accounted.lastSeq]
    simp [countPackets, counted]
  refine ⟨⟨?_, ?_, ?_, ?_⟩, ⟨?_, ?_, ?_⟩, h.recycled.snoc ?_⟩
  · rw [hstep]
    exact h.conserved.fill
  · rw [hstep]
    exact h.conserved.rx
  · refine h.conserved.places_perm fun c => ?_
    simp only [State.places, State.todo, State.recycle, hpc, hstep, List.map_append,
      List.map_cons, List.map_nil, List.count_append, List.count_cons, List.count_nil]
    omega
  · intro d hd
    apply h.conserved.inside d
    rw [hpending]
    exact List.mem_cons_of_mem _ hd
  · have hposted := h.accounted.posted
    rw [hpending, List.map_cons] at hposted
    rw [hreads, List.append_assoc, hstep]
    rw [hstep] at hposted
    simpa [posted] using hposted
  · rw [hreads, hcounted, hstep]
  · rw [hreads, hcounted, hstep, Counters.applyAll_append, ← h.accounted.counters]
  · simp [hstep]

/-- The batch that goes back to the fill ring fits next to what is still in it. -/
theorem Conserved.recycle_fits {s : State} (h : Conserved s) :
    s.fill.contents.length + s.recycle.length ≤ ringSize.toNat := by
  have hlength := h.length_places
  have hsize : ringSize.toNat = 2048 := rfl
  simp only [State.places, List.length_append, List.length_map] at hlength
  omega

theorem inv_recycle {trace : List Event} {s : State} {recycle : List UInt64}
    (h : Inv trace s) (hpc : s.pc = .batch [] recycle) :
    Inv (trace ++ [(loopStep s).1]) (loopStep s).2 := by
  have hrecycle : s.recycle = recycle := by simp [State.recycle, hpc]
  obtain ⟨hcount, hfill⟩ := h.conserved.fill.enqueueBatch recycle (by
    rw [← hrecycle]
    exact h.conserved.recycle_fits)
  have hstep : loopStep s = (.recycle recycle recycle.length,
      { s with fill := (s.fill.enqueueBatch recycle).1, pc := .poll }) := by
    simp only [loopStep, hpc, hcount]
  have hfill' : (loopStep s).2.fill.contents = s.fill.contents ++ recycle := by
    rw [hstep]
    exact hfill.contents_eq
  have hpending : (loopStep s).2.pending = s.pending := by
    simp [State.pending, State.todo, hpc, hstep]
  refine ⟨⟨?_, ?_, ?_, ?_⟩, h.accounted.quiet ?_ hpending ?_ ?_ ?_, h.recycled.snoc ?_⟩
  · rw [hfill', hstep]
    exact hfill
  · rw [hstep]
    exact h.conserved.rx
  · refine h.conserved.places_perm fun c => ?_
    simp only [State.places, hfill', List.map_append, List.count_append]
    simp only [State.todo, State.recycle, hpc, hstep, List.map_nil, List.count_nil]
    omega
  · rw [hpending]
    exact h.conserved.inside
  · simp [hstep, Event.Quiet]
  · simp [hstep]
  · simp [hstep]
  · simp [hstep]
  · intro addrs n hevent
    rw [hstep] at hevent
    injection hevent with haddrs hn
    rw [← haddrs, ← hn]

theorem inv_takeFill {trace : List Event} {s : State} {addr : UInt64} {fill : AddrRing}
    (h : Inv trace s) (htake : s.fill.kernelTake = some (addr, fill)) :
    Inv (trace ++ [.takeFill addr]) { s with fill := fill, kernel := s.kernel ++ [addr] } := by
  obtain ⟨rest, hcontents, hfill⟩ := h.conserved.fill.kernelTake htake
  refine ⟨⟨?_, h.conserved.rx, ?_, h.conserved.inside⟩,
    h.accounted.quiet trivial rfl rfl rfl rfl, h.recycled.snoc (by simp)⟩
  · rw [hfill.contents_eq]
    exact hfill
  · refine h.conserved.places_perm fun c => ?_
    simp only [State.places, hcontents, hfill.contents_eq, List.map_append, List.map_cons,
      List.map_nil, List.count_append, List.count_cons, List.count_nil]
    simp only [State.todo, State.recycle]
    omega

/-! ## A post touches only the chunk of its entry -/

/-- A chunk the kernel holds is none of those posted and not yet recycled. -/
theorem Conserved.chunk_ne_of_pending {s : State} (h : Conserved s) {addr : UInt64}
    (haddr : addr ∈ s.kernel) {desc : XdpDesc} (hdesc : desc ∈ s.pending) :
    chunk desc.addr ≠ chunk addr := by
  intro heq
  have hcount := h.places.count_eq (chunk addr)
  have hone : (List.range ringSize.toNat).count (chunk addr) ≤ 1 :=
    List.nodup_iff_count_le_one.mp List.nodup_range _
  have hkernel : 1 ≤ (s.kernel.map chunk).count (chunk addr) :=
    List.count_pos_iff.mpr (List.mem_map_of_mem haddr)
  have hpending : 1 ≤ (s.pending.map fun desc => chunk desc.addr).count (chunk addr) := by
    rw [← heq]
    exact List.count_pos_iff.mpr (List.mem_map_of_mem hdesc)
  simp only [State.pending, List.map_append, List.count_append] at hpending
  simp only [State.places, List.count_append] at hcount
  omega

theorem Conserved.chunk_lt {s : State} (h : Conserved s) {c : ℕ} (hc : c ∈ s.places) :
    c < 2048 :=
  List.mem_range.mp (h.places.mem_iff.mp hc)

/-- The descriptor that a post puts on the RX ring. -/
def postedDesc (off : ℕ) (addr : UInt64) (packet : List UInt8) : XdpDesc :=
  ⟨UInt64.ofNat (chunk addr * frameSize.toNat + off), UInt32.ofNat packet.length, 0⟩

/-- The descriptor lies in the chunk of the entry. -/
theorem postedDesc_inside {off : ℕ} {addr : UInt64} {packet : List UInt8}
    (hchunk : chunk addr < 2048) (hoff : off < frameSize.toNat)
    (hfit : off + packet.length ≤ frameSize.toNat) :
    (postedDesc off addr packet).addr.toNat = chunk addr * frameSize.toNat + off ∧
      (postedDesc off addr packet).len.toNat = packet.length ∧
      chunk (postedDesc off addr packet).addr = chunk addr := by
  have hframe : frameSize.toNat = 4096 := rfl
  have hstart : (postedDesc off addr packet).addr.toNat = chunk addr * frameSize.toNat + off := by
    have hlt : chunk addr * frameSize.toNat + off < 2 ^ 64 := by
      rw [hframe] at hoff ⊢
      omega
    rw [postedDesc, UInt64.toNat_ofNat', Nat.mod_eq_of_lt hlt]
  refine ⟨hstart, ?_, ?_⟩
  · rw [postedDesc, UInt32.toNat_ofNat', Nat.mod_eq_of_lt (by omega)]
  · calc chunk (postedDesc off addr packet).addr
        = (chunk addr * frameSize.toNat + off) / frameSize.toNat := by rw [chunk, hstart]
      _ = chunk addr + off / frameSize.toNat := by
          rw [Nat.mul_comm, Nat.mul_add_div (Nat.zero_lt_of_lt hoff)]
      _ = chunk addr := by rw [Nat.div_eq_of_lt hoff, Nat.add_zero]

/-- While the kernel holds a chunk, the RX ring is not full. -/
theorem Conserved.post_room {s : State} (h : Conserved s) {addr : UInt64}
    (hmem : addr ∈ s.kernel) : s.rx.contents.length < ringSize.toNat ∧ chunk addr < 2048 := by
  constructor
  · have hlength := h.length_places
    have hpos : 0 < s.kernel.length := List.length_pos_of_mem hmem
    have hsize : ringSize.toNat = 2048 := rfl
    simp only [State.places, List.length_append, List.length_map] at hlength
    omega
  · apply h.chunk_lt
    simp only [State.places, List.mem_append]
    exact .inl (.inl (.inr (List.mem_map_of_mem hmem)))

/-- The packet is found behind the frames that were pending, which stay as they are. -/
theorem Conserved.frames_post {s : State} (h : Conserved s) {off : ℕ} {addr : UInt64}
    {packet : List UInt8} (hmem : addr ∈ s.kernel) (hoff : off < frameSize.toNat)
    (hfit : off + packet.length ≤ frameSize.toNat) :
    (s.pending ++ [postedDesc off addr packet]).map
        (frameOf (writeBytes s.area (chunk addr * frameSize.toNat + off) packet)) =
      s.pending.map (frameOf s.area) ++ [packet] := by
  obtain ⟨hstart, hlen, -⟩ := postedDesc_inside (h.post_room hmem).2 hoff hfit
  rw [List.map_append, List.map_singleton]
  congr 1
  · apply List.map_congr_left
    intro d hd
    exact frameOf_writeBytes (h.chunk_ne_of_pending hmem hd) (h.inside d hd) hfit
  · rw [frameOf, hstart, hlen, readBytes_writeBytes_self]

theorem inv_post {trace : List Event} {s : State} {i off : ℕ} {addr : UInt64}
    {packet : List UInt8} (h : Inv trace s) (hheld : s.kernel[i]? = some addr)
    (hoff : off < frameSize.toNat) (hfit : off + packet.length ≤ frameSize.toNat) :
    Inv (trace ++ [.post packet]) (s.post i off addr packet) := by
  obtain ⟨hi, hget⟩ := List.getElem?_eq_some_iff.mp hheld
  have hmem : addr ∈ s.kernel := List.mem_of_getElem? hheld
  obtain ⟨hroom, hchunk⟩ := h.conserved.post_room hmem
  obtain ⟨hstart, hlen, hdesc⟩ := postedDesc_inside hchunk hoff hfit
  have hrx : (s.post i off addr packet).rx.Represents ringSize
      (s.rx.contents ++ [postedDesc off addr packet]) :=
    h.conserved.rx.kernelPost hroom _
  have hcontents := hrx.contents_eq
  have hpending : (s.post i off addr packet).pending =
      s.pending ++ [postedDesc off addr packet] := by
    show s.todo ++ (s.post i off addr packet).rx.contents = _
    rw [hcontents, State.pending, List.append_assoc]
  refine ⟨⟨h.conserved.fill, ?_, ?_, ?_⟩, ⟨?_, ?_, ?_⟩, h.recycled.snoc (by simp)⟩
  · rw [hcontents]
    exact hrx
  · refine h.conserved.places_perm fun c => ?_
    have hkernel := ((List.getElem_cons_eraseIdx_perm hi).map chunk).count_eq c
    rw [hget] at hkernel
    show (s.fill.contents.map chunk ++ (s.kernel.eraseIdx i).map chunk ++
      (s.post i off addr packet).rx.contents.map (fun desc => chunk desc.addr) ++
      (s.todo.map (fun desc => chunk desc.addr) ++ s.recycle.map chunk)).count c = _
    rw [hcontents]
    simp only [State.places, List.map_append, List.map_cons, List.map_nil, List.count_append,
      List.count_cons, List.count_nil, hdesc] at hkernel ⊢
    omega
  · rw [hpending]
    intro d hd
    rcases List.mem_append.mp hd with hold | hnew
    · exact h.conserved.inside d hold
    · obtain rfl := List.mem_singleton.mp hnew
      rw [hstart, hlen, Nat.mul_add_mod', Nat.mod_eq_of_lt hoff]
      exact hfit
  · have hposted := h.accounted.posted
    have hframes := h.conserved.frames_post hmem hoff hfit
    rw [hpending]
    show posted (trace ++ [.post packet]) = readFrames (trace ++ [.post packet]) ++
      (s.pending ++ [postedDesc off addr packet]).map
        (frameOf (writeBytes s.area (chunk addr * frameSize.toNat + off) packet))
    rw [hframes]
    simpa [posted, readFrames, ← List.append_assoc] using hposted
  · simpa [readFrames, State.post] using h.accounted.lastSeq
  · simpa [readFrames, State.post] using h.accounted.counters

theorem inv_step {trace : List Event} {s t : State} {event : Event} (h : Inv trace s)
    (hstep : Step s event t) : Inv (trace ++ [event]) t := by
  cases hstep with
  | loop =>
      cases hpc : s.pc with
      | poll => exact inv_consumeRx h hpc
      | batch todo recycle =>
          cases todo with
          | nil => exact inv_recycle h hpc
          | cons desc todo => exact inv_readFrame h hpc
  | takeFill htake => exact inv_takeFill h htake
  | post hheld hoff hfit => exact inv_post h hheld hoff hfit

theorem inv_run {trace : List Event} {s : State} (hrun : machine.Run trace s) : Inv trace s :=
  hrun.invariant (P := Inv) (fun _ h => inv_init h) fun _ _ _ _ _ h hstep => inv_step h hstep

/-! ## The main statement -/

/-- The sink right after start-up, with all ring indices at `start`. -/
def started (start : UInt32) : State where
  fill := ((emptyRing start 0).enqueueBatch rxAddrs).1
  rx := emptyRing start ⟨0, 0, 0⟩
  area := fun _ => 0
  lastSeq := LastSeq.new
  counters := Counters.zero
  pc := .poll
  kernel := []

theorem init_started (start : UInt32) : machine.Init (started start) :=
  ⟨⟨emptyRing start 0, rfl, rfl, rfl⟩, rfl, rfl, rfl, rfl, rfl, rfl⟩

theorem posted_append (first second : List Event) :
    posted (first ++ second) = posted first ++ posted second :=
  List.filterMap_append

/-- Reading a whole batch. -/
theorem exists_read_batch (todo : List XdpDesc) (recycle : List UInt64) {s : State}
    (hpc : s.pc = .batch todo recycle) :
    ∃ trace recycle' t, machine.Path s trace t ∧ posted trace = [] ∧ t.pc = .batch [] recycle' ∧
      t.rx = s.rx ∧ t.kernel = s.kernel := by
  induction todo generalizing s recycle with
  | nil => exact ⟨[], recycle, s, .nil, rfl, hpc, rfl, rfl⟩
  | cons desc todo ih =>
      have hevent : posted [(loopStep s).1] = [] := by simp [posted, loopStep, hpc]
      have hnext : (loopStep s).2.pc = .batch todo (recycle ++ [desc.addr]) ∧
          (loopStep s).2.rx = s.rx ∧ (loopStep s).2.kernel = s.kernel := by
        simp [loopStep, hpc]
      obtain ⟨trace, recycle', t, hpath, hposted, htpc, hrx, hkernel⟩ := ih _ hnext.1
      refine ⟨[(loopStep s).1] ++ trace, recycle', t, (Machine.Path.single Step.loop).append hpath,
        ?_, htpc, hrx.trans hnext.2.1, hkernel.trans hnext.2.2⟩
      rw [posted_append, hevent, hposted]
      rfl

/-- From the top of its loop, `rx_loop` gets back there with the RX ring empty. -/
theorem exists_caught_up {s : State} (h : Conserved s) (hpc : s.pc = .poll) :
    ∃ trace t, machine.Path s trace t ∧ posted trace = [] ∧ t.pc = .poll ∧
      t.rx.contents = [] ∧ t.kernel = s.kernel := by
  obtain ⟨hout, hempty⟩ := h.rx.consumeRx
  have hevent : posted [(loopStep s).1] = [] := by simp [posted, loopStep, hpc]
  have hnext : (loopStep s).2.rx = s.rx.consumeRx.1 ∧ (loopStep s).2.kernel = s.kernel := by
    simp [loopStep, hpc]
  have hconsume : machine.Path s [(loopStep s).1] (loopStep s).2 := .single Step.loop
  by_cases hnone : s.rx.consumeRx.2.isEmpty
  · refine ⟨_, _, hconsume, hevent, ?_, ?_, hnext.2⟩
    · simp [loopStep, hpc, hnone]
    · rw [hnext.1]
      exact hempty.contents_eq
  · obtain ⟨trace, recycle, t, hpath, hposted, htpc, hrx, hkernel⟩ :=
      exists_read_batch s.rx.consumeRx.2 [] (s := (loopStep s).2)
        (by simp [loopStep, hpc, hnone])
    have hgive : posted [(loopStep t).1] = [] := by simp [posted, loopStep, htpc]
    refine ⟨_, (loopStep t).2, (hconsume.append hpath).snoc Step.loop, ?_, ?_, ?_, ?_⟩
    · rw [posted_append, posted_append, hevent, hposted, hgive]
      rfl
    · simp [loopStep, htpc]
    · have hsame : (loopStep t).2.rx = t.rx := by simp [loopStep, htpc]
      rw [hsame, hrx, hnext.1]
      exact hempty.contents_eq
    · have hsame : (loopStep t).2.kernel = t.kernel := by simp [loopStep, htpc]
      rw [hsame, hkernel, hnext.2]

/-- Any packets that fit into a chunk can be posted one after the other, and all read. -/
theorem exists_delivery (packets : List (List UInt8))
    (hfit : ∀ packet ∈ packets, packet.length ≤ frameSize.toNat) :
    ∃ trace s, machine.Run trace s ∧ posted trace = packets ∧ s.pc = .poll ∧
      s.rx.contents = [] ∧ s.kernel = [] := by
  induction packets using List.reverseRecOn with
  | nil =>
      have hnil : (started 0).rx.Represents ringSize [] := Ring.represents_nil rfl rfl
      exact ⟨[], started 0, ⟨_, init_started 0, .nil⟩, rfl, rfl, hnil.contents_eq, rfl⟩
  | append_singleton packets packet ih =>
      obtain ⟨trace, s, hrun, hposted, hpc, hrx, hkernel⟩ :=
        ih fun p hp => hfit p (List.mem_append_left _ hp)
      have hinv := (inv_run hrun).conserved
      -- All chunks are in the fill ring, so the kernel finds one there.
      have hfill : s.fill.contents.length = 2048 := by
        have hlength := hinv.length_places
        simpa [State.places, State.todo, State.recycle, hpc, hrx, hkernel] using hlength
      obtain ⟨addr, fill, htake⟩ := hinv.fill.exists_kernelTake (by omega)
      let held : State := { s with fill := fill, kernel := s.kernel ++ [addr] }
      have hheld : held.kernel[0]? = some addr := by simp [held, hkernel]
      have hpost : Step held (.post packet) (held.post 0 0 addr packet) :=
        .post hheld (by decide) (by simpa using hfit packet (by simp))
      have hrun' := hrun.append ((Machine.Path.single (M := machine)
        (Step.takeFill htake)).snoc hpost)
      obtain ⟨later, t, hlater, hquiet, htpc, htrx, htkernel⟩ :=
        exists_caught_up (inv_run hrun').conserved hpc
      refine ⟨_, t, hrun'.append hlater, ?_, htpc, htrx, ?_⟩
      · rw [posted_append, posted_append, hposted, hquiet]
        simp [posted]
      · rw [htkernel]
        simp [State.post, held, hkernel]

/-- Behind the last packet everything has been read. -/
theorem exists_all_read (packets : List (List UInt8))
    (hfit : ∀ packet ∈ packets, packet.length ≤ frameSize.toNat) :
    ∃ trace s, machine.Run trace s ∧ posted trace = packets ∧ readFrames trace = packets := by
  obtain ⟨trace, s, hrun, hposted, hpc, hrx, -⟩ := exists_delivery packets hfit
  have hpending : s.pending = [] := by simp [State.pending, State.todo, hpc, hrx]
  have hread := (inv_run hrun).accounted.posted
  rw [hposted, hpending, List.map_nil, List.append_nil] at hread
  exact ⟨trace, s, hrun, hposted, hread.symm⟩

end Sink

end RunPerf.Xdp
