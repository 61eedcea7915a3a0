import RunPerf.Xdp.Gen

/-!
# The frames of the generator

A frame of the transmit side is always in exactly one of five places: the pool, the hands
of the worker, the TX ring, the kernel and the completion ring (`Conserved`).  There are
as many frames as the two rings have cells, so neither ring is ever full when something is
put on it; and the frame that `tx_one` writes is not one that the kernel may read.

Hence (`Delivered`) what the kernel finds in the frames, in the order in which it takes
them and for as long as it holds them, is what `write_frame` made of the payloads that were
accepted.  These are the payloads of the successful attempts, in their order (`Stamped`).
-/

namespace RunPerf.Xdp.Gen

open RunPerf.Lib

variable {cfg : Config} {trace : List Event} {s t : State} {event : Event}

/-! ## The invariants -/

/-- `write_frame` has not panicked, and the TX ring was not full. -/
def Pc.Running : Pc → Prop
  | .giveBack _ _ => False
  | .panicked => False
  | _ => True

/-- Every frame is in exactly one place. -/
structure Conserved (s : State) : Prop where
  tx : s.tx.Represents ringSize s.tx.contents
  comp : s.comp.Represents ringSize s.comp.contents
  places : s.places.Perm txPool
  running : s.pc.Running

/-- The attempts are numbered from zero on, and the accepted payloads are those of the
attempts that succeeded. -/
structure Stamped (cfg : Config) (trace : List Event) (s : State) : Prop where
  payload : ∃ seq, s.payload = cfg.payloadOf seq
  idle : ¬ s.InAttempt → s.seq = UInt64.ofNat (results trace).length
  busy : s.InAttempt → s.seq = UInt64.ofNat ((results trace).length + 1) ∧
    s.payload = cfg.payloadOf (UInt64.ofNat (results trace).length)
  accepted : accepted trace = (successes 0 (results trace)).map fun number =>
    cfg.payloadOf (UInt64.ofNat number)

/-- What the kernel took, what it holds and what is on the TX ring are the frames of the
accepted payloads. -/
structure Delivered (cfg : Config) (trace : List Event) (s : State) : Prop where
  lens : ∀ desc ∈ s.tx.contents ++ s.kernel.map Prod.snd,
    desc.len.toNat = outerHdr + cfg.payloadLen
  count : (accepted trace).length = s.taken + s.tx.contents.length
  taken : takenFrames trace = ((accepted trace).map cfg.hdr.frameBytes).take s.taken
  pending : s.tx.contents.map (frameOf s.area) =
    ((accepted trace).map cfg.hdr.frameBytes).drop s.taken
  held : ∀ held ∈ s.kernel, (takenFrames trace)[held.1]? = some (frameOf s.area held.2)

/-- The frame that `tx_one` has written is that of the payload. -/
def WrittenFrame (cfg : Config) (s : State) : Prop :=
  ∀ desc left sent, s.pc = .written desc left sent →
    desc.len.toNat = outerHdr + cfg.payloadLen ∧
      frameOf s.area desc = cfg.hdr.frameBytes s.payload

structure Inv (cfg : Config) (trace : List Event) (s : State) : Prop where
  conserved : Conserved s
  stamped : Stamped cfg trace s
  delivered : Delivered cfg trace s
  written : WrittenFrame cfg s

/-! ## Payloads -/

/-- Stamping a payload with another number. -/
theorem copyAt_payloadOf (old new : UInt64) :
    copyAt 8 (toLeBytes new) (cfg.payloadOf old) = cfg.payloadOf new := by
  have hsid : (toLeBytes cfg.worker).length = 8 := length_toLeBytes _
  have hold : (toLeBytes cfg.worker ++ toLeBytes old).length = 8 + (toLeBytes new).length := by
    simp
  have htail : (cfg.payloadOf old).drop (8 + (toLeBytes new).length) =
      List.replicate (cfg.payloadLen - 16) 0 := by
    rw [Config.payloadOf, ← List.append_assoc, List.drop_left' hold]
  rw [copyAt, htail, Config.payloadOf, List.take_left' hsid, Config.payloadOf]

theorem payload_init :
    copyAt 0 (toLeBytes cfg.worker) (List.replicate cfg.payloadLen 0) = cfg.payloadOf 0 := by
  have hmin := cfg.payload_min
  have hzero : toLeBytes 0 = List.replicate 8 0 := by decide
  rw [copyAt, Config.payloadOf, hzero, List.replicate_append_replicate]
  simp only [List.take_zero, List.nil_append, length_toLeBytes, List.drop_replicate]
  congr 2
  omega

theorem length_payloadOf (seq : UInt64) : (cfg.payloadOf seq).length = cfg.payloadLen := by
  have hmin := cfg.payload_min
  simp only [Config.payloadOf, List.length_append, length_toLeBytes, List.length_replicate]
  omega

/-! ## What conservation gives -/

theorem Conserved.length_places (h : Conserved s) : s.places.length = 2048 := by
  rw [h.places.length_eq, length_txPool]

/-- A step that keeps the number of times each frame occurs keeps every frame in one place. -/
theorem Conserved.places_perm (h : Conserved s)
    (hcount : ∀ addr, t.places.count addr = s.places.count addr) : t.places.Perm txPool :=
  (List.perm_iff_count.mpr hcount).trans h.places

theorem Conserved.mem_txPool (h : Conserved s) {addr : UInt64} (hmem : addr ∈ s.places) :
    addr ∈ txPool :=
  h.places.mem_iff.mp hmem

theorem Conserved.count_le_one (h : Conserved s) (addr : UInt64) : s.places.count addr ≤ 1 := by
  rw [h.places.count_eq]
  exact List.nodup_iff_count_le_one.mp nodup_txPool addr

theorem mem_places_of_inHand {addr : UInt64} (h : addr ∈ s.inHand) : addr ∈ s.places := by
  simp only [State.places, List.mem_append]
  exact .inl (.inl (.inl (.inr h)))

theorem mem_places_of_visible {desc : XdpDesc}
    (h : desc ∈ s.tx.contents ++ s.kernel.map Prod.snd) : desc.addr ∈ s.places := by
  simp only [State.places, List.mem_append]
  rcases List.mem_append.mp h with htx | hkernel
  · exact .inl (.inl (.inr (List.mem_map_of_mem htx)))
  · obtain ⟨held, hheld, rfl⟩ := List.mem_map.mp hkernel
    exact .inl (.inr (List.mem_map_of_mem hheld))

/-- The frame in hand is neither on the TX ring nor with the kernel. -/
theorem Conserved.ne_of_visible (h : Conserved s) {addr : UInt64} (haddr : addr ∈ s.inHand)
    {desc : XdpDesc} (hdesc : desc ∈ s.tx.contents ++ s.kernel.map Prod.snd) :
    desc.addr ≠ addr := by
  intro heq
  have hone := h.count_le_one addr
  have hhand : 1 ≤ s.inHand.count addr := List.count_pos_iff.mpr haddr
  have hvisible : 1 ≤ (s.tx.contents.map XdpDesc.addr ++
      s.kernel.map fun held => held.2.addr).count addr := by
    rw [← heq]
    apply List.count_pos_iff.mpr
    rcases List.mem_append.mp hdesc with htx | hkernel
    · exact List.mem_append_left _ (List.mem_map_of_mem htx)
    · obtain ⟨held, hheld, rfl⟩ := List.mem_map.mp hkernel
      exact List.mem_append_right _ (List.mem_map_of_mem hheld)
  simp only [State.places, List.count_append] at hone hvisible
  omega

/-! ## Steps that leave a part of the state alone -/

theorem Conserved.of_same (h : Conserved s) (htx : t.tx = s.tx) (hcomp : t.comp = s.comp)
    (hpool : t.pool = s.pool) (hkernel : t.kernel = s.kernel) (hhand : t.inHand = s.inHand)
    (hrunning : t.pc.Running) : Conserved t := by
  refine ⟨?_, ?_, ?_, hrunning⟩
  · rw [htx]
    exact h.tx
  · rw [hcomp]
    exact h.comp
  · rw [State.places, htx, hcomp, hpool, hkernel, hhand]
    exact h.places

theorem Stamped.of_same {trace' : List Event} (h : Stamped cfg trace s)
    (hresults : results trace' = results trace)
    (haccepted : Gen.accepted trace' = Gen.accepted trace)
    (hpayload : t.payload = s.payload) (hseq : t.seq = s.seq)
    (hattempt : t.InAttempt ↔ s.InAttempt) : Stamped cfg trace' t := by
  refine ⟨?_, ?_, ?_, ?_⟩
  · rw [hpayload]
    exact h.payload
  · rw [hattempt, hseq, hresults]
    exact h.idle
  · rw [hattempt, hseq, hresults, hpayload]
    exact h.busy
  · rw [haccepted, hresults]
    exact h.accepted

theorem Delivered.of_same {trace' : List Event} (h : Delivered cfg trace s)
    (haccepted : Gen.accepted trace' = Gen.accepted trace)
    (hframes : takenFrames trace' = takenFrames trace)
    (hcontents : t.tx.contents = s.tx.contents) (hkernel : ∀ held ∈ t.kernel, held ∈ s.kernel)
    (harea : ∀ desc ∈ s.tx.contents ++ s.kernel.map Prod.snd,
      frameOf t.area desc = frameOf s.area desc)
    (htaken : t.taken = s.taken) : Delivered cfg trace' t := by
  refine ⟨?_, ?_, ?_, ?_, ?_⟩
  · intro desc hdesc
    apply h.lens desc
    rw [hcontents] at hdesc
    refine List.mem_append.mpr ((List.mem_append.mp hdesc).imp_right fun hmem => ?_)
    obtain ⟨held, hheld, rfl⟩ := List.mem_map.mp hmem
    exact List.mem_map_of_mem (hkernel held hheld)
  · rw [haccepted, htaken, hcontents]
    exact h.count
  · rw [hframes, haccepted, htaken]
    exact h.taken
  · rw [hcontents, haccepted, htaken, ← h.pending]
    apply List.map_congr_left
    intro desc hdesc
    exact harea desc (List.mem_append_left _ hdesc)
  · intro held hheld
    have hold := hkernel held hheld
    rw [hframes, h.held held hold,
      harea held.2 (List.mem_append_right _ (List.mem_map_of_mem hold))]

theorem Delivered.length_takenFrames (h : Delivered cfg trace s) :
    (takenFrames trace).length = s.taken := by
  have hcount := h.count
  rw [h.taken, List.length_take, List.length_map]
  omega

/-- Events that neither begin nor end an attempt, write no frame and take none. -/
def Event.Quiet : Event → Prop
  | .pop _ => False
  | .write => False
  | .produce _ _ => False
  | .take _ => False
  | _ => True

theorem Inv.quiet (h : Inv cfg trace s) (hconserved : Conserved t) (hquiet : event.Quiet)
    (hpc : t.pc = s.pc ∨ ¬ s.InAttempt ∧ ¬ t.InAttempt)
    (hcontents : t.tx.contents = s.tx.contents) (hkernel : ∀ held ∈ t.kernel, held ∈ s.kernel)
    (harea : t.area = s.area) (hpayload : t.payload = s.payload) (hseq : t.seq = s.seq)
    (htaken : t.taken = s.taken) : Inv cfg (trace ++ [event]) t := by
  have hresults : results (trace ++ [event]) = results trace := by
    cases event <;> simp_all [results, Event.Quiet]
  have haccepted : accepted (trace ++ [event]) = accepted trace := by
    cases event <;> simp_all [accepted, Event.Quiet]
  have hframes : takenFrames (trace ++ [event]) = takenFrames trace := by
    cases event <;> simp_all [takenFrames, Event.Quiet]
  have hattempt : t.InAttempt ↔ s.InAttempt := by
    rcases hpc with heq | ⟨hs, ht⟩
    · simp only [State.InAttempt, heq]
    · exact iff_of_false ht hs
  refine ⟨hconserved, h.stamped.of_same hresults haccepted hpayload hseq hattempt,
    h.delivered.of_same haccepted hframes hcontents hkernel (fun _ _ => by rw [harea]) htaken, ?_⟩
  intro desc left sent hwritten
  rw [harea, hpayload]
  rcases hpc with heq | ⟨-, ht⟩
  · exact h.written desc left sent (heq.symm.trans hwritten)
  · exact absurd (by simp [State.InAttempt, hwritten]) ht

/-- The places in the code where the worker has nothing in hand. -/
def Pc.Between : Pc → Prop
  | .head => True
  | .batch _ _ => True
  | .kicked _ => True
  | .pace _ => True
  | .stopped => True
  | _ => False

/-- The steps around the batch touch neither rings nor pool. -/
theorem Inv.between {pc : Pc} (h : Inv cfg trace s) (hs : s.pc.Between) (hpc : pc.Between)
    (hquiet : event.Quiet) (pkts bytes : UInt64) (pacer : Pacer) :
    Inv cfg (trace ++ [event])
      { s with pkts := pkts, bytes := bytes, pacer := pacer, pc := pc } := by
  have hhand : ∀ u : State, u.pc.Between → u.inHand = [] ∧ ¬ u.InAttempt ∧ u.pc.Running := by
    intro u hu
    cases hupc : u.pc <;> simp_all [Pc.Between, Pc.Running, State.inHand, State.InAttempt]
  obtain ⟨hold, hidle, -⟩ := hhand s hs
  obtain ⟨hnew, hidle', hrunning⟩ :=
    hhand { s with pkts := pkts, bytes := bytes, pacer := pacer, pc := pc } hpc
  exact h.quiet (h.conserved.of_same rfl rfl rfl rfl (hnew.trans hold.symm) hrunning) hquiet
    (.inr ⟨hidle, hidle'⟩) rfl (fun _ hheld => hheld) rfl rfl rfl rfl

/-! ## The start -/

theorem inv_init (h : (machine cfg).Init s) : Inv cfg [] s := by
  obtain ⟨htxSize, htxEmpty, hcompSize, hcompEmpty, hpool, hpayload, hseq, -, -, -, hpc, hkernel,
    htaken⟩ := h
  have htx := Ring.represents_nil htxSize htxEmpty
  have hcomp := Ring.represents_nil hcompSize hcompEmpty
  refine ⟨⟨?_, ?_, ?_, ?_⟩, ⟨⟨0, ?_⟩, ?_, ?_, ?_⟩, ⟨?_, ?_, ?_, ?_, ?_⟩, ?_⟩
  · rw [htx.contents_eq]
    exact htx
  · rw [hcomp.contents_eq]
    exact hcomp
  · simp [State.places, State.inHand, hpc, hpool, htx.contents_eq, hcomp.contents_eq, hkernel]
  · simp [Pc.Running, hpc]
  · rw [hpayload]
    exact payload_init
  · intro _
    simpa [results] using hseq
  · simp [State.InAttempt, hpc]
  · simp [accepted, results, successes]
  · simp [htx.contents_eq, hkernel]
  · simp [accepted, htx.contents_eq, htaken]
  · simp [takenFrames, accepted]
  · simp [accepted, htx.contents_eq]
  · simp [hkernel]
  · simp [WrittenFrame, hpc]

/-! ## Steps between the pool and the completion ring -/

theorem inv_dequeue {found pending : ℕ} (h : Inv cfg trace s) (hpc : s.pc = .head) :
    Inv cfg (trace ++ [.dequeue found pending])
      { s with comp := s.comp.dequeueAll.1, pc := .recycle s.comp.dequeueAll.2 } := by
  obtain ⟨hout, hcomp⟩ := h.conserved.comp.dequeueAll
  refine h.quiet ⟨h.conserved.tx, ?_, ?_, by trivial⟩ trivial (.inr ?_) rfl (fun _ hheld => hheld)
    rfl rfl rfl rfl
  · rw [hcomp.contents_eq]
    exact hcomp
  · refine h.conserved.places_perm fun addr => ?_
    simp only [State.places, State.inHand, hpc, hout, hcomp.contents_eq, List.count_append,
      List.count_nil]
    omega
  · simp [State.InAttempt, hpc]

theorem inv_extend {done : List UInt64} (h : Inv cfg trace s) (hpc : s.pc = .recycle done) :
    Inv cfg (trace ++ [.extend]) { s with pool := s.pool ++ done, pc := .batch txBatch 0 } := by
  refine h.quiet ⟨h.conserved.tx, h.conserved.comp, ?_, by trivial⟩ trivial (.inr ?_) rfl
    (fun _ hheld => hheld) rfl rfl rfl rfl
  · refine h.conserved.places_perm fun addr => ?_
    simp only [State.places, State.inHand, hpc, List.count_append, List.count_nil]
    omega
  · simp [State.InAttempt, hpc]

/-! ## The beginning of an attempt -/

/-- The payload after the stamp of the next attempt. -/
theorem Stamped.next_payload (h : Stamped cfg trace s) (hidle : ¬ s.InAttempt) :
    copyAt 8 (toLeBytes s.seq) s.payload =
      cfg.payloadOf (UInt64.ofNat (results trace).length) := by
  obtain ⟨seq, hseq⟩ := h.payload
  rw [hseq, copyAt_payloadOf, h.idle hidle]

theorem Stamped.next_seq (h : Stamped cfg trace s) (hidle : ¬ s.InAttempt) :
    s.seq + 1 = UInt64.ofNat ((results trace).length + 1) := by
  rw [h.idle hidle, UInt64.ofNat_add]
  rfl

theorem inv_pop_none {left : ℕ} {sent : UInt64} (h : Inv cfg trace s)
    (hpc : s.pc = .batch left sent) :
    Inv cfg (trace ++ [.pop none])
      { s with
          payload := copyAt 8 (toLeBytes s.seq) s.payload
          seq := s.seq + 1
          pc := .batch 0 sent } := by
  have hidle : ¬ s.InAttempt := by simp [State.InAttempt, hpc]
  have hresults : results (trace ++ [.pop none]) = results trace ++ [false] := by
    simp [results]
  have haccepted : accepted (trace ++ [.pop none]) = accepted trace := by
    simp [accepted]
  refine ⟨h.conserved.of_same rfl rfl rfl rfl ?_ (by trivial), ⟨?_, ?_, ?_, ?_⟩,
    h.delivered.of_same haccepted (by simp [takenFrames]) rfl (fun _ hheld => hheld)
      (fun _ _ => rfl) rfl, ?_⟩
  · simp [State.inHand, hpc]
  · exact ⟨_, h.stamped.next_payload hidle⟩
  · intro _
    rw [hresults, List.length_append]
    exact h.stamped.next_seq hidle
  · simp [State.InAttempt]
  · -- A failed attempt uses up its number.
    rw [haccepted, hresults, successes_append, h.stamped.accepted]
    simp [successes]
  · simp [WrittenFrame]

theorem inv_pop_some {left : ℕ} {addr sent : UInt64} (h : Inv cfg trace s)
    (hpc : s.pc = .batch (left + 1) sent) (hlast : s.pool.getLast? = some addr) :
    Inv cfg (trace ++ [.pop (some addr)])
      { s with
          payload := copyAt 8 (toLeBytes s.seq) s.payload
          seq := s.seq + 1
          pool := s.pool.dropLast
          pc := .holding addr left sent } := by
  have hidle : ¬ s.InAttempt := by simp [State.InAttempt, hpc]
  have hresults : results (trace ++ [.pop (some addr)]) = results trace := by
    simp [results]
  have haccepted : accepted (trace ++ [.pop (some addr)]) = accepted trace := by
    simp [accepted]
  have hpool : s.pool = s.pool.dropLast ++ [addr] :=
    (List.dropLast_append_getLast? addr hlast).symm
  refine ⟨⟨h.conserved.tx, h.conserved.comp, ?_, by trivial⟩, ⟨?_, ?_, ?_, ?_⟩,
    h.delivered.of_same haccepted (by simp [takenFrames]) rfl (fun _ hheld => hheld)
      (fun _ _ => rfl) rfl, ?_⟩
  · refine h.conserved.places_perm fun a => ?_
    have hcount := congrArg (List.count a) hpool
    simp only [State.places, State.inHand, hpc, List.count_append, List.count_nil] at hcount ⊢
    omega
  · exact ⟨_, h.stamped.next_payload hidle⟩
  · simp [State.InAttempt]
  · intro _
    rw [hresults]
    exact ⟨h.stamped.next_seq hidle, h.stamped.next_payload hidle⟩
  · rw [haccepted, hresults]
    exact h.stamped.accepted
  · simp [WrittenFrame]

/-! ## Writing the frame -/

/-- With a payload of at most 4054 bytes, `write_frame` fits into a frame. -/
theorem writeFrame_of_inv (hpayload : cfg.payloadLen ≤ 4054) (h : Stamped cfg trace s)
    (addr : UInt64) :
    cfg.hdr.writeFrame cfg.cpu (readBytes s.area addr.toNat frameSize.toNat) s.payload =
      some (cfg.hdr.frameBytes s.payload ++
        (readBytes s.area addr.toNat frameSize.toNat).drop (outerHdr + cfg.payloadLen),
        outerHdr + cfg.payloadLen) := by
  obtain ⟨seq, hseq⟩ := h.payload
  have hlength : s.payload.length = cfg.payloadLen := by
    rw [hseq, length_payloadOf]
  have hframe : frameSize.toNat = 4096 := rfl
  have houter : outerHdr = 42 := rfl
  have hfit : outerHdr + s.payload.length ≤
      (readBytes s.area addr.toNat frameSize.toNat).length := by
    rw [length_readBytes]
    omega
  rw [cfg.hdr.writeFrame_eq cfg.cpu hfit, hlength]

/-- Only the frame in hand is written, and the kernel sees none of it. -/
theorem Inv.frameOf_of_visible (hpayload : cfg.payloadLen ≤ 4054) (h : Inv cfg trace s)
    {addr : UInt64} (hhand : addr ∈ s.inHand) {buf : List UInt8}
    (hbuf : buf.length ≤ frameSize.toNat) {desc : XdpDesc}
    (hdesc : desc ∈ s.tx.contents ++ s.kernel.map Prod.snd) :
    frameOf (writeBytes s.area addr.toNat buf) desc = frameOf s.area desc := by
  have hframe : frameSize.toNat = 4096 := rfl
  have houter : outerHdr = 42 := rfl
  have haddr := h.conserved.mem_txPool (mem_places_of_inHand hhand)
  apply frameOf_writeBytes_of_ne haddr (h.conserved.mem_txPool (mem_places_of_visible hdesc))
    (h.conserved.ne_of_visible hhand hdesc)
  · rw [h.delivered.lens desc hdesc]
    omega
  · exact hbuf

/-- The descriptor of a frame that was written shows its bytes. -/
theorem frameOf_written (area : ℕ → UInt8) (addr : UInt64) {bytes : List UInt8}
    (hlength : bytes.length < 2 ^ 32) (tail : List UInt8) :
    frameOf (writeBytes area addr.toNat (bytes ++ tail)) ⟨addr, UInt32.ofNat bytes.length, 0⟩ =
      bytes := by
  have hlen : (UInt32.ofNat bytes.length).toNat = bytes.length := by
    rw [UInt32.toNat_ofNat', Nat.mod_eq_of_lt hlength]
  have htake := take_readBytes (writeBytes area addr.toNat (bytes ++ tail)) addr.toNat
    (show bytes.length ≤ (bytes ++ tail).length by simp)
  show readBytes _ addr.toNat (UInt32.ofNat bytes.length).toNat = bytes
  rw [hlen, ← htake, readBytes_writeBytes_self, List.take_left]

theorem inv_write {left : ℕ} {addr sent : UInt64} (hpayload : cfg.payloadLen ≤ 4054)
    (h : Inv cfg trace s) (hpc : s.pc = .holding addr left sent) {buf : List UInt8} {len : ℕ}
    (hwrite : cfg.hdr.writeFrame cfg.cpu (readBytes s.area addr.toNat frameSize.toNat) s.payload =
      some (buf, len)) :
    Inv cfg (trace ++ [.write])
      { s with
          area := writeBytes s.area addr.toNat buf
          pc := .written ⟨addr, UInt32.ofNat len, 0⟩ left sent } := by
  have hframe : frameSize.toNat = 4096 := rfl
  have houter : outerHdr = 42 := rfl
  rw [writeFrame_of_inv hpayload h.stamped, Option.some.injEq, Prod.mk.injEq] at hwrite
  obtain ⟨rfl, rfl⟩ := hwrite
  obtain ⟨seq, hseq⟩ := h.stamped.payload
  have hbytes : (cfg.hdr.frameBytes s.payload).length = outerHdr + cfg.payloadLen := by
    rw [cfg.hdr.length_frameBytes, hseq, length_payloadOf]
  have hbuf : (cfg.hdr.frameBytes s.payload ++ (readBytes s.area addr.toNat
      frameSize.toNat).drop (outerHdr + cfg.payloadLen)).length ≤ frameSize.toNat := by
    rw [List.length_append, hbytes, List.length_drop, length_readBytes]
    omega
  have hhand : addr ∈ s.inHand := by simp [State.inHand, hpc]
  have haccepted : accepted (trace ++ [.write]) = accepted trace := by simp [accepted]
  refine ⟨h.conserved.of_same rfl rfl rfl rfl ?_ (by trivial),
    h.stamped.of_same (by simp [results]) haccepted rfl rfl ?_,
    h.delivered.of_same haccepted (by simp [takenFrames]) rfl (fun _ hheld => hheld)
      (fun _ hdesc => h.frameOf_of_visible hpayload hhand hbuf hdesc) rfl, ?_⟩
  · simp [State.inHand, hpc]
  · simp [State.InAttempt, hpc]
  · intro desc left' sent' hwritten
    obtain ⟨rfl, -, -⟩ := Pc.written.inj hwritten
    constructor
    · show (UInt32.ofNat (outerHdr + cfg.payloadLen)).toNat = _
      rw [UInt32.toNat_ofNat', Nat.mod_eq_of_lt (by omega)]
    · rw [← hbytes]
      exact frameOf_written s.area addr (by omega) _

/-! ## Putting the frame on the TX ring -/

/-- There is room for the frame in hand: the ring has a cell for every frame. -/
theorem Conserved.produceTx (h : Conserved s) (desc : XdpDesc) (hhand : s.inHand = [desc.addr]) :
    (s.tx.produceTx [desc]).2 = 1 ∧
      (s.tx.produceTx [desc]).1.Represents ringSize (s.tx.contents ++ [desc]) := by
  have hlength := h.length_places
  have hsize : ringSize.toNat = 2048 := rfl
  apply h.tx.produceTx [desc]
  simp only [State.places, List.length_append, List.length_map, hhand,
    List.length_singleton] at hlength ⊢
  omega

/-- The attempt is over and has succeeded. -/
theorem Stamped.produce (h : Stamped cfg trace s) (hattempt : s.InAttempt)
    (hpayload : t.payload = s.payload) (hseq : t.seq = s.seq) (hidle : ¬ t.InAttempt) :
    Stamped cfg (trace ++ [.produce s.payload 1]) t := by
  have hresults : results (trace ++ [.produce s.payload 1]) = results trace ++ [true] := by
    simp [results]
  have haccepted : Gen.accepted (trace ++ [.produce s.payload 1]) =
      Gen.accepted trace ++ [s.payload] := by
    simp [Gen.accepted]
  obtain ⟨hnext, hstamp⟩ := h.busy hattempt
  refine ⟨?_, ?_, fun hbusy => absurd hbusy hidle, ?_⟩
  · rw [hpayload]
    exact h.payload
  · intro _
    rw [hresults, List.length_append, hseq]
    exact hnext
  · rw [haccepted, hresults, successes_append, List.map_append, h.accepted, hstamp]
    simp [successes]

/-- The frame of the payload is the last of those on the TX ring. -/
theorem Delivered.produce {desc : XdpDesc} (h : Delivered cfg trace s)
    (hlen : desc.len.toNat = outerHdr + cfg.payloadLen)
    (hbytes : frameOf s.area desc = cfg.hdr.frameBytes s.payload)
    (hcontents : t.tx.contents = s.tx.contents ++ [desc]) (hkernel : t.kernel = s.kernel)
    (harea : t.area = s.area) (htaken : t.taken = s.taken) :
    Delivered cfg (trace ++ [.produce s.payload 1]) t := by
  have haccepted : Gen.accepted (trace ++ [.produce s.payload 1]) =
      Gen.accepted trace ++ [s.payload] := by
    simp [Gen.accepted]
  have hframes : takenFrames (trace ++ [.produce s.payload 1]) = takenFrames trace := by
    simp [takenFrames]
  have hcount := h.count
  have hle : s.taken ≤ ((Gen.accepted trace).map cfg.hdr.frameBytes).length := by
    rw [List.length_map]
    omega
  refine ⟨?_, ?_, ?_, ?_, ?_⟩
  · intro d hd
    rw [hcontents, hkernel, List.append_assoc, List.mem_append, List.mem_append,
      List.mem_singleton] at hd
    rcases hd with hd | rfl | hd
    · exact h.lens d (List.mem_append_left _ hd)
    · exact hlen
    · exact h.lens d (List.mem_append_right _ hd)
  · rw [haccepted, hcontents, htaken, List.length_append, List.length_append, hcount]
    rfl
  · rw [hframes, haccepted, htaken, List.map_append, List.take_append_of_le_length hle]
    exact h.taken
  · rw [hcontents, haccepted, htaken, harea, List.map_append, List.map_append,
      List.drop_append_of_le_length hle, ← h.pending]
    simp [hbytes]
  · intro held hheld
    rw [hframes, harea]
    exact h.held held (hkernel ▸ hheld)

theorem inv_produce {desc : XdpDesc} {left : ℕ} {sent : UInt64} (h : Inv cfg trace s)
    (hpc : s.pc = .written desc left sent) :
    Inv cfg (trace ++ [.produce s.payload 1])
      { s with tx := (s.tx.produceTx [desc]).1, pc := .batch left (sent + 1) } := by
  have hattempt : s.InAttempt := by simp [State.InAttempt, hpc]
  have hhand : s.inHand = [desc.addr] := by simp [State.inHand, hpc]
  obtain ⟨-, htx⟩ := h.conserved.produceTx desc hhand
  have hcontents := htx.contents_eq
  obtain ⟨hlen, hbytes⟩ := h.written desc left sent hpc
  refine ⟨⟨?_, h.conserved.comp, ?_, by trivial⟩,
    h.stamped.produce hattempt rfl rfl (by simp [State.InAttempt]),
    h.delivered.produce hlen hbytes hcontents rfl rfl rfl, by simp [WrittenFrame]⟩
  · rw [hcontents]
    exact htx
  · refine h.conserved.places_perm fun addr => ?_
    simp only [State.places, hhand, hcontents, List.map_append, List.map_cons, List.map_nil,
      List.count_append]
    simp only [State.inHand, List.count_nil]
    omega

/-! ## The kernel -/

/-- The frame taken is the first of those on the TX ring. -/
theorem Delivered.take {desc : XdpDesc} {rest : List XdpDesc} (h : Delivered cfg trace s)
    (hcontents : s.tx.contents = desc :: rest) (hrest : t.tx.contents = rest)
    (hkernel : t.kernel = s.kernel ++ [(s.taken, desc)]) (harea : t.area = s.area)
    (htaken : t.taken = s.taken + 1) :
    Delivered cfg (trace ++ [.take (frameOf s.area desc)]) t := by
  have haccepted : Gen.accepted (trace ++ [.take (frameOf s.area desc)]) =
      Gen.accepted trace := by
    simp [Gen.accepted]
  have hframes : takenFrames (trace ++ [.take (frameOf s.area desc)]) =
      takenFrames trace ++ [frameOf s.area desc] := by
    simp [takenFrames]
  have hcount := h.count
  have hpending := h.pending
  rw [hcontents, List.map_cons] at hpending
  have hlt : s.taken < ((Gen.accepted trace).map cfg.hdr.frameBytes).length := by
    rw [List.length_map, hcount, hcontents, List.length_cons]
    omega
  rw [List.drop_eq_getElem_cons hlt, List.cons.injEq] at hpending
  obtain ⟨hfirst, hlater⟩ := hpending
  refine ⟨?_, ?_, ?_, ?_, ?_⟩
  · intro d hd
    apply h.lens d
    rw [hrest, hkernel, List.map_append, List.mem_append, List.mem_append] at hd
    rw [hcontents, List.mem_append, List.mem_cons]
    simp only [List.map_cons, List.map_nil, List.mem_singleton] at hd
    tauto
  · rw [haccepted, hcount, hcontents, hrest, htaken, List.length_cons]
    omega
  · rw [hframes, haccepted, htaken, List.take_add_one, List.getElem?_eq_getElem hlt, ← h.taken,
      ← hfirst]
    rfl
  · rw [hrest, haccepted, harea, htaken]
    exact hlater
  · intro held hheld
    rw [hframes, harea]
    rw [hkernel] at hheld
    rcases List.mem_append.mp hheld with hold | hnew
    · have hbefore := h.held held hold
      rw [List.getElem?_append_left (List.getElem?_eq_some_iff.mp hbefore).1]
      exact hbefore
    · obtain rfl := List.mem_singleton.mp hnew
      rw [← h.length_takenFrames, List.getElem?_concat_length]

theorem inv_take {desc : XdpDesc} {tx : DescRing} (h : Inv cfg trace s)
    (htake : s.tx.kernelTake = some (desc, tx)) :
    Inv cfg (trace ++ [.take (frameOf s.area desc)])
      { s with tx := tx, kernel := s.kernel ++ [(s.taken, desc)], taken := s.taken + 1 } := by
  obtain ⟨rest, hcontents, htx⟩ := h.conserved.tx.kernelTake htake
  have hrest := htx.contents_eq
  refine ⟨⟨?_, h.conserved.comp, ?_, h.conserved.running⟩,
    h.stamped.of_same (by simp [results]) (by simp [accepted]) rfl rfl Iff.rfl,
    h.delivered.take hcontents hrest rfl rfl rfl, h.written⟩
  · rw [hrest]
    exact htx
  · refine h.conserved.places_perm fun addr => ?_
    simp only [State.places, hcontents, hrest, List.map_append, List.map_cons, List.map_nil,
      List.count_append, List.count_cons, List.count_nil]
    simp only [State.inHand]
    omega

theorem inv_complete {i ticket : ℕ} {desc : XdpDesc} (h : Inv cfg trace s)
    (hheld : s.kernel[i]? = some (ticket, desc)) :
    Inv cfg (trace ++ [.complete desc.addr])
      { s with kernel := s.kernel.eraseIdx i, comp := s.comp.kernelPost desc.addr } := by
  obtain ⟨hi, hget⟩ := List.getElem?_eq_some_iff.mp hheld
  have hroom : s.comp.contents.length < ringSize.toNat := by
    have hlength := h.conserved.length_places
    have hsize : ringSize.toNat = 2048 := rfl
    simp only [State.places, List.length_append, List.length_map] at hlength
    omega
  have hcomp := h.conserved.comp.kernelPost hroom desc.addr
  refine h.quiet ⟨h.conserved.tx, ?_, ?_, h.conserved.running⟩ trivial (.inl rfl) rfl
    (fun _ hmem => List.mem_of_mem_eraseIdx hmem) rfl rfl rfl rfl
  · rw [hcomp.contents_eq]
    exact hcomp
  · refine h.conserved.places_perm fun addr => ?_
    have hkernel := ((List.getElem_cons_eraseIdx_perm hi).map
      fun held : ℕ × XdpDesc => held.2.addr).count_eq addr
    rw [hget] at hkernel
    simp only [State.places, hcomp.contents_eq, List.map_cons, List.count_append, List.count_cons,
      List.count_nil] at hkernel ⊢
    simp only [State.inHand]
    omega

/-! ## Every run keeps the invariants -/

/-- The steps there are under the invariants: `write_frame` does not panic, and the TX ring
is never full. -/
inductive Move (cfg : Config) (s : State) : Event → State → Prop
  | dequeue (hpc : s.pc = .head) :
      Move cfg s (.dequeue (s.pool.length + s.comp.dequeueAll.2.length) s.tx.occupancy)
        { s with comp := s.comp.dequeueAll.1, pc := .recycle s.comp.dequeueAll.2 }
  | extend {done : List UInt64} (hpc : s.pc = .recycle done) :
      Move cfg s .extend { s with pool := s.pool ++ done, pc := .batch txBatch 0 }
  | popNone {left : ℕ} {sent : UInt64} (hpc : s.pc = .batch (left + 1) sent)
      (hpool : s.pool = []) :
      Move cfg s (.pop none)
        { s with
            payload := copyAt 8 (toLeBytes s.seq) s.payload
            seq := s.seq + 1
            pc := .batch 0 sent }
  | popSome {left : ℕ} {sent addr : UInt64} (hpc : s.pc = .batch (left + 1) sent)
      (hlast : s.pool.getLast? = some addr) :
      Move cfg s (.pop (some addr))
        { s with
            payload := copyAt 8 (toLeBytes s.seq) s.payload
            seq := s.seq + 1
            pool := s.pool.dropLast
            pc := .holding addr left sent }
  | write {left len : ℕ} {addr sent : UInt64} {buf : List UInt8}
      (hpc : s.pc = .holding addr left sent)
      (hwrite : cfg.hdr.writeFrame cfg.cpu (readBytes s.area addr.toNat frameSize.toNat) s.payload =
        some (buf, len)) :
      Move cfg s .write
        { s with
            area := writeBytes s.area addr.toNat buf
            pc := .written ⟨addr, UInt32.ofNat len, 0⟩ left sent }
  | produce {desc : XdpDesc} {left : ℕ} {sent : UInt64} (hpc : s.pc = .written desc left sent) :
      Move cfg s (.produce s.payload 1)
        { s with tx := (s.tx.produceTx [desc]).1, pc := .batch left (sent + 1) }
  | kick {sent : UInt64} (hpc : s.pc = .batch 0 sent) (hsent : sent > 0) :
      Move cfg s .kick { s with pc := .kicked sent }
  | noKick {sent : UInt64} (hpc : s.pc = .batch 0 sent) (hsent : ¬ sent > 0) :
      Move cfg s .noKick { s with pc := .pace false }
  | kickReturn {sent : UInt64} (hpc : s.pc = .kicked sent) :
      Move cfg s (.kickReturn s.tx.occupancy)
        { s with
            pkts := s.pkts + sent
            bytes := s.bytes + sent * cfg.frameTotal
            pacer := s.pacer.note sent
            pc := .pace true }
  | next {kicked : Bool} (read late : ℕ) (hpc : s.pc = .pace kicked) :
      Move cfg s (.next kicked s.tx.occupancy)
        { s with pacer := s.pacer.pace cfg.ppsPer read late, pc := .head }
  | stop (hpc : s.pc = .head) : Move cfg s .stop { s with pc := .stopped }
  | take {desc : XdpDesc} {tx : DescRing} (htake : s.tx.kernelTake = some (desc, tx)) :
      Move cfg s (.take (frameOf s.area desc))
        { s with tx := tx, kernel := s.kernel ++ [(s.taken, desc)], taken := s.taken + 1 }
  | complete {i ticket : ℕ} {desc : XdpDesc} (hheld : s.kernel[i]? = some (ticket, desc)) :
      Move cfg s (.complete desc.addr)
        { s with kernel := s.kernel.eraseIdx i, comp := s.comp.kernelPost desc.addr }

theorem move_of_loopStep {read late : ℕ} (hpayload : cfg.payloadLen ≤ 4054) (h : Inv cfg trace s)
    (hstep : loopStep cfg read late s = some (event, t)) : Move cfg s event t := by
  cases hpc : s.pc with
  | head =>
      rw [loopStep_head cfg read late hpc] at hstep
      cases hstep
      exact .dequeue hpc
  | recycle done =>
      rw [loopStep_recycle cfg read late hpc] at hstep
      cases hstep
      exact .extend hpc
  | batch left sent =>
      cases left with
      | zero =>
          by_cases hsent : sent > 0
          · rw [loopStep_kick cfg read late hpc hsent] at hstep
            cases hstep
            exact .kick hpc hsent
          · rw [loopStep_noKick cfg read late hpc hsent] at hstep
            cases hstep
            exact .noKick hpc hsent
      | succ left =>
          cases hlast : s.pool.getLast? with
          | none =>
              rw [loopStep_pop_none cfg read late hpc hlast] at hstep
              cases hstep
              exact .popNone hpc (List.getLast?_eq_none_iff.mp hlast)
          | some addr =>
              rw [loopStep_pop_some cfg read late hpc hlast] at hstep
              cases hstep
              exact .popSome hpc hlast
  | holding addr left sent =>
      have hwrite := writeFrame_of_inv hpayload h.stamped addr
      rw [loopStep_write cfg read late hpc hwrite] at hstep
      cases hstep
      exact .write hpc hwrite
  | written desc left sent =>
      have hone := (h.conserved.produceTx desc (by simp [State.inHand, hpc])).1
      rw [loopStep_produce cfg read late hpc hone] at hstep
      cases hstep
      exact .produce hpc
  | giveBack addr sent => exact absurd h.conserved.running (by simp [Pc.Running, hpc])
  | kicked sent =>
      rw [loopStep_kicked cfg read late hpc] at hstep
      cases hstep
      exact .kickReturn hpc
  | pace kicked =>
      rw [loopStep_pace cfg read late hpc] at hstep
      cases hstep
      exact .next read late hpc
  | stopped => simp [loopStep, hpc] at hstep
  | panicked => simp [loopStep, hpc] at hstep

theorem move_of_step (hpayload : cfg.payloadLen ≤ 4054) (h : Inv cfg trace s)
    (hstep : Step cfg s event t) : Move cfg s event t := by
  cases hstep with
  | loop hloop => exact move_of_loopStep hpayload h hloop
  | stop hpc => exact .stop hpc
  | take htake => exact .take htake
  | complete hheld => exact .complete hheld

theorem inv_step (hpayload : cfg.payloadLen ≤ 4054) (h : Inv cfg trace s)
    (hstep : Step cfg s event t) : Inv cfg (trace ++ [event]) t := by
  cases move_of_step hpayload h hstep with
  | dequeue hpc => exact inv_dequeue h hpc
  | extend hpc => exact inv_extend h hpc
  | popNone hpc _ => exact inv_pop_none h hpc
  | popSome hpc hlast => exact inv_pop_some h hpc hlast
  | write hpc hwrite => exact inv_write hpayload h hpc hwrite
  | produce hpc => exact inv_produce h hpc
  | kick hpc _ => exact h.between (by rw [hpc]; trivial) (by trivial) (by trivial) _ _ _
  | noKick hpc _ => exact h.between (by rw [hpc]; trivial) (by trivial) (by trivial) _ _ _
  | kickReturn hpc => exact h.between (by rw [hpc]; trivial) (by trivial) (by trivial) _ _ _
  | next read late hpc => exact h.between (by rw [hpc]; trivial) (by trivial) (by trivial) _ _ _
  | stop hpc => exact h.between (by rw [hpc]; trivial) (by trivial) (by trivial) _ _ _
  | take htake => exact inv_take h htake
  | complete hheld => exact inv_complete h hheld

theorem inv_run (hpayload : cfg.payloadLen ≤ 4054) (hrun : (machine cfg).Run trace s) :
    Inv cfg trace s :=
  hrun.invariant (P := Inv cfg) (fun _ h => inv_init h) fun _ _ _ _ _ h hstep =>
    inv_step hpayload h hstep

/-- The frames taken are as many of the accepted ones, from the first on. -/
theorem Inv.taken_eq_take (h : Inv cfg trace s) :
    takenFrames trace =
      ((accepted trace).map cfg.hdr.frameBytes).take (takenFrames trace).length := by
  rw [h.delivered.length_takenFrames]
  exact h.delivered.taken

theorem successes_increasing (base : ℕ) (attempts : List Bool) :
    (successes base attempts).Pairwise (· < ·) ∧
      ∀ number ∈ successes base attempts, base ≤ number ∧ number < base + attempts.length := by
  induction attempts generalizing base with
  | nil => simp [successes]
  | cons attempt rest ih =>
      obtain ⟨hsorted, hrange⟩ := ih (base + 1)
      have hwide : ∀ number ∈ successes (base + 1) rest,
          base < number ∧ number < base + (attempt :: rest).length := by
        intro number hmem
        have := hrange number hmem
        rw [List.length_cons]
        omega
      cases attempt with
      | false =>
          exact ⟨hsorted, fun number hmem => ⟨(hwide number hmem).1.le, (hwide number hmem).2⟩⟩
      | true =>
          refine ⟨List.pairwise_cons.mpr ⟨fun number hmem => (hwide number hmem).1, hsorted⟩, ?_⟩
          intro number hmem
          rcases List.mem_cons.mp hmem with rfl | hlater
          · exact ⟨le_rfl, by rw [List.length_cons]; omega⟩
          · exact ⟨(hwide number hlater).1.le, (hwide number hlater).2⟩

end RunPerf.Xdp.Gen
