import RunPerf.Xdp.GenRuns
import RunPerf.Xdp.Template

/-!
# Which lengths the generator can send

`--len` reaches `tx_loop` as it was given, except that `xdp_udp_blast` raises it to 16.  A
chunk has room for the headers and 4054 bytes of payload.  Up to there, a call of `tx_one`
comes to its end in every state that a run reaches, writes to no chunk but that of the frame
it popped, and the lengths in the descriptor and in the two headers are those of the frame
(`txOneSafe_of_inv`).  Beyond, the first `write_frame` panics (`exists_panicked`), unless the
length is so large that there is no vector for the payload.
-/

namespace RunPerf.Xdp.Gen

open RunPerf.Lib

variable {cfg : Config} {trace : List Event} {s t : State} {event : Event}

/-- What `tx_loop` runs with for `--len`.  `none`: a vector has less than `2 ^ 63` bytes, and
`vec![0u8; payload_len]` panics before the loop. -/
def Config.ofLen (cpu : Simd.Cpu) (hdr : FrameHeader) (worker ppsPer len : UInt64) :
    Option Config :=
  if max len.toNat 16 < 2 ^ 63 then
    some ⟨cpu, hdr, worker, max len.toNat 16, ppsPer, Nat.le_max_right _ _⟩
  else none

/-- How many steps of its own a call of `tx_one` that has begun still takes, at most. -/
def Pc.callLeft : Pc → ℕ
  | .holding _ _ _ => 3
  | .written _ _ _ => 2
  | .giveBack _ _ => 1
  | _ => 0

/-- The descriptor that `tx_one` is about to push, those on the TX ring and those that the
kernel holds. -/
def State.descriptors (s : State) : List XdpDesc :=
  (match s.pc with
    | .written desc _ _ => [desc]
    | _ => []) ++ (s.tx.contents ++ s.kernel.map Prod.snd)

/-- The fields of a frame that give its length are right for its descriptor: the total length
of the IP packet and the length of the UDP datagram. -/
def LengthsAgree (frame : List UInt8) (len : ℕ) : Prop :=
  beAt frame (ethHdr + 2) = len - 14 ∧ beAt frame (ethHdr + ipv4Hdr + 4) = len - 34

/-- What is expected of `tx_one` in a state. -/
structure TxOneSafe (cfg : Config) (s : State) : Prop where
  /-- No call has panicked. -/
  not_panicked : s.pc ≠ .panicked
  /-- A call that has begun comes to its end. -/
  completes : ∀ read late, 0 < s.pc.callLeft →
    ∃ event t, loopStep cfg read late s = some (event, t) ∧ t.pc.callLeft < s.pc.callLeft
  /-- Only the chunk of the popped frame is written. -/
  inside : ∀ event t, Step cfg s event t → ∀ i, t.area i ≠ s.area i →
    ∃ addr left sent, s.pc = .holding addr left sent ∧ i / frameSize.toNat = chunk addr
  /-- A descriptor does not pass the end of its chunk. -/
  fits : ∀ desc ∈ s.descriptors,
    desc.addr.toNat % frameSize.toNat + desc.len.toNat ≤ frameSize.toNat
  lengths : ∀ desc ∈ s.descriptors, LengthsAgree (frameOf s.area desc) desc.len.toNat

/-! ## The descriptors -/

/-- Every descriptor shows the frame of one of the payloads, in a frame of the pool. -/
theorem Inv.of_mem_descriptors (h : Inv cfg trace s) {desc : XdpDesc}
    (hmem : desc ∈ s.descriptors) :
    desc.addr ∈ txPool ∧ desc.len.toNat = outerHdr + cfg.payloadLen ∧
      ∃ seq, frameOf s.area desc = cfg.hdr.frameBytes (cfg.payloadOf seq) := by
  have haccepted : ∀ frame ∈ (accepted trace).map cfg.hdr.frameBytes,
      ∃ seq, frame = cfg.hdr.frameBytes (cfg.payloadOf seq) := by
    rw [h.stamped.accepted, List.map_map]
    intro frame hframe
    obtain ⟨number, -, rfl⟩ := List.mem_map.mp hframe
    exact ⟨_, rfl⟩
  rcases List.mem_append.mp hmem with hwritten | hvisible
  · cases hpc : s.pc with
    | written desc' left sent =>
        rw [hpc] at hwritten
        obtain rfl := List.mem_singleton.mp hwritten
        obtain ⟨hlen, hframe⟩ := h.written desc left sent hpc
        obtain ⟨seq, hseq⟩ := h.stamped.payload
        refine ⟨h.conserved.mem_txPool (mem_places_of_inHand ?_), hlen, seq, ?_⟩
        · simp [State.inHand, hpc]
        · rw [hframe, hseq]
    | _ => simp [hpc] at hwritten
  · refine ⟨h.conserved.mem_txPool (mem_places_of_visible hvisible),
      h.delivered.lens desc hvisible, haccepted _ ?_⟩
    rcases List.mem_append.mp hvisible with htx | hkernel
    · have hpending := List.mem_map_of_mem (f := frameOf s.area) htx
      rw [h.delivered.pending] at hpending
      exact List.mem_of_mem_drop hpending
    · obtain ⟨held, hheld, rfl⟩ := List.mem_map.mp hkernel
      have htaken := List.mem_of_getElem? (h.delivered.held held hheld)
      rw [h.delivered.taken] at htaken
      exact List.mem_of_mem_take htaken

theorem lengthsAgree_frameBytes (hdr : FrameHeader) {dns : List UInt8}
    (hdns : dns.length ≤ 4054) :
    LengthsAgree (hdr.frameBytes dns) (outerHdr + dns.length) := by
  have houter : outerHdr = 42 := rfl
  have hfield : ∀ i, i + 1 < outerHdr →
      beAt (hdr.frameBytes dns) i = beAt (patchHeaders hdr.tpl dns.length) i := by
    intro i hi
    simpa using hdr.beAt_frameBytes dns [] hi
  constructor
  · rw [hfield _ (by decide)]
    show beAt _ 16 = _
    rw [beAt_ipTot hdr.tpl_length]
    omega
  · rw [hfield _ (by decide)]
    show beAt _ 38 = _
    rw [beAt_udpLen hdr.tpl_length]
    omega

/-! ## Lengths that fit -/

/-- A call goes on from every point in it. -/
theorem Inv.exists_loopStep (hpayload : cfg.payloadLen ≤ 4054) (h : Inv cfg trace s)
    (read late : ℕ) (hcall : 0 < s.pc.callLeft) :
    ∃ event t, loopStep cfg read late s = some (event, t) ∧ t.pc.callLeft < s.pc.callLeft := by
  cases hpc : s.pc with
  | holding addr left sent =>
      have hwrite := writeFrame_of_inv hpayload h.stamped addr
      exact ⟨_, _, loopStep_write cfg read late hpc hwrite, by simp [Pc.callLeft]⟩
  | written desc left sent =>
      have hone := (h.conserved.produceTx desc (by simp [State.inHand, hpc])).1
      exact ⟨_, _, loopStep_produce cfg read late hpc hone, by simp [Pc.callLeft]⟩
  | giveBack addr sent => exact absurd h.conserved.running (by simp [Pc.Running, hpc])
  | _ => simp [Pc.callLeft, hpc] at hcall

/-- The buffer that `tx_one` hands to `write_frame` is a chunk. -/
theorem Inv.chunk_of_write (hpayload : cfg.payloadLen ≤ 4054) (h : Inv cfg trace s)
    (hstep : Step cfg s event t) {i : ℕ} (hi : t.area i ≠ s.area i) :
    ∃ addr left sent, s.pc = .holding addr left sent ∧ i / frameSize.toNat = chunk addr := by
  cases move_of_step hpayload h hstep with
  | @write left len addr sent buf hpc hwrite =>
      have hframe : frameSize.toNat = 4096 := rfl
      have houter : outerHdr = 42 := rfl
      have hhand : addr ∈ s.inHand := by simp [State.inHand, hpc]
      obtain ⟨n, -, -, haddr⟩ :=
        exists_of_mem_txPool (h.conserved.mem_txPool (mem_places_of_inHand hhand))
      have hbuf : buf.length = 4096 := by
        obtain ⟨seq, hseq⟩ := h.stamped.payload
        rw [writeFrame_of_inv hpayload h.stamped, Option.some.injEq, Prod.mk.injEq] at hwrite
        rw [← hwrite.1, List.length_append, cfg.hdr.length_frameBytes, hseq, length_payloadOf,
          List.length_drop, length_readBytes]
        omega
      refine ⟨addr, left, sent, hpc, ?_⟩
      have hrange : addr.toNat ≤ i ∧ i < addr.toNat + buf.length := by
        by_contra hout
        exact hi (if_neg hout)
      rw [chunk, hframe]
      omega
  | _ => exact absurd rfl hi

theorem txOneSafe_of_inv (hpayload : cfg.payloadLen ≤ 4054) (h : Inv cfg trace s) :
    TxOneSafe cfg s where
  not_panicked hpc := absurd h.conserved.running (by simp [Pc.Running, hpc])
  completes read late hcall := h.exists_loopStep hpayload read late hcall
  inside _ _ hstep _ hi := h.chunk_of_write hpayload hstep hi
  fits := by
    intro desc hmem
    obtain ⟨haddr, hlen, -⟩ := h.of_mem_descriptors hmem
    obtain ⟨n, -, -, hn⟩ := exists_of_mem_txPool haddr
    have hframe : frameSize.toNat = 4096 := rfl
    have houter : outerHdr = 42 := rfl
    rw [hlen, hn, hframe]
    omega
  lengths := by
    intro desc hmem
    obtain ⟨-, hlen, seq, hframe⟩ := h.of_mem_descriptors hmem
    have hlength : (cfg.payloadOf seq).length = cfg.payloadLen := length_payloadOf seq
    rw [hframe, hlen, ← hlength]
    exact lengthsAgree_frameBytes cfg.hdr (by rwa [hlength])

/-! ## Lengths that do not fit -/

/-- The loop goes on, nothing is recycled, the first attempt pops a frame, and `write_frame`
panics. -/
theorem exists_panicked (cfg : Config) (hpayload : 4054 < cfg.payloadLen) :
    ∃ trace s, (machine cfg).Run trace s ∧ s.pc = .panicked := by
  have hframe : frameSize.toNat = 4096 := rfl
  have houter : outerHdr = 42 := rfl
  have hnil : (started cfg 0).comp.Represents ringSize [] := Ring.represents_nil rfl rfl
  have hpool : (txPool ++ (started cfg 0).comp.dequeueAll.2).getLast? =
      some (txPool.getLast (List.ne_nil_of_length_pos (by rw [length_txPool]; decide))) := by
    rw [hnil.dequeueAll.1, List.append_nil, List.getLast?_eq_getLast_of_ne_nil]
  have hhead : (started cfg 0).pc = .head := rfl
  have hpopped := ((Machine.Path.single (alone_step (loopStep_head cfg 0 0 hhead) trivial)).snoc
    (alone_step (loopStep_recycle cfg 0 0 rfl) trivial)).snoc
    (alone_step (loopStep_pop_some cfg 0 0 rfl hpool) trivial)
  have hlength : (copyAt 8 (toLeBytes 0) (started cfg 0).payload).length = cfg.payloadLen := by
    show (copyAt 8 _ (copyAt 0 _ (List.replicate cfg.payloadLen 0))).length = _
    rw [payload_init, copyAt_payloadOf, length_payloadOf]
  refine ⟨_, _, ⟨_, init_started cfg 0, hpopped.of_restrict.snoc (Step.loop
    (loopStep_panic cfg 0 0 rfl (cfg.hdr.writeFrame_eq_none cfg.cpu ?_)))⟩, rfl⟩
  show (readBytes _ _ _).length < outerHdr + (copyAt 8 (toLeBytes 0) (started cfg 0).payload).length
  rw [length_readBytes, hlength]
  omega

/-! ## The lengths that `--len` accepts -/

/-- **Which lengths are safe.**  For every `--len`, processor, template, worker and rate: in
every state of every run `tx_one` is safe if and only if the length is at most 4054, or there
is no vector of that length, so that `tx_one` is not called at all. -/
theorem len_safe_iff (cpu : Simd.Cpu) (hdr : FrameHeader) (worker ppsPer len : UInt64) :
    (∀ cfg, Config.ofLen cpu hdr worker ppsPer len = some cfg →
      ∀ trace s, (machine cfg).Run trace s → TxOneSafe cfg s) ↔
    len.toNat ≤ 4054 ∨ 2 ^ 63 ≤ len.toNat := by
  constructor
  · intro h
    by_contra hlen
    push Not at hlen
    have hcfg : Config.ofLen cpu hdr worker ppsPer len = some _ := if_pos (by omega)
    obtain ⟨trace, s, hrun, hpc⟩ := exists_panicked
      ⟨cpu, hdr, worker, max len.toNat 16, ppsPer, Nat.le_max_right _ _⟩
      (show 4054 < max len.toNat 16 by omega)
    exact (h _ hcfg trace s hrun).not_panicked hpc
  · intro hlen cfg hcfg trace s hrun
    unfold Config.ofLen at hcfg
    split at hcfg
    · obtain rfl := Option.some.inj hcfg
      have hpayload : max len.toNat 16 ≤ 4054 := by omega
      exact txOneSafe_of_inv hpayload (inv_run hpayload hrun)
    · cases hcfg

/-- The template from 10.10.10.10 to 11.11.11.11. -/
def sampleHdr : FrameHeader :=
  FrameHeader.new (Vector.replicate 6 1) (Vector.replicate 6 2) (Vector.replicate 4 10)
    (Vector.replicate 4 11) 40000 5201

/-- A jumbo frame: with `--len 8972` the first attempt of the worker panics. -/
theorem len_8972_panics :
    ∃ cfg, Config.ofLen ⟨true, false, false, false⟩ sampleHdr 0 0 8972 = some cfg ∧
      ∃ trace s, (machine cfg).Run trace s ∧ s.pc = .panicked ∧ ¬ TxOneSafe cfg s := by
  let cfg : Config := ⟨⟨true, false, false, false⟩, sampleHdr, 0, 8972, 0, by decide⟩
  have hcfg : Config.ofLen ⟨true, false, false, false⟩ sampleHdr 0 0 8972 = some cfg :=
    if_pos (by decide)
  have hpayload : 4054 < cfg.payloadLen := by decide
  obtain ⟨trace, s, hrun, hpc⟩ := exists_panicked cfg hpayload
  exact ⟨cfg, hcfg, trace, s, hrun, hpc, fun hsafe => hsafe.not_panicked hpc⟩

end RunPerf.Xdp.Gen
