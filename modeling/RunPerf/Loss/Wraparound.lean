import RunPerf.Loss.Reports

/-!
# The arithmetic of the gap

A receiver adds `seq - prev - 1` to the drops counter if `seq > prev + 1`, all in `u64`.
Where the last number of the stream is `2 ^ 64 - 1`, the sum `prev + 1` wraps to zero (a
build with overflow checks panics instead), every other number passes the comparison, and
the difference, which wraps twice, is the whole number.  Every other `prev` is harmless:
the gap is then the integer difference, cut off at zero (`gap_some`).

A step is one execution of the body of a receive loop: `last_seq` before it, the buffer and
the number of bytes received.  The steps of a worker and of the sink are those of counting
their packets one by one, so one induction over the packets (`exactSteps_iff`) serves both.
-/

namespace RunPerf.Receive

open RunPerf.Lib

/-- `u64::MAX`. -/
def maxSeq : UInt64 := 18446744073709551615

/-- What a list of operations adds to the drops counter. -/
def dropsAdded (ops : List CounterOp) : ℕ :=
  (ops.map fun
    | .drops n => n.toNat
    | _ => 0).sum

/-- One execution of the body of a receive loop, on the first `n` bytes of `buf`. -/
structure CountStep where
  lastSeq : LastSeq
  buf : List UInt8
  n : ℕ

/-- The operations on the counters. -/
def CountStep.ops (off : ℕ) (step : CountStep) : List CounterOp :=
  (countPacket off step.lastSeq step.buf step.n).2

/-- Where the step finds a last number `prev` of the stream of its packet, neither `prev + 1`
nor `seq - prev - 1` wraps, and what is added is the integer `seq - prev - 1`, or zero if that
is negative. -/
def CountStep.Exact (off : ℕ) (step : CountStep) : Prop :=
  ∀ sid seq prev, header off (step.buf.take step.n) = some (sid, seq) →
    step.lastSeq sid = some prev →
    prev.toNat + 1 < 2 ^ 64 ∧ (seq > prev + 1 → prev.toNat + 1 ≤ seq.toNat) ∧
      (dropsAdded (step.ops off) : ℤ) = max 0 ((seq.toNat : ℤ) - prev.toNat - 1)

theorem dropsAdded_append (first second : List CounterOp) :
    dropsAdded (first ++ second) = dropsAdded first + dropsAdded second := by
  simp [dropsAdded]

/-- What noting a number adds is the gap. -/
theorem dropsAdded_noteSeq (lastSeq : LastSeq) (sid seq : UInt64) :
    dropsAdded (noteSeq lastSeq sid seq).2 = gap (lastSeq sid) seq := by
  unfold noteSeq
  cases lastSeq sid with
  | none => rfl
  | some prev =>
      simp only [gap]
      split
      · simp [dropsAdded]
      · rfl

theorem dropsAdded_ops {off : ℕ} {step : CountStep} {sid seq : UInt64}
    (hheader : header off (step.buf.take step.n) = some (sid, seq))
    (hn : step.n ≤ step.buf.length) :
    dropsAdded (step.ops off) = gap (step.lastSeq sid) seq := by
  have hlength : (step.buf.take step.n).length = step.n := by
    rw [List.length_take]
    omega
  unfold CountStep.ops
  rw [Net.countPacket_congr step.lastSeq rfl hlength]
  unfold header at hheader
  unfold countPacket
  split at hheader
  · rename_i hlong
    obtain ⟨rfl, rfl⟩ := Prod.mk.inj (Option.some.inj hheader)
    simp only [if_pos hlong, dropsAdded_append, dropsAdded_noteSeq]
    simp [dropsAdded]
  · cases hheader

theorem toNat_lt_iff_ne_maxSeq (prev : UInt64) :
    prev.toNat + 1 < 2 ^ 64 ↔ prev ≠ maxSeq := by
  have hlt := prev.toNat_lt
  have hmax : maxSeq.toNat = 2 ^ 64 - 1 := rfl
  rw [ne_eq, ← UInt64.toNat_inj, hmax]
  omega

/-- **One step.**  The arithmetic is that of the integers exactly if the last number is not
the largest one. -/
theorem CountStep.exact_iff {off : ℕ} {step : CountStep} (hn : step.n ≤ step.buf.length) :
    step.Exact off ↔ ∀ sid seq, header off (step.buf.take step.n) = some (sid, seq) →
      step.lastSeq sid ≠ some maxSeq := by
  constructor
  · intro h sid seq hheader hprev
    have hwrap := (h sid seq maxSeq hheader hprev).1
    exact (toNat_lt_iff_ne_maxSeq maxSeq).mp hwrap rfl
  · intro h sid seq prev hheader hprev
    have hne : prev ≠ maxSeq := fun heq => h sid seq hheader (by rw [hprev, heq])
    have hsmall := (toNat_lt_iff_ne_maxSeq prev).mpr hne
    have hsucc : (prev + 1).toNat = prev.toNat + 1 := by
      rw [UInt64.toNat_add, UInt64.toNat_one, Nat.mod_eq_of_lt hsmall]
    refine ⟨hsmall, ?_, ?_⟩
    · intro hgt
      rw [gt_iff_lt, UInt64.lt_iff_toNat_lt, hsucc] at hgt
      exact hgt.le
    · rw [dropsAdded_ops hheader hn, hprev, gap_some hsmall]
      omega

/-! ## Packet by packet -/

/-- The steps of counting packets one by one. -/
def packetSteps (off : ℕ) (lastSeq : LastSeq) : List (List UInt8) → List CountStep
  | [] => []
  | packet :: rest =>
      ⟨lastSeq, packet, packet.length⟩ ::
        packetSteps off (countPacket off lastSeq packet packet.length).1 rest

/-- In no stream does a packet follow the largest number. -/
def MaxOnlyLast (headers : List (UInt64 × UInt64)) : Prop :=
  ∀ sid, maxSeq ∉ (seqsOf sid headers).dropLast

/-- A number that is followed by another must not be the largest. -/
theorem maxSeq_notMem_dropLast_iff (last : Option UInt64) (seq : UInt64) (later : List UInt64) :
    maxSeq ∉ (last.toList ++ seq :: later).dropLast ↔
      last ≠ some maxSeq ∧ maxSeq ∉ (seq :: later).dropLast := by
  rw [List.dropLast_append_of_ne_nil (List.cons_ne_nil _ _), List.mem_append, not_or]
  cases last <;> simp [eq_comm]

theorem exactSteps_from (off : ℕ) (lastSeq : LastSeq) (packets : List (List UInt8)) :
    (∀ step ∈ packetSteps off lastSeq packets, step.Exact off) ↔
      ∀ sid, maxSeq ∉ ((lastSeq sid).toList ++
        seqsOf sid (packets.filterMap (header off))).dropLast := by
  induction packets generalizing lastSeq with
  | nil =>
      have hnone : ∀ last : Option UInt64, last.toList.dropLast = [] := by
        intro last
        cases last <;> rfl
      simp [packetSteps, seqsOf, hnone]
  | cons packet rest ih =>
      rw [packetSteps, List.forall_mem_cons, ih, countPacket_fst,
        CountStep.exact_iff (Nat.le_refl packet.length)]
      simp only [List.take_length]
      cases hheader : header off packet with
      | none => simp [hheader]
      | some h =>
          obtain ⟨sid, seq⟩ := h
          rw [List.filterMap_cons_some hheader]
          dsimp only
          -- In the stream of the packet, the last number is followed by that of the packet.
          constructor
          · rintro ⟨hfirst, hlater⟩ other
            have hother := hlater other
            rw [seqsOf_cons]
            by_cases heq : sid = other
            · subst heq
              simp only [Function.update_self, Option.toList_some, List.singleton_append] at hother
              rw [if_pos rfl, maxSeq_notMem_dropLast_iff]
              exact ⟨hfirst sid seq rfl, hother⟩
            · rw [if_neg heq]
              rwa [Function.update_of_ne (Ne.symm heq)] at hother
          · intro hall
            have hsid := hall sid
            rw [seqsOf_cons, if_pos rfl, maxSeq_notMem_dropLast_iff] at hsid
            refine ⟨?_, fun other => ?_⟩
            · rintro _ _ ⟨⟩
              exact hsid.1
            · by_cases heq : sid = other
              · subst heq
                simpa using hsid.2
              · have hother := hall other
                rw [seqsOf_cons, if_neg heq] at hother
                rwa [Function.update_of_ne (Ne.symm heq)]

/-- **A run of steps.**  All steps are exact if and only if the largest number is only ever
the last of its stream. -/
theorem exactSteps_iff (off : ℕ) (packets : List (List UInt8)) :
    (∀ step ∈ packetSteps off LastSeq.new packets, step.Exact off) ↔
      MaxOnlyLast (packets.filterMap (header off)) := by
  simpa [LastSeq.new, MaxOnlyLast] using exactSteps_from off LastSeq.new packets

theorem mem_packetSteps {off : ℕ} {lastSeq : LastSeq} {packets : List (List UInt8)}
    {step : CountStep} :
    step ∈ packetSteps off lastSeq packets ↔
      ∃ before packet after, packets = before ++ packet :: after ∧
        step = ⟨(countPackets off lastSeq before).1, packet, packet.length⟩ := by
  induction packets generalizing lastSeq with
  | nil => simp [packetSteps]
  | cons first rest ih =>
      rw [packetSteps, List.mem_cons, ih]
      constructor
      · rintro (rfl | ⟨before, packet, after, rfl, rfl⟩)
        · exact ⟨[], first, rest, rfl, rfl⟩
        · exact ⟨first :: before, packet, after, rfl, rfl⟩
      · rintro ⟨before, packet, after, hsplit, rfl⟩
        cases before with
        | nil =>
            obtain ⟨rfl, rfl⟩ := List.cons.inj hsplit
            exact .inl rfl
        | cons head before =>
            obtain ⟨rfl, rfl⟩ := List.cons.inj hsplit
            exact .inr ⟨before, packet, after, rfl, rfl⟩

end RunPerf.Receive

namespace RunPerf.Net

open RunPerf.Lib RunPerf.Receive

/-! ## The steps of a worker -/

/-- The steps of `countReceived`. -/
def receivedSteps (lastSeq : LastSeq) : List (List UInt8 × ℕ) → List CountStep
  | [] => []
  | message :: rest =>
      ⟨lastSeq, message.1, message.2⟩ ::
        receivedSteps (countPacket 0 lastSeq message.1 message.2).1 rest

/-- The steps of a worker, through all batches, with the buffers as it finds them. -/
def UdpWorker.steps {len : ℕ} (w : UdpWorker len) : List (List Datagram) → List CountStep
  | [] => []
  | arrived :: rest =>
      receivedSteps w.lastSeq (List.zipWith recvInto w.bufs arrived) ++
        (w.turn arrived).1.steps rest

theorem flatMap_ops_receivedSteps (lastSeq : LastSeq) (messages : List (List UInt8 × ℕ)) :
    (receivedSteps lastSeq messages).flatMap (CountStep.ops 0) =
      (countReceived lastSeq messages).2 := by
  induction messages generalizing lastSeq with
  | nil => rfl
  | cons message rest ih => simp [receivedSteps, countReceived, ih, CountStep.ops]

/-- What a worker does to the counters is what its steps do, in order. -/
theorem UdpWorker.flatMap_ops_steps {len : ℕ} (w : UdpWorker len)
    (batches : List (List Datagram)) :
    (w.steps batches).flatMap (CountStep.ops 0) = (w.run batches).2 := by
  induction batches generalizing w with
  | nil => rfl
  | cons arrived rest ih =>
      rw [steps, run, List.flatMap_append, flatMap_ops_receivedSteps, ih]
      rfl

/-- Only the received bytes matter to a step. -/
theorem exact_congr {off n : ℕ} (lastSeq : LastSeq) {buf packet : List UInt8}
    (htake : buf.take n = packet) (hn : n ≤ buf.length) :
    CountStep.Exact off ⟨lastSeq, buf, n⟩ ↔
      CountStep.Exact off ⟨lastSeq, packet, packet.length⟩ := by
  rw [CountStep.exact_iff hn, CountStep.exact_iff (Nat.le_refl packet.length)]
  simp only [htake, List.take_length]

theorem packetSteps_append (off : ℕ) (lastSeq : LastSeq) (first second : List (List UInt8)) :
    packetSteps off lastSeq (first ++ second) =
      packetSteps off lastSeq first ++
        packetSteps off (countPackets off lastSeq first).1 second := by
  induction first generalizing lastSeq with
  | nil => rfl
  | cons packet rest ih => simp [packetSteps, countPackets, ih]

theorem exact_receivedSteps_iff {size : ℕ} (lastSeq : LastSeq) (bufs : List (List UInt8))
    (arrived : List Datagram) (hsize : ∀ buf ∈ bufs, buf.length = size)
    (hcount : arrived.length ≤ bufs.length) :
    (∀ step ∈ receivedSteps lastSeq (List.zipWith recvInto bufs arrived), step.Exact 0) ↔
      ∀ step ∈ packetSteps 0 lastSeq (arrived.map fun datagram => datagram.take size),
        step.Exact 0 := by
  induction arrived generalizing lastSeq bufs with
  | nil => simp [receivedSteps, packetSteps]
  | cons datagram rest ih =>
      cases bufs with
      | nil => simp at hcount
      | cons buf bufs =>
          have hbuf : buf.length = size := hsize buf List.mem_cons_self
          have htake := take_recvInto hbuf datagram
          have hn : (recvInto buf datagram).2 ≤ (recvInto buf datagram).1.length := by
            rw [length_recvInto]
            exact Nat.min_le_right _ _
          rw [List.zipWith_cons_cons, List.map_cons, receivedSteps, packetSteps,
            List.forall_mem_cons, List.forall_mem_cons, exact_congr lastSeq htake hn,
            countPacket_congr _ htake (length_take_eq_recvInto hbuf datagram),
            ih _ _ (fun b hb => hsize b (List.mem_cons_of_mem _ hb)) (by simpa using hcount)]

/-- The steps of a worker are those of counting the datagrams one by one. -/
theorem UdpWorker.exact_steps_iff {len : ℕ} (w : UdpWorker len) (batches : List (List Datagram))
    (hbatch : ∀ arrived ∈ batches, arrived.length ≤ batch) :
    (∀ step ∈ w.steps batches, step.Exact 0) ↔
      ∀ step ∈ packetSteps 0 w.lastSeq
        (batches.flatten.map fun datagram => datagram.take (bufSize len)), step.Exact 0 := by
  induction batches generalizing w with
  | nil => simp [steps, packetSteps]
  | cons arrived rest ih =>
      have hfirst : arrived.length ≤ w.bufs.length := by
        rw [w.bufs_length]
        exact hbatch arrived List.mem_cons_self
      have hlast : (w.turn arrived).1.lastSeq = (countPackets 0 w.lastSeq
          (arrived.map fun datagram => datagram.take (bufSize len))).1 :=
        congrArg Prod.fst
          (countReceived_recvInto w.lastSeq w.bufs arrived w.buf_length hfirst)
      rw [steps, List.flatten_cons, List.map_append, packetSteps_append, List.forall_mem_append,
        List.forall_mem_append, exact_receivedSteps_iff _ _ _ w.buf_length hfirst,
        ih _ fun b hb => hbatch b (List.mem_cons_of_mem _ hb), hlast]

end RunPerf.Net

namespace RunPerf.Loss

open RunPerf.Lib RunPerf.Receive RunPerf.Net RunPerf.Xdp

/-! ## The steps of the sink -/

/-- `rx_loop` reads `frame` somewhere in the trace, with `last_seq` as it is there. -/
def SinkStep (trace : List Sink.Event) (step : CountStep) : Prop :=
  ∃ before frame after s, trace = before ++ Sink.Event.readFrame frame :: after ∧
    Sink.machine.Run before s ∧ step = ⟨s.lastSeq, frame, frame.length⟩

/-- The steps of the sink are those of counting the frames one by one. -/
theorem sinkStep_iff {trace : List Sink.Event} {s : Sink.State}
    (hrun : Sink.machine.Run trace s) (step : CountStep) :
    SinkStep trace step ↔
      step ∈ packetSteps Sink.hdrs LastSeq.new (Sink.readFrames trace) := by
  rw [mem_packetSteps]
  constructor
  · rintro ⟨before, frame, after, u, rfl, hbefore, rfl⟩
    refine ⟨Sink.readFrames before, frame, Sink.readFrames after, ?_, ?_⟩
    · simp [Sink.readFrames]
    · rw [(Sink.inv_run hbefore).accounted.lastSeq]
  · rintro ⟨first, frame, later, hsplit, rfl⟩
    obtain ⟨before, rest, rfl, hfirst, hrest⟩ := List.filterMap_eq_append_iff.mp hsplit
    obtain ⟨quiet, event, after, rfl, hquiet, hevent, -⟩ := List.filterMap_eq_cons_iff.mp hrest
    have hread : event = .readFrame frame := by
      cases event <;> simp_all
    have hbefore : Sink.readFrames (before ++ quiet) = first := by
      rw [Sink.readFrames, List.filterMap_append, List.filterMap_eq_nil_iff.mpr hquiet,
        List.append_nil, hfirst]
    obtain ⟨start, hinit, hpath⟩ := hrun
    rw [← List.append_assoc] at hpath
    obtain ⟨u, hpathBefore, -⟩ := hpath.split
    have hrunBefore : Sink.machine.Run (before ++ quiet) u := ⟨start, hinit, hpathBefore⟩
    refine ⟨before ++ quiet, frame, after, u, ?_, hrunBefore, ?_⟩
    · rw [hread, List.append_assoc]
    · rw [(Sink.inv_run hrunBefore).accounted.lastSeq, hbefore]

theorem worker_exact_iff (len : ℕ) {batches : List (List Datagram)}
    (hbatch : ∀ arrived ∈ batches, arrived.length ≤ batch) :
    (∀ step ∈ (UdpWorker.new len).steps batches, step.Exact 0) ↔
      MaxOnlyLast (batches.flatten.filterMap (header 0)) := by
  have hheader : (header 0 ∘ fun datagram : Datagram => datagram.take (bufSize len)) =
      header 0 := funext fun datagram => header_take_bufSize len datagram
  rw [UdpWorker.exact_steps_iff _ _ hbatch, ← hheader, ← List.filterMap_map]
  exact exactSteps_iff 0 _

theorem sink_exact_iff {trace : List Sink.Event} {s : Sink.State}
    (hrun : Sink.machine.Run trace s) :
    (∀ step, SinkStep trace step → step.Exact Sink.hdrs) ↔
      MaxOnlyLast ((Sink.readFrames trace).filterMap (header Sink.hdrs)) := by
  rw [← exactSteps_iff]
  exact forall_congr' fun step => by rw [sinkStep_iff hrun]

/-- **When the arithmetic of the gap is that of the integers.**  For every run of a worker and
of the sink, on whatever bytes, every step is exact if and only if in no stream a packet
follows one that carries `2 ^ 64 - 1`. -/
theorem gap_arithmetic_exact_iff (len : ℕ) (batches : List (List Datagram))
    (hbatch : ∀ arrived ∈ batches, arrived.length ≤ batch) (trace : List Sink.Event)
    (s : Sink.State) (hrun : Sink.machine.Run trace s) :
    ((∀ step ∈ (UdpWorker.new len).steps batches, step.Exact 0) ↔
      MaxOnlyLast (batches.flatten.filterMap (header 0))) ∧
    ((∀ step, SinkStep trace step → step.Exact Sink.hdrs) ↔
      MaxOnlyLast ((Sink.readFrames trace).filterMap (header Sink.hdrs))) :=
  ⟨worker_exact_iff len hbatch, sink_exact_iff hrun⟩

/-- Numbers of one stream of which the largest is the last. -/
theorem maxOnlyLast_three : MaxOnlyLast [(0, 1), (0, 3), (0, maxSeq)] := by
  intro sid
  simp only [seqsOf_cons]
  by_cases hsid : (0 : UInt64) = sid
  · simp [hsid, seqsOf, maxSeq]
  · simp [hsid, seqsOf]

/-- Three packets of one stream, the second numbered two ahead of the first, the third with the
largest number: every step is exact, of the worker and of the sink. -/
theorem gap_arithmetic_exact_max_last :
    (∀ step ∈ (UdpWorker.new 64).steps [[toLeBytes 0 ++ toLeBytes 1, toLeBytes 0 ++ toLeBytes 3,
      toLeBytes 0 ++ toLeBytes maxSeq]], step.Exact 0) ∧
    ∃ trace s, Sink.machine.Run trace s ∧ (Sink.readFrames trace).length = 3 ∧
      ∀ step, SinkStep trace step → step.Exact Sink.hdrs := by
  let batches : List (List Datagram) := [[toLeBytes 0 ++ toLeBytes 1, toLeBytes 0 ++ toLeBytes 3,
    toLeBytes 0 ++ toLeBytes maxSeq]]
  let frames := [List.replicate 42 0 ++ (toLeBytes 0 ++ toLeBytes 1),
    List.replicate 42 0 ++ (toLeBytes 0 ++ toLeBytes 3),
    List.replicate 42 0 ++ (toLeBytes 0 ++ toLeBytes maxSeq)]
  have hheaders : batches.flatten.filterMap (header 0) = [(0, 1), (0, 3), (0, maxSeq)] := by decide
  have hframes : frames.filterMap (header Sink.hdrs) = [(0, 1), (0, 3), (0, maxSeq)] := by decide
  obtain ⟨trace, s, hrun, -, hread⟩ := Sink.exists_all_read frames (by decide)
  obtain ⟨hworker, hsink⟩ := gap_arithmetic_exact_iff 64 batches (by decide) trace s hrun
  rw [hheaders] at hworker
  rw [hread, hframes] at hsink
  refine ⟨hworker.mpr maxOnlyLast_three, trace, s, hrun, ?_, hsink.mpr maxOnlyLast_three⟩
  rw [hread]
  rfl

/-- Numbers of one stream of which the largest is not the last. -/
theorem not_maxOnlyLast_five : ¬ MaxOnlyLast [(0, maxSeq), (0, 5)] := by
  intro h
  exact h 0 (by decide)

/-- The number `2 ^ 64 - 1` followed by 5: the integer difference is negative, and both
receivers add 5. -/
theorem gap_arithmetic_wraps :
    (∃ step ∈ (UdpWorker.new 64).steps [[toLeBytes 0 ++ toLeBytes maxSeq,
      toLeBytes 0 ++ toLeBytes 5]], ¬ step.Exact 0) ∧
    workerDrops 64 [[toLeBytes 0 ++ toLeBytes maxSeq, toLeBytes 0 ++ toLeBytes 5]] = 5 ∧
    ∃ trace s, Sink.machine.Run trace s ∧ (∃ step, SinkStep trace step ∧ ¬ step.Exact Sink.hdrs) ∧
      s.counters.drops = 5 := by
  have hheaders : (([[toLeBytes 0 ++ toLeBytes maxSeq, toLeBytes 0 ++ toLeBytes 5]] :
      List (List Datagram)).flatten.filterMap (header 0)) = [(0, maxSeq), (0, 5)] := by decide
  have hgaps : gapTotal LastSeq.new [(0, maxSeq), (0, 5)] = 5 := by decide
  refine ⟨?_, ?_, ?_⟩
  · by_contra hexact
    push Not at hexact
    rw [worker_exact_iff 64 (by decide), hheaders] at hexact
    exact not_maxOnlyLast_five hexact
  · rw [workerDrops_eq 64 (by decide), hheaders, hgaps]
    rfl
  · let frames := [List.replicate 42 0 ++ (toLeBytes 0 ++ toLeBytes maxSeq),
      List.replicate 42 0 ++ (toLeBytes 0 ++ toLeBytes 5)]
    have hframes : frames.filterMap (header Sink.hdrs) = [(0, maxSeq), (0, 5)] := by decide
    obtain ⟨trace, s, hrun, -, hread⟩ := Sink.exists_all_read frames (by decide)
    have hreports : Reports [(0, maxSeq), (0, 5)] s.counters.drops :=
      .xdp trace s hrun (by rw [hread, hframes])
    refine ⟨trace, s, hrun, ?_, ?_⟩
    · by_contra hexact
      push Not at hexact
      rw [sink_exact_iff hrun, hread, hframes] at hexact
      exact not_maxOnlyLast_five hexact
    · rw [hreports.drops_eq, hgaps]
      rfl

end RunPerf.Loss
