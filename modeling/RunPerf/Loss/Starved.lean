import RunPerf.Loss.Reports
import RunPerf.Xdp.GenDelivery
import RunPerf.Xdp.GenOversized
import RunPerf.Xdp.WireFormat

/-!
# Attempts that find no frame

`tx_loop` uses up a sequence number before it knows whether `tx_one` has a frame to send.
If the pool is empty, the attempt fails and its number never appears on the wire.

The kernel takes the frames of the successful attempts in order, so what it has taken are
the first few numbers of `successes`.  They are consecutive exactly when no failed attempt
lies between two of them.  The first attempt of a run always succeeds
(`first_attempt_succeeds`), hence that is the case exactly when nothing that went onto the
TX ring after a failed attempt has been taken.
-/

namespace RunPerf.Loss

open RunPerf.Lib RunPerf.Receive RunPerf.Xdp
open RunPerf.Xdp.Gen (successes results takenFrames accepted)

/-- Of the frames that went onto the TX ring after an attempt that failed, none is among the
first `taken`. -/
def NoneTakenAfterFailure (attempts : List Bool) (taken : ℕ) : Prop :=
  ∀ i : Fin attempts.length, attempts[i] = false → taken ≤ (attempts.take i).count true

instance (attempts : List Bool) (taken : ℕ) : Decidable (NoneTakenAfterFailure attempts taken) :=
  inferInstanceAs (Decidable (∀ _ : Fin _, _))

/-! ## Consecutive numbers -/

theorem successes_replicate (base n : ℕ) :
    successes base (List.replicate n true) = List.range' base n := by
  induction n generalizing base with
  | zero => rfl
  | succ n ih => rw [List.replicate_succ, successes, ih, List.range'_succ]

/-- Attempts succeed up to the first failure, if there is one. -/
theorem exists_first_failure (attempts : List Bool) :
    ∃ n, attempts = List.replicate n true ∨
      ∃ rest, attempts = List.replicate n true ++ false :: rest := by
  induction attempts with
  | nil => exact ⟨0, .inl rfl⟩
  | cons attempt attempts ih =>
      cases attempt with
      | false => exact ⟨0, .inr ⟨attempts, rfl⟩⟩
      | true =>
          obtain ⟨n, rfl | ⟨rest, rfl⟩⟩ := ih
          · exact ⟨n + 1, .inl rfl⟩
          · exact ⟨n + 1, .inr ⟨rest, rfl⟩⟩

theorem noneTakenAfterFailure_replicate (n taken : ℕ) :
    NoneTakenAfterFailure (List.replicate n true) taken := by
  intro i hfailed
  simp at hfailed

theorem noneTakenAfterFailure_iff (n taken : ℕ) (rest : List Bool) :
    NoneTakenAfterFailure (List.replicate n true ++ false :: rest) taken ↔ taken ≤ n := by
  constructor
  · intro h
    have hfirst := h ⟨n, by simp⟩ (by simp)
    simpa using hfirst
  · intro hle i hfailed
    -- A failed attempt is not among the first `n`, which all succeeded.
    have hlate : n ≤ i := by
      by_contra hlt
      have htrue : (List.replicate n true ++ false :: rest)[i] = true := by
        rw [Fin.getElem_fin, List.getElem_append_left (by simpa using hlt), List.getElem_replicate]
      rw [htrue] at hfailed
      cases hfailed
    have hcount : ((List.replicate n true ++ false :: rest).take i).count true =
        n + ((false :: rest).take (i - n)).count true := by
      rw [List.take_append, List.count_append, List.take_of_length_le (by simpa using hlate)]
      simp
    omega

/-- What was taken is consecutive exactly when nothing was taken from after a failure. -/
theorem isChain_taken_iff {attempts : List Bool} {taken : ℕ} (hfirst : attempts.head? ≠ some false)
    (htaken : taken ≤ (successes 0 attempts).length) :
    ((successes 0 attempts).take taken).IsChain (fun x y => y = x + 1) ↔
      NoneTakenAfterFailure attempts taken := by
  obtain ⟨n, rfl | ⟨rest, rfl⟩⟩ := exists_first_failure attempts
  · refine iff_of_true ?_ (noneTakenAfterFailure_replicate n taken)
    rw [successes_replicate]
    exact (List.isChain_range' 0 n 1).take taken
  · have hsplit : successes 0 (List.replicate n true ++ false :: rest) =
        List.range' 0 n ++ successes (n + 1) rest := by
      rw [Gen.successes_append, successes_replicate, List.length_replicate, successes, Nat.zero_add]
    rw [noneTakenAfterFailure_iff]
    rw [hsplit] at htaken ⊢
    by_cases hle : taken ≤ n
    · refine iff_of_true ?_ hle
      rw [List.take_append_of_le_length (by simpa using hle)]
      exact (List.isChain_range' 0 n 1).take taken
    · refine iff_of_false ?_ hle
      intro hchain
      have hpos : 0 < n := by
        by_contra hzero
        obtain rfl : n = 0 := by omega
        exact hfirst rfl
      -- The number after the failure is not the successor of the last one before it.
      have hlength : n < ((List.range' 0 n ++ successes (n + 1) rest).take taken).length := by
        rw [List.length_take]
        omega
      have hstep := List.isChain_iff_getElem.mp hchain (n - 1) (by omega)
      simp only [Nat.sub_add_cancel hpos, List.getElem_take] at hstep
      rw [List.getElem_append_right (by simp),
        List.getElem_append_left (by simpa using Nat.sub_lt hpos one_pos),
        List.getElem_range'] at hstep
      have hmem : 0 + 1 * (n - 1) + 1 ∈ successes (n + 1) rest := by
        rw [← hstep]
        exact List.getElem_mem _
      have hlate := ((Gen.successes_increasing (n + 1) rest).2 _ hmem).1
      omega

/-! ## The first attempt -/

section Runs

variable {cfg : Gen.Config} {trace : List Gen.Event} {s t : Gen.State} {event : Gen.Event}

/-- Until the first attempt is over, nothing has come back. -/
structure FirstSucceeds (trace : List Gen.Event) (s : Gen.State) : Prop where
  first : (results trace).head? ≠ some false
  nothing_back : results trace = [] →
    s.comp.contents = [] ∧ ∀ done, s.pc = .recycle done → done = []

/-- Before the first result the kernel holds nothing and the TX ring is empty. -/
theorem untouched_of_no_results (h : Gen.Inv cfg trace s) (hnone : results trace = []) :
    s.tx.contents = [] ∧ s.kernel = [] := by
  have haccepted : accepted trace = [] := by
    rw [h.stamped.accepted, hnone]
    rfl
  have hcount := h.delivered.count
  rw [haccepted, List.length_nil] at hcount
  refine ⟨List.length_eq_zero_iff.mp (by omega), ?_⟩
  have hframes : takenFrames trace = [] := by
    rw [h.delivered.taken, haccepted]
    simp
  cases hkernel : s.kernel with
  | nil => rfl
  | cons held rest =>
      have hheld := h.delivered.held held (by simp [hkernel])
      simp [hframes] at hheld

/-- A step that ends no attempt and returns nothing. -/
theorem FirstSucceeds.of_same (h : FirstSucceeds trace s)
    (hresults : results (trace ++ [event]) = results trace) (hcomp : t.comp = s.comp)
    (hpc : ∀ done, t.pc = .recycle done → s.pc = .recycle done) :
    FirstSucceeds (trace ++ [event]) t := by
  refine ⟨by rw [hresults]; exact h.first, ?_⟩
  rw [hresults, hcomp]
  intro hnone
  obtain ⟨hempty, hdone⟩ := h.nothing_back hnone
  exact ⟨hempty, fun done hrecycle => hdone done (hpc done hrecycle)⟩

theorem firstSucceeds_step (hpayload : cfg.payloadLen ≤ 4054) (hinv : Gen.Inv cfg trace s)
    (h : FirstSucceeds trace s) (hstep : Gen.Step cfg s event t) :
    FirstSucceeds (trace ++ [event]) t := by
  cases Gen.move_of_step hpayload hinv hstep with
  | dequeue hpc =>
      obtain ⟨hout, hempty⟩ := hinv.conserved.comp.dequeueAll
      refine ⟨by simpa [results] using h.first, fun hnone => ⟨hempty.contents_eq, ?_⟩⟩
      rintro done hdone
      obtain rfl := Gen.Pc.recycle.inj hdone
      rw [hout]
      exact (h.nothing_back (by simpa [results] using hnone)).1
  | popNone hpc hpool =>
      -- An empty pool means that a frame has gone out before.
      have hsome : results trace ≠ [] := by
        intro hnone
        obtain ⟨htx, hkernel⟩ := untouched_of_no_results hinv hnone
        have hlength := hinv.conserved.length_places
        simp [Gen.State.places, Gen.State.inHand, hpc, hpool, htx, hkernel,
          (h.nothing_back hnone).1] at hlength
      have hresults : results (trace ++ [.pop none]) = results trace ++ [false] := by
        simp [results]
      refine ⟨?_, fun hnone => absurd hnone (by simp [hresults])⟩
      rw [hresults, List.head?_append_of_ne_nil _ hsome]
      exact h.first
  | produce hpc =>
      have hresults : results (trace ++ [.produce s.payload 1]) = results trace ++ [true] := by
        simp [results]
      refine ⟨?_, fun hnone => absurd hnone (by simp [hresults])⟩
      rw [hresults]
      cases hold : results trace with
      | nil => simp
      | cons first rest => simpa [hold] using h.first
  | complete hheld =>
      have hresults : ∀ addr, results (trace ++ [.complete addr]) = results trace := by
        simp [results]
      refine ⟨by rw [hresults]; exact h.first, fun hnone => ?_⟩
      rw [hresults] at hnone
      rw [(untouched_of_no_results hinv hnone).2] at hheld
      simp at hheld
  | extend hpc => exact h.of_same (by simp [results]) rfl (by simp)
  | popSome hpc hlast => exact h.of_same (by simp [results]) rfl (by simp)
  | write hpc hwrite => exact h.of_same (by simp [results]) rfl (by simp)
  | kick hpc hsent => exact h.of_same (by simp [results]) rfl (by simp)
  | noKick hpc hsent => exact h.of_same (by simp [results]) rfl (by simp)
  | kickReturn hpc => exact h.of_same (by simp [results]) rfl (by simp)
  | next read late hpc => exact h.of_same (by simp [results]) rfl (by simp)
  | stop hpc => exact h.of_same (by simp [results]) rfl (by simp)
  | take htake => exact h.of_same (by simp [results]) rfl (by simp)

/-- In every run the first attempt succeeds. -/
theorem first_attempt_succeeds (hpayload : cfg.payloadLen ≤ 4054)
    (hrun : (Gen.machine cfg).Run trace s) : (results trace).head? ≠ some false := by
  have h : FirstSucceeds trace s := by
    refine hrun.invariant (P := FirstSucceeds) ?_ ?_
    · rintro s ⟨-, -, hsize, hempty, -, -, -, -, -, -, hpc, -⟩
      refine ⟨by simp [results], fun _ => ⟨?_, by simp [hpc]⟩⟩
      exact (Ring.represents_nil hsize hempty).contents_eq
    · intro trace s event t hbefore h hstep
      exact firstSucceeds_step hpayload (Gen.inv_run hpayload hbefore) h hstep
  exact h.first

/-! ## What the sink shows -/

/-- The header of a frame is the worker and the number that its payload carries. -/
theorem header_frameBytes_payloadOf (seq : UInt64) :
    header Sink.hdrs (cfg.hdr.frameBytes (cfg.payloadOf seq)) = some (cfg.worker, seq) := by
  have h := header_frameBytes cfg.hdr cfg.worker seq (List.replicate cfg.payloadLen 0) []
  rwa [List.append_nil, ← cfg.payloadOf_eq_stampPayload] at h

/-- What a sink reports that has read some of the frames the kernel took. -/
theorem reports_of_delivered (hpayload : cfg.payloadLen ≤ 4054)
    (hrun : (Gen.machine cfg).Run trace s) {rxTrace : List Sink.Event} {r : Sink.State}
    (hrx : Sink.machine.Run rxTrace r) (hdelivered : Sink.posted rxTrace = takenFrames trace) :
    Reports ((((successes 0 (results trace)).take (takenFrames trace).length).take
      (Sink.readFrames rxTrace).length).map fun number => (cfg.worker, UInt64.ofNat number))
      r.counters.drops := by
  have hgen := Gen.inv_run hpayload hrun
  have hposted := (Sink.inv_run hrx).accounted.posted
  have hread : Sink.readFrames rxTrace =
      (takenFrames trace).take (Sink.readFrames rxTrace).length := by
    rw [← hdelivered, hposted, List.take_left]
  have hframes := hgen.taken_eq_take
  rw [hgen.stamped.accepted, List.map_map, ← List.map_take] at hframes
  refine Reports.xdp rxTrace r hrx ?_
  -- The lengths stay, the frames are replaced by what they are made of.
  generalize (takenFrames trace).length = taken at hframes ⊢
  generalize (Sink.readFrames rxTrace).length = read at hread ⊢
  rw [hread, hframes, ← List.map_take, List.filterMap_map, ← List.filterMap_eq_map]
  refine List.filterMap_congr fun number _ => ?_
  exact header_frameBytes_payloadOf _

/-- The statement below for payloads that fit. -/
theorem drops_eq_zero_of_fits (hpayload : cfg.payloadLen ≤ 4054)
    (hrun : (Gen.machine cfg).Run trace s) {rxTrace : List Sink.Event} {r : Sink.State}
    (hrx : Sink.machine.Run rxTrace r) (hdelivered : Sink.posted rxTrace = takenFrames trace) :
    (NoneTakenAfterFailure (results trace) (takenFrames trace).length →
      r.counters.drops = 0) ∧
    (r.pending = [] → (results trace).length ≤ 2 ^ 64 → r.counters.drops = 0 →
      NoneTakenAfterFailure (results trace) (takenFrames trace).length) := by
  have hgen := Gen.inv_run hpayload hrun
  have hreport := reports_of_delivered hpayload hrun hrx hdelivered
  have htaken : (takenFrames trace).length ≤ (successes 0 (results trace)).length := by
    rw [hgen.taken_eq_take, List.length_take, List.length_map, hgen.stamped.accepted,
      List.length_map]
    exact Nat.min_le_right _ _
  have hiff := isChain_taken_iff (first_attempt_succeeds hpayload hrun) htaken
  constructor
  · intro hnone
    exact hreport.drops_eq_zero_of_consecutive ((hiff.mpr hnone).take _)
  · intro hread hattempts hzero
    -- Everything that was taken has been read.
    have hposted := (Sink.inv_run hrx).accounted.posted
    rw [hread, List.map_nil, List.append_nil, hdelivered] at hposted
    rw [← hposted, List.take_take, Nat.min_self] at hreport
    obtain ⟨hsorted, hrange⟩ := Gen.successes_increasing 0 (results trace)
    refine hiff.mp ((hreport.drops_eq_zero_iff_consecutive
      (hsorted.sublist (List.take_sublist _ _)) ?_).mp hzero)
    intro number hmem
    have hlt := (hrange number (List.mem_of_mem_take hmem)).2
    omega

/-- **Phantom loss on the AF_XDP path.**  A generator runs with any interleaving of the
kernel, and the frames the kernel took are posted to one sink, each once and in order.  If
nothing that went onto the TX ring after a failed attempt has been taken, the sink shows no
drops.  Once it has read everything, and as long as the sequence numbers do not wrap, it
shows none in this case only. -/
theorem starved_shown_as_drops (hrun : (Gen.machine cfg).Run trace s)
    {rxTrace : List Sink.Event} {r : Sink.State} (hrx : Sink.machine.Run rxTrace r)
    (hdelivered : Sink.posted rxTrace = takenFrames trace) :
    (NoneTakenAfterFailure (results trace) (takenFrames trace).length →
      r.counters.drops = 0) ∧
    (r.pending = [] → (results trace).length ≤ 2 ^ 64 → r.counters.drops = 0 →
      NoneTakenAfterFailure (results trace) (takenFrames trace).length) := by
  by_cases hpayload : cfg.payloadLen ≤ 4054
  · exact drops_eq_zero_of_fits hpayload hrun hrx hdelivered
  · -- The first `write_frame` panics, and nothing is ever delivered.
    have hunsent := Gen.unsent_run (not_le.mp hpayload) hrun
    rw [hunsent.takenFrames_eq] at hdelivered ⊢
    rw [hunsent.results_eq]
    refine ⟨fun _ => ?_, fun _ _ _ => ?_⟩
    · have haccounted := (Sink.inv_run hrx).accounted
      have hread : Sink.readFrames rxTrace = [] := by
        have hposted := haccounted.posted
        rw [hdelivered] at hposted
        exact (List.append_eq_nil_iff.mp hposted.symm).1
      rw [haccounted.counters, hread]
      rfl
    · intro i
      exact i.elim0

/-! ## Runs with and without a failed attempt -/

theorem length_takenFrames (hpayload : cfg.payloadLen ≤ 4054)
    (hrun : (Gen.machine cfg).Run trace s) {frame : List UInt8}
    (hmem : frame ∈ takenFrames trace) : frame.length ≤ frameSize.toNat := by
  have hgen := Gen.inv_run hpayload hrun
  rw [hgen.delivered.taken] at hmem
  obtain ⟨payload, hpayloadMem, rfl⟩ := List.mem_map.mp (List.mem_of_mem_take hmem)
  rw [hgen.stamped.accepted] at hpayloadMem
  obtain ⟨number, -, rfl⟩ := List.mem_map.mp hpayloadMem
  have houter : outerHdr = 42 := rfl
  have hframe : frameSize.toNat = 4096 := rfl
  rw [FrameHeader.length_frameBytes, Gen.length_payloadOf]
  omega

end Runs

/-- After the worker has sent all its frames to an idle kernel, the kernel takes them all
and a sink reads them: no attempt failed, and the sink shows no drops. -/
theorem drops_eq_zero_without_failure :
    ∃ trace s rxTrace r, (Gen.machine Gen.sampleConfig).Run trace s ∧
      results trace = List.replicate 2048 true ∧ (takenFrames trace).length = 2048 ∧
      Sink.machine.Run rxTrace r ∧ Sink.posted rxTrace = takenFrames trace ∧
      r.counters.drops = 0 := by
  have hpayload : Gen.sampleConfig.payloadLen ≤ 4054 := by decide
  obtain ⟨first, s, hfirst, hresults, -, -, -, htaken, -, hpending⟩ :=
    Gen.exists_drained Gen.sampleConfig hpayload 4294967295
  have hstart : (Gen.machine Gen.sampleConfig).Run first s :=
    ⟨_, Gen.init_started _ _, hfirst.of_restrict⟩
  have hinv := Gen.inv_run hpayload hstart
  obtain ⟨later, t, hlater, hnone, htotal⟩ := Gen.exists_take_all hpayload 2048 hinv hpending
  have hrun := hstart.append hlater
  obtain ⟨rxTrace, r, hrx, hposted, -, -, -⟩ := Sink.exists_delivery
    (takenFrames (first ++ later)) fun _ hmem => length_takenFrames hpayload hrun hmem
  have hall : results (first ++ later) = List.replicate 2048 true := by
    rw [Gen.results_append, hresults, hnone, List.append_nil]
  refine ⟨_, t, rxTrace, r, hrun, hall, ?_, hrx, hposted, ?_⟩
  · rw [(Gen.inv_run hpayload hrun).delivered.length_takenFrames, htotal, htaken]
  · refine (starved_shown_as_drops hrun hrx hposted).1 ?_
    rw [hall]
    exact noneTakenAfterFailure_replicate _ _

/-- The pool runs dry while the kernel is idle, and one attempt fails.  Then the kernel takes
and completes a frame, which is sent once more, and takes all the others.  Every frame it took
reaches the sink, once and in order, and is read: the sink shows drops nonetheless. -/
theorem starved_drops_ne_zero :
    ∃ trace s rxTrace r, (Gen.machine Gen.sampleConfig).Run trace s ∧
      results trace = List.replicate 2048 true ++ [false, true] ∧
      Sink.machine.Run rxTrace r ∧ Sink.posted rxTrace = takenFrames trace ∧
      r.counters.drops ≠ 0 := by
  have hpayload : Gen.sampleConfig.payloadLen ≤ 4054 := by decide
  obtain ⟨first, s, hfirst, hresults, hpc, hpool, hkernel, htaken, hcomp, -⟩ :=
    Gen.exists_drained Gen.sampleConfig hpayload 4294967295
  have hdrained : (Gen.machine Gen.sampleConfig).Run first s :=
    ⟨_, Gen.init_started _ _, hfirst.of_restrict⟩
  obtain ⟨failing, t, hfailing, hfailed, htpc, htpool, -, hsame⟩ :=
    Gen.exists_failed_iteration (Gen.inv_run hpayload hdrained) hpc hcomp hpool
  have hstarved := hdrained.append hfailing.of_restrict
  obtain ⟨reviving, u, hreviving, hrevived, hutaken, hupending⟩ :=
    Gen.exists_revived hpayload (Gen.inv_run hpayload hstarved) htpc htpool
      (hsame.kernel.trans hkernel) (hsame.comp.trans hcomp)
  have hresent := hstarved.append hreviving
  obtain ⟨later, v, hlater, hnone, htotal⟩ :=
    Gen.exists_take_all hpayload 2048 (Gen.inv_run hpayload hresent) hupending
  have hrun := hresent.append hlater
  have hall : results (((first ++ failing) ++ reviving) ++ later) =
      List.replicate 2048 true ++ [false, true] := by
    simp only [Gen.results_append, hresults, hfailed, hrevived, hnone, List.append_nil,
      List.append_assoc, List.singleton_append]
  obtain ⟨rxTrace, r, hrx, hposted, hpoll, hempty, -⟩ := Sink.exists_delivery
    (takenFrames (((first ++ failing) ++ reviving) ++ later))
    fun _ hmem => length_takenFrames hpayload hrun hmem
  refine ⟨_, v, rxTrace, r, hrun, hall, hrx, hposted, ?_⟩
  intro hzero
  have hread : r.pending = [] := by
    simp [Sink.State.pending, Sink.State.todo, hpoll, hempty]
  have hlength : (takenFrames (((first ++ failing) ++ reviving) ++ later)).length = 2049 := by
    rw [(Gen.inv_run hpayload hrun).delivered.length_takenFrames, htotal, hutaken, hsame.taken,
      htaken]
  -- All 2049 frames were taken, and one of them was sent after the failed attempt.
  have hlate := (drops_eq_zero_of_fits hpayload hrun hrx hposted).2 hread
    (by rw [hall, List.length_append, List.length_replicate]; decide) hzero
  rw [hall, hlength, noneTakenAfterFailure_iff] at hlate
  omega

end RunPerf.Loss
