import RunPerf.Xdp.GenRuns

/-!
# Ownership and delivery of the generator's frames

The invariants of `GenFrames`, read at the end of a run.  With fewer than `2 ^ 64` attempts
the numbers of the frames grow strictly, so no two frames of a run are the same.
-/

namespace RunPerf.Xdp.Gen

open RunPerf.Lib

variable {cfg : Config} {trace : List Event} {s : State}

/-- The sequence numbers of the payloads that were accepted, as they were stamped. -/
def acceptedSeqs (trace : List Event) : List UInt64 :=
  (successes 0 (results trace)).map UInt64.ofNat

theorem acceptedSeqs_increasing (hattempts : (results trace).length < 2 ^ 64) :
    (acceptedSeqs trace).Pairwise (· < ·) := by
  obtain ⟨hsorted, hrange⟩ := successes_increasing 0 (results trace)
  rw [acceptedSeqs, List.pairwise_map]
  refine hsorted.imp_of_mem ?_
  intro x y hx hy hxy
  have hx' := (hrange x hx).2
  have hy' := (hrange y hy).2
  rw [UInt64.lt_iff_toNat_lt, UInt64.toNat_ofNat', UInt64.toNat_ofNat', Nat.mod_eq_of_lt (by omega),
    Nat.mod_eq_of_lt (by omega)]
  exact hxy

/-- **TX frames are owned by one party, and delivered in order.**  In every run the frames in
the pool, in the hands of the worker, on the TX ring, with the kernel and on the completion
ring are the 2048 frames of the pool.  Hence the frame that is being written is neither on
the TX ring nor with the kernel.  The frames the kernel took, as it found them, are those of
the accepted payloads in their order, followed by those on the TX ring; and each frame that
it holds still reads so.  A frame is what `write_frame` makes of its payload in any buffer,
and the accepted payloads carry strictly increasing numbers. -/
theorem tx_frames_owned_and_delivered (hpayload : cfg.payloadLen ≤ 4054)
    (hattempts : (results trace).length < 2 ^ 64) (hrun : (machine cfg).Run trace s) :
    s.places.Perm txPool ∧
    (∀ addr ∈ s.inHand, ∀ desc ∈ s.tx.contents ++ s.kernel.map Prod.snd, desc.addr ≠ addr) ∧
    (accepted trace).map cfg.hdr.frameBytes =
      takenFrames trace ++ s.tx.contents.map (frameOf s.area) ∧
    (∀ held ∈ s.kernel, (takenFrames trace)[held.1]? = some (frameOf s.area held.2)) ∧
    (∀ payload ∈ accepted trace, ∀ buf : List UInt8, buf.length = frameSize.toNat →
      cfg.hdr.writeFrame cfg.cpu buf payload =
        some (cfg.hdr.frameBytes payload ++ buf.drop (outerHdr + cfg.payloadLen),
          outerHdr + cfg.payloadLen)) ∧
    accepted trace = (acceptedSeqs trace).map cfg.payloadOf ∧
    (acceptedSeqs trace).Pairwise (· < ·) := by
  have h := inv_run hpayload hrun
  have haccepted : accepted trace = (acceptedSeqs trace).map cfg.payloadOf := by
    rw [h.stamped.accepted, acceptedSeqs, List.map_map]
    rfl
  refine ⟨h.conserved.places, fun addr haddr desc hdesc => h.conserved.ne_of_visible haddr hdesc,
    ?_, h.delivered.held, ?_, haccepted, acceptedSeqs_increasing hattempts⟩
  · rw [h.delivered.taken, h.delivered.pending, List.take_append_drop]
  · intro payload hmem buf hbuf
    rw [haccepted] at hmem
    obtain ⟨seq, -, rfl⟩ := List.mem_map.mp hmem
    have hframe : frameSize.toNat = 4096 := rfl
    have houter : outerHdr = 42 := rfl
    have hfit : outerHdr + (cfg.payloadOf seq).length ≤ buf.length := by
      rw [length_payloadOf]
      omega
    rw [cfg.hdr.writeFrame_eq cfg.cpu hfit, length_payloadOf]

/-- A generator with the shortest payload and an empty template. -/
def sampleConfig : Config :=
  ⟨⟨true, false, false, false⟩, ⟨List.replicate outerHdr 0, List.length_replicate⟩, 0, 16, 0,
    le_rfl⟩

/-- The worker sends all its frames, then the kernel takes the first of them. -/
theorem tx_frames_delivered_after_drain :
    ∃ trace s, (machine sampleConfig).Run trace s ∧ (results trace).length = 2048 ∧
      s.taken = 1 ∧ s.places.Perm txPool ∧
      (accepted trace).map sampleConfig.hdr.frameBytes =
        takenFrames trace ++ s.tx.contents.map (frameOf s.area) := by
  have hpayload : sampleConfig.payloadLen ≤ 4054 := by decide
  obtain ⟨trace, s, hpath, hresults, -, -, -, htaken, -, hpending⟩ :=
    exists_drained sampleConfig hpayload 4294967295
  have hinit := init_started sampleConfig 4294967295
  have hinv := inv_path hpayload (inv_init hinit) hpath.of_restrict
  obtain ⟨desc, tx, htake⟩ := hinv.conserved.tx.exists_kernelTake (by omega)
  have hrun : (machine sampleConfig).Run (trace ++ [.take (frameOf s.area desc)]) _ :=
    ⟨_, hinit, hpath.of_restrict.snoc (Step.take htake)⟩
  have hlength : (results (trace ++ [.take (frameOf s.area desc)])).length = 2048 := by
    rw [results_append, hresults, List.length_append, List.length_replicate]
    rfl
  have h := tx_frames_owned_and_delivered hpayload (by rw [hlength]; decide) hrun
  exact ⟨_, _, hrun, hlength, by simp [htaken], h.1, h.2.2.1⟩

end RunPerf.Xdp.Gen
