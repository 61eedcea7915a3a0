import RunPerf.Xdp.GenFrames

/-!
# Payloads that do not fit

`xdp_udp_blast` does not limit the length of the payload from above.  If frame and headers
need more than a chunk, the first call of `write_frame` panics, so that no attempt is ever
completed and no iteration ends (`Unsent`).
-/

namespace RunPerf.Xdp.Gen

open RunPerf.Lib

variable {cfg : Config} {trace : List Event} {s t : State} {event : Event}

/-- The way to the first `write_frame`. -/
inductive BeforeWrite (pool : List UInt64) : Pc → Prop
  | head (hpool : pool = txPool) : BeforeWrite pool .head
  | recycle (hpool : pool = txPool) : BeforeWrite pool (.recycle [])
  | batch (hpool : pool = txPool) : BeforeWrite pool (.batch txBatch 0)
  | holding {addr : UInt64} {left : ℕ} {sent : UInt64} : BeforeWrite pool (.holding addr left sent)
  | stopped : BeforeWrite pool .stopped
  | panicked : BeforeWrite pool .panicked

/-- Events up to the first `write_frame`. -/
def Event.Early : Event → Prop
  | .dequeue found pending => found = txPool.length ∧ pending = 0
  | .extend => True
  | .pop addr => addr ≠ none
  | .panic => True
  | .stop => True
  | _ => False

/-- Nothing was ever sent. -/
structure Unsent (cfg : Config) (trace : List Event) (s : State) : Prop where
  tx : s.tx.Represents ringSize []
  comp : s.comp.Represents ringSize []
  kernel : s.kernel = []
  payload : s.payload.length = cfg.payloadLen
  before : BeforeWrite s.pool s.pc
  early : ∀ event ∈ trace, event.Early

theorem unsent_init (h : (machine cfg).Init s) : Unsent cfg [] s := by
  obtain ⟨htxSize, htxEmpty, hcompSize, hcompEmpty, hpool, hpayload, -, -, -, -, hpc, hkernel,
    -⟩ := h
  refine ⟨Ring.represents_nil htxSize htxEmpty, Ring.represents_nil hcompSize hcompEmpty, hkernel,
    ?_, ?_, by simp⟩
  · rw [hpayload, payload_init, length_payloadOf]
  · rw [hpc]
    exact .head hpool

theorem early_snoc (h : ∀ event ∈ trace, event.Early) (hevent : event.Early) :
    ∀ e ∈ trace ++ [event], e.Early := by
  intro e he
  rcases List.mem_append.mp he with hold | hnew
  · exact h e hold
  · rw [List.mem_singleton.mp hnew]
    exact hevent

theorem unsent_loop {read late : ℕ} (hpayload : 4054 < cfg.payloadLen) (h : Unsent cfg trace s)
    (hstep : loopStep cfg read late s = some (event, t)) : Unsent cfg (trace ++ [event]) t := by
  have hbefore := h.before
  cases hpc : s.pc with
  | head =>
      rw [hpc] at hbefore
      obtain ⟨hpool⟩ := hbefore
      obtain ⟨hout, hempty⟩ := h.comp.dequeueAll
      rw [loopStep_head cfg read late hpc, hout] at hstep
      cases hstep
      refine ⟨h.tx, hempty, h.kernel, h.payload, .recycle hpool, early_snoc h.early ?_⟩
      exact ⟨by simp [hpool], h.tx.occupancy_eq⟩
  | recycle done =>
      rw [hpc] at hbefore
      cases hbefore with
      | recycle hpool =>
          rw [loopStep_recycle cfg read late hpc] at hstep
          cases hstep
          exact ⟨h.tx, h.comp, h.kernel, h.payload, .batch (by simpa using hpool),
            early_snoc h.early trivial⟩
  | batch left sent =>
      rw [hpc] at hbefore
      cases hbefore with
      | batch hpool =>
          have hne : s.pool ≠ [] := by
            rw [hpool]
            exact List.ne_nil_of_length_pos (by rw [length_txPool]; decide)
          have hfirst : s.pc = .batch (63 + 1) 0 := hpc
          rw [loopStep_pop_some cfg read late hfirst
            (List.getLast?_eq_getLast_of_ne_nil hne)] at hstep
          cases hstep
          have hmin := cfg.payload_min
          refine ⟨h.tx, h.comp, h.kernel, ?_, .holding, early_snoc h.early (by simp [Event.Early])⟩
          show (copyAt 8 (toLeBytes s.seq) s.payload).length = _
          rw [length_copyAt (by rw [length_toLeBytes, h.payload]; omega), h.payload]
  | holding addr left sent =>
      have hframe : frameSize.toNat = 4096 := rfl
      have houter : outerHdr = 42 := rfl
      have hshort : (readBytes s.area addr.toNat frameSize.toNat).length <
          outerHdr + s.payload.length := by
        rw [length_readBytes, h.payload]
        omega
      have hwrite := cfg.hdr.writeFrame_eq_none cfg.cpu hshort
      rw [loopStep_panic cfg read late hpc hwrite] at hstep
      cases hstep
      exact ⟨h.tx, h.comp, h.kernel, h.payload, .panicked, early_snoc h.early trivial⟩
  | written desc left sent =>
      rw [hpc] at hbefore
      cases hbefore
  | giveBack addr sent =>
      rw [hpc] at hbefore
      cases hbefore
  | kicked sent =>
      rw [hpc] at hbefore
      cases hbefore
  | pace kicked =>
      rw [hpc] at hbefore
      cases hbefore
  | stopped => simp [loopStep, hpc] at hstep
  | panicked => simp [loopStep, hpc] at hstep

/-- **With an oversized payload nothing is ever sent.** -/
theorem unsent_run (hpayload : 4054 < cfg.payloadLen) (hrun : (machine cfg).Run trace s) :
    Unsent cfg trace s := by
  refine hrun.invariant (P := Unsent cfg) (fun _ h => unsent_init h) ?_
  intro trace s event t _ h hstep
  cases hstep with
  | loop hloop => exact unsent_loop hpayload h hloop
  | stop hpc => exact ⟨h.tx, h.comp, h.kernel, h.payload, .stopped, early_snoc h.early trivial⟩
  | take htake =>
      rw [h.tx.kernelTake_eq_none.mpr rfl] at htake
      cases htake
  | complete hheld => simp [h.kernel] at hheld

/-- What a trace says about later events is nothing. -/
theorem Unsent.filterMap_eq_nil {β : Type*} (h : Unsent cfg trace s) {say : Event → Option β}
    (hsay : ∀ event : Event, event.Early → say event = none) : trace.filterMap say = [] :=
  List.filterMap_eq_nil_iff.mpr fun event hmem => hsay event (h.early event hmem)

theorem Unsent.results_eq (h : Unsent cfg trace s) : results trace = [] := by
  refine h.filterMap_eq_nil fun event hearly => ?_
  cases event <;> simp_all [Event.Early]

theorem Unsent.takenFrames_eq (h : Unsent cfg trace s) : takenFrames trace = [] := by
  refine h.filterMap_eq_nil fun event hearly => ?_
  cases event <;> simp_all [Event.Early]

end RunPerf.Xdp.Gen
