import RunPerf.Xdp.GenDelivery

/-!
# Calls of `tx_one`

A call of `tx_one` pops a frame, writes it and puts its descriptor on the TX ring; in between
the kernel goes on taking and completing frames.  The call fails if there is no frame, or, in
its last branch, if the ring is full.

There are 2048 frames for a ring of 2048 cells.  The call holds one of them, so at most 2047
are outstanding elsewhere and the ring has room: the last branch is never taken.  A call
therefore fails exactly if the pool is empty, and then it has done nothing.
-/

namespace RunPerf.Xdp.Gen

open RunPerf.Lib

variable {cfg : Config} {trace : List Event} {s t : State}

/-- The steps of the kernel. -/
def Event.Kernel : Event → Prop
  | .take _ => True
  | .complete _ => True
  | _ => False

/-- The generator while `tx_loop` stands still. -/
def kernelOnly (cfg : Config) : Machine State Event :=
  (machine cfg).restrict fun _ event => event.Kernel

/-- A call of `tx_one` that begins in `s`, returns the result in `t`, and has the kernel's steps
between its own. -/
inductive TxOne (cfg : Config) (s : State) : Bool → State → Prop
  /-- `None => return false`. -/
  | noFrame {t : State} (hpop : Step cfg s (.pop none) t) : TxOne cfg s false t
  | sent {addr : UInt64} {payload : List UInt8} {n : ℕ} {popped before written behind t : State}
      {first second : List Event} (hpop : Step cfg s (.pop (some addr)) popped)
      (hfirst : (kernelOnly cfg).Path popped first before) (hwrite : Step cfg before .write written)
      (hsecond : (kernelOnly cfg).Path written second behind)
      (hproduce : Step cfg behind (.produce payload n) t) (hn : n ≠ 0) : TxOne cfg s true t
  /-- `if n == 0`: the frame goes back to the pool. -/
  | ringFull {addr : UInt64} {payload : List UInt8}
      {popped before written behind full later t : State} {first second third : List Event}
      (hpop : Step cfg s (.pop (some addr)) popped)
      (hfirst : (kernelOnly cfg).Path popped first before) (hwrite : Step cfg before .write written)
      (hsecond : (kernelOnly cfg).Path written second behind)
      (hproduce : Step cfg behind (.produce payload 0) full)
      (hthird : (kernelOnly cfg).Path full third later) (hback : Step cfg later .giveBack t) :
      TxOne cfg s false t

/-- The frames that are on their way: on the TX ring, with the kernel or on the completion
ring. -/
def State.outstanding (s : State) : ℕ :=
  s.tx.contents.length + s.kernel.length + s.comp.contents.length

/-- While a call holds a frame, at most 2047 others are outstanding. -/
theorem Conserved.outstanding_lt (h : Conserved s) {addr : UInt64} (hhand : s.inHand = [addr]) :
    s.outstanding ≤ 2047 := by
  have hlength := h.length_places
  simp only [State.places, hhand, List.length_append, List.length_map,
    List.length_singleton] at hlength
  unfold State.outstanding
  omega

/-- There is no room problem when the descriptor is put on the ring. -/
theorem Inv.not_full (hpayload : cfg.payloadLen ≤ 4054) (h : Inv cfg trace s)
    {payload : List UInt8} {n : ℕ} (hstep : Step cfg s (.produce payload n) t) : n = 1 := by
  generalize hevent : Event.produce payload n = event at hstep
  cases move_of_step hpayload h hstep <;> cases hevent
  rfl

/-- A call succeeds if there is a frame, and then there is no other way. -/
theorem Inv.txOne_result (hpayload : cfg.payloadLen ≤ 4054) (h : Inv cfg trace s) {result : Bool}
    (hcall : TxOne cfg s result t) :
    (result = false ↔ s.pool = []) ∧
      (result = false → t.pool = s.pool ∧ t.tx = s.tx ∧ t.comp = s.comp) := by
  have hframe : ∀ {addr : UInt64} {popped : State}, Step cfg s (.pop (some addr)) popped →
      s.pool ≠ [] := by
    intro addr popped hpop hempty
    generalize hevent : Event.pop (some addr) = event at hpop
    cases move_of_step hpayload h hpop <;> cases hevent
    rename_i hlast
    simp [hempty] at hlast
  cases hcall with
  | noFrame hpop =>
      generalize hevent : Event.pop none = event at hpop
      cases move_of_step hpayload h hpop <;> cases hevent
      rename_i hpool
      exact ⟨iff_of_true rfl hpool, fun _ => ⟨rfl, rfl, rfl⟩⟩
  | sent hpop _ _ _ _ _ => exact ⟨iff_of_false (by decide) (hframe hpop), by simp⟩
  | ringFull hpop hfirst hwrite hsecond hproduce _ _ =>
      -- The ring would have to be full although a frame is in hand.
      have hpath := (((Machine.Path.single hpop).append hfirst.of_restrict).snoc hwrite).append
        hsecond.of_restrict
      have hinv := inv_path hpayload h hpath
      exact absurd (hinv.not_full hpayload hproduce) (by decide)

/-- A call returns. -/
theorem Inv.exists_txOne (hpayload : cfg.payloadLen ≤ 4054) (h : Inv cfg trace s) {left : ℕ}
    {sent : UInt64} (hpc : s.pc = .batch (left + 1) sent) : ∃ result t, TxOne cfg s result t := by
  cases hlast : s.pool.getLast? with
  | none => exact ⟨false, _, .noFrame (.loop (loopStep_pop_none cfg 0 0 hpc hlast))⟩
  | some addr =>
      have hpopped := inv_pop_some h hpc hlast
      have hframe := writeFrame_of_inv hpayload hpopped.stamped addr
      have hwritten := inv_write hpayload hpopped rfl hframe
      have hone := (hwritten.conserved.produceTx _ rfl).1
      exact ⟨true, _, .sent (.loop (loopStep_pop_some cfg 0 0 hpc hlast)) .nil
        (.loop (loopStep_write cfg 0 0 rfl hframe)) .nil
        (.loop (loopStep_produce cfg 0 0 rfl hone)) (by decide)⟩

/-- **`tx_one` fails only for lack of frames, and then changes nothing.**  In every state that a
run reaches: the worker is not in the branch that gives a frame back; while it holds a frame at
most 2047 others are outstanding; a call returns; and whatever the kernel does meanwhile, it
returns `false` exactly if the pool is empty when it begins, and then pool and rings are as they
were. -/
theorem tx_one_fails_iff_pool_empty (cfg : Config) (hpayload : cfg.payloadLen ≤ 4054)
    (trace : List Event) (s : State) (hrun : (machine cfg).Run trace s) :
    (∀ addr sent, s.pc ≠ .giveBack addr sent) ∧
    (∀ addr, s.inHand = [addr] → s.outstanding ≤ 2047) ∧
    (∀ left sent, s.pc = .batch (left + 1) sent → ∃ result t, TxOne cfg s result t) ∧
    ∀ result t, TxOne cfg s result t →
      (result = false ↔ s.pool = []) ∧
      (result = false → t.pool = s.pool ∧ t.tx = s.tx ∧ t.comp = s.comp) := by
  have h := inv_run hpayload hrun
  refine ⟨?_, fun addr hhand => h.conserved.outstanding_lt hhand,
    fun left sent hpc => h.exists_txOne hpayload hpc,
    fun result t hcall => h.txOne_result hpayload hcall⟩
  intro addr sent hpc
  exact absurd h.conserved.running (by simp [Pc.Running, hpc])

/-- After all frames were sent and none came back, the next call fails. -/
theorem tx_one_fails_after_drain :
    ∃ trace s t, (machine sampleConfig).Run trace s ∧ s.pool = [] ∧
      TxOne sampleConfig s false t ∧ t.pool = s.pool ∧ t.tx = s.tx ∧ t.comp = s.comp := by
  have hpayload : sampleConfig.payloadLen ≤ 4054 := by decide
  obtain ⟨trace, s, hpath, -, hpc, hpool, -, -, hcomp, -⟩ := exists_drained sampleConfig hpayload 0
  have hdrained : (machine sampleConfig).Run trace s :=
    ⟨_, init_started sampleConfig 0, hpath.of_restrict⟩
  obtain ⟨hout, -⟩ := (inv_run hpayload hdrained).conserved.comp.dequeueAll
  rw [hcomp] at hout
  -- The loop goes on and finds nothing to recycle.
  have hrun := hdrained.append (((Machine.Path.single (alone_step
    (loopStep_head sampleConfig 0 0 hpc) trivial)).snoc
    (alone_step (loopStep_recycle sampleConfig 0 0 rfl) trivial)).of_restrict)
  have hempty : s.pool ++ s.comp.dequeueAll.2 = [] := by rw [hpool, hout]; rfl
  obtain ⟨-, -, hreturns, hcalls⟩ := tx_one_fails_iff_pool_empty sampleConfig hpayload _ _ hrun
  obtain ⟨result, t, hcall⟩ := hreturns 63 0 rfl
  obtain ⟨hfails, hsame⟩ := hcalls result t hcall
  obtain rfl := hfails.mpr hempty
  exact ⟨_, _, t, hrun, hempty, hcall, hsame rfl⟩

end RunPerf.Xdp.Gen
