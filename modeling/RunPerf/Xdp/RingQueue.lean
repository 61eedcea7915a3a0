import RunPerf.Lib.BoundedQueue
import RunPerf.Xdp.Umem

/-!
# The rings refine a bounded FIFO queue

A producer and a consumer share a ring and call its operations in any order.
Neither sees the other's index at once: a call may work with any value that the
peer's index has had since the caller's own last operation.  `RingSystem` keeps
these values next to the ring.

The views stay usable because each side only moves its own index forward.  Since
the producer's last operation the consumer index has only advanced, so an older
value of it makes the ring look fuller than it is, never emptier; and since the
consumer's last operation the producer index has only advanced, so an older
value of it hides entries and invents none (`Consistent`).  With that, every call
is a step of the bounded queue on `contents`.
-/

namespace RunPerf.Xdp

open RunPerf.Lib

variable {α : Type*}

/-- A ring with the index values each side may still work with. -/
structure RingSystem (α : Type*) where
  ring : Ring α
  /-- The values of the consumer index since the producer's last operation. -/
  consSeen : List UInt32
  /-- The values of the producer index since the consumer's last operation. -/
  prodSeen : List UInt32

namespace RingSystem

/-- The system after a producer operation has left the ring as `ring`. -/
def afterProduce (s : RingSystem α) (ring : Ring α) : RingSystem α where
  ring := ring
  consSeen := [s.ring.consumer]
  prodSeen := s.prodSeen ++ [ring.producer]

/-- The system after a consumer operation has left the ring as `ring`. -/
def afterConsume (s : RingSystem α) (ring : Ring α) : RingSystem α where
  ring := ring
  consSeen := s.consSeen ++ [ring.consumer]
  prodSeen := [s.ring.producer]

/-- One call of a ring operation, with the peer index it reads. -/
inductive Call (s : RingSystem α) : QueueEvent α → RingSystem α → Prop
  | enqueueBatch {cons : UInt32} (hseen : cons ∈ s.consSeen) (addrs : List α) :
      Call s (.accept addrs (s.ring.enqueueBatchSeeing cons addrs).2)
        (s.afterProduce (s.ring.enqueueBatchSeeing cons addrs).1)
  | produceTx {cons : UInt32} (hseen : cons ∈ s.consSeen) (descs : List α) :
      Call s (.accept descs (s.ring.produceTxSeeing cons descs).2)
        (s.afterProduce (s.ring.produceTxSeeing cons descs).1)
  | dequeueAll {prod : UInt32} (hseen : prod ∈ s.prodSeen) :
      Call s (.consume (s.ring.dequeueAllSeeing prod).2)
        (s.afterConsume (s.ring.dequeueAllSeeing prod).1)
  | consumeRx {prod : UInt32} (hseen : prod ∈ s.prodSeen) :
      Call s (.consume (s.ring.consumeRxSeeing prod).2)
        (s.afterConsume (s.ring.consumeRxSeeing prod).1)

/-- A ring of the given size under calls from both sides, started empty at any
index. -/
def machine (α : Type*) (size : UInt32) : Machine (RingSystem α) (QueueEvent α) where
  Init s := s.ring.size = size ∧ s.ring.producer = s.ring.consumer ∧
    s.consSeen = [s.ring.consumer] ∧ s.prodSeen = [s.ring.producer]
  Step := Call

/-- Every index value a side may still work with is a usable view of the ring. -/
structure Consistent (s : RingSystem α) : Prop where
  sound : s.ring.Sound
  producer_view : ∀ cons ∈ s.consSeen, s.ring.ProducerView cons
  consumer_view : ∀ prod ∈ s.prodSeen, s.ring.ConsumerView prod

/-! ## Every call keeps the views usable -/

theorem Consistent.enqueue {s : RingSystem α} (h : s.Consistent) {cons : UInt32}
    (hseen : cons ∈ s.consSeen) (addrs : List α) :
    (s.afterProduce (s.ring.enqueueBatchSeeing cons addrs).1).Consistent := by
  have hview := h.producer_view cons hseen
  have hoccupancy := Ring.occupancy_enqueueBatchSeeing hview addrs
  have hsound : (s.ring.enqueueBatchSeeing cons addrs).1.Sound := by
    unfold Ring.Sound
    rw [hoccupancy]
    exact Ring.occupancy_add_enqueued_le hview addrs
  refine ⟨hsound, ?_, ?_⟩
  · intro c hc
    obtain rfl : c = s.ring.consumer := by simpa [afterProduce] using hc
    exact Ring.producerView_self hsound
  · intro p hp
    rcases List.mem_append.mp hp with hold | hnew
    · have hle := h.consumer_view p hold
      show (p - s.ring.consumer).toNat ≤ (s.ring.enqueueBatchSeeing cons addrs).1.occupancy
      rw [hoccupancy]
      exact hle.trans (Nat.le_add_right _ _)
    · obtain rfl := List.mem_singleton.mp hnew
      exact Ring.consumerView_self _

theorem Consistent.dequeue {s : RingSystem α} (h : s.Consistent) {prod : UInt32}
    (hseen : prod ∈ s.prodSeen) :
    (s.afterConsume (s.ring.dequeueAllSeeing prod).1).Consistent := by
  have hview := h.consumer_view prod hseen
  have hle : (s.ring.dequeueAllSeeing prod).1.occupancy ≤ s.ring.occupancy := by
    rw [Ring.occupancy_dequeueAllSeeing hview]
    exact Nat.sub_le _ _
  have hsize := Ring.size_dequeueAllSeeing s.ring prod
  have hsound : (s.ring.dequeueAllSeeing prod).1.Sound := by
    unfold Ring.Sound
    rw [hsize]
    exact hle.trans h.sound
  refine ⟨hsound, ?_, ?_⟩
  · intro c hc
    rcases List.mem_append.mp hc with hold | hnew
    · have hproducer := h.producer_view c hold
      constructor
      · simpa [afterConsume] using hle.trans hproducer.not_ahead
      · simpa [afterConsume, hsize] using hproducer.fits
    · obtain rfl := List.mem_singleton.mp hnew
      exact Ring.producerView_self hsound
  · intro p hp
    obtain rfl : p = (s.ring.dequeueAllSeeing prod).1.producer := by
      simpa [afterConsume] using hp
    exact Ring.consumerView_self _

theorem Consistent.call {s t : RingSystem α} {event : QueueEvent α} (h : s.Consistent)
    (hcall : s.Call event t) : t.Consistent := by
  cases hcall with
  | enqueueBatch hseen addrs => exact h.enqueue hseen addrs
  | produceTx hseen descs =>
      rw [Ring.produceTxSeeing_eq]
      exact h.enqueue hseen descs
  | dequeueAll hseen => exact h.dequeue hseen
  | consumeRx hseen =>
      rw [Ring.consumeRxSeeing_eq]
      exact h.dequeue hseen

/-! ## Every call is a step of the bounded queue -/

theorem queueStep_of_call {s t : RingSystem α} {event : QueueEvent α} (h : s.Consistent)
    (hcall : s.Call event t) :
    QueueStep s.ring.size.toNat s.ring.contents event t.ring.contents ∧
      t.ring.size = s.ring.size := by
  have hproduce : ∀ cons ∈ s.consSeen, ∀ addrs,
      QueueStep s.ring.size.toNat s.ring.contents
        (.accept addrs (s.ring.enqueueBatchSeeing cons addrs).2)
        (s.ring.enqueueBatchSeeing cons addrs).1.contents := by
    intro cons hseen addrs
    have hview := h.producer_view cons hseen
    rw [Ring.contents_enqueueBatchSeeing hview]
    refine .accept ?_ ?_
    · rw [Ring.enqueueBatchSeeing_snd hview.fits]
      exact Nat.min_le_left _ _
    · rw [Ring.length_contents]
      exact Ring.occupancy_add_enqueued_le hview addrs
  have hconsume : ∀ prod ∈ s.prodSeen,
      QueueStep s.ring.size.toNat s.ring.contents (.consume (s.ring.dequeueAllSeeing prod).2)
        (s.ring.dequeueAllSeeing prod).1.contents := by
    intro prod hseen
    rw [← Ring.contents_dequeueAllSeeing (h.consumer_view prod hseen)]
    exact .consume
  cases hcall with
  | enqueueBatch hseen addrs => exact ⟨hproduce _ hseen addrs, rfl⟩
  | produceTx hseen descs =>
      rw [Ring.produceTxSeeing_eq]
      exact ⟨hproduce _ hseen descs, rfl⟩
  | dequeueAll hseen => exact ⟨hconsume _ hseen, Ring.size_dequeueAllSeeing _ _⟩
  | consumeRx hseen =>
      rw [Ring.consumeRxSeeing_eq]
      exact ⟨hconsume _ hseen, Ring.size_dequeueAllSeeing _ _⟩

/-- The simulation: a run of the ring is a run of the bounded queue on its contents. -/
theorem exists_queue_run {size : UInt32} {trace : List (QueueEvent α)} {s : RingSystem α}
    (hrun : (machine α size).Run trace s) :
    ∃ queue, (boundedQueue α size.toNat).Run trace queue ∧
      s.Consistent ∧ s.ring.size = size ∧ queue = s.ring.contents := by
  refine hrun.simulation (R := fun s queue =>
    s.Consistent ∧ s.ring.size = size ∧ queue = s.ring.contents) ?_ ?_
  · rintro s ⟨hsize, hempty, hcons, hprod⟩
    have hzero : s.ring.occupancy = 0 := by simp [Ring.occupancy, hempty]
    have hsound : s.ring.Sound := by
      unfold Ring.Sound
      omega
    refine ⟨[], rfl, ⟨hsound, ?_, ?_⟩, hsize, ?_⟩
    · rw [hcons]
      simpa using Ring.producerView_self hsound
    · rw [hprod]
      simpa using Ring.consumerView_self s.ring
    · rw [Ring.contents, hzero, window_zero]
  · rintro s queue event t ⟨hconsistent, rfl, rfl⟩ hcall
    obtain ⟨hstep, hsize⟩ := queueStep_of_call hconsistent hcall
    exact ⟨t.ring.contents, hstep, hconsistent.call hcall, hsize, rfl⟩

/-! ## The main statement -/

/-- **The rings refine a bounded FIFO queue**, for every ring size, every start
value of the indices and every order of calls with stale views of the peer: the
distance of the indices stays within the size, the trace of calls is a run of the
bounded queue, a producer accepts the longest prefix that fits the room it
observes without touching an unconsumed entry, and a call that moves nothing
changes nothing. -/
theorem rings_refine_bounded_fifo {size : UInt32} {trace : List (QueueEvent α)}
    {s : RingSystem α} (hrun : (machine α size).Run trace s) :
    (s.ring.producer - s.ring.consumer).toNat ≤ size.toNat ∧
    (boundedQueue α size.toNat).Run trace s.ring.contents ∧
    accepted trace = consumed trace ++ s.ring.contents ∧
    consumed trace <+: accepted trace ∧
    (∀ cons ∈ s.consSeen, ∀ entries : List α, ∀ result ∈
        [s.ring.enqueueBatchSeeing cons entries, s.ring.produceTxSeeing cons entries],
      result.2 = min entries.length (size.toNat - (s.ring.producer - cons).toNat) ∧
      result.1.contents = s.ring.contents ++ entries.take result.2 ∧
      (∀ i < s.ring.occupancy,
        result.1.descs ((s.ring.consumer + UInt32.ofNat i) &&& s.ring.mask) =
          s.ring.descs ((s.ring.consumer + UInt32.ofNat i) &&& s.ring.mask)) ∧
      (result.2 = 0 → result.1 = s.ring)) ∧
    (∀ prod ∈ s.prodSeen, ∀ result ∈
        [s.ring.dequeueAllSeeing prod, s.ring.consumeRxSeeing prod],
      result.2 ++ result.1.contents = s.ring.contents ∧
      (result.2 = [] → result.1 = s.ring)) := by
  obtain ⟨queue, hqueue, hconsistent, rfl, rfl⟩ := exists_queue_run hrun
  have hconserved := accepted_eq_consumed_append hqueue
  refine ⟨hconsistent.sound, hqueue, hconserved, ?_, ?_, ?_⟩
  · rw [hconserved]
    exact List.prefix_append _ _
  · intro cons hseen entries result hresult
    have hview := hconsistent.producer_view cons hseen
    -- Both producer operations are the same function of the ring and the index seen.
    obtain rfl : result = s.ring.enqueueBatchSeeing cons entries := by
      simpa [Ring.produceTxSeeing_eq] using hresult
    exact ⟨Ring.enqueueBatchSeeing_snd hview.fits entries,
      Ring.contents_enqueueBatchSeeing hview entries,
      fun i hi => Ring.descs_enqueueBatchSeeing hview entries hi,
      Ring.enqueueBatchSeeing_eq_self⟩
  · intro prod hseen result hresult
    obtain rfl : result = s.ring.dequeueAllSeeing prod := by
      simpa [Ring.consumeRxSeeing_eq] using hresult
    exact ⟨Ring.contents_dequeueAllSeeing (hconsistent.consumer_view prod hseen),
      Ring.dequeueAllSeeing_eq_self⟩

/-- A ring of two cells whose indices start one before the wrap. -/
def wrappingSystem : RingSystem UInt64 where
  ring := ⟨0xFFFFFFFF, 0xFFFFFFFF, fun _ => 0, 2, 1, ⟨1, by decide, rfl⟩, rfl⟩
  consSeen := [0xFFFFFFFF]
  prodSeen := [0xFFFFFFFF]

/-- Of three offered entries the two-cell ring takes two, across the wrap of the
index. -/
theorem rings_refine_bounded_fifo_at_wrap :
    ∃ s : RingSystem UInt64, (machine UInt64 2).Run [.accept [7, 8, 9] 2] s ∧
      s.ring.producer = 1 ∧
      accepted [.accept [7, 8, 9] 2] =
        consumed [.accept [7, 8, 9] 2] ++ s.ring.contents := by
  have hcall : wrappingSystem.Call
      (.accept [7, 8, 9] (wrappingSystem.ring.enqueueBatchSeeing 0xFFFFFFFF [7, 8, 9]).2)
      (wrappingSystem.afterProduce
        (wrappingSystem.ring.enqueueBatchSeeing 0xFFFFFFFF [7, 8, 9]).1) :=
    .enqueueBatch (List.mem_singleton_self _) [7, 8, 9]
  have htwo : (wrappingSystem.ring.enqueueBatchSeeing 0xFFFFFFFF [7, 8, 9]).2 = 2 := by decide
  rw [htwo] at hcall
  have hrun := (⟨wrappingSystem, ⟨rfl, rfl, rfl, rfl⟩, .single hcall⟩ :
    (machine UInt64 2).Run _ _)
  exact ⟨_, hrun, by decide, (rings_refine_bounded_fifo hrun).2.2.1⟩

end RingSystem

end RunPerf.Xdp
