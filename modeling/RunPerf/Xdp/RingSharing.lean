import RunPerf.Lib.Machine
import RunPerf.Xdp.MappedRing

/-!
# Two sides on one ring

The program and the kernel have a ring mapped at the same time.  One of them is the producer and
the other the consumer; between any two accesses of one side the other may make any number of its
own.  The program is the producer of the fill ring and the TX ring, and the consumer of the other
two.

`Producing` and `Consuming` say for every point of a call what the side knows about the ring in
memory.  What the other side does keeps that true, as it only ever moves its own index, and the
producer only writes to cells that hold nothing.
-/

namespace RunPerf.Xdp

open RunPerf.Lib

namespace MappedRing

variable {α : Type*}

/-- The calls of a producer.  A kernel that posts reads the consumer index first, as
`enqueue_batch` does. -/
inductive ProducerCall (α : Type*)
  | enqueueBatch (addrs : List α)
  | produceTx (descs : List α)
deriving DecidableEq

def ProducerCall.entries : ProducerCall α → List α
  | .enqueueBatch addrs => addrs
  | .produceTx descs => descs

def ProducerCall.always : ProducerCall α → Bool
  | .enqueueBatch _ => true
  | .produceTx _ => false

/-- The calls of a consumer. -/
inductive ConsumerCall
  | dequeueAll
  | consumeRx
  | kernelTake (limit : ℕ)
deriving DecidableEq

/-- A memory with the calls that the two sides are in, and how far they are. -/
structure Sharing (α : Type*) where
  mem : ℕ → UInt8
  producer : Option (List α × Prog ℕ)
  consumer : Option (Prog (List α))

inductive SharingEvent (α : Type*)
  | produce (call : ProducerCall α)
  | producerAccess
  | accepted (entries : List α)
  | consume (call : ConsumerCall)
  | consumerAccess
  | taken (entries : List α)
deriving DecidableEq

section Machine

variable (ring : MappedRing α)

def producerProg : ProducerCall α → Prog ℕ
  | .enqueueBatch addrs => ring.enqueueBatch addrs
  | .produceTx descs => ring.produceTx descs

def consumerProg : ConsumerCall → Prog (List α)
  | .dequeueAll => ring.dequeueAll
  | .consumeRx => ring.consumeRx
  | .kernelTake limit => ring.kernelTake limit

inductive SharingStep (s : Sharing α) : SharingEvent α → Sharing α → Prop
  | produce {call : ProducerCall α} (hidle : s.producer = none) :
      SharingStep s (.produce call)
        { s with producer := some (call.entries, ring.producerProg call) }
  | producerAccess {entries : List α} {prog next : Prog ℕ} {mem : ℕ → UInt8}
      (hcall : s.producer = some (entries, prog)) (hstep : prog.step s.mem = some (next, mem)) :
      SharingStep s .producerAccess { s with mem := mem, producer := some (entries, next) }
  /-- A call returns how many entries it has accepted. -/
  | accepted {entries : List α} {n : ℕ} (hcall : s.producer = some (entries, .done n)) :
      SharingStep s (.accepted (entries.take n)) { s with producer := none }
  | consume {call : ConsumerCall} (hidle : s.consumer = none) :
      SharingStep s (.consume call) { s with consumer := some (ring.consumerProg call) }
  | consumerAccess {prog next : Prog (List α)} {mem : ℕ → UInt8}
      (hcall : s.consumer = some prog) (hstep : prog.step s.mem = some (next, mem)) :
      SharingStep s .consumerAccess { s with mem := mem, consumer := some next }
  | taken {out : List α} (hcall : s.consumer = some (.done out)) :
      SharingStep s (.taken out) { s with consumer := none }

/-- A ring without entries, with both indices anywhere. -/
def sharing (mem : ℕ → UInt8) : Machine (Sharing α) (SharingEvent α) where
  Init s := s = ⟨mem, none, none⟩ ∧ (ring.view mem).producer = (ring.view mem).consumer
  Step := ring.SharingStep

/-- The state behind an event, if it can happen. -/
def sharingNext [DecidableEq α] (s : Sharing α) : SharingEvent α → Option (Sharing α)
  | .produce call =>
      match s.producer with
      | none => some { s with producer := some (call.entries, ring.producerProg call) }
      | some _ => none
  | .producerAccess =>
      s.producer.bind fun call =>
        (call.2.step s.mem).map fun next =>
          { s with mem := next.2, producer := some (call.1, next.1) }
  | .accepted entries =>
      match s.producer with
      | some (all, .done n) =>
          if entries = all.take n then some { s with producer := none } else none
      | _ => none
  | .consume call =>
      match s.consumer with
      | none => some { s with consumer := some (ring.consumerProg call) }
      | some _ => none
  | .consumerAccess =>
      s.consumer.bind fun prog =>
        (prog.step s.mem).map fun next => { s with mem := next.2, consumer := some next.1 }
  | .taken entries =>
      match s.consumer with
      | some (.done out) => if entries = out then some { s with consumer := none } else none
      | _ => none

variable {ring}

theorem sharingStep_of_next [DecidableEq α] {s t : Sharing α} {event : SharingEvent α}
    (h : ring.sharingNext s event = some t) : ring.SharingStep s event t := by
  cases event with
  | produce call =>
      simp only [sharingNext] at h
      split at h
      · rename_i hidle
        exact Option.some.inj h ▸ .produce hidle
      · cases h
  | producerAccess =>
      obtain ⟨call, hcall, h⟩ := Option.bind_eq_some_iff.mp h
      obtain ⟨next, hstep, rfl⟩ := Option.map_eq_some_iff.mp h
      exact .producerAccess hcall hstep
  | accepted entries =>
      simp only [sharingNext] at h
      split at h
      · rename_i hcall
        split at h
        · rename_i heq
          exact Option.some.inj h ▸ heq ▸ .accepted hcall
        · cases h
      · cases h
  | consume call =>
      simp only [sharingNext] at h
      split at h
      · rename_i hidle
        exact Option.some.inj h ▸ .consume hidle
      · cases h
  | consumerAccess =>
      obtain ⟨prog, hcall, h⟩ := Option.bind_eq_some_iff.mp h
      obtain ⟨next, hstep, rfl⟩ := Option.map_eq_some_iff.mp h
      exact .consumerAccess hcall hstep
  | taken entries =>
      simp only [sharingNext] at h
      split at h
      · rename_i hcall
        split at h
        · rename_i heq
          exact Option.some.inj h ▸ heq ▸ .taken hcall
        · cases h
      · cases h

end Machine

@[simp] def SharingEvent.acceptedEntries : SharingEvent α → List α
  | .accepted entries => entries
  | _ => []

@[simp] def SharingEvent.takenEntries : SharingEvent α → List α
  | .taken entries => entries
  | _ => []

/-- The entries that calls have accepted. -/
def produced (trace : List (SharingEvent α)) : List α :=
  trace.flatMap SharingEvent.acceptedEntries

/-- The entries that calls have given out. -/
def consumed (trace : List (SharingEvent α)) : List α := trace.flatMap SharingEvent.takenEntries

@[simp] theorem produced_snoc (trace : List (SharingEvent α)) (event : SharingEvent α) :
    produced (trace ++ [event]) = produced trace ++ event.acceptedEntries := by
  simp [produced]

@[simp] theorem consumed_snoc (trace : List (SharingEvent α)) (event : SharingEvent α) :
    consumed (trace ++ [event]) = consumed trace ++ event.takenEntries := by
  simp [consumed]

/-- What a call has accepted that is about to return. -/
def returning : Option (List α × Prog ℕ) → List α
  | some (entries, .done n) => entries.take n
  | _ => []

/-- What a call has taken that is about to return. -/
def taking : Option (Prog (List α)) → List α
  | some (.done out) => out
  | _ => []

/-! ## What a side knows -/

section Knowledge

variable (ring : MappedRing α)

/-- A producer at every point of a call.  While it stores, the consumer index that it has read
may be an old one, and the first `i` entries are in the cells behind the ring. -/
inductive Producing (mem : ℕ → UInt8) : Option (List α × Prog ℕ) → Prop
  | idle : Producing mem none
  | called (always : Bool) (entries : List α) :
      Producing mem (some (entries, ring.produce always entries))
  | sawProducer (always : Bool) (entries : List α) :
      Producing mem (some (entries, Codec.u32.load ring.consumer fun cons =>
        ring.produceSeeing always entries (ring.view mem).producer cons))
  | storing (always : Bool) (entries : List α) {i n : ℕ} (hi : i ≤ n) (hn : n ≤ entries.length)
      (hroom : (ring.view mem).occupancy + n ≤ ring.size.toNat)
      (hstored : window ring.mask (ring.view mem).descs (ring.view mem).producer i =
        entries.take i) :
      Producing mem (some (entries, ring.storeCells (ring.view mem).producer i
        ((entries.take n).drop i) (ring.publish always (ring.view mem).producer n)))
  | returns (entries : List α) {n : ℕ} : Producing mem (some (entries, .done n))

/-- A consumer at every point of a call.  The producer index that it has read may be an old
one. -/
inductive Consuming (mem : ℕ → UInt8) : Option (Prog (List α)) → Prop
  | idle : Consuming mem none
  | called {wanted : ℕ → ℕ} (hwanted : ∀ n, wanted n ≤ n) :
      Consuming mem (some (ring.consume wanted))
  | sawProducer {wanted : ℕ → ℕ} (hwanted : ∀ n, wanted n ≤ n) {prod : UInt32}
      (hview : (ring.view mem).ConsumerView prod) :
      Consuming mem (some (Codec.u32.load ring.consumer fun cons =>
        ring.consumeSeeing wanted prod cons))
  | loading {i n : ℕ} (hi : i ≤ n) (hn : n ≤ (ring.view mem).occupancy) :
      Consuming mem (some (ring.loadCells (ring.view mem).consumer (n - i) i
        ((ring.view mem).contents.take i) (ring.release (ring.view mem).consumer n)))
  | returns {out : List α} : Consuming mem (some (.done out))

/-- What an access of the producer does: it adds entries at the end, or nothing. -/
structure Appends (mem mem' : ℕ → UInt8) (added : List α) : Prop where
  consumer : (ring.view mem').consumer = (ring.view mem).consumer
  contents : (ring.view mem').contents = (ring.view mem).contents ++ added
  sound : (ring.view mem').Sound
  foreign : ∀ j, ring.Foreign j → mem' j = mem j

/-- What an access of the consumer does: it removes entries from the front, or nothing. -/
structure Removes (mem mem' : ℕ → UInt8) (removed : List α) : Prop where
  producer : (ring.view mem').producer = (ring.view mem).producer
  descs : (ring.view mem').descs = (ring.view mem).descs
  contents : (ring.view mem).contents = removed ++ (ring.view mem').contents
  foreign : ∀ j, ring.Foreign j → mem' j = mem j

end Knowledge

/-! ## Accesses of the producer -/

section Producer

variable {ring : MappedRing α} {mem mem' : ℕ → UInt8}

theorem Appends.refl (hsound : (ring.view mem).Sound) : ring.Appends mem mem [] :=
  ⟨rfl, (List.append_nil _).symm, hsound, fun _ _ => rfl⟩

/-- A free cell is none of those that hold an entry. -/
theorem slot_ne_of_room {i j : ℕ} (hi : i < (ring.view mem).occupancy)
    (hj : (ring.view mem).occupancy + j < ring.size.toNat) :
    ((ring.view mem).consumer + UInt32.ofNat i) &&& ring.mask ≠
      ((ring.view mem).producer + UInt32.ofNat j) &&& ring.mask := by
  intro heq
  obtain ⟨k, hk, hmask, hsize⟩ := (ring.view mem).exists_mask
  have hj' : (ring.view mem).occupancy + j < (ring.view mem).size.toNat := hj
  rw [← Ring.consumer_add_occupancy, add_ofNat_add] at heq
  have := slot_injective hmask hk (ring.view mem).consumer (by omega) (by omega) heq
  omega

/-- An entry stored in a free cell is not yet part of the ring. -/
theorem appends_writeSlot {i : ℕ} (hroom : (ring.view mem).occupancy + i < ring.size.toNat)
    (hsound : (ring.view mem).Sound) (entry : α) :
    ring.Appends mem
      (ring.codec.write mem (ring.slot ((ring.view mem).producer + UInt32.ofNat i)) entry) [] := by
  have hview := ring.view_writeCell mem
    (((ring.view mem).producer + UInt32.ofNat i) &&& ring.mask) entry
  refine ⟨by rw [slot, hview], ?_, ?_, fun j hj => hj.write_slot _ _⟩
  · rw [List.append_nil, slot, hview]
    refine window_congr fun j hj => ?_
    exact Function.update_of_ne (slot_ne_of_room hj hroom) _ _
  · rw [slot, hview]
    exact hsound

theorem producer_writeSlot (ring : MappedRing α) (mem : ℕ → UInt8) (index : UInt32) (entry : α) :
    (ring.view (ring.codec.write mem (ring.slot index) entry)).producer =
      (ring.view mem).producer := by
  rw [slot, view_writeCell]

theorem window_writeSlot {i : ℕ} (hi : i < ring.size.toNat) (entry : α) :
    window ring.mask
        (ring.view (ring.codec.write mem
          (ring.slot ((ring.view mem).producer + UInt32.ofNat i)) entry)).descs
        (ring.view mem).producer (i + 1) =
      window ring.mask (ring.view mem).descs (ring.view mem).producer i ++ [entry] := by
  obtain ⟨k, hk, hmask, hsize⟩ := (ring.view mem).exists_mask
  rw [slot, view_writeCell]
  exact window_store hmask hk (ring.view mem).descs (ring.view mem).producer i [entry]
    (by rw [← hsize]; exact hi)

/-- The index takes the stored entries in. -/
theorem appends_writeProducer {entries : List α} {n : ℕ}
    (hroom : (ring.view mem).occupancy + n ≤ ring.size.toNat)
    (hstored : window ring.mask (ring.view mem).descs (ring.view mem).producer n =
      entries.take n) :
    ring.Appends mem
      (Codec.u32.write mem ring.producer ((ring.view mem).producer + UInt32.ofNat n))
      (entries.take n) := by
  have hsize : ring.size.toNat ≤ 2 ^ 31 := (ring.view mem).size_le
  have hview := ring.view_writeProducer mem ((ring.view mem).producer + UInt32.ofNat n)
  have hoccupancy : (ring.view (Codec.u32.write mem ring.producer
      ((ring.view mem).producer + UInt32.ofNat n))).occupancy =
      (ring.view mem).occupancy + n := by
    rw [hview]
    refine Ring.toNat_add_ofNat_sub _ _ n ?_
    change (ring.view mem).occupancy + n < 2 ^ 32
    omega
  refine ⟨by rw [hview], ?_, ?_, fun j hj => hj.write_producer _⟩
  · rw [Ring.contents, hoccupancy, window_add, hview]
    change window ring.mask _ _ _ ++ window ring.mask _ ((ring.view mem).consumer + _) n = _
    rw [Ring.consumer_add_occupancy, hstored]
    rfl
  · rw [Ring.Sound, hoccupancy, hview]
    exact hroom

theorem returning_storing (always : Bool) (entries : List α) (prod : UInt32) (i n : ℕ)
    (rest : List α) :
    returning (some (entries, ring.storeCells prod i rest (ring.publish always prod n))) = [] := by
  cases rest with
  | cons entry rest => rfl
  | nil =>
      rw [storeCells, publish]
      split
      · rfl
      · rename_i hnone
        have hzero : n = 0 := by
          simp only [not_or] at hnone
          omega
        simp [returning, hzero]

theorem producing_step {entries : List α} {prog next : Prog ℕ}
    (hsound : (ring.view mem).Sound) (h : ring.Producing mem (some (entries, prog)))
    (hstep : prog.step mem = some (next, mem')) :
    ring.Appends mem mem' (returning (some (entries, next))) ∧
      ring.Producing mem' (some (entries, next)) := by
  cases h with
  | called always =>
      obtain ⟨rfl, rfl⟩ := Prod.mk.inj (Option.some.inj hstep)
      exact ⟨.refl hsound, .sawProducer always entries⟩
  | sawProducer always =>
      obtain ⟨rfl, rfl⟩ := Prod.mk.inj (Option.some.inj hstep)
      have hview := Ring.producerView_self hsound
      have hnext : Producing ring mem (some (entries, ring.produceSeeing always entries
          (ring.view mem).producer (ring.view mem).consumer)) := by
        have hroom := Ring.occupancy_add_enqueued_le hview entries
        exact .storing always entries (Nat.zero_le _) (Nat.min_le_left _ _) hroom rfl
      refine ⟨?_, hnext⟩
      change ring.Appends mem mem (returning (some (entries, ring.storeCells _ _ _ _)))
      rw [returning_storing]
      exact .refl hsound
  | @storing always _ i n hi hn hroom hstored =>
      rcases Nat.lt_or_ge i n with hless | hge
      · -- The cell of the next entry is written.  It is free, so the contents do not change.
        have hlt : i < entries.length := by omega
        have hrest : (entries.take n).drop i = entries[i] :: (entries.take n).drop (i + 1) := by
          rw [List.drop_eq_getElem_cons (by rw [List.length_take]; omega), List.getElem_take]
        rw [hrest] at hstep
        obtain ⟨rfl, hmem⟩ := Prod.mk.inj (Option.some.inj hstep)
        have hfree : (ring.view mem).occupancy + i < ring.size.toNat := by omega
        have happends := appends_writeSlot hfree hsound entries[i]
        have hwindow : window ring.mask _ (ring.view mem).producer (i + 1) = _ :=
          window_writeSlot (by omega) entries[i]
        have hproducer := ring.producer_writeSlot mem ((ring.view mem).producer + UInt32.ofNat i)
          entries[i]
        change ring.codec.write mem _ entries[i] = mem' at hmem
        rw [hmem] at happends hwindow hproducer
        rw [returning_storing]
        refine ⟨happends, ?_⟩
        have hoccupancy : (ring.view mem').occupancy = (ring.view mem).occupancy := by
          rw [← Ring.length_contents, happends.contents, List.append_nil, Ring.length_contents]
        rw [← hproducer] at hwindow hstored ⊢
        refine .storing always entries hless hn (by omega) ?_
        rw [hwindow, hstored, List.take_concat_get']
      · -- All entries are in their cells, and the store of the index hands them over at once.
        obtain rfl : i = n := by omega
        rw [List.drop_take_self, storeCells, publish] at hstep
        split at hstep
        · obtain ⟨rfl, rfl⟩ := Prod.mk.inj (Option.some.inj hstep)
          exact ⟨appends_writeProducer hroom hstored, .returns entries⟩
        · cases hstep
  | returns => cases hstep

/-- The consumer keeps what it knows when the producer makes an access. -/
theorem Consuming.of_appends {added : List α} {side : Option (Prog (List α))}
    (h : ring.Consuming mem side) (happends : ring.Appends mem mem' added) :
    ring.Consuming mem' side := by
  have hconsumer := happends.consumer
  have hoccupancy : (ring.view mem).occupancy ≤ (ring.view mem').occupancy := by
    rw [← Ring.length_contents, ← Ring.length_contents, happends.contents, List.length_append]
    exact Nat.le_add_right _ _
  cases h with
  | idle => exact .idle
  | called hwanted => exact .called hwanted
  | sawProducer hwanted hview =>
      refine .sawProducer hwanted ?_
      unfold Ring.ConsumerView at hview ⊢
      rw [hconsumer]
      exact hview.trans hoccupancy
  | @loading i n hi hn =>
      have htake : (ring.view mem).contents.take i = (ring.view mem').contents.take i := by
        rw [happends.contents, List.take_append_of_le_length]
        rw [Ring.length_contents]
        omega
      rw [htake, ← hconsumer]
      exact .loading hi (hn.trans hoccupancy)
  | returns => exact .returns

end Producer

/-! ## Accesses of the consumer -/

section Consumer

variable {ring : MappedRing α} {mem mem' : ℕ → UInt8}

theorem Removes.refl : ring.Removes mem mem [] :=
  ⟨rfl, rfl, rfl, fun _ _ => rfl⟩

theorem Removes.occupancy_le {removed : List α} (h : ring.Removes mem mem' removed) :
    (ring.view mem').occupancy ≤ (ring.view mem).occupancy := by
  rw [← Ring.length_contents, ← Ring.length_contents, h.contents, List.length_append]
  exact Nat.le_add_left _ _

theorem removes_writeConsumer {n : ℕ} (hn : n ≤ (ring.view mem).occupancy) :
    ring.Removes mem
      (Codec.u32.write mem ring.consumer ((ring.view mem).consumer + UInt32.ofNat n))
      ((ring.view mem).contents.take n) := by
  have hview := ring.view_writeConsumer mem ((ring.view mem).consumer + UInt32.ofNat n)
  have hoccupancy : (ring.view (Codec.u32.write mem ring.consumer
      ((ring.view mem).consumer + UInt32.ofNat n))).occupancy =
      (ring.view mem).occupancy - n := by
    rw [hview]
    exact Ring.toNat_sub_add_ofNat _ _ n hn
  have hsplit : (ring.view mem).contents = window ring.mask (ring.view mem).descs
      (ring.view mem).consumer n ++ window ring.mask (ring.view mem).descs
      ((ring.view mem).consumer + UInt32.ofNat n) ((ring.view mem).occupancy - n) := by
    rw [← window_add, Nat.add_sub_cancel' hn]
    rfl
  refine ⟨by rw [hview], by rw [hview], ?_, fun j hj => hj.write_consumer _⟩
  have hlength := length_window ring.mask (ring.view mem).descs (ring.view mem).consumer n
  have hrest : (ring.view (Codec.u32.write mem ring.consumer
      ((ring.view mem).consumer + UInt32.ofNat n))).contents =
      window ring.mask (ring.view mem).descs ((ring.view mem).consumer + UInt32.ofNat n)
        ((ring.view mem).occupancy - n) := by
    rw [Ring.contents, hoccupancy, hview]
    rfl
  rw [hrest, hsplit, List.take_left' hlength]

theorem taking_loading (cons : UInt32) (left i n : ℕ) (out : List α) (hleft : i + left = n)
    (hout : out.length = i) :
    taking (some (ring.loadCells cons left i out (ring.release cons n))) = [] := by
  cases left with
  | succ left => rfl
  | zero =>
      rw [loadCells, release]
      split
      · rfl
      · exact List.length_eq_zero_iff.mp (hout.trans (by omega))

theorem consuming_step {prog next : Prog (List α)} (h : ring.Consuming mem (some prog))
    (hstep : prog.step mem = some (next, mem')) :
    ring.Removes mem mem' (taking (some next)) ∧ ring.Consuming mem' (some next) := by
  cases h with
  | called hwanted =>
      obtain ⟨rfl, rfl⟩ := Prod.mk.inj (Option.some.inj hstep)
      exact ⟨.refl, .sawProducer hwanted (Ring.consumerView_self _)⟩
  | @sawProducer wanted hwanted prod hview =>
      obtain ⟨rfl, rfl⟩ := Prod.mk.inj (Option.some.inj hstep)
      have hn := (hwanted (prod - (ring.view mem).consumer).toNat).trans hview
      have hnone : taking (some (ring.consumeSeeing wanted prod (ring.view mem).consumer)) = [] :=
        taking_loading _ _ 0 _ [] (Nat.zero_add _) rfl
      refine ⟨?_, .loading (Nat.zero_le _) hn⟩
      change ring.Removes mem mem (taking (some (ring.consumeSeeing wanted prod _)))
      exact hnone ▸ .refl
  | @loading i n hi hn =>
      rcases Nat.lt_or_ge i n with hless | hge
      · have hleft : n - i = n - (i + 1) + 1 := by omega
        rw [hleft] at hstep
        obtain ⟨rfl, rfl⟩ := Prod.mk.inj (Option.some.inj hstep)
        have hlength : i < (ring.view mem).contents.length := by
          rw [Ring.length_contents]
          omega
        have hentry : ring.codec.read mem (ring.slot ((ring.view mem).consumer + UInt32.ofNat i)) =
            (ring.view mem).contents[i] := by
          simp only [Ring.contents, window, List.getElem_map, List.getElem_range]
          rfl
        have hout : (ring.view mem).contents.take i ++ [(ring.view mem).contents[i]] =
            (ring.view mem).contents.take (i + 1) := List.take_concat_get' _ _ _
        change ring.Removes mem mem (taking (some (ring.loadCells _ _ _ (_ ++ [ring.codec.read mem
          (ring.slot _)]) _))) ∧ ring.Consuming mem (some (ring.loadCells _ _ _
          (_ ++ [ring.codec.read mem (ring.slot _)]) _))
        rw [hentry, hout, taking_loading _ _ _ _ _ (by omega) (by rw [List.length_take]; omega)]
        exact ⟨.refl, .loading hless hn⟩
      · -- All entries are read, and the store of the index gives their cells back at once.
        obtain rfl : i = n := by omega
        rw [Nat.sub_self, loadCells, release] at hstep
        split at hstep
        · obtain ⟨rfl, rfl⟩ := Prod.mk.inj (Option.some.inj hstep)
          exact ⟨removes_writeConsumer hn, .returns⟩
        · cases hstep
  | returns => cases hstep

/-- The producer keeps what it knows when the consumer makes an access. -/
theorem Producing.of_removes {removed : List α} {side : Option (List α × Prog ℕ)}
    (h : ring.Producing mem side) (hremoves : ring.Removes mem mem' removed) :
    ring.Producing mem' side := by
  have hoccupancy := hremoves.occupancy_le
  cases h with
  | idle => exact .idle
  | called always entries => exact .called always entries
  | sawProducer always entries =>
      rw [← hremoves.producer]
      exact .sawProducer always entries
  | storing always entries hi hn hroom hstored =>
      rw [← hremoves.producer, ← hremoves.descs] at hstored
      rw [← hremoves.producer]
      exact .storing always entries hi hn (by omega) hstored
  | returns entries => exact .returns entries

end Consumer

/-! ## Runs -/

section Runs

variable {ring : MappedRing α} {mem : ℕ → UInt8} {trace : List (SharingEvent α)} {s t : Sharing α}

structure SharingInv (ring : MappedRing α) (mem : ℕ → UInt8) (trace : List (SharingEvent α))
    (s : Sharing α) : Prop where
  sound : (ring.view s.mem).Sound
  entries : produced trace ++ returning s.producer =
    consumed trace ++ (taking s.consumer ++ (ring.view s.mem).contents)
  producing : ring.Producing s.mem s.producer
  consuming : ring.Consuming s.mem s.consumer
  foreign : ∀ j, ring.Foreign j → s.mem j = mem j

theorem producing_call (call : ProducerCall α) :
    ring.Producing mem (some (call.entries, ring.producerProg call)) := by
  cases call with
  | enqueueBatch addrs => exact .called true addrs
  | produceTx descs => exact .called false descs

theorem consuming_call (call : ConsumerCall) :
    ring.Consuming mem (some (ring.consumerProg call)) := by
  cases call with
  | dequeueAll => exact .called fun n => le_rfl
  | consumeRx =>
      rw [consumerProg, consumeRx_eq]
      exact .called fun n => le_rfl
  | kernelTake limit => exact .called fun n => Nat.min_le_right _ _

theorem returning_eq_nil_of_step {entries : List α} {prog next : Prog ℕ} {mem' : ℕ → UInt8}
    (hstep : prog.step mem = some (next, mem')) : returning (some (entries, prog)) = [] := by
  cases prog with
  | done n => cases hstep
  | load off len next => rfl
  | store off bytes next => rfl

theorem taking_eq_nil_of_step {prog next : Prog (List α)} {mem' : ℕ → UInt8}
    (hstep : prog.step mem = some (next, mem')) : taking (some prog) = [] := by
  cases prog with
  | done out => cases hstep
  | load off len next => rfl
  | store off bytes next => rfl

theorem sharingInv_step {event : SharingEvent α} (h : SharingInv ring mem trace s)
    (hstep : ring.SharingStep s event t) : SharingInv ring mem (trace ++ [event]) t := by
  obtain ⟨hsound, hentries, hproducing, hconsuming, hforeign⟩ := h
  cases hstep with
  | @produce call hidle =>
      refine ⟨hsound, ?_, producing_call call, hconsuming, hforeign⟩
      have hnone : returning (some (call.entries, ring.producerProg call)) = [] := by
        cases call <;> rfl
      rw [hnone]
      simpa [hidle, returning] using hentries
  | @producerAccess entries prog next mem' hcall haccess =>
      rw [hcall] at hproducing hentries
      obtain ⟨happends, hnext⟩ := producing_step hsound hproducing haccess
      refine ⟨happends.sound, ?_, hnext, hconsuming.of_appends happends,
        fun j hj => (happends.foreign j hj).trans (hforeign j hj)⟩
      rw [returning_eq_nil_of_step haccess, List.append_nil] at hentries
      simp [hentries, happends.contents]
  | @accepted entries n hcall =>
      refine ⟨hsound, ?_, .idle, hconsuming, hforeign⟩
      simpa [hcall, returning] using hentries
  | @consume call hidle =>
      refine ⟨hsound, ?_, hproducing, consuming_call call, hforeign⟩
      have hnone : taking (some (ring.consumerProg call)) = [] := by
        cases call <;> rfl
      rw [hnone]
      simpa [hidle, taking] using hentries
  | @consumerAccess prog next mem' hcall haccess =>
      rw [hcall] at hconsuming hentries
      obtain ⟨hremoves, hnext⟩ := consuming_step hconsuming haccess
      refine ⟨hremoves.occupancy_le.trans hsound, ?_, hproducing.of_removes hremoves, hnext,
        fun j hj => (hremoves.foreign j hj).trans (hforeign j hj)⟩
      rw [taking_eq_nil_of_step haccess, List.nil_append, hremoves.contents] at hentries
      simpa using hentries
  | @taken out hcall =>
      refine ⟨hsound, ?_, hproducing, .idle, hforeign⟩
      simpa [hcall, taking] using hentries

theorem sharingInv_run (hrun : (ring.sharing mem).Run trace s) : SharingInv ring mem trace s := by
  refine hrun.invariant ?_ fun _ _ _ _ _ h hstep => sharingInv_step h hstep
  rintro _ ⟨rfl, hempty⟩
  have hnil : (ring.view mem).Represents ring.size [] := Ring.represents_nil rfl hempty
  refine ⟨hnil.sound, ?_, .idle, .idle, fun _ _ => rfl⟩
  simp [produced, consumed, returning, taking, hnil.contents_eq]

end Runs

/-! ## Where the sides meet -/

section Accesses

variable (ring : MappedRing α)

/-- The bytes of an index word. -/
def IndexWord (access : ℕ × ℕ) : Prop :=
  access = (ring.producer, 4) ∨ access = (ring.consumer, 4)

/-- The bytes are part of the mapping. -/
def InMapping (access : ℕ × ℕ) : Prop :=
  ring.map ≤ access.1 ∧ access.1 + access.2 ≤ ring.map + ring.mapsize

/-- The two have no byte in common. -/
def Apart (first second : ℕ × ℕ) : Prop :=
  first.1 + first.2 ≤ second.1 ∨ second.1 + second.2 ≤ first.1

variable {ring} {mem : ℕ → UInt8}

theorem Producing.access {entries : List α} {prog : Prog ℕ} {access : ℕ × ℕ}
    (h : ring.Producing mem (some (entries, prog))) (haccess : prog.access = some access) :
    ring.IndexWord access ∨ ∃ i, (ring.view mem).occupancy + i < ring.size.toNat ∧
      access = (ring.slot ((ring.view mem).producer + UInt32.ofNat i), ring.codec.width) := by
  cases h with
  | called always => exact .inl (.inl (Option.some.inj haccess).symm)
  | sawProducer always => exact .inl (.inr (Option.some.inj haccess).symm)
  | @storing always _ i n hi hn hroom hstored =>
      cases hrest : (entries.take n).drop i with
      | nil =>
          rw [hrest, storeCells, publish] at haccess
          split at haccess
          · rw [Codec.access_store] at haccess
            exact .inl (.inl (Option.some.inj haccess).symm)
          · cases haccess
      | cons entry rest =>
          rw [hrest, storeCells, Codec.access_store] at haccess
          have hlength := congrArg List.length hrest
          simp only [List.length_drop, List.length_take, List.length_cons] at hlength
          exact .inr ⟨i, by omega, (Option.some.inj haccess).symm⟩
  | returns => cases haccess

theorem Consuming.access {prog : Prog (List α)} {access : ℕ × ℕ}
    (h : ring.Consuming mem (some prog)) (haccess : prog.access = some access) :
    ring.IndexWord access ∨ ∃ i < (ring.view mem).occupancy,
      access = (ring.slot ((ring.view mem).consumer + UInt32.ofNat i), ring.codec.width) := by
  cases h with
  | called hwanted => exact .inl (.inl (Option.some.inj haccess).symm)
  | sawProducer hwanted hview => exact .inl (.inr (Option.some.inj haccess).symm)
  | @loading i n hi hn =>
      cases hleft : n - i with
      | zero =>
          rw [hleft, loadCells, release] at haccess
          split at haccess
          · rw [Codec.access_store] at haccess
            exact .inl (.inr (Option.some.inj haccess).symm)
          · cases haccess
      | succ left =>
          rw [hleft, loadCells, Codec.access_load] at haccess
          exact .inr ⟨i, by omega, (Option.some.inj haccess).symm⟩
  | returns => cases haccess

theorem IndexWord.inMapping {access : ℕ × ℕ} (h : ring.IndexWord access) :
    ring.InMapping access := by
  have hproducer := ring.producer_le_descs
  have hconsumer := ring.consumer_le_descs
  unfold InMapping mapsize
  unfold producer descs at hproducer
  unfold consumer descs at hconsumer
  rcases h with rfl | rfl
  · change ring.map ≤ ring.map + _ ∧ ring.map + _ + 4 ≤ _
    omega
  · change ring.map ≤ ring.map + _ ∧ ring.map + _ + 4 ≤ _
    omega

theorem inMapping_slot (index : UInt32) :
    ring.InMapping (ring.slot index, ring.codec.width) := by
  have hbounds := ring.slot_bounds index
  unfold descs at hbounds
  unfold InMapping mapsize
  change _ ≤ ring.slot index ∧ ring.slot index + ring.codec.width ≤ _
  omega

theorem IndexWord.apart_slot {access : ℕ × ℕ} (h : ring.IndexWord access) (index : UInt32) :
    Apart access (ring.slot index, ring.codec.width) := by
  have hslot := (ring.slot_bounds index).1
  rcases h with rfl | rfl
  · exact .inl (ring.producer_le_descs.trans hslot)
  · exact .inl (ring.consumer_le_descs.trans hslot)

theorem IndexWord.apart_or_eq {first second : ℕ × ℕ} (hfirst : ring.IndexWord first)
    (hsecond : ring.IndexWord second) : Apart first second ∨ first = second := by
  have hwords : Apart (ring.producer, 4) (ring.consumer, 4) := by
    have := ring.laid.producer_consumer
    change ring.producer + 4 ≤ ring.consumer ∨ ring.consumer + 4 ≤ ring.producer
    unfold producer consumer
    omega
  rcases hfirst with rfl | rfl <;> rcases hsecond with rfl | rfl
  · exact .inr rfl
  · exact .inl hwords
  · exact .inl hwords.symm
  · exact .inr rfl

end Accesses

/-! ## A ring is a queue -/

section Main

variable {ring : MappedRing α} {mem : ℕ → UInt8} {trace : List (SharingEvent α)} {s : Sharing α}

/-- **The ring in memory is a bounded queue.**  However the accesses of the two sides interleave,
the entries that were accepted are those that were given out and behind them those still in the
ring, in order and each with its value; there are never more in the ring than it has cells.  When
no call is under way, nothing is accepted that is not given out or in the ring. -/
theorem shared_ring_is_queue (hrun : (ring.sharing mem).Run trace s) :
    produced trace ++ returning s.producer =
      consumed trace ++ (taking s.consumer ++ (ring.view s.mem).contents) ∧
    (ring.view s.mem).contents.length ≤ ring.size.toNat ∧
    (s.producer = none → consumed trace <+: produced trace) ∧
    (s.producer = none → s.consumer = none →
      produced trace = consumed trace ++ (ring.view s.mem).contents) := by
  have hinv := sharingInv_run hrun
  refine ⟨hinv.entries, ?_, ?_, ?_⟩
  · rw [Ring.length_contents]
    exact hinv.sound
  · intro hidle
    have hentries := hinv.entries
    rw [hidle] at hentries
    change produced trace ++ [] = _ at hentries
    rw [List.append_nil] at hentries
    rw [hentries]
    exact List.prefix_append _ _
  · intro hproducer hconsumer
    simpa [hproducer, hconsumer, returning, taking] using hinv.entries

/-- **The sides do not disturb each other.**  Every access lies in the mapping.  If the next
accesses of the two sides have a byte in common, both go to the same index word, so that no entry
is read while it is written.  No access changes the flags or any other byte that is not of the
ring. -/
theorem shared_ring_accesses_apart (hrun : (ring.sharing mem).Run trace s) :
    (∀ call access, s.producer = some call → call.2.access = some access →
      ring.InMapping access) ∧
    (∀ call access, s.consumer = some call → call.access = some access →
      ring.InMapping access) ∧
    (∀ producing consuming first second, s.producer = some producing →
      s.consumer = some consuming → producing.2.access = some first →
      consuming.access = some second →
      Apart first second ∨ first = second ∧ ring.IndexWord first) ∧
    (∀ j, ring.Foreign j → s.mem j = mem j) ∧
    (ring.needsWakeup.run s.mem).1 = (ring.needsWakeup.run mem).1 := by
  have hinv := sharingInv_run hrun
  refine ⟨?_, ?_, ?_, hinv.foreign, ?_⟩
  · intro call access hcall haccess
    rcases (hcall ▸ hinv.producing : ring.Producing s.mem (some (call.1, call.2))).access haccess
      with hword | ⟨i, -, rfl⟩
    · exact hword.inMapping
    · exact inMapping_slot _
  · intro call access hcall haccess
    rcases (hcall ▸ hinv.consuming : ring.Consuming s.mem (some call)).access haccess
      with hword | ⟨i, -, rfl⟩
    · exact hword.inMapping
    · exact inMapping_slot _
  · intro producing consuming first second hproducer hconsumer hfirst hsecond
    have hproducing : ring.Producing s.mem (some (producing.1, producing.2)) :=
      hproducer ▸ hinv.producing
    have hconsuming : ring.Consuming s.mem (some consuming) := hconsumer ▸ hinv.consuming
    rcases hproducing.access hfirst with hword | ⟨i, hi, rfl⟩
    · rcases hconsuming.access hsecond with hother | ⟨j, -, rfl⟩
      · exact (hword.apart_or_eq hother).imp_right fun heq => ⟨heq, hword⟩
      · exact .inl (hword.apart_slot _)
    · rcases hconsuming.access hsecond with hother | ⟨j, hj, rfl⟩
      · exact .inl (hother.apart_slot _).symm
      · -- The producer writes behind the contents and the consumer reads within them.
        exact .inl (ring.cell_apart (slot_ne_of_room hj hi).symm)
  · have hflags : Codec.u32.read s.mem ring.flags = Codec.u32.read mem ring.flags :=
      Codec.read_congr _ fun i hi => hinv.foreign _ (ring.foreign_flags hi)
    simp [needsWakeup, Prog.run, hflags]

end Main

/-! ## A ring of two cells -/

theorem laid_twoCells : XdpRingOffsets.Laid ⟨0, 8, 24, 16⟩ :=
  ⟨by decide, by decide, by decide, by decide, by decide, by decide⟩

theorem two_eq_pow : ∃ k ≤ 31, UInt32.toNat 2 = 2 ^ k := ⟨1, by decide, rfl⟩

/-- Indices in front of the wrap, the words eight bytes apart. -/
def twoCells : MappedRing UInt64 := mmapAddrRing 0 ⟨0, 8, 24, 16⟩ 2 laid_twoCells two_eq_pow

def beforeWrap : ℕ → UInt8 := fun j => if j < 12 then 255 else 0

/-- The consumer looks at the producer index while the producer stores its second entry. -/
def lateIndex : List (SharingEvent UInt64) :=
  [.produce (.enqueueBatch [7, 9]), .producerAccess, .producerAccess, .producerAccess,
    .consume .dequeueAll, .consumerAccess, .producerAccess, .producerAccess, .accepted [7, 9],
    .consumerAccess, .taken []]

theorem shared_ring_is_queue_wrap :
    ∃ s, (twoCells.sharing beforeWrap).Run lateIndex s ∧
      (twoCells.view s.mem).contents = [7, 9] := by
  have hend : (lateIndex.foldlM twoCells.sharingNext ⟨beforeWrap, none, none⟩).map
      (fun s => (s.producer.isNone, s.consumer.isNone)) = some (true, true) := by decide
  obtain ⟨s, hs, heq⟩ := Option.map_eq_some_iff.mp hend
  obtain ⟨hproducer, hconsumer⟩ := by simpa using heq
  have hrun : (twoCells.sharing beforeWrap).Run lateIndex s :=
    ⟨_, ⟨rfl, by decide⟩, .of_foldlM (fun _ _ _ => sharingStep_of_next) hs⟩
  have hqueue := (shared_ring_is_queue hrun).2.2.2 hproducer hconsumer
  exact ⟨s, hrun, hqueue.symm⟩

/-- The consumer loads the first entry while the producer stores the second. -/
def twoEntries : List (SharingEvent UInt64) :=
  [.produce (.enqueueBatch [7]), .producerAccess, .producerAccess, .producerAccess,
    .producerAccess, .accepted [7], .consume .dequeueAll, .consumerAccess, .consumerAccess,
    .produce (.produceTx [9]), .producerAccess, .producerAccess]

theorem shared_ring_accesses_apart_two :
    ∃ s producing consuming, (twoCells.sharing beforeWrap).Run twoEntries s ∧
      s.producer = some producing ∧ s.consumer = some consuming ∧
      producing.2.access = some (24, 8) ∧ consuming.access = some (32, 8) ∧
      Apart (24, 8) (32, 8) := by
  have hend : (twoEntries.foldlM twoCells.sharingNext ⟨beforeWrap, none, none⟩).map
      (fun s => (s.producer.bind fun call => call.2.access, s.consumer.bind Prog.access)) =
      some (some (24, 8), some (32, 8)) := by decide
  obtain ⟨s, hs, heq⟩ := Option.map_eq_some_iff.mp hend
  obtain ⟨hfirst, hsecond⟩ := Prod.mk.inj heq
  obtain ⟨producing, hproducer, hfirst⟩ := Option.bind_eq_some_iff.mp hfirst
  obtain ⟨consuming, hconsumer, hsecond⟩ := Option.bind_eq_some_iff.mp hsecond
  have hrun : (twoCells.sharing beforeWrap).Run twoEntries s :=
    ⟨_, ⟨rfl, by decide⟩, .of_foldlM (fun _ _ _ => sharingStep_of_next) hs⟩
  refine ⟨s, producing, consuming, hrun, hproducer, hconsumer, hfirst, hsecond, ?_⟩
  refine ((shared_ring_accesses_apart hrun).2.2.1 _ _ _ _ hproducer hconsumer hfirst
    hsecond).resolve_right ?_
  rintro ⟨hsame, -⟩
  cases hsame

end MappedRing

end RunPerf.Xdp
