import RunPerf.Lib.Machine
import RunPerf.Lib.SharedMemory
import RunPerf.Xdp.Umem

/-!
# The rings in mapped memory

A ring is a mapping that both sides have: two index words, a word of flags and the array of
entries, at the offsets that the kernel gives.  Here the operations of `umem.rs` are programs on
the bytes of the mapping.

`view` reads a memory as a `Ring`.  A program that runs alone does to the view what the operation
of `Ring` does.

Accesses are taken in program order, as the fences of the source demand.
-/

namespace RunPerf.Xdp

open RunPerf.Lib

/-! ## The mapping -/

/-- `XdpRingOffsets`. -/
structure XdpRingOffsets where
  producer : UInt64
  consumer : UInt64
  desc : UInt64
  flags : UInt64

/-- What the kernel promises of the offsets: the words do not overlap, and the entries are behind
them. -/
structure XdpRingOffsets.Laid (off : XdpRingOffsets) : Prop where
  producer_consumer : off.producer.toNat + 4 ≤ off.consumer.toNat ∨
    off.consumer.toNat + 4 ≤ off.producer.toNat
  producer_flags : off.producer.toNat + 4 ≤ off.flags.toNat ∨
    off.flags.toNat + 4 ≤ off.producer.toNat
  consumer_flags : off.consumer.toNat + 4 ≤ off.flags.toNat ∨
    off.flags.toNat + 4 ≤ off.consumer.toNat
  producer_desc : off.producer.toNat + 4 ≤ off.desc.toNat
  consumer_desc : off.consumer.toNat + 4 ≤ off.desc.toNat
  flags_desc : off.flags.toNat + 4 ≤ off.desc.toNat

/-- `AddrRing` and `DescRing` as they are mapped, at the address `map`. -/
structure MappedRing (α : Type*) where
  codec : Codec α
  map : ℕ
  off : XdpRingOffsets
  size : UInt32
  laid : off.Laid
  size_pow : ∃ k ≤ 31, size.toNat = 2 ^ k

/-- The 16 bytes of an `XdpDesc`. -/
def XdpDesc.codec : Codec XdpDesc :=
  (Codec.u64.pair (Codec.u32.pair Codec.u32)).map
    { toFun := fun desc => (desc.addr, desc.len, desc.options)
      invFun := fun fields => ⟨fields.1, fields.2.1, fields.2.2⟩
      left_inv := fun _ => rfl
      right_inv := fun _ => rfl }

/-- `mmap_addr_ring`, when `mmap` gives the address `map`. -/
def mmapAddrRing (map : ℕ) (off : XdpRingOffsets) (size : UInt32) (laid : off.Laid)
    (size_pow : ∃ k ≤ 31, size.toNat = 2 ^ k) : MappedRing UInt64 :=
  ⟨.u64, map, off, size, laid, size_pow⟩

/-- `mmap_desc_ring`, when `mmap` gives the address `map`. -/
def mmapDescRing (map : ℕ) (off : XdpRingOffsets) (size : UInt32) (laid : off.Laid)
    (size_pow : ∃ k ≤ 31, size.toNat = 2 ^ k) : MappedRing XdpDesc :=
  ⟨XdpDesc.codec, map, off, size, laid, size_pow⟩

namespace MappedRing

variable {α : Type*}

section Mapping

variable (ring : MappedRing α)

def mapsize : ℕ := ring.off.desc.toNat + ring.size.toNat * ring.codec.width

def producer : ℕ := ring.map + ring.off.producer.toNat

def consumer : ℕ := ring.map + ring.off.consumer.toNat

def flags : ℕ := ring.map + ring.off.flags.toNat

def descs : ℕ := ring.map + ring.off.desc.toNat

def mask : UInt32 := ring.size - 1

/-- `self.descs.add(idx)`. -/
def cell (idx : UInt32) : ℕ := ring.descs + idx.toNat * ring.codec.width

/-- The cell of a free-running index. -/
def slot (index : UInt32) : ℕ := ring.cell (index &&& ring.mask)

/-- The ring that a memory holds. -/
def view (mem : ℕ → UInt8) : Ring α where
  producer := Codec.u32.read mem ring.producer
  consumer := Codec.u32.read mem ring.consumer
  descs idx := ring.codec.read mem (ring.cell idx)
  size := ring.size
  mask := ring.mask
  size_pow := ring.size_pow
  mask_eq := rfl

/-- The bytes that belong to no index word and to no entry. -/
def Foreign (j : ℕ) : Prop :=
  (j < ring.producer ∨ ring.producer + 4 ≤ j) ∧ (j < ring.consumer ∨ ring.consumer + 4 ≤ j) ∧
    (j < ring.descs ∨ ring.descs + ring.size.toNat * ring.codec.width ≤ j)

end Mapping

/-! ## The operations -/

section Operations

variable (ring : MappedRing α) {β : Type*}

/-- The loop of a producer over the entries from number `i` on. -/
def storeCells (prod : UInt32) : ℕ → List α → Prog β → Prog β
  | _, [], next => next
  | i, entry :: rest, next =>
      ring.codec.store (ring.slot (prod + UInt32.ofNat i)) entry
        (storeCells prod (i + 1) rest next)

/-- The producer index is stored: always, or only if something was enqueued. -/
def publish (always : Bool) (prod : UInt32) (n : ℕ) : Prog ℕ :=
  if always ∨ 0 < n then Codec.u32.store ring.producer (prod + UInt32.ofNat n) (.done n)
  else .done n

/-- The call of a producer that has read both indices. -/
def produceSeeing (always : Bool) (entries : List α) (prod cons : UInt32) : Prog ℕ :=
  let free := (ring.size - (prod - cons)).toNat
  let n := min entries.length free
  ring.storeCells prod 0 (entries.take n) (ring.publish always prod n)

def produce (always : Bool) (entries : List α) : Prog ℕ :=
  Codec.u32.load ring.producer fun prod =>
    Codec.u32.load ring.consumer fun cons => ring.produceSeeing always entries prod cons

def enqueueBatch (addrs : List α) : Prog ℕ := ring.produce true addrs

def produceTx (descs : List α) : Prog ℕ := ring.produce false descs

/-- The loop of a consumer: `left` entries to go from number `i` on. -/
def loadCells (cons : UInt32) : ℕ → ℕ → List α → (List α → Prog β) → Prog β
  | 0, _, out, next => next out
  | left + 1, i, out, next =>
      ring.codec.load (ring.slot (cons + UInt32.ofNat i)) fun entry =>
        loadCells cons left (i + 1) (out ++ [entry]) next

/-- The consumer index is stored if something was taken. -/
def release (cons : UInt32) (n : ℕ) (out : List α) : Prog (List α) :=
  if 0 < n then Codec.u32.store ring.consumer (cons + UInt32.ofNat n) (.done out)
  else .done out

/-- The call of a consumer that has read both indices and takes some of what is available. -/
def consumeSeeing (wanted : ℕ → ℕ) (prod cons : UInt32) : Prog (List α) :=
  let available := (prod - cons).toNat
  let n := wanted available
  ring.loadCells cons n 0 [] (ring.release cons n)

def consume (wanted : ℕ → ℕ) : Prog (List α) :=
  Codec.u32.load ring.producer fun prod =>
    Codec.u32.load ring.consumer fun cons => ring.consumeSeeing wanted prod cons

def dequeueAll : Prog (List α) := ring.consume id

def consumeRx : Prog (List α) :=
  Codec.u32.load ring.producer fun prod =>
    Codec.u32.load ring.consumer fun cons =>
      let available := (prod - cons).toNat
      if available = 0 then .done []
      else
        ring.loadCells cons available 0 [] fun out =>
          Codec.u32.store ring.consumer (cons + UInt32.ofNat available) (.done out)

/-- The kernel takes up to `limit` entries. -/
def kernelTake (limit : ℕ) : Prog (List α) := ring.consume (min limit)

/-- `needs_wakeup`. -/
def needsWakeup : Prog Bool :=
  Codec.u32.load ring.flags fun flags => .done (flags &&& 1 != 0)

theorem consumeRx_eq : ring.consumeRx = ring.dequeueAll := by
  unfold consumeRx dequeueAll consume
  congr 1
  funext prod
  congr 1
  funext cons
  unfold consumeSeeing
  by_cases hnone : (prod - cons).toNat = 0
  · simp [hnone, loadCells, release]
  · have hsome : 0 < (prod - cons).toNat := Nat.pos_of_ne_zero hnone
    simp only [hnone, if_false, id_eq]
    congr 1
    funext out
    rw [release, if_pos hsome]

end Operations

/-! ## What a write does to the view -/

section Writes

variable (ring : MappedRing α) (mem : ℕ → UInt8)

theorem toNat_masked_lt (index : UInt32) : (index &&& ring.mask).toNat < ring.size.toNat := by
  obtain ⟨k, hk, hmask, hsize⟩ := (ring.view fun _ => 0).exists_mask
  have hslot := toNat_slot hmask hk index 0
  have hlt : (index.toNat + 0) % 2 ^ k < 2 ^ k := Nat.mod_lt _ (Nat.two_pow_pos k)
  have hzero : index + UInt32.ofNat 0 = index := by simp
  rw [hzero] at hslot
  change (index &&& ring.mask).toNat < (ring.view fun _ => 0).size.toNat
  rw [hsize]
  exact hslot.trans_lt hlt

theorem ring_ext {r r' : Ring α} (hproducer : r.producer = r'.producer)
    (hconsumer : r.consumer = r'.consumer) (hdescs : r.descs = r'.descs)
    (hsize : r.size = r'.size) : r = r' := by
  have hmask : r.mask = r'.mask := by rw [r.mask_eq, r'.mask_eq, hsize]
  cases r
  cases r'
  simp_all

theorem read_word_of_cell {word : ℕ} (h : word + 4 ≤ ring.descs) (idx : UInt32) (entry : α) :
    Codec.u32.read (ring.codec.write mem (ring.cell idx) entry) word = Codec.u32.read mem word :=
  Codec.read_write_of_disjoint _ _ _ (.inl (h.trans (Nat.le_add_right _ _)))

theorem read_cell_of_word {word : ℕ} (h : word + 4 ≤ ring.descs) (index idx : UInt32) :
    ring.codec.read (Codec.u32.write mem word index) (ring.cell idx) =
      ring.codec.read mem (ring.cell idx) :=
  Codec.read_write_of_disjoint _ _ _ (.inr (h.trans (Nat.le_add_right _ _)))

/-- Different cells have no byte in common. -/
theorem cell_apart {idx other : UInt32} (hne : idx ≠ other) :
    ring.cell idx + ring.codec.width ≤ ring.cell other ∨
      ring.cell other + ring.codec.width ≤ ring.cell idx := by
  unfold cell
  rcases Nat.lt_or_gt_of_ne fun h => hne (UInt32.toNat_inj.mp h) with hlt | hgt
  · have hmul := Nat.mul_le_mul_right ring.codec.width hlt
    rw [Nat.succ_mul] at hmul
    omega
  · have hmul := Nat.mul_le_mul_right ring.codec.width hgt
    rw [Nat.succ_mul] at hmul
    omega

theorem producer_le_descs : ring.producer + 4 ≤ ring.descs := by
  have := ring.laid.producer_desc
  unfold producer descs
  omega

theorem consumer_le_descs : ring.consumer + 4 ≤ ring.descs := by
  have := ring.laid.consumer_desc
  unfold consumer descs
  omega

theorem view_writeCell (idx : UInt32) (entry : α) :
    ring.view (ring.codec.write mem (ring.cell idx) entry) =
      { ring.view mem with descs := Function.update (ring.view mem).descs idx entry } := by
  have hdescs : (ring.view (ring.codec.write mem (ring.cell idx) entry)).descs =
      Function.update (ring.view mem).descs idx entry := by
    funext other
    by_cases hsame : other = idx
    · rw [hsame, Function.update_self]
      exact Codec.read_write _ _ _ _
    · rw [Function.update_of_ne hsame]
      exact Codec.read_write_of_disjoint _ _ _ (ring.cell_apart hsame)
  have hproducer := ring.read_word_of_cell mem ring.producer_le_descs idx entry
  have hconsumer := ring.read_word_of_cell mem ring.consumer_le_descs idx entry
  exact ring_ext hproducer hconsumer hdescs rfl

theorem view_writeProducer (index : UInt32) :
    ring.view (Codec.u32.write mem ring.producer index) =
      { ring.view mem with producer := index } := by
  have hproducer : Codec.u32.read (Codec.u32.write mem ring.producer index) ring.producer =
      index := Codec.read_write _ _ _ _
  have hconsumer : Codec.u32.read (Codec.u32.write mem ring.producer index) ring.consumer =
      Codec.u32.read mem ring.consumer := by
    apply Codec.read_write_of_disjoint
    have hwords := ring.laid.producer_consumer
    unfold producer consumer
    change _ + 4 ≤ _ ∨ _ + 4 ≤ _
    omega
  exact ring_ext hproducer hconsumer
    (funext fun idx => ring.read_cell_of_word mem ring.producer_le_descs index idx) rfl

theorem view_writeConsumer (index : UInt32) :
    ring.view (Codec.u32.write mem ring.consumer index) =
      { ring.view mem with consumer := index } := by
  have hconsumer : Codec.u32.read (Codec.u32.write mem ring.consumer index) ring.consumer =
      index := Codec.read_write _ _ _ _
  have hproducer : Codec.u32.read (Codec.u32.write mem ring.consumer index) ring.producer =
      Codec.u32.read mem ring.producer := by
    apply Codec.read_write_of_disjoint
    have hwords := ring.laid.producer_consumer
    unfold producer consumer
    change _ + 4 ≤ _ ∨ _ + 4 ≤ _
    omega
  exact ring_ext hproducer hconsumer
    (funext fun idx => ring.read_cell_of_word mem ring.consumer_le_descs index idx) rfl

/-- The entries lie in the mapping. -/
theorem slot_bounds (index : UInt32) :
    ring.descs ≤ ring.slot index ∧
      ring.slot index + ring.codec.width ≤ ring.descs + ring.size.toNat * ring.codec.width := by
  have hlt := Nat.mul_le_mul_right ring.codec.width (ring.toNat_masked_lt index)
  rw [Nat.succ_mul] at hlt
  unfold slot cell
  omega

variable {ring mem} {j : ℕ}

theorem Foreign.write_slot (h : ring.Foreign j) (index : UInt32) (entry : α) :
    ring.codec.write mem (ring.slot index) entry j = mem j := by
  have hbounds := ring.slot_bounds index
  have houtside := h.2.2
  exact Codec.write_apply_of_notMem _ _ (by omega)

theorem Foreign.write_producer (h : ring.Foreign j) (index : UInt32) :
    Codec.u32.write mem ring.producer index j = mem j :=
  Codec.write_apply_of_notMem _ _ h.1

theorem Foreign.write_consumer (h : ring.Foreign j) (index : UInt32) :
    Codec.u32.write mem ring.consumer index j = mem j :=
  Codec.write_apply_of_notMem _ _ h.2.1

theorem foreign_flags (ring : MappedRing α) {i : ℕ} (hi : i < 4) :
    ring.Foreign (ring.flags + i) := by
  have hproducer := ring.laid.producer_flags
  have hconsumer := ring.laid.consumer_flags
  have hdesc := ring.laid.flags_desc
  unfold Foreign producer consumer flags descs
  omega

end Writes

/-! ## An operation on its own -/

section Alone

variable (ring : MappedRing α) {β : Type*}

/-- The program does to the memory what an operation does to the ring in it: it gives the same
result, and it leaves the other bytes alone. -/
structure Does (prog : Prog β) (mem : ℕ → UInt8) (expected : Ring α × β) : Prop where
  result : (prog.run mem).1 = expected.2
  view : ring.view (prog.run mem).2 = expected.1
  foreign : ∀ j, ring.Foreign j → (prog.run mem).2 j = mem j

theorem run_storeCells (prod : UInt32) (i : ℕ) (entries : List α) (next : Prog β)
    (mem : ℕ → UInt8) :
    ∃ mem', (ring.storeCells prod i entries next).run mem = next.run mem' ∧
      ring.view mem' =
        { ring.view mem with
            descs := store ring.mask (ring.view mem).descs (prod + UInt32.ofNat i) entries } ∧
      ∀ j, ring.Foreign j → mem' j = mem j := by
  induction entries generalizing i mem with
  | nil => exact ⟨mem, rfl, rfl, fun _ _ => rfl⟩
  | cons entry rest ih =>
      obtain ⟨mem', hrun, hview, hforeign⟩ :=
        ih (i + 1) (ring.codec.write mem (ring.slot (prod + UInt32.ofNat i)) entry)
      refine ⟨mem', hrun, ?_, fun j hj => (hforeign j hj).trans (hj.write_slot _ _)⟩
      have hnext : prod + UInt32.ofNat i + 1 = prod + UInt32.ofNat (i + 1) := by
        rw [← add_ofNat_add]
        rfl
      rw [hview, slot, view_writeCell, store, hnext]

theorem run_loadCells (cons : UInt32) (left i : ℕ) (out : List α) (next : List α → Prog β)
    (mem : ℕ → UInt8) :
    (ring.loadCells cons left i out next).run mem =
      (next (out ++ window ring.mask (ring.view mem).descs (cons + UInt32.ofNat i) left)).run
        mem := by
  induction left generalizing i out with
  | zero => simp [loadCells]
  | succ left ih =>
      rw [loadCells, Codec.run_load, ih, Nat.add_comm left 1, window_add, add_ofNat_add,
        List.append_assoc]
      simp [window, slot, view]

variable {ring} {prog : Prog β} {mem mem' : ℕ → UInt8} {expected : Ring α × β}

theorem Does.of_run (hrun : prog.run mem = (expected.2, mem'))
    (hring : ring.view mem' = expected.1) (hforeign : ∀ j, ring.Foreign j → mem' j = mem j) :
    ring.Does prog mem expected := by
  constructor
  · rw [hrun]
  · rw [hrun, hring]
  · rw [hrun]
    exact hforeign

variable (ring)

theorem does_produce (always : Bool) (entries : List α) (mem : ℕ → UInt8) :
    ring.Does (ring.produce always entries) mem ((ring.view mem).enqueueBatch entries) := by
  obtain ⟨mem', hrun, hview, hforeign⟩ :=
    ring.run_storeCells (ring.view mem).producer 0
      (entries.take ((ring.view mem).enqueueBatch entries).2)
      (ring.publish always (ring.view mem).producer ((ring.view mem).enqueueBatch entries).2) mem
  have hzero (index : UInt32) : index + UInt32.ofNat 0 = index := by simp
  rw [hzero] at hview
  have hall : (ring.produce always entries).run mem =
      (ring.publish always (ring.view mem).producer
        ((ring.view mem).enqueueBatch entries).2).run mem' := hrun
  rw [publish] at hall
  split at hall
  · refine .of_run hall ?_ fun j hj => (hj.write_producer _).trans (hforeign j hj)
    change ring.view (Codec.u32.write mem' ring.producer _) = _
    rw [view_writeProducer, hview]
    rfl
  · rename_i hnone
    have hempty : ((ring.view mem).enqueueBatch entries).2 = 0 := by
      simp only [not_or] at hnone
      omega
    refine .of_run hall ?_ hforeign
    rw [hview, hempty, Ring.enqueueBatch, Ring.enqueueBatchSeeing_eq_self hempty]
    rfl

theorem does_dequeueAll (mem : ℕ → UInt8) :
    ring.Does ring.dequeueAll mem (ring.view mem).dequeueAll := by
  have hzero (index : UInt32) : index + UInt32.ofNat 0 = index := by simp
  have hrun : ring.dequeueAll.run mem =
      (ring.release (ring.view mem).consumer (ring.view mem).occupancy
        (ring.view mem).dequeueAll.2).run mem := by
    change (ring.loadCells (ring.view mem).consumer (ring.view mem).occupancy 0 []
      (ring.release (ring.view mem).consumer (ring.view mem).occupancy)).run mem = _
    rw [run_loadCells, hzero]
    rfl
  rw [release] at hrun
  split at hrun
  · rename_i hsome
    refine .of_run hrun ?_ fun j hj => hj.write_consumer _
    change ring.view (Codec.u32.write mem ring.consumer _) = _
    rw [view_writeConsumer, Ring.dequeueAll, Ring.dequeueAllSeeing]
    exact (if_pos hsome).symm
  · rename_i hnone
    refine .of_run hrun ?_ fun _ _ => rfl
    rw [Ring.dequeueAll, Ring.dequeueAllSeeing]
    exact (if_neg hnone).symm

/-- **The operations on memory are those of the ring.**  Whatever the bytes of the mapping are,
each operation gives the result that the operation on the ring in them gives, leaves behind the
ring that it leaves, and changes no byte outside the index words and the entries. -/
theorem mapped_operations_refine_ring (mem : ℕ → UInt8) :
    (∀ addrs, ring.Does (ring.enqueueBatch addrs) mem ((ring.view mem).enqueueBatch addrs)) ∧
    (∀ descs, ring.Does (ring.produceTx descs) mem ((ring.view mem).produceTx descs)) ∧
    ring.Does ring.dequeueAll mem (ring.view mem).dequeueAll ∧
    ring.Does ring.consumeRx mem (ring.view mem).consumeRx := by
  refine ⟨fun addrs => ring.does_produce true addrs mem, fun descs => ?_,
    ring.does_dequeueAll mem, ?_⟩
  · rw [Ring.produceTx, Ring.produceTxSeeing_eq]
    exact ring.does_produce false descs mem
  · rw [Ring.consumeRx, Ring.consumeRxSeeing_eq, consumeRx_eq]
    exact ring.does_dequeueAll mem

end Alone

end MappedRing

end RunPerf.Xdp
