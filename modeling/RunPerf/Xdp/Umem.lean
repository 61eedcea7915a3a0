import RunPerf.Lib.RingWindow

/-!
# The shared rings of an AF_XDP socket

`umem.rs` drives four single-producer single-consumer rings that it shares with
the kernel: fill and completion carry UMEM offsets (`AddrRing`), RX and TX carry
descriptors (`DescRing`).  Both ring types are one structure here, since only the
entry type differs.  A ring value carries its own shape: the size is a power of
two and the mask is the size minus one, as `mmap_addr_ring` and `mmap_desc_ring`
set it up.

Each operation reads its own index and the peer's.  The peer may run at any
time, so the operations are stated with the peer index they *saw*
(`enqueueBatchSeeing`, ...); the source's operations are the special case in
which the value seen is the current one.

The abstract view of a ring is the list of its unconsumed entries, `contents`.
Under `ProducerView` and `ConsumerView`, which say that the value seen is not
ahead of the peer and not behind the ring, a producer operation appends to
`contents` and a consumer operation takes from its front.
-/

namespace RunPerf.Xdp

open RunPerf.Lib

/-! ## Frame configuration -/

def frameSize : UInt32 := 4096

def frameCount : UInt32 := 4096

def ringSize : UInt32 := 2048

/-- `XdpDesc` of `<linux/if_xdp.h>`. -/
structure XdpDesc where
  addr : UInt64
  len : UInt32
  options : UInt32
deriving DecidableEq, Repr

/-- A shared ring.  `descs` is the mapped array of entries, read and written only
through masked indices. -/
structure Ring (α : Type*) where
  producer : UInt32
  consumer : UInt32
  descs : UInt32 → α
  size : UInt32
  mask : UInt32
  size_pow : ∃ k ≤ 31, size.toNat = 2 ^ k
  mask_eq : mask = size - 1

/-- Fill and completion ring. -/
abbrev AddrRing := Ring UInt64

/-- RX and TX ring. -/
abbrev DescRing := Ring XdpDesc

variable {α : Type*}

namespace Ring

/-! ## The operations -/

/-- `enqueue_batch` when the consumer index it reads is `cons`.  The producer index
is stored also when nothing was enqueued. -/
def enqueueBatchSeeing (r : Ring α) (cons : UInt32) (addrs : List α) : Ring α × ℕ :=
  let prod := r.producer
  let free := (r.size - (prod - cons)).toNat
  let n := min addrs.length free
  ({ r with
      descs := store r.mask r.descs prod (addrs.take n)
      producer := prod + UInt32.ofNat n }, n)

def enqueueBatch (r : Ring α) (addrs : List α) : Ring α × ℕ :=
  r.enqueueBatchSeeing r.consumer addrs

/-- `produce_tx` when the consumer index it reads is `cons`. -/
def produceTxSeeing (r : Ring α) (cons : UInt32) (descs : List α) : Ring α × ℕ :=
  let prod := r.producer
  let free := (r.size - (prod - cons)).toNat
  let n := min descs.length free
  let written := { r with descs := store r.mask r.descs prod (descs.take n) }
  (if 0 < n then { written with producer := prod + UInt32.ofNat n } else written, n)

def produceTx (r : Ring α) (descs : List α) : Ring α × ℕ :=
  r.produceTxSeeing r.consumer descs

/-- `dequeue_all` when the producer index it reads is `prod`. -/
def dequeueAllSeeing (r : Ring α) (prod : UInt32) : Ring α × List α :=
  let cons := r.consumer
  let available := (prod - cons).toNat
  let out := window r.mask r.descs cons available
  (if 0 < available then { r with consumer := cons + UInt32.ofNat available } else r, out)

def dequeueAll (r : Ring α) : Ring α × List α :=
  r.dequeueAllSeeing r.producer

/-- `consume_rx` when the producer index it reads is `prod`. -/
def consumeRxSeeing (r : Ring α) (prod : UInt32) : Ring α × List α :=
  let cons := r.consumer
  let available := (prod - cons).toNat
  if available = 0 then (r, [])
  else ({ r with consumer := cons + UInt32.ofNat available },
    window r.mask r.descs cons available)

def consumeRx (r : Ring α) : Ring α × List α :=
  r.consumeRxSeeing r.producer

/-! ## The kernel's side

The kernel consumes the fill and TX rings one entry at a time and posts to the
completion and RX rings.  It is not part of the source; all that is said of it is
that it goes through the ring in order.  In particular `kernelPost` has no check for
a full ring. -/

/-- The kernel takes the oldest entry, if there is one. -/
def kernelTake (r : Ring α) : Option (α × Ring α) :=
  if r.producer = r.consumer then none
  else some (r.descs (r.consumer &&& r.mask), { r with consumer := r.consumer + 1 })

/-- The kernel posts an entry. -/
def kernelPost (r : Ring α) (entry : α) : Ring α :=
  { r with
      descs := store r.mask r.descs r.producer [entry]
      producer := r.producer + 1 }

/-! ## The abstract view -/

/-- The number of entries produced and not yet consumed. -/
def occupancy (r : Ring α) : ℕ := (r.producer - r.consumer).toNat

/-- The entries produced and not yet consumed, oldest first. -/
def contents (r : Ring α) : List α := window r.mask r.descs r.consumer r.occupancy

/-- No more entries are outstanding than the ring has cells. -/
def Sound (r : Ring α) : Prop := r.occupancy ≤ r.size.toNat

/-- `cons` is a consumer index that the producer may have read: not ahead of the
consumer, and not so far behind that the ring would look overfull. -/
structure ProducerView (r : Ring α) (cons : UInt32) : Prop where
  not_ahead : r.occupancy ≤ (r.producer - cons).toNat
  fits : (r.producer - cons).toNat ≤ r.size.toNat

/-- `prod` is a producer index that the consumer may have read: at most the
entries that are there look available. -/
def ConsumerView (r : Ring α) (prod : UInt32) : Prop :=
  (prod - r.consumer).toNat ≤ r.occupancy

/-- The room a producer computes from the consumer index it sees. -/
def room (r : Ring α) (cons : UInt32) : ℕ := r.size.toNat - (r.producer - cons).toNat

@[simp] theorem length_contents (r : Ring α) : r.contents.length = r.occupancy :=
  length_window _ _ _ _

theorem producerView_self {r : Ring α} (h : r.Sound) : r.ProducerView r.consumer :=
  ⟨le_rfl, h⟩

theorem consumerView_self (r : Ring α) : r.ConsumerView r.producer := le_rfl

theorem size_le (r : Ring α) : r.size.toNat ≤ 2 ^ 31 := by
  obtain ⟨k, hk, hsize⟩ := r.size_pow
  rw [hsize]
  exact Nat.pow_le_pow_right (by decide) hk

theorem exists_mask (r : Ring α) :
    ∃ k ≤ 32, r.mask.toNat = 2 ^ k - 1 ∧ r.size.toNat = 2 ^ k := by
  obtain ⟨k, hk, hsize⟩ := r.size_pow
  have hpos : 0 < 2 ^ k := Nat.two_pow_pos k
  have hle : 1 ≤ r.size := by
    rw [UInt32.le_iff_toNat_le, hsize]
    exact hpos
  refine ⟨k, by omega, ?_, hsize⟩
  rw [r.mask_eq, UInt32.toNat_sub_of_le _ _ hle, hsize]
  rfl

/-! ## Index arithmetic -/

/-- An index advanced by `n` is `n` further from any other index, as long as the
distance does not reach `2 ^ 32`. -/
theorem toNat_add_ofNat_sub (a b : UInt32) (n : ℕ) (h : (a - b).toNat + n < 2 ^ 32) :
    (a + UInt32.ofNat n - b).toNat = (a - b).toNat + n := by
  have ha := a.toNat_lt
  have hb := b.toNat_lt
  simp only [UInt32.toNat_sub, UInt32.toNat_add, UInt32.toNat_ofNat'] at h ⊢
  omega

/-- Advancing the index that is subtracted brings the two closer. -/
theorem toNat_sub_add_ofNat (a b : UInt32) (n : ℕ) (h : n ≤ (a - b).toNat) :
    (a - (b + UInt32.ofNat n)).toNat = (a - b).toNat - n := by
  have ha := a.toNat_lt
  have hb := b.toNat_lt
  simp only [UInt32.toNat_sub, UInt32.toNat_add, UInt32.toNat_ofNat'] at h ⊢
  omega

theorem consumer_add_occupancy (r : Ring α) :
    r.consumer + UInt32.ofNat r.occupancy = r.producer := by
  rw [occupancy, UInt32.ofNat_toNat, UInt32.add_comm, UInt32.sub_add_cancel]

/-- The free space the code computes with wrapping subtraction is the room. -/
theorem toNat_free {r : Ring α} {cons : UInt32} (h : (r.producer - cons).toNat ≤ r.size.toNat) :
    (r.size - (r.producer - cons)).toNat = r.room cons := by
  rw [room, UInt32.toNat_sub_of_le]
  rw [UInt32.le_iff_toNat_le]
  exact h

/-! ## What the producer operations do -/

theorem enqueueBatchSeeing_snd {r : Ring α} {cons : UInt32}
    (hfits : (r.producer - cons).toNat ≤ r.size.toNat) (addrs : List α) :
    (r.enqueueBatchSeeing cons addrs).2 = min addrs.length (r.room cons) := by
  simp only [enqueueBatchSeeing, toNat_free hfits]

/-- `produce_tx` leaves the producer index alone when it enqueues nothing, which
is what storing `prod + 0` does anyway. -/
theorem produceTxSeeing_eq (r : Ring α) (cons : UInt32) (descs : List α) :
    r.produceTxSeeing cons descs = r.enqueueBatchSeeing cons descs := by
  simp only [produceTxSeeing, enqueueBatchSeeing]
  split
  · rfl
  · rename_i hnone
    have hzero : min descs.length (r.size - (r.producer - cons)).toNat = 0 := by omega
    simp [hzero]

theorem enqueueBatchSeeing_eq_self {r : Ring α} {cons : UInt32} {addrs : List α}
    (h : (r.enqueueBatchSeeing cons addrs).2 = 0) :
    (r.enqueueBatchSeeing cons addrs).1 = r := by
  simp only [enqueueBatchSeeing] at h ⊢
  simp [h, store]

/-- What a producer enqueues fits next to what is still there. -/
theorem occupancy_add_enqueued_le {r : Ring α} {cons : UInt32} (hview : r.ProducerView cons)
    (addrs : List α) :
    r.occupancy + (r.enqueueBatchSeeing cons addrs).2 ≤ r.size.toNat := by
  have hahead := hview.not_ahead
  have hfits := hview.fits
  rw [enqueueBatchSeeing_snd hfits, room]
  omega

theorem occupancy_enqueueBatchSeeing {r : Ring α} {cons : UInt32}
    (hview : r.ProducerView cons) (addrs : List α) :
    (r.enqueueBatchSeeing cons addrs).1.occupancy =
      r.occupancy + (r.enqueueBatchSeeing cons addrs).2 := by
  have hle := occupancy_add_enqueued_le hview addrs
  have hsize := r.size_le
  unfold occupancy at hle ⊢
  exact toNat_add_ofNat_sub r.producer r.consumer (r.enqueueBatchSeeing cons addrs).2 (by omega)

/-- **A producer operation appends** the prefix it accepted. -/
theorem contents_enqueueBatchSeeing {r : Ring α} {cons : UInt32}
    (hview : r.ProducerView cons) (addrs : List α) :
    (r.enqueueBatchSeeing cons addrs).1.contents =
      r.contents ++ addrs.take (r.enqueueBatchSeeing cons addrs).2 := by
  obtain ⟨k, hk, hmask, hsize⟩ := r.exists_mask
  have hle := occupancy_add_enqueued_le hview addrs
  have hn : (addrs.take (r.enqueueBatchSeeing cons addrs).2).length =
      (r.enqueueBatchSeeing cons addrs).2 := by
    simp [enqueueBatchSeeing]
  rw [contents, occupancy_enqueueBatchSeeing hview]
  conv_lhs => rw [← hn]
  have hstore := window_store hmask hk r.descs r.consumer r.occupancy
    (addrs.take (r.enqueueBatchSeeing cons addrs).2) (by rw [hn, ← hsize]; exact hle)
  rw [consumer_add_occupancy] at hstore
  exact hstore

/-- A producer operation writes to no cell that holds an unconsumed entry. -/
theorem descs_enqueueBatchSeeing {r : Ring α} {cons : UInt32} (hview : r.ProducerView cons)
    (addrs : List α) {i : ℕ} (hi : i < r.occupancy) :
    (r.enqueueBatchSeeing cons addrs).1.descs ((r.consumer + UInt32.ofNat i) &&& r.mask) =
      r.descs ((r.consumer + UInt32.ofNat i) &&& r.mask) := by
  obtain ⟨k, hk, hmask, hsize⟩ := r.exists_mask
  have hle := occupancy_add_enqueued_le hview addrs
  apply store_apply_of_forall_ne
  intro j hj heq
  rw [← consumer_add_occupancy, add_ofNat_add] at heq
  have hn : j < (r.enqueueBatchSeeing cons addrs).2 := by
    simp only [List.length_take] at hj
    exact lt_of_lt_of_le hj (Nat.min_le_left _ _)
  have := slot_injective hmask hk r.consumer (by omega) (by omega) heq
  omega

/-! ## What the consumer operations do -/

/-- `consume_rx` returns early where `dequeue_all` copies nothing. -/
theorem consumeRxSeeing_eq (r : Ring α) (prod : UInt32) :
    r.consumeRxSeeing prod = r.dequeueAllSeeing prod := by
  simp only [consumeRxSeeing, dequeueAllSeeing]
  split
  · rename_i hnone
    simp [hnone]
  · rename_i hsome
    rw [if_pos (Nat.pos_of_ne_zero hsome)]

theorem dequeueAllSeeing_eq_self {r : Ring α} {prod : UInt32}
    (h : (r.dequeueAllSeeing prod).2 = []) : (r.dequeueAllSeeing prod).1 = r := by
  have hzero : (prod - r.consumer).toNat = 0 := by
    have hlength := congrArg List.length h
    simpa [dequeueAllSeeing] using hlength
  simp [dequeueAllSeeing, hzero]

theorem consumer_dequeueAllSeeing (r : Ring α) (prod : UInt32) :
    (r.dequeueAllSeeing prod).1.consumer =
      r.consumer + UInt32.ofNat (prod - r.consumer).toNat := by
  simp only [dequeueAllSeeing]
  split
  · rfl
  · rename_i hnone
    have hzero : (prod - r.consumer).toNat = 0 := by omega
    simp [hzero]

@[simp] theorem producer_dequeueAllSeeing (r : Ring α) (prod : UInt32) :
    (r.dequeueAllSeeing prod).1.producer = r.producer := by
  simp only [dequeueAllSeeing]
  split <;> rfl

@[simp] theorem size_dequeueAllSeeing (r : Ring α) (prod : UInt32) :
    (r.dequeueAllSeeing prod).1.size = r.size := by
  simp only [dequeueAllSeeing]
  split <;> rfl

theorem occupancy_dequeueAllSeeing {r : Ring α} {prod : UInt32} (hview : r.ConsumerView prod) :
    (r.dequeueAllSeeing prod).1.occupancy = r.occupancy - (prod - r.consumer).toNat := by
  rw [occupancy, producer_dequeueAllSeeing, consumer_dequeueAllSeeing,
    toNat_sub_add_ofNat _ _ _ hview]
  rfl

/-- **A consumer operation takes from the front** of the unconsumed entries. -/
theorem contents_dequeueAllSeeing {r : Ring α} {prod : UInt32} (hview : r.ConsumerView prod) :
    (r.dequeueAllSeeing prod).2 ++ (r.dequeueAllSeeing prod).1.contents = r.contents := by
  have hsplit : r.occupancy =
      (prod - r.consumer).toNat + (r.occupancy - (prod - r.consumer).toNat) := by
    unfold ConsumerView at hview
    omega
  have hcells : (r.dequeueAllSeeing prod).1.descs = r.descs ∧
      (r.dequeueAllSeeing prod).1.mask = r.mask := by
    simp only [dequeueAllSeeing]
    split <;> exact ⟨rfl, rfl⟩
  rw [contents, occupancy_dequeueAllSeeing hview, consumer_dequeueAllSeeing, hcells.1, hcells.2,
    contents, hsplit, window_add, ← hsplit]
  rfl

/-! ## Rings with current views

What the operations do when every index is read as it is, in terms of the list of
entries that the ring represents. -/

/-- The ring has the given size and holds `entries`, oldest first. -/
structure Represents (r : Ring α) (size : UInt32) (entries : List α) : Prop where
  size_eq : r.size = size
  sound : r.Sound
  contents_eq : r.contents = entries

section Represents

variable {r : Ring α} {size : UInt32} {entries : List α}

theorem Represents.occupancy_eq (h : r.Represents size entries) :
    r.occupancy = entries.length := by
  rw [← h.contents_eq, length_contents]

theorem Represents.length_le (h : r.Represents size entries) :
    entries.length ≤ size.toNat := by
  rw [← h.occupancy_eq, ← h.size_eq]
  exact h.sound

theorem represents_nil (hsize : r.size = size) (hempty : r.producer = r.consumer) :
    r.Represents size [] := by
  have hzero : r.occupancy = 0 := by simp [occupancy, hempty]
  refine ⟨hsize, ?_, ?_⟩
  · unfold Sound
    omega
  · rw [contents, hzero, window_zero]

/-- A batch that fits is enqueued as a whole. -/
theorem Represents.enqueueBatch (h : r.Represents size entries) (addrs : List α)
    (hfit : entries.length + addrs.length ≤ size.toNat) :
    (r.enqueueBatch addrs).2 = addrs.length ∧
      (r.enqueueBatch addrs).1.Represents size (entries ++ addrs) := by
  have hview := producerView_self h.sound
  have hcount : (r.enqueueBatch addrs).2 = addrs.length := by
    have hoccupancy := h.occupancy_eq
    unfold occupancy at hoccupancy
    rw [Ring.enqueueBatch, enqueueBatchSeeing_snd hview.fits, room, h.size_eq]
    omega
  refine ⟨hcount, h.size_eq, ?_, ?_⟩
  · unfold Sound
    rw [Ring.enqueueBatch, occupancy_enqueueBatchSeeing hview]
    exact occupancy_add_enqueued_le hview addrs
  · have hcontents := contents_enqueueBatchSeeing hview addrs
    change (r.enqueueBatch addrs).1.contents = _ at hcontents
    change _ = r.contents ++ addrs.take (r.enqueueBatch addrs).2 at hcontents
    rw [hcontents, hcount, List.take_length, h.contents_eq]

theorem Represents.produceTx (h : r.Represents size entries) (descs : List α)
    (hfit : entries.length + descs.length ≤ size.toNat) :
    (r.produceTx descs).2 = descs.length ∧
      (r.produceTx descs).1.Represents size (entries ++ descs) := by
  rw [Ring.produceTx, produceTxSeeing_eq]
  exact h.enqueueBatch descs hfit

/-- `dequeue_all` returns all entries and leaves the ring empty. -/
theorem Represents.dequeueAll (h : r.Represents size entries) :
    r.dequeueAll.2 = entries ∧ r.dequeueAll.1.Represents size [] := by
  have hview := consumerView_self r
  have hoccupancy : r.dequeueAll.1.occupancy = 0 := by
    rw [Ring.dequeueAll, occupancy_dequeueAllSeeing hview]
    exact Nat.sub_self _
  have hempty : r.dequeueAll.1.contents = [] := by
    rw [contents, hoccupancy, window_zero]
  refine ⟨?_, ?_, ?_, hempty⟩
  · have hcontents : r.dequeueAll.2 ++ r.dequeueAll.1.contents = r.contents :=
      contents_dequeueAllSeeing hview
    rw [← h.contents_eq, ← hcontents, hempty, List.append_nil]
  · rw [Ring.dequeueAll, size_dequeueAllSeeing, h.size_eq]
  · unfold Sound
    omega

theorem Represents.consumeRx (h : r.Represents size entries) :
    r.consumeRx.2 = entries ∧ r.consumeRx.1.Represents size [] := by
  rw [Ring.consumeRx, consumeRxSeeing_eq]
  exact h.dequeueAll

/-- The kernel takes the first entry of the list. -/
theorem Represents.kernelTake {entry : α} {r' : Ring α} (h : r.Represents size entries)
    (htake : r.kernelTake = some (entry, r')) :
    ∃ rest, entries = entry :: rest ∧ r'.Represents size rest := by
  unfold Ring.kernelTake at htake
  split at htake
  · cases htake
  · rename_i hne
    obtain ⟨rfl, rfl⟩ := Prod.mk.inj (Option.some.inj htake)
    have hpos : 0 < r.occupancy := by
      rw [Nat.pos_iff_ne_zero]
      intro hzero
      apply hne
      rw [← consumer_add_occupancy, hzero]
      simp
    have hrest : (r.producer - (r.consumer + 1)).toNat = r.occupancy - 1 :=
      toNat_sub_add_ofNat r.producer r.consumer 1 hpos
    have hsplit : r.contents = r.descs (r.consumer &&& r.mask) ::
        window r.mask r.descs (r.consumer + 1) (r.occupancy - 1) := by
      have hone : r.occupancy = 1 + (r.occupancy - 1) := by omega
      rw [contents, hone, window_add, ← hone]
      simp [window]
    refine ⟨_, h.contents_eq.symm.trans hsplit, h.size_eq, ?_, ?_⟩
    · have hsound := h.sound
      unfold Sound at hsound ⊢
      rw [occupancy, hrest]
      exact (Nat.sub_le _ _).trans hsound
    · rw [contents, occupancy, hrest]

/-- The kernel finds an entry exactly if there is one. -/
theorem Represents.kernelTake_eq_none (h : r.Represents size entries) :
    r.kernelTake = none ↔ entries = [] := by
  rw [← h.contents_eq]
  unfold Ring.kernelTake contents
  constructor
  · intro hnone
    split at hnone
    · rename_i heq
      have hzero : r.occupancy = 0 := by simp [occupancy, heq]
      rw [hzero, window_zero]
    · cases hnone
  · intro hempty
    have hzero : r.occupancy = 0 := by
      have hlength := congrArg List.length hempty
      simpa using hlength
    rw [if_pos]
    rw [← consumer_add_occupancy, hzero]
    simp

theorem Represents.exists_kernelTake (h : r.Represents size entries) (hpos : 0 < entries.length) :
    ∃ entry r', r.kernelTake = some (entry, r') := by
  cases htake : r.kernelTake with
  | none =>
      rw [h.kernelTake_eq_none.mp htake] at hpos
      cases hpos
  | some taken => exact ⟨taken.1, taken.2, rfl⟩

/-- A posted entry goes behind the others as long as there is room. -/
theorem Represents.kernelPost (h : r.Represents size entries)
    (hroom : entries.length < size.toNat) (entry : α) :
    (r.kernelPost entry).Represents size (entries ++ [entry]) := by
  obtain ⟨k, hk, hmask, hsize⟩ := r.exists_mask
  have hlength := h.occupancy_eq
  have hcap := r.size_le
  rw [← h.size_eq] at hroom
  have hoccupancy : (r.kernelPost entry).occupancy = r.occupancy + 1 := by
    unfold occupancy at hlength ⊢
    exact toNat_add_ofNat_sub r.producer r.consumer 1 (by omega)
  refine ⟨h.size_eq, ?_, ?_⟩
  · unfold Sound
    rw [hoccupancy]
    show r.occupancy + 1 ≤ r.size.toNat
    omega
  · have hstore := window_store hmask hk r.descs r.consumer r.occupancy [entry]
      (by rw [← hsize, List.length_singleton]; omega)
    rw [consumer_add_occupancy] at hstore
    rw [contents, hoccupancy, ← h.contents_eq]
    exact hstore

end Represents

end Ring

end RunPerf.Xdp
