import Mathlib.Algebra.BigOperators.Group.Finset.Piecewise
import RunPerf.Lib.Bytes

/-!
# Loss from per-stream sequence gaps

Both receivers, `udp_server_worker` in `net.rs` and `rx_loop` in `sink.rs`, count
a packet the same way: add its length and one packet to the shared counters, and,
if it is long enough to carry a stream id and a sequence number, put the number
into `last_seq` and add the gap to the number that was there before.  They differ
only in where the sixteen bytes stand, which is the offset `off` here.

The receivers never read the shared counters, so what a receiver does to them is
the list of `fetch_add` operations it issues.  `apply_countPackets` sums such a
list up: bytes, packets, and the total of the gaps over the natural numbers,
reduced modulo `2 ^ 64` by the counter itself.

The gap at a packet depends only on the packets of its own stream, so the total
is a sum over streams (`gapTotal_eq_sum`).  What a stream contributes to it,
`streamGaps`, is the object of all later statements about loss.
-/

namespace RunPerf.Receive

open RunPerf.Lib

/-! ## The counters -/

/-- The shared counters; the atomics wrap at `2 ^ 64`. -/
structure Counters where
  bytes : UInt64
  packets : UInt64
  drops : UInt64
deriving DecidableEq, Repr

def Counters.zero : Counters := ⟨0, 0, 0⟩

/-- One `fetch_add` on a shared counter. -/
inductive CounterOp
  | bytes (n : UInt64)
  | packets (n : UInt64)
  | drops (n : UInt64)
deriving DecidableEq, Repr

/-- The effect of a `fetch_add`. -/
def Counters.apply (c : Counters) : CounterOp → Counters
  | .bytes n => { c with bytes := c.bytes + n }
  | .packets n => { c with packets := c.packets + n }
  | .drops n => { c with drops := c.drops + n }

/-- The effect of a list of operations, in order. -/
def Counters.applyAll (c : Counters) (ops : List CounterOp) : Counters :=
  ops.foldl Counters.apply c

theorem Counters.applyAll_append (c : Counters) (first second : List CounterOp) :
    c.applyAll (first ++ second) = (c.applyAll first).applyAll second :=
  List.foldl_append

/-! ## Counting a packet -/

/-- `last_seq: HashMap<u64, u64>`. -/
abbrev LastSeq := UInt64 → Option UInt64

def LastSeq.new : LastSeq := fun _ => none

/-- `last_seq.insert(sid, seq)` and the gap check on the value it returns. -/
def noteSeq (lastSeq : LastSeq) (sid seq : UInt64) : LastSeq × List CounterOp :=
  (Function.update lastSeq sid (some seq),
    match lastSeq sid with
    | some prev => if seq > prev + 1 then [.drops (seq - prev - 1)] else []
    | none => [])

/-- Count a packet of `n` bytes that stands at the start of `buf`; the stream id
and the sequence number are the sixteen bytes at `off`. -/
def countPacket (off : ℕ) (lastSeq : LastSeq) (buf : List UInt8) (n : ℕ) :
    LastSeq × List CounterOp :=
  let counted := [.bytes (UInt64.ofNat n), .packets 1]
  if n ≥ off + 16 then
    let sid := fromLeBytes ((buf.drop off).take 8)
    let seq := fromLeBytes ((buf.drop (off + 8)).take 8)
    let noted := noteSeq lastSeq sid seq
    (noted.1, counted ++ noted.2)
  else (lastSeq, counted)

/-- Count a list of packets, each standing alone in its buffer. -/
def countPackets (off : ℕ) (lastSeq : LastSeq) : List (List UInt8) → LastSeq × List CounterOp
  | [] => (lastSeq, [])
  | packet :: rest =>
      let first := countPacket off lastSeq packet packet.length
      let later := countPackets off first.1 rest
      (later.1, first.2 ++ later.2)

theorem countPackets_append (off : ℕ) (lastSeq : LastSeq) (first second : List (List UInt8)) :
    countPackets off lastSeq (first ++ second) =
      ((countPackets off (countPackets off lastSeq first).1 second).1,
        (countPackets off lastSeq first).2 ++
          (countPackets off (countPackets off lastSeq first).1 second).2) := by
  induction first generalizing lastSeq with
  | nil => simp [countPackets]
  | cons packet rest ih => simp [countPackets, ih]

/-! ## Gaps -/

/-- The stream id and the sequence number of a packet that carries them. -/
def header (off : ℕ) (packet : List UInt8) : Option (UInt64 × UInt64) :=
  if packet.length ≥ off + 16 then
    some (fromLeBytes ((packet.drop off).take 8), fromLeBytes ((packet.drop (off + 8)).take 8))
  else none

/-- The header that a sender stamps is the header a receiver finds. -/
theorem header_stamped {off : ℕ} (before : List UInt8) (hbefore : before.length = off)
    (sid seq : UInt64) (after : List UInt8) :
    header off (before ++ (toLeBytes sid ++ (toLeBytes seq ++ after))) = some (sid, seq) := by
  have hsid : (before ++ (toLeBytes sid ++ (toLeBytes seq ++ after))).drop off =
      toLeBytes sid ++ (toLeBytes seq ++ after) := List.drop_left' hbefore
  have hseq : (before ++ (toLeBytes sid ++ (toLeBytes seq ++ after))).drop (off + 8) =
      toLeBytes seq ++ after := by
    rw [← List.drop_drop, hsid]
    exact List.drop_left' (length_toLeBytes sid)
  rw [header, if_pos, hsid, hseq, List.take_left' (length_toLeBytes sid),
    List.take_left' (length_toLeBytes seq), fromLeBytes_toLeBytes, fromLeBytes_toLeBytes]
  simp only [List.length_append, length_toLeBytes]
  omega

/-- What one packet adds to the drops counter, given the last number of its stream. -/
def gap : Option UInt64 → UInt64 → ℕ
  | none, _ => 0
  | some prev, seq => if seq > prev + 1 then (seq - prev - 1).toNat else 0

/-- The gaps of a list of headers, over the natural numbers. -/
def gapTotal (lastSeq : LastSeq) : List (UInt64 × UInt64) → ℕ
  | [] => 0
  | (sid, seq) :: rest =>
      gap (lastSeq sid) seq + gapTotal (Function.update lastSeq sid (some seq)) rest

/-- The gaps of a single stream, given its last number. -/
def streamGaps (prev : Option UInt64) : List UInt64 → ℕ
  | [] => 0
  | seq :: rest => gap prev seq + streamGaps (some seq) rest

/-- The sequence numbers of one stream, in order of arrival. -/
def seqsOf (sid : UInt64) (headers : List (UInt64 × UInt64)) : List UInt64 :=
  (headers.filter fun h => h.1 = sid).map Prod.snd

theorem seqsOf_cons (sid : UInt64) (h : UInt64 × UInt64) (rest : List (UInt64 × UInt64)) :
    seqsOf sid (h :: rest) = if h.1 = sid then h.2 :: seqsOf sid rest else seqsOf sid rest := by
  unfold seqsOf
  by_cases hsid : h.1 = sid <;> simp [hsid]

/-- What a list of packets does to the counters. -/
def Counters.add (c : Counters) (bytes packets drops : ℕ) : Counters :=
  ⟨c.bytes + UInt64.ofNat bytes, c.packets + UInt64.ofNat packets, c.drops + UInt64.ofNat drops⟩

theorem Counters.add_add (c : Counters) (b p d b' p' d' : ℕ) :
    (c.add b p d).add b' p' d' = c.add (b + b') (p + p') (d + d') := by
  simp [Counters.add, UInt64.ofNat_add, UInt64.add_assoc]

/-- One packet adds its length, one, and its gap. -/
theorem apply_countPacket (off : ℕ) (lastSeq : LastSeq) (packet : List UInt8) (c : Counters) :
    c.applyAll (countPacket off lastSeq packet packet.length).2 =
      c.add packet.length 1 (gapTotal lastSeq (header off packet).toList) := by
  unfold countPacket header
  split
  · simp only [Counters.applyAll, noteSeq, List.cons_append, List.nil_append, List.foldl_cons,
      Option.toList_some, gapTotal, Nat.add_zero]
    split
    · split
      · rename_i hprev hgap
        simp [Counters.apply, Counters.add, gap, hprev, hgap]
      · rename_i hprev hgap
        simp [Counters.apply, Counters.add, gap, hprev, hgap]
    · rename_i hprev
      simp [Counters.apply, Counters.add, gap, hprev]
  · simp [Counters.applyAll, Counters.apply, Counters.add, gapTotal]

theorem countPacket_fst (off : ℕ) (lastSeq : LastSeq) (packet : List UInt8) :
    (countPacket off lastSeq packet packet.length).1 =
      match header off packet with
      | some (sid, seq) => Function.update lastSeq sid (some seq)
      | none => lastSeq := by
  unfold countPacket header
  split <;> rfl

/-- **What a list of packets adds to the counters**: the lengths, the number of
packets and the gaps. -/
theorem apply_countPackets (off : ℕ) (lastSeq : LastSeq) (packets : List (List UInt8))
    (c : Counters) :
    c.applyAll (countPackets off lastSeq packets).2 =
      c.add (packets.map List.length).sum packets.length
        (gapTotal lastSeq (packets.filterMap (header off))) := by
  induction packets generalizing lastSeq c with
  | nil => simp [countPackets, Counters.applyAll, Counters.add, gapTotal]
  | cons packet rest ih =>
      have hfirst := apply_countPacket off lastSeq packet c
      simp only [countPackets, Counters.applyAll, List.foldl_append] at hfirst ih ⊢
      rw [hfirst, ih, Counters.add_add, countPacket_fst]
      cases hheader : header off packet with
      | none => simp [hheader, gapTotal, Nat.add_comm]
      | some h => simp [hheader, gapTotal, Nat.add_comm]

/-- As long as `prev + 1` does not wrap, the gap is the truncated difference. -/
theorem gap_some {prev : UInt64} (hprev : prev.toNat + 1 < 2 ^ 64) (seq : UInt64) :
    gap (some prev) seq = seq.toNat - (prev.toNat + 1) := by
  have hseq := seq.toNat_lt
  have hsucc : (prev + 1).toNat = prev.toNat + 1 := by
    rw [UInt64.toNat_add, UInt64.toNat_one, Nat.mod_eq_of_lt hprev]
  simp only [gap, gt_iff_lt, UInt64.lt_iff_toNat_lt, hsucc]
  split
  · rw [UInt64.toNat_sub, UInt64.toNat_sub, UInt64.toNat_one]
    omega
  · omega

/-! ## The total is a sum over streams -/

theorem gapTotal_eq_sum (streams : Finset UInt64) (lastSeq : LastSeq)
    (headers : List (UInt64 × UInt64)) (hmem : ∀ h ∈ headers, h.1 ∈ streams) :
    gapTotal lastSeq headers =
      ∑ sid ∈ streams, streamGaps (lastSeq sid) (seqsOf sid headers) := by
  induction headers generalizing lastSeq with
  | nil => simp [gapTotal, seqsOf, streamGaps]
  | cons h rest ih =>
      obtain ⟨sid, seq⟩ := h
      have hsid : sid ∈ streams := hmem (sid, seq) List.mem_cons_self
      rw [gapTotal, ih _ fun h hh => hmem h (List.mem_cons_of_mem _ hh)]
      -- Only the stream of the first packet changes: it gains the gap.
      have hterm : ∀ other ∈ streams,
          streamGaps (lastSeq other) (seqsOf other ((sid, seq) :: rest)) =
            (if other = sid then gap (lastSeq sid) seq else 0) +
              streamGaps (Function.update lastSeq sid (some seq) other) (seqsOf other rest) := by
        intro other _
        rw [seqsOf_cons]
        by_cases heq : other = sid
        · subst heq
          simp [streamGaps]
        · simp [heq, Ne.symm heq]
      rw [Finset.sum_congr rfl hterm, Finset.sum_add_distrib, Finset.sum_ite_eq' streams sid,
        if_pos hsid]

end RunPerf.Receive
