import RunPerf.Net.Server
import RunPerf.Pacing

/-!
# The UDP client thread

A thread of `udp_client` owns 64 buffers, stamped once with its stream id.  In each turn
of its loop it stamps all of them with fresh sequence numbers and hands them to
`sendmmsg`, which sends the first few of them, possibly none; the numbers are used up in
any case.  What is sent is counted and paced.

A thread's state carries the shape of its buffers, so that `header_turn` can say once and
for all which headers a turn puts on the wire.
-/

namespace RunPerf.Net

open RunPerf.Lib RunPerf.Receive

/-- The length of every datagram of a client started with `len`. -/
def payloadLen (len : ℕ) : ℕ := max len hdr

/-- A client thread with its buffers, its sequence counter and its pacing. -/
structure UdpThread (len : ℕ) (sid : UInt64) where
  bufs : List (List UInt8)
  seq : UInt64
  pacer : Pacer
  bufs_length : bufs.length = batch
  buf_length : ∀ buf ∈ bufs, buf.length = payloadLen len
  buf_sid : ∀ buf ∈ bufs, buf.take 8 = toLeBytes sid

/-- Stamp the buffers with consecutive numbers, and the number after them. -/
def stampSeqs (seq : UInt64) : List (List UInt8) → List (List UInt8) × UInt64
  | [] => ([], seq)
  | buf :: rest =>
      let later := stampSeqs (seq + 1) rest
      (copyAt 8 (toLeBytes seq) buf :: later.1, later.2)

/-- What the outside decides in one turn: the result of `sendmmsg`, and what the clock
shows to the pacing. -/
structure SendTurn where
  ret : ℤ
  read : ℕ
  late : ℕ

theorem mem_stampSeqs {seq : UInt64} {bufs : List (List UInt8)} {buf : List UInt8}
    (h : buf ∈ (stampSeqs seq bufs).1) :
    ∃ old ∈ bufs, ∃ number, buf = copyAt 8 (toLeBytes number) old := by
  induction bufs generalizing seq with
  | nil => simp [stampSeqs] at h
  | cons first rest ih =>
      rcases List.mem_cons.mp h with rfl | hrest
      · exact ⟨first, List.mem_cons_self, seq, rfl⟩
      · obtain ⟨old, hold, number, heq⟩ := ih hrest
        exact ⟨old, List.mem_cons_of_mem _ hold, number, heq⟩

theorem length_stampSeqs (seq : UInt64) (bufs : List (List UInt8)) :
    (stampSeqs seq bufs).1.length = bufs.length := by
  induction bufs generalizing seq with
  | nil => rfl
  | cons first rest ih => simp [stampSeqs, ih]

theorem stampSeqs_snd (seq : UInt64) (bufs : List (List UInt8)) :
    (stampSeqs seq bufs).2 = seq + UInt64.ofNat bufs.length := by
  induction bufs generalizing seq with
  | nil => simp [stampSeqs]
  | cons first rest ih =>
      rw [stampSeqs, ih, List.length_cons, UInt64.ofNat_add, UInt64.add_assoc,
        UInt64.add_comm 1]
      rfl

namespace UdpThread

variable {len : ℕ} {sid : UInt64}

theorem hdr_le_payloadLen (len : ℕ) : 16 ≤ payloadLen len := Nat.le_max_right _ _

/-- A thread at the top of its loop, with zeroed buffers that carry its id. -/
def new (len : ℕ) (sid : UInt64) (now : ℕ) : UdpThread len sid where
  bufs := List.replicate batch (copyAt 0 (toLeBytes sid) (List.replicate (payloadLen len) 0))
  seq := 0
  pacer := ⟨0, now⟩
  bufs_length := List.length_replicate
  buf_length := by
    intro buf hbuf
    have hlen := hdr_le_payloadLen len
    rw [List.eq_of_mem_replicate hbuf, length_copyAt, List.length_replicate]
    simp only [length_toLeBytes, List.length_replicate]
    omega
  buf_sid := by
    intro buf hbuf
    rw [List.eq_of_mem_replicate hbuf, copyAt, List.take_zero, List.nil_append]
    exact List.take_left' (length_toLeBytes sid)

/-- The buffers as they are handed to `sendmmsg` in the next turn. -/
def stampedBufs (t : UdpThread len sid) : List (List UInt8) := (stampSeqs t.seq t.bufs).1

theorem length_stampedBufs (t : UdpThread len sid) : t.stampedBufs.length = batch := by
  rw [stampedBufs, length_stampSeqs, t.bufs_length]

theorem stampedBufs_shape (t : UdpThread len sid) {buf : List UInt8} (h : buf ∈ t.stampedBufs) :
    buf.length = payloadLen len ∧ buf.take 8 = toLeBytes sid := by
  obtain ⟨old, hold, number, rfl⟩ := mem_stampSeqs h
  have hlength := t.buf_length old hold
  have hlen := hdr_le_payloadLen len
  constructor
  · rw [length_copyAt, hlength]
    rw [length_toLeBytes]
    omega
  · have htake : (old.take 8).length = 8 := by
      rw [List.length_take]
      omega
    rw [copyAt, List.take_left' htake, t.buf_sid old hold]

/-- One turn of the send loop: stamp, send, count, pace.  Returns the thread, the
datagrams that went out and what was added to the counters. -/
def turn (ppsPerThread : UInt64) (t : UdpThread len sid) (outside : SendTurn) :
    UdpThread len sid × List Datagram × List CounterOp :=
  let bufs := t.stampedBufs
  let n := UInt64.ofNat outside.ret.toNat
  let pacer := if outside.ret > 0 then t.pacer.note n else t.pacer
  ({ bufs := bufs
     seq := (stampSeqs t.seq t.bufs).2
     pacer := pacer.pace ppsPerThread outside.read outside.late
     bufs_length := t.length_stampedBufs
     buf_length := fun _ h => (t.stampedBufs_shape h).1
     buf_sid := fun _ h => (t.stampedBufs_shape h).2 },
    bufs.take outside.ret.toNat,
    if outside.ret > 0 then
      [.packets n, .bytes (n * UInt64.ofNat (payloadLen len))]
    else [])

/-- The send loop over its turns, with the datagrams sent and the counter operations.  How
many turns there are is decided by the deadline. -/
def run (ppsPerThread : UInt64) (t : UdpThread len sid) :
    List SendTurn → UdpThread len sid × List Datagram × List CounterOp
  | [] => (t, [], [])
  | outside :: rest =>
      let first := t.turn ppsPerThread outside
      let later := first.1.run ppsPerThread rest
      (later.1, first.2.1 ++ later.2.1, first.2.2 ++ later.2.2)

/-- The datagrams a thread started with `len` and `sid` sends in these turns. -/
def sent (len : ℕ) (sid ppsPerThread : UInt64) (now : ℕ) (turns : List SendTurn) :
    List Datagram :=
  ((new len sid now).run ppsPerThread turns).2.1

end UdpThread

/-- A run of `udp_client`: its arguments, and for each thread when it started and what
the turns of its loop met. -/
structure UdpClient where
  threads : UInt64
  len : ℕ
  targetPps : UInt64
  start : UInt64 → ℕ
  turns : UInt64 → List SendTurn

namespace UdpClient

/-- The share of the target that a thread has, `0` for no limit. -/
def ppsPerThread (client : UdpClient) : UInt64 :=
  if client.targetPps = 0 then 0 else max (client.targetPps / client.threads) 1

/-- What thread `t` puts on the wire.  The stream id is the index of the thread. -/
def wire (client : UdpClient) (t : UInt64) : List Datagram :=
  if t < client.threads then
    UdpThread.sent client.len t client.ppsPerThread (client.start t) (client.turns t)
  else []

end UdpClient

/-! ## The headers on the wire -/

theorem header_copyAt {sid : UInt64} (number : UInt64) {buf : List UInt8}
    (hsid : buf.take 8 = toLeBytes sid) :
    header 0 (copyAt 8 (toLeBytes number) buf) = some (sid, number) := by
  rw [copyAt, hsid]
  exact header_stamped [] rfl sid number _

theorem header_stampSeqs {sid : UInt64} (seq : UInt64) {bufs : List (List UInt8)}
    (hsid : ∀ buf ∈ bufs, buf.take 8 = toLeBytes sid) (n : ℕ) :
    ((stampSeqs seq bufs).1.take n).filterMap (header 0) =
      (List.range (min n bufs.length)).map fun i => (sid, seq + UInt64.ofNat i) := by
  induction bufs generalizing seq n with
  | nil => simp [stampSeqs]
  | cons first rest ih =>
      cases n with
      | zero => simp
      | succ n =>
          have hfirst := header_copyAt seq (hsid first List.mem_cons_self)
          have hrest := ih (seq + 1) (fun b hb => hsid b (List.mem_cons_of_mem _ hb)) n
          rw [stampSeqs, List.take_succ_cons, List.filterMap_cons, hfirst, hrest,
            List.length_cons, Nat.add_min_add_right, List.range_succ_eq_map]
          simp [Function.comp_def, UInt64.ofNat_add, UInt64.add_assoc, UInt64.add_comm 1]

/-- The numbers a thread puts on the wire, given the results of `sendmmsg`: every turn
uses up 64 of them. -/
def sentSeqs (base : ℕ) : List ℤ → List ℕ
  | [] => []
  | ret :: rest => List.range' base ret.toNat ++ sentSeqs (base + batch) rest

namespace UdpThread

variable {len : ℕ} {sid : UInt64}

theorem header_turn (ppsPerThread : UInt64) (t : UdpThread len sid) (outside : SendTurn)
    (hret : outside.ret ≤ batch) :
    (t.turn ppsPerThread outside).2.1.filterMap (header 0) =
      (List.range outside.ret.toNat).map fun i => (sid, t.seq + UInt64.ofNat i) := by
  have hheader := header_stampSeqs t.seq t.buf_sid outside.ret.toNat
  have hmin : min outside.ret.toNat t.bufs.length = outside.ret.toNat := by
    rw [t.bufs_length]
    omega
  rw [hmin] at hheader
  exact hheader

/-- **What a thread puts on the wire**: its id with the numbers of `sentSeqs`. -/
theorem header_run (ppsPerThread : UInt64) (t : UdpThread len sid) (turns : List SendTurn)
    (hret : ∀ outside ∈ turns, outside.ret ≤ batch) (base : ℕ) (hseq : t.seq = UInt64.ofNat base) :
    (t.run ppsPerThread turns).2.1.filterMap (header 0) =
      (sentSeqs base (turns.map SendTurn.ret)).map fun number => (sid, UInt64.ofNat number) := by
  induction turns generalizing t base with
  | nil => rfl
  | cons outside rest ih =>
      have hfirst := t.header_turn ppsPerThread outside (hret outside List.mem_cons_self)
      have hnext : (t.turn ppsPerThread outside).1.seq = UInt64.ofNat (base + batch) := by
        show (stampSeqs t.seq t.bufs).2 = _
        rw [stampSeqs_snd, t.bufs_length, hseq, UInt64.ofNat_add]
      have hrest := ih (t.turn ppsPerThread outside).1
        (fun b hb => hret b (List.mem_cons_of_mem _ hb)) (base + batch) hnext
      rw [run, List.filterMap_append, hfirst, hrest, List.map_cons, sentSeqs, List.map_append,
        hseq]
      simp [List.range'_eq_map_range, Function.comp_def, UInt64.ofNat_add]

theorem header_sent (len : ℕ) (sid ppsPerThread : UInt64) (now : ℕ) (turns : List SendTurn)
    (hret : ∀ outside ∈ turns, outside.ret ≤ batch) :
    (sent len sid ppsPerThread now turns).filterMap (header 0) =
      (sentSeqs 0 (turns.map SendTurn.ret)).map fun number => (sid, UInt64.ofNat number) :=
  header_run ppsPerThread (new len sid now) turns hret 0 rfl

end UdpThread

/-! ## The numbers on the wire -/

theorem le_of_mem_sentSeqs {base number : ℕ} {results : List ℤ}
    (h : number ∈ sentSeqs base results) : base ≤ number := by
  induction results generalizing base with
  | nil => simp [sentSeqs] at h
  | cons ret rest ih =>
      rcases List.mem_append.mp h with hnow | hlater
      · exact (List.mem_range'_1.mp hnow).1
      · exact (Nat.le_add_right _ _).trans (ih hlater)

theorem lt_of_mem_sentSeqs {base number : ℕ} {results : List ℤ}
    (hret : ∀ ret ∈ results, ret ≤ batch) (h : number ∈ sentSeqs base results) :
    number < base + batch * results.length := by
  induction results generalizing base with
  | nil => simp [sentSeqs] at h
  | cons ret rest ih =>
      have hfirst := hret ret List.mem_cons_self
      rw [List.length_cons, Nat.mul_succ]
      rcases List.mem_append.mp h with hnow | hlater
      · have hlt := (List.mem_range'_1.mp hnow).2
        omega
      · have hlt := ih (fun r hr => hret r (List.mem_cons_of_mem _ hr)) hlater
        omega

theorem sentSeqs_increasing (base : ℕ) {results : List ℤ} (hret : ∀ ret ∈ results, ret ≤ batch) :
    (sentSeqs base results).Pairwise (· < ·) := by
  induction results generalizing base with
  | nil => exact List.Pairwise.nil
  | cons ret rest ih =>
      have hfirst := hret ret List.mem_cons_self
      rw [sentSeqs, List.pairwise_append]
      refine ⟨List.pairwise_lt_range', ih _ fun r hr => hret r (List.mem_cons_of_mem _ hr), ?_⟩
      intro x hx y hy
      have hlt := (List.mem_range'_1.mp hx).2
      have hle := le_of_mem_sentSeqs hy
      omega

theorem sentSeqs_eq_nil_iff (base : ℕ) (results : List ℤ) :
    sentSeqs base results = [] ↔ ∀ ret ∈ results, ret ≤ 0 := by
  induction results generalizing base with
  | nil => simp [sentSeqs]
  | cons ret rest ih =>
      rw [sentSeqs, List.append_eq_nil_iff, ih, List.forall_mem_cons]
      simp

theorem sentSeqs_append (base : ℕ) (first second : List ℤ) :
    sentSeqs base (first ++ second) =
      sentSeqs base first ++ sentSeqs (base + batch * first.length) second := by
  induction first generalizing base with
  | nil => rfl
  | cons ret rest ih =>
      rw [List.cons_append, sentSeqs, ih, sentSeqs, List.append_assoc, List.length_cons,
        Nat.mul_succ, Nat.add_assoc, Nat.add_comm batch]

end RunPerf.Net
