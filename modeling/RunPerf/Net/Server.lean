import RunPerf.Lib.Interleave
import RunPerf.Receive.Gaps

/-!
# The UDP server worker

`udp_server_worker` receives batches of up to 64 datagrams with `recvmmsg` into 64
buffers that it reuses for ever, and counts each received message out of its
buffer.  A buffer keeps the bytes of older datagrams behind a shorter new one.

`run_eq_countPackets` removes the buffers and the batches from the picture: since a
message is only parsed within its own length, the operations a worker issues are
those of counting the datagrams one by one, cut to the buffer size.
-/

namespace RunPerf.Net

open RunPerf.Lib RunPerf.Receive

/-- The payload of a UDP datagram. -/
abbrev Datagram := List UInt8

/-- `BATCH`: the number of messages in an mmsg call. -/
def batch : ℕ := 64

/-- `HDR`: stream id and sequence number. -/
def hdr : ℕ := 16

/-- The size of a receive buffer for a server started with `len`: `udp_server` raises
`len` to `HDR`, the worker to 2048. -/
def bufSize (len : ℕ) : ℕ := max (max len hdr) 2048

/-- What one message of `recvmmsg` does to its buffer, and the `msg_len` it reports:
the datagram is cut to the buffer, the bytes behind it stay. -/
def recvInto (buf : List UInt8) (datagram : Datagram) : List UInt8 × ℕ :=
  (datagram.take buf.length ++ buf.drop datagram.length, min datagram.length buf.length)

/-- The state of one worker: its buffers and `last_seq`. -/
structure UdpWorker (len : ℕ) where
  bufs : List (List UInt8)
  lastSeq : LastSeq
  bufs_length : bufs.length = batch
  buf_length : ∀ buf ∈ bufs, buf.length = bufSize len

/-- The loop over the received messages: each is a buffer and its `msg_len`. -/
def countReceived (lastSeq : LastSeq) : List (List UInt8 × ℕ) → LastSeq × List CounterOp
  | [] => (lastSeq, [])
  | message :: rest =>
      let first := countPacket 0 lastSeq message.1 message.2
      let later := countReceived first.1 rest
      (later.1, first.2 ++ later.2)

theorem length_recvInto (buf : List UInt8) (datagram : Datagram) :
    (recvInto buf datagram).1.length = buf.length := by
  simp only [recvInto, List.length_append, List.length_take, List.length_drop]
  omega

namespace UdpWorker

variable {len : ℕ}

def new (len : ℕ) : UdpWorker len where
  bufs := List.replicate batch (List.replicate (bufSize len) 0)
  lastSeq := LastSeq.new
  bufs_length := List.length_replicate
  buf_length := by
    intro buf hbuf
    rw [List.eq_of_mem_replicate hbuf, List.length_replicate]

/-- One turn of the receive loop: `recvmmsg` fills one buffer for each datagram that
has arrived (none if it returned nothing), then the messages are counted. -/
def turn (w : UdpWorker len) (arrived : List Datagram) : UdpWorker len × List CounterOp :=
  let received := List.zipWith recvInto w.bufs arrived
  let counted := countReceived w.lastSeq received
  ({ bufs := received.map Prod.fst ++ w.bufs.drop received.length
     lastSeq := counted.1
     bufs_length := by
       have h := w.bufs_length
       simp only [received, List.length_append, List.length_map, List.length_drop,
         List.length_zipWith]
       omega
     buf_length := by
       intro buf hbuf
       rcases List.mem_append.mp hbuf with hnew | hold
       · obtain ⟨message, hmessage, rfl⟩ := List.mem_map.mp hnew
         obtain ⟨i, hi, rfl⟩ := List.mem_iff_getElem.mp hmessage
         rw [List.getElem_zipWith, length_recvInto]
         exact w.buf_length _ (List.getElem_mem _)
       · exact w.buf_length buf (List.mem_of_mem_drop hold) }, counted.2)

/-- The receive loop over the batches that `recvmmsg` returns. -/
def run (w : UdpWorker len) : List (List Datagram) → UdpWorker len × List CounterOp
  | [] => (w, [])
  | arrived :: rest =>
      let first := w.turn arrived
      let later := first.1.run rest
      (later.1, first.2 ++ later.2)

end UdpWorker

/-! ## Neither buffers nor batches matter -/

/-- A packet is only read within its own length. -/
theorem countPacket_congr {off n : ℕ} (lastSeq : LastSeq) {buf packet : List UInt8}
    (htake : buf.take n = packet) (hlength : packet.length = n) :
    countPacket off lastSeq buf n = countPacket off lastSeq packet packet.length := by
  unfold countPacket
  rw [hlength]
  split
  · rename_i hn
    have hword : ∀ k, k + 8 ≤ n → (buf.drop k).take 8 = (packet.drop k).take 8 := by
      intro k hk
      rw [← htake, List.drop_take, List.take_take, Nat.min_eq_left (by omega)]
    rw [hword off (by omega), hword (off + 8) (by omega)]
  · rfl

theorem length_take_eq_recvInto {size : ℕ} {buf : List UInt8} (hbuf : buf.length = size)
    (datagram : Datagram) : (datagram.take size).length = (recvInto buf datagram).2 := by
  simp [recvInto, hbuf, Nat.min_comm]

theorem take_recvInto {size : ℕ} {buf : List UInt8} (hbuf : buf.length = size)
    (datagram : Datagram) :
    (recvInto buf datagram).1.take (recvInto buf datagram).2 = datagram.take size := by
  rw [← length_take_eq_recvInto hbuf, recvInto, hbuf, List.take_left]

theorem countReceived_recvInto {size : ℕ} (lastSeq : LastSeq)
    (bufs : List (List UInt8)) (arrived : List Datagram) (hsize : ∀ buf ∈ bufs, buf.length = size)
    (hcount : arrived.length ≤ bufs.length) :
    countReceived lastSeq (List.zipWith recvInto bufs arrived) =
      countPackets 0 lastSeq (arrived.map fun datagram => datagram.take size) := by
  induction arrived generalizing lastSeq bufs with
  | nil => simp [countReceived, countPackets]
  | cons datagram rest ih =>
      cases bufs with
      | nil => simp at hcount
      | cons buf bufs =>
          have hbuf : buf.length = size := hsize buf List.mem_cons_self
          rw [List.zipWith_cons_cons, countReceived,
            countPacket_congr _ (take_recvInto hbuf datagram)
              (length_take_eq_recvInto hbuf datagram),
            ih _ _ (fun b hb => hsize b (List.mem_cons_of_mem _ hb)) (by simpa using hcount)]
          simp [countPackets]

namespace UdpWorker

variable {len : ℕ}

/-- **A worker counts the datagrams one by one**, whatever its buffers hold and
however the datagrams fall into batches. -/
theorem run_eq_countPackets (w : UdpWorker len) (batches : List (List Datagram))
    (hbatch : ∀ arrived ∈ batches, arrived.length ≤ batch) :
    ((w.run batches).1.lastSeq, (w.run batches).2) =
      countPackets 0 w.lastSeq
        (batches.flatten.map fun datagram => datagram.take (bufSize len)) := by
  induction batches generalizing w with
  | nil => rfl
  | cons arrived rest ih =>
      have hfirst : arrived.length ≤ w.bufs.length := by
        rw [w.bufs_length]
        exact hbatch arrived List.mem_cons_self
      have hcounted := countReceived_recvInto w.lastSeq w.bufs arrived w.buf_length hfirst
      have hrest := ih (w.turn arrived).1 fun b hb => hbatch b (List.mem_cons_of_mem _ hb)
      rw [List.flatten_cons, List.map_append, countPackets_append, ← hcounted]
      change _ = ((countPackets 0 (w.turn arrived).1.lastSeq _).1,
        (w.turn arrived).2 ++ (countPackets 0 (w.turn arrived).1.lastSeq _).2)
      rw [← hrest]
      rfl

end UdpWorker

/-- The buffer is large enough for the header: cutting a datagram to it does not
change whether there is one, or which. -/
theorem header_take_bufSize (len : ℕ) (datagram : Datagram) :
    header 0 (datagram.take (bufSize len)) = header 0 datagram := by
  have hsize : 2048 ≤ bufSize len := Nat.le_max_right _ _
  unfold header
  by_cases hlong : datagram.length ≥ 16
  · have hword : ∀ k, k + 8 ≤ 2048 →
        ((datagram.take (bufSize len)).drop k).take 8 = (datagram.drop k).take 8 := by
      intro k hk
      rw [List.drop_take, List.take_take, Nat.min_eq_left (by omega)]
    rw [if_pos (by rw [List.length_take]; omega), if_pos (by omega), hword _ (by omega),
      hword _ (by omega)]
  · rw [if_neg (by rw [List.length_take]; omega), if_neg (by omega)]

/-- What a worker adds to the counters, from any `last_seq`. -/
theorem UdpWorker.apply_run {len : ℕ} (w : UdpWorker len) (batches : List (List Datagram))
    (hbatch : ∀ arrived ∈ batches, arrived.length ≤ batch) (c : Counters) :
    c.applyAll (w.run batches).2 =
      c.add (batches.flatten.map fun datagram => min datagram.length (bufSize len)).sum
        batches.flatten.length (gapTotal w.lastSeq (batches.flatten.filterMap (header 0))) := by
  have hops := congrArg Prod.snd (w.run_eq_countPackets batches hbatch)
  simp only at hops
  rw [hops, apply_countPackets, List.filterMap_map, List.map_map, List.length_map]
  have hheader : (header 0 ∘ fun datagram : Datagram => datagram.take (bufSize len)) =
      header 0 := funext fun datagram => header_take_bufSize len datagram
  have hlength : (List.length ∘ fun datagram : Datagram => datagram.take (bufSize len)) =
      fun datagram => min datagram.length (bufSize len) := by
    funext datagram
    simp [Nat.min_comm]
  rw [hheader, hlength]

end RunPerf.Net
