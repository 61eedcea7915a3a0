import Mathlib.Algebra.Order.BigOperators.Group.Finset
import Mathlib.Data.Int.CardIntervalMod
import Mathlib.Data.UInt
import RunPerf.Lib.Machine

/-!
# The TCP test

A thread of `tcp_client` opens one connection and writes to it until the deadline; it counts what
the stream has accepted.  The server has a listener for each CPU.  Whichever of them accepts a
connection takes the next number from a shared counter and starts a reader for it, which is
pinned to the CPU of that number and counts what it takes from the stream, until the stream ends.

The kernel is a byte stream for each connection: it accepts any part of what is written and gives
out any part of what it has.  Every interleaving of the threads, the listeners, the readers and
the kernel is a run.

What is counted on either side is what went through the streams, up to the calls that have
returned and are not yet counted (`Counted`).  So the two sides agree when all is done, unless a
reader gave up on an error; and every run can be continued to that point (`exists_finished`).
-/

namespace RunPerf.Net.Tcp

open RunPerf.Lib

/-- The buffers of a writer and of a reader: 256 KiB. -/
def bufLen : ℕ := 256 * 1024

/-- A thread of `tcp_client`. -/
inductive Writer
  /-- Before `connect`. -/
  | start
  /-- Before the look at the deadline. -/
  | writing
  /-- `write` has returned and is not yet counted. -/
  | counting (n : ℕ)
  | done
deriving DecidableEq

/-- The server's end of a connection. -/
inductive Reader
  /-- There is no connection. -/
  | absent
  /-- Nobody has accepted it yet. -/
  | backlog
  /-- A listener has accepted it. -/
  | accepted
  /-- Its reader is before a `read`. -/
  | reading
  /-- `read` has returned and is not yet counted. -/
  | counting (n : ℕ)
  | done
deriving DecidableEq

/-- A thread of the client with its connection: how far the stream was written and read. -/
structure Flow where
  writer : Writer
  sent : ℕ
  received : ℕ
  reader : Reader

def Flow.idle : Flow := ⟨.start, 0, 0, .absent⟩

/-- What was written and is not yet counted. -/
def Flow.uncountedWrite (flow : Flow) : ℕ :=
  match flow.writer with
  | .counting n => n
  | _ => 0

/-- What was read and is not yet counted. -/
def Flow.uncountedRead (flow : Flow) : ℕ :=
  match flow.reader with
  | .counting n => n
  | _ => 0

/-- A connection that has a reader. -/
def Flow.Served (flow : Flow) : Prop :=
  match flow.reader with
  | .reading => True
  | .counting _ => True
  | .done => True
  | _ => False

/-- What happens to a flow. -/
inductive FlowEvent
  | connect
  | refuse
  | write (n : ℕ)
  | countWrite (n : ℕ)
  | stop
  | accept
  | spawn
  | read (n : ℕ)
  | countRead (n : ℕ)
  | eof
  | reset
deriving DecidableEq

inductive FlowStep (flow : Flow) : FlowEvent → Flow → Prop
  | connect (hwriter : flow.writer = .start) :
      FlowStep flow .connect { flow with writer := .writing, reader := .backlog }
  /-- `connect` fails and the thread ends. -/
  | refuse (hwriter : flow.writer = .start) :
      FlowStep flow .refuse { flow with writer := .done }
  | write {n : ℕ} (hwriter : flow.writer = .writing) (hpos : 0 < n) (hn : n ≤ bufLen) :
      FlowStep flow (.write n) { flow with writer := .counting n, sent := flow.sent + n }
  | countWrite {n : ℕ} (hwriter : flow.writer = .counting n) :
      FlowStep flow (.countWrite n) { flow with writer := .writing }
  /-- The deadline is over, or `write` fails or returns 0; the end of the thread closes the
  connection. -/
  | stop (hwriter : flow.writer = .writing) : FlowStep flow .stop { flow with writer := .done }
  | accept (hreader : flow.reader = .backlog) :
      FlowStep flow .accept { flow with reader := .accepted }
  | spawn (hreader : flow.reader = .accepted) :
      FlowStep flow .spawn { flow with reader := .reading }
  | read {n : ℕ} (hreader : flow.reader = .reading) (hpos : 0 < n) (hn : n ≤ bufLen)
      (hthere : flow.received + n ≤ flow.sent) :
      FlowStep flow (.read n) { flow with reader := .counting n, received := flow.received + n }
  | countRead {n : ℕ} (hreader : flow.reader = .counting n) :
      FlowStep flow (.countRead n) { flow with reader := .reading }
  /-- `read` returns 0: all is read and the connection is closed. -/
  | eof (hreader : flow.reader = .reading) (hall : flow.received = flow.sent)
      (hclosed : flow.writer = .done) : FlowStep flow .eof { flow with reader := .done }
  /-- `read` fails. -/
  | reset (hreader : flow.reader = .reading) : FlowStep flow .reset { flow with reader := .done }

namespace FlowEvent

/-- What is added to the counter of the client. -/
def toClient : FlowEvent → UInt64
  | .countWrite n => UInt64.ofNat n
  | _ => 0

/-- What is added to the counter of the server. -/
def toServer : FlowEvent → UInt64
  | .countRead n => UInt64.ofNat n
  | _ => 0

/-- No listener has to do with it. -/
def Own : FlowEvent → Prop
  | .accept => False
  | .spawn => False
  | _ => True

end FlowEvent

/-- The flows of the client's threads, the connection that each listener is busy with, both
counters, the counter `next` of the server, and the readers it has started, each with its
number. -/
structure State where
  flows : ℕ → Flow
  listeners : ℕ → Option ℕ
  clientBytes : UInt64
  serverBytes : UInt64
  next : UInt64
  readers : List (ℕ × UInt64)

/-- A flow, by its thread, and what happens to it. -/
abbrev Event := ℕ × FlowEvent

inductive Step (threads workers : ℕ) (s : State) : Event → State → Prop
  | own {t : ℕ} {event : FlowEvent} {flow : Flow} (ht : t < threads) (hown : event.Own)
      (hflow : FlowStep (s.flows t) event flow) :
      Step threads workers s (t, event)
        { s with
            flows := Function.update s.flows t flow
            clientBytes := s.clientBytes + event.toClient
            serverBytes := s.serverBytes + event.toServer }
  | accept {w t : ℕ} {flow : Flow} (ht : t < threads) (hw : w < workers)
      (hidle : s.listeners w = none) (hflow : FlowStep (s.flows t) .accept flow) :
      Step threads workers s (t, .accept)
        { s with
            flows := Function.update s.flows t flow
            listeners := Function.update s.listeners w (some t) }
  /-- The listener takes the next number and starts the reader. -/
  | spawn {w t : ℕ} {flow : Flow} (ht : t < threads) (hbusy : s.listeners w = some t)
      (hflow : FlowStep (s.flows t) .spawn flow) :
      Step threads workers s (t, .spawn)
        { s with
            flows := Function.update s.flows t flow
            listeners := Function.update s.listeners w none
            next := s.next + 1
            readers := s.readers ++ [(t, s.next)] }

def started : State := ⟨fun _ => .idle, fun _ => none, 0, 0, 0, []⟩

def machine (threads workers : ℕ) : Machine State Event where
  Init s := s = started
  Step := Step threads workers

/-- The flow behind an event, if it can happen. -/
def Flow.next (flow : Flow) : FlowEvent → Option Flow
  | .connect =>
      if flow.writer = .start then some { flow with writer := .writing, reader := .backlog }
      else none
  | .refuse => if flow.writer = .start then some { flow with writer := .done } else none
  | .write n =>
      if flow.writer = .writing ∧ 0 < n ∧ n ≤ bufLen then
        some { flow with writer := .counting n, sent := flow.sent + n }
      else none
  | .countWrite n =>
      if flow.writer = .counting n then some { flow with writer := .writing } else none
  | .stop => if flow.writer = .writing then some { flow with writer := .done } else none
  | .accept => if flow.reader = .backlog then some { flow with reader := .accepted } else none
  | .spawn => if flow.reader = .accepted then some { flow with reader := .reading } else none
  | .read n =>
      if flow.reader = .reading ∧ 0 < n ∧ n ≤ bufLen ∧ flow.received + n ≤ flow.sent then
        some { flow with reader := .counting n, received := flow.received + n }
      else none
  | .countRead n =>
      if flow.reader = .counting n then some { flow with reader := .reading } else none
  | .eof =>
      if flow.reader = .reading ∧ flow.received = flow.sent ∧ flow.writer = .done then
        some { flow with reader := .done }
      else none
  | .reset => if flow.reader = .reading then some { flow with reader := .done } else none

theorem flowStep_of_next {flow flow' : Flow} {event : FlowEvent}
    (h : flow.next event = some flow') : FlowStep flow event flow' := by
  cases event with
  | connect =>
      obtain ⟨hwriter, rfl⟩ := by simpa [Flow.next] using h
      exact .connect hwriter
  | refuse =>
      obtain ⟨hwriter, rfl⟩ := by simpa [Flow.next] using h
      exact .refuse hwriter
  | write n =>
      obtain ⟨⟨hwriter, hpos, hn⟩, rfl⟩ := by simpa [Flow.next] using h
      exact .write hwriter hpos hn
  | countWrite n =>
      obtain ⟨hwriter, rfl⟩ := by simpa [Flow.next] using h
      exact .countWrite hwriter
  | stop =>
      obtain ⟨hwriter, rfl⟩ := by simpa [Flow.next] using h
      exact .stop hwriter
  | accept =>
      obtain ⟨hreader, rfl⟩ := by simpa [Flow.next] using h
      exact .accept hreader
  | spawn =>
      obtain ⟨hreader, rfl⟩ := by simpa [Flow.next] using h
      exact .spawn hreader
  | read n =>
      obtain ⟨⟨hreader, hpos, hn, hthere⟩, rfl⟩ := by simpa [Flow.next] using h
      exact .read hreader hpos hn hthere
  | countRead n =>
      obtain ⟨hreader, rfl⟩ := by simpa [Flow.next] using h
      exact .countRead hreader
  | eof =>
      obtain ⟨⟨hreader, hall, hclosed⟩, rfl⟩ := by simpa [Flow.next] using h
      exact .eof hreader hall hclosed
  | reset =>
      obtain ⟨hreader, rfl⟩ := by simpa [Flow.next] using h
      exact .reset hreader

/-- The state behind an event, if it can happen.  An idle listener accepts, the first of them. -/
def next (threads workers : ℕ) (s : State) (event : Event) : Option State := do
  let flow ← (s.flows event.1).next event.2
  guard (event.1 < threads)
  match event.2 with
  | .accept =>
      let w ← (List.range workers).find? fun w => s.listeners w = none
      return { s with
        flows := Function.update s.flows event.1 flow
        listeners := Function.update s.listeners w (some event.1) }
  | .spawn =>
      let w ← (List.range workers).find? fun w => s.listeners w = some event.1
      return { s with
        flows := Function.update s.flows event.1 flow
        listeners := Function.update s.listeners w none
        next := s.next + 1
        readers := s.readers ++ [(event.1, s.next)] }
  | own =>
      return { s with
        flows := Function.update s.flows event.1 flow
        clientBytes := s.clientBytes + own.toClient
        serverBytes := s.serverBytes + own.toServer }

theorem step_of_next {threads workers : ℕ} {s s' : State} {event : Event}
    (h : next threads workers s event = some s') : Step threads workers s event s' := by
  obtain ⟨t, own⟩ := event
  simp only [next, Option.bind_eq_bind, Option.bind_eq_some_iff] at h
  obtain ⟨flow, hflow, ⟨⟩, hguard, hrest⟩ := h
  have ht : t < threads := by
    by_contra hle
    simp [guard, hle] at hguard
  have hflow := flowStep_of_next hflow
  cases own with
  | accept =>
      obtain ⟨w, hw, hs⟩ := Option.bind_eq_some_iff.mp hrest
      obtain rfl := Option.some.inj hs
      have hlt := List.mem_range.mp (List.mem_of_find?_eq_some hw)
      exact .accept ht hlt (by simpa using List.find?_some hw) hflow
  | spawn =>
      obtain ⟨w, hw, hs⟩ := Option.bind_eq_some_iff.mp hrest
      obtain rfl := Option.some.inj hs
      exact .spawn ht (by simpa using List.find?_some hw) hflow
  | connect => exact Option.some.inj hrest ▸ .own ht trivial hflow
  | refuse => exact Option.some.inj hrest ▸ .own ht trivial hflow
  | write n => exact Option.some.inj hrest ▸ .own ht trivial hflow
  | countWrite n => exact Option.some.inj hrest ▸ .own ht trivial hflow
  | stop => exact Option.some.inj hrest ▸ .own ht trivial hflow
  | read n => exact Option.some.inj hrest ▸ .own ht trivial hflow
  | countRead n => exact Option.some.inj hrest ▸ .own ht trivial hflow
  | eof => exact Option.some.inj hrest ▸ .own ht trivial hflow
  | reset => exact Option.some.inj hrest ▸ .own ht trivial hflow

theorem run_of_next {threads workers : ℕ} {trace : List Event} {s : State}
    (h : trace.foldlM (next threads workers) started = some s) :
    (machine threads workers).Run trace s :=
  ⟨started, rfl, .of_foldlM (fun _ _ _ => step_of_next) h⟩

/-! ## Single flows -/

section Flows

variable {flow flow' : Flow} {event : FlowEvent}

/-- What holds of every flow. -/
structure FlowOk (flow : Flow) : Prop where
  received_le : flow.received ≤ flow.sent
  absent : flow.reader = .absent → flow.sent = 0 ∧ (flow.writer = .start ∨ flow.writer = .done)
  start : flow.writer = .start → flow.reader = .absent
  small : flow.uncountedWrite ≤ bufLen
  written : flow.uncountedWrite ≤ flow.sent
  taken : flow.uncountedRead ≤ flow.received

theorem flowOk_idle : FlowOk .idle :=
  ⟨le_rfl, fun _ => ⟨rfl, .inl rfl⟩, fun _ => rfl, Nat.zero_le _, Nat.zero_le _, Nat.zero_le _⟩

theorem flowOk_step (h : FlowOk flow) (hstep : FlowStep flow event flow') : FlowOk flow' := by
  obtain ⟨hle, habsent, hstart, hsmall, hwritten, htaken⟩ := h
  have hpast (hreader : flow.reader ≠ .absent) {P : Prop} : flow.writer = .start → P :=
    fun hs => absurd (hstart hs) hreader
  cases hstep with
  | connect hwriter =>
      exact ⟨hle, by simp, by simp, Nat.zero_le _, Nat.zero_le _, Nat.zero_le _⟩
  | refuse hwriter =>
      exact ⟨hle, fun habs => ⟨(habsent habs).1, .inr rfl⟩, by simp, Nat.zero_le _,
        Nat.zero_le _, htaken⟩
  | write hwriter hpos hn =>
      refine ⟨hle.trans (Nat.le_add_right _ _), fun habs => ?_, by simp, hn,
        Nat.le_add_left _ _, htaken⟩
      simpa [hwriter] using (habsent habs).2
  | countWrite hwriter =>
      refine ⟨hle, fun habs => ?_, by simp, Nat.zero_le _, Nat.zero_le _, htaken⟩
      simpa [hwriter] using (habsent habs).2
  | stop hwriter =>
      exact ⟨hle, fun habs => ⟨(habsent habs).1, .inr rfl⟩, by simp, Nat.zero_le _,
        Nat.zero_le _, htaken⟩
  | accept hreader =>
      exact ⟨hle, by simp, hpast (by simp [hreader]), hsmall, hwritten, Nat.zero_le _⟩
  | spawn hreader =>
      exact ⟨hle, by simp, hpast (by simp [hreader]), hsmall, hwritten, Nat.zero_le _⟩
  | read hreader hpos hn hthere =>
      exact ⟨hthere, by simp, hpast (by simp [hreader]), hsmall, hwritten, Nat.le_add_left _ _⟩
  | countRead hreader =>
      exact ⟨hle, by simp, hpast (by simp [hreader]), hsmall, hwritten, Nat.zero_le _⟩
  | eof hreader hall hclosed =>
      exact ⟨hle, by simp, hpast (by simp [hreader]), hsmall, hwritten, Nat.zero_le _⟩
  | reset hreader =>
      exact ⟨hle, by simp, hpast (by simp [hreader]), hsmall, hwritten, Nat.zero_le _⟩

/-- What the client counts in a step is what it has less to count, or what it did not write. -/
theorem FlowStep.toClient_add (hstep : FlowStep flow event flow') :
    event.toClient + UInt64.ofNat (flow'.uncountedWrite + flow.sent) =
      UInt64.ofNat (flow.uncountedWrite + flow'.sent) := by
  cases hstep with
  | write hwriter hpos hn =>
      simp [FlowEvent.toClient, Flow.uncountedWrite, hwriter, Nat.add_comm]
  | countWrite hwriter =>
      simp [FlowEvent.toClient, Flow.uncountedWrite, hwriter, UInt64.ofNat_add]
  | connect hwriter => simp [FlowEvent.toClient, Flow.uncountedWrite, hwriter]
  | refuse hwriter => simp [FlowEvent.toClient, Flow.uncountedWrite, hwriter]
  | stop hwriter => simp [FlowEvent.toClient, Flow.uncountedWrite, hwriter]
  | accept hreader => simp [FlowEvent.toClient, Flow.uncountedWrite]
  | spawn hreader => simp [FlowEvent.toClient, Flow.uncountedWrite]
  | read hreader hpos hn hthere => simp [FlowEvent.toClient, Flow.uncountedWrite]
  | countRead hreader => simp [FlowEvent.toClient, Flow.uncountedWrite]
  | eof hreader hall hclosed => simp [FlowEvent.toClient, Flow.uncountedWrite]
  | reset hreader => simp [FlowEvent.toClient, Flow.uncountedWrite]

theorem FlowStep.toServer_add (hstep : FlowStep flow event flow') (h : FlowOk flow) :
    event.toServer + UInt64.ofNat (flow'.uncountedRead + flow.received) =
      UInt64.ofNat (flow.uncountedRead + flow'.received) := by
  cases hstep with
  | read hreader hpos hn hthere =>
      simp [FlowEvent.toServer, Flow.uncountedRead, hreader, Nat.add_comm]
  | countRead hreader =>
      simp [FlowEvent.toServer, Flow.uncountedRead, hreader, UInt64.ofNat_add]
  | connect hwriter => simp [FlowEvent.toServer, Flow.uncountedRead, h.start hwriter]
  | refuse hwriter => simp [FlowEvent.toServer, Flow.uncountedRead]
  | write hwriter hpos hn => simp [FlowEvent.toServer, Flow.uncountedRead]
  | countWrite hwriter => simp [FlowEvent.toServer, Flow.uncountedRead]
  | stop hwriter => simp [FlowEvent.toServer, Flow.uncountedRead]
  | accept hreader => simp [FlowEvent.toServer, Flow.uncountedRead, hreader]
  | spawn hreader => simp [FlowEvent.toServer, Flow.uncountedRead, hreader]
  | eof hreader hall hclosed => simp [FlowEvent.toServer, Flow.uncountedRead, hreader]
  | reset hreader => simp [FlowEvent.toServer, Flow.uncountedRead, hreader]

/-- Only the listeners make a connection accepted or served. -/
theorem FlowStep.own_reader (hstep : FlowStep flow event flow') (h : FlowOk flow)
    (hown : event.Own) :
    (flow'.reader = .accepted ↔ flow.reader = .accepted) ∧ (flow'.Served ↔ flow.Served) := by
  cases hstep with
  | connect hwriter => simp [Flow.Served, h.start hwriter]
  | refuse hwriter => simp [Flow.Served]
  | write hwriter hpos hn => simp [Flow.Served]
  | countWrite hwriter => simp [Flow.Served]
  | stop hwriter => simp [Flow.Served]
  | accept hreader => exact hown.elim
  | spawn hreader => exact hown.elim
  | read hreader hpos hn hthere => simp [Flow.Served, hreader]
  | countRead hreader => simp [Flow.Served, hreader]
  | eof hreader hall hclosed => simp [Flow.Served, hreader]
  | reset hreader => simp [Flow.Served, hreader]

/-- A flow ends on its own only when all is read. -/
theorem FlowStep.whole (hstep : FlowStep flow event flow') (hreset : event ≠ .reset)
    (h : flow.reader = .done → flow.received = flow.sent ∧ flow.writer = .done) :
    flow'.reader = .done → flow'.received = flow'.sent ∧ flow'.writer = .done := by
  cases hstep with
  | connect hwriter => simp
  | refuse hwriter => exact fun hdone => ⟨(h hdone).1, rfl⟩
  | write hwriter hpos hn => exact fun hdone => by simpa [hwriter] using (h hdone).2
  | countWrite hwriter => exact fun hdone => by simpa [hwriter] using (h hdone).2
  | stop hwriter => exact fun hdone => ⟨(h hdone).1, rfl⟩
  | accept hreader => simp
  | spawn hreader => simp
  | read hreader hpos hn hthere => simp
  | countRead hreader => simp
  | eof hreader hall hclosed => exact fun _ => ⟨hall, hclosed⟩
  | reset hreader => exact absurd rfl hreset

end Flows

/-! ## All flows -/

/-- A sum over the flows of the client's threads. -/
def total (threads : ℕ) (f : Flow → ℕ) (flows : ℕ → Flow) : ℕ :=
  ∑ t ∈ Finset.range threads, f (flows t)

theorem total_update {threads t : ℕ} (ht : t < threads) (f : Flow → ℕ) (flows : ℕ → Flow)
    (flow : Flow) :
    total threads f (Function.update flows t flow) + f (flows t) =
      total threads f flows + f flow := by
  have hmem := Finset.mem_range.mpr ht
  have hrest : ∑ i ∈ (Finset.range threads).erase t, f (Function.update flows t flow i) =
      ∑ i ∈ (Finset.range threads).erase t, f (flows i) := by
    refine Finset.sum_congr rfl fun i hi => ?_
    rw [Function.update_of_ne (Finset.ne_of_mem_erase hi)]
  unfold total
  rw [← Finset.add_sum_erase _ _ hmem, ← Finset.add_sum_erase _ (fun i => f (flows i)) hmem, hrest,
    Function.update_self]
  omega

/-- A counter is what has gone through, up to what is not yet counted. -/
def Counted (threads : ℕ) (bytes : UInt64) (uncounted through : Flow → ℕ) (flows : ℕ → Flow) :
    Prop :=
  bytes + UInt64.ofNat (total threads uncounted flows) =
    UInt64.ofNat (total threads through flows)

theorem Counted.update {threads t : ℕ} {bytes more : UInt64} {uncounted through : Flow → ℕ}
    {flows : ℕ → Flow} {flow : Flow} (h : Counted threads bytes uncounted through flows)
    (ht : t < threads) (hmore : more + UInt64.ofNat (uncounted flow + through (flows t)) =
      UInt64.ofNat (uncounted (flows t) + through flow)) :
    Counted threads (bytes + more) uncounted through (Function.update flows t flow) := by
  have huncounted := congrArg UInt64.ofNat (total_update ht uncounted flows flow)
  have hthrough := congrArg UInt64.ofNat (total_update ht through flows flow)
  unfold Counted at *
  simp only [UInt64.ofNat_add] at hmore huncounted hthrough
  -- The old values of the flow are added on both sides, because the totals change by a
  -- difference and there is none between words.
  apply add_right_cancel
    (b := UInt64.ofNat (uncounted (flows t)) + UInt64.ofNat (through (flows t)))
  calc bytes + more + UInt64.ofNat (total threads uncounted (Function.update flows t flow)) +
        (UInt64.ofNat (uncounted (flows t)) + UInt64.ofNat (through (flows t)))
      = bytes + more + (UInt64.ofNat (total threads uncounted (Function.update flows t flow)) +
          UInt64.ofNat (uncounted (flows t))) + UInt64.ofNat (through (flows t)) := by abel
    _ = (bytes + UInt64.ofNat (total threads uncounted flows)) +
          (more + (UInt64.ofNat (uncounted flow) + UInt64.ofNat (through (flows t)))) := by
        rw [huncounted]
        abel
    _ = (UInt64.ofNat (total threads through flows) + UInt64.ofNat (through flow)) +
          UInt64.ofNat (uncounted (flows t)) := by
        rw [h, hmore]
        abel
    _ = UInt64.ofNat (total threads through (Function.update flows t flow)) +
          (UInt64.ofNat (uncounted (flows t)) + UInt64.ofNat (through (flows t))) := by
        rw [← hthrough]
        abel

/-- The listeners and the readers. -/
structure Listening (s : State) : Prop where
  held : ∀ t, (s.flows t).reader = .accepted ↔ ∃ w, s.listeners w = some t
  single : ∀ w w' t, s.listeners w = some t → s.listeners w' = some t → w = w'
  served : ∀ t, t ∈ s.readers.map Prod.fst ↔ (s.flows t).Served
  nodup : (s.readers.map Prod.fst).Nodup
  numbers : s.readers.map Prod.snd = (List.range s.readers.length).map UInt64.ofNat
  next : s.next = UInt64.ofNat s.readers.length

structure Inv (threads : ℕ) (trace : List Event) (s : State) : Prop where
  flow : ∀ t, FlowOk (s.flows t)
  outside : ∀ t, threads ≤ t → s.flows t = .idle
  listening : Listening s
  client : Counted threads s.clientBytes Flow.uncountedWrite Flow.sent s.flows
  server : Counted threads s.serverBytes Flow.uncountedRead Flow.received s.flows
  whole : (∀ t, (t, .reset) ∉ trace) → ∀ t, (s.flows t).reader = .done →
    (s.flows t).received = (s.flows t).sent ∧ (s.flows t).writer = .done

theorem inv_started (threads : ℕ) : Inv threads [] started where
  flow _ := flowOk_idle
  outside _ _ := rfl
  listening := {
    held := fun t => by simp [started, Flow.idle]
    single := fun w w' t h => by simp [started] at h
    served := fun t => by simp [started, Flow.Served, Flow.idle]
    nodup := List.nodup_nil
    numbers := rfl
    next := rfl }
  client := by simp [Counted, total, started, Flow.idle, Flow.uncountedWrite]
  server := by simp [Counted, total, started, Flow.idle, Flow.uncountedRead]
  whole _ t hdone := by simp [started, Flow.idle] at hdone

section Steps

variable {threads workers : ℕ} {trace : List Event} {s : State} {t : ℕ} {event : FlowEvent}
  {flow : Flow}

theorem forall_update {P : Flow → Prop} {flows : ℕ → Flow} (h : ∀ i, P (flows i)) (hflow : P flow) :
    ∀ i, P (Function.update flows t flow i) := by
  intro i
  by_cases hi : i = t
  · subst hi
    rwa [Function.update_self]
  · rw [Function.update_of_ne hi]
    exact h i

/-- What a step of a flow keeps, whoever else is part of it. -/
theorem Inv.flow_step (h : Inv threads trace s) (ht : t < threads)
    (hflow : FlowStep (s.flows t) event flow) {next : State}
    (hflows : next.flows = Function.update s.flows t flow)
    (hclient : next.clientBytes = s.clientBytes + event.toClient)
    (hserver : next.serverBytes = s.serverBytes + event.toServer) (hlistening : Listening next) :
    Inv threads (trace ++ [(t, event)]) next := by
  refine ⟨?_, ?_, hlistening, ?_, ?_, ?_⟩
  · rw [hflows]
    exact forall_update h.flow (flowOk_step (h.flow t) hflow)
  · intro i hi
    rw [hflows, Function.update_of_ne (by omega)]
    exact h.outside i hi
  · rw [hflows, hclient]
    exact h.client.update ht hflow.toClient_add
  · rw [hflows, hserver]
    exact h.server.update ht (hflow.toServer_add (h.flow t))
  · intro hnone
    have hbefore := h.whole fun i hi => hnone i (List.mem_append_left _ hi)
    have hreset : event ≠ .reset := by
      rintro rfl
      exact hnone t (by simp)
    rw [hflows]
    exact forall_update (P := fun flow => flow.reader = .done →
      flow.received = flow.sent ∧ flow.writer = .done) hbefore (hflow.whole hreset (hbefore t))

theorem Listening.own (h : Listening s) (hok : FlowOk (s.flows t)) (hown : event.Own)
    (hflow : FlowStep (s.flows t) event flow) {next : State}
    (hflows : next.flows = Function.update s.flows t flow)
    (hlisteners : next.listeners = s.listeners) (hnext : next.next = s.next)
    (hreaders : next.readers = s.readers) : Listening next := by
  have hreader : ∀ i, ((next.flows i).reader = .accepted ↔ (s.flows i).reader = .accepted) ∧
      ((next.flows i).Served ↔ (s.flows i).Served) := by
    intro i
    rw [hflows]
    by_cases hi : i = t
    · subst hi
      rw [Function.update_self]
      exact hflow.own_reader hok hown
    · rw [Function.update_of_ne hi]
      exact ⟨Iff.rfl, Iff.rfl⟩
  refine ⟨?_, ?_, ?_, ?_, ?_, ?_⟩
  · intro i
    rw [(hreader i).1, hlisteners]
    exact h.held i
  · rw [hlisteners]
    exact h.single
  · intro i
    rw [(hreader i).2, hreaders]
    exact h.served i
  · rw [hreaders]
    exact h.nodup
  · rw [hreaders]
    exact h.numbers
  · rw [hnext, hreaders]
    exact h.next

/-- A listener that neither held a connection nor holds it now does not matter to who holds it. -/
theorem exists_update_listener {listeners : ℕ → Option ℕ} {w i : ℕ} {held : Option ℕ}
    (hbefore : listeners w ≠ some i) (hafter : held ≠ some i) :
    (∃ w', Function.update listeners w held w' = some i) ↔ ∃ w', listeners w' = some i := by
  constructor
  · rintro ⟨w', hw'⟩
    rw [Function.update_apply] at hw'
    split at hw'
    · exact absurd hw' hafter
    · exact ⟨w', hw'⟩
  · rintro ⟨w', hw'⟩
    refine ⟨w', ?_⟩
    rw [Function.update_of_ne ?_]
    · exact hw'
    · rintro rfl
      exact hbefore hw'

theorem Listening.accept (h : Listening s) {w : ℕ} (hidle : s.listeners w = none)
    (hreader : (s.flows t).reader = .backlog) :
    Listening { s with
      flows := Function.update s.flows t { s.flows t with reader := .accepted }
      listeners := Function.update s.listeners w (some t) } := by
  -- Nobody holds a connection that is still in the backlog.
  have hnew : ∀ w', s.listeners w' ≠ some t := by
    intro w' hw'
    have haccepted := (h.held t).mpr ⟨w', hw'⟩
    rw [hreader] at haccepted
    cases haccepted
  refine ⟨?_, ?_, ?_, h.nodup, h.numbers, h.next⟩
  · intro i
    by_cases hi : i = t
    · subst hi
      simp only [Function.update_self, true_iff]
      exact ⟨w, Function.update_self _ _ _⟩
    · simp only [Function.update_of_ne hi, h.held i]
      exact (exists_update_listener (by simp [hidle]) (by simpa using Ne.symm hi)).symm
  · intro a b i ha hb
    simp only [Function.update_apply] at ha hb
    split at ha
    · split at hb
      · simp_all
      · exact absurd (hb.trans ha.symm) (hnew b)
    · split at hb
      · exact absurd (ha.trans hb.symm) (hnew a)
      · exact h.single a b i ha hb
  · intro i
    rw [h.served i]
    by_cases hi : i = t
    · subst hi
      simp [Flow.Served, hreader]
    · simp [hi]

theorem Listening.spawn (h : Listening s) {w : ℕ} (hbusy : s.listeners w = some t) :
    Listening { s with
      flows := Function.update s.flows t { s.flows t with reader := .reading }
      listeners := Function.update s.listeners w none
      next := s.next + 1
      readers := s.readers ++ [(t, s.next)] } := by
  have hreader : (s.flows t).reader = .accepted := (h.held t).mpr ⟨w, hbusy⟩
  have hnew : t ∉ s.readers.map Prod.fst := by
    rw [h.served]
    simp [Flow.Served, hreader]
  refine ⟨?_, ?_, ?_, ?_, ?_, ?_⟩
  · intro i
    by_cases hi : i = t
    · subst hi
      simp only [Function.update_self, false_iff, not_exists, reduceCtorEq]
      intro w' hw'
      by_cases hw : w' = w
      · subst hw
        simp at hw'
      · rw [Function.update_of_ne hw] at hw'
        exact hw (h.single w' w i hw' hbusy)
    · simp only [Function.update_of_ne hi, h.held i]
      exact (exists_update_listener (by simpa [hbusy] using Ne.symm hi) (by simp)).symm
  · intro a b i ha hb
    simp only [Function.update_apply] at ha hb
    split at ha
    · cases ha
    · split at hb
      · cases hb
      · exact h.single a b i ha hb
  · intro i
    rw [List.map_append, List.mem_append, h.served i]
    by_cases hi : i = t
    · subst hi
      simp [Flow.Served]
    · simp [hi]
  · rw [List.map_append]
    refine List.nodup_append.mpr ⟨h.nodup, by simp, ?_⟩
    rintro a ha b hb rfl
    have hsame : a = t := by simpa using hb
    exact hnew (hsame ▸ ha)
  · simp [h.numbers, h.next, List.range_succ]
  · simp [h.next, UInt64.ofNat_add]

theorem inv_step {event : Event} {next : State} (h : Inv threads trace s)
    (hstep : Step threads workers s event next) : Inv threads (trace ++ [event]) next := by
  cases hstep with
  | own ht hown hflow =>
      exact h.flow_step ht hflow rfl rfl rfl
        (h.listening.own (h.flow _) hown hflow rfl rfl rfl rfl)
  | accept ht hw hidle hflow =>
      cases hflow with
      | accept hreader =>
          exact h.flow_step ht (.accept hreader) rfl (add_zero _).symm (add_zero _).symm
            (h.listening.accept hidle hreader)
  | spawn ht hbusy hflow =>
      cases hflow with
      | spawn hreader =>
          exact h.flow_step ht (.spawn hreader) rfl (add_zero _).symm (add_zero _).symm
            (h.listening.spawn hbusy)

theorem inv_run (hrun : (machine threads workers).Run trace s) : Inv threads trace s := by
  refine hrun.invariant ?_ fun _ _ _ _ _ h hstep => inv_step h hstep
  rintro _ rfl
  exact inv_started threads

end Steps

/-! ## When all is done -/

/-- All threads of the client have ended, and all readers. -/
def State.Finished (threads : ℕ) (s : State) : Prop :=
  ∀ t < threads, (s.flows t).writer = .done ∧
    ((s.flows t).reader = .absent ∨ (s.flows t).reader = .done)

/-- How far a flow is from its end. -/
def Flow.rank (flow : Flow) : ℕ :=
  (match flow.writer with
    | .counting _ => 2
    | .done => 0
    | _ => 1) +
  (match flow.reader with
    | .backlog => 4
    | .accepted => 3
    | .counting _ => 2
    | .reading => 1
    | _ => 0) +
  2 * (flow.sent - flow.received)

section Progress

variable {threads workers : ℕ} {trace : List Event} {s : State}

/-- One step, other than the failure of a read, towards the end. -/
def Advances (threads workers : ℕ) (s : State) : Prop :=
  ∃ event next, Step threads workers s event next ∧ event.2 ≠ .reset ∧
    total threads Flow.rank next.flows < total threads Flow.rank s.flows

theorem total_rank_lt {t : ℕ} {flow : Flow} (ht : t < threads)
    (hrank : flow.rank < (s.flows t).rank) :
    total threads Flow.rank (Function.update s.flows t flow) < total threads Flow.rank s.flows := by
  have htotal := total_update ht Flow.rank s.flows flow
  omega

theorem advances_own {t : ℕ} {event : FlowEvent} {flow : Flow} (ht : t < threads)
    (hflow : FlowStep (s.flows t) event flow) (hown : event.Own) (hreset : event ≠ .reset)
    (hrank : flow.rank < (s.flows t).rank) : Advances threads workers s :=
  ⟨_, _, .own ht hown hflow, hreset, total_rank_lt ht hrank⟩

theorem advances_spawn {w t : ℕ} (h : Inv threads trace s) (hbusy : s.listeners w = some t) :
    Advances threads workers s := by
  have hreader := (h.listening.held t).mpr ⟨w, hbusy⟩
  have ht : t < threads := by
    by_contra hle
    rw [h.outside t (Nat.le_of_not_lt hle)] at hreader
    cases hreader
  refine ⟨_, _, .spawn ht hbusy (.spawn hreader), by simp, total_rank_lt ht ?_⟩
  simp [Flow.rank, hreader]

/-- A flow that has not ended can go on, or waits for a listener that can. -/
theorem advances_flow {t : ℕ} (h : Inv threads trace s) (hworkers : 0 < workers) (ht : t < threads)
    (hopen : ¬ ((s.flows t).writer = .done ∧
      ((s.flows t).reader = .absent ∨ (s.flows t).reader = .done))) :
    Advances threads workers s := by
  -- First the thread of the client is brought to its end, then the reader finds the end of the
  -- stream.
  cases hwriter : (s.flows t).writer with
  | start =>
      refine advances_own ht (.refuse hwriter) trivial (by simp) ?_
      simp [Flow.rank, hwriter]
  | writing =>
      refine advances_own ht (.stop hwriter) trivial (by simp) ?_
      simp [Flow.rank, hwriter]
  | counting n =>
      refine advances_own ht (.countWrite hwriter) trivial (by simp) ?_
      simp [Flow.rank, hwriter]
  | done =>
      cases hreader : (s.flows t).reader with
      | absent => simp [hwriter, hreader] at hopen
      | done => simp [hwriter, hreader] at hopen
      | backlog =>
          -- A listener that is busy starts its reader first.
          cases hlistener : s.listeners 0 with
          | some held => exact advances_spawn h hlistener
          | none =>
              refine ⟨_, _, .accept ht hworkers hlistener (.accept hreader), by simp,
                total_rank_lt ht ?_⟩
              simp [Flow.rank, hreader]
      | accepted =>
          obtain ⟨w, hbusy⟩ := (h.listening.held t).mp hreader
          exact advances_spawn h hbusy
      | counting n =>
          refine advances_own ht (.countRead hreader) trivial (by simp) ?_
          simp [Flow.rank, hreader]
      | reading =>
          rcases Nat.lt_or_ge (s.flows t).received (s.flows t).sent with hmore | hall
          · have hone : 1 ≤ bufLen := by decide
            refine advances_own ht (.read hreader Nat.one_pos hone hmore) trivial (by simp) ?_
            simp only [Flow.rank, hreader, hwriter]
            omega
          · have hle := (h.flow t).received_le
            refine advances_own ht (.eof hreader (by omega) hwriter) trivial (by simp) ?_
            simp [Flow.rank, hreader]

/-- Every run can be continued to the end, with no read failing. -/
theorem exists_finished (hworkers : 0 < workers) (hrun : (machine threads workers).Run trace s) :
    ∃ more next, (machine threads workers).Path s more next ∧
      (∀ t, (t, .reset) ∉ more) ∧ next.Finished threads := by
  induction hrank : total threads Flow.rank s.flows using Nat.strong_induction_on
    generalizing trace s with
  | _ rank ih =>
      by_cases hdone : s.Finished threads
      · exact ⟨[], s, .nil, by simp, hdone⟩
      · unfold State.Finished at hdone
        push Not at hdone
        obtain ⟨t, ht, hopen⟩ := hdone
        obtain ⟨event, mid, hstep, hreset, hless⟩ :=
          advances_flow (inv_run hrun) hworkers ht (by tauto)
        obtain ⟨more, next, hpath, hnone, hend⟩ := ih _ (by omega)
          (hrun.append (.single hstep)) rfl
        refine ⟨event :: more, next, ?_, ?_, hend⟩
        · exact (Machine.Path.single hstep).append hpath
        · intro i hi
          rcases List.mem_cons.mp hi with heq | hmem
          · exact hreset (by rw [← heq])
          · exact hnone i hmem

end Progress

/-! ## Volume -/

section Volume

variable {threads workers : ℕ} {trace : List Event} {s : State}

/-- A counter that has not wrapped. -/
theorem Counted.toNat {bytes : UInt64} {uncounted through : Flow → ℕ} {flows : ℕ → Flow}
    (h : Counted threads bytes uncounted through flows)
    (hle : ∀ t, uncounted (flows t) ≤ through (flows t))
    (hfit : total threads through flows < 2 ^ 64) :
    bytes.toNat + total threads uncounted flows = total threads through flows := by
  have hsum : total threads uncounted flows ≤ total threads through flows :=
    Finset.sum_le_sum fun t _ => hle t
  have hmod := congrArg UInt64.toNat h
  rw [UInt64.toNat_add, UInt64.toNat_ofNat_of_lt' (show _ < 2 ^ 64 by omega),
    UInt64.toNat_ofNat_of_lt' hfit] at hmod
  have hbytes := bytes.toNat_lt
  omega

theorem bytes_eq_of_finished (h : Inv threads trace s) (hnone : ∀ t, (t, .reset) ∉ trace)
    (hfinished : s.Finished threads) : s.serverBytes = s.clientBytes := by
  have hwrite : total threads Flow.uncountedWrite s.flows = 0 := by
    refine Finset.sum_eq_zero fun t ht => ?_
    simp [Flow.uncountedWrite, (hfinished t (Finset.mem_range.mp ht)).1]
  have hread : total threads Flow.uncountedRead s.flows = 0 := by
    refine Finset.sum_eq_zero fun t ht => ?_
    rcases (hfinished t (Finset.mem_range.mp ht)).2 with habsent | hdone
    · simp [Flow.uncountedRead, habsent]
    · simp [Flow.uncountedRead, hdone]
  have hsame : total threads Flow.received s.flows = total threads Flow.sent s.flows := by
    refine Finset.sum_congr rfl fun t ht => ?_
    rcases (hfinished t (Finset.mem_range.mp ht)).2 with habsent | hdone
    · have hle := (h.flow t).received_le
      have hzero := ((h.flow t).absent habsent).1
      omega
    · exact (h.whole hnone t hdone).1
  have hclient := h.client
  have hserver := h.server
  unfold Counted at hclient hserver
  rw [hwrite] at hclient
  rw [hread, hsame, ← hclient] at hserver
  simpa using hserver

/-- **No byte is lost or counted twice.**  In every run, each side has counted what went through
the streams except for the calls that are not yet counted; the server is never ahead of the
client by more than one buffer for each thread; and as long as no read has failed, the two
counters agree at the end, and every run can be continued to it. -/
theorem tcp_volume_conserved (hworkers : 0 < workers)
    (hrun : (machine threads workers).Run trace s) :
    Counted threads s.clientBytes Flow.uncountedWrite Flow.sent s.flows ∧
    Counted threads s.serverBytes Flow.uncountedRead Flow.received s.flows ∧
    (∀ t, (s.flows t).received ≤ (s.flows t).sent) ∧
    (total threads Flow.sent s.flows < 2 ^ 64 →
      s.serverBytes.toNat ≤ s.clientBytes.toNat + threads * bufLen) ∧
    ((∀ t, (t, .reset) ∉ trace) → (s.Finished threads → s.serverBytes = s.clientBytes) ∧
      ∃ more next, (machine threads workers).Path s more next ∧ next.Finished threads ∧
        next.serverBytes = next.clientBytes) := by
  have hinv := inv_run hrun
  refine ⟨hinv.client, hinv.server, fun t => (hinv.flow t).received_le, ?_, ?_⟩
  · -- What the server has counted was sent, and of that the client has counted all but the writes
    -- that have just returned.
    intro hfit
    have hle : total threads Flow.received s.flows ≤ total threads Flow.sent s.flows :=
      Finset.sum_le_sum fun t _ => (hinv.flow t).received_le
    have hclient := hinv.client.toNat (fun t => (hinv.flow t).written) hfit
    have hserver := hinv.server.toNat (fun t => (hinv.flow t).taken) (by omega)
    have hsmall : total threads Flow.uncountedWrite s.flows ≤ threads * bufLen := by
      refine (Finset.sum_le_card_nsmul _ _ bufLen fun t _ => (hinv.flow t).small).trans ?_
      simp
    omega
  · intro hnone
    refine ⟨bytes_eq_of_finished hinv hnone, ?_⟩
    obtain ⟨more, next, hpath, hreset, hfinished⟩ := exists_finished hworkers hrun
    refine ⟨more, next, hpath, hfinished, ?_⟩
    refine bytes_eq_of_finished (inv_run (hrun.append hpath)) (fun t hmem => ?_) hfinished
    rcases List.mem_append.mp hmem with hbefore | hlater
    · exact hnone t hbefore
    · exact hreset t hlater

end Volume

/-- One thread, one listener: the client writes five bytes and ends before it is accepted. -/
def oneFlow : List Event :=
  [(0, .connect), (0, .write 5), (0, .countWrite 5), (0, .stop), (0, .accept), (0, .spawn),
    (0, .read 5), (0, .countRead 5), (0, .eof)]

theorem tcp_volume_conserved_five :
    ∃ s, (machine 1 1).Run oneFlow s ∧ s.Finished 1 ∧ s.clientBytes = 5 ∧
      s.serverBytes = s.clientBytes := by
  have hend : (oneFlow.foldlM (next 1 1) started).map
      (fun s => (s.clientBytes, (s.flows 0).writer, (s.flows 0).reader)) =
      some (5, .done, .done) := by decide
  obtain ⟨s, hs, heq⟩ := Option.map_eq_some_iff.mp hend
  have hrun := run_of_next hs
  obtain ⟨hbytes, hwriter, hreader⟩ := by simpa using heq
  have hfinished : s.Finished 1 := by
    intro t ht
    obtain rfl : t = 0 := by omega
    exact ⟨hwriter, .inr hreader⟩
  refine ⟨s, hrun, hfinished, hbytes, ?_⟩
  exact ((tcp_volume_conserved (by decide) hrun).2.2.2.2 (by simp [oneFlow])).1 hfinished

/-! ## Readers on CPUs -/

/-- The CPU that a reader is pinned to. -/
def readerCpu (cpus : List ℕ) (number : UInt64) : Option ℕ := cpus[number.toNat % cpus.length]?

/-- The readers on a CPU. -/
def State.onCpu (s : State) (cpus : List ℕ) (cpu : ℕ) : ℕ :=
  s.readers.countP fun reader => readerCpu cpus reader.2 = some cpu

/-- **The readers are spread evenly.**  Whichever listeners accept, every connection that is
served has one reader, the readers have the numbers from 0 on, and so with a list of distinct
CPUs every CPU has the same number of readers, up to one. -/
theorem readers_spread_evenly {threads workers : ℕ} {trace : List Event} {s : State}
    (hrun : (machine threads workers).Run trace s) (hfew : s.readers.length ≤ 2 ^ 64)
    {cpus : List ℕ} (hcpus : cpus.Nodup) :
    (s.readers.map Prod.fst).Nodup ∧
    (∀ t, t ∈ s.readers.map Prod.fst ↔ (s.flows t).Served) ∧
    ∀ cpu ∈ cpus, s.onCpu cpus cpu = s.readers.length / cpus.length +
      if cpus.idxOf cpu < s.readers.length % cpus.length then 1 else 0 := by
  have hlistening := (inv_run hrun).listening
  refine ⟨hlistening.nodup, hlistening.served, fun cpu hcpu => ?_⟩
  have hindex : cpus.idxOf cpu < cpus.length := List.idxOf_lt_length_of_mem hcpu
  -- The readers of a CPU are those whose numbers have its index as remainder.
  have hchosen (number : ℕ) (hnumber : number < 2 ^ 64) :
      readerCpu cpus (UInt64.ofNat number) = some cpu ↔
        number ≡ cpus.idxOf cpu [MOD cpus.length] := by
    have hlt : number % cpus.length < cpus.length := Nat.mod_lt _ (by omega)
    rw [readerCpu, UInt64.toNat_ofNat_of_lt' hnumber, List.getElem?_eq_getElem hlt,
      Option.some.injEq, Nat.ModEq, Nat.mod_eq_of_lt hindex]
    constructor
    · intro heq
      rw [← heq, hcpus.idxOf_getElem]
    · intro heq
      simp only [heq, List.getElem_idxOf]
  have hcount : s.onCpu cpus cpu =
      (List.range s.readers.length).countP
        fun number => number ≡ cpus.idxOf cpu [MOD cpus.length] := by
    have hmap : s.onCpu cpus cpu =
        (s.readers.map Prod.snd).countP fun number => readerCpu cpus number = some cpu := by
      rw [List.countP_map]
      rfl
    rw [hmap, hlistening.numbers, List.countP_map]
    refine List.countP_congr fun number hmem => ?_
    simp only [Function.comp_apply, decide_eq_true_eq]
    exact hchosen number (by have := List.mem_range.mp hmem; omega)
  rw [hcount]
  refine (Nat.count_modEq_card _ (by omega) _).trans ?_
  rw [Nat.mod_eq_of_lt hindex]

/-- Two connections.  The listener that accepts first is the last to start its reader. -/
def twoFlows : List Event :=
  [(0, .connect), (1, .connect), (0, .accept), (1, .accept), (1, .spawn), (0, .spawn)]

theorem readers_spread_evenly_two :
    ∃ s, (machine 2 2).Run twoFlows s ∧ s.readers = [(1, 0), (0, 1)] ∧
      s.onCpu [4, 6] 4 = 1 ∧ s.onCpu [4, 6] 6 = 1 := by
  have hend : (twoFlows.foldlM (next 2 2) started).map State.readers = some [(1, 0), (0, 1)] := by
    decide
  obtain ⟨s, hs, hreaders⟩ := Option.map_eq_some_iff.mp hend
  have hrun := run_of_next hs
  have hfew : s.readers.length ≤ 2 ^ 64 := by simp [hreaders]
  have hspread := (readers_spread_evenly hrun hfew (show [4, 6].Nodup by decide)).2.2
  refine ⟨s, hrun, hreaders, ?_, ?_⟩
  · simpa [hreaders] using hspread 4 (by decide)
  · simpa [hreaders] using hspread 6 (by decide)

end RunPerf.Net.Tcp
