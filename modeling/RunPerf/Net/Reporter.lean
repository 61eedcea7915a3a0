import Mathlib.Data.UInt
import RunPerf.Lib.Machine
import RunPerf.Lib.Sampling
import RunPerf.Receive.Gaps

/-!
# The lines of the reporter

`spawn_reporter` starts a thread that wakes up every second, loads the shared counters one after
the other, and prints by how much each has grown since its last line.  The workers add to the
counters all the while, also between two loads of one line.

Each counter is sampled on its own (`Lib.Sampling`), so every `fetch_add` shows in exactly one
line: the one of the first load of its counter behind it.  What is added behind the last load
shows in no line.  A client clears `run` when its workers are done; if the reporter sleeps at that
moment it prints one more line, and the lines add up to the summary (`lines_add_up`).  If it has
already loaded the counters and not yet looked at `run` again, the rest is missing.
-/

namespace RunPerf.Net.Reporter

open RunPerf.Lib RunPerf.Receive

/-- What a line shows: its number, the bytes, and for UDP the packets and the drops. -/
structure Line where
  t : UInt64
  bytes : UInt64
  udp : Option (UInt64 × UInt64)
deriving DecidableEq, Repr

/-- `loss`, in percent, from `rx` and `dp`. -/
def loss (rx dp : UInt64) : ℚ :=
  if rx + dp = 0 then 0 else dp.toNat * 100 / (rx + dp).toNat

/-- Where the reporter stands. -/
inductive Pc
  /-- Before the load of `run`. -/
  | check
  | sleep
  /-- Before the load of `bytes`. -/
  | awake
  | gotBytes (b : UInt64)
  | gotPackets (b p : UInt64)
  | exited
deriving DecidableEq

/-- The shared counters and `run`, the locals of the reporter, and what it has printed. -/
structure State where
  counters : Counters
  run : Bool
  /-- `last_b`, `last_p` and `last_d`. -/
  last : Counters
  t : UInt64
  pc : Pc
  lines : List Line

inductive Event
  /-- A worker adds to a counter. -/
  | op (op : CounterOp)
  /-- The client clears `run`. -/
  | clear
  | check (run : Bool)
  | wake
  | loadBytes
  | loadPackets
  | loadDrops
deriving DecidableEq

/-- Print a line and remember what was loaded; TCP does not load `drops`. -/
def State.print (s : State) (b p : UInt64) (d : Option UInt64) : State :=
  { s with
      t := s.t + 1
      lines := s.lines ++
        [⟨s.t + 1, b - s.last.bytes, d.map fun d => (p - s.last.packets, d - s.last.drops)⟩]
      last := ⟨b, p, d.getD s.last.drops⟩
      pc := .check }

/-- The next step of the reporter. -/
def loopStep (udp : Bool) (s : State) : Option (Event × State) :=
  match s.pc with
  | .check => some (.check s.run, { s with pc := if s.run then .sleep else .exited })
  | .sleep => some (.wake, { s with pc := .awake })
  | .awake => some (.loadBytes, { s with pc := .gotBytes s.counters.bytes })
  | .gotBytes b =>
      let p := s.counters.packets
      some (.loadPackets, if udp then { s with pc := .gotPackets b p } else s.print b p none)
  | .gotPackets b p => some (.loadDrops, s.print b p (some s.counters.drops))
  | .exited => none

inductive Step (udp : Bool) (s : State) : Event → State → Prop
  | loop {event : Event} {t : State} (hstep : loopStep udp s = some (event, t)) :
      Step udp s event t
  | op {op : CounterOp} : Step udp s (.op op) { s with counters := s.counters.apply op }
  | clear : Step udp s .clear { s with run := false }

def started : State := ⟨Counters.zero, true, Counters.zero, 0, .check, []⟩

def machine (udp : Bool) : Machine State Event where
  Init s := s = started
  Step := Step udp

/-- The state behind an event, if it can happen. -/
def next (udp : Bool) (s : State) : Event → Option State
  | .op op => some { s with counters := s.counters.apply op }
  | .clear => some { s with run := false }
  | event => (loopStep udp s).bind fun step => if step.1 = event then some step.2 else none

theorem step_of_next {udp : Bool} {s t : State} {event : Event}
    (h : next udp s event = some t) : Step udp s event t := by
  have hloop (hbind : ((loopStep udp s).bind fun step =>
      if step.1 = event then some step.2 else none) = some t) : Step udp s event t := by
    obtain ⟨⟨_, _⟩, hstep, hif⟩ := Option.bind_eq_some_iff.mp hbind
    simp only [Option.ite_none_right_eq_some, Option.some.injEq] at hif
    obtain ⟨rfl, rfl⟩ := hif
    exact .loop hstep
  cases event with
  | op op =>
      cases h
      exact .op
  | clear =>
      cases h
      exact .clear
  | check run => exact hloop h
  | wake => exact hloop h
  | loadBytes => exact hloop h
  | loadPackets => exact hloop h
  | loadDrops => exact hloop h

theorem run_of_next {udp : Bool} {trace : List Event} {s : State}
    (h : trace.foldlM (next udp) started = some s) : (machine udp).Run trace s :=
  ⟨started, rfl, .of_foldlM (fun _ _ _ hnext => step_of_next hnext) h⟩

/-! ## The counters one by one -/

inductive Field
  | bytes
  | packets
  | drops

namespace Field

/-- What an event is to a counter. -/
def mark : Field → Event → Option (Sampling UInt64)
  | .bytes, .op (.bytes n) => some (.add n)
  | .bytes, .loadBytes => some .sample
  | .packets, .op (.packets n) => some (.add n)
  | .packets, .loadPackets => some .sample
  | .drops, .op (.drops n) => some (.add n)
  | .drops, .loadDrops => some .sample
  | _, _ => none

def value : Field → Counters → UInt64
  | .bytes, c => c.bytes
  | .packets, c => c.packets
  | .drops, c => c.drops

/-- What the lines show of a counter. -/
def shown : Field → List Line → List UInt64
  | .bytes, lines => lines.map Line.bytes
  | .packets, lines => lines.filterMap fun line => line.udp.map Prod.fst
  | .drops, lines => lines.filterMap fun line => line.udp.map Prod.snd

/-- A value that is loaded and not yet printed. -/
def loaded : Field → Pc → Option UInt64
  | .bytes, .gotBytes b => some b
  | .bytes, .gotPackets b _ => some b
  | .packets, .gotPackets _ p => some p
  | _, _ => none

/-- TCP only prints the bytes. -/
def Printed (udp : Bool) : Field → Prop
  | .bytes => True
  | _ => udp = true

end Field

/-- What happens to a counter along a run. -/
def marks (field : Field) (trace : List Event) : List (Sampling UInt64) :=
  trace.filterMap field.mark

theorem marks_snoc (field : Field) (trace : List Event) (event : Event) :
    marks field (trace ++ [event]) = marks field trace ++ (field.mark event).toList := by
  rw [marks, List.filterMap_append]
  cases h : field.mark event <;> simp [marks, h]

/-- The reporter shows the counter `field`. -/
def ShowsField (trace : List Event) (s : State) (field : Field) : Prop :=
  Sampling.Shows (marks field trace) (field.value s.counters) (field.value s.last)
    (field.loaded s.pc) (field.shown s.lines)

structure Inv (udp : Bool) (trace : List Event) (s : State) : Prop where
  shows : ∀ field, Field.Printed udp field → ShowsField trace s field
  number : s.t = UInt64.ofNat s.lines.length
  numbers : s.lines.map Line.t = (List.range s.lines.length).map fun i => UInt64.ofNat (i + 1)
  full : udp = true → ∀ line ∈ s.lines, line.udp.isSome

theorem inv_started (udp : Bool) : Inv udp [] started := by
  refine ⟨fun field _ => ?_, rfl, rfl, fun _ line hline => absurd hline List.not_mem_nil⟩
  cases field <;> exact Sampling.Shows.nil

section Steps

variable {udp : Bool} {trace : List Event} {s t : State} {event : Event}

/-- A step that is nothing to a counter. -/
theorem ShowsField.of_mark_none {field : Field} (h : ShowsField trace s field)
    (hmark : field.mark event = none) (hvalue : field.value t.counters = field.value s.counters)
    (hlast : t.last = s.last) (hloaded : field.loaded t.pc = field.loaded s.pc)
    (hshown : field.shown t.lines = field.shown s.lines) :
    ShowsField (trace ++ [event]) t field := by
  unfold ShowsField
  rw [marks_snoc, hmark, hvalue, hlast, hloaded, hshown, Option.toList_none, List.append_nil]
  exact h

/-- The step in which a counter is loaded. -/
theorem ShowsField.of_sample {field : Field} (h : ShowsField trace s field)
    (hmark : field.mark event = some .sample) (hbefore : field.loaded s.pc = none) :
    Sampling.Shows (marks field (trace ++ [event])) (field.value s.counters) (field.value s.last)
      (some (field.value s.counters)) (field.shown s.lines) := by
  unfold ShowsField at h
  rw [hbefore] at h
  rw [marks_snoc, hmark]
  exact h.sample

/-- A `fetch_add` is for one counter. -/
theorem mark_op (field : Field) (op : CounterOp) (c : Counters) :
    (field.mark (.op op) = none ∧ field.value (c.apply op) = field.value c) ∨
      ∃ n, field.mark (.op op) = some (.add n) ∧
        field.value (c.apply op) = field.value c + n := by
  cases op with
  | bytes n => cases field <;> simp [Field.mark, Field.value, Counters.apply]
  | packets n => cases field <;> simp [Field.mark, Field.value, Counters.apply]
  | drops n => cases field <;> simp [Field.mark, Field.value, Counters.apply]

theorem inv_op (op : CounterOp) (h : Inv udp trace s) :
    Inv udp (trace ++ [.op op]) { s with counters := s.counters.apply op } := by
  refine ⟨fun field hfield => ?_, h.number, h.numbers, h.full⟩
  have hshows := h.shows field hfield
  rcases mark_op field op s.counters with ⟨hmark, hvalue⟩ | ⟨n, hmark, hvalue⟩
  · exact hshows.of_mark_none hmark hvalue rfl rfl rfl
  · unfold ShowsField
    rw [marks_snoc, hmark, hvalue]
    exact hshows.add n

/-- The numbers go on with a new line. -/
theorem numbers_print (h : Inv udp trace s) (b p : UInt64) (d : Option UInt64) :
    (s.print b p d).t = UInt64.ofNat (s.print b p d).lines.length ∧
      (s.print b p d).lines.map Line.t =
        (List.range (s.print b p d).lines.length).map fun i => UInt64.ofNat (i + 1) := by
  have hnext : s.t + 1 = UInt64.ofNat (s.lines.length + 1) := by
    rw [h.number, UInt64.ofNat_add]
    rfl
  constructor
  · show s.t + 1 = _
    rw [hnext]
    simp [State.print]
  · simp [State.print, h.numbers, List.range_succ, hnext]

/-- A step that loads and prints nothing. -/
theorem inv_quiet (h : Inv udp trace s) (hmark : ∀ field : Field, field.mark event = none)
    (run : Bool) (pc : Pc) (hloaded : ∀ field : Field, field.loaded pc = field.loaded s.pc) :
    Inv udp (trace ++ [event]) { s with run := run, pc := pc } := by
  refine ⟨fun field hfield => ?_, h.number, h.numbers, h.full⟩
  exact (h.shows field hfield).of_mark_none (hmark field) rfl rfl (hloaded field) rfl

theorem inv_loadBytes (h : Inv udp trace s) (hpc : s.pc = .awake) :
    Inv udp (trace ++ [.loadBytes]) { s with pc := .gotBytes s.counters.bytes } := by
  refine ⟨fun field hfield => ?_, h.number, h.numbers, h.full⟩
  have hshows := h.shows field hfield
  cases field with
  | bytes => exact hshows.of_sample rfl (by rw [hpc]; rfl)
  | packets => exact hshows.of_mark_none rfl rfl rfl (by rw [hpc]; rfl) rfl
  | drops => exact hshows.of_mark_none rfl rfl rfl (by rw [hpc]; rfl) rfl

theorem inv_loadPackets {b : UInt64} (h : Inv udp trace s) (hpc : s.pc = .gotBytes b) :
    Inv udp (trace ++ [.loadPackets]) { s with pc := .gotPackets b s.counters.packets } := by
  refine ⟨fun field hfield => ?_, h.number, h.numbers, h.full⟩
  have hshows := h.shows field hfield
  cases field with
  | bytes => exact hshows.of_mark_none rfl rfl rfl (by rw [hpc]; rfl) rfl
  | packets => exact hshows.of_sample rfl (by rw [hpc]; rfl)
  | drops => exact hshows.of_mark_none rfl rfl rfl (by rw [hpc]; rfl) rfl

/-- The line of a TCP test shows the bytes. -/
theorem inv_print_tcp {b : UInt64} (h : Inv false trace s) (hpc : s.pc = .gotBytes b) :
    Inv false (trace ++ [.loadPackets]) (s.print b s.counters.packets none) := by
  obtain ⟨hnumber, hnumbers⟩ := numbers_print h b s.counters.packets none
  refine ⟨fun field hfield => ?_, hnumber, hnumbers, fun hudp => by cases hudp⟩
  have hshows := h.shows field hfield
  cases field with
  | bytes =>
      unfold ShowsField at hshows ⊢
      rw [hpc] at hshows
      rw [marks_snoc]
      simpa [Field.mark, Field.shown, Field.loaded, Field.value, State.print] using hshows.print
  | packets => cases hfield
  | drops => cases hfield

/-- The line of a UDP test shows all counters; the drops have just been loaded. -/
theorem inv_print_udp {b p : UInt64} (h : Inv udp trace s) (hpc : s.pc = .gotPackets b p) :
    Inv udp (trace ++ [.loadDrops]) (s.print b p (some s.counters.drops)) := by
  obtain ⟨hnumber, hnumbers⟩ := numbers_print h b p (some s.counters.drops)
  have hfull : udp = true → ∀ line ∈ (s.print b p (some s.counters.drops)).lines,
      line.udp.isSome := by
    intro hudp line hline
    rcases List.mem_append.mp hline with hold | hnew
    · exact h.full hudp line hold
    · rw [List.mem_singleton.mp hnew]
      rfl
  refine ⟨fun field hfield => ?_, hnumber, hnumbers, hfull⟩
  have hshows := h.shows field hfield
  cases field with
  | bytes =>
      unfold ShowsField at hshows ⊢
      rw [hpc] at hshows
      rw [marks_snoc]
      simpa [Field.mark, Field.shown, Field.loaded, Field.value, State.print] using hshows.print
  | packets =>
      unfold ShowsField at hshows ⊢
      rw [hpc] at hshows
      rw [marks_snoc]
      simpa [Field.mark, Field.shown, Field.loaded, Field.value, State.print] using hshows.print
  | drops =>
      have hmark : Field.drops.mark .loadDrops = some .sample := rfl
      have hsampled := hshows.of_sample hmark (by rw [hpc]; rfl)
      unfold ShowsField
      simpa [Field.shown, Field.loaded, Field.value, State.print] using hsampled.print

theorem inv_step (h : Inv udp trace s) (hstep : Step udp s event t) :
    Inv udp (trace ++ [event]) t := by
  cases hstep with
  | op => exact inv_op _ h
  | clear => exact inv_quiet h (fun field => by cases field <;> rfl) _ _ fun _ => rfl
  | loop hstep =>
      unfold loopStep at hstep
      cases hpc : s.pc with
      | check =>
          rw [hpc] at hstep
          cases hstep
          refine inv_quiet h (fun field => by cases field <;> rfl) _ _ fun field => ?_
          rw [hpc]
          cases field <;> cases s.run <;> rfl
      | sleep =>
          rw [hpc] at hstep
          cases hstep
          refine inv_quiet h (fun field => by cases field <;> rfl) _ _ fun field => ?_
          rw [hpc]
          cases field <;> rfl
      | awake =>
          rw [hpc] at hstep
          cases hstep
          exact inv_loadBytes h hpc
      | gotBytes b =>
          rw [hpc] at hstep
          cases hstep
          cases udp with
          | false => exact inv_print_tcp h hpc
          | true => exact inv_loadPackets h hpc
      | gotPackets b p =>
          rw [hpc] at hstep
          cases hstep
          exact inv_print_udp h hpc
      | exited =>
          rw [hpc] at hstep
          cases hstep

theorem inv_run (hrun : (machine udp).Run trace s) : Inv udp trace s := by
  refine hrun.invariant ?_ fun _ _ _ _ _ h hstep => inv_step h hstep
  rintro _ rfl
  exact inv_started udp

end Steps

/-! ## What the lines show -/

/-- The amounts that were added to a counter, as numbers. -/
def added (field : Field) (trace : List Event) : List (Sampling ℕ) :=
  (marks field trace).map (Sampling.map UInt64.toNat)

/-- `shown` is what was added between the loads of a counter that ends at `value`. -/
structure Exact (added : List (Sampling ℕ)) (shown : List UInt64) (value : UInt64) : Prop where
  /-- Every line shows what was added since the last one, modulo `2 ^ 64`. -/
  lines : shown.map UInt64.toNat =
    ((Sampling.intervals added).take shown.length).map fun amount => amount % 2 ^ 64
  /-- At most one load is not shown yet. -/
  pending : (Sampling.intervals added).length ≤ shown.length + 1
  /-- Whatever is in no line was added behind the last load that is shown. -/
  total : shown.sum + UInt64.ofNat (((Sampling.intervals added).drop shown.length).sum +
    Sampling.rest added) = value

/-- `UInt64.ofNat` as a homomorphism. -/
def ofNatHom : ℕ →+ UInt64 := ⟨⟨UInt64.ofNat, rfl⟩, UInt64.ofNat_add⟩

theorem exact_of_shows {marks : List (Sampling UInt64)} {value last : UInt64}
    {loaded : Option UInt64} {shown : List UInt64}
    (h : Sampling.Shows marks value last loaded shown) :
    Exact (marks.map (Sampling.map UInt64.toNat)) shown value := by
  -- Reducing the amounts modulo `2 ^ 64` commutes with cutting the history into intervals.
  have hmarks : (marks.map (Sampling.map UInt64.toNat)).map (Sampling.map ofNatHom) = marks := by
    rw [List.map_map]
    refine (List.map_congr_left fun mark _ => ?_).trans (List.map_id _)
    cases mark with
    | add amount => exact congrArg Sampling.add UInt64.ofNat_toNat
    | sample => rfl
  obtain ⟨hintervals, hrest⟩ := Sampling.cut_map ofNatHom (marks.map (Sampling.map UInt64.toNat))
  rw [hmarks] at hintervals hrest
  have hshown : shown = ((Sampling.intervals (marks.map (Sampling.map UInt64.toNat))).take
      shown.length).map ofNatHom := by
    rw [List.map_take, ← hintervals, h.intervals_eq, List.take_left]
  refine ⟨?_, ?_, ?_⟩
  · conv_lhs => rw [hshown]
    rw [List.map_map]
    exact List.map_congr_left fun amount _ => UInt64.toNat_ofNat'
  · have hlength := congrArg List.length hintervals
    rw [h.intervals_eq, List.length_append, List.length_map] at hlength
    rw [← hlength]
    have hone : (loaded.map fun sampled => sampled - last).toList.length ≤ 1 := by
      cases loaded <;> simp
    omega
  · have hsum := h.sum_add
    rw [hintervals, hrest, ← List.map_drop, ← map_list_sum, add_assoc, ← map_add] at hsum
    exact hsum

/-- The lines of a field one by one, if they all have it. -/
theorem getElem?_filterMap {α β : Type*} {f : α → Option β} {list : List α}
    (h : ∀ a ∈ list, (f a).isSome) (k : ℕ) : (list.filterMap f)[k]? = list[k]?.bind f := by
  induction list generalizing k with
  | nil => simp
  | cons a rest ih =>
      obtain ⟨b, hb⟩ := Option.isSome_iff_exists.mp (h a List.mem_cons_self)
      rw [List.filterMap_cons_some hb]
      cases k with
      | zero => simp [hb]
      | succ k => simpa using ih (fun a' ha' => h a' (List.mem_cons_of_mem _ ha')) k

/-- The amount that a line shows. -/
theorem Exact.getElem? {added : List (Sampling ℕ)} {shown : List UInt64} {value : UInt64}
    (h : Exact added shown value) {k : ℕ} {amount : UInt64} (hk : shown[k]? = some amount) :
    ∃ n, (Sampling.intervals added)[k]? = some n ∧ amount.toNat = n % 2 ^ 64 := by
  have hlt : k < shown.length := (List.getElem?_eq_some_iff.mp hk).1
  have hline := congrArg (fun list => list[k]?) h.lines
  simp only [List.getElem?_map, hk, Option.map_some, List.getElem?_take, if_pos hlt] at hline
  obtain ⟨n, hn, hmod⟩ := Option.map_eq_some_iff.mp hline.symm
  exact ⟨n, hn, hmod.symm⟩

/-- The loss of exact amounts. -/
theorem loss_eq {rx dp : UInt64} {p d : ℕ} (hrx : rx.toNat = p) (hdp : dp.toNat = d)
    (hfit : p + d < 2 ^ 64) : loss rx dp = if p + d = 0 then 0 else (d * 100 / (p + d) : ℚ) := by
  have hsum : (rx + dp).toNat = p + d := by
    rw [UInt64.toNat_add, hrx, hdp, Nat.mod_eq_of_lt hfit]
  have hzero : rx + dp = 0 ↔ p + d = 0 := by
    rw [← UInt64.toNat_inj, hsum]
    rfl
  unfold loss
  simp only [hzero, hsum, hdp]
  push_cast
  rfl

/-- **Every amount shows in one line.**  However the workers interleave with the reporter: the
lines are numbered from 1, each shows what was added to a counter between its loads, and what
shows in no line was added behind the last of them.  For UDP the loss of a line is that of these
amounts. -/
theorem reporter_lines_exact {udp : Bool} {trace : List Event} {s : State}
    (hrun : (machine udp).Run trace s) :
    s.lines.map Line.t = (List.range s.lines.length).map (fun i => UInt64.ofNat (i + 1)) ∧
    (∀ field, Field.Printed udp field →
      Exact (added field trace) (field.shown s.lines) (field.value s.counters)) ∧
    (udp = true → ∀ (k : ℕ) (line : Line), s.lines[k]? = some line →
      ∃ rx dp p d, line.udp = some (rx, dp) ∧
      (Sampling.intervals (added .packets trace))[k]? = some p ∧
      (Sampling.intervals (added .drops trace))[k]? = some d ∧
      (p + d < 2 ^ 64 → loss rx dp = if p + d = 0 then 0 else (d * 100 / (p + d) : ℚ))) := by
  have hinv := inv_run hrun
  have hexact (field : Field) (hfield : Field.Printed udp field) :
      Exact (added field trace) (field.shown s.lines) (field.value s.counters) :=
    exact_of_shows (hinv.shows field hfield)
  refine ⟨hinv.numbers, hexact, ?_⟩
  intro hudp k line hline
  obtain ⟨⟨rx, dp⟩, hpair⟩ := Option.isSome_iff_exists.mp
    (hinv.full hudp line (List.mem_of_getElem? hline))
  have hfull {f : UInt64 × UInt64 → UInt64} :
      ∀ l ∈ s.lines, ((fun l : Line => l.udp.map f) l).isSome := by
    intro l hl
    simpa using hinv.full hudp l hl
  have hpackets : (Field.packets.shown s.lines)[k]? = some rx := by
    rw [Field.shown, getElem?_filterMap hfull, hline]
    simp [hpair]
  have hdrops : (Field.drops.shown s.lines)[k]? = some dp := by
    rw [Field.shown, getElem?_filterMap hfull, hline]
    simp [hpair]
  obtain ⟨p, hp, hrx⟩ := (hexact .packets hudp).getElem? hpackets
  obtain ⟨d, hd, hdp⟩ := (hexact .drops hudp).getElem? hdrops
  refine ⟨rx, dp, p, d, hpair, hp, hd, fun hfit => ?_⟩
  rw [Nat.mod_eq_of_lt (by omega)] at hrx hdp
  exact loss_eq hrx hdp hfit

/-- A worker adds to all counters while the reporter works on its first line. -/
def firstLine : List Event :=
  [.check true, .op (.bytes 100), .op (.packets 1), .wake, .loadBytes, .op (.bytes 7),
    .loadPackets, .op (.drops 1), .loadDrops]

/-- Of the 107 bytes the line shows 100. -/
theorem reporter_lines_exact_first :
    ∃ s, (machine true).Run firstLine s ∧ s.lines = [⟨1, 100, some (1, 1)⟩] ∧
      Exact (added .bytes firstLine) [100] 107 := by
  have hrun : (machine true).Run firstLine _ := run_of_next rfl
  exact ⟨_, hrun, rfl, (reporter_lines_exact hrun).2.1 .bytes trivial⟩

/-! ## The end of a test -/

/-- What the reporter remembers after `run` was cleared at `u`, while nothing is added any more. -/
structure Caught (udp : Bool) (u s : State) : Prop where
  counters : s.counters = u.counters
  run : s.run = false
  current : match s.pc with
    | .sleep => True
    | .awake => True
    | .gotBytes b => b = s.counters.bytes
    | .gotPackets b p => b = s.counters.bytes ∧ p = s.counters.packets
    | .check => ∀ field, Field.Printed udp field → field.value s.last = field.value s.counters
    | .exited => ∀ field, Field.Printed udp field → field.value s.last = field.value s.counters

theorem caught_step {udp : Bool} {u s t : State} {event : Event} (h : Caught udp u s)
    (hstep : Step udp s event t) (hevent : ∀ op, event ≠ .op op) : Caught udp u t := by
  obtain ⟨hcounters, hrun, hcurrent⟩ := h
  cases hstep with
  | op => exact absurd rfl (hevent _)
  | clear => exact ⟨hcounters, rfl, hcurrent⟩
  | loop hstep =>
      unfold loopStep at hstep
      cases hpc : s.pc with
      | check =>
          simp only [hpc] at hstep hcurrent
          cases hstep
          refine ⟨hcounters, hrun, ?_⟩
          simpa [hrun] using hcurrent
      | sleep =>
          simp only [hpc] at hstep
          cases hstep
          exact ⟨hcounters, hrun, trivial⟩
      | awake =>
          simp only [hpc] at hstep
          cases hstep
          exact ⟨hcounters, hrun, rfl⟩
      | gotBytes b =>
          simp only [hpc] at hstep hcurrent
          cases hstep
          cases udp with
          | true => exact ⟨hcounters, hrun, hcurrent, rfl⟩
          | false =>
              refine ⟨hcounters, hrun, fun field hfield => ?_⟩
              cases field with
              | bytes => exact hcurrent
              | packets => cases hfield
              | drops => cases hfield
      | gotPackets b p =>
          simp only [hpc] at hstep hcurrent
          cases hstep
          refine ⟨hcounters, hrun, fun field _ => ?_⟩
          cases field with
          | bytes => exact hcurrent.1
          | packets => exact hcurrent.2
          | drops => rfl
      | exited =>
          simp only [hpc] at hstep
          cases hstep

theorem caught_path {udp : Bool} {u s : State} {after : List Event} (h : Caught udp u u)
    (hpath : (machine udp).Path u after s) (hdone : ∀ op, .op op ∉ after) : Caught udp u s := by
  have hall : (∀ op, .op op ∉ after) → Caught udp u s := by
    refine hpath.invariant (P := fun after s => (∀ op, .op op ∉ after) → Caught udp u s)
      (fun _ => h) ?_
    intro trace v event w _ ih hstep hnone
    refine caught_step (ih fun op hmem => hnone op (List.mem_append_left _ hmem)) hstep ?_
    rintro op rfl
    exact hnone op (by simp)
  exact hall hdone

/-- The workers were done and the reporter slept when `run` was cleared. -/
def ClearedAsleep (udp : Bool) (trace : List Event) (s : State) : Prop :=
  ∃ before after u, trace = before ++ [.clear] ++ after ∧ (machine udp).Run before u ∧
    u.pc = .sleep ∧ (machine udp).Path { u with run := false } after s ∧ ∀ op, .op op ∉ after

/-- **The lines add up to the summary** when the reporter has ended, if nothing was added to the
counter behind its last load; and that is so if the reporter slept when `run` was cleared. -/
theorem lines_add_up {udp : Bool} {trace : List Event} {s : State}
    (hrun : (machine udp).Run trace s) (hexit : s.pc = .exited) :
    (∀ field, Field.Printed udp field →
      ((field.shown s.lines).sum = field.value s.counters ↔
        Sampling.rest (marks field trace) = 0)) ∧
    (ClearedAsleep udp trace s → ∀ field, Field.Printed udp field →
      (field.shown s.lines).sum = field.value s.counters) := by
  have hinv := inv_run hrun
  constructor
  · intro field hfield
    have hshows := hinv.shows field hfield
    have hloaded : field.loaded s.pc = none := by
      rw [hexit]
      cases field <;> rfl
    unfold ShowsField at hshows
    rw [hloaded] at hshows
    have hsum := hshows.sum_add
    rw [hshows.intervals_eq, Option.map_none, Option.toList_none, List.append_nil,
      List.drop_length, List.sum_nil, add_zero] at hsum
    rw [← hsum, left_eq_add]
  · rintro ⟨before, after, u, -, -, hsleep, hpath, hdone⟩ field hfield
    -- One more line is printed behind the flag, and it sees all that was added.
    have hstart : Caught udp { u with run := false } { u with run := false } :=
      ⟨rfl, rfl, by rw [hsleep]; trivial⟩
    have hcaught := caught_path hstart hpath hdone
    have hcurrent := hcaught.current
    rw [hexit] at hcurrent
    rw [← (hinv.shows field hfield).last_eq]
    exact hcurrent field hfield

/-- A worker of a TCP client writes and is done while the reporter sleeps. -/
theorem lines_add_up_one :
    let before : List Event := [.check true, .op (.bytes 5)]
    let after : List Event := [.wake, .loadBytes, .loadPackets, .check false]
    ∃ s, (machine false).Run (before ++ [.clear] ++ after) s ∧ s.pc = .exited ∧
      s.counters.bytes = 5 ∧ (s.lines.map Line.bytes).sum = 5 := by
  intro before after
  let asleep : State := ⟨⟨5, 0, 0⟩, true, Counters.zero, 0, .sleep, []⟩
  have hbefore : (machine false).Run before asleep := run_of_next rfl
  have hafter : (machine false).Path { asleep with run := false } after _ :=
    .of_foldlM (fun s event t (h : next false s event = some t) => step_of_next h) rfl
  have hrun : (machine false).Run (before ++ [.clear] ++ after) _ :=
    (hbefore.append (.single .clear)).append hafter
  refine ⟨_, hrun, rfl, rfl, ?_⟩
  exact (lines_add_up hrun rfl).2
    ⟨before, after, asleep, rfl, hbefore, rfl, hafter, by simp [after]⟩ .bytes trivial

end RunPerf.Net.Reporter
