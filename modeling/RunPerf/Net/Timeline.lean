import RunPerf.Net.Client

/-!
# When a client thread sends

A turn of the send loop takes time: the kernel accepts the datagrams one after the other, then
the pacing reads the clock and sleeps if the budget of the thread is used up.  The clock goes
forward, and a sleep may last longer than it should.

`timeline` says when a thread sent and when it started over.  It is a run of `Lib.windows`, with
the cap that the turns keep to (`path_timeline`).
-/

namespace RunPerf.Net

open RunPerf.Lib

/-- A turn with the times at which the kernel accepted the datagrams. -/
structure TimedTurn extends SendTurn where
  times : List ℕ

/-- The clock goes forward in a turn that begins at `now`. -/
structure TimedTurn.Follows (now : ℕ) (turn : TimedTurn) : Prop where
  accepted : turn.times.length = turn.ret.toNat
  forward : (now :: turn.times).IsChain (· ≤ ·)
  read : ∀ time ∈ now :: turn.times, time ≤ turn.read

theorem TimedTurn.Follows.earlier {now mid : ℕ} {turn : TimedTurn} (h : turn.Follows now)
    (hmid : mid ≤ now) : turn.Follows mid := by
  obtain ⟨haccepted, hforward, hread⟩ := h
  refine ⟨haccepted, ?_, ?_⟩
  · cases htimes : turn.times with
    | nil => exact .singleton _
    | cons time rest =>
        rw [htimes] at hforward
        obtain ⟨hnow, hrest⟩ := List.isChain_cons_cons.mp hforward
        exact .cons_cons (hmid.trans hnow) hrest
  · intro time htime
    rcases List.mem_cons.mp htime with rfl | hlater
    · exact hmid.trans (hread now List.mem_cons_self)
    · exact hread time (List.mem_cons_of_mem _ hlater)

namespace UdpThread

variable {len : ℕ} {sid : UInt64}

/-- What the pacing of a turn sees. -/
def noted (t : UdpThread len sid) (outside : SendTurn) : Pacer :=
  if outside.ret > 0 then t.pacer.note (UInt64.ofNat outside.ret.toNat) else t.pacer

theorem turn_pacer (budget : UInt64) (t : UdpThread len sid) (outside : SendTurn) :
    (t.turn budget outside).1.pacer = (t.noted outside).pace budget outside.read outside.late :=
  rfl

/-- When a thread sent and when it started over. -/
def timeline (budget : UInt64) (t : UdpThread len sid) : List TimedTurn → List Mark
  | [] => []
  | turn :: rest =>
      turn.times.map .item ++
        (t.noted turn.toSendTurn).paceMarks budget turn.read turn.late ++
        (t.turn budget turn.toSendTurn).1.timeline budget rest

/-- The clock goes forward in all turns, the first of which begins at `now`. -/
def Clocked (budget : UInt64) (t : UdpThread len sid) (now : ℕ) : List TimedTurn → Prop
  | [] => True
  | turn :: rest =>
      turn.Follows now ∧
        (t.turn budget turn.toSendTurn).1.Clocked budget
          ((t.noted turn.toSendTurn).paceEnd budget turn.read turn.late) rest

/-- No turn sends more than `cap` allows since `sec_start`. -/
def Within (budget : UInt64) (cap : ℕ) (t : UdpThread len sid) : List TimedTurn → Prop
  | [] => True
  | turn :: rest =>
      t.pacer.sentSec.toNat + turn.ret.toNat ≤ cap ∧
        (t.turn budget turn.toSendTurn).1.Within budget cap rest

theorem noted_secStart (t : UdpThread len sid) (outside : SendTurn) :
    (t.noted outside).secStart = t.pacer.secStart := by
  unfold noted
  split <;> rfl

theorem noted_sentSec {t : UdpThread len sid} {outside : SendTurn}
    (hfit : t.pacer.sentSec.toNat + outside.ret.toNat < 2 ^ 64) :
    (t.noted outside).sentSec.toNat = t.pacer.sentSec.toNat + outside.ret.toNat := by
  unfold noted
  split
  · show (t.pacer.sentSec + UInt64.ofNat outside.ret.toNat).toNat = _
    rw [UInt64.toNat_add, UInt64.toNat_ofNat_of_lt' (show _ < 2 ^ 64 by omega),
      Nat.mod_eq_of_lt hfit]
  · omega

/-- A turn opens at most one window, and keeps to the cap of the one before. -/
theorem path_turn (budget : UInt64) (start : ℕ) {cap now : ℕ} {t : UdpThread len sid}
    {turn : TimedTurn} (hcap : cap < 2 ^ 64) (hstart : t.pacer.secStart ≤ now)
    (hfollows : turn.Follows now)
    (hwithin : t.pacer.sentSec.toNat + turn.ret.toNat ≤ cap) :
    ∃ mid, (t.turn budget turn.toSendTurn).1.pacer.secStart ≤ mid ∧
      mid ≤ (t.noted turn.toSendTurn).paceEnd budget turn.read turn.late ∧
      (windows RunPerf.second cap start).Path (t.pacer.window now)
        (turn.times.map .item ++ (t.noted turn.toSendTurn).paceMarks budget turn.read turn.late)
        ((t.turn budget turn.toSendTurn).1.pacer.window mid) := by
  have hlength : t.pacer.sentSec.toNat + turn.times.length ≤ cap := by
    rwa [hfollows.accepted]
  have hopen (sent : ℕ) : (t.noted turn.toSendTurn).window sent =
      ⟨t.pacer.secStart, t.pacer.sentSec.toNat + turn.times.length, sent⟩ := by
    rw [Pacer.window, noted_secStart, noted_sentSec (by omega), hfollows.accepted]
  obtain ⟨sent, hsent, hitems⟩ :
      ∃ sent ∈ now :: turn.times, (windows RunPerf.second cap start).Path (t.pacer.window now)
        (turn.times.map .item) ((t.noted turn.toSendTurn).window sent) := by
    simp only [hopen]
    exact Windows.path_items (s := t.pacer.window now) hfollows.forward hlength
  have hlate : now ≤ sent := by
    rcases List.mem_cons.mp hsent with rfl | hlater
    · exact le_rfl
    · exact List.rel_of_pairwise_cons hfollows.forward.pairwise hlater
  have hopened : (t.noted turn.toSendTurn).secStart ≤ sent := by
    rw [noted_secStart]
    omega
  obtain ⟨mid, hnext, hmid, hpace⟩ := Pacer.path_pace turn.read turn.late budget cap start hopened
    (hfollows.read sent hsent)
  exact ⟨mid, hnext, hmid, hitems.append hpace⟩

/-- **A thread that keeps to `cap` is a run of windows.** -/
theorem path_timeline {budget : UInt64} {cap start now : ℕ} {t : UdpThread len sid}
    {turns : List TimedTurn} (hcap : cap < 2 ^ 64) (hstart : t.pacer.secStart ≤ now)
    (hclocked : t.Clocked budget now turns) (hwithin : t.Within budget cap turns) :
    ∃ w, (windows RunPerf.second cap start).Path (t.pacer.window now)
      (t.timeline budget turns) w := by
  -- The window of the induction may have been seen last before `now`.
  have key : ∀ mid ≤ now, t.pacer.secStart ≤ mid →
      ∃ w, (windows RunPerf.second cap start).Path (t.pacer.window mid)
        (t.timeline budget turns) w := by
    clear hstart
    induction turns generalizing t now with
    | nil => exact fun mid _ _ => ⟨_, .nil⟩
    | cons turn rest ih =>
        intro mid hmid hstart
        obtain ⟨hfollows, hrest⟩ := hclocked
        obtain ⟨hfirst, hlater⟩ := hwithin
        obtain ⟨next, hopened, hnext, hturn⟩ := path_turn budget start hcap hstart
          (hfollows.earlier hmid) hfirst
        obtain ⟨w, hpath⟩ := ih hrest hlater next hnext hopened
        exact ⟨w, hturn.append hpath⟩
  exact key now le_rfl hstart

/-- Behind the pacing a turn of 64 datagrams exceeds the budget by at most 63. -/
theorem within_of_ret_le {budget : UInt64} {t : UdpThread len sid} {turns : List TimedTurn}
    (hbudget : 1 ≤ budget) (hsent : t.pacer.sentSec < budget)
    (hret : ∀ turn ∈ turns, turn.ret ≤ batch) : t.Within budget (budget.toNat + 63) turns := by
  induction turns generalizing t with
  | nil => exact trivial
  | cons turn rest ih =>
      have hfirst := hret turn List.mem_cons_self
      have hlt := UInt64.lt_iff_toNat_lt.mp hsent
      simp only [batch] at hfirst
      refine ⟨by omega, ih ?_ fun later hlater => hret later (List.mem_cons_of_mem _ hlater)⟩
      rw [turn_pacer]
      exact Pacer.sentSec_pace_lt _ _ hbudget

end UdpThread

end RunPerf.Net
