import RunPerf.Net.Timeline
import RunPerf.Xdp.GenDelivery
import RunPerf.Xdp.GenTimed

/-!
# Bursts of a paced worker

A worker checks its budget behind each batch, so it sends up to 63 packets more than the budget
before it starts over.  It starts over at least a second after the last time, hence any second
has packets of at most two windows.

The count of a window is a `u64`.  With a budget above `2 ^ 64 - 64` it may wrap before the
check sees that the budget is used up, and then the window goes on.
-/

namespace RunPerf.Rate

open RunPerf.Lib RunPerf.Net

/-- The bursts of a worker with the budget `budget`, whose pacing began at `start`. -/
structure BurstBound (budget start : ℕ) (marks : List Mark) : Prop where
  /-- Two starts are at least a second apart. -/
  apart : (start :: resetTimes marks).IsChain fun r r' => r + second ≤ r'
  /-- Between two starts there are at most `budget + 63` packets. -/
  window : ∀ first inside last, marks = first ++ inside ++ last → resetTimes inside = [] →
    (itemTimes inside).length ≤ budget + 63
  /-- Any second has at most `2 * (budget + 63)` packets. -/
  interval : ∀ a, Windows.inInterval second a marks ≤ 2 * (budget + 63)

theorem burstBound_of_path {budget start : ℕ} {marks : List Mark} {w : Window}
    (hpath : (windows second (budget + 63) start).Path ⟨start, 0, start⟩ marks w) :
    BurstBound budget start marks where
  apart := Windows.isChain_resetTimes hpath
  window := by
    intro first inside last hmarks hnone
    subst hmarks
    exact Windows.length_window_le ⟨le_rfl, Nat.zero_le _⟩ hpath hnone
  interval := Windows.inInterval_le rfl hpath

/-- A turn in which everything happens at the time 0. -/
def fullTurn : TimedTurn := ⟨⟨64, 0, 0⟩, List.replicate 64 0⟩

theorem fullTurn_follows : fullTurn.Follows 0 where
  accepted := rfl
  forward := List.isChain_replicate_of_rel 65 le_rfl
  read := by decide

/-- A generator with a budget of ten packets. -/
def paced : Xdp.Gen.Config := { Xdp.Gen.sampleConfig with ppsPer := 10 }

/-- **The burst bound of both send loops.** -/
theorem burst_bound (budget : UInt64) (hbudget : 1 ≤ budget)
    (hfit : budget.toNat ≤ 2 ^ 64 - 64) :
    (∀ (len : ℕ) (sid : UInt64) (start : ℕ) (turns : List TimedTurn),
      (∀ turn ∈ turns, turn.ret ≤ batch) →
      (UdpThread.new len sid start).Clocked budget start turns →
      BurstBound budget.toNat start ((UdpThread.new len sid start).timeline budget turns)) ∧
    (∀ (cfg : Xdp.Gen.Config) (first last : Xdp.Gen.State × ℕ) (trace : List Xdp.Gen.Timed),
      cfg.ppsPer = budget → (Xdp.Gen.timed cfg).Init first →
      (Xdp.Gen.timed cfg).Path first trace last →
      BurstBound budget.toNat first.2 (Xdp.Gen.timeline trace)) := by
  constructor
  · intro len sid start turns hret hclocked
    have hnew : (UdpThread.new len sid start).pacer.sentSec < budget :=
      UInt64.lt_iff_toNat_lt.mpr (UInt64.le_iff_toNat_le.mp hbudget)
    have hwithin := UdpThread.within_of_ret_le hbudget hnew hret
    obtain ⟨w, hpath⟩ := UdpThread.path_timeline (by omega) le_rfl hclocked hwithin
    exact burstBound_of_path hpath
  · rintro cfg first last trace rfl hinit hpath
    obtain ⟨w, hpath⟩ := Xdp.Gen.exists_window_path hbudget hfit hinit hpath
    exact burstBound_of_path hpath

theorem burst_bound_ten :
    (1 ≤ (10 : UInt64) ∧ (10 : UInt64).toNat ≤ 2 ^ 64 - 64) ∧
      BurstBound 10 0 ((UdpThread.new 16 0 0).timeline 10 [fullTurn]) ∧
      ∃ event last, (Xdp.Gen.timed paced).Path (Xdp.Gen.started paced 0, 0) [event] last ∧
        BurstBound 10 0 (Xdp.Gen.timeline [event]) := by
  obtain ⟨hudp, hgen⟩ := burst_bound 10 (by decide) (by decide)
  have hstep : (Xdp.Gen.timed paced).Path (Xdp.Gen.started paced 0, 0) [_] _ :=
    .single (.loop (Nat.zero_le 5) (Xdp.Gen.loopStep_head paced 5 0 rfl))
  refine ⟨by decide, ?_, _, _, hstep, ?_⟩
  · refine hudp 16 0 0 [fullTurn] ?_ ⟨fullTurn_follows, trivial⟩
    intro turn hturn
    rw [List.mem_singleton.mp hturn]
    exact le_rfl
  · exact hgen paced _ _ _ rfl ⟨Xdp.Gen.init_started paced 0, rfl⟩ hstep

/-! ## A count that wraps -/

section Wrapping

variable {len : ℕ} {sid : UInt64} {t : UdpThread len sid}

/-- The largest budget. -/
def maxBudget : UInt64 := 0xffffffffffffffff

/-- Multiples of 64 miss the largest budget. -/
theorem not_due_fullTurn (hsent : t.pacer.sentSec.toNat % 64 = 0) :
    (t.noted fullTurn.toSendTurn).sentSec.toNat % 64 = 0 ∧
      ¬ (t.noted fullTurn.toSendTurn).Due maxBudget := by
  have hnoted : (t.noted fullTurn.toSendTurn).sentSec = t.pacer.sentSec + 64 := rfl
  have htoNat : (t.pacer.sentSec + 64).toNat % 64 = 0 := by
    rw [UInt64.toNat_add]
    show (t.pacer.sentSec.toNat + 64) % 2 ^ 64 % 64 = 0
    omega
  refine ⟨by rw [hnoted, htoNat], ?_⟩
  rintro ⟨-, hle⟩
  rw [hnoted] at hle
  have hmax : 2 ^ 64 - 1 ≤ (t.pacer.sentSec + 64).toNat := UInt64.le_iff_toNat_le.mp hle
  have hlt := (t.pacer.sentSec + 64).toNat_lt
  omega

/-- A thread that only has full turns never starts over. -/
theorem fullTurns (n : ℕ) (hsent : t.pacer.sentSec.toNat % 64 = 0) :
    t.Clocked maxBudget 0 (List.replicate n fullTurn) ∧
      t.timeline maxBudget (List.replicate n fullTurn) =
        List.replicate (64 * n) (.item 0) := by
  induction n generalizing t with
  | zero => exact ⟨trivial, rfl⟩
  | succ n ih =>
      obtain ⟨hnext, hdue⟩ := not_due_fullTurn hsent
      have hpacer : (t.turn maxBudget fullTurn.toSendTurn).1.pacer =
          t.noted fullTurn.toSendTurn := by
        rw [UdpThread.turn_pacer, Pacer.pace_of_not_due _ _ hdue]
      have hend : (t.noted fullTurn.toSendTurn).paceEnd maxBudget fullTurn.read fullTurn.late =
          0 := if_neg hdue
      obtain ⟨hclocked, hmarks⟩ := ih (t := (t.turn maxBudget fullTurn.toSendTurn).1) (by
        rw [hpacer, hnext])
      rw [List.replicate_succ]
      refine ⟨⟨fullTurn_follows, by rw [hend]; exact hclocked⟩, ?_⟩
      rw [UdpThread.timeline, hmarks, Pacer.paceMarks, if_neg hdue, List.append_nil]
      show (List.replicate 64 0).map Mark.item ++ _ = _
      rw [List.map_replicate, List.replicate_append_replicate]
      congr 1
      omega

end Wrapping

/-- With the largest budget, a thread sends `2 ^ 64 + 64` datagrams without starting over. -/
theorem burst_exceeds_maxBudget :
    1 ≤ maxBudget ∧
      (∀ turn ∈ List.replicate (2 ^ 58 + 1) fullTurn, turn.ret ≤ batch) ∧
      (UdpThread.new 16 0 0).Clocked maxBudget 0 (List.replicate (2 ^ 58 + 1) fullTurn) ∧
      ¬ BurstBound maxBudget.toNat 0
        ((UdpThread.new 16 0 0).timeline maxBudget (List.replicate (2 ^ 58 + 1) fullTurn)) := by
  obtain ⟨hclocked, hmarks⟩ := fullTurns (t := UdpThread.new 16 0 0) (2 ^ 58 + 1) rfl
  refine ⟨by decide, ?_, hclocked, ?_⟩
  · intro turn hturn
    rw [List.eq_of_mem_replicate hturn]
    exact le_rfl
  · rw [hmarks]
    intro hbound
    have hresets (n : ℕ) : resetTimes (List.replicate n (.item 0)) = [] := by
      simp [resetTimes]
    have hitems (n : ℕ) : (itemTimes (List.replicate n (.item 0))).length = n := by
      simp [itemTimes]
    have hle := hbound.window [] _ [] (by rw [List.nil_append, List.append_nil]) (hresets _)
    rw [hitems] at hle
    have hmax : maxBudget.toNat = 2 ^ 64 - 1 := rfl
    omega

end RunPerf.Rate
