import RunPerf.Rate.Burst

/-!
# The target rate of the UDP client

`--target-pps` is shared between the threads: each has `target_pps / threads` datagrams for a
second, but at least one.  If there are no more threads than datagrams, and no thread sends a
batch that goes beyond its share, the threads together keep to the target (`capped_of_kept`).

A thread hands whole batches of 64 to the kernel and looks at its share afterwards, so nothing
makes it keep to it: for every target and every number of threads there is a run that exceeds
the target in the first second (`exists_not_capped`).
-/

namespace RunPerf.Rate

open RunPerf.Lib RunPerf.Net

/-- A run of `udp_client` with the times at which its threads send. -/
structure TimedClient where
  threads : UInt64
  len : ℕ
  targetPps : UInt64
  start : UInt64 → ℕ
  turns : UInt64 → List TimedTurn

namespace TimedClient

/-- The run without the times. -/
def untimed (client : TimedClient) : UdpClient where
  threads := client.threads
  len := client.len
  targetPps := client.targetPps
  start := client.start
  turns t := (client.turns t).map TimedTurn.toSendTurn

def budget (client : TimedClient) : UInt64 := client.untimed.ppsPerThread

/-- Thread `t` when it reads `sec_start` for the first time. -/
def thread (client : TimedClient) (t : UInt64) : UdpThread client.len t :=
  .new client.len t (client.start t)

/-- What thread `t` does, with the times. -/
def timeline (client : TimedClient) (t : UInt64) : List Mark :=
  (client.thread t).timeline client.budget (client.turns t)

/-- What the kernel and the clock promise: no call of `sendmmsg` accepts more than the 64
datagrams it is given, and time goes forward in every thread. -/
structure Real (client : TimedClient) : Prop where
  ret : ∀ t < client.threads, ∀ turn ∈ client.turns t, turn.ret ≤ batch
  clock : ∀ t < client.threads,
    (client.thread t).Clocked client.budget (client.start t) (client.turns t)

/-- The datagrams handed to the kernel by the time `T`. -/
def handed (client : TimedClient) (T : ℕ) : ℕ :=
  ∑ t ∈ Finset.range client.threads.toNat,
    Windows.upTo T (client.timeline (UInt64.ofNat t))

/-- The pacing of the first thread starts at `first`. -/
def Starts (client : TimedClient) (first : ℕ) : Prop :=
  (∃ t < client.threads, client.start t = first) ∧ ∀ t < client.threads, first ≤ client.start t

/-- The target is kept at all times. -/
def Capped (client : TimedClient) : Prop :=
  ∀ first T, client.Starts first → first ≤ T →
    client.handed T ≤ client.targetPps.toNat * ((T - first) / second + 1)

/-- Every thread has its share, and no batch goes beyond it. -/
structure Kept (client : TimedClient) : Prop where
  share : client.threads ≤ client.targetPps
  within : ∀ t < client.threads,
    (client.thread t).Within client.budget client.budget.toNat (client.turns t)

variable {client : TimedClient}

theorem toNat_budget (htarget : 1 ≤ client.targetPps) :
    client.budget.toNat = max (client.targetPps.toNat / client.threads.toNat) 1 := by
  have hne : client.targetPps ≠ 0 := by
    rintro heq
    rw [heq] at htarget
    exact absurd htarget (by decide)
  have hbudget : client.budget = max (client.targetPps / client.threads) 1 := if_neg hne
  have hdiv : (client.targetPps / client.threads).toNat =
      client.targetPps.toNat / client.threads.toNat := UInt64.toNat_div _ _
  rw [hbudget, ← hdiv]
  show (if _ then _ else _ : UInt64).toNat = _
  split
  · rename_i hle
    exact (Nat.max_eq_right (UInt64.le_iff_toNat_le.mp hle)).symm
  · rename_i hlt
    have hge : 1 ≤ (client.targetPps / client.threads).toNat :=
      (UInt64.lt_iff_toNat_lt.mp (UInt64.not_le.mp hlt)).le
    exact (Nat.max_eq_left hge).symm

/-! ## Clients that keep to the target -/

/-- The shares of all threads are no more than the target. -/
theorem threads_mul_budget_le (htarget : 1 ≤ client.targetPps) (hthreads : 1 ≤ client.threads)
    (hshare : client.threads ≤ client.targetPps) :
    client.threads.toNat * client.budget.toNat ≤ client.targetPps.toNat := by
  have hpos : 0 < client.threads.toNat := UInt64.le_iff_toNat_le.mp hthreads
  have hone : 1 ≤ client.targetPps.toNat / client.threads.toNat :=
    (Nat.one_le_div_iff hpos).mpr (UInt64.le_iff_toNat_le.mp hshare)
  rw [toNat_budget htarget, Nat.max_eq_left hone]
  exact Nat.mul_div_le _ _

theorem upTo_timeline_le (hreal : client.Real) (hkept : client.Kept) {t : UInt64}
    (ht : t < client.threads) (T : ℕ) :
    Windows.upTo T (client.timeline t) ≤
      client.budget.toNat * ((T - client.start t) / second + 1) := by
  obtain ⟨w, hpath⟩ := UdpThread.path_timeline client.budget.toNat_lt le_rfl (hreal.clock t ht)
    (hkept.within t ht)
  exact Windows.upTo_le (by decide) rfl hpath T

theorem capped_of_kept (htarget : 1 ≤ client.targetPps) (hthreads : 1 ≤ client.threads)
    (hreal : client.Real) (hkept : client.Kept) : client.Capped := by
  rintro first T ⟨-, hfirst⟩ hT
  have hthread : ∀ t ∈ Finset.range client.threads.toNat,
      Windows.upTo T (client.timeline (UInt64.ofNat t)) ≤
        client.budget.toNat * ((T - first) / second + 1) := by
    intro t ht
    have hlt : UInt64.ofNat t < client.threads := by
      have hrange := Finset.mem_range.mp ht
      have hsize := client.threads.toNat_lt
      rw [UInt64.lt_iff_toNat_lt, UInt64.toNat_ofNat_of_lt' (show t < 2 ^ 64 by omega)]
      exact hrange
    refine (upTo_timeline_le hreal hkept hlt T).trans (Nat.mul_le_mul_left _ ?_)
    have hlater := hfirst _ hlt
    exact Nat.add_le_add_right (Nat.div_le_div_right (by omega)) 1
  calc client.handed T
      ≤ ∑ _t ∈ Finset.range client.threads.toNat,
          client.budget.toNat * ((T - first) / second + 1) := Finset.sum_le_sum hthread
    _ = client.threads.toNat * client.budget.toNat * ((T - first) / second + 1) := by
        rw [Finset.sum_const, Finset.card_range, smul_eq_mul, Nat.mul_assoc]
    _ ≤ client.targetPps.toNat * ((T - first) / second + 1) :=
        Nat.mul_le_mul_right _ (threads_mul_budget_le htarget hthreads hkept.share)

end TimedClient

/-! ## Clients that do not -/

/-- A turn in which the kernel accepts one datagram, at the time 0. -/
def singleTurn : TimedTurn := ⟨⟨1, 0, 0⟩, [0]⟩

/-- One datagram after the other until the share is nearly used up, then a whole batch. -/
def burst (n : ℕ) : List TimedTurn := List.replicate n singleTurn ++ [fullTurn]

theorem singleTurn_follows : singleTurn.Follows 0 where
  accepted := rfl
  forward := by decide
  read := by decide

theorem upTo_paceMarks (T : ℕ) (budget : UInt64) (read late : ℕ) (p : Pacer) :
    Windows.upTo T (p.paceMarks budget read late) = 0 := by
  rw [Windows.upTo, Pacer.itemTimes_paceMarks, List.countP_nil]

theorem burst_spec {len : ℕ} {sid : UInt64} (budget : UInt64) (n : ℕ) {t : UdpThread len sid}
    (hsent : t.pacer.sentSec.toNat + n < budget.toNat) :
    t.Clocked budget 0 (burst n) ∧ Windows.upTo 0 (t.timeline budget (burst n)) = n + 64 := by
  induction n generalizing t with
  | zero =>
      refine ⟨⟨fullTurn_follows, trivial⟩, ?_⟩
      show Windows.upTo 0 (fullTurn.times.map .item ++ Pacer.paceMarks _ _ _ _ ++ []) = _
      rw [List.append_nil, Windows.upTo_append, upTo_paceMarks]
      rfl
  | succ n ih =>
      have hone : singleTurn.ret.toNat = 1 := rfl
      have hnoted : (t.noted singleTurn.toSendTurn).sentSec.toNat = t.pacer.sentSec.toNat + 1 :=
        UdpThread.noted_sentSec (by have := budget.toNat_lt; omega)
      have hdue : ¬ (t.noted singleTurn.toSendTurn).Due budget := by
        rintro ⟨-, hle⟩
        have hle := UInt64.le_iff_toNat_le.mp hle
        omega
      have hpacer : (t.turn budget singleTurn.toSendTurn).1.pacer =
          t.noted singleTurn.toSendTurn := by
        rw [UdpThread.turn_pacer, Pacer.pace_of_not_due _ _ hdue]
      obtain ⟨hclocked, hupTo⟩ := ih (t := (t.turn budget singleTurn.toSendTurn).1) (by
        rw [hpacer]
        omega)
      have hend : (t.noted singleTurn.toSendTurn).paceEnd budget singleTurn.read singleTurn.late =
          0 := if_neg hdue
      refine ⟨⟨singleTurn_follows, by rw [hend]; exact hclocked⟩, ?_⟩
      show Windows.upTo 0 (singleTurn.times.map .item ++ Pacer.paceMarks _ _ _ _ ++
        UdpThread.timeline budget _ (burst n)) = _
      rw [Windows.upTo_append, Windows.upTo_append, upTo_paceMarks, hupTo]
      show 1 + 0 + (n + 64) = _
      omega

/-- The run in which every thread does so. -/
def bursting (targetPps threads : UInt64) : TimedClient where
  threads := threads
  len := 16
  targetPps := targetPps
  start _ := 0
  turns _ := burst (max (targetPps.toNat / threads.toNat) 1 - 1)

theorem ret_le_of_mem_burst {n : ℕ} {turn : TimedTurn} (h : turn ∈ burst n) : turn.ret ≤ batch := by
  rcases List.mem_append.mp h with hsingle | hfull
  · rw [List.eq_of_mem_replicate hsingle]
    decide
  · rw [List.mem_singleton.mp hfull]
    decide

theorem bursting_thread {targetPps : UInt64} (htarget : 1 ≤ targetPps) (threads t : UInt64) :
    (UdpThread.new 16 t 0).Clocked (bursting targetPps threads).budget 0
        ((bursting targetPps threads).turns t) ∧
      Windows.upTo 0 ((bursting targetPps threads).timeline t) =
        max (targetPps.toNat / threads.toNat) 1 + 63 := by
  have hbudget : (bursting targetPps threads).budget.toNat =
      max (targetPps.toNat / threads.toNat) 1 := TimedClient.toNat_budget htarget
  have hpos : 1 ≤ max (targetPps.toNat / threads.toNat) 1 := Nat.le_max_right _ _
  have hnew : (UdpThread.new 16 t 0).pacer.sentSec.toNat = 0 := rfl
  obtain ⟨hclocked, hupTo⟩ := burst_spec (bursting targetPps threads).budget
    (max (targetPps.toNat / threads.toNat) 1 - 1) (t := UdpThread.new 16 t 0) (by omega)
  exact ⟨hclocked, hupTo.trans (by omega)⟩

theorem bursting_real {targetPps : UInt64} (htarget : 1 ≤ targetPps) (threads : UInt64) :
    (bursting targetPps threads).Real where
  ret := fun _ _ _ hturn => ret_le_of_mem_burst hturn
  clock := fun t _ => (bursting_thread htarget threads t).1

theorem bursting_not_capped {targetPps threads : UInt64} (htarget : 1 ≤ targetPps)
    (hthreads : 1 ≤ threads) : ¬ (bursting targetPps threads).Capped := by
  intro hcapped
  have hpos : 0 < threads.toNat := UInt64.le_iff_toNat_le.mp hthreads
  have hstarts : (bursting targetPps threads).Starts 0 :=
    ⟨⟨0, UInt64.lt_iff_toNat_lt.mpr hpos, rfl⟩, fun _ _ => le_rfl⟩
  have hhanded : (bursting targetPps threads).handed 0 =
      threads.toNat * (max (targetPps.toNat / threads.toNat) 1 + 63) := by
    have hthread (t : ℕ) := (bursting_thread htarget threads (UInt64.ofNat t)).2
    rw [TimedClient.handed, Finset.sum_congr rfl fun t _ => hthread t, Finset.sum_const,
      Finset.card_range, smul_eq_mul]
    rfl
  have hmore : targetPps.toNat < threads.toNat * (max (targetPps.toNat / threads.toNat) 1 + 63) :=
    calc targetPps.toNat
        < threads.toNat * (targetPps.toNat / threads.toNat + 1) := Nat.lt_mul_div_succ _ hpos
      _ ≤ threads.toNat * (max (targetPps.toNat / threads.toNat) 1 + 63) :=
          Nat.mul_le_mul_left _ (by omega)
  have hle := hcapped 0 0 hstarts le_rfl
  rw [hhanded] at hle
  simp only [Nat.sub_self, Nat.zero_div, Nat.zero_add, Nat.mul_one] at hle
  exact absurd hle (Nat.not_le.mpr hmore)

/-- **When the target is kept.**  Whatever the target and the number of threads, a run whose
batches stay within the share of their thread keeps to the target if there are no more threads
than datagrams; and there is a run that does not keep to it. -/
theorem target_kept_when (targetPps threads : UInt64) (htarget : 1 ≤ targetPps)
    (hthreads : 1 ≤ threads) :
    (∀ client : TimedClient, client.targetPps = targetPps → client.threads = threads →
      client.Real → client.Kept → client.Capped) ∧
    ∃ client : TimedClient, client.targetPps = targetPps ∧ client.threads = threads ∧
      client.Real ∧ ¬ client.Capped := by
  constructor
  · rintro client rfl rfl hreal hkept
    exact TimedClient.capped_of_kept htarget hthreads hreal hkept
  · exact ⟨bursting targetPps threads, rfl, rfl, bursting_real htarget threads,
      bursting_not_capped htarget hthreads⟩

/-- One thread with a target of two datagrams per second, in two batches of one. -/
def pairClient : TimedClient := ⟨1, 16, 2, fun _ => 0, fun _ => [singleTurn, singleTurn]⟩

theorem target_kept_pair :
    (1 ≤ pairClient.targetPps ∧ 1 ≤ pairClient.threads) ∧ pairClient.Real ∧ pairClient.Kept ∧
      pairClient.handed 0 = 2 ∧ pairClient.Capped := by
  have hzero : ∀ t < pairClient.threads, t = 0 := by
    intro t ht
    have hlt : t.toNat < 1 := UInt64.lt_iff_toNat_lt.mp ht
    exact UInt64.toNat_inj.mp (Nat.lt_one_iff.mp hlt)
  have hreal : pairClient.Real := by
    constructor
    · intro t _ turn hturn
      rw [List.eq_of_mem_replicate (n := 2) hturn]
      decide
    · intro t ht
      rw [hzero t ht]
      exact ⟨singleTurn_follows, singleTurn_follows, trivial⟩
  have hkept : pairClient.Kept := by
    constructor
    · decide
    · intro t ht
      rw [hzero t ht]
      exact ⟨by decide, by decide, trivial⟩
  refine ⟨by decide, hreal, hkept, by decide, ?_⟩
  exact (target_kept_when 2 1 (by decide) (by decide)).1 pairClient rfl rfl hreal hkept

/-- One thread and a target of one datagram per second: the first batch has 64. -/
theorem target_exceeded_by_batch :
    (1 : UInt64) ≤ (bursting 1 1).targetPps ∧ (1 : UInt64) ≤ (bursting 1 1).threads ∧
      (bursting 1 1).Real ∧ (bursting 1 1).Starts 0 ∧ (bursting 1 1).handed 0 = 64 ∧
      ¬ (bursting 1 1).Capped := by
  refine ⟨by decide, by decide, bursting_real (by decide) 1, ?_, ?_,
    bursting_not_capped (by decide) (by decide)⟩
  · exact ⟨⟨0, by decide, rfl⟩, fun _ _ => le_rfl⟩
  · decide

end RunPerf.Rate
