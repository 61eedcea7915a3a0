import RunPerf.Rate.Target
import RunPerf.Xdp.BlastFrames

/-!
# How far the target rate is exceeded

A worker looks at its share of `--target-pps` behind each batch of 64.  Up to a time `T` it has
had as many windows as seconds have begun, and a window has at most 63 packets more than the
share.  So `threads` workers hand out at most

  `threads * (max (target / threads) 1 + 63) * (seconds + 1)`

packets (`mostHanded`).  This holds for the threads of `udp_client` and for the workers of
`xdp_udp_blast`, whatever the kernel and the clock do.

For `udp_client` nothing less holds: if the kernel accepts one datagram after the other, and a
whole batch when the share is down to one, every second is as bad as that (`handed_eruption`).
-/

namespace RunPerf.Rate

open RunPerf.Lib RunPerf.Net

/-- The share of the target that a worker has. -/
def share (target threads : ℕ) : ℕ := max (target / threads) 1

/-- The most that `threads` workers hand out up to `T`, when the first starts at `first`. -/
def mostHanded (target threads first T : ℕ) : ℕ :=
  threads * (share target threads + 63) * ((T - first) / second + 1)

/-! ## The threads of `udp_client` -/

namespace TimedClient

variable {client : TimedClient}

theorem path_of_real (htarget : 1 ≤ client.targetPps)
    (hfit : share client.targetPps.toNat client.threads.toNat ≤ 2 ^ 64 - 64)
    (hreal : client.Real) {t : UInt64} (ht : t < client.threads) :
    ∃ w, (windows second (share client.targetPps.toNat client.threads.toNat + 63)
      (client.start t)).Path ⟨client.start t, 0, client.start t⟩ (client.timeline t) w := by
  have hbudget : client.budget.toNat = share client.targetPps.toNat client.threads.toNat :=
    toNat_budget htarget
  have hone : 1 ≤ client.budget := by
    rw [UInt64.le_iff_toNat_le, hbudget]
    exact Nat.le_max_right _ _
  have hnew : (client.thread t).pacer.sentSec < client.budget :=
    UInt64.lt_iff_toNat_lt.mpr (UInt64.le_iff_toNat_le.mp hone)
  have hwithin := UdpThread.within_of_ret_le hone hnew (hreal.ret t ht)
  rw [hbudget] at hwithin
  exact UdpThread.path_timeline (by omega) le_rfl (hreal.clock t ht) hwithin

theorem handed_le (htarget : 1 ≤ client.targetPps)
    (hfit : share client.targetPps.toNat client.threads.toNat ≤ 2 ^ 64 - 64)
    (hreal : client.Real) {first : ℕ} (hstarts : client.Starts first) (T : ℕ) :
    client.handed T ≤ mostHanded client.targetPps.toNat client.threads.toNat first T := by
  have hthread : ∀ t ∈ Finset.range client.threads.toNat, UInt64.ofNat t < client.threads := by
    intro t ht
    have hrange := Finset.mem_range.mp ht
    have hsize := client.threads.toNat_lt
    rw [UInt64.lt_iff_toNat_lt, UInt64.toNat_ofNat_of_lt' (show t < 2 ^ 64 by omega)]
    exact hrange
  have hle := Windows.sum_upTo_le (Finset.range client.threads.toNat) _ _ (by decide)
    (fun t ht => hstarts.2 _ (hthread t ht))
    (fun t ht => path_of_real htarget hfit hreal (hthread t ht)) T
  rwa [Finset.card_range] at hle

end TimedClient

/-! ## The worst run of `udp_client` -/

/-- The kernel accepts one datagram at `time`. -/
def singleAt (time : ℕ) : TimedTurn := ⟨⟨1, time, 0⟩, [time]⟩

/-- The kernel accepts a whole batch at `time`. -/
def fullAt (time : ℕ) : TimedTurn := ⟨⟨64, time, 0⟩, List.replicate 64 time⟩

/-- `n` datagrams one after the other, then a whole batch. -/
def burstAt (n time : ℕ) : List TimedTurn := List.replicate n (singleAt time) ++ [fullAt time]

/-- Such a burst at `time`, and then one in each of the next `seconds` seconds. -/
def bursts (n : ℕ) : ℕ → ℕ → List TimedTurn
  | 0, time => burstAt n time
  | seconds + 1, time => burstAt n time ++ bursts n seconds (time + second)

/-- The run in which every thread does so. -/
def eruption (targetPps threads : UInt64) (seconds : ℕ) : TimedClient where
  threads := threads
  len := 16
  targetPps := targetPps
  start _ := 0
  turns _ := bursts (share targetPps.toNat threads.toNat - 1) seconds 0

theorem singleAt_follows (time : ℕ) : (singleAt time).Follows time where
  accepted := rfl
  forward := .cons_cons le_rfl (.singleton _)
  read := by simp [singleAt]

theorem fullAt_follows (time : ℕ) : (fullAt time).Follows time where
  accepted := rfl
  forward := List.isChain_replicate_of_rel 65 le_rfl
  read := by simp [fullAt]

theorem ret_le_of_mem_burstAt {n time : ℕ} {turn : TimedTurn} (h : turn ∈ burstAt n time) :
    turn.ret ≤ batch := by
  rcases List.mem_append.mp h with hsingle | hfull
  · rw [List.eq_of_mem_replicate hsingle]
    show (1 : ℤ) ≤ 64
    omega
  · rw [List.mem_singleton.mp hfull]
    exact le_rfl

theorem ret_le_of_mem_bursts {n seconds time : ℕ} {turn : TimedTurn}
    (h : turn ∈ bursts n seconds time) : turn.ret ≤ batch := by
  induction seconds generalizing time with
  | zero => exact ret_le_of_mem_burstAt h
  | succ seconds ih =>
      rcases List.mem_append.mp h with hfirst | hlater
      · exact ret_le_of_mem_burstAt hfirst
      · exact ih hlater

section Burst

variable {len : ℕ} {sid : UInt64} {t : UdpThread len sid} {budget : UInt64} {time : ℕ}

theorem upTo_items {T : ℕ} {times : List ℕ} (hT : ∀ time ∈ times, time ≤ T) :
    Windows.upTo T (times.map .item) = times.length := by
  have hitems : itemTimes (times.map .item) = times := by
    simp [itemTimes, List.filterMap_map]
  rw [Windows.upTo, hitems]
  exact List.countP_eq_length.mpr fun time htime => decide_eq_true (hT time htime)

/-- A datagram below the share does not make the thread sleep. -/
theorem turn_singleAt (time : ℕ) (hsent : t.pacer.sentSec.toNat + 1 < budget.toNat) :
    (t.turn budget (singleAt time).toSendTurn).1.pacer =
        ⟨t.pacer.sentSec + 1, t.pacer.secStart⟩ ∧
      (t.noted (singleAt time).toSendTurn).paceEnd budget time 0 = time := by
  have hnoted : t.noted (singleAt time).toSendTurn = ⟨t.pacer.sentSec + 1, t.pacer.secStart⟩ := rfl
  have hdue : ¬ (t.noted (singleAt time).toSendTurn).Due budget := by
    intro ⟨_, hle⟩
    have hfit : (t.noted (singleAt time).toSendTurn).sentSec.toNat = t.pacer.sentSec.toNat + 1 :=
      UdpThread.noted_sentSec (by
        show t.pacer.sentSec.toNat + 1 < 2 ^ 64
        have := budget.toNat_lt
        omega)
    have hle := UInt64.le_iff_toNat_le.mp hle
    omega
  constructor
  · rw [UdpThread.turn_pacer, Pacer.pace_of_not_due _ _ hdue, hnoted]
  · exact if_neg hdue

/-- A whole batch that uses up the share makes it sleep for the rest of the second. -/
theorem turn_fullAt (hbudget : 1 ≤ budget) (hstart : t.pacer.secStart = time)
    (hsent : budget.toNat ≤ t.pacer.sentSec.toNat + 1)
    (hfit : t.pacer.sentSec.toNat + 64 < 2 ^ 64) :
    (t.turn budget (fullAt time).toSendTurn).1.pacer = ⟨0, time + second⟩ ∧
      (t.noted (fullAt time).toSendTurn).paceEnd budget time 0 = time + second := by
  have hcount : (t.noted (fullAt time).toSendTurn).sentSec.toNat = t.pacer.sentSec.toNat + 64 :=
    UdpThread.noted_sentSec hfit
  have hdue : (t.noted (fullAt time).toSendTurn).Due budget := by
    refine ⟨UInt64.lt_iff_toNat_lt.mpr (UInt64.le_iff_toNat_le.mp hbudget), ?_⟩
    apply UInt64.le_iff_toNat_le.mpr
    omega
  have hpace : (t.noted (fullAt time).toSendTurn).pace budget time 0 = ⟨0, time + second⟩ := by
    rw [Pacer.pace_of_due _ _ hdue, Pacer.pause, UdpThread.noted_secStart, hstart, Nat.sub_self]
    rfl
  constructor
  · rw [UdpThread.turn_pacer]
    exact hpace
  · rw [Pacer.paceEnd, if_pos hdue, hpace]

/-- A burst uses up the second, and sends 63 datagrams more than the share. -/
theorem burstAt_spec {n : ℕ} (hbudget : 1 ≤ budget) (hfit : budget.toNat ≤ 2 ^ 64 - 64)
    (hstart : t.pacer.secStart = time) (hsent : t.pacer.sentSec.toNat + n + 1 = budget.toNat) :
    ∃ next : UdpThread len sid, next.pacer = ⟨0, time + second⟩ ∧ ∀ rest,
      (next.Clocked budget (time + second) rest → t.Clocked budget time (burstAt n time ++ rest)) ∧
      ∀ T, time ≤ T → Windows.upTo T (t.timeline budget (burstAt n time ++ rest)) =
        n + 64 + Windows.upTo T (next.timeline budget rest) := by
  induction n generalizing t with
  | zero =>
      -- One datagram is left of the share, and a whole batch is accepted.
      obtain ⟨hpacer, hend⟩ := turn_fullAt hbudget hstart (by omega) (by omega)
      refine ⟨_, hpacer, fun rest => ⟨fun hrest => ⟨fullAt_follows time, ?_⟩, ?_⟩⟩
      · show UdpThread.Clocked budget _ (Pacer.paceEnd budget time 0 _) rest
        rwa [hend]
      · intro T hT
        show Windows.upTo T ((fullAt time).times.map .item ++ Pacer.paceMarks _ _ _ _ ++
          UdpThread.timeline budget _ rest) = _
        rw [Windows.upTo_append, Windows.upTo_append, upTo_paceMarks, upTo_items]
        · rfl
        · intro time' htime
          rwa [List.eq_of_mem_replicate htime]
  | succ n ih =>
      have hbelow : t.pacer.sentSec.toNat + 1 < budget.toNat := by omega
      obtain ⟨hpacer, hend⟩ := turn_singleAt time hbelow
      have hnext : (t.pacer.sentSec + 1).toNat = t.pacer.sentSec.toNat + 1 := by
        rw [UInt64.toNat_add, UInt64.toNat_one, Nat.mod_eq_of_lt (by omega)]
      obtain ⟨next, hlast, hrest⟩ := ih (t := (t.turn budget (singleAt time).toSendTurn).1)
        (by rw [hpacer]; exact hstart) (by rw [hpacer, hnext]; omega)
      refine ⟨next, hlast, fun rest => ⟨fun hclocked => ⟨singleAt_follows time, ?_⟩, ?_⟩⟩
      · show UdpThread.Clocked budget _ (Pacer.paceEnd budget time 0 _) (burstAt n time ++ rest)
        rw [hend]
        exact (hrest rest).1 hclocked
      · intro T hT
        show Windows.upTo T ((singleAt time).times.map .item ++ Pacer.paceMarks _ _ _ _ ++
          UdpThread.timeline budget _ (burstAt n time ++ rest)) = _
        rw [Windows.upTo_append, Windows.upTo_append, upTo_paceMarks, (hrest rest).2 T hT,
          upTo_items]
        · show 1 + 0 + (n + 64 + _) = _
          omega
        · intro time' htime
          rwa [List.mem_singleton.mp htime]

theorem bursts_spec {n seconds T : ℕ} (hbudget : 1 ≤ budget) (hfit : budget.toNat ≤ 2 ^ 64 - 64)
    (hpacer : t.pacer = ⟨0, time⟩) (hn : n + 1 = budget.toNat)
    (hT : time + seconds * second ≤ T) :
    t.Clocked budget time (bursts n seconds time) ∧
      Windows.upTo T (t.timeline budget (bursts n seconds time)) = (n + 64) * (seconds + 1) := by
  have hopen {u : UdpThread len sid} {opened : ℕ} (hu : u.pacer = ⟨0, opened⟩) :
      u.pacer.secStart = opened ∧ u.pacer.sentSec.toNat + n + 1 = budget.toNat := by
    rw [hu]
    refine ⟨rfl, ?_⟩
    show 0 + n + 1 = _
    omega
  induction seconds generalizing t time with
  | zero =>
      obtain ⟨hstart, hsent⟩ := hopen hpacer
      obtain ⟨next, -, hrest⟩ := burstAt_spec hbudget hfit hstart hsent
      obtain ⟨hclocked, hupTo⟩ := hrest []
      rw [List.append_nil] at hclocked hupTo
      refine ⟨hclocked trivial, ?_⟩
      rw [bursts, hupTo T (by omega)]
      show n + 64 + 0 = _
      omega
  | succ seconds ih =>
      obtain ⟨hstart, hsent⟩ := hopen hpacer
      obtain ⟨next, hnext, hrest⟩ := burstAt_spec hbudget hfit hstart hsent
      have hlater : time + second + seconds * second ≤ T := by
        rw [Nat.succ_mul] at hT
        omega
      obtain ⟨hclocked, hupTo⟩ := ih hnext hlater
      refine ⟨(hrest _).1 hclocked, ?_⟩
      rw [bursts, (hrest _).2 T (by omega), hupTo, Nat.mul_succ _ (seconds + 1)]
      omega

end Burst

section Eruption

variable {targetPps threads : UInt64}

theorem eruption_thread (htarget : 1 ≤ targetPps)
    (hfit : share targetPps.toNat threads.toNat ≤ 2 ^ 64 - 64) (seconds : ℕ) (t : UInt64) :
    (UdpThread.new 16 t 0).Clocked (eruption targetPps threads seconds).budget 0
        ((eruption targetPps threads seconds).turns t) ∧
      Windows.upTo (seconds * second) ((eruption targetPps threads seconds).timeline t) =
        (share targetPps.toNat threads.toNat + 63) * (seconds + 1) := by
  have hbudget : (eruption targetPps threads seconds).budget.toNat =
      share targetPps.toNat threads.toNat := TimedClient.toNat_budget htarget
  have hone : 1 ≤ share targetPps.toNat threads.toNat := Nat.le_max_right _ _
  have hspec := bursts_spec (t := UdpThread.new 16 t 0)
    (show 1 ≤ (eruption targetPps threads seconds).budget by
      rwa [UInt64.le_iff_toNat_le, hbudget])
    (hbudget.trans_le hfit) rfl
    (show share targetPps.toNat threads.toNat - 1 + 1 = _ by omega)
    (show 0 + seconds * second ≤ seconds * second by omega)
  obtain ⟨hclocked, hupTo⟩ := hspec
  refine ⟨hclocked, hupTo.trans ?_⟩
  congr 1
  omega

theorem eruption_real (htarget : 1 ≤ targetPps)
    (hfit : share targetPps.toNat threads.toNat ≤ 2 ^ 64 - 64) (seconds : ℕ) :
    (eruption targetPps threads seconds).Real where
  ret := fun _ _ _ hturn => ret_le_of_mem_bursts hturn
  clock := fun t _ => (eruption_thread htarget hfit seconds t).1

theorem eruption_starts (hthreads : 1 ≤ threads) (seconds : ℕ) :
    (eruption targetPps threads seconds).Starts 0 :=
  ⟨⟨0, UInt64.lt_iff_toNat_lt.mpr (UInt64.le_iff_toNat_le.mp hthreads), rfl⟩, fun _ _ => le_rfl⟩

theorem handed_eruption (htarget : 1 ≤ targetPps)
    (hfit : share targetPps.toNat threads.toNat ≤ 2 ^ 64 - 64) (seconds : ℕ) :
    (eruption targetPps threads seconds).handed (seconds * second) =
      mostHanded targetPps.toNat threads.toNat 0 (seconds * second) := by
  have hthread (t : ℕ) := (eruption_thread htarget hfit seconds (UInt64.ofNat t)).2
  calc (eruption targetPps threads seconds).handed (seconds * second)
      = ∑ _t ∈ Finset.range threads.toNat,
          (share targetPps.toNat threads.toNat + 63) * (seconds + 1) :=
        Finset.sum_congr rfl fun t _ => hthread t
    _ = threads.toNat * (share targetPps.toNat threads.toNat + 63) * (seconds + 1) := by
        rw [Finset.sum_const, Finset.card_range, smul_eq_mul, Nat.mul_assoc]
    _ = mostHanded targetPps.toNat threads.toNat 0 (seconds * second) := by
        rw [mostHanded, Nat.sub_zero, Nat.mul_div_cancel _ (show 0 < second by decide)]

end Eruption

/-- **The most that `udp_client` sends.**  Whatever the kernel and the clock do, the threads hand
out at most `mostHanded` datagrams up to any time; and after any number of seconds there is a run
in which it is that many.  The share is to be at most `2 ^ 64 - 64`, else its count may wrap. -/
theorem udp_overshoot_exact (targetPps threads : UInt64) (htarget : 1 ≤ targetPps)
    (hthreads : 1 ≤ threads) (hfit : share targetPps.toNat threads.toNat ≤ 2 ^ 64 - 64) :
    (∀ client : TimedClient, client.targetPps = targetPps → client.threads = threads →
      client.Real → ∀ first T, client.Starts first →
        client.handed T ≤ mostHanded targetPps.toNat threads.toNat first T) ∧
    ∀ seconds, ∃ client : TimedClient, client.targetPps = targetPps ∧ client.threads = threads ∧
      client.Real ∧ client.Starts 0 ∧
      client.handed (seconds * second) =
        mostHanded targetPps.toNat threads.toNat 0 (seconds * second) := by
  constructor
  · intro client htargetEq hthreadsEq hreal first T hstarts
    subst htargetEq hthreadsEq
    exact TimedClient.handed_le htarget hfit hreal hstarts T
  · intro seconds
    exact ⟨eruption targetPps threads seconds, rfl, rfl, eruption_real htarget hfit seconds,
      eruption_starts hthreads seconds, handed_eruption htarget hfit seconds⟩

/-- Two threads that are to send 10 datagrams per second: in the first two seconds it may be 272. -/
theorem udp_overshoot_two :
    (1 ≤ (10 : UInt64) ∧ 1 ≤ (2 : UInt64) ∧
      share (10 : UInt64).toNat (2 : UInt64).toNat ≤ 2 ^ 64 - 64) ∧
    ∃ client : TimedClient, client.targetPps = 10 ∧ client.threads = 2 ∧ client.Real ∧
      client.handed second = 272 := by
  obtain ⟨-, hworst⟩ := udp_overshoot_exact 10 2 (by decide) (by decide) (by decide)
  obtain ⟨client, htarget, hthreads, hreal, -, hhanded⟩ := hworst 1
  rw [Nat.one_mul] at hhanded
  exact ⟨by decide, client, htarget, hthreads, hreal, hhanded.trans (by decide)⟩

/-! ## The workers of `xdp_udp_blast` -/

/-- A run of every worker of a plan, with the times. -/
structure TimedBlast (plan : Xdp.Blast.Plan) (cpu : Simd.Cpu) where
  first : ℕ → Xdp.Gen.State × ℕ
  last : ℕ → Xdp.Gen.State × ℕ
  trace : ℕ → List Xdp.Gen.Timed
  init : ∀ w < plan.socks.length, (Xdp.Gen.timed (plan.config cpu w)).Init (first w)
  path : ∀ w < plan.socks.length,
    (Xdp.Gen.timed (plan.config cpu w)).Path (first w) (trace w) (last w)

/-- The frames put on the TX rings by the time `T`. -/
def TimedBlast.handed {plan : Xdp.Blast.Plan} {cpu : Simd.Cpu} (run : TimedBlast plan cpu)
    (T : ℕ) : ℕ :=
  ∑ w ∈ Finset.range plan.socks.length, Windows.upTo T (Xdp.Gen.timeline (run.trace w))

theorem toNat_ppsPerThread {targetPps threads pps : UInt64} (htarget : 1 ≤ targetPps)
    (hpps : Options.ppsPerThread targetPps threads = .ok pps) :
    pps.toNat = share targetPps.toNat threads.toNat := by
  have hne : targetPps ≠ 0 := by
    intro heq
    rw [heq] at htarget
    exact absurd htarget (by decide)
  rw [Options.ppsPerThread, if_neg hne, Options.div] at hpps
  split at hpps
  · cases hpps
  · cases hpps
    have hdiv : (targetPps / threads).toNat = targetPps.toNat / threads.toNat :=
      UInt64.toNat_div _ _
    rw [share, ← hdiv]
    show (if _ then _ else _ : UInt64).toNat = _
    split
    · rename_i hle
      exact (Nat.max_eq_right (UInt64.le_iff_toNat_le.mp hle)).symm
    · rename_i hlt
      have hge := UInt64.lt_iff_toNat_lt.mp (UInt64.not_le.mp hlt)
      exact (Nat.max_eq_left hge.le).symm

/-- **The most that `xdp_udp_blast` sends.**  After a successful set-up with a target, the workers
put at most `mostHanded` frames on their rings up to any time, whatever the kernel and the clock
do. -/
theorem xdp_overshoot_bounded {host : Xdp.Blast.Host} {feature : Bool} {args : Xdp.Blast.Args}
    {plan : Xdp.Blast.Plan} (hsetup : Xdp.Blast.setup host feature args = .ok plan)
    (htarget : 1 ≤ args.targetPps)
    (hfit : share args.targetPps.toNat plan.socks.length ≤ 2 ^ 64 - 64)
    (run : TimedBlast plan host.cpu) (first T : ℕ)
    (hfirst : ∀ w < plan.socks.length, first ≤ (run.first w).2) :
    run.handed T ≤ mostHanded args.targetPps.toNat plan.socks.length first T := by
  have hworkers : (UInt64.ofNat plan.socks.length).toNat = plan.socks.length := by
    rw [(Xdp.Blast.setup_ok hsetup).1]
    exact UInt64.toNat_ofNat_of_lt' ((UInt32.toNat_lt _).trans (by decide))
  have hshare : plan.ppsPer.toNat = share args.targetPps.toNat plan.socks.length := by
    rw [toNat_ppsPerThread htarget (Xdp.Blast.setup_ppsPer hsetup), hworkers]
  have hone : 1 ≤ plan.ppsPer := by
    rw [UInt64.le_iff_toNat_le, hshare]
    exact Nat.le_max_right _ _
  have hpath : ∀ w ∈ Finset.range plan.socks.length, ∃ last,
      (windows second (plan.ppsPer.toNat + 63) (run.first w).2).Path
        ⟨(run.first w).2, 0, (run.first w).2⟩ (Xdp.Gen.timeline (run.trace w)) last := by
    intro w hw
    have hw := Finset.mem_range.mp hw
    exact Xdp.Gen.exists_window_path hone (hshare.trans_le hfit) (run.init w hw) (run.path w hw)
  have hle := Windows.sum_upTo_le (Finset.range plan.socks.length) _ _ (by decide)
    (fun w hw => hfirst w (Finset.mem_range.mp hw)) hpath T
  rw [Finset.card_range] at hle
  rw [mostHanded, ← hshare]
  exact hle

/-- A host like `oneHost`, where the worker has a share of ten frames per second. -/
def tenArgs : Xdp.Blast.Args :=
  ⟨String.ofList "eth0".toList, (.replicate 4 2, 5201), 18, 10, 10, [0]⟩

def tenPlan : Xdp.Blast.Plan := { Xdp.Blast.onePlan with ppsPer := 10 }

/-- Steps that take no time. -/
theorem timed_step {cfg : Xdp.Gen.Config} {s t : Xdp.Gen.State} {event : Xdp.Gen.Event}
    (hs : ¬ s.pc.Pacing) (hstep : Xdp.Gen.loopStep cfg 0 0 s = some (event, t)) :
    (Xdp.Gen.timed cfg).Step (s, 0) ⟨event, 0, false⟩ (t, 0) := by
  have hend : s.stepEnd cfg 0 0 = 0 ∧ s.Restarts cfg = false := by
    unfold Xdp.Gen.State.stepEnd Xdp.Gen.State.Restarts
    cases hpc : s.pc <;> simp_all [Xdp.Gen.Pc.Pacing]
  have hloop : Xdp.Gen.TimedStep cfg (s, 0) _ _ := .loop (Nat.le_refl 0) hstep
  rwa [hend.1, hend.2] at hloop

/-- A worker puts its first frame on the ring at the time 0. -/
theorem exists_first_frame {cfg : Xdp.Gen.Config} (hpayload : cfg.payloadLen ≤ 4054) :
    ∃ trace last, (Xdp.Gen.timed cfg).Path (Xdp.Gen.started cfg 0, 0) trace last ∧
      Windows.upTo 0 (Xdp.Gen.timeline trace) = 1 := by
  have hinit := Xdp.Gen.inv_init (Xdp.Gen.init_started cfg 0)
  -- The loop finds its frames in the pool.
  have hdequeue := Xdp.Gen.loopStep_head (s := Xdp.Gen.started cfg 0) cfg 0 0 rfl
  have hbegin := (Machine.Path.single (timed_step id hdequeue)).snoc
    (timed_step id (Xdp.Gen.loopStep_recycle cfg 0 0 rfl))
  have hinv := Xdp.Gen.inv_path hpayload hinit (Xdp.Gen.path_of_timed hbegin)
  obtain ⟨addr, hlast⟩ : ∃ addr, (Xdp.txPool ++
      (Xdp.Gen.started cfg 0).comp.dequeueAll.2).getLast? = some addr := by
    refine ⟨_, List.getLast?_eq_getLast_of_ne_nil fun hnil => ?_⟩
    have hlength := congrArg List.length (List.append_eq_nil_iff.mp hnil).1
    rw [Xdp.length_txPool] at hlength
    cases hlength
  -- The first attempt of the batch.
  have hpopped := Xdp.Gen.inv_pop_some hinv rfl hlast
  have hframe := Xdp.Gen.writeFrame_of_inv hpayload hpopped.stamped addr
  have hwritten := Xdp.Gen.inv_write hpayload hpopped rfl hframe
  have hone := (hwritten.conserved.produceTx _ rfl).1
  have hpath := ((hbegin.snoc (timed_step id (Xdp.Gen.loopStep_pop_some cfg 0 0 rfl hlast))).snoc
    (timed_step id (Xdp.Gen.loopStep_write cfg 0 0 rfl hframe))).snoc
    (timed_step id (Xdp.Gen.loopStep_produce cfg 0 0 rfl hone))
  exact ⟨_, _, hpath, rfl⟩

theorem xdp_overshoot_ten :
    Xdp.Blast.setup Xdp.Blast.oneHost false tenArgs = .ok tenPlan ∧
      ∃ run : TimedBlast tenPlan Xdp.Blast.oneHost.cpu,
        (run.first 0).2 = 0 ∧ run.handed 0 = 1 ∧ run.handed 0 ≤ mostHanded 10 1 0 0 := by
  have hsetup : Xdp.Blast.setup Xdp.Blast.oneHost false tenArgs = .ok tenPlan := rfl
  have hpayload (w : ℕ) : (tenPlan.config Xdp.Blast.oneHost.cpu w).payloadLen ≤ 4054 := by
    show 18 ≤ 4054
    omega
  choose trace last hpath hone using fun w => exists_first_frame (hpayload w)
  let run : TimedBlast tenPlan Xdp.Blast.oneHost.cpu := {
    first := fun w => (Xdp.Gen.started (tenPlan.config Xdp.Blast.oneHost.cpu w) 0, 0)
    last := last
    trace := trace
    init := fun w _ => ⟨Xdp.Gen.init_started _ 0, rfl⟩
    path := fun w _ => hpath w }
  have hhanded : run.handed 0 = 1 := by
    show ∑ w ∈ Finset.range 1, Windows.upTo 0 (Xdp.Gen.timeline (trace w)) = 1
    rw [Finset.sum_range_one, hone]
  refine ⟨hsetup, run, rfl, hhanded, ?_⟩
  exact xdp_overshoot_bounded hsetup (by decide) (by decide) run 0 0 fun _ _ => le_rfl

end RunPerf.Rate
