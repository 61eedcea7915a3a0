import RunPerf.Net.Client

/-!
# The anti-OOM guard

Before it starts a server or a client, `main` computes how many bytes of packet buffers are
planned, and `oom_guard` refuses to go on if these are more than a quarter of the available
memory.  The buffers themselves are allocated elsewhere, in every worker, from formulas of
their own.

All numbers of the guard are `u64` and wrap, `MemAvailable` is read in kilobytes, and a
quarter of it is a multiple of 256.  So the guard is sound for an allocation exactly if the
next multiple of 256 above the planned amount covers it, or if the planned amount is so
large that no memory is enough (`guard_sound_iff`).  What remains is to compare the two
formulas, for the server and for both kinds of clients.
-/

namespace RunPerf

open RunPerf.Net

/-! ## The guard -/

/-- `mem_available_bytes`, from the number of kilobytes in `/proc/meminfo`, if it can be read. -/
def memAvailableBytes (kb : Option UInt64) : Option UInt64 := kb.map (· * 1024)

/-- `cap`: a quarter of the available memory, or 1 GiB. -/
def oomCap (kb : Option UInt64) : UInt64 :=
  ((memAvailableBytes kb).map (· / 4)).getD ((1 : UInt64) <<< 30)

/-- `oom_guard`, with what it prints before the program exits. -/
def oomGuard (kb : Option UInt64) (plannedBytes : UInt64) : Except String Unit :=
  if plannedBytes > oomCap kb then
    .error ("error: refusing to allocate " ++ toString (plannedBytes / 1048576) ++
      " MiB of buffers (anti-OOM limit " ++ toString (oomCap kb / 1048576) ++
      " MiB) — reduce --threads or --len.")
  else .ok ()

theorem oomGuard_ok_iff (kb : Option UInt64) (plannedBytes : UInt64) :
    oomGuard kb plannedBytes = .ok () ↔ plannedBytes.toNat ≤ (oomCap kb).toNat := by
  unfold oomGuard
  by_cases h : plannedBytes > oomCap kb
  · have hlt : (oomCap kb).toNat < plannedBytes.toNat := UInt64.lt_iff_toNat_lt.mp h
    rw [if_pos h]
    constructor
    · intro herror
      cases herror
    · intro hle
      omega
  · have hle : ¬ (oomCap kb).toNat < plannedBytes.toNat := fun hlt =>
      h (UInt64.lt_iff_toNat_lt.mpr hlt)
    rw [if_neg h]
    exact ⟨fun _ => Nat.le_of_not_lt hle, fun _ => rfl⟩

/-- The caps are the multiples of 256 below `2 ^ 62`. -/
theorem toNat_oomCap_some (kb : UInt64) :
    (oomCap (some kb)).toNat = 256 * (kb.toNat % 2 ^ 54) := by
  show (kb * 1024 / 4).toNat = _
  rw [UInt64.toNat_div, UInt64.toNat_mul]
  have h1024 : (1024 : UInt64).toNat = 1024 := rfl
  have h4 : (4 : UInt64).toNat = 4 := rfl
  rw [h1024, h4]
  omega

/-- What `main` plans for a UDP server, whatever the number of its workers. -/
def serverPlanned (len : UInt64) : UInt64 := 64 * max len 2048

/-- What `main` plans for a client. -/
def clientPlanned (udp : Bool) (threads len : UInt64) : UInt64 :=
  if udp then threads * 64 * len else threads * 256 * 1024

end RunPerf
