import RunPerf.Cpus

/-!
# Pinning

Workers are pinned to the CPUs of a list, which comes from `--cpus` or `--numa`, or else from
the CPUs that the process may use: worker `i` takes the entry `i` modulo the length.

`CPU_SET` indexes an array of 1024 bits and panics behind its end.  A list may name any `usize`,
and nothing on the way from the option to `CPU_SET` looks at the bound.
-/

namespace RunPerf.Pinning

open RunPerf.Lib RunPerf.Cpus

/-- `CPU_SETSIZE`. -/
def cpuSetsize : ℕ := 1024

/-- `cpu_set_t`: 16 words of 64 bits. -/
abbrev CpuSet := Fin 16 → BitVec 64

def CpuSet.zeroed : CpuSet := fun _ => 0#64

/-- `CPU_SET`; `none` is the panic of the array access. -/
def cpuSet (cpu : ℕ) (set : CpuSet) : Option CpuSet :=
  if h : cpu / 64 < 16 then
    some (Function.update set ⟨cpu / 64, h⟩ (set ⟨cpu / 64, h⟩ ||| (1#64 <<< (cpu % 64))))
  else none

/-- `CPU_ISSET`. -/
def cpuIsset (cpu : ℕ) (set : CpuSet) : Bool :=
  if h : cpu / 64 < 16 then (set ⟨cpu / 64, h⟩).getLsbD (cpu % 64) else false

/-- What the system says about CPUs: which there are, which of them the process may use
(`none` if `sched_getaffinity` fails), and whether a thread can be moved to a set of them.  A
set without any CPU that exists is refused. -/
structure Os where
  present : ℕ → Bool
  getaffinity : Option CpuSet
  setaffinity : CpuSet → Bool
  refuses : ∀ set, (∀ cpu, cpuIsset cpu set = true → present cpu = false) → setaffinity set = false

/-- `pin_to_cpu`. -/
def pinToCpu (os : Os) (cpu : ℕ) : Option Bool :=
  (cpuSet cpu .zeroed).map os.setaffinity

/-- The CPUs that `online_cpus` finds. -/
def allowedCpus (os : Os) : List ℕ :=
  match os.getaffinity with
  | some set => (List.range cpuSetsize).filter fun cpu => cpuIsset cpu set
  | none => []

/-- `online_cpus`. -/
def onlineCpus (os : Os) : List ℕ :=
  if allowedCpus os = [] then [0] else allowedCpus os

/-- The list of CPUs of `main`. -/
def mainCpus (os : Os) (read : ℕ → Option (List Char)) (cpus : Option (List Char))
    (numa : Option ℕ) : List ℕ :=
  let explicit := resolveCpus read cpus numa
  if explicit = [] then onlineCpus os else explicit

/-- How a worker pins itself: `pin_to_cpu(cpus[i % cpus.len()])`. -/
def pinWorker (os : Os) (cpus : List ℕ) (i : ℕ) : Option Bool :=
  (cpus[i % cpus.length]?).bind (pinToCpu os)

/-- `net::pin`. -/
def pin (os : Os) (cpus : List ℕ) (i : ℕ) : Option Unit :=
  if cpus = [] then some () else (pinWorker os cpus i).map fun _ => ()

/-! ## One CPU -/

theorem div_lt_iff (cpu : ℕ) : cpu / 64 < 16 ↔ cpu < cpuSetsize := by
  rw [cpuSetsize]
  omega

theorem cpuIsset_cpuSet {cpu other : ℕ} {set : CpuSet} (h : cpuSet cpu .zeroed = some set) :
    cpuIsset other set = true ↔ other = cpu := by
  unfold cpuSet at h
  split at h
  swap
  · cases h
  rename_i hcpu
  cases h
  unfold cpuIsset
  by_cases hother : other / 64 < 16
  · rw [dif_pos hother]
    by_cases hword : other / 64 = cpu / 64
    · have heq : (⟨other / 64, hother⟩ : Fin 16) = ⟨cpu / 64, hcpu⟩ := Fin.ext hword
      rw [heq, Function.update_self]
      simp [CpuSet.zeroed]
      omega
    · have hne : (⟨other / 64, hother⟩ : Fin 16) ≠ ⟨cpu / 64, hcpu⟩ :=
        fun heq => hword (Fin.mk.inj heq)
      rw [Function.update_of_ne hne]
      simp only [CpuSet.zeroed, BitVec.getLsbD_zero, Bool.false_eq_true, false_iff]
      rintro rfl
      exact hword rfl
  · rw [dif_neg hother]
    simp only [Bool.false_eq_true, false_iff]
    rintro rfl
    exact hother hcpu

/-- What is expected of a call of `pin_to_cpu`: it returns, and says `false` for a CPU that does
not exist. -/
def BestEffort (os : Os) (cpu : ℕ) : Prop :=
  ∃ pinned, pinToCpu os cpu = some pinned ∧ (os.present cpu = false → pinned = false)

/-- **`pin_to_cpu` meets this exactly for the CPUs that fit the array.** -/
theorem bestEffort_iff (os : Os) (cpu : ℕ) : BestEffort os cpu ↔ cpu < cpuSetsize := by
  constructor
  · rintro ⟨pinned, hpin, -⟩
    obtain ⟨set, hset, -⟩ := Option.map_eq_some_iff.mp hpin
    rw [← div_lt_iff]
    unfold cpuSet at hset
    split at hset
    · assumption
    · cases hset
  · intro hcpu
    obtain ⟨set, hset⟩ : ∃ set, cpuSet cpu .zeroed = some set :=
      ⟨_, dif_pos ((div_lt_iff cpu).mpr hcpu)⟩
    refine ⟨os.setaffinity set, by rw [pinToCpu, hset]; rfl, ?_⟩
    intro habsent
    refine os.refuses set fun other hother => ?_
    rw [(cpuIsset_cpuSet hset).mp hother]
    exact habsent

/-! ## All workers -/

theorem onlineCpus_ne_nil (os : Os) : onlineCpus os ≠ [] := by
  unfold onlineCpus
  split
  · exact List.cons_ne_nil _ _
  · assumption

theorem lt_of_mem_onlineCpus {os : Os} {cpu : ℕ} (h : cpu ∈ onlineCpus os) : cpu < cpuSetsize := by
  unfold onlineCpus at h
  split at h
  · rw [List.mem_singleton.mp h]
    decide
  · unfold allowedCpus at h
    split at h
    · exact List.mem_range.mp (List.mem_filter.mp h).1
    · cases h

theorem mainCpus_ne_nil (os : Os) (read : ℕ → Option (List Char)) (cpus : Option (List Char))
    (numa : Option ℕ) : mainCpus os read cpus numa ≠ [] := by
  unfold mainCpus
  simp only
  split
  · exact onlineCpus_ne_nil os
  · assumption

/-- The worker `i` takes some CPU of the list. -/
theorem exists_chosen {cpus : List ℕ} (hne : cpus ≠ []) (i : ℕ) :
    ∃ cpu ∈ cpus, cpus[i % cpus.length]? = some cpu := by
  have hlt : i % cpus.length < cpus.length :=
    Nat.mod_lt i (List.length_pos_iff.mpr hne)
  exact ⟨cpus[i % cpus.length], List.getElem_mem hlt, List.getElem?_eq_getElem hlt⟩

/-- Every worker's call of `pin_to_cpu` is made and returns. -/
def WorkersPinned (os : Os) (cpus : List ℕ) : Prop :=
  ∀ i, ∃ cpu pinned, cpus[i % cpus.length]? = some cpu ∧ pinWorker os cpus i = some pinned ∧
    (os.present cpu = false → pinned = false)

theorem workersPinned_iff (os : Os) {cpus : List ℕ} (hne : cpus ≠ []) :
    WorkersPinned os cpus ↔ ∀ cpu ∈ cpus, cpu < cpuSetsize := by
  constructor
  · intro h cpu hmem
    obtain ⟨i, hi, rfl⟩ := List.mem_iff_getElem.mp hmem
    obtain ⟨cpu, pinned, hcpu, hpin, habsent⟩ := h i
    rw [pinWorker, hcpu] at hpin
    rw [Nat.mod_eq_of_lt hi, List.getElem?_eq_getElem hi] at hcpu
    obtain rfl := Option.some.inj hcpu
    exact (bestEffort_iff os _).mp ⟨pinned, hpin, habsent⟩
  · intro h i
    obtain ⟨cpu, hmem, hcpu⟩ := exists_chosen hne i
    obtain ⟨pinned, hpin, habsent⟩ := (bestEffort_iff os cpu).mpr (h cpu hmem)
    exact ⟨cpu, pinned, hcpu, by rw [pinWorker, hcpu]; exact hpin, habsent⟩

/-- **When pinning is best-effort for a CPU list**: exactly if no part of the list names a CPU
of 1024 or more. -/
theorem pinning_best_effort_iff (os : Os) (read : ℕ → Option (List Char)) (numa : Option ℕ)
    (list : List Char) :
    WorkersPinned os (mainCpus os read (some list) numa) ↔
      ∀ part ∈ list.splitOn ',', ∀ id, Names part id → id < cpuSetsize := by
  rw [workersPinned_iff os (mainCpus_ne_nil os read (some list) numa)]
  have hlist : (∀ part ∈ list.splitOn ',', ∀ id, Names part id → id < cpuSetsize) ↔
      ∀ cpu ∈ parseCpulist list, cpu < cpuSetsize := by
    simp only [mem_parseCpulist_iff]
    constructor
    · rintro h cpu ⟨part, hpart, hnames⟩
      exact h part hpart cpu hnames
    · intro h part hpart id hnames
      exact h id ⟨part, hpart, hnames⟩
  rw [hlist]
  show (∀ cpu ∈ if parseCpulist list = [] then onlineCpus os else parseCpulist list, _) ↔ _
  split
  · rename_i hempty
    rw [hempty]
    exact iff_of_true (fun cpu hcpu => lt_of_mem_onlineCpus hcpu) (by simp)
  · exact Iff.rfl

/-- A system with eight CPUs, which may all be used. -/
def eightCpus : Os where
  present cpu := cpu < 8
  getaffinity := none
  setaffinity set := (List.range 8).any fun cpu => cpuIsset cpu set
  refuses := by
    intro set h
    rw [List.any_eq_false]
    intro cpu hcpu hset
    have habsent := h cpu hset
    have hlt := List.mem_range.mp hcpu
    simp [hlt] at habsent

/-- With `--cpus 1024` the first worker panics. -/
theorem pinning_panics_1024 :
    ¬ WorkersPinned eightCpus (mainCpus eightCpus (fun _ => none) (some "1024".toList) none) := by
  rw [workersPinned_iff _ (mainCpus_ne_nil _ _ _ _)]
  intro h
  exact absurd (h 1024 (by decide)) (by decide)

end RunPerf.Pinning
