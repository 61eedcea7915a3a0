import Mathlib.Data.List.Basic
import Mathlib.Logic.Function.Basic
import Mathlib.Tactic

/-!
# Windows of a ring with free-running 32-bit indices

A ring of `2 ^ k` cells (`k ≤ 32`) is addressed by free-running positions that
wrap at `2 ^ 32`; the cell of a position is the position masked with `2 ^ k - 1`.
A *window* is the list of entries at `count` consecutive positions.

Everything rests on `slot_injective`: positions less than `2 ^ k` apart fall on
different cells, also across the wrap of the index.  Hence storing a list right
behind a window leaves the window alone as long as both together fit the ring
(`window_store`).
-/

namespace RunPerf.Lib

variable {α : Type*}

/-- The entries at the `count` positions from `start` on. -/
def window (mask : UInt32) (cells : UInt32 → α) (start : UInt32) (count : ℕ) : List α :=
  (List.range count).map fun i => cells ((start + UInt32.ofNat i) &&& mask)

/-- Write a list to the positions from `pos` on. -/
def store (mask : UInt32) (cells : UInt32 → α) (pos : UInt32) : List α → UInt32 → α
  | [] => cells
  | entry :: rest =>
      store mask (Function.update cells (pos &&& mask) entry) (pos + 1) rest

/-! ## Cells of positions -/

theorem toNat_slot {mask : UInt32} {k : ℕ} (hmask : mask.toNat = 2 ^ k - 1) (hk : k ≤ 32)
    (start : UInt32) (i : ℕ) :
    ((start + UInt32.ofNat i) &&& mask).toNat = (start.toNat + i) % 2 ^ k := by
  have hdvd : 2 ^ k ∣ 2 ^ 32 := Nat.pow_dvd_pow 2 hk
  rw [UInt32.toNat_and, hmask, Nat.and_two_pow_sub_one_eq_mod, UInt32.toNat_add,
    UInt32.toNat_ofNat', Nat.mod_mod_of_dvd _ hdvd, Nat.add_mod, Nat.mod_mod_of_dvd _ hdvd,
    ← Nat.add_mod]

/-- Positions less than the ring size apart fall on different cells. -/
theorem slot_injective {mask : UInt32} {k : ℕ} (hmask : mask.toNat = 2 ^ k - 1) (hk : k ≤ 32)
    (start : UInt32) {i j : ℕ} (hi : i < 2 ^ k) (hj : j < 2 ^ k)
    (heq : (start + UInt32.ofNat i) &&& mask = (start + UInt32.ofNat j) &&& mask) : i = j := by
  have hmod : (start.toNat + i) % 2 ^ k = (start.toNat + j) % 2 ^ k := by
    rw [← toNat_slot hmask hk, ← toNat_slot hmask hk, heq]
  have hcancel : i % 2 ^ k = j % 2 ^ k := Nat.ModEq.add_left_cancel' start.toNat hmod
  rwa [Nat.mod_eq_of_lt hi, Nat.mod_eq_of_lt hj] at hcancel

theorem add_ofNat_add (start : UInt32) (i j : ℕ) :
    start + UInt32.ofNat i + UInt32.ofNat j = start + UInt32.ofNat (i + j) := by
  rw [UInt32.ofNat_add, UInt32.add_assoc]

/-! ## Windows -/

@[simp] theorem length_window (mask : UInt32) (cells : UInt32 → α) (start : UInt32) (count : ℕ) :
    (window mask cells start count).length = count := by
  simp [window]

@[simp] theorem window_zero (mask : UInt32) (cells : UInt32 → α) (start : UInt32) :
    window mask cells start 0 = [] := rfl

theorem window_add (mask : UInt32) (cells : UInt32 → α) (start : UInt32) (m n : ℕ) :
    window mask cells start (m + n) =
      window mask cells start m ++ window mask cells (start + UInt32.ofNat m) n := by
  simp only [window, List.range_add, List.map_append, List.map_map]
  congr 1
  apply List.map_congr_left
  intro i _
  simp only [Function.comp_apply, add_ofNat_add]

theorem window_congr {mask : UInt32} {cells cells' : UInt32 → α} {start : UInt32} {count : ℕ}
    (h : ∀ i < count, cells ((start + UInt32.ofNat i) &&& mask) =
      cells' ((start + UInt32.ofNat i) &&& mask)) :
    window mask cells start count = window mask cells' start count := by
  apply List.map_congr_left
  intro i hi
  exact h i (List.mem_range.mp hi)

/-! ## Storing behind a window -/

/-- A store leaves every cell alone that none of its positions falls on. -/
theorem store_apply_of_forall_ne (mask : UInt32) (cells : UInt32 → α) (pos : UInt32)
    (entries : List α) (cell : UInt32)
    (h : ∀ i < entries.length, (pos + UInt32.ofNat i) &&& mask ≠ cell) :
    store mask cells pos entries cell = cells cell := by
  induction entries generalizing cells pos with
  | nil => rfl
  | cons entry rest ih =>
      rw [store, ih]
      · have hne : cell ≠ pos &&& mask := by
          simpa using (h 0 (by simp)).symm
        exact Function.update_of_ne hne _ _
      · intro i hi
        have hnext := h (i + 1) (by simpa using hi)
        have hpos : pos + 1 + UInt32.ofNat i = pos + UInt32.ofNat (i + 1) := by
          rw [Nat.add_comm i 1, ← add_ofNat_add]; rfl
        rwa [hpos]

/-- The positions just written hold what was written, provided the list does not
lap itself. -/
theorem window_store_self {mask : UInt32} {k : ℕ} (hmask : mask.toNat = 2 ^ k - 1)
    (hk : k ≤ 32) (cells : UInt32 → α) (pos : UInt32) (entries : List α)
    (hfit : entries.length ≤ 2 ^ k) :
    window mask (store mask cells pos entries) pos entries.length = entries := by
  induction entries generalizing cells pos with
  | nil => rfl
  | cons entry rest ih =>
      have hrest : rest.length < 2 ^ k := by simpa using hfit
      have hone : pos + UInt32.ofNat 1 = pos + 1 := rfl
      rw [List.length_cons, Nat.add_comm, window_add, hone, store, ih _ _ hrest.le]
      have hhead : store mask (Function.update cells (pos &&& mask) entry) (pos + 1) rest
          (pos &&& mask) = entry := by
        rw [store_apply_of_forall_ne, Function.update_self]
        intro i hi heq
        have hpos : pos + 1 + UInt32.ofNat i = pos + UInt32.ofNat (i + 1) := by
          rw [Nat.add_comm i 1, ← add_ofNat_add]; rfl
        have hzero : pos + UInt32.ofNat 0 = pos := by simp
        rw [hpos, ← hzero, add_ofNat_add] at heq
        have := slot_injective hmask hk pos (by omega) (by omega) heq
        omega
      simp [window, hhead]

/-- Storing right behind a window leaves the window alone. -/
theorem window_store_behind {mask : UInt32} {k : ℕ} (hmask : mask.toNat = 2 ^ k - 1)
    (hk : k ≤ 32) (cells : UInt32 → α) (start : UInt32) (count : ℕ) (entries : List α)
    (hfit : count + entries.length ≤ 2 ^ k) :
    window mask (store mask cells (start + UInt32.ofNat count) entries) start count =
      window mask cells start count := by
  apply window_congr
  intro i hi
  apply store_apply_of_forall_ne
  intro j hj heq
  rw [add_ofNat_add] at heq
  have := slot_injective hmask hk start (by omega) (by omega) heq
  omega

/-- **The window grows by what is stored behind it.** -/
theorem window_store {mask : UInt32} {k : ℕ} (hmask : mask.toNat = 2 ^ k - 1)
    (hk : k ≤ 32) (cells : UInt32 → α) (start : UInt32) (count : ℕ) (entries : List α)
    (hfit : count + entries.length ≤ 2 ^ k) :
    window mask (store mask cells (start + UInt32.ofNat count) entries) start
        (count + entries.length) =
      window mask cells start count ++ entries := by
  rw [window_add, window_store_behind hmask hk _ _ _ _ hfit,
    window_store_self hmask hk _ _ _ (by omega)]

end RunPerf.Lib
