import RunPerf.Lib.Bytes

/-!
# Programs on a shared memory

Values of a fixed width have a form in memory (`Codec`).  A program is a tree of loads and
stores, each of which is one access; two programs on one memory interleave between accesses.
-/

namespace RunPerf.Lib

/-! ## Values in memory -/

/-- A form of fixed width that can be read back. -/
structure Codec (α : Type*) where
  width : ℕ
  encode : α → List UInt8
  decode : List UInt8 → α
  length_encode : ∀ a, (encode a).length = width
  decode_encode : ∀ a, decode (encode a) = a

namespace Codec

variable {α β : Type*}

/-- Little-endian numbers. -/
def u32 : Codec UInt32 where
  width := 4
  encode word := (List.range 4).map fun i => UInt8.ofNat (word.toNat / 256 ^ i)
  decode bytes := UInt32.ofNat (leValue bytes)
  length_encode word := by simp
  decode_encode word := by
    have hlt : word.toNat % 256 ^ 4 = word.toNat := Nat.mod_eq_of_lt word.toNat_lt
    rw [leValue_digits, hlt, UInt32.ofNat_toNat]

def u64 : Codec UInt64 where
  width := 8
  encode := toLeBytes
  decode := fromLeBytes
  length_encode := length_toLeBytes
  decode_encode := fromLeBytes_toLeBytes

/-- One value behind the other. -/
def pair (c : Codec α) (d : Codec β) : Codec (α × β) where
  width := c.width + d.width
  encode p := c.encode p.1 ++ d.encode p.2
  decode bytes := (c.decode (bytes.take c.width), d.decode (bytes.drop c.width))
  length_encode p := by rw [List.length_append, c.length_encode, d.length_encode]
  decode_encode p := by
    rw [← c.length_encode p.1, List.take_left, List.drop_left, c.decode_encode, d.decode_encode]

/-- The form of another value that stands for the one wanted. -/
def map (c : Codec α) (e : β ≃ α) : Codec β where
  width := c.width
  encode b := c.encode (e b)
  decode bytes := e.symm (c.decode bytes)
  length_encode b := c.length_encode (e b)
  decode_encode b := by rw [c.decode_encode, e.symm_apply_apply]

variable (c : Codec α) (mem : ℕ → UInt8)

def read (off : ℕ) : α := c.decode (readBytes mem off c.width)

def write (off : ℕ) (a : α) : ℕ → UInt8 := writeBytes mem off (c.encode a)

@[simp] theorem read_write (off : ℕ) (a : α) : c.read (c.write mem off a) off = a := by
  rw [read, write, ← c.length_encode a, readBytes_writeBytes_self, c.decode_encode]

theorem read_write_of_disjoint (d : Codec β) {off off' : ℕ} {b : β}
    (h : off' + c.width ≤ off ∨ off + d.width ≤ off') :
    c.read (d.write mem off b) off' = c.read mem off' := by
  rw [← d.length_encode b] at h
  rw [read, write, readBytes_writeBytes_of_disjoint mem h, read]

theorem read_congr {mem mem' : ℕ → UInt8} {off : ℕ}
    (h : ∀ i < c.width, mem (off + i) = mem' (off + i)) : c.read mem off = c.read mem' off := by
  unfold read readBytes
  congr 1
  exact List.map_congr_left fun i hi => h i (List.mem_range.mp hi)

theorem write_apply_of_notMem {off j : ℕ} {a : α} (h : j < off ∨ off + c.width ≤ j) :
    c.write mem off a j = mem j := by
  rw [← c.length_encode a] at h
  unfold write writeBytes
  rw [if_neg (by omega)]

end Codec

/-! ## Programs -/

/-- A program that loads and stores bytes, and ends with a result. -/
inductive Prog (β : Type*)
  | done (result : β)
  | load (off len : ℕ) (next : List UInt8 → Prog β)
  | store (off : ℕ) (bytes : List UInt8) (next : Prog β)

namespace Prog

variable {β : Type*}

/-- The bytes that the next access touches: where they start and how many they are. -/
def access : Prog β → Option (ℕ × ℕ)
  | .done _ => none
  | .load off len _ => some (off, len)
  | .store off bytes _ => some (off, bytes.length)

/-- One access. -/
def step (mem : ℕ → UInt8) : Prog β → Option (Prog β × (ℕ → UInt8))
  | .done _ => none
  | .load off len next => some (next (readBytes mem off len), mem)
  | .store off bytes next => some (next, writeBytes mem off bytes)

/-- All accesses, with nobody in between. -/
def run : Prog β → (ℕ → UInt8) → β × (ℕ → UInt8)
  | .done result, mem => (result, mem)
  | .load off len next, mem => (next (readBytes mem off len)).run mem
  | .store off bytes next, mem => next.run (writeBytes mem off bytes)

/-- The accesses of such a run, in order: where each starts and how many bytes it touches. -/
def accesses : Prog β → (ℕ → UInt8) → List (ℕ × ℕ)
  | .done _, _ => []
  | .load off len next, mem => (off, len) :: (next (readBytes mem off len)).accesses mem
  | .store off bytes next, mem => (off, bytes.length) :: next.accesses (writeBytes mem off bytes)

/-- A run on `mem` keeps to the bytes from `lo` up to `hi`, changes nothing and has this result. -/
structure ReadsOnly (prog : Prog β) (mem : ℕ → UInt8) (lo hi : ℕ) (result : β) : Prop where
  within : ∀ access ∈ prog.accesses mem, lo ≤ access.1 ∧ access.1 + access.2 ≤ hi
  run : prog.run mem = (result, mem)

section ReadsOnly

variable {mem : ℕ → UInt8} {lo hi : ℕ} {result : β}

theorem readsOnly_done : ReadsOnly (.done result) mem lo hi result where
  within := by simp [accesses]
  run := rfl

theorem readsOnly_load {off len : ℕ} {next : List UInt8 → Prog β} (hlo : lo ≤ off)
    (hhi : off + len ≤ hi) (h : ReadsOnly (next (readBytes mem off len)) mem lo hi result) :
    ReadsOnly (.load off len next) mem lo hi result where
  within := by
    intro access haccess
    rcases List.mem_cons.mp haccess with rfl | hlater
    · exact ⟨hlo, hhi⟩
    · exact h.within access hlater
  run := h.run

/-- Where a program branches, each branch is looked at under its condition. -/
theorem readsOnly_ite {c : Prop} [Decidable c] {first second : Prog β} {result' : β}
    (hfirst : c → ReadsOnly first mem lo hi result)
    (hsecond : ¬ c → ReadsOnly second mem lo hi result') :
    ReadsOnly (if c then first else second) mem lo hi (if c then result else result') := by
  split
  · rename_i h
    exact hfirst h
  · rename_i h
    exact hsecond h

end ReadsOnly

end Prog

namespace Codec

variable {α β : Type*} (c : Codec α)

/-- Load a value and go on with it. -/
def load (off : ℕ) (next : α → Prog β) : Prog β :=
  .load off c.width fun bytes => next (c.decode bytes)

def store (off : ℕ) (a : α) (next : Prog β) : Prog β := .store off (c.encode a) next

variable (mem : ℕ → UInt8) (off : ℕ)

@[simp] theorem step_load (next : α → Prog β) :
    (c.load off next).step mem = some (next (c.read mem off), mem) := rfl

@[simp] theorem step_store (a : α) (next : Prog β) :
    (c.store off a next).step mem = some (next, c.write mem off a) := rfl

@[simp] theorem run_load (next : α → Prog β) :
    (c.load off next).run mem = (next (c.read mem off)).run mem := rfl

@[simp] theorem run_store (a : α) (next : Prog β) :
    (c.store off a next).run mem = next.run (c.write mem off a) := rfl

@[simp] theorem access_load (next : α → Prog β) :
    (c.load off next).access = some (off, c.width) := rfl

@[simp] theorem access_store (a : α) (next : Prog β) :
    (c.store off a next).access = some (off, c.width) := by
  rw [store, Prog.access, c.length_encode]

end Codec

end RunPerf.Lib
