import RunPerf.Guard
import RunPerf.Lib.Text

/-!
# The available memory

`mem_available_bytes` looks for the first line of `/proc/meminfo` that begins with
`MemAvailable:` and reads the number behind it, in kilobytes.  If there is none, or if the number
does not fit into a `u64`, the guard falls back to 1 GiB.

For a text in the kernel's format, whatever its other rows are and in whatever order, the guard
accepts a planned amount exactly if it is at most a quarter of what the row says, where the
product with 1024 wraps (`guard_reads_meminfo`).
-/

namespace RunPerf.Meminfo

open RunPerf.Lib RunPerf.Lib.Text

/-- `str::strip_prefix`. -/
def stripFront (front text : List Char) : Option (List Char) :=
  if front.isPrefixOf text then some (text.drop front.length) else none

/-- `MemAvailable`. -/
def memAvailable : List Char := "MemAvailable".toList

/-- The loop over the lines.  A line for `MemAvailable` ends it, also if it has no number. -/
def scan : List (List Char) → Option UInt64
  | [] => none
  | line :: rest =>
      match stripFront (memAvailable ++ [':']) line with
      | none => scan rest
      | some tail => do
          let word ← (splitWhitespace tail).head?
          let kb ← parseUnsigned 10 (2 ^ 64) word
          return UInt64.ofNat kb

/-- The kilobytes that `mem_available_bytes` reads, from the text of `/proc/meminfo` if it can be
read. -/
def availableKb (meminfo : Option (List Char)) : Option UInt64 :=
  meminfo.bind fun text => scan (lines text)

/-! ## The format -/

/-- A row of `/proc/meminfo`: its name, its number, and what follows it. -/
structure Row where
  name : List Char
  value : ℕ
  unit : List (List Char)
  colon_notMem : ':' ∉ name
  newline_notMem : '\n' ∉ name
  word_unit : ∀ word ∈ unit, Word word

/-- How the kernel writes a row: the name and a colon, then the number and the unit with white
space between them. -/
def RowText (row : Row) (line : List Char) : Prop :=
  ∃ tail, line = row.name ++ ':' :: tail ∧ Columns (Nat.toDigits 10 row.value :: row.unit) tail ∧
    line.getLast? ≠ some '\r'

/-- The rows of a text. -/
def MeminfoText (rows : List Row) (text : List Char) : Prop :=
  ∃ list, List.Forall₂ RowText rows list ∧ Lined list text

/-- The number of a row as a `u64`, if it is one. -/
def Row.kb (row : Row) : Option UInt64 :=
  if row.value < 2 ^ 64 then some (UInt64.ofNat row.value) else none

/-- The first row for `MemAvailable`. -/
def available (rows : List Row) : Option Row := rows.find? fun row => row.name = memAvailable

/-- A row with single blanks. -/
def showRow (row : Row) : List Char :=
  row.name ++ ':' :: [' '].intercalate (Nat.toDigits 10 row.value :: row.unit)

/-- `/proc/meminfo` with these rows. -/
def showRows (rows : List Row) : List Char := rows.flatMap fun row => showRow row ++ ['\n']

/-! ## Reading -/

theorem Row.forall_word (row : Row) : ∀ word ∈ Nat.toDigits 10 row.value :: row.unit, Word word :=
  List.forall_mem_cons.mpr ⟨word_toDigits row.value, row.word_unit⟩

/-- A line begins with a name and a colon exactly if this is its name. -/
theorem stripFront_name {name wanted : List Char} (hname : ':' ∉ name) (hwanted : ':' ∉ wanted)
    (tail : List Char) :
    stripFront (wanted ++ [':']) (name ++ ':' :: tail) =
      if name = wanted then some tail else none := by
  unfold stripFront
  by_cases heq : name = wanted
  · subst heq
    rw [if_pos (by simp), if_pos rfl]
    simp
  · rw [if_neg ?_, if_neg heq]
    intro hfront
    obtain ⟨rest, hrest⟩ := List.isPrefixOf_iff_prefix.mp hfront
    rw [List.append_assoc] at hrest
    have hsplit := splitOnce_append hwanted rest
    rw [show wanted ++ ':' :: rest = name ++ ':' :: tail from hrest,
      splitOnce_append hname] at hsplit
    cases hsplit
    exact heq rfl

/-- A decimal number is read back, or it is too large. -/
theorem parseUnsigned_toDigits (bound n : ℕ) :
    parseUnsigned 10 bound (Nat.toDigits 10 n) = if n < bound then some n else none := by
  by_cases hfit : n < bound
  · rw [if_pos hfit]
    exact parseUnsigned_eq_some_iff.mpr (numeral_toDigits hfit)
  · rw [if_neg hfit, Option.eq_none_iff_forall_not_mem]
    intro m hm
    obtain ⟨digits, -, -, hvalue, hbound, htext | htext⟩ := parseUnsigned_eq_some_iff.mp hm
    · rw [← htext, Nat.ofDigitChars_ten_toDigits] at hvalue
      omega
    · have hplus : '+' ∈ Nat.toDigits 10 n := by
        rw [htext]
        exact List.mem_cons_self
      exact notMem_toDigits (by decide) n hplus

theorem scan_cons {row : Row} {line : List Char} (h : RowText row line)
    (rest : List (List Char)) :
    scan (line :: rest) = if row.name = memAvailable then row.kb else scan rest := by
  obtain ⟨tail, rfl, hcolumns, -⟩ := h
  have hwords : splitWhitespace tail = Nat.toDigits 10 row.value :: row.unit :=
    splitWhitespace_of_columns row.forall_word hcolumns
  rw [scan, stripFront_name row.colon_notMem (by decide)]
  by_cases hname : row.name = memAvailable
  · rw [if_pos hname, if_pos hname]
    simp only [hwords, List.head?_cons, Option.bind_eq_bind, Option.bind_some,
      parseUnsigned_toDigits, Row.kb]
    split <;> rfl
  · rw [if_neg hname, if_neg hname]

theorem scan_rows {rows : List Row} {list : List (List Char)}
    (h : List.Forall₂ RowText rows list) : scan list = (available rows).bind Row.kb := by
  induction h with
  | nil => rfl
  | @cons row line rows list hrow _ ih =>
      rw [scan_cons hrow, ih]
      by_cases hname : row.name = memAvailable
      · simp [available, hname]
      · simp [available, hname]

/-- The number of the first row for `MemAvailable` is found. -/
theorem availableKb_eq {rows : List Row} {text : List Char} (h : MeminfoText rows text) :
    availableKb (some text) = (available rows).bind Row.kb := by
  obtain ⟨list, hrows, hlined⟩ := h
  have hcr : ∀ line ∈ list, line.getLast? ≠ some '\r' := by
    clear hlined
    induction hrows with
    | nil => simp
    | cons hrow _ ih =>
        obtain ⟨-, -, -, hlast⟩ := hrow
        exact List.forall_mem_cons.mpr ⟨hlast, ih⟩
  rw [availableKb, Option.bind_some, lines_of_lined hlined hcr]
  exact scan_rows hrows

/-- There are texts with any rows. -/
theorem meminfoText_showRows (rows : List Row) : MeminfoText rows (showRows rows) := by
  refine ⟨rows.map showRow, ?_, ?_⟩
  · rw [List.forall₂_map_right_iff, List.forall₂_same]
    intro row _
    refine ⟨_, rfl, columns_intercalate _, fun hlast => ?_⟩
    -- The last character is the colon or one of a word.
    have hreturn : '\r' ∉ [' '].intercalate (Nat.toDigits 10 row.value :: row.unit) :=
      notMem_intercalate (by decide) fun word hword =>
        (row.forall_word word hword).notMem (by decide)
    rw [showRow, List.getLast?_append_of_ne_nil _ (List.cons_ne_nil _ _)] at hlast
    rcases List.mem_cons.mp (List.mem_of_mem_getLast? hlast) with hcolon | hmem
    · exact absurd hcolon (by decide)
    · exact hreturn hmem
  · have hnewline : ∀ line ∈ rows.map showRow, '\n' ∉ line := by
      intro line hline
      obtain ⟨row, -, rfl⟩ := List.mem_map.mp hline
      have hwords := newline_notMem_intercalate row.forall_word
      simp [showRow, row.newline_notMem, hwords]
    have hlined := lined_flatMap hnewline
    rwa [List.flatMap_map] at hlined

/-- **The guard and the kernel's table.**  Whatever else the table says, the guard accepts the
planned amount exactly if it is at most a quarter of the memory of the first row for
`MemAvailable`, in `u64`; without such a row, or with a number beyond `u64`, the limit is 1 GiB. -/
theorem guard_reads_meminfo {rows : List Row} {text : List Char} (h : MeminfoText rows text)
    (planned : UInt64) :
    oomGuard (availableKb (some text)) planned = .ok () ↔
      planned.toNat ≤ match available rows with
        | some row => if row.value < 2 ^ 64 then row.value * 1024 % 2 ^ 64 / 4 else 2 ^ 30
        | none => 2 ^ 30 := by
  rw [oomGuard_ok_iff, availableKb_eq h]
  cases available rows with
  | none => rfl
  | some row =>
      rw [Option.bind_some, Row.kb]
      by_cases hfit : row.value < 2 ^ 64
      · rw [if_pos hfit, toNat_oomCap_some, UInt64.toNat_ofNat_of_lt' hfit]
        simp only [if_pos hfit]
        omega
      · rw [if_neg hfit]
        simp only [if_neg hfit]
        rfl

/-- `/proc/meminfo` of a host with 4 MiB available. -/
def smallRows : List Row :=
  [⟨"MemTotal".toList, 8192, ["kB".toList], by decide, by decide, by decide⟩,
    ⟨memAvailable, 4096, ["kB".toList], by decide, by decide, by decide⟩]

theorem guard_reads_meminfo_small :
    MeminfoText smallRows (showRows smallRows) ∧
      showRows smallRows = "MemTotal:8192 kB\nMemAvailable:4096 kB\n".toList ∧
      oomGuard (availableKb (some (showRows smallRows))) 1048576 = .ok () ∧
      oomGuard (availableKb (some (showRows smallRows))) 1048577 ≠ .ok () := by
  have htext := meminfoText_showRows smallRows
  refine ⟨htext, by decide, (guard_reads_meminfo htext 1048576).mpr (by decide), fun hok => ?_⟩
  exact absurd ((guard_reads_meminfo htext 1048577).mp hok) (by decide)

end RunPerf.Meminfo
