import Mathlib.Data.List.Basic
import Mathlib.Tactic

/-!
# Texts

Texts as lists of characters, with the operations of `str` that the program uses: trimming,
splitting at characters, lines and white space, and reading unsigned numbers.
-/

namespace RunPerf.Lib.Text

/-- `char::is_whitespace`: the Unicode property `White_Space`. -/
def isWhitespace (c : Char) : Bool :=
  let n := c.toNat
  (9 ≤ n && n ≤ 13) || n == 0x20 || n == 0x85 || n == 0xa0 || n == 0x1680 ||
    (0x2000 ≤ n && n ≤ 0x200a) || n == 0x2028 || n == 0x2029 || n == 0x202f || n == 0x205f ||
    n == 0x3000

/-- `str::trim_start`. -/
def trimStart (text : List Char) : List Char := text.dropWhile isWhitespace

/-- `str::trim`. -/
def trim (text : List Char) : List Char := (trimStart (trimStart text).reverse).reverse

/-- `str::split_once`: the texts before and behind the first `sep`. -/
def splitOnce (sep : Char) : List Char → Option (List Char × List Char)
  | [] => none
  | c :: rest =>
      if c = sep then some ([], rest)
      else (splitOnce sep rest).map fun (a, b) => (c :: a, b)

/-- `str::split_whitespace`. -/
def splitWhitespace (text : List Char) : List (List Char) :=
  (text.splitOnP isWhitespace).filter fun word => !word.isEmpty

/-- A line without the carriage return at its end. -/
def stripCr (line : List Char) : List Char :=
  if line.getLast? = some '\r' then line.dropLast else line

/-- `str::lines`: what is behind the last newline is a line only if it is not empty. -/
def lines (text : List Char) : List (List Char) :=
  let pieces := text.splitOn '\n'
  pieces.dropLast.map stripCr ++ pieces.getLast?.toList.filter fun last => !last.isEmpty

/-- `char::to_digit`. -/
def digitVal (radix : ℕ) (c : Char) : Option ℕ :=
  let value :=
    if '0' ≤ c ∧ c ≤ '9' then c.toNat - 48
    else if 'a' ≤ c ∧ c ≤ 'z' then c.toNat - 87
    else if 'A' ≤ c ∧ c ≤ 'Z' then c.toNat - 55
    else radix
  if value < radix then some value else none

/-- One more digit; the result has to be less than `bound`. -/
def pushDigit (radix bound acc : ℕ) (c : Char) : Option ℕ :=
  (digitVal radix c).bind fun value =>
    if radix * acc + value < bound then some (radix * acc + value) else none

/-- `from_str_radix` for an unsigned type with the values below `bound`. -/
def parseUnsigned (radix bound : ℕ) (text : List Char) : Option ℕ :=
  match text with
  | [] => none
  | ['+'] => none
  | '+' :: digits => digits.foldlM (pushDigit radix bound) 0
  | digits => digits.foldlM (pushDigit radix bound) 0

/-! ## Trimming -/

/-- Only white space. -/
def Blank (text : List Char) : Prop := ∀ c ∈ text, isWhitespace c = true

theorem Blank.append {first second : List Char} (h : Blank first) (h' : Blank second) :
    Blank (first ++ second) :=
  List.forall_mem_append.mpr ⟨h, h'⟩

theorem Blank.notMem {text : List Char} (h : Blank text) {c : Char}
    (hc : isWhitespace c = false) : c ∉ text := by
  intro hmem
  rw [h c hmem] at hc
  cases hc

theorem trimStart_append {blank core : List Char} (hblank : Blank blank)
    (hcore : ∀ c ∈ core.head?, isWhitespace c = false) : trimStart (blank ++ core) = core := by
  induction blank with
  | nil =>
      cases core with
      | nil => rfl
      | cons c rest =>
          have hc := hcore c rfl
          simp [trimStart, hc]
  | cons c rest ih =>
      have hc := hblank c List.mem_cons_self
      have hrest := ih fun d hd => hblank d (List.mem_cons_of_mem _ hd)
      rw [trimStart] at hrest ⊢
      rw [List.cons_append, List.dropWhile_cons_of_pos hc, hrest]

/-- What stands between the white space. -/
theorem trim_append {before core after : List Char} (hbefore : Blank before)
    (hafter : Blank after) (hfirst : ∀ c ∈ core.head?, isWhitespace c = false)
    (hlast : ∀ c ∈ core.getLast?, isWhitespace c = false) (hne : core ≠ []) :
    trim (before ++ core ++ after) = core := by
  have hstart : trimStart (before ++ core ++ after) = core ++ after := by
    rw [List.append_assoc]
    refine trimStart_append hbefore ?_
    obtain ⟨c, rest, rfl⟩ := List.exists_cons_of_ne_nil hne
    exact hfirst
  rw [trim, hstart, List.reverse_append, trimStart_append, List.reverse_reverse]
  · intro c hc
    exact hafter c (List.mem_reverse.mp hc)
  · rwa [List.head?_reverse]

/-! ## Splitting -/

theorem splitOnce_append {sep : Char} {first : List Char} (h : sep ∉ first) (rest : List Char) :
    splitOnce sep (first ++ sep :: rest) = some (first, rest) := by
  induction first with
  | nil => simp [splitOnce]
  | cons c more ih =>
      obtain ⟨hne, hmore⟩ := not_or.mp fun hmem => h (List.mem_cons.mpr hmem)
      rw [List.cons_append, splitOnce, if_neg (Ne.symm hne), ih hmore]
      rfl

theorem splitOnce_eq_none {sep : Char} {text : List Char} (h : sep ∉ text) :
    splitOnce sep text = none := by
  induction text with
  | nil => rfl
  | cons c more ih =>
      obtain ⟨hne, hmore⟩ := not_or.mp fun hmem => h (List.mem_cons.mpr hmem)
      rw [splitOnce, if_neg (Ne.symm hne), ih hmore]
      rfl

theorem eq_append_of_splitOnce {sep : Char} {text a b : List Char}
    (h : splitOnce sep text = some (a, b)) : sep ∉ a ∧ text = a ++ sep :: b := by
  induction text generalizing a with
  | nil => simp [splitOnce] at h
  | cons c rest ih =>
      rw [splitOnce] at h
      split at h
      · rename_i hsep
        cases h
        exact ⟨List.not_mem_nil, by rw [hsep]; rfl⟩
      · rename_i hsep
        obtain ⟨⟨a', b'⟩, hrest, heq⟩ := Option.map_eq_some_iff.mp h
        cases heq
        obtain ⟨hnot, htext⟩ := ih hrest
        exact ⟨List.not_mem_cons_of_ne_of_not_mem (Ne.symm hsep) hnot, by rw [htext]; rfl⟩

theorem notMem_of_splitOnce {sep : Char} {text : List Char} (h : splitOnce sep text = none) :
    sep ∉ text := by
  intro hmem
  obtain ⟨a, b, htext, hnot⟩ := List.eq_append_cons_of_mem hmem
  rw [htext, splitOnce_append hnot] at h
  cases h

/-! ## Lines and columns -/

theorem lines_append {line : List Char} (h : '\n' ∉ line) (text : List Char) :
    lines (line ++ '\n' :: text) = stripCr line :: lines text := by
  have hne := List.splitOn_ne_nil '\n' text
  simp only [lines]
  rw [List.splitOn_append_cons_self_of_not_mem h, List.dropLast_cons_of_ne_nil hne,
    List.getLast?_cons_of_ne_nil hne, List.map_cons, List.cons_append]

/-- A text without white space. -/
structure Word (text : List Char) : Prop where
  ne_nil : text ≠ []
  solid : ∀ c ∈ text, isWhitespace c = false

theorem word_iff {text : List Char} :
    Word text ↔ (!text.isEmpty && text.all fun c => !isWhitespace c) = true := by
  constructor
  · intro h
    simpa [h.ne_nil] using h.solid
  · intro h
    simp only [Bool.and_eq_true, Bool.not_eq_true', List.isEmpty_eq_false_iff,
      List.all_eq_true] at h
    exact ⟨h.1, h.2⟩

instance (text : List Char) : Decidable (Word text) := decidable_of_iff _ word_iff.symm

theorem Word.notMem {text : List Char} (h : Word text) {c : Char} (hc : isWhitespace c = true) :
    c ∉ text := by
  intro hmem
  rw [h.solid c hmem] at hc
  cases hc

/-- Trimming takes the white space around a word away. -/
theorem trim_word {before word after : List Char} (hbefore : Blank before) (hword : Word word)
    (hafter : Blank after) : trim (before ++ word ++ after) = word := by
  refine trim_append hbefore hafter ?_ ?_ hword.ne_nil
  · exact fun c hc => hword.solid c (List.mem_of_mem_head? hc)
  · exact fun c hc => hword.solid c (List.mem_of_mem_getLast? hc)

theorem splitWhitespace_cons {c : Char} (hc : isWhitespace c = true) (text : List Char) :
    splitWhitespace (c :: text) = splitWhitespace text := by
  simp [splitWhitespace, List.splitOnP_cons_eq_if_modifyHead, hc]

theorem splitWhitespace_append {blank : List Char} (h : Blank blank) (text : List Char) :
    splitWhitespace (blank ++ text) = splitWhitespace text := by
  induction blank with
  | nil => rfl
  | cons c rest ih =>
      rw [List.cons_append, splitWhitespace_cons (h c List.mem_cons_self),
        ih fun d hd => h d (List.mem_cons_of_mem _ hd)]

theorem splitWhitespace_concat {c : Char} (hc : isWhitespace c = true) (text : List Char) :
    splitWhitespace (text ++ [c]) = splitWhitespace text := by
  rw [splitWhitespace, List.splitOnP_append_cons text [] hc]
  simp [splitWhitespace]

theorem splitWhitespace_stripCr (line : List Char) :
    splitWhitespace (stripCr line) = splitWhitespace line := by
  unfold stripCr
  split
  · rename_i hlast
    obtain ⟨before, rfl⟩ := List.getLast?_eq_some_iff.mp hlast
    rw [List.dropLast_concat, splitWhitespace_concat (by decide)]
  · rfl

/-- A text with these lines. The last one may be without its newline. -/
inductive Lined : List (List Char) → List Char → Prop
  | nil : Lined [] []
  | last {line : List Char} (h : '\n' ∉ line) (hne : line ≠ []) : Lined [line] line
  | cons {line : List Char} {rest : List (List Char)} {text : List Char} (h : '\n' ∉ line)
      (hrest : Lined rest text) : Lined (line :: rest) (line ++ '\n' :: text)

theorem lined_flatMap {list : List (List Char)} (h : ∀ line ∈ list, '\n' ∉ line) :
    Lined list (list.flatMap (· ++ ['\n'])) := by
  induction list with
  | nil => exact .nil
  | cons line rest ih =>
      have hrest := ih fun other hother => h other (List.mem_cons_of_mem _ hother)
      rw [List.flatMap_cons, List.append_assoc]
      exact .cons (h line List.mem_cons_self) hrest

/-- The lines of a text are read back, if none of them ends in a carriage return. -/
theorem lines_of_lined {list : List (List Char)} {text : List Char} (h : Lined list text)
    (hcr : ∀ line ∈ list, line.getLast? ≠ some '\r') : lines text = list := by
  induction h with
  | nil => rfl
  | @last line h hne => simp [lines, List.splitOn_eq_singleton h, hne]
  | @cons line rest text h hrest ih =>
      have hline : stripCr line = line := if_neg (hcr line List.mem_cons_self)
      rw [lines_append h, hline, ih fun other hother => hcr other (List.mem_cons_of_mem _ hother)]

/-- **The words of the lines of a text are read back.** -/
theorem map_splitWhitespace_lines {list : List (List Char)} {text : List Char}
    (h : Lined list text) : (lines text).map splitWhitespace = list.map splitWhitespace := by
  induction h with
  | nil => rfl
  | @last line h hne =>
      have hlines : lines line = [line] := by
        simp [lines, List.splitOn_eq_singleton h, hne]
      rw [hlines]
  | cons h hrest ih =>
      rw [lines_append h, List.map_cons, List.map_cons, splitWhitespace_stripCr, ih]

/-- A text with these columns: white space between any two, and possibly at the ends. -/
def Columns : List (List Char) → List Char → Prop
  | [], text => Blank text
  | word :: words, text =>
      ∃ gap rest, text = gap ++ word ++ rest ∧ Blank gap ∧
        (∀ c ∈ rest.head?, isWhitespace c = true) ∧ Columns words rest

/-- **The columns of a text are read back.** -/
theorem splitWhitespace_of_columns {words : List (List Char)} (hwords : ∀ word ∈ words, Word word)
    {text : List Char} (h : Columns words text) : splitWhitespace text = words := by
  induction words generalizing text with
  | nil =>
      have hblank := splitWhitespace_append h []
      rwa [List.append_nil] at hblank
  | cons word words ih =>
      obtain ⟨gap, rest, rfl, hgap, hhead, hrest⟩ := h
      have hword := hwords word List.mem_cons_self
      have hread := ih (fun w hw => hwords w (List.mem_cons_of_mem _ hw)) hrest
      have hkeep : (!word.isEmpty) = true := by simp [hword.ne_nil]
      rw [List.append_assoc, splitWhitespace_append hgap]
      cases rest with
      | nil =>
          rw [List.append_nil, splitWhitespace, List.splitOnP_eq_singleton hword.solid,
            List.filter_cons, if_pos hkeep, ← hread]
          rfl
      | cons c rest =>
          have hc := hhead c rfl
          rw [splitWhitespace_cons hc] at hread
          rw [splitWhitespace, List.splitOnP_append_cons_of_forall_mem hword.solid c hc,
            List.filter_cons, if_pos hkeep, ← hread]
          rfl

/-- The rows of a table behind its header, where the columns of a row are related to it. -/
theorem forall₂_columns {α : Type*} {RowText : α → List Char → Prop}
    {ReadsAs : α → List (List Char) → Prop}
    (hread : ∀ row line, RowText row line → ReadsAs row (splitWhitespace line))
    {header text : List Char} {rows : List α} {list : List (List Char)}
    (hlist : List.Forall₂ RowText rows list) (htext : Lined (header :: list) text) :
    List.Forall₂ ReadsAs rows (((lines text).drop 1).map splitWhitespace) := by
  rw [List.map_drop, map_splitWhitespace_lines htext, List.map_cons, List.drop_one, List.tail_cons]
  exact List.forall₂_map_right_iff.mpr (hlist.imp hread)

theorem Word.append {first second : List Char} (h : Word first) (h' : Word second) :
    Word (first ++ second) :=
  ⟨List.append_ne_nil_of_left_ne_nil h.ne_nil _, List.forall_mem_append.mpr ⟨h.solid, h'.solid⟩⟩

theorem Word.intercalate {sep : Char} (hsep : isWhitespace sep = false)
    {parts : List (List Char)} (hne : parts ≠ []) (h : ∀ part ∈ parts, Word part) :
    Word ([sep].intercalate parts) := by
  induction parts with
  | nil => exact absurd rfl hne
  | cons part rest ih =>
      have hpart := h part List.mem_cons_self
      cases rest with
      | nil => rwa [List.intercalate_singleton]
      | cons next rest =>
          have hrest := ih (List.cons_ne_nil _ _) fun p hp => h p (List.mem_cons_of_mem _ hp)
          have hword : Word [sep] := ⟨List.cons_ne_nil _ _, by simp [hsep]⟩
          rw [List.intercalate_cons_cons]
          exact (hpart.append hword).append hrest

theorem notMem_intercalate {c sep : Char} (hsep : c ≠ sep) {parts : List (List Char)}
    (h : ∀ part ∈ parts, c ∉ part) : c ∉ [sep].intercalate parts := by
  induction parts with
  | nil => simp
  | cons part rest ih =>
      have hpart := h part List.mem_cons_self
      cases rest with
      | nil => rwa [List.intercalate_singleton]
      | cons next rest =>
          have hrest := ih fun p hp => h p (List.mem_cons_of_mem _ hp)
          rw [List.intercalate_cons_cons]
          simp [hpart, hsep, hrest]

/-- Words with single blanks between them. -/
theorem columns_intercalate (words : List (List Char)) :
    Columns words ([' '].intercalate words) := by
  have hblank : isWhitespace ' ' = true := by decide
  induction words with
  | nil => exact fun c hc => absurd hc List.not_mem_nil
  | cons word rest ih =>
      cases rest with
      | nil => exact ⟨[], [], by simp, by simp [Blank], by simp, by simp [Columns, Blank]⟩
      | cons next rest =>
          refine ⟨[], [' '] ++ [' '].intercalate (next :: rest), ?_, by simp [Blank], ?_, ?_⟩
          · rw [List.intercalate_cons_cons, List.append_assoc]
            rfl
          · simp [hblank]
          · obtain ⟨gap, more, htext, hgap, hmore⟩ := ih
            refine ⟨' ' :: gap, more, by rw [htext]; rfl, ?_, hmore⟩
            exact List.forall_mem_cons.mpr ⟨hblank, hgap⟩

theorem newline_notMem_intercalate {words : List (List Char)} (h : ∀ word ∈ words, Word word) :
    '\n' ∉ [' '].intercalate words :=
  notMem_intercalate (by decide) fun word hword => (h word hword).notMem (by decide)

/-- A table is shown by its header and a line for each row. -/
theorem exists_table {α : Type*} {RowText : α → List Char → Prop} {render : α → List Char}
    (hrow : ∀ row, RowText row (render row)) (hline : ∀ row, '\n' ∉ render row)
    {header : List Char} (hheader : '\n' ∉ header) (rows : List α) :
    ∃ list, List.Forall₂ RowText rows list ∧
      Lined (header :: list) ((header :: rows.map render).flatMap (· ++ ['\n'])) := by
  refine ⟨rows.map render, ?_, lined_flatMap ?_⟩
  · exact List.forall₂_map_right_iff.mpr (List.forall₂_same.mpr fun row _ => hrow row)
  · refine List.forall_mem_cons.mpr ⟨hheader, fun line hmem => ?_⟩
    obtain ⟨row, -, rfl⟩ := List.mem_map.mp hmem
    exact hline row

/-! ## Numbers -/

/-- The number with these digits, behind `acc`. -/
def ofValues (radix : ℕ) (values : List ℕ) (acc : ℕ) : ℕ :=
  values.foldl (fun acc value => radix * acc + value) acc

theorem le_ofValues {radix : ℕ} (hradix : 0 < radix) (values : List ℕ) (acc : ℕ) :
    acc ≤ ofValues radix values acc := by
  induction values generalizing acc with
  | nil => exact le_rfl
  | cons value rest ih =>
      calc acc ≤ radix * acc := Nat.le_mul_of_pos_left acc hradix
        _ ≤ radix * acc + value := Nat.le_add_right _ _
        _ ≤ ofValues radix (value :: rest) acc := ih _

theorem ofValues_eq (radix : ℕ) (values : List ℕ) (acc : ℕ) :
    ofValues radix values acc = radix ^ values.length * acc + ofValues radix values 0 := by
  induction values generalizing acc with
  | nil => simp [ofValues]
  | cons value rest ih =>
      calc ofValues radix (value :: rest) acc
          = ofValues radix rest (radix * acc + value) := rfl
        _ = radix ^ rest.length * (radix * acc + value) + ofValues radix rest 0 := ih _
        _ = radix ^ (rest.length + 1) * acc +
            (radix ^ rest.length * (radix * 0 + value) + ofValues radix rest 0) := by ring
        _ = radix ^ (rest.length + 1) * acc + ofValues radix rest (radix * 0 + value) := by
            rw [← ih]

/-- The digits of `n`, the highest one first. -/
theorem ofValues_digits (radix n count : ℕ) :
    ofValues radix ((List.range count).reverse.map fun i => n / radix ^ i % radix) 0 =
      n % radix ^ count := by
  induction count with
  | zero => simp [ofValues, Nat.mod_one]
  | succ count ih =>
      rw [List.range_succ, List.reverse_append, List.reverse_singleton, List.singleton_append,
        List.map_cons, Nat.mod_pow_succ, ← ih]
      show ofValues radix _ (radix * 0 + n / radix ^ count % radix) = _
      rw [ofValues_eq]
      simp [Nat.add_comm]

/-- Digits are read as the number they stand for, if it is less than the bound. -/
theorem foldlM_pushDigit {radix bound : ℕ} (hradix : 0 < radix) {values : List ℕ}
    {digits : List Char}
    (h : List.Forall₂ (fun value c => digitVal radix c = some value) values digits) {acc : ℕ}
    (hbound : ofValues radix values acc < bound) :
    digits.foldlM (pushDigit radix bound) acc = some (ofValues radix values acc) := by
  induction h generalizing acc with
  | nil => rfl
  | @cons value c values rest hvalue hrest ih =>
      have hle : radix * acc + value ≤ ofValues radix (value :: values) acc :=
        le_ofValues hradix values _
      have hpush : pushDigit radix bound acc c = some (radix * acc + value) := by
        rw [pushDigit, hvalue, Option.bind_some, if_pos (hle.trans_lt hbound)]
      rw [List.foldlM_cons, hpush]
      exact ih hbound

/-- A text that does not begin with a sign. -/
theorem parseUnsigned_of_head_ne {radix bound : ℕ} {c : Char} (hc : c ≠ '+') (rest : List Char) :
    parseUnsigned radix bound (c :: rest) = (c :: rest).foldlM (pushDigit radix bound) 0 := by
  unfold parseUnsigned
  split <;> simp_all

/-! ## Decimal numbers -/

theorem isDigit_iff {c : Char} : c.isDigit = true ↔ '0' ≤ c ∧ c ≤ '9' := by
  simp [Char.isDigit, Char.le_def]

theorem toNat_of_isDigit {c : Char} (h : c.isDigit) : 48 ≤ c.toNat ∧ c.toNat ≤ 57 := by
  obtain ⟨hzero, hnine⟩ := isDigit_iff.mp h
  exact ⟨UInt32.le_iff_toNat_le.mp hzero, UInt32.le_iff_toNat_le.mp hnine⟩

theorem isWhitespace_of_isDigit {c : Char} (h : c.isDigit) : isWhitespace c = false := by
  obtain ⟨hzero, hnine⟩ := toNat_of_isDigit h
  simp only [isWhitespace, Bool.or_eq_false_iff, Bool.and_eq_false_iff, decide_eq_false_iff_not,
    beq_eq_false_iff_ne]
  omega

theorem isDigit_of_mem_toDigits {n : ℕ} {c : Char} (h : c ∈ Nat.toDigits 10 n) : c.isDigit :=
  Nat.isDigit_of_mem_toDigits (by decide) (by decide) h

theorem word_toDigits (n : ℕ) : Word (Nat.toDigits 10 n) where
  ne_nil := Nat.toDigits_ne_nil
  solid := fun _ hc => isWhitespace_of_isDigit (isDigit_of_mem_toDigits hc)

theorem notMem_toDigits {c : Char} (hc : c.isDigit = false) (n : ℕ) : c ∉ Nat.toDigits 10 n := by
  intro hmem
  rw [isDigit_of_mem_toDigits hmem] at hc
  cases hc

theorem digitVal_of_isDigit {c : Char} (h : c.isDigit) :
    digitVal 10 c = some (c.toNat - '0'.toNat) := by
  obtain ⟨hzero, hnine⟩ := toNat_of_isDigit h
  rw [digitVal, if_pos (isDigit_iff.mp h)]
  exact if_pos (by omega)

theorem foldlM_pushDigit_ten {bound : ℕ} {digits : List Char} (hdigits : ∀ c ∈ digits, c.isDigit)
    (hbound : Nat.ofDigitChars 10 digits 0 < bound) :
    digits.foldlM (pushDigit 10 bound) 0 = some (Nat.ofDigitChars 10 digits 0) := by
  have hvalues : List.Forall₂ (fun value c => digitVal 10 c = some value)
      (digits.map fun c => c.toNat - '0'.toNat) digits :=
    List.forall₂_map_left_iff.mpr
      (List.forall₂_same.mpr fun c hc => digitVal_of_isDigit (hdigits c hc))
  have hnumber : ofValues 10 (digits.map fun c => c.toNat - '0'.toNat) 0 =
      Nat.ofDigitChars 10 digits 0 := List.foldl_map
  rw [← hnumber] at hbound ⊢
  exact foldlM_pushDigit (by decide) hvalues hbound

/-- The decimal number `n` below `bound`, with an optional sign and any number of leading
zeros. -/
def Numeral (bound : ℕ) (text : List Char) (n : ℕ) : Prop :=
  ∃ digits, digits ≠ [] ∧ (∀ c ∈ digits, c.isDigit) ∧ Nat.ofDigitChars 10 digits 0 = n ∧
    n < bound ∧ (text = digits ∨ text = '+' :: digits)

theorem isDigit_of_digitVal {c : Char} {value : ℕ} (h : digitVal 10 c = some value) :
    c.isDigit ∧ value = c.toNat - '0'.toNat := by
  by_cases hdigit : c.isDigit
  · rw [digitVal_of_isDigit hdigit] at h
    cases h
    exact ⟨hdigit, rfl⟩
  · rw [digitVal, if_neg fun hc => hdigit (isDigit_iff.mpr hc)] at h
    -- The letters stand for ten and more.
    have hle : ∀ c : Char, ('a' ≤ c → 97 ≤ c.toNat) ∧ ('A' ≤ c → 65 ≤ c.toNat) :=
      fun c => ⟨UInt32.le_iff_toNat_le.mp, UInt32.le_iff_toNat_le.mp⟩
    have hbig : 10 ≤ if 'a' ≤ c ∧ c ≤ 'z' then c.toNat - 87
        else if 'A' ≤ c ∧ c ≤ 'Z' then c.toNat - 55 else 10 := by
      split
      · rename_i hlower
        have := (hle c).1 hlower.1
        omega
      · split
        · rename_i hupper
          have := (hle c).2 hupper.1
          omega
        · exact le_rfl
    simp only [if_neg (Nat.not_lt.mpr hbig)] at h
    cases h

theorem digits_of_foldlM {bound : ℕ} {digits : List Char} {acc n : ℕ}
    (h : digits.foldlM (pushDigit 10 bound) acc = some n) :
    (∀ c ∈ digits, c.isDigit) ∧ Nat.ofDigitChars 10 digits acc = n ∧ (digits ≠ [] → n < bound) := by
  induction digits generalizing acc with
  | nil =>
      cases h
      exact ⟨by simp, rfl, fun hne => absurd rfl hne⟩
  | cons c rest ih =>
      rw [List.foldlM_cons, Option.bind_eq_bind, Option.bind_eq_some_iff] at h
      obtain ⟨next, hpush, hrest⟩ := h
      rw [pushDigit, Option.bind_eq_some_iff] at hpush
      obtain ⟨value, hvalue, hfit⟩ := hpush
      obtain ⟨hdigit, rfl⟩ := isDigit_of_digitVal hvalue
      obtain ⟨hlt, hnext⟩ := Option.ite_none_right_eq_some.mp hfit
      obtain rfl := Option.some.inj hnext
      obtain ⟨hdigits, hn, hbound⟩ := ih hrest
      refine ⟨List.forall_mem_cons.mpr ⟨hdigit, hdigits⟩, by rw [Nat.ofDigitChars_cons, hn], ?_⟩
      intro _
      cases rest with
      | nil =>
          cases hrest
          exact hlt
      | cons d rest => exact hbound (List.cons_ne_nil _ _)

/-- **What is read as a decimal number.** -/
theorem parseUnsigned_eq_some_iff {bound n : ℕ} {text : List Char} :
    parseUnsigned 10 bound text = some n ↔ Numeral bound text n := by
  constructor
  · intro h
    unfold parseUnsigned at h
    split at h
    · cases h
    · cases h
    · rename_i digits hne
      obtain ⟨hdigits, hvalue, hbound⟩ := digits_of_foldlM h
      have hnil : digits ≠ [] := by
        rintro rfl
        exact hne rfl
      exact ⟨digits, hnil, hdigits, hvalue, hbound hnil, .inr rfl⟩
    · rename_i hne _ _
      obtain ⟨hdigits, hvalue, hbound⟩ := digits_of_foldlM h
      exact ⟨text, hne, hdigits, hvalue, hbound hne, .inl rfl⟩
  · rintro ⟨digits, hne, hdigits, rfl, hbound, htext⟩
    have hfold := foldlM_pushDigit_ten hdigits hbound
    -- There is a first digit, and it is no sign.
    obtain ⟨c, rest, rfl⟩ := List.exists_cons_of_ne_nil hne
    have hc : c ≠ '+' := by
      rintro rfl
      exact absurd (hdigits '+' List.mem_cons_self) (by decide)
    rcases htext with rfl | rfl
    · rw [parseUnsigned_of_head_ne hc, hfold]
    · exact hfold

theorem Numeral.ne_nil {bound n : ℕ} {text : List Char} (h : Numeral bound text n) : text ≠ [] := by
  obtain ⟨digits, hne, -, -, -, rfl | rfl⟩ := h
  · exact hne
  · exact List.cons_ne_nil _ _

theorem numeral_toDigits {bound n : ℕ} (h : n < bound) :
    Numeral bound (Nat.toDigits 10 n) n :=
  ⟨_, Nat.toDigits_ne_nil, fun _ hc => isDigit_of_mem_toDigits hc, Nat.ofDigitChars_ten_toDigits,
    h, .inl rfl⟩

/-! ## Hexadecimal numbers -/

/-- A hexadecimal digit in either case. -/
def HexDigit (value : ℕ) (c : Char) : Prop :=
  value < 16 ∧ (c = Nat.digitChar value ∨ c = (Nat.digitChar value).toUpper)

theorem HexDigit.digitVal {value : ℕ} {c : Char} (h : HexDigit value c) :
    digitVal 16 c = some value := by
  obtain ⟨hlt, h⟩ := h
  rcases h with rfl | rfl
  · interval_cases value <;> decide
  · interval_cases value <;> decide

theorem HexDigit.ne_of_digitVal {value : ℕ} {c sep : Char} (h : HexDigit value c)
    (hsep : Text.digitVal 16 sep = none) : c ≠ sep := by
  rintro rfl
  rw [h.digitVal] at hsep
  cases hsep

theorem HexDigit.isWhitespace {value : ℕ} {c : Char} (h : HexDigit value c) :
    isWhitespace c = false := by
  obtain ⟨hlt, h⟩ := h
  rcases h with rfl | rfl
  · interval_cases value <;> decide
  · interval_cases value <;> decide

/-- The number `n` in hexadecimal digits. -/
def HexNumeral (n : ℕ) (text : List Char) : Prop :=
  ∃ values, values ≠ [] ∧ List.Forall₂ HexDigit values text ∧ ofValues 16 values 0 = n

theorem HexNumeral.word {n : ℕ} {text : List Char} (h : HexNumeral n text) : Word text := by
  obtain ⟨values, hne, hdigits, -⟩ := h
  refine ⟨?_, ?_⟩
  · rintro rfl
    exact hne (List.forall₂_nil_right_iff.mp hdigits)
  · clear hne
    induction hdigits with
    | nil => simp
    | cons hdigit hrest ih => exact List.forall_mem_cons.mpr ⟨hdigit.isWhitespace, ih⟩

/-- **A hexadecimal number is read back.** -/
theorem parseUnsigned_of_hexNumeral {bound n : ℕ} {text : List Char} (hn : n < bound)
    (h : HexNumeral n text) : parseUnsigned 16 bound text = some n := by
  obtain ⟨values, hne, hdigits, rfl⟩ := h
  have hread := foldlM_pushDigit (by decide) (hdigits.imp fun _ _ hdigit => hdigit.digitVal) hn
  cases hdigits with
  | nil => exact absurd rfl hne
  | cons hdigit hrest =>
      rw [parseUnsigned_of_head_ne (hdigit.ne_of_digitVal (by decide)), hread]

/-- `count` hexadecimal digits of `n`, in upper case. -/
def showHex (count n : ℕ) : List Char :=
  (List.range count).reverse.map fun i => (Nat.digitChar (n / 16 ^ i % 16)).toUpper

theorem hexNumeral_showHex {count n : ℕ} (hcount : count ≠ 0) (hn : n < 16 ^ count) :
    HexNumeral n (showHex count n) := by
  refine ⟨(List.range count).reverse.map fun i => n / 16 ^ i % 16, by simp [hcount], ?_, ?_⟩
  · refine List.forall₂_map_left_iff.mpr (List.forall₂_map_right_iff.mpr
      (List.forall₂_same.mpr fun i _ => ?_))
    exact ⟨Nat.mod_lt _ (by decide), .inr rfl⟩
  · rw [ofValues_digits, Nat.mod_eq_of_lt hn]

/-- The number `n` in two hexadecimal digits. -/
def HexPair (n : ℕ) (text : List Char) : Prop :=
  ∃ high low, text = [high, low] ∧ HexDigit (n / 16) high ∧ HexDigit (n % 16) low

theorem HexPair.hexNumeral {n : ℕ} {text : List Char} (h : HexPair n text) : HexNumeral n text := by
  obtain ⟨high, low, rfl, hhigh, hlow⟩ := h
  refine ⟨[n / 16, n % 16], List.cons_ne_nil _ _, .cons hhigh (.cons hlow .nil), ?_⟩
  show 16 * (16 * 0 + n / 16) + n % 16 = n
  omega

theorem HexPair.word {n : ℕ} {text : List Char} (h : HexPair n text) : Word text :=
  h.hexNumeral.word

theorem HexPair.notMem {n : ℕ} {text : List Char} (h : HexPair n text) {sep : Char}
    (hsep : digitVal 16 sep = none) : sep ∉ text := by
  obtain ⟨high, low, rfl, hhigh, hlow⟩ := h
  have hneHigh := hhigh.ne_of_digitVal hsep
  have hneLow := hlow.ne_of_digitVal hsep
  simp [hneHigh.symm, hneLow.symm]

theorem hexPair_digitChar {n : ℕ} (h : n < 256) :
    HexPair n [Nat.digitChar (n / 16), Nat.digitChar (n % 16)] :=
  ⟨_, _, rfl, ⟨by omega, .inl rfl⟩, ⟨by omega, .inl rfl⟩⟩

theorem parseUnsigned_of_hexPair {n : ℕ} {text : List Char} (h : HexPair n text) :
    parseUnsigned 16 256 text = some n := by
  refine parseUnsigned_of_hexNumeral ?_ h.hexNumeral
  obtain ⟨high, low, -, hhigh, -⟩ := h
  have hlt := hhigh.1
  omega

end RunPerf.Lib.Text
