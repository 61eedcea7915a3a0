import RunPerf.Lib.Text

/-!
# CPU lists

`parse_cpulist` reads the lists of CPUs that `--cpus` gives and that the kernel shows for a NUMA
node: numbers and ranges of numbers, separated by commas, with white space around the numbers.
Parts that are neither are left out.

It undoes the kernel's format (`parseCpulist_of_renders`), part by part
(`parseCpulist_append`).
-/

namespace RunPerf.Cpus

open RunPerf.Lib RunPerf.Lib.Text

/-- `str::parse::<usize>`. -/
def parseUsize (text : List Char) : Option ℕ := parseUnsigned 10 (2 ^ 64) text

/-- One part of a list. -/
def parsePart (part : List Char) : List ℕ :=
  let part := trim part
  if part = [] then []
  else
    match splitOnce '-' part with
    | some (a, b) =>
        match parseUsize (trim a), parseUsize (trim b) with
        | some a, some b => List.range' a (b + 1 - a)
        | _, _ => []
    | none => (parseUsize part).toList

/-- `parse_cpulist`. -/
def parseCpulist (s : List Char) : List ℕ := (s.splitOn ',').flatMap parsePart

/-- `numa_cpus`, where `read` gives the text of the list of a node. -/
def numaCpus (read : ℕ → Option (List Char)) (node : ℕ) : List ℕ :=
  match read node with
  | some s => parseCpulist (trim s)
  | none => []

/-- `resolve_cpus`. -/
def resolveCpus (read : ℕ → Option (List Char)) (cpus : Option (List Char)) (numa : Option ℕ) :
    List ℕ :=
  match cpus, numa with
  | some list, _ => parseCpulist list
  | none, some n => numaCpus read n
  | none, none => []

/-! ## Parts -/

/-- **A list is read part by part.** -/
theorem parseCpulist_append (x y : List Char) :
    parseCpulist (x ++ ',' :: y) = parseCpulist x ++ parseCpulist y := by
  rw [parseCpulist, List.splitOn_append_cons_self, List.flatMap_append]
  rfl

theorem parseCpulist_of_notMem {part : List Char} (h : ',' ∉ part) :
    parseCpulist part = parsePart part := by
  rw [parseCpulist, List.splitOn_eq_singleton h]
  simp

/-- What a part says: it is the number `id`, or two numbers with `id` from the first to the
second, up to white space. -/
def Names (part : List Char) (id : ℕ) : Prop :=
  ('-' ∉ trim part ∧ Numeral (2 ^ 64) (trim part) id) ∨
    ∃ a b first last, '-' ∉ a ∧ trim part = a ++ '-' :: b ∧
      Numeral (2 ^ 64) (trim a) first ∧ Numeral (2 ^ 64) (trim b) last ∧ first ≤ id ∧ id ≤ last

theorem mem_parsePart_iff {part : List Char} {id : ℕ} : id ∈ parsePart part ↔ Names part id := by
  constructor
  · intro h
    simp only [parsePart] at h
    split at h
    · simp at h
    · split at h
      · rename_i a b hsplit
        obtain ⟨hnot, htext⟩ := eq_append_of_splitOnce hsplit
        split at h
        · rename_i first last hfirst hlast
          have hrange := List.mem_range'_1.mp h
          exact .inr ⟨a, b, first, last, hnot, htext, parseUnsigned_eq_some_iff.mp hfirst,
            parseUnsigned_eq_some_iff.mp hlast, hrange.1, by omega⟩
        · simp at h
      · rename_i hsplit
        exact .inl ⟨notMem_of_splitOnce hsplit,
          parseUnsigned_eq_some_iff.mp (Option.mem_toList.mp h)⟩
  · rintro (⟨hnot, hid⟩ | ⟨a, b, first, last, hnot, htext, hfirst, hlast, hle, hge⟩)
    · have hread : parseUsize (trim part) = some id := parseUnsigned_eq_some_iff.mpr hid
      simp only [parsePart, if_neg hid.ne_nil, splitOnce_eq_none hnot, hread]
      exact List.mem_singleton_self id
    · have hreadFirst : parseUsize (trim a) = some first := parseUnsigned_eq_some_iff.mpr hfirst
      have hreadLast : parseUsize (trim b) = some last := parseUnsigned_eq_some_iff.mpr hlast
      have hne : trim part ≠ [] := by
        rw [htext]
        simp
      have hsplit : splitOnce '-' (trim part) = some (a, b) := by
        rw [htext, splitOnce_append hnot]
      simp only [parsePart, if_neg hne, hsplit, hreadFirst, hreadLast]
      exact List.mem_range'_1.mpr ⟨hle, by omega⟩

/-- **The ids in a list are those that its parts name.** -/
theorem mem_parseCpulist_iff {s : List Char} {id : ℕ} :
    id ∈ parseCpulist s ↔ ∃ part ∈ s.splitOn ',', Names part id := by
  simp only [parseCpulist, List.mem_flatMap, mem_parsePart_iff]

/-! ## The format of the kernel -/

/-- The maximal runs of consecutive ids of an increasing list, each with its first and its last
id. -/
def runs : List ℕ → List (ℕ × ℕ)
  | [] => []
  | id :: rest =>
      match runs rest with
      | [] => [(id, id)]
      | (first, last) :: more =>
          if id + 1 = first then (id, last) :: more else (id, id) :: (first, last) :: more

/-- A number in white space. -/
def Padded (n : ℕ) (text : List Char) : Prop :=
  ∃ before after, Blank before ∧ Blank after ∧ text = before ++ Nat.toDigits 10 n ++ after

/-- A run of one is its number, a longer one its first and last. -/
def RunText (run : ℕ × ℕ) (text : List Char) : Prop :=
  if run.1 = run.2 then Padded run.1 text
  else ∃ a b, Padded run.1 a ∧ Padded run.2 b ∧ text = a ++ '-' :: b

/-- `text` is how the kernel shows `ids`, up to white space around the numbers. -/
def Renders (ids : List ℕ) (text : List Char) : Prop :=
  ∃ parts, List.Forall₂ RunText (runs ids) parts ∧ text = [','].intercalate parts ++ ['\n']

/-- The ids of a run. -/
def expand (run : ℕ × ℕ) : List ℕ := List.range' run.1 (run.2 + 1 - run.1)

theorem le_of_mem_runs {ids : List ℕ} {run : ℕ × ℕ} (h : run ∈ runs ids) : run.1 ≤ run.2 := by
  induction ids generalizing run with
  | nil => simp [runs] at h
  | cons id rest ih =>
      rw [runs] at h
      split at h
      · obtain rfl := List.mem_singleton.mp h
        exact le_rfl
      · rename_i first last more hruns
        have hfirst : first ≤ last :=
          ih (show (first, last) ∈ runs rest by rw [hruns]; exact List.mem_cons_self)
        split at h
        · rcases List.mem_cons.mp h with rfl | hmore
          · show id ≤ last
            omega
          · exact ih (by simp [hruns, hmore])
        · rcases List.mem_cons.mp h with rfl | hmore
          · exact le_rfl
          · exact ih (by rwa [hruns])

/-- The runs make up the list. -/
theorem flatMap_expand_runs (ids : List ℕ) : (runs ids).flatMap expand = ids := by
  induction ids with
  | nil => rfl
  | cons id rest ih =>
      have hone : expand (id, id) = [id] := by simp [expand]
      rw [runs]
      split
      · rename_i hruns
        rw [hruns] at ih
        rw [List.flatMap_singleton, hone, ← ih]
        rfl
      · rename_i first last more hruns
        have hfirst : first ≤ last :=
          le_of_mem_runs (show (first, last) ∈ runs rest by rw [hruns]; exact List.mem_cons_self)
        rw [hruns, List.flatMap_cons] at ih
        split
        · rename_i hnext
          have hlonger : expand (id, last) = id :: expand (first, last) := by
            rw [expand, expand, ← hnext, show last + 1 - id = last + 1 - (id + 1) + 1 by omega,
              List.range'_succ]
          rw [List.flatMap_cons, hlonger, List.cons_append, ih]
        · rw [List.flatMap_cons, List.flatMap_cons, hone, ih]
          rfl

theorem head?_runs (id : ℕ) (rest : List ℕ) :
    ∃ last, (runs (id :: rest)).head? = some (id, last) := by
  rw [runs]
  split
  · exact ⟨id, rfl⟩
  · split
    · exact ⟨_, rfl⟩
    · exact ⟨id, rfl⟩

/-- The runs of an increasing list are maximal: there is a gap between any two of them. -/
theorem runs_isChain {ids : List ℕ} (h : ids.Pairwise (· < ·)) :
    (runs ids).IsChain fun run next => run.2 + 1 < next.1 := by
  induction ids with
  | nil => exact .nil
  | cons id rest ih =>
      obtain ⟨hlt, hrest⟩ := List.pairwise_cons.mp h
      have hchain := ih hrest
      rw [runs]
      split
      · exact .singleton _
      · rename_i first last more hruns
        rw [hruns] at hchain
        split
        · cases more with
          | nil => exact .singleton _
          | cons next more =>
              obtain ⟨hgap, hmore⟩ := List.isChain_cons_cons.mp hchain
              exact .cons_cons hgap hmore
        · rename_i hnext
          refine .cons_cons ?_ hchain
          cases rest with
          | nil => simp [runs] at hruns
          | cons second rest =>
              obtain ⟨_, hhead⟩ := head?_runs second rest
              rw [hruns] at hhead
              cases hhead
              have hfirst := hlt first List.mem_cons_self
              show id + 1 < first
              omega

/-! ## Reading it back -/

theorem trim_padded {n : ℕ} {text : List Char} (h : Padded n text) :
    trim text = Nat.toDigits 10 n := by
  obtain ⟨before, after, hbefore, hafter, rfl⟩ := h
  exact trim_word hbefore (word_toDigits n) hafter

theorem parseUsize_toDigits {n : ℕ} (h : n < 2 ^ 64) :
    parseUsize (Nat.toDigits 10 n) = some n :=
  parseUnsigned_eq_some_iff.mpr (numeral_toDigits h)

theorem parsePart_of_padded {n : ℕ} {part : List Char} (hlt : n < 2 ^ 64) (h : Padded n part) :
    parsePart part = [n] := by
  have hnone : splitOnce '-' (Nat.toDigits 10 n) = none :=
    splitOnce_eq_none (notMem_toDigits (by decide) n)
  simp only [parsePart, trim_padded h, if_neg Nat.toDigits_ne_nil, hnone, parseUsize_toDigits hlt,
    Option.toList_some]

theorem parsePart_of_padded_pair {n m : ℕ} {a b : List Char} (hn : n < 2 ^ 64) (hm : m < 2 ^ 64)
    (ha : Padded n a) (hb : Padded m b) :
    parsePart (a ++ '-' :: b) = List.range' n (m + 1 - n) := by
  obtain ⟨before, inner, hbefore, hinner, rfl⟩ := ha
  obtain ⟨inner', after, hinner', hafter, rfl⟩ := hb
  -- Trimming the part leaves the white space around the hyphen.
  have htrim : trim (before ++ Nat.toDigits 10 n ++ inner ++
      '-' :: (inner' ++ Nat.toDigits 10 m ++ after)) =
      (Nat.toDigits 10 n ++ inner) ++ '-' :: (inner' ++ Nat.toDigits 10 m) := by
    have hassoc : before ++ Nat.toDigits 10 n ++ inner ++
        '-' :: (inner' ++ Nat.toDigits 10 m ++ after) =
        before ++ ((Nat.toDigits 10 n ++ inner) ++ '-' :: (inner' ++ Nat.toDigits 10 m)) ++
          after := by simp
    rw [hassoc]
    refine trim_append hbefore hafter ?_ ?_ (by simp)
    · intro c hc
      rw [List.append_assoc, List.head?_append_of_ne_nil _ Nat.toDigits_ne_nil] at hc
      exact (word_toDigits n).solid c (List.mem_of_mem_head? hc)
    · intro c hc
      rw [← List.cons_append, ← List.append_assoc,
        List.getLast?_append_of_ne_nil _ Nat.toDigits_ne_nil] at hc
      exact (word_toDigits m).solid c (List.mem_of_mem_getLast? hc)
  have hsplit : splitOnce '-'
      ((Nat.toDigits 10 n ++ inner) ++ '-' :: (inner' ++ Nat.toDigits 10 m)) =
      some (Nat.toDigits 10 n ++ inner, inner' ++ Nat.toDigits 10 m) :=
    splitOnce_append (List.not_mem_append (notMem_toDigits (by decide) n)
      (hinner.notMem (by decide))) _
  have hfirst : trim (Nat.toDigits 10 n ++ inner) = Nat.toDigits 10 n :=
    trim_padded ⟨[], inner, by simp [Blank], hinner, rfl⟩
  have hlast : trim (inner' ++ Nat.toDigits 10 m) = Nat.toDigits 10 m :=
    trim_padded ⟨inner', [], hinner', by simp [Blank], by simp⟩
  rw [parsePart, htrim]
  simp only [hsplit, hfirst, hlast, parseUsize_toDigits hn, parseUsize_toDigits hm]
  rw [if_neg (by simp)]

theorem parsePart_of_runText {run : ℕ × ℕ} {part : List Char} (hrun : run.1 ≤ run.2)
    (hlt : run.2 < 2 ^ 64) (h : RunText run part) : parsePart part = expand run := by
  rw [RunText] at h
  split at h
  · rename_i hone
    rw [parsePart_of_padded (by omega) h, expand, ← hone]
    simp
  · obtain ⟨a, b, ha, hb, rfl⟩ := h
    exact parsePart_of_padded_pair (by omega) hlt ha hb

/-- A newline belongs to the white space behind the last number. -/
theorem Padded.newline {n : ℕ} {text : List Char} (h : Padded n text) :
    Padded n (text ++ ['\n']) := by
  obtain ⟨before, after, hbefore, hafter, rfl⟩ := h
  exact ⟨before, after ++ ['\n'], hbefore, hafter.append (by simp [Blank, isWhitespace]), by simp⟩

theorem RunText.newline {run : ℕ × ℕ} {text : List Char} (h : RunText run text) :
    RunText run (text ++ ['\n']) := by
  rw [RunText] at h ⊢
  split at h
  · rename_i hone
    rw [if_pos hone]
    exact h.newline
  · rename_i hlonger
    obtain ⟨a, b, ha, hb, rfl⟩ := h
    rw [if_neg hlonger]
    exact ⟨a, b ++ ['\n'], ha, hb.newline, by simp⟩

theorem Padded.notMem {n : ℕ} {text : List Char} (h : Padded n text) {c : Char}
    (hdigit : c.isDigit = false) (hspace : isWhitespace c = false) : c ∉ text := by
  obtain ⟨before, after, hbefore, hafter, rfl⟩ := h
  exact List.not_mem_append (List.not_mem_append (hbefore.notMem hspace)
    (notMem_toDigits hdigit n)) (hafter.notMem hspace)

theorem RunText.comma_notMem {run : ℕ × ℕ} {text : List Char} (h : RunText run text) :
    ',' ∉ text := by
  rw [RunText] at h
  split at h
  · exact h.notMem (by decide) (by decide)
  · obtain ⟨a, b, ha, hb, rfl⟩ := h
    have hbehind : ',' ∉ '-' :: b :=
      List.not_mem_cons_of_ne_of_not_mem (by decide) (hb.notMem (by decide) (by decide))
    exact List.not_mem_append (ha.notMem (by decide) (by decide)) hbehind

theorem parseCpulist_of_runs {list : List (ℕ × ℕ)} {parts : List (List Char)}
    (hruns : ∀ run ∈ list, run.1 ≤ run.2 ∧ run.2 < 2 ^ 64)
    (h : List.Forall₂ RunText list parts) :
    parseCpulist ([','].intercalate parts ++ ['\n']) = list.flatMap expand := by
  induction h with
  | nil => rfl
  | @cons run part list parts hpart hparts ih =>
      obtain ⟨hle, hlt⟩ := hruns run List.mem_cons_self
      have hrest := ih fun r hr => hruns r (List.mem_cons_of_mem _ hr)
      cases hparts with
      | nil =>
          have hread := parsePart_of_runText hle hlt hpart.newline
          rw [List.intercalate_singleton, parseCpulist_of_notMem hpart.newline.comma_notMem, hread]
          simp
      | cons hnext hmore =>
          rw [List.intercalate_cons_cons, List.append_assoc, List.append_assoc,
            List.singleton_append, parseCpulist_append, hrest,
            parseCpulist_of_notMem hpart.comma_notMem, parsePart_of_runText hle hlt hpart]
          rfl

theorem lt_of_mem_runs {ids : List ℕ} {bound : ℕ} (h : ∀ id ∈ ids, id < bound) {run : ℕ × ℕ}
    (hrun : run ∈ runs ids) : run.2 < bound := by
  have hle := le_of_mem_runs hrun
  refine h run.2 ?_
  rw [← flatMap_expand_runs ids, List.mem_flatMap]
  exact ⟨run, hrun, List.mem_range'_1.mpr ⟨hle, by omega⟩⟩

/-- A part that names no CPU, as it is neither a number nor a range of numbers. -/
structure Malformed (part : List Char) : Prop where
  comma : ',' ∉ part
  names : ∀ id, ¬ Names part id

theorem parsePart_of_malformed {part : List Char} (h : Malformed part) : parsePart part = [] :=
  List.eq_nil_iff_forall_not_mem.mpr fun id hid => h.names id (mem_parsePart_iff.mp hid)

/-- **`parse_cpulist` undoes the format of the kernel, and reads each part on its own**, so
that a malformed part adds nothing. -/
theorem parseCpulist_correct :
    (∀ ids text, ids.Pairwise (· < ·) → (∀ id ∈ ids, id < 2 ^ 64) → Renders ids text →
      parseCpulist text = ids) ∧
    (∀ x y, parseCpulist (x ++ ',' :: y) = parseCpulist x ++ parseCpulist y) ∧
    ∀ x part y, Malformed part →
      parseCpulist (x ++ ',' :: (part ++ ',' :: y)) = parseCpulist x ++ parseCpulist y := by
  refine ⟨?_, parseCpulist_append, ?_⟩
  · rintro ids text - hlt ⟨parts, hparts, rfl⟩
    rw [parseCpulist_of_runs (fun run hrun => ⟨le_of_mem_runs hrun, lt_of_mem_runs hlt hrun⟩)
      hparts, flatMap_expand_runs]
  · intro x part y hpart
    rw [parseCpulist_append, parseCpulist_append, parseCpulist_of_notMem hpart.comma,
      parsePart_of_malformed hpart, List.nil_append]

/-- A run of four and a single id, with white space before it. -/
theorem renders_five : Renders [0, 1, 2, 3, 8] "0-3, 8\n".toList := by
  have hblank : Blank [] := by simp [Blank]
  have hspace : Blank [' '] := by simp [Blank, isWhitespace]
  refine ⟨["0-3".toList, " 8".toList], .cons ?_ (.cons ?_ .nil), by decide⟩
  · exact ⟨['0'], ['3'], ⟨[], [], hblank, hblank, by decide⟩, ⟨[], [], hblank, hblank, by decide⟩,
      by decide⟩
  · exact ⟨[' '], [], hspace, hblank, by decide⟩

theorem parseCpulist_five :
    Renders [0, 1, 2, 3, 8] "0-3, 8\n".toList ∧ parseCpulist "0-3, 8\n".toList = [0, 1, 2, 3, 8] :=
  ⟨renders_five, parseCpulist_correct.1 _ _ (by decide) (by decide) renders_five⟩

end RunPerf.Cpus
