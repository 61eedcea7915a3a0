import RunPerf.Lib.Text
import RunPerf.Xdp.Template

/-!
# Neighbour entries

The XDP client takes the hardware address of the server from `/proc/net/arp`, the kernel's table
of neighbours, and its own from `/sys/class/net/<iface>/address`.

`lookup_arp` reads the table line by line. On a table with well-formed rows it does what
`lookupRows` does on the rows (`lookupArp_eq_lookupRows`): the first row with the address of the
server decides, also if that row is incomplete and a later one, of another device, is not.
-/

namespace RunPerf.Xdp.Arp

open RunPerf.Lib.Text

/-- `u8::from_str_radix` with hexadecimal digits. -/
def parseByte (x : List Char) : Option UInt8 := (parseUnsigned 16 256 x).map UInt8.ofNat

/-- `parse_mac`. -/
def parseMac (s : List Char) : Option (Vector UInt8 6) :=
  match s.splitOn ':' with
  | [p₀, p₁, p₂, p₃, p₄, p₅] => do
      let m₀ ← parseByte p₀
      let m₁ ← parseByte p₁
      let m₂ ← parseByte p₂
      let m₃ ← parseByte p₃
      let m₄ ← parseByte p₄
      let m₅ ← parseByte p₅
      return #v[m₀, m₁, m₂, m₃, m₄, m₅]
  | _ => none

/-- `Ipv4Addr::to_string`. -/
def dotted (ip : Vector UInt8 4) : List Char :=
  ['.'].intercalate (ip.toList.map fun octet => Nat.toDigits 10 octet.toNat)

/-- The flags of an entry without a hardware address. -/
def incomplete : List Char := "0x0".toList

/-- The loop of `lookup_arp` over the lines, each given by its columns. -/
def scan (target : List Char) : List (List (List Char)) → Option (Vector UInt8 6)
  | [] => none
  | line :: rest =>
      match line with
      -- Each column that is missing ends the function, not only the line.
      | [] => none
      | ip :: columns =>
          if ip ≠ target then scan target rest
          else
            match columns with
            | _hw :: flags :: columns =>
                if flags = incomplete then none
                else
                  match columns with
                  | mac :: _ => parseMac mac
                  | [] => none
            | _ => none

/-- `lookup_arp`, where `content` is the text of `/proc/net/arp`, if it can be read. -/
def lookupArp (server : Vector UInt8 4) (content : Option (List Char)) :
    Option (Vector UInt8 6) :=
  content.bind fun content =>
    scan (dotted server) (((lines content).drop 1).map splitWhitespace)

/-- `resolve_server_mac`, where `read` gives the text of the table at each attempt: one before
`trigger_arp` and five behind it. -/
def resolveServerMac (server : Vector UInt8 4) (read : ℕ → Option (List Char)) :
    Option (Vector UInt8 6) :=
  (List.range 6).findSome? fun attempt => lookupArp server (read attempt)

/-- `local_mac`, where `content` is the text of the `address` file of the interface. -/
def localMac (content : Option (List Char)) : Option (Vector UInt8 6) :=
  content.bind fun s => parseMac (trim s)

/-! ## Addresses -/

/-- A hardware address as six groups of two hexadecimal digits. -/
def MacText (mac : Vector UInt8 6) (text : List Char) : Prop :=
  ∃ groups, List.Forall₂ (fun (byte : UInt8) group => HexPair byte.toNat group) mac.toList groups ∧
    text = [':'].intercalate groups

theorem parseByte_of_hexPair {byte : UInt8} {group : List Char}
    (h : HexPair byte.toNat group) : parseByte group = some byte := by
  rw [parseByte, parseUnsigned_of_hexPair h, Option.map_some, UInt8.ofNat_toNat]

theorem groups_solid {bytes : List UInt8} {groups : List (List Char)}
    (h : List.Forall₂ (fun (byte : UInt8) group => HexPair byte.toNat group) bytes groups) :
    ∀ group ∈ groups, Word group ∧ ':' ∉ group := by
  induction h with
  | nil => simp
  | cons hpair hrest ih =>
      exact List.forall_mem_cons.mpr ⟨⟨hpair.word, hpair.notMem (by decide)⟩, ih⟩

theorem MacText.word {mac : Vector UInt8 6} {text : List Char} (h : MacText mac text) :
    Word text := by
  obtain ⟨groups, hgroups, rfl⟩ := h
  have hsolid := groups_solid hgroups
  refine Word.intercalate (by decide) ?_ fun group hgroup => (hsolid group hgroup).1
  rintro rfl
  have hlength := hgroups.length_eq
  simp at hlength

/-- **A hardware address is read back.** -/
theorem parseMac_of_macText {mac : Vector UInt8 6} {text : List Char} (h : MacText mac text) :
    parseMac text = some mac := by
  obtain ⟨groups, hgroups, rfl⟩ := h
  have hsolid := groups_solid hgroups
  obtain ⟨m₀, m₁, m₂, m₃, m₄, m₅, hmac⟩ := exists_six mac
  have hvector : mac = #v[m₀, m₁, m₂, m₃, m₄, m₅] := Vector.toList_inj.mp hmac
  rw [hmac] at hgroups
  simp only [List.forall₂_cons_left_iff, List.forall₂_nil_left_iff] at hgroups
  obtain ⟨p₀, _, h₀, ⟨p₁, _, h₁, ⟨p₂, _, h₂, ⟨p₃, _, h₃, ⟨p₄, _, h₄, ⟨p₅, _, h₅, rfl, rfl⟩, rfl⟩,
    rfl⟩, rfl⟩, rfl⟩, rfl⟩ := hgroups
  have hsplit := List.splitOn_intercalate ':' (fun group hgroup => (hsolid group hgroup).2)
    (List.cons_ne_nil _ _)
  simp only [parseMac, hsplit, parseByte_of_hexPair h₀, parseByte_of_hexPair h₁,
    parseByte_of_hexPair h₂, parseByte_of_hexPair h₃, parseByte_of_hexPair h₄,
    parseByte_of_hexPair h₅, hvector]
  rfl

/-- The kernel writes the address of an interface as a line. -/
theorem localMac_of_macText {mac : Vector UInt8 6} {text : List Char} (h : MacText mac text) :
    localMac (some (text ++ ['\n'])) = some mac := by
  have hnewline : Blank ['\n'] := List.forall_mem_singleton.mpr (by decide)
  have htrim : trim (text ++ ['\n']) = text :=
    @trim_word [] text ['\n'] (by simp [Blank]) h.word hnewline
  rw [localMac, Option.bind_some, htrim, parseMac_of_macText h]

/-- The parts of a dotted address. -/
theorem octets_solid (ip : Vector UInt8 4) :
    ∀ part ∈ ip.toList.map fun octet => Nat.toDigits 10 octet.toNat, Word part ∧ '.' ∉ part := by
  intro part hpart
  obtain ⟨octet, -, rfl⟩ := List.mem_map.mp hpart
  exact ⟨word_toDigits _, notMem_toDigits (by decide) _⟩

theorem octets_ne_nil (ip : Vector UInt8 4) :
    (ip.toList.map fun octet => Nat.toDigits 10 octet.toNat) ≠ [] := by
  obtain ⟨a, b, c, d, hip⟩ := exists_four ip
  rw [hip]
  exact List.cons_ne_nil _ _

theorem word_dotted (ip : Vector UInt8 4) : Word (dotted ip) :=
  Word.intercalate (by decide) (octets_ne_nil ip) fun part hpart => (octets_solid ip part hpart).1

theorem toDigits_injective :
    Function.Injective fun octet : UInt8 => Nat.toDigits 10 octet.toNat := by
  intro a b hab
  have hvalue := congrArg (Nat.ofDigitChars 10 · 0) hab
  simp only [Nat.ofDigitChars_ten_toDigits] at hvalue
  exact UInt8.toNat_inj.mp hvalue

theorem splitOn_dotted (ip : Vector UInt8 4) :
    (dotted ip).splitOn '.' = ip.toList.map fun octet => Nat.toDigits 10 octet.toNat :=
  List.splitOn_intercalate '.' (fun part hpart => (octets_solid ip part hpart).2)
    (octets_ne_nil ip)

/-- Different addresses have different texts. -/
theorem dotted_injective : Function.Injective dotted := by
  intro ip ip' heq
  have hparts : (ip.toList.map fun octet => Nat.toDigits 10 octet.toNat) =
      ip'.toList.map fun octet => Nat.toDigits 10 octet.toNat := by
    calc _ = (dotted ip).splitOn '.' := (splitOn_dotted ip).symm
      _ = (dotted ip').splitOn '.' := by rw [heq]
      _ = _ := splitOn_dotted ip'
  exact Vector.toList_inj.mp (List.map_injective_iff.mpr toDigits_injective hparts)

/-! ## Rows -/

/-- A row of the table. -/
structure ArpRow where
  ip : Vector UInt8 4
  hwType : List Char
  flags : List Char
  mac : Vector UInt8 6
  mask : List Char
  device : List Char
  hwType_word : Word hwType
  flags_word : Word flags
  mask_word : Word mask
  device_word : Word device

/-- The columns of a row, with its hardware address as `macText`. -/
def ArpRow.columns (row : ArpRow) (macText : List Char) : List (List Char) :=
  [dotted row.ip, row.hwType, row.flags, macText, row.mask, row.device]

theorem ArpRow.word_of_mem_columns (row : ArpRow) {macText : List Char}
    (hmac : MacText row.mac macText) {word : List Char} (h : word ∈ row.columns macText) :
    Word word := by
  simp only [columns, List.mem_cons, List.not_mem_nil, or_false] at h
  rcases h with rfl | rfl | rfl | rfl | rfl | rfl
  · exact word_dotted row.ip
  · exact row.hwType_word
  · exact row.flags_word
  · exact hmac.word
  · exact row.mask_word
  · exact row.device_word

/-- A line that shows a row. -/
def RowText (row : ArpRow) (line : List Char) : Prop :=
  ∃ macText, MacText row.mac macText ∧ Columns (row.columns macText) line

/-- A table with a header and these rows. -/
def ArpText (header : List Char) (rows : List ArpRow) (text : List Char) : Prop :=
  ∃ list, List.Forall₂ RowText rows list ∧ Lined (header :: list) text

/-- The columns of a line are those of the row. -/
def ReadsAs (row : ArpRow) (line : List (List Char)) : Prop :=
  ∃ macText, MacText row.mac macText ∧ line = row.columns macText

theorem RowText.readsAs {row : ArpRow} {line : List Char} (h : RowText row line) :
    ReadsAs row (splitWhitespace line) := by
  obtain ⟨macText, hmac, hcolumns⟩ := h
  exact ⟨macText, hmac,
    splitWhitespace_of_columns (fun _ hword => row.word_of_mem_columns hmac hword) hcolumns⟩

/-- What `lookup_arp` does on the rows: the first row with the address decides. -/
def lookupRows (server : Vector UInt8 4) (rows : List ArpRow) : Option (Vector UInt8 6) :=
  (rows.find? fun row => row.ip = server).bind fun row =>
    if row.flags = incomplete then none else some row.mac

theorem scan_cons {server : Vector UInt8 4} {row : ArpRow} {line : List (List Char)}
    (h : ReadsAs row line) (rest : List (List (List Char))) :
    scan (dotted server) (line :: rest) =
      if row.ip = server then (if row.flags = incomplete then none else some row.mac)
      else scan (dotted server) rest := by
  obtain ⟨macText, hmac, rfl⟩ := h
  simp only [ArpRow.columns, scan, parseMac_of_macText hmac]
  by_cases hip : row.ip = server
  · rw [if_pos hip, if_neg (not_not.mpr (congrArg dotted hip))]
  · rw [if_neg hip, if_pos fun heq => hip (dotted_injective heq)]

theorem scan_rows {server : Vector UInt8 4} {rows : List ArpRow}
    {list : List (List (List Char))} (h : List.Forall₂ ReadsAs rows list) :
    scan (dotted server) list = lookupRows server rows := by
  induction h with
  | nil => rfl
  | @cons row line rows list hrow hrest ih =>
      rw [scan_cons hrow, ih]
      by_cases hip : row.ip = server
      · simp [lookupRows, hip]
      · simp [lookupRows, hip]

/-- **`lookup_arp` on the text of a table is `lookupRows` on its rows.** -/
theorem lookupArp_eq_lookupRows {header : List Char} {rows : List ArpRow} {text : List Char}
    (h : ArpText header rows text) (server : Vector UInt8 4) :
    lookupArp server (some text) = lookupRows server rows := by
  obtain ⟨list, hlist, htext⟩ := h
  rw [lookupArp, Option.bind_some,
    scan_rows (forall₂_columns (fun _ _ hrow => hrow.readsAs) hlist htext)]

/-! ## The format of the kernel -/

/-- The text of a hardware address. -/
def showMac (mac : Vector UInt8 6) : List Char :=
  [':'].intercalate (mac.toList.map fun byte =>
    [Nat.digitChar (byte.toNat / 16), Nat.digitChar (byte.toNat % 16)])

theorem macText_showMac (mac : Vector UInt8 6) : MacText mac (showMac mac) := by
  refine ⟨_, List.forall₂_map_right_iff.mpr (List.forall₂_same.mpr ?_), rfl⟩
  exact fun byte _ => hexPair_digitChar byte.toNat_lt

/-- The line of a row, with single blanks. -/
def showRow (row : ArpRow) : List Char := [' '].intercalate (row.columns (showMac row.mac))

theorem rowText_showRow (row : ArpRow) : RowText row (showRow row) :=
  ⟨showMac row.mac, macText_showMac row.mac, columns_intercalate _⟩

theorem newline_notMem_showRow (row : ArpRow) : '\n' ∉ showRow row :=
  newline_notMem_intercalate fun _ hword => row.word_of_mem_columns (macText_showMac row.mac) hword

/-- The text of a table. -/
def showTable (header : List Char) (rows : List ArpRow) : List Char :=
  (header :: rows.map showRow).flatMap (· ++ ['\n'])

theorem arpText_showTable {header : List Char} (h : '\n' ∉ header) (rows : List ArpRow) :
    ArpText header rows (showTable header rows) :=
  exists_table rowText_showRow newline_notMem_showRow h rows

/-! ## Usable entries -/

/-- A row with the address of the server and a hardware address. -/
def Usable (server : Vector UInt8 4) (row : ArpRow) : Prop :=
  row.ip = server ∧ row.flags ≠ incomplete

/-- `result` is the hardware address of a usable row, or `none` if there is no usable row. -/
def Finds (server : Vector UInt8 4) (rows : List ArpRow) (result : Option (Vector UInt8 6)) :
    Prop :=
  ((∃ row ∈ rows, Usable server row) → ∃ row ∈ rows, Usable server row ∧ result = some row.mac) ∧
    ((¬ ∃ row ∈ rows, Usable server row) → result = none)

/-- The first row with the address of the server is usable. -/
def FirstUsable (server : Vector UInt8 4) (rows : List ArpRow) : Prop :=
  ∃ row, rows.find? (fun row => row.ip = server) = some row ∧ row.flags ≠ incomplete

theorem lookupRows_of_firstUsable {server : Vector UInt8 4} {rows : List ArpRow}
    (h : FirstUsable server rows) :
    ∃ row ∈ rows, Usable server row ∧ lookupRows server rows = some row.mac := by
  obtain ⟨row, hfind, hflags⟩ := h
  have hip : row.ip = server := by simpa using List.find?_some hfind
  refine ⟨row, List.mem_of_find?_eq_some hfind, ⟨hip, hflags⟩, ?_⟩
  rw [lookupRows, hfind, Option.bind_some, if_neg hflags]

theorem lookupRows_eq_none {server : Vector UInt8 4} {rows : List ArpRow}
    (h : ¬ FirstUsable server rows) : lookupRows server rows = none := by
  rw [lookupRows, Option.bind_eq_none_iff]
  intro row hfind
  by_cases hflags : row.flags = incomplete
  · exact if_pos hflags
  · exact absurd ⟨row, hfind, hflags⟩ h

/-- **A usable entry is found exactly if there is none or the first entry with the address is
usable.** -/
theorem lookup_arp_finds_iff {header : List Char} {rows : List ArpRow} {text : List Char}
    (h : ArpText header rows text) (server : Vector UInt8 4) :
    Finds server rows (lookupArp server (some text)) ↔
      (∀ row ∈ rows, ¬ Usable server row) ∨ FirstUsable server rows := by
  rw [lookupArp_eq_lookupRows h]
  constructor
  · rintro ⟨hsome, -⟩
    by_cases hfirst : FirstUsable server rows
    · exact .inr hfirst
    · left
      intro row hrow husable
      obtain ⟨other, -, -, hother⟩ := hsome ⟨row, hrow, husable⟩
      rw [lookupRows_eq_none hfirst] at hother
      cases hother
  · rintro (hnone | hfirst)
    · refine ⟨fun hsome => ?_, fun _ => lookupRows_eq_none ?_⟩
      · obtain ⟨row, hrow, husable⟩ := hsome
        exact absurd husable (hnone row hrow)
      · intro hfirst
        obtain ⟨row, hrow, husable, -⟩ := lookupRows_of_firstUsable hfirst
        exact hnone row hrow husable
    · obtain ⟨row, hrow, husable, hlookup⟩ := lookupRows_of_firstUsable hfirst
      exact ⟨fun _ => ⟨row, hrow, husable, hlookup⟩, fun hnone =>
        absurd ⟨row, hrow, husable⟩ hnone⟩

/-- The entry of one neighbour, at `device`. -/
def sampleRow (device : List Char) (hdevice : Word device) (flags : List Char)
    (hflags : Word flags) (last : UInt8) : ArpRow where
  ip := #v[10, 0, 0, 2]
  hwType := "0x1".toList
  flags := flags
  mac := #v[2, 0, 0, 0, 0, last]
  mask := "*".toList
  device := device
  hwType_word := by decide
  flags_word := hflags
  mask_word := by decide
  device_word := hdevice

/-- The device `eth0` has got no answer from the neighbour, `eth1` has. -/
def incompleteRow : ArpRow :=
  sampleRow "eth0".toList (by decide) "0x0".toList (by decide) 0

def completeRow : ArpRow :=
  sampleRow "eth1".toList (by decide) "0x2".toList (by decide) 1

theorem lookup_arp_finds_complete :
    Finds #v[10, 0, 0, 2] [completeRow, incompleteRow]
      (lookupArp #v[10, 0, 0, 2]
        (some (showTable "IP address".toList [completeRow, incompleteRow]))) :=
  (lookup_arp_finds_iff (arpText_showTable (by decide) _) _).mpr
    (.inr ⟨completeRow, rfl, by decide⟩)

/-- The entry of `eth0` hides the one of `eth1`. -/
theorem lookup_arp_misses_second :
    let rows := [incompleteRow, completeRow]
    ArpText "IP address".toList rows (showTable "IP address".toList rows) ∧
      Usable #v[10, 0, 0, 2] completeRow ∧
      lookupArp #v[10, 0, 0, 2] (some (showTable "IP address".toList rows)) = none ∧
      ¬ Finds #v[10, 0, 0, 2] rows
        (lookupArp #v[10, 0, 0, 2] (some (showTable "IP address".toList rows))) := by
  intro rows
  have htext : ArpText "IP address".toList rows (showTable "IP address".toList rows) :=
    arpText_showTable (by decide) rows
  have husable : Usable #v[10, 0, 0, 2] completeRow := ⟨rfl, by decide⟩
  have hnone : lookupArp #v[10, 0, 0, 2] (some (showTable "IP address".toList rows)) = none := by
    rw [lookupArp_eq_lookupRows htext]
    decide
  refine ⟨htext, husable, hnone, fun hfinds => ?_⟩
  obtain ⟨row, -, -, hrow⟩ := hfinds.1 ⟨completeRow, by simp [rows], husable⟩
  rw [hnone] at hrow
  cases hrow

/-! ## Resolving the address of the server -/

/-- **The address of the server is resolved** if in one of the six readings of the table the first
entry with the address is usable. -/
theorem resolveServerMac_isSome_iff {header : ℕ → List Char} {rows : ℕ → List ArpRow}
    {text : ℕ → List Char} (h : ∀ attempt, ArpText (header attempt) (rows attempt) (text attempt))
    (server : Vector UInt8 4) :
    (resolveServerMac server fun attempt => some (text attempt)).isSome ↔
      ∃ attempt < 6, FirstUsable server (rows attempt) := by
  simp only [resolveServerMac, List.findSome?_isSome_iff, List.mem_range,
    lookupArp_eq_lookupRows (h _)]
  refine exists_congr fun attempt => and_congr_right fun _ => ?_
  constructor
  · intro hsome
    by_contra hfirst
    rw [lookupRows_eq_none hfirst] at hsome
    cases hsome
  · intro hfirst
    obtain ⟨row, -, -, hlookup⟩ := lookupRows_of_firstUsable hfirst
    rw [hlookup]
    rfl

end RunPerf.Xdp.Arp
