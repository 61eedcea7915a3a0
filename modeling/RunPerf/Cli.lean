import RunPerf.Lib.OptionWords
import RunPerf.Options
import RunPerf.Xdp.Arp

/-!
# The command line

`main` looks for every option on its own, at the first place where its name stands among the
arguments, and takes the word behind it as the value.  Nothing is rejected: an option whose value
is missing or no number is as good as absent.

`Args` is what it reads, and `Args.run` what it then does.  Options that are written in any order
are read back, as long as no value is the name of an option.
-/

namespace RunPerf.Cli

open RunPerf.Lib RunPerf.Lib.Text RunPerf.Cpus RunPerf.Options RunPerf.Xdp

abbrev Word := List Char

/-- The options. -/
inductive Opt
  | udp
  | json
  | xdp
  | bind
  | connect
  | iface
  | cpus
  | numa
  | len
  | duration
  | threads
  | targetPps
  | version
  | versionShort
  | help
  | helpShort
deriving DecidableEq

def Opt.word : Opt → Word
  | .udp => "--udp".toList
  | .json => "--json".toList
  | .xdp => "--xdp".toList
  | .bind => "--bind".toList
  | .connect => "--connect".toList
  | .iface => "--iface".toList
  | .cpus => "--cpus".toList
  | .numa => "--numa".toList
  | .len => "--len".toList
  | .duration => "--duration".toList
  | .threads => "--threads".toList
  | .targetPps => "--target-pps".toList
  | .version => "--version".toList
  | .versionShort => "-V".toList
  | .help => "--help".toList
  | .helpShort => "-h".toList

def flag (args : List Word) (name : Opt) : Option Word := wordAfter args name.word

def has (args : List Word) (name : Opt) : Bool := args.any (· == name.word)

/-- `flag` and `parse` for a `u64` or `usize`. -/
def number (args : List Word) (name : Opt) : Option UInt64 :=
  ((flag args name).bind parseUsize).map UInt64.ofNat

/-- What `main` reads: its first argument and the options. -/
structure Args where
  mode : Word
  udp : Bool
  json : Bool
  xdp : Bool
  bind : Option Word
  connect : Option Word
  iface : Option Word
  cpus : Option Word
  numa : Option Word
  len : Option UInt64
  duration : Option UInt64
  threads : Option UInt64
  targetPps : Option UInt64
deriving DecidableEq

def Args.read (args : List Word) : Args where
  mode := args.headD []
  udp := has args .udp
  json := has args .json
  xdp := has args .xdp
  bind := flag args .bind
  connect := flag args .connect
  iface := flag args .iface
  cpus := flag args .cpus
  numa := flag args .numa
  len := number args .len
  duration := number args .duration
  threads := number args .threads
  targetPps := number args .targetPps

/-! ## Addresses of a generator -/

/-- A number without a sign. -/
def readNumber (bound : ℕ) (text : Word) : Option ℕ :=
  if text = [] then none else text.foldlM (pushDigit 10 bound) 0

/-- A part of an IPv4 address: up to three digits, and no zero in front of others. -/
def readOctet (text : Word) : Option UInt8 :=
  if 3 < text.length ∨ 1 < text.length ∧ text.head? = some '0' then none
  else (readNumber 256 text).map UInt8.ofNat

def readIpv4 (text : Word) : Option (Vector UInt8 4) :=
  match (text.splitOn '.').mapM readOctet with
  | some [a, b, c, d] => some #v[a, b, c, d]
  | _ => none

/-- `str::parse` for a `SocketAddrV4`. -/
def readSocketAddrV4 (text : Word) : Option (Vector UInt8 4 × UInt16) := do
  let (host, port) ← splitOnce ':' text
  let ip ← readIpv4 host
  let port ← readNumber 65536 port
  return (ip, UInt16.ofNat port)

theorem readOctet_toDigits (octet : UInt8) :
    readOctet (Nat.toDigits 10 octet.toNat) = some octet := by
  have hall : ∀ n < 256, readOctet (Nat.toDigits 10 n) = some (UInt8.ofNat n) := by decide +kernel
  rw [hall octet.toNat octet.toNat_lt, UInt8.ofNat_toNat]

theorem readIpv4_dotted (ip : Vector UInt8 4) : readIpv4 (Arp.dotted ip) = some ip := by
  obtain ⟨a, b, c, d, hip⟩ := exists_four ip
  rw [readIpv4, Arp.splitOn_dotted, hip]
  simp only [List.map_cons, List.map_nil, List.mapM_cons, List.mapM_nil, readOctet_toDigits]
  exact congrArg some (Vector.toList_inj.mp hip.symm)

theorem readNumber_toDigits {bound n : ℕ} (h : n < bound) :
    readNumber bound (Nat.toDigits 10 n) = some n := by
  have hvalue : Nat.ofDigitChars 10 (Nat.toDigits 10 n) 0 = n := Nat.ofDigitChars_ten_toDigits
  rw [readNumber, if_neg Nat.toDigits_ne_nil,
    foldlM_pushDigit_ten (fun _ hc => isDigit_of_mem_toDigits hc) (hvalue.symm ▸ h), hvalue]

/-- `SocketAddrV4::to_string`. -/
def showSocketAddrV4 (dst : Vector UInt8 4 × UInt16) : Word :=
  Arp.dotted dst.1 ++ ':' :: Nat.toDigits 10 dst.2.toNat

theorem readSocketAddrV4_show (dst : Vector UInt8 4 × UInt16) :
    readSocketAddrV4 (showSocketAddrV4 dst) = some dst := by
  have hcolon : ':' ∉ Arp.dotted dst.1 :=
    notMem_intercalate (by decide) fun part hpart => by
      obtain ⟨octet, -, rfl⟩ := List.mem_map.mp hpart
      exact notMem_toDigits (by decide) _
  rw [readSocketAddrV4, showSocketAddrV4, splitOnce_append hcolon]
  simp [readIpv4_dotted, readNumber_toDigits dst.2.toNat_lt]

/-! ## What the program does -/

/-- What `main` does with its arguments. -/
inductive Command
  | version
  /-- `usage` behind an error, if there is one; exit code 2. -/
  | usage (error : Option String)
  /-- Exit code 1. -/
  | fail (error : String)
  | tcpServer (bind : Word) (cpus : List ℕ)
  | udpServer (bind : Word) (len : UInt64) (cpus : List ℕ)
  | xdpUdpSink (iface : Word) (duration : UInt64) (cpus : List ℕ)
  | tcpClient (connect : Word) (threads duration : UInt64) (cpus : List ℕ) (json : Bool)
  | udpClient (connect : Word) (threads duration len targetPps : UInt64) (cpus : List ℕ)
      (json : Bool)
  | xdpUdpBlast (iface : Word) (dst : Vector UInt8 4 × UInt16) (len duration targetPps : UInt64)
      (cpus : List ℕ) (json : Bool)

namespace Args

def clientArgs (args : Args) : ClientArgs :=
  ⟨args.udp, args.threads, args.duration, args.len, args.targetPps, args.cpus, args.numa⟩

/-- The arm `"server"` of `main`; `feature` says whether the program was built with `xdp`. -/
def server (host : Options.Host) (feature : Bool) (args : Args) : Command :=
  let cpus := args.clientArgs.cpuList host
  let len := args.len.getD 1400
  let bind := args.bind.getD "0.0.0.0:5201".toList
  if args.xdp then
    if feature then
      match args.iface with
      | some iface => .xdpUdpSink iface (args.duration.getD 3600) cpus
      | none => .usage (some "error: --xdp sink needs --iface <nic>")
    else .fail "error: --xdp sink requires a build with --features xdp"
  else if args.udp then
    match oomGuard host.memAvailableKb (serverPlanned len) with
    | .ok () => .udpServer bind len cpus
    | .error message => .fail message
  else .tcpServer bind cpus

/-- The arm `"client"` of `main`. -/
def client (host : Options.Host) (args : Args) : Command :=
  let cpus := args.clientArgs.cpuList host
  let len := args.len.getD 1400
  let duration := args.duration.getD 10
  let threads := args.clientArgs.threadCount host
  let targetPps := args.targetPps.getD 0
  match args.connect with
  | none => .usage (some "error: client needs --connect HOST:PORT")
  | some connect =>
      if args.xdp then
        match args.iface with
        | none => .usage (some "error: --xdp needs --iface <nic>")
        | some iface =>
            match readSocketAddrV4 connect with
            | none => .fail "error: --xdp --connect needs IPv4 HOST:PORT"
            | some dst => .xdpUdpBlast iface dst len duration targetPps cpus args.json
      else
        match oomGuard host.memAvailableKb (args.clientArgs.planned host) with
        | .error message => .fail message
        | .ok () =>
            if args.udp then .udpClient connect threads duration len targetPps cpus args.json
            else .tcpClient connect threads duration cpus args.json

def run (host : Options.Host) (feature : Bool) (args : Args) : Command :=
  if args.mode = "server".toList then args.server host feature
  else if args.mode = "client".toList then args.client host
  else .usage none

end Args

def main (host : Options.Host) (feature : Bool) (args : List Word) : Command :=
  if args = [] then .usage none
  else if has args .version ∨ has args .versionShort then .version
  else if has args .help ∨ has args .helpShort then .usage none
  else (Args.read args).run host feature

/-! ## Options written down -/

def Opt.all : List Opt :=
  [.udp, .json, .xdp, .bind, .connect, .iface, .cpus, .numa, .len, .duration, .threads, .targetPps,
    .version, .versionShort, .help, .helpShort]

theorem Opt.mem_all (name : Opt) : name ∈ Opt.all := by
  cases name <;> decide

theorem Opt.word_injective : Function.Injective Opt.word := by
  intro name other heq
  have hdistinct : ∀ name ∈ Opt.all, ∀ other ∈ Opt.all, name.word = other.word → name = other := by
    decide
  exact hdistinct name name.mem_all other other.mem_all heq

/-- Every option starts with a dash. -/
theorem Opt.head?_word (name : Opt) : name.word.head? = some '-' := by
  cases name <;> rfl

def optionWords : List Word := Opt.all.map Opt.word

theorem Opt.word_mem (name : Opt) : name.word ∈ optionWords :=
  List.mem_map_of_mem name.mem_all

namespace Args

/-- How an option is to be written: not at all, alone or with a value. -/
def value (args : Args) : Opt → Option (Option Word)
  | .udp => if args.udp then some none else none
  | .json => if args.json then some none else none
  | .xdp => if args.xdp then some none else none
  | .bind => args.bind.map some
  | .connect => args.connect.map some
  | .iface => args.iface.map some
  | .cpus => args.cpus.map some
  | .numa => args.numa.map some
  | .len => args.len.map fun n => some (Nat.toDigits 10 n.toNat)
  | .duration => args.duration.map fun n => some (Nat.toDigits 10 n.toNat)
  | .threads => args.threads.map fun n => some (Nat.toDigits 10 n.toNat)
  | .targetPps => args.targetPps.map fun n => some (Nat.toDigits 10 n.toNat)
  | .version => none
  | .versionShort => none
  | .help => none
  | .helpShort => none

def settings (args : Args) : List (Setting Word) :=
  Opt.all.filterMap fun name => (args.value name).map fun value => ⟨name.word, value⟩

/-- The mode and the texts are none of the options. -/
structure WellFormed (args : Args) : Prop where
  mode : args.mode ∉ optionWords
  texts : ∀ text ∈ [args.bind, args.connect, args.iface, args.cpus, args.numa],
    ∀ word ∈ text, word ∉ optionWords

theorem mem_settings {args : Args} {setting : Setting Word} :
    setting ∈ args.settings ↔
      ∃ name value, args.value name = some value ∧ setting = ⟨name.word, value⟩ := by
  simp only [settings, List.mem_filterMap, Option.map_eq_some_iff]
  constructor
  · rintro ⟨name, -, value, hvalue, rfl⟩
    exact ⟨name, value, hvalue, rfl⟩
  · rintro ⟨name, value, hvalue, rfl⟩
    exact ⟨name, name.mem_all, value, hvalue, rfl⟩

theorem mem_keys_iff {args : Args} {name : Opt} :
    name.word ∈ args.settings.map Setting.key ↔ (args.value name).isSome := by
  rw [List.mem_map]
  constructor
  · rintro ⟨setting, hmem, hkey⟩
    obtain ⟨other, value, hvalue, rfl⟩ := mem_settings.mp hmem
    rw [← Opt.word_injective hkey, hvalue]
    rfl
  · intro hsome
    obtain ⟨value, hvalue⟩ := Option.isSome_iff_exists.mp hsome
    exact ⟨_, mem_settings.mpr ⟨name, value, hvalue, rfl⟩, rfl⟩

theorem nodup_keys (args : Args) : (args.settings.map Setting.key).Nodup := by
  rw [settings, List.map_filterMap]
  refine List.Nodup.filterMap ?_ (by decide)
  intro name other word hname hother
  simp only [Option.mem_def, Option.map_map, Option.map_eq_some_iff] at hname hother
  obtain ⟨value, -, rfl⟩ := hname
  obtain ⟨value', -, heq⟩ := hother
  exact (Opt.word_injective heq).symm

theorem digits_notMem_optionWords (n : ℕ) : Nat.toDigits 10 n ∉ optionWords := by
  intro hmem
  obtain ⟨name, -, heq⟩ := List.mem_map.mp hmem
  have hdash : '-' ∈ Nat.toDigits 10 n := by
    rw [← heq]
    exact List.mem_of_mem_head? name.head?_word
  exact notMem_toDigits (by decide) n hdash

theorem WellFormed.clear {args : Args} (h : args.WellFormed) :
    Clear optionWords args.settings := by
  intro setting hmem word hword
  obtain ⟨name, value, hvalue, rfl⟩ := mem_settings.mp hmem
  have hnumber {number : Option UInt64} (hdigits :
      (number.map fun n => some (Nat.toDigits 10 n.toNat)) = some value) :
      word ∉ optionWords := by
    obtain ⟨n, -, rfl⟩ := Option.map_eq_some_iff.mp hdigits
    obtain rfl : Nat.toDigits 10 n.toNat = word := by simpa using hword
    exact digits_notMem_optionWords _
  have htext {text : Option Word} (hlist :
      text ∈ [args.bind, args.connect, args.iface, args.cpus, args.numa])
      (hsome : text.map some = some value) : word ∉ optionWords := by
    obtain ⟨content, hcontent, rfl⟩ := Option.map_eq_some_iff.mp hsome
    obtain rfl : content = word := by simpa using hword
    exact h.texts text hlist content hcontent
  have hswitch {on : Bool} (hon : (if on then some none else none) = some value) :
      word ∉ optionWords := by
    cases on with
    | false => cases hon
    | true =>
        obtain rfl := Option.some.inj hon
        cases hword
  cases name with
  | udp => exact hswitch hvalue
  | json => exact hswitch hvalue
  | xdp => exact hswitch hvalue
  | bind => exact htext (by simp) hvalue
  | connect => exact htext (by simp) hvalue
  | iface => exact htext (by simp) hvalue
  | cpus => exact htext (by simp) hvalue
  | numa => exact htext (by simp) hvalue
  | len => exact hnumber hvalue
  | duration => exact hnumber hvalue
  | threads => exact hnumber hvalue
  | targetPps => exact hnumber hvalue
  | version => cases hvalue
  | versionShort => cases hvalue
  | help => cases hvalue
  | helpShort => cases hvalue

section Reading

variable {args : Args} {settings : List (Setting Word)}

theorem WellFormed.clear_perm (h : args.WellFormed) (hperm : settings.Perm args.settings) :
    Clear optionWords settings :=
  fun setting hmem => h.clear setting (hperm.mem_iff.mp hmem)

theorem has_eq (h : args.WellFormed) (hperm : settings.Perm args.settings) (name : Opt) :
    has (args.mode :: settingWords settings) name = (args.value name).isSome := by
  have hmode : args.mode ≠ name.word := fun heq => h.mode (heq ▸ name.word_mem)
  rw [Bool.eq_iff_iff, ← mem_keys_iff, ← (hperm.map Setting.key).mem_iff,
    ← (h.clear_perm hperm).mem_settingWords_iff name.word_mem]
  simp [has, hmode]

theorem flag_eq (h : args.WellFormed) (hperm : settings.Perm args.settings) (name : Opt)
    (hvalue : args.value name ≠ some none) :
    flag (args.mode :: settingWords settings) name = (args.value name).join := by
  have hmode : args.mode ≠ name.word := fun heq => h.mode (heq ▸ name.word_mem)
  have hclear := h.clear_perm hperm
  rw [flag, wordAfter_cons_of_ne hmode]
  match hname : args.value name with
  | none =>
      refine hclear.wordAfter_eq_none name.word_mem ?_
      rw [(hperm.map Setting.key).mem_iff, mem_keys_iff, hname]
      exact Bool.false_ne_true
  | some none => exact absurd hname hvalue
  | some (some word) =>
      have hmem : ⟨name.word, some word⟩ ∈ settings :=
        hperm.mem_iff.mpr (mem_settings.mpr ⟨name, some word, hname, rfl⟩)
      have hnodup := (hperm.map Setting.key).nodup_iff.mpr args.nodup_keys
      exact hclear.wordAfter_settingWords hnodup hmem name.word_mem rfl

theorem flag_text (h : args.WellFormed) (hperm : settings.Perm args.settings) {name : Opt}
    {text : Option Word} (hvalue : args.value name = text.map some) :
    flag (args.mode :: settingWords settings) name = text := by
  cases text with
  | none => rw [flag_eq h hperm name (by simp [hvalue]), hvalue, Option.map_none, Option.join_none]
  | some word =>
      rw [flag_eq h hperm name (by simp [hvalue]), hvalue, Option.map_some, Option.join_some]

theorem number_eq (h : args.WellFormed) (hperm : settings.Perm args.settings) {name : Opt}
    {n : Option UInt64}
    (hvalue : args.value name = n.map fun n => some (Nat.toDigits 10 n.toNat)) :
    number (args.mode :: settingWords settings) name = n := by
  have hflag : flag (args.mode :: settingWords settings) name =
      n.map fun n => Nat.toDigits 10 n.toNat := by
    refine flag_text h hperm ?_
    rw [hvalue, Option.map_map]
    rfl
  cases n with
  | none => rw [number, hflag, Option.map_none, Option.bind_none, Option.map_none]
  | some n =>
      rw [number, hflag, Option.map_some, Option.bind_some, parseUsize_toDigits n.toNat_lt,
        Option.map_some, UInt64.ofNat_toNat]

theorem isSome_switch (on : Bool) :
    (if on then some (none : Option Word) else none).isSome = on := by
  cases on <;> rfl

/-- **The options are read back in any order.** -/
theorem read_eq (h : args.WellFormed) (hperm : settings.Perm args.settings) :
    Args.read (args.mode :: settingWords settings) = args := by
  have hbind : flag (args.mode :: settingWords settings) .bind = args.bind :=
    flag_text h hperm rfl
  have hconnect : flag (args.mode :: settingWords settings) .connect = args.connect :=
    flag_text h hperm rfl
  have hiface : flag (args.mode :: settingWords settings) .iface = args.iface :=
    flag_text h hperm rfl
  have hcpus : flag (args.mode :: settingWords settings) .cpus = args.cpus :=
    flag_text h hperm rfl
  have hnuma : flag (args.mode :: settingWords settings) .numa = args.numa :=
    flag_text h hperm rfl
  have hlen : number (args.mode :: settingWords settings) .len = args.len :=
    number_eq h hperm rfl
  have hduration : number (args.mode :: settingWords settings) .duration = args.duration :=
    number_eq h hperm rfl
  have hthreads : number (args.mode :: settingWords settings) .threads = args.threads :=
    number_eq h hperm rfl
  have htarget : number (args.mode :: settingWords settings) .targetPps = args.targetPps :=
    number_eq h hperm rfl
  simp only [Args.read, List.headD_cons, has_eq h hperm, hbind, hconnect, hiface, hcpus, hnuma,
    hlen, hduration, hthreads, htarget]
  simp only [value, isSome_switch]

end Reading

end Args

/-- **`main` does what its options say, in whatever order they are written.**  Every record of
options whose texts are not themselves names of options is read back from its words, so that the
order has no influence on what the program does. -/
theorem main_reads_options (host : Options.Host) (feature : Bool) {args : Args}
    (h : args.WellFormed) {settings : List (Setting Word)} (hperm : settings.Perm args.settings) :
    main host feature (args.mode :: settingWords settings) = args.run host feature := by
  have hnone (name : Opt) (hvalue : args.value name = none) :
      has (args.mode :: settingWords settings) name = false := by
    rw [Args.has_eq h hperm, hvalue]
    rfl
  rw [main, if_neg (List.cons_ne_nil _ _), hnone .version rfl, hnone .versionShort rfl,
    hnone .help rfl, hnone .helpShort rfl, Args.read_eq h hperm]
  simp

/-- A TCP server for the first two CPUs. -/
def loopbackServer : Args where
  mode := "server".toList
  udp := false
  json := false
  xdp := false
  bind := some "127.0.0.1:53112".toList
  connect := none
  iface := none
  cpus := some "0-1".toList
  numa := none
  len := none
  duration := none
  threads := none
  targetPps := none

theorem main_reads_options_server :
    main sampleHost false ["server".toList, "--cpus".toList, "0-1".toList, "--bind".toList,
      "127.0.0.1:53112".toList] = .tcpServer "127.0.0.1:53112".toList [0, 1] := by
  have hform : loopbackServer.WellFormed := ⟨by decide, by decide⟩
  exact main_reads_options sampleHost false hform (List.reverse_perm loopbackServer.settings)

end RunPerf.Cli
