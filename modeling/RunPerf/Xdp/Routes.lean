import RunPerf.Lib.LongestPrefix
import RunPerf.Lib.Text

/-!
# The interface of a route

`iface_for_ipv4` reads `/proc/net/route`, the kernel's routing table, and takes the interface of
the best route to an address.  The kernel writes the destinations and the masks of the routes as
it finds them in memory, so that on a little-endian host their bytes are swapped; the function
swaps those of the address too, and compares them under the mask.

On a table with well-formed lines this is a longest-prefix match on the routes
(`ifaceForIpv4_eq_longestMatch`), and of several routes of the greatest length the first one wins.

`iface_for_server` looks for a subnet with the server in it before it asks the table, and takes
the default interface for IPv6.
-/

namespace RunPerf.Xdp.Routes

open RunPerf.Lib RunPerf.Lib.Text

/-- `u32::from` of an address. -/
def ipv4U32 (ip : Vector UInt8 4) : UInt32 :=
  .ofBitVec (ip[0].toBitVec ++ ip[1].toBitVec ++ ip[2].toBitVec ++ ip[3].toBitVec)

/-- `u32::swap_bytes`. -/
def swapBytes (x : UInt32) : UInt32 := .ofBitVec (Lib.swapBytes x.toBitVec)

/-- `u32::count_ones`. -/
def countOnes (x : UInt32) : UInt32 := .ofBitVec x.toBitVec.cpop

/-- `u32::from_str_radix` with hexadecimal digits. -/
def parseHex (text : List Char) : Option UInt32 :=
  (parseUnsigned 16 (2 ^ 32) text).map UInt32.ofNat

/-- What a line says about a route. -/
structure RouteLine where
  iface : List Char
  dest : UInt32
  mask : UInt32

/-- The columns that are read: the first, the second and the eighth. -/
def readLine (cols : List (List Char)) : Option RouteLine := do
  let iface ← cols[0]?
  let dest ← parseHex (← cols[1]?)
  let mask ← parseHex (← cols[7]?)
  return ⟨iface, dest, mask⟩

/-- The best route so far, with its length, behind one more line. -/
def better (target : UInt32) (best : Option (UInt32 × List Char)) (line : RouteLine) :
    Option (UInt32 × List Char) :=
  if target &&& line.mask = line.dest &&& line.mask then
    let prefixLen := countOnes line.mask
    match best with
    | none => some (prefixLen, line.iface)
    | some (len, iface) =>
        if prefixLen > len then some (prefixLen, line.iface) else some (len, iface)
  else best

/-- `iface_for_ipv4`, where `content` is the text of `/proc/net/route`, if it can be read.  A line
that cannot be read ends the function. -/
def ifaceForIpv4 (target : Vector UInt8 4) (content : Option (List Char)) :
    Option (List Char) := do
  let content ← content
  let target := swapBytes (ipv4U32 target)
  let best ← (((lines content).drop 1).map splitWhitespace).foldlM
    (fun best cols => (readLine cols).map (better target best)) none
  best.map Prod.snd

/-- The loop of `default_interface`: only the text of the destination is compared. -/
def firstDefault : List (List (List Char)) → Option (List Char)
  | [] => none
  | (iface :: dest :: _) :: rest =>
      if dest = "00000000".toList then some iface else firstDefault rest
  | _ :: _ => none

/-- `default_interface`. -/
def defaultInterface (content : Option (List Char)) : Option (List Char) :=
  content.bind fun content => firstDefault (((lines content).drop 1).map splitWhitespace)

/-- An entry of `getifaddrs`: its name, if it is UTF-8, and its address and mask, if it has both
and they are IPv4. -/
structure IfAddr where
  name : Option (List Char)
  inet : Option (UInt32 × UInt32)

/-- The name of an entry whose subnet the server is in.  Entries with an empty mask and the
loopback interface are passed over. -/
def IfAddr.matching (server : UInt32) (ifa : IfAddr) : Option (List Char) := do
  let (addr, mask) ← ifa.inet
  if mask = 0 then none
  else
    let name ← ifa.name
    if name = "lo".toList then none
    else if addr &&& mask = server &&& mask then some name else none

/-- `getifaddrs_iface_for_subnet`, where `ifaddrs` is what `getifaddrs` gives. -/
def getifaddrsIfaceForSubnet (server : Vector UInt8 4) (ifaddrs : Option (List IfAddr)) :
    Option (List Char) :=
  ifaddrs.bind fun list => list.findSome? (IfAddr.matching (ipv4U32 server))

inductive IpAddr
  | v4 (ip : Vector UInt8 4)
  | v6 (segments : Vector UInt16 8)

/-- `IpAddr::is_loopback`. -/
def IpAddr.isLoopback : IpAddr → Bool
  | .v4 ip => ip[0] == 127
  | .v6 segments => segments == #v[0, 0, 0, 0, 0, 0, 0, 1]

/-- `iface_for_server`. -/
def ifaceForServer (server : IpAddr) (ifaddrs : Option (List IfAddr))
    (content : Option (List Char)) : Option (List Char) :=
  if server.isLoopback then some "lo".toList
  else
    match server with
    | .v4 v4 => (getifaddrsIfaceForSubnet v4 ifaddrs).or (ifaceForIpv4 v4 content)
    | .v6 _ => defaultInterface content

/-! ## Routes and their lines -/

structure Route where
  iface : List Char
  network : Vector UInt8 4
  len : ℕ
  iface_word : Word iface
  len_le : len ≤ 32

/-- The first bits of the addresses that a route is for. -/
def Route.dest (route : Route) : Prefix 32 :=
  ⟨(ipv4U32 route.network).toBitVec, route.len, route.len_le⟩

/-- What the line of a route says. -/
def Route.line (route : Route) : RouteLine where
  iface := route.iface
  dest := .ofBitVec (Lib.swapBytes route.dest.network)
  mask := .ofBitVec (Lib.swapBytes route.dest.mask)

/-- A line that shows a route, with anything in the columns that are not read. -/
def RouteText (route : Route) (line : List Char) : Prop :=
  ∃ dest mask between more, HexNumeral route.line.dest.toNat dest ∧
    HexNumeral route.line.mask.toNat mask ∧ between.length = 5 ∧
    (∀ word ∈ between ++ more, Word word) ∧
    Columns (route.iface :: dest :: (between ++ mask :: more)) line

/-- A table with a header and these routes. -/
def RouteTable (header : List Char) (routes : List Route) (text : List Char) : Prop :=
  ∃ list, List.Forall₂ RouteText routes list ∧ Lined (header :: list) text

theorem parseHex_of_hexNumeral {x : UInt32} {text : List Char} (h : HexNumeral x.toNat text) :
    parseHex text = some x := by
  rw [parseHex, parseUnsigned_of_hexNumeral x.toNat_lt h, Option.map_some, UInt32.ofNat_toNat]

theorem Route.forall_word (route : Route) {dest mask : List Char} {between more : List (List Char)}
    (hdest : Word dest) (hmask : Word mask) (hwords : ∀ word ∈ between ++ more, Word word) :
    ∀ word ∈ route.iface :: dest :: (between ++ mask :: more), Word word := by
  obtain ⟨hbetween, hmore⟩ := List.forall_mem_append.mp hwords
  refine List.forall_mem_cons.mpr ⟨route.iface_word, List.forall_mem_cons.mpr ⟨hdest, ?_⟩⟩
  exact List.forall_mem_append.mpr ⟨hbetween, List.forall_mem_cons.mpr ⟨hmask, hmore⟩⟩

theorem readLine_of_routeText {route : Route} {line : List Char} (h : RouteText route line) :
    readLine (splitWhitespace line) = some route.line := by
  obtain ⟨dest, mask, between, more, hdest, hmask, hlength, hwords, hcolumns⟩ := h
  have hcols := splitWhitespace_of_columns
    (route.forall_word hdest.word hmask.word hwords) hcolumns
  have heighth : (route.iface :: dest :: (between ++ mask :: more))[7]? = some mask := by
    rw [List.getElem?_cons_succ, List.getElem?_cons_succ,
      List.getElem?_append_right (by omega), hlength]
    rfl
  rw [hcols, readLine, heighth]
  simp only [List.getElem?_cons_zero, List.getElem?_cons_succ, Option.bind_eq_bind,
    Option.bind_some, parseHex_of_hexNumeral hdest, parseHex_of_hexNumeral hmask]
  rfl

/-! ## The best route so far -/

/-- A line matches under its mask exactly if its route agrees with the address. -/
theorem masked_iff (target : Vector UInt8 4) (route : Route) :
    swapBytes (ipv4U32 target) &&& route.line.mask = route.line.dest &&& route.line.mask ↔
      route.dest.Agrees (ipv4U32 target).toBitVec := by
  rw [Prefix.agrees_iff_masked, ← UInt32.toBitVec_inj, UInt32.toBitVec_and, UInt32.toBitVec_and]
  show Lib.swapBytes _ &&& Lib.swapBytes _ = Lib.swapBytes _ &&& Lib.swapBytes _ ↔ _
  rw [swapBytes_and, swapBytes_and, swapBytes_inj]

theorem toNat_countOnes_mask (route : Route) : (countOnes route.line.mask).toNat = route.len := by
  show (Lib.swapBytes route.dest.mask).cpop.toNat = _
  rw [toNat_cpop_swapBytes, Prefix.toNat_cpop_mask]
  rfl

/-- What the loop keeps of a route. -/
def Route.kept (route : Route) : UInt32 × List Char := (countOnes route.line.mask, route.iface)

theorem better_kept (target : Vector UInt8 4) (best : Option Route) (route : Route) :
    better (swapBytes (ipv4U32 target)) (best.map Route.kept) route.line =
      (keepLonger Route.dest (ipv4U32 target).toBitVec best route).map Route.kept := by
  unfold better keepLonger
  by_cases hagrees : route.dest.Agrees (ipv4U32 target).toBitVec
  · rw [if_pos ((masked_iff target route).mpr hagrees), if_pos hagrees]
    cases best with
    | none => rfl
    | some best =>
        have hlonger : countOnes route.line.mask > countOnes best.line.mask ↔
            best.dest.len < route.dest.len := by
          rw [gt_iff_lt, UInt32.lt_iff_toNat_lt, toNat_countOnes_mask, toNat_countOnes_mask]
          rfl
        simp only [Option.map_some, Route.kept, hlonger]
        split <;> rfl
  · rw [if_neg fun hmasked => hagrees ((masked_iff target route).mp hmasked), if_neg hagrees]

/-- **The loop keeps the longest match of the routes so far.** -/
theorem foldl_better (target : Vector UInt8 4) (routes : List Route) :
    routes.foldl (fun best route => better (swapBytes (ipv4U32 target)) best route.line) none =
      (longestMatch Route.dest (ipv4U32 target).toBitVec routes).map Route.kept := by
  induction routes using List.reverseRecOn with
  | nil => rfl
  | append_singleton routes route ih =>
      rw [List.foldl_append, ih, longestMatch_snoc, List.foldl_cons, List.foldl_nil]
      exact better_kept target _ route

/-- No line ends the loop early. -/
theorem foldlM_lines (target : UInt32) {routes : List Route} {list : List (List (List Char))}
    (h : List.Forall₂ (fun route cols => readLine cols = some route.line) routes list)
    (best : Option (UInt32 × List Char)) :
    list.foldlM (fun best cols => (readLine cols).map (better target best)) best =
      some (routes.foldl (fun best route => better target best route.line) best) := by
  induction h generalizing best with
  | nil => rfl
  | cons hread hrest ih =>
      rw [List.foldlM_cons, hread, List.foldl_cons]
      exact ih _

/-- **`iface_for_ipv4` on the text of a table is a longest-prefix match on its routes.** -/
theorem ifaceForIpv4_eq_longestMatch {header : List Char} {routes : List Route}
    {text : List Char} (h : RouteTable header routes text) (target : Vector UInt8 4) :
    ifaceForIpv4 target (some text) =
      (longestMatch Route.dest (ipv4U32 target).toBitVec routes).map Route.iface := by
  obtain ⟨list, hlist, htext⟩ := h
  have hread : List.Forall₂ (fun route cols => readLine cols = some (Route.line route)) routes
      (((lines text).drop 1).map splitWhitespace) :=
    forall₂_columns (fun _ _ hroute => readLine_of_routeText hroute) hlist htext
  simp only [ifaceForIpv4, Option.bind_eq_bind, Option.bind_some, foldlM_lines _ hread,
    foldl_better, Option.map_map]
  rfl

/-! ## The format of the kernel -/

/-- The columns of a route: eight digits for the destination and the mask, zeros in the columns
that are not read. -/
def Route.columns (route : Route) : List (List Char) :=
  route.iface :: showHex 8 route.line.dest.toNat ::
    (List.replicate 5 ['0'] ++ showHex 8 route.line.mask.toNat :: List.replicate 3 ['0'])

/-- The line of a route, with single blanks. -/
def showRoute (route : Route) : List Char := [' '].intercalate route.columns

theorem hexNumeral_showHex_eight (x : UInt32) : HexNumeral x.toNat (showHex 8 x.toNat) :=
  hexNumeral_showHex (by decide) x.toNat_lt

theorem forall_word_zeros :
    ∀ word ∈ List.replicate 5 ['0'] ++ List.replicate 3 ['0'], Word word := by
  rw [← List.replicate_add]
  intro word hword
  rw [List.eq_of_mem_replicate hword]
  decide

theorem routeText_showRoute (route : Route) : RouteText route (showRoute route) :=
  ⟨_, _, List.replicate 5 ['0'], List.replicate 3 ['0'], hexNumeral_showHex_eight _,
    hexNumeral_showHex_eight _, rfl, forall_word_zeros, columns_intercalate _⟩

theorem Route.word_of_mem_columns (route : Route) : ∀ word ∈ route.columns, Word word :=
  route.forall_word (hexNumeral_showHex_eight _).word (hexNumeral_showHex_eight _).word
    forall_word_zeros

/-- The text of a table. -/
def showRoutes (header : List Char) (routes : List Route) : List Char :=
  (header :: routes.map showRoute).flatMap (· ++ ['\n'])

theorem routeTable_showRoutes {header : List Char} (h : '\n' ∉ header) (routes : List Route) :
    RouteTable header routes (showRoutes header routes) :=
  exists_table routeText_showRoute
    (fun route => newline_notMem_intercalate route.word_of_mem_columns) h routes

/-! ## The interface for an address -/

/-- **`iface_for_ipv4` is longest-prefix match**: it returns the interface of the first route of
the greatest length that agrees with the address, and nothing exactly if no route agrees. -/
theorem iface_for_ipv4_longest_match {header : List Char} {routes : List Route}
    {text : List Char} (h : RouteTable header routes text) (target : Vector UInt8 4) :
    ((∃ route ∈ routes, route.dest.Agrees (ipv4U32 target).toBitVec) →
      ∃ before route after, routes = before ++ route :: after ∧
        FirstLongest Route.dest (ipv4U32 target).toBitVec before route after ∧
        ifaceForIpv4 target (some text) = some route.iface) ∧
    (ifaceForIpv4 target (some text) = none ↔
      ∀ route ∈ routes, ¬ route.dest.Agrees (ipv4U32 target).toBitVec) := by
  rw [ifaceForIpv4_eq_longestMatch h, Option.map_eq_none_iff, longestMatch_eq_none_iff]
  refine ⟨?_, Iff.rfl⟩
  rintro ⟨agreeing, hmem, hagrees⟩
  cases hbest : longestMatch Route.dest (ipv4U32 target).toBitVec routes with
  | none => exact absurd hagrees (longestMatch_eq_none_iff.mp hbest agreeing hmem)
  | some route =>
      obtain ⟨before, after, hsplit, hfirst⟩ := firstLongest_of_longestMatch hbest
      exact ⟨before, route, after, hsplit, hfirst, rfl⟩

/-- The addresses of `10.0.0.0/8` and a default route. -/
def sampleRoutes : List Route :=
  [⟨"enp1s0".toList, #v[0, 0, 0, 0], 0, by decide, by decide⟩,
    ⟨"enp2s0".toList, #v[10, 0, 0, 0], 8, by decide, by decide⟩,
    ⟨"enp3s0".toList, #v[10, 0, 0, 0], 8, by decide, by decide⟩]

example : (longestMatch Route.dest (ipv4U32 #v[10, 0, 0, 2]).toBitVec sampleRoutes).map
    Route.iface = some "enp2s0".toList := by decide

theorem iface_for_ipv4_three_routes :
    RouteTable "Iface".toList sampleRoutes (showRoutes "Iface".toList sampleRoutes) ∧
      ∃ before route after, sampleRoutes = before ++ route :: after ∧
        FirstLongest Route.dest (ipv4U32 #v[10, 0, 0, 2]).toBitVec before route after ∧
        ifaceForIpv4 #v[10, 0, 0, 2] (some (showRoutes "Iface".toList sampleRoutes)) =
          some route.iface := by
  have htable := routeTable_showRoutes (show '\n' ∉ "Iface".toList by decide) sampleRoutes
  exact ⟨htable, (iface_for_ipv4_longest_match htable #v[10, 0, 0, 2]).1
    ⟨_, List.mem_cons_self, by decide⟩⟩

/-! ## The interface for a server -/

theorem showHex_eight_inj {x y : UInt32} (h : showHex 8 x.toNat = showHex 8 y.toNat) : x = y := by
  have hx := parseHex_of_hexNumeral (hexNumeral_showHex_eight x)
  rw [h, parseHex_of_hexNumeral (hexNumeral_showHex_eight y)] at hx
  exact (Option.some.inj hx).symm

/-- Only the destination zero is written as eight zeros. -/
theorem showHex_dest_iff (route : Route) :
    showHex 8 route.line.dest.toNat = "00000000".toList ↔ ipv4U32 route.network = 0 := by
  have hzero : showHex 8 (0 : UInt32).toNat = "00000000".toList := by decide
  have hswap : Lib.swapBytes 0 = 0 := by decide
  rw [← hzero]
  constructor
  · intro h
    have hdest := congrArg UInt32.toBitVec (showHex_eight_inj h)
    change Lib.swapBytes (ipv4U32 route.network).toBitVec = 0 at hdest
    rw [← hswap, swapBytes_inj] at hdest
    exact UInt32.toBitVec_inj.mp hdest
  · intro h
    have hdest : route.line.dest = 0 := by
      show UInt32.ofBitVec (Lib.swapBytes (ipv4U32 route.network).toBitVec) = 0
      rw [h]
      exact congrArg UInt32.ofBitVec hswap
    rw [hdest]

theorem firstDefault_columns (routes : List Route) :
    firstDefault (routes.map Route.columns) =
      (routes.find? fun route => ipv4U32 route.network = 0).map Route.iface := by
  induction routes with
  | nil => rfl
  | cons route rest ih =>
      rw [List.map_cons, Route.columns, firstDefault, ih]
      by_cases hzero : ipv4U32 route.network = 0
      · rw [if_pos ((showHex_dest_iff route).mpr hzero), List.find?_cons_of_pos (by simpa)]
        rfl
      · rw [if_neg fun hdest => hzero ((showHex_dest_iff route).mp hdest),
          List.find?_cons_of_neg (by simpa)]

/-- **`default_interface` on the text of a table**: the first route to the network zero, whatever
its length. -/
theorem defaultInterface_showRoutes {header : List Char} (h : '\n' ∉ header)
    (routes : List Route) :
    defaultInterface (some (showRoutes header routes)) =
      (routes.find? fun route => ipv4U32 route.network = 0).map Route.iface := by
  obtain ⟨list, hlist, hlined⟩ := exists_table (fun _ : Route => rfl)
    (fun route => newline_notMem_intercalate route.word_of_mem_columns) h routes
  have hread : List.Forall₂ (fun route line => Route.columns route = line) routes
      (((lines (showRoutes header routes)).drop 1).map splitWhitespace) := by
    refine forall₂_columns (fun route line hline => ?_) hlist hlined
    rw [← hline]
    exact (splitWhitespace_of_columns route.word_of_mem_columns (columns_intercalate _)).symm
  have hcolumns : routes.map Route.columns =
      ((lines (showRoutes header routes)).drop 1).map splitWhitespace :=
    List.forall₂_eq_eq_eq ▸ List.forall₂_map_left_iff.mpr hread
  rw [defaultInterface, Option.bind_some, ← hcolumns, firstDefault_columns]

/-- **With a default route there is an interface for every IPv4 server.** -/
theorem ifaceForServer_isSome {header : List Char} {routes : List Route} {text : List Char}
    (h : RouteTable header routes text) {route : Route} (hmem : route ∈ routes)
    (hdefault : route.len = 0) (server : Vector UInt8 4) (ifaddrs : Option (List IfAddr)) :
    (ifaceForServer (.v4 server) ifaddrs (some text)).isSome := by
  have hagrees : route.dest.Agrees (ipv4U32 server).toBitVec :=
    route.dest.agrees_of_len_eq_zero hdefault _
  have hroute : (ifaceForIpv4 server (some text)).isSome := by
    rw [ifaceForIpv4_eq_longestMatch h, Option.isSome_map, Option.isSome_iff_ne_none]
    exact fun hnone => longestMatch_eq_none_iff.mp hnone route hmem hagrees
  unfold ifaceForServer
  split
  · rfl
  · simp [hroute]

end RunPerf.Xdp.Routes
