import RunPerf.Lib.Handles

/-!
# Setting up the sockets

`create_xsk_socket` opens a descriptor, maps the area of the frames and the four rings, and
makes a dozen other system calls, any of which may fail.  `xdp_udp_sink` and `xdp_udp_blast` call
it for one queue after the other, in zero-copy mode first and then in copy mode.

A failed call does not always release what it acquired: the mappings of the rings have no
destructor, and two of the early exits do not clean up at all.  `Call.leaked` says what stays
behind, depending on the system call that failed.  Nothing is ever released twice.
-/

namespace RunPerf.Xdp.Setup

open RunPerf.Lib

inductive Kind
  | descriptor
  | mapping
deriving DecidableEq

/-- The system calls of `create_xsk_socket` that may fail, in their order. -/
inductive Call
  | socket
  | umemMmap
  | umemReg
  | umemFillRing
  | umemCompletionRing
  | umemOffsets
  | fillMmap
  | compMmap
  | rxRing
  | txRing
  | rxTxOffsets
  | rxMmap
  | txMmap
  | bind
deriving DecidableEq

/-- The answers of the system to one call of `create_xsk_socket`: the text of the error, if the
call fails. -/
abbrev Answers := Call → Option String

abbrev Fallible := Acquiring Kind String

/-- The memory of a socket: the area of the frames and the mappings of the two address rings. -/
structure Umem where
  area : Handle Kind
  fill : Handle Kind
  comp : Handle Kind

structure XskSocket where
  fd : Handle Kind
  umem : Umem
  rx : Handle Kind
  tx : Handle Kind

/-- A system call that acquires nothing. -/
def check (answers : Answers) (call : Call) (text : String) : Fallible Unit :=
  match answers call with
  | none => pure ()
  | some e => throw (text ++ ": " ++ e)

/-- A system call that acquires a handle. -/
def request (answers : Answers) (call : Call) (text : String) (kind : Kind) :
    Fallible (Handle Kind) := do
  check answers call text
  Handles.acquire kind

/-- `Drop for Umem`.  The rings have no destructor. -/
def Umem.drop (umem : Umem) : Handles Kind → Handles Kind := Handles.release umem.area

/-- `Umem::new`. -/
def Umem.new (answers : Answers) : Fallible Umem := do
  let area ← request answers .umemMmap "UMEM mmap" .mapping
  Handles.onError (.release area) (check answers .umemReg "XDP_UMEM_REG")
  Handles.onError (.release area) (check answers .umemFillRing "setsockopt ring (5)")
  Handles.onError (.release area) (check answers .umemCompletionRing "setsockopt ring (6)")
  check answers .umemOffsets "XDP_MMAP_OFFSETS"
  let fill ← Handles.onError (.release area)
    (request answers .fillMmap "addr ring mmap (pgoff=0x100000000)" .mapping)
  let comp ← Handles.onError (.release area)
    (request answers .compMmap "addr ring mmap (pgoff=0x180000000)" .mapping)
  return ⟨area, fill, comp⟩

/-- The text of an error of `bind`. -/
def bindText (ifindex queueId : UInt32) (useZerocopy : Bool) : String :=
  "bind AF_XDP (ifindex=" ++ toString ifindex ++ ", q=" ++ toString queueId ++ ", zerocopy=" ++
    toString useZerocopy ++ ")"

/-- `create_xsk_socket`. -/
def createXskSocket (answers : Answers) (ifindex queueId : UInt32) (useZerocopy : Bool) :
    Fallible XskSocket := do
  let fd ← request answers .socket "socket(AF_XDP)" .descriptor
  let umem ← Handles.onError (.release fd) (Umem.new answers)
  -- From here on an early exit drops `umem`.
  Handles.onError umem.drop do
    Handles.onError (.release fd) (check answers .rxRing "setsockopt ring (2)")
    Handles.onError (.release fd) (check answers .txRing "setsockopt ring (3)")
    check answers .rxTxOffsets "XDP_MMAP_OFFSETS"
    let rx ← Handles.onError (.release fd)
      (request answers .rxMmap "desc ring mmap (pgoff=0x0)" .mapping)
    let tx ← Handles.onError (.release fd)
      (request answers .txMmap "desc ring mmap (pgoff=0x80000000)" .mapping)
    Handles.onError (.release fd)
      (check answers .bind (bindText ifindex queueId useZerocopy))
    return ⟨fd, umem, rx, tx⟩

/-- What the system answers while the sockets are set up: for each queue and mode, and to the
update of the map. -/
structure System where
  answers : UInt32 → Bool → Answers
  register : UInt32 → Option String

/-- A call of `create_xsk_socket` in one of the loops. -/
def attempt (system : System) (ifindex queueId : UInt32) (useZerocopy : Bool) :
    Fallible XskSocket :=
  Handles.recorded
    (createXskSocket (system.answers queueId useZerocopy) ifindex queueId useZerocopy)

/-- Zero-copy mode first, then copy mode. -/
def openSocket (system : System) (ifindex queueId : UInt32) : Fallible XskSocket :=
  Handles.orElse (attempt system ifindex queueId true) (attempt system ifindex queueId false)

/-- `XdpHandle::register_socket`. -/
def registerSocket (system : System) (queueId : UInt32) : Fallible Unit :=
  match system.register queueId with
  | none => pure ()
  | some e => throw ("XskMap::set q=" ++ toString queueId ++ ": " ++ e)

/-- The handles that dropping sockets releases, in order: `Drop for XskSocket` closes the
descriptor, and then the field `umem` is dropped. -/
def dropped (socks : List XskSocket) : List (Handle Kind) :=
  socks.flatMap fun sock => [sock.fd, sock.umem.area]

/-- The loop of `xdp_udp_sink`.  An early exit drops the socket at hand and those of the queues
before. -/
def sinkSockets (system : System) (ifindex : UInt32) :
    List UInt32 → List XskSocket → Fallible (List XskSocket)
  | [], socks => pure socks
  | q :: rest, socks => do
      let sock ← Handles.onError (.releaseAll (dropped socks)) (openSocket system ifindex q)
      Handles.onError (.releaseAll (dropped (sock :: socks))) (registerSocket system q)
      sinkSockets system ifindex rest (socks ++ [sock])

/-- `xdp_udp_blast` tries zero-copy mode only with a program attached. -/
def openBlast (system : System) (ifindex : UInt32) (tryZc : Bool) (queueId : UInt32) :
    Fallible XskSocket :=
  if tryZc then openSocket system ifindex queueId else attempt system ifindex queueId false

/-- The loop of `xdp_udp_blast`, which forgets its sockets: they are never dropped. -/
def blastSockets (system : System) (ifindex : UInt32) (tryZc : Bool) :
    List UInt32 → Fallible (List XskSocket)
  | [] => pure []
  | q :: rest => do
      let sock ← openBlast system ifindex tryZc q
      let socks ← blastSockets system ifindex tryZc rest
      return sock :: socks

/-! ## What a call leaves behind -/

def Umem.calls : List Call :=
  [.umemMmap, .umemReg, .umemFillRing, .umemCompletionRing, .umemOffsets, .fillMmap, .compMmap]

def Call.order : List Call :=
  .socket :: (Umem.calls ++ [.rxRing, .txRing, .rxTxOffsets, .rxMmap, .txMmap, .bind])

/-- The first of these system calls that fails. -/
def firstFailureOf (calls : List Call) (answers : Answers) : Option Call :=
  calls.find? fun call => (answers call).isSome

/-- The system call at which `create_xsk_socket` gives up. -/
def firstFailure (answers : Answers) : Option Call := firstFailureOf Call.order answers

/-- The handles with the number `n`. -/
def fdNo (n : ℕ) : Handle Kind := ⟨.descriptor, n⟩

def mapNo (n : ℕ) : Handle Kind := ⟨.mapping, n⟩

/-- What stays behind if a call fails, where `n` is the number of the descriptor. -/
def Call.leaked (n : ℕ) : Call → Finset (Handle Kind)
  | .umemOffsets => {mapNo (n + 1)}
  | .compMmap => {mapNo (n + 2)}
  | .rxRing | .txRing | .rxMmap => {mapNo (n + 3), mapNo (n + 2)}
  | .rxTxOffsets => {mapNo (n + 3), mapNo (n + 2), fdNo n}
  | .txMmap => {mapNo (n + 4), mapNo (n + 3), mapNo (n + 2)}
  | .bind => {mapNo (n + 5), mapNo (n + 4), mapNo (n + 3), mapNo (n + 2)}
  | _ => ∅

open Handles

variable {answers : Answers} {s : Handles Kind}

theorem ends_check {call : Call} {text : String} {ok : Unit → Handles Kind → Prop}
    {error : Handles Kind → Prop} (hok : answers call = none → ok () s)
    (herror : ∀ e, answers call = some e → error s) :
    Ends (check answers call text) s ok error := by
  unfold check
  cases h : answers call with
  | none => exact ends_pure (hok h)
  | some e => exact ends_throw (herror e h)

theorem ends_request {call : Call} {text : String} {kind : Kind}
    {ok : Handle Kind → Handles Kind → Prop} {error : Handles Kind → Prop}
    (hok : answers call = none → ok (s.upcoming kind) (s.grant kind))
    (herror : ∀ e, answers call = some e → error s) :
    Ends (request answers call text kind) s ok error :=
  ends_bind (ends_check (fun h => ends_acquire (hok h)) herror)

/-- The handles of a socket are acquired in this order. -/
def XskSocket.numbered (n : ℕ) : XskSocket :=
  ⟨fdNo n, ⟨mapNo (n + 1), mapNo (n + 2), mapNo (n + 3)⟩, mapNo (n + 4), mapNo (n + 5)⟩

/-- Closing the descriptor and unmapping the area leaves the rings. -/
theorem adds_exit {n : ℕ} {rings : Finset (Handle Kind)} {t : Handles Kind}
    (h : Adds s (rings ∪ {mapNo (n + 1), fdNo n}) t) (hfd : fdNo n ∉ rings)
    (harea : mapNo (n + 1) ∉ rings) :
    Adds s rings ((t.release (fdNo n)).release (mapNo (n + 1))) := by
  have hclosed := h.release (fdNo n) (by simp)
  have hunmapped := hclosed.release (mapNo (n + 1)) (by simp [fdNo, mapNo])
  refine hunmapped.congr ?_
  ext handle
  simp only [Finset.mem_erase, Finset.mem_union, Finset.mem_insert, Finset.mem_singleton]
  constructor
  · rintro ⟨hne, hne', hring | rfl | rfl⟩
    · exact hring
    · exact absurd rfl hne
    · exact absurd rfl hne'
  · intro hring
    exact ⟨fun heq => harea (heq ▸ hring), fun heq => hfd (heq ▸ hring), .inl hring⟩

theorem ends_umem_new :
    Ends (Umem.new answers) (s.grant .descriptor)
      (fun umem t => firstFailureOf Umem.calls answers = none ∧
        umem = (XskSocket.numbered s.next).umem ∧
        t = (((s.grant .descriptor).grant .mapping).grant .mapping).grant .mapping)
      (fun t => ∃ call, firstFailureOf Umem.calls answers = some call ∧
        Adds s (insert (fdNo s.next) (call.leaked s.next)) t) := by
  -- What is held behind each of the acquisitions, and without the area.
  have hfd : Adds s {fdNo s.next} (s.grant .descriptor) := (Adds.refl s).grant .descriptor
  have harea : Adds s {mapNo (s.next + 1), fdNo s.next} _ := hfd.grant .mapping
  have hfill : Adds s {mapNo (s.next + 2), mapNo (s.next + 1), fdNo s.next} _ :=
    harea.grant .mapping
  have hdropped := (harea.release (mapNo (s.next + 1)) (by simp)).congr
    (show _ = insert (fdNo s.next) ∅ by ext; grind [fdNo, mapNo])
  have hleft := (hfill.release (mapNo (s.next + 1)) (by simp)).congr
    (show _ = insert (fdNo s.next) {mapNo (s.next + 2)} by ext; grind [fdNo, mapNo])
  refine ends_bind (ends_request (fun hmmap => ?_) fun e he => ?_)
  swap
  · exact ⟨.umemMmap, by simp [firstFailureOf, Umem.calls, he], hfd⟩
  refine ends_bind (ends_onError (ends_check (fun hreg => ?_) fun e he => ?_))
  swap
  · exact ⟨.umemReg, by simp [firstFailureOf, Umem.calls, *], hdropped⟩
  refine ends_bind (ends_onError (ends_check (fun hfillRing => ?_) fun e he => ?_))
  swap
  · exact ⟨.umemFillRing, by simp [firstFailureOf, Umem.calls, *], hdropped⟩
  refine ends_bind (ends_onError (ends_check (fun hcompRing => ?_) fun e he => ?_))
  swap
  · exact ⟨.umemCompletionRing, by simp [firstFailureOf, Umem.calls, *], hdropped⟩
  refine ends_bind (ends_check (fun hoffsets => ?_) fun e he => ?_)
  swap
  · refine ⟨.umemOffsets, by simp [firstFailureOf, Umem.calls, *], ?_⟩
    exact harea.congr (Finset.pair_comm _ _)
  refine ends_bind (ends_onError (ends_request (fun hfillMap => ?_) fun e he => ?_))
  swap
  · exact ⟨.fillMmap, by simp [firstFailureOf, Umem.calls, *], hdropped⟩
  refine ends_bind (ends_onError (ends_request (fun hcompMap => ?_) fun e he => ?_))
  swap
  · exact ⟨.compMmap, by simp [firstFailureOf, Umem.calls, *], hleft⟩
  exact ends_pure ⟨by simp [firstFailureOf, Umem.calls, *], rfl, rfl⟩

theorem firstFailure_cons (hsocket : answers .socket = none) :
    firstFailure answers = (firstFailureOf Umem.calls answers).or
      (firstFailureOf [.rxRing, .txRing, .rxTxOffsets, .rxMmap, .txMmap, .bind] answers) := by
  simp [firstFailure, firstFailureOf, Call.order, List.find?_append, hsocket]

theorem fdNo_notMem_leaked (n : ℕ) {call : Call} (hcall : call ∈ Umem.calls) :
    fdNo n ∉ call.leaked n := by
  cases call <;> simp [Umem.calls, Call.leaked, fdNo, mapNo] at hcall ⊢

/-- **What `create_xsk_socket` does**: it succeeds if all its system calls do, and otherwise
leaves behind what `Call.leaked` says. -/
theorem ends_createXskSocket (ifindex queueId : UInt32) (useZerocopy : Bool) :
    Ends (createXskSocket answers ifindex queueId useZerocopy) s
      (fun sock t => firstFailure answers = none ∧ sock = .numbered s.next ∧
        Adds s ({sock.tx, sock.rx, sock.umem.comp, sock.umem.fill} ∪ {sock.umem.area, sock.fd}) t)
      (fun t => ∃ call, firstFailure answers = some call ∧ Adds s (call.leaked s.next) t) := by
  have hfd : Adds s {fdNo s.next} (s.grant .descriptor) := (Adds.refl s).grant .descriptor
  have hcomp : Adds s ({mapNo (s.next + 3), mapNo (s.next + 2)} ∪ {mapNo (s.next + 1), fdNo s.next})
      _ := (((hfd.grant .mapping).grant .mapping).grant .mapping).congr (by
    rw [Finset.insert_union, Finset.singleton_union]
    rfl)
  have hrx : Adds s ({mapNo (s.next + 4), mapNo (s.next + 3), mapNo (s.next + 2)} ∪
      {mapNo (s.next + 1), fdNo s.next}) _ :=
    (hcomp.grant .mapping).congr (Finset.insert_union _ _ _).symm
  have htx : Adds s ({mapNo (s.next + 5), mapNo (s.next + 4), mapNo (s.next + 3),
      mapNo (s.next + 2)} ∪ {mapNo (s.next + 1), fdNo s.next}) _ :=
    (hrx.grant .mapping).congr (Finset.insert_union _ _ _).symm
  refine ends_bind (ends_request (fun hsocket => ?_) fun e he => ?_)
  swap
  · exact ⟨.socket, by simp [firstFailure, firstFailureOf, Call.order, he], Adds.refl s⟩
  have hfirst := firstFailure_cons hsocket
  refine ends_bind (ends_onError (ends_umem_new.imp ?_ ?_))
  swap
  · rintro t ⟨call, hcall, hadds⟩
    refine ⟨call, by rw [hfirst, hcall, Option.some_or], ?_⟩
    have hmem : call ∈ Umem.calls := List.mem_of_find?_eq_some hcall
    exact (hadds.release (fdNo s.next) (Finset.mem_insert_self _ _)).congr
      (Finset.erase_insert (fdNo_notMem_leaked _ hmem))
  rintro umem t ⟨humem, rfl, rfl⟩
  rw [humem, Option.none_or] at hfirst
  -- The early exits drop the area, and all but one of them close the descriptor before.
  have hdropped := adds_exit hcomp (by simp [fdNo, mapNo]) (by simp [mapNo])
  have hdroppedRx := adds_exit hrx (by simp [fdNo, mapNo]) (by simp [mapNo])
  have hdroppedTx := adds_exit htx (by simp [fdNo, mapNo]) (by simp [mapNo])
  have hkept := (hcomp.release (mapNo (s.next + 1)) (by simp)).congr
    (show _ = {mapNo (s.next + 3), mapNo (s.next + 2), fdNo s.next} by ext; grind [fdNo, mapNo])
  refine ends_onError (ends_bind (ends_onError (ends_check (fun hrxRing => ?_) fun e he => ?_)))
  swap
  · exact ⟨.rxRing, by rw [hfirst]; simp [firstFailureOf, *], hdropped⟩
  refine ends_bind (ends_onError (ends_check (fun htxRing => ?_) fun e he => ?_))
  swap
  · exact ⟨.txRing, by rw [hfirst]; simp [firstFailureOf, *], hdropped⟩
  refine ends_bind (ends_check (fun hoffsets => ?_) fun e he => ?_)
  swap
  · exact ⟨.rxTxOffsets, by rw [hfirst]; simp [firstFailureOf, *], hkept⟩
  refine ends_bind (ends_onError (ends_request (fun hrxMap => ?_) fun e he => ?_))
  swap
  · exact ⟨.rxMmap, by rw [hfirst]; simp [firstFailureOf, *], hdropped⟩
  refine ends_bind (ends_onError (ends_request (fun htxMap => ?_) fun e he => ?_))
  swap
  · exact ⟨.txMmap, by rw [hfirst]; simp [firstFailureOf, *], hdroppedRx⟩
  refine ends_bind (ends_onError (ends_check (fun hbind => ?_) fun e he => ?_))
  swap
  · exact ⟨.bind, by rw [hfirst]; simp [firstFailureOf, *], hdroppedTx⟩
  exact ends_pure ⟨by rw [hfirst]; simp [firstFailureOf, *], rfl, htx⟩

/-! ## The loops -/

/-- The failures after which nothing stays behind. -/
def Call.Released : Call → Prop
  | .socket | .umemMmap | .umemReg | .umemFillRing | .umemCompletionRing | .fillMmap => True
  | _ => False

/-- If `create_xsk_socket` fails, then at a system call behind which it cleans up. -/
def CleansUp (answers : Answers) : Prop := ∀ call, firstFailure answers = some call → call.Released

theorem leaked_eq_empty_iff (n : ℕ) (call : Call) : call.leaked n = ∅ ↔ call.Released := by
  cases call <;> simp [Call.leaked, Call.Released]

/-- The calls of `create_xsk_socket` for one queue. -/
def tries (answers : Bool → Answers) : Bool → List Answers
  | true =>
      if firstFailure (answers true) = none then [answers true]
      else [answers true, answers false]
  | false => [answers false]

/-- One of these calls succeeds. -/
def Opens (answers : Bool → Answers) (tryZc : Bool) : Prop :=
  ∃ tried ∈ tries answers tryZc, firstFailure tried = none

instance (answers : Bool → Answers) (tryZc : Bool) : Decidable (Opens answers tryZc) :=
  inferInstanceAs (Decidable (∃ tried ∈ tries answers tryZc, firstFailure tried = none))

/-- The calls of `create_xsk_socket` in the loop of `xdp_udp_sink`. -/
def sinkTries (system : System) : List UInt32 → List Answers
  | [] => []
  | q :: rest =>
      tries (system.answers q) true ++
        if Opens (system.answers q) true ∧ system.register q = none then sinkTries system rest
        else []

/-- The calls of `create_xsk_socket` in the loop of `xdp_udp_blast`. -/
def blastTries (system : System) (tryZc : Bool) : List UInt32 → List Answers
  | [] => []
  | q :: rest =>
      tries (system.answers q) tryZc ++
        if Opens (system.answers q) tryZc then blastTries system tryZc rest else []

/-- From `s` to `t`, `create_xsk_socket` was called with these answers, and nothing was released
twice. -/
structure Tried (s : Handles Kind) (tried : List Answers) (t : Handles Kind) : Prop where
  twice : t.twice = s.twice
  clean : (∀ call ∈ t.calls, call.Clean) ↔
    (∀ call ∈ s.calls, call.Clean) ∧ ∀ answers ∈ tried, CleansUp answers

theorem Tried.trans {t u : Handles Kind} {first second : List Answers} (h : Tried s first t)
    (h' : Tried t second u) : Tried s (first ++ second) u where
  twice := h'.twice.trans h.twice
  clean := by
    rw [h'.clean, h.clean, List.forall_mem_append, and_assoc]

theorem Tried.refl (s : Handles Kind) : Tried s [] s where
  twice := rfl
  clean := by simp

/-- Dropping sockets that are held is no call and releases nothing twice. -/
theorem Tried.releaseAll {t : Handles Kind} {tried : List Answers} (h : Tried s tried t)
    {handles : List (Handle Kind)} (hnodup : handles.Nodup)
    (hheld : ∀ handle ∈ handles, handle ∈ t.held) :
    Tried s (tried ++ []) (t.releaseAll handles) := by
  obtain ⟨htwice, hcalls⟩ := releaseAll_spec hnodup hheld
  refine h.trans ⟨htwice, ?_⟩
  rw [hcalls]
  simp

/-- What was held stays held, and what was acquired is new. -/
structure Keeps (s t : Handles Kind) : Prop where
  held : s.held ⊆ t.held
  next : s.next ≤ t.next

theorem Keeps.trans {t u : Handles Kind} (h : Keeps s t) (h' : Keeps t u) : Keeps s u :=
  ⟨h.held.trans h'.held, h.next.trans h'.next⟩

theorem Keeps.record {more found : Finset (Handle Kind)} {t : Handles Kind} {failed : Bool}
    (h : Adds s more t) : Keeps s (t.record failed found) where
  held := by
    show s.held ⊆ t.held
    rw [h.held]
    exact Finset.subset_union_left
  next := h.next

theorem clean_record_iff {failed : Bool} {found : Finset (Handle Kind)} :
    (∀ call ∈ (s.record failed found).calls, call.Clean) ↔
      (∀ call ∈ s.calls, call.Clean) ∧ (⟨failed, found, s.held⟩ : CallRecord Kind).Clean := by
  show (∀ call ∈ s.calls ++ [_], CallRecord.Clean call) ↔ _
  rw [List.forall_mem_append, List.forall_mem_singleton]

theorem ends_attempt (system : System) (ifindex q : UInt32) (zerocopy : Bool) :
    Ends (attempt system ifindex q zerocopy) s
      (fun sock t => firstFailure (system.answers q zerocopy) = none ∧
        Tried s [system.answers q zerocopy] t ∧ Keeps s t ∧
        (dropped [sock]).Nodup ∧ ∀ handle ∈ dropped [sock], handle ∈ t.held ∧ handle ∉ s.held)
      (fun t => firstFailure (system.answers q zerocopy) ≠ none ∧
        Tried s [system.answers q zerocopy] t ∧ Keeps s t) := by
  refine ends_recorded ((ends_createXskSocket ifindex q zerocopy).imp ?_ ?_)
  · rintro sock t ⟨hnone, rfl, hadds⟩
    have hcleansUp : CleansUp (system.answers q zerocopy) := by
      intro call hcall
      rw [hnone] at hcall
      cases hcall
    refine ⟨hnone, ⟨hadds.twice, ?_⟩, .record hadds, ?_, ?_⟩
    · rw [clean_record_iff, hadds.calls]
      simp [CallRecord.Clean, hcleansUp]
    · simp [dropped, XskSocket.numbered, fdNo, mapNo]
    · intro handle hhandle
      have hmem : handle ∈ ({(XskSocket.numbered s.next).umem.area,
          (XskSocket.numbered s.next).fd} : Finset _) := by
        simpa [dropped, or_comm] using hhandle
      refine ⟨?_, hadds.notMem (Finset.mem_union_right _ hmem)⟩
      show handle ∈ t.held
      rw [hadds.held]
      exact Finset.mem_union_right _ (Finset.mem_union_right _ hmem)
  · rintro t ⟨call, hcall, hadds⟩
    have hcleansUp : CleansUp (system.answers q zerocopy) ↔ call.Released := by
      simp [CleansUp, hcall]
    refine ⟨by simp [hcall], ⟨hadds.twice, ?_⟩, .record hadds⟩
    rw [clean_record_iff, hadds.calls]
    simp [CallRecord.Clean, hcleansUp, hadds.held_eq_iff, leaked_eq_empty_iff]

theorem ends_openSocket (system : System) (ifindex q : UInt32) :
    Ends (openSocket system ifindex q) s
      (fun sock t => Opens (system.answers q) true ∧ Tried s (tries (system.answers q) true) t ∧
        Keeps s t ∧ (dropped [sock]).Nodup ∧
        ∀ handle ∈ dropped [sock], handle ∈ t.held ∧ handle ∉ s.held)
      (fun t => ¬ Opens (system.answers q) true ∧
        Tried s (tries (system.answers q) true) t ∧ Keeps s t) := by
  refine ends_orElse ((ends_attempt system ifindex q true).imp ?_ ?_)
  · rintro sock t ⟨hnone, htried, hkeeps, hnodup, hnew⟩
    have htries : tries (system.answers q) true = [system.answers q true] := if_pos hnone
    rw [htries]
    exact ⟨⟨_, by rw [htries]; exact List.mem_singleton_self _, hnone⟩, htried, hkeeps, hnodup,
      hnew⟩
  · rintro t ⟨hsome, htried, hkeeps⟩
    have htries : tries (system.answers q) true =
        [system.answers q true] ++ [system.answers q false] := if_neg hsome
    rw [htries]
    refine (ends_attempt system ifindex q false).imp ?_ ?_
    · rintro sock u ⟨hnone, htried', hkeeps', hnodup, hnew⟩
      refine ⟨⟨_, by rw [htries]; simp, hnone⟩, htried.trans htried', hkeeps.trans hkeeps',
        hnodup, ?_⟩
      intro handle hhandle
      obtain ⟨hheld, hnot⟩ := hnew handle hhandle
      exact ⟨hheld, fun hold => hnot (hkeeps.held hold)⟩
    · rintro u ⟨hsome', htried', hkeeps'⟩
      refine ⟨?_, htried.trans htried', hkeeps.trans hkeeps'⟩
      rintro ⟨tried, hmem, hnone⟩
      rw [htries] at hmem
      rcases List.mem_pair.mp hmem with rfl | rfl
      · exact hsome hnone
      · exact hsome' hnone

/-- Sockets that can be dropped. -/
structure Owned (s : Handles Kind) (socks : List XskSocket) : Prop where
  nodup : (dropped socks).Nodup
  held : ∀ handle ∈ dropped socks, handle ∈ s.held

theorem dropped_append (first second : List XskSocket) :
    dropped (first ++ second) = dropped first ++ dropped second :=
  List.flatMap_append

/-- A new socket and the ones before, in either order. -/
theorem Owned.append {t : Handles Kind} {socks : List XskSocket} {sock : XskSocket}
    (h : Owned s socks) (hkeeps : Keeps s t) (hnodup : (dropped [sock]).Nodup)
    (hnew : ∀ handle ∈ dropped [sock], handle ∈ t.held ∧ handle ∉ s.held) :
    Owned t (socks ++ [sock]) ∧ Owned t ([sock] ++ socks) := by
  have hdisjoint : List.Disjoint (dropped [sock]) (dropped socks) :=
    fun handle hmem hold => (hnew handle hmem).2 (h.held handle hold)
  have hheld : ∀ handle ∈ dropped socks, handle ∈ t.held :=
    fun handle hmem => hkeeps.held (h.held handle hmem)
  refine ⟨⟨?_, ?_⟩, ⟨?_, ?_⟩⟩ <;> rw [dropped_append]
  · exact h.nodup.append hnodup hdisjoint.symm
  · exact List.forall_mem_append.mpr ⟨hheld, fun handle hmem => (hnew handle hmem).1⟩
  · exact hnodup.append h.nodup hdisjoint
  · exact List.forall_mem_append.mpr ⟨fun handle hmem => (hnew handle hmem).1, hheld⟩

/-- **The loop of `xdp_udp_sink`.** -/
theorem ends_sinkSockets (system : System) (ifindex : UInt32) (queues : List UInt32)
    {socks : List XskSocket} (howned : Owned s socks) :
    Ends (sinkSockets system ifindex queues socks) s
      (fun _ t => Tried s (sinkTries system queues) t)
      (fun t => Tried s (sinkTries system queues) t) := by
  induction queues generalizing s socks with
  | nil => exact ends_pure (Tried.refl s)
  | cons q rest ih =>
      refine ends_bind (ends_onError ((ends_openSocket system ifindex q).imp ?_ ?_))
      · rintro sock t ⟨hopens, htried, hkeeps, hnodup, hnew⟩
        obtain ⟨hbehind, hdropped⟩ := howned.append hkeeps hnodup hnew
        refine ends_bind (ends_onError ?_)
        unfold registerSocket
        cases hregister : system.register q with
        | none =>
            refine ends_pure ((ih hbehind).imp ?_ ?_)
            · intro _ u hrest
              rw [sinkTries, if_pos ⟨hopens, hregister⟩]
              exact htried.trans hrest
            · intro u hrest
              rw [sinkTries, if_pos ⟨hopens, hregister⟩]
              exact htried.trans hrest
        | some e =>
            refine ends_throw ?_
            rw [sinkTries, if_neg (by simp [hregister])]
            exact htried.releaseAll hdropped.nodup hdropped.held
      · rintro t ⟨hopens, htried, hkeeps⟩
        rw [sinkTries, if_neg fun h => hopens h.1]
        exact htried.releaseAll howned.nodup fun handle hmem =>
          hkeeps.held (howned.held handle hmem)

theorem ends_openBlast (system : System) (ifindex q : UInt32) (tryZc : Bool) :
    Ends (openBlast system ifindex tryZc q) s
      (fun _ t => Opens (system.answers q) tryZc ∧ Tried s (tries (system.answers q) tryZc) t)
      (fun t => ¬ Opens (system.answers q) tryZc ∧
        Tried s (tries (system.answers q) tryZc) t) := by
  cases tryZc with
  | true =>
      refine (ends_openSocket system ifindex q).imp ?_ ?_
      · rintro sock t ⟨hopens, htried, -⟩
        exact ⟨hopens, htried⟩
      · rintro t ⟨hopens, htried, -⟩
        exact ⟨hopens, htried⟩
  | false =>
      refine (ends_attempt system ifindex q false).imp ?_ ?_
      · rintro sock t ⟨hnone, htried, -⟩
        exact ⟨⟨_, List.mem_singleton_self _, hnone⟩, htried⟩
      · rintro t ⟨hsome, htried, -⟩
        refine ⟨?_, htried⟩
        rintro ⟨tried, hmem, hnone⟩
        rw [List.mem_singleton.mp hmem] at hnone
        exact hsome hnone

/-- **The loop of `xdp_udp_blast`.** -/
theorem ends_blastSockets (system : System) (ifindex : UInt32) (tryZc : Bool)
    (queues : List UInt32) :
    Ends (blastSockets system ifindex tryZc queues) s
      (fun _ t => Tried s (blastTries system tryZc queues) t)
      (fun t => Tried s (blastTries system tryZc queues) t) := by
  induction queues generalizing s with
  | nil => exact ends_pure (Tried.refl s)
  | cons q rest ih =>
      refine ends_bind ((ends_openBlast system ifindex q tryZc).imp ?_ ?_)
      · rintro sock t ⟨hopens, htried⟩
        rw [blastTries, if_pos hopens]
        exact ends_bind (ih.imp (fun _ u hrest => ends_pure (htried.trans hrest))
          fun u hrest => htried.trans hrest)
      · rintro t ⟨hopens, htried⟩
        rw [blastTries, if_neg hopens, List.append_nil]
        exact htried

/-- Every failed call of `create_xsk_socket` left what it found, and nothing was released
twice. -/
def Released (t : Handles Kind) : Prop := (∀ call ∈ t.calls, call.Clean) ∧ t.twice = false

theorem released_iff {t : Handles Kind} {tried : List Answers} (h : Tried s tried t)
    (hcalls : s.calls = []) (htwice : s.twice = false) :
    Released t ↔ ∀ answers ∈ tried, CleansUp answers := by
  rw [Released, h.clean, h.twice, hcalls]
  simp [htwice]

/-- **When a failed set-up releases what it acquired**: exactly if each call of
`create_xsk_socket` that fails does so at one of the six system calls behind which it cleans
up. -/
theorem setup_releases_iff (system : System) (ifindex : UInt32) (tryZc : Bool)
    (queues : List UInt32) (s : Handles Kind) (hcalls : s.calls = []) (htwice : s.twice = false) :
    (Released (sinkSockets system ifindex queues [] s).2 ↔
      ∀ answers ∈ sinkTries system queues, CleansUp answers) ∧
    (Released (blastSockets system ifindex tryZc queues s).2 ↔
      ∀ answers ∈ blastTries system tryZc queues, CleansUp answers) := by
  constructor
  · have hnone : Owned s [] := ⟨by simp [dropped], by simp [dropped]⟩
    exact released_iff (ends_sinkSockets system ifindex queues hnone).snd hcalls htwice
  · exact released_iff (ends_blastSockets system ifindex tryZc queues).snd hcalls htwice

/-- A system on which `call` fails in zero-copy mode and everything else works. -/
def failing (call : Call) : System where
  answers := fun _ zerocopy other =>
    if zerocopy = true ∧ other = call then some "Operation not supported" else none
  register := fun _ => none

def nothingHeld : Handles Kind := ⟨∅, 0, false, [], by simp⟩

/-- The attempt in zero-copy mode fails at the mapping of the fill ring. -/
theorem setup_releases_fillMmap :
    (nothingHeld.calls = [] ∧ nothingHeld.twice = false) ∧
      Released (sinkSockets (failing .fillMmap) 1 [0] [] nothingHeld).2 ∧
      Released (blastSockets (failing .fillMmap) 1 true [0] nothingHeld).2 := by
  have hfirst : firstFailure ((failing .fillMmap).answers 0 true) = some .fillMmap := by decide
  have hsecond : firstFailure ((failing .fillMmap).answers 0 false) = none := by decide
  have htries : ∀ answers ∈ tries ((failing .fillMmap).answers 0) true, CleansUp answers := by
    rw [tries, if_neg (by simp [hfirst])]
    intro answers hmem call hcall
    rcases List.mem_pair.mp hmem with rfl | rfl
    · rw [hfirst] at hcall
      cases hcall
      trivial
    · rw [hsecond] at hcall
      cases hcall
  obtain ⟨hsink, hblast⟩ :=
    setup_releases_iff (failing .fillMmap) 1 true [0] nothingHeld rfl rfl
  refine ⟨⟨rfl, rfl⟩, hsink.mpr ?_, hblast.mpr ?_⟩
  · simpa [sinkTries] using htries
  · simpa [blastTries] using htries

/-- On an interface without zero-copy mode the first attempt fails at `bind`, and leaves the
mappings of the four rings. -/
theorem setup_leaks_bind :
    ¬ Released (sinkSockets (failing .bind) 1 [0] [] nothingHeld).2 := by
  intro hreleased
  have hnone : Owned nothingHeld [] := ⟨by simp [dropped], by simp [dropped]⟩
  have hends := (ends_sinkSockets (failing .bind) 1 [0] hnone).snd
  have hcleansUp := (released_iff hends rfl rfl).mp hreleased
  have hfirst : firstFailure ((failing .bind).answers 0 true) = some .bind := by decide
  have hmem : (failing .bind).answers 0 true ∈ sinkTries (failing .bind) [0] := by
    rw [sinkTries]
    refine List.mem_append_left _ ?_
    rw [tries, if_neg (by rw [hfirst]; simp)]
    exact List.mem_cons_self
  exact hcleansUp _ hmem .bind hfirst

end RunPerf.Xdp.Setup
