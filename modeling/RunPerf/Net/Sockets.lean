import RunPerf.Lib.Bytes
import RunPerf.Xdp.Filter

/-!
# The sockets of the servers

`tcp_server` and `udp_server` open one socket for each CPU, all on the same address.  For each
worker the address is resolved anew, a socket is opened, `SO_REUSEADDR` and `SO_REUSEPORT` are
set without a look at the result, and the socket is bound (and listens, for TCP).  If one of the
last two calls fails, the socket is closed and the server gives up; the workers that were started
before keep their sockets.

The kernel has a table of all sockets of the host.  It binds a socket unless another socket of the
same kind is bound to an overlapping address and the two may not share it.  Which sockets may
share an address is a parameter; what `socket(7)` says about it is `SharesReused`.
-/

namespace RunPerf.Net.Sockets

open RunPerf.Lib

/-! ## Addresses -/

/-- What `to_socket_addrs` gives. -/
inductive SocketAddr
  | v4 (ip : Vector UInt8 4) (port : UInt16)
  | v6 (ip : Vector UInt8 16) (port : UInt16)

/-- `libc::sockaddr_in`. -/
structure SockaddrIn where
  sinFamily : UInt16
  sinPort : UInt16
  sAddr : UInt32
  sinZero : Vector UInt8 8

/-- `AF_INET`. -/
def afInet : UInt16 := 2

/-- `u32::from_ne_bytes` on the little-endian host. -/
def fromNeBytes (octets : Vector UInt8 4) : UInt32 := UInt32.ofNat (leValue octets.toList)

/-- The first IPv4 address. -/
def firstV4 (addrs : List SocketAddr) : Option (Vector UInt8 4 × UInt16) :=
  addrs.findSome? fun
    | .v4 ip port => some (ip, port)
    | .v6 _ _ => none

/-- `sockaddr_v4`, from what `to_socket_addrs` gives. -/
def sockaddrV4 (resolved : Except String (List SocketAddr)) : Except String SockaddrIn := do
  let addrs ← resolved
  match firstV4 addrs with
  | none => .error "need an IPv4 addr"
  | some (ip, port) => .ok ⟨afInet, Xdp.bswap16 port, fromNeBytes ip, .replicate 8 0⟩

/-- `sockaddr_in` in memory. -/
def SockaddrIn.bytes (sa : SockaddrIn) : List UInt8 :=
  [UInt8.ofNat sa.sinFamily.toNat, UInt8.ofNat (sa.sinFamily.toNat / 256),
    UInt8.ofNat sa.sinPort.toNat, UInt8.ofNat (sa.sinPort.toNat / 256)] ++
    (List.range 4).map (fun i => UInt8.ofNat (sa.sAddr.toNat / 256 ^ i)) ++ sa.sinZero.toList

/-- Where a socket is bound. -/
structure Endpoint where
  ip : List UInt8
  port : ℕ
deriving DecidableEq

/-- How the kernel reads the address that it gets: the port is the big-endian word behind the
family, and the address follows. -/
def endpointOf (bytes : List UInt8) : Endpoint := ⟨(bytes.drop 4).take 4, beAt bytes 2⟩

/-- The address 0.0.0.0. -/
def anyIp : List UInt8 := List.replicate 4 0

def Endpoint.overlaps (a b : Endpoint) : Bool :=
  a.port = b.port && (a.ip = b.ip || a.ip = anyIp || b.ip = anyIp)

/-! ## The kernel -/

/-- `SOCK_STREAM` and `SOCK_DGRAM`. -/
inductive Proto
  | stream
  | dgram
deriving DecidableEq

structure Sock where
  proto : Proto
  reuseAddr : Bool
  reusePort : Bool
  bound : Option Endpoint
  listening : Bool
deriving DecidableEq

def Sock.new (proto : Proto) : Sock := ⟨proto, false, false, none, false⟩

/-- The sockets of the host.  Descriptors are told apart by serial numbers. -/
structure Table where
  socks : List (ℕ × Sock)
  next : ℕ
  fresh : ∀ entry ∈ socks, entry.1 < next

/-- The calls that may fail, beside an address in use. -/
inductive Call
  | socket
  | bind
  | listen
deriving DecidableEq

/-- The options that are set. -/
inductive Opt
  | reuseAddr
  | reusePort
deriving DecidableEq

/-- What the host answers for each worker: the addresses, the errors of the calls, whether an
option is set, and the port in place of port 0; and which sockets may share an address. -/
structure System where
  resolve : ℕ → Except String (List SocketAddr)
  fails : ℕ → Call → Option String
  sets : ℕ → Opt → Bool
  ephemeral : ℕ → ℕ
  mayShare : Sock → Sock → Bool

/-- A call on the table, which may fail. -/
abbrev Calls := ExceptT String (StateM Table)

/-- `EADDRINUSE`. -/
def inUse : String := "Address already in use (os error 98)"

namespace Table

def opened (proto : Proto) (t : Table) : Table where
  socks := t.socks ++ [(t.next, .new proto)]
  next := t.next + 1
  fresh := by
    intro entry hentry
    rcases List.mem_append.mp hentry with hold | hnew
    · exact (t.fresh entry hold).trans (Nat.lt_succ_self _)
    · rw [List.mem_singleton.mp hnew]
      exact Nat.lt_succ_self _

def updated (fd : ℕ) (change : Sock → Sock) (t : Table) : Table where
  socks := t.socks.map fun entry => if entry.1 = fd then (fd, change entry.2) else entry
  next := t.next
  fresh := by
    intro entry hentry
    obtain ⟨old, hold, rfl⟩ := List.mem_map.mp hentry
    have hlt := t.fresh old hold
    split
    · rename_i heq
      exact heq ▸ hlt
    · exact hlt

def closed (fd : ℕ) (t : Table) : Table where
  socks := t.socks.filter fun entry => entry.1 ≠ fd
  next := t.next
  fresh := fun entry hentry => t.fresh entry (List.mem_of_mem_filter hentry)

end Table

/-- `socket`. -/
def socket (failure : Option String) (proto : Proto) : Calls ℕ :=
  fun t =>
    match failure with
    | some e => (.error e, t)
    | none => (.ok t.next, t.opened proto)

/-- `set_opt_int`, which ignores the result. -/
def setOptInt (done : Bool) (fd : ℕ) (change : Sock → Sock) : Calls Unit :=
  fun t => (.ok (), if done then t.updated fd change else t)

/-- The endpoint that the kernel binds a socket to. -/
def System.chosen (system : System) (w : ℕ) (sa : SockaddrIn) : Endpoint :=
  let asked := endpointOf sa.bytes
  if asked.port = 0 then { asked with port := system.ephemeral w } else asked

/-- Another socket keeps this one from being bound. -/
def System.taken (system : System) (sock : Sock) (endpoint : Endpoint)
    (others : List (ℕ × Sock)) : Bool :=
  others.any fun other => other.2.proto = sock.proto &&
    (other.2.bound.any fun bound => bound.overlaps endpoint) && !system.mayShare other.2 sock

/-- `bind`. -/
def bind (system : System) (w fd : ℕ) (sa : SockaddrIn) : Calls Unit :=
  fun t =>
    match system.fails w .bind, t.socks.find? (fun entry => entry.1 = fd) with
    | some e, _ => (.error e, t)
    | none, none => (.error "Bad file descriptor (os error 9)", t)
    | none, some (_, sock) =>
        if system.taken sock (system.chosen w sa) (t.closed fd).socks then (.error inUse, t)
        else (.ok (), t.updated fd fun sock => { sock with bound := some (system.chosen w sa) })

/-- `listen`. -/
def listen (failure : Option String) (fd : ℕ) : Calls Unit :=
  fun t =>
    match failure with
    | some e => (.error e, t)
    | none => (.ok (), t.updated fd fun sock => { sock with listening := true })

/-- If `body` fails, close the socket. -/
def closing (fd : ℕ) (body : Calls Unit) : Calls Unit :=
  fun t =>
    match body t with
    | (.ok _, later) => (.ok (), later)
    | (.error e, later) => (.error e, later.closed fd)

/-! ## The servers -/

/-- `reuseport_tcp_listener` for worker `w`. -/
def reuseportTcpListener (system : System) (w : ℕ) : Calls ℕ := do
  let sa ← (sockaddrV4 (system.resolve w) : Except String SockaddrIn)
  let fd ← socket (system.fails w .socket) .stream
  setOptInt (system.sets w .reuseAddr) fd fun sock => { sock with reuseAddr := true }
  setOptInt (system.sets w .reusePort) fd fun sock => { sock with reusePort := true }
  closing fd do
    bind system w fd sa
    listen (system.fails w .listen) fd
  return fd

/-- `reuseport_udp_socket` for worker `w`; the size of the receive buffer makes no difference
here. -/
def reuseportUdpSocket (system : System) (w : ℕ) : Calls ℕ := do
  let sa ← (sockaddrV4 (system.resolve w) : Except String SockaddrIn)
  let fd ← socket (system.fails w .socket) .dgram
  setOptInt (system.sets w .reuseAddr) fd fun sock => { sock with reuseAddr := true }
  setOptInt (system.sets w .reusePort) fd fun sock => { sock with reusePort := true }
  closing fd (bind system w fd sa)
  return fd

/-- The socket of a worker. -/
def reuseportSocket (system : System) : Proto → ℕ → Calls ℕ
  | .stream => reuseportTcpListener system
  | .dgram => reuseportUdpSocket system

/-- The loop over the workers; an early exit leaves the sockets of those before. -/
def openAll (system : System) (proto : Proto) : List ℕ → Calls (List ℕ)
  | [] => pure []
  | w :: rest => do
      let fd ← reuseportSocket system proto w
      let fds ← openAll system proto rest
      return fd :: fds

/-- `workers`. -/
def workers (cpus : List ℕ) : ℕ := max cpus.length 1

/-- `tcp_server` up to the `join`s, for the descriptors of the listeners. -/
def tcpServer (system : System) (cpus : List ℕ) : Calls (List ℕ) :=
  openAll system .stream (List.range (workers cpus))

/-- `udp_server` up to the `join`s, for the descriptors of the sockets. -/
def udpServer (system : System) (cpus : List ℕ) : Calls (List ℕ) :=
  openAll system .dgram (List.range (workers cpus))

/-! ## One socket -/

/-- The socket of worker `w` when it is to be bound. -/
def System.asking (system : System) (proto : Proto) (w : ℕ) : Sock :=
  { Sock.new proto with
      reuseAddr := system.sets w .reuseAddr
      reusePort := system.sets w .reusePort }

/-- The socket of worker `w` when all is well. -/
def System.served (system : System) (proto : Proto) (w : ℕ) (endpoint : Endpoint) : Sock :=
  { system.asking proto w with bound := some endpoint, listening := proto = .stream }

/-- The error with which the calls for worker `w` end, where `others` are the sockets before. -/
def System.failure (system : System) (proto : Proto) (w : ℕ) (others : List (ℕ × Sock)) :
    Option String :=
  match sockaddrV4 (system.resolve w) with
  | .error e => some e
  | .ok sa =>
      (system.fails w .socket).or <| (system.fails w .bind).or <|
        (if system.taken (system.asking proto w) (system.chosen w sa) others then some inUse
          else none).or <|
        if proto = .stream then system.fails w .listen else none

/-- `u` is `t` with one more socket. -/
structure Adds (t : Table) (sock : Sock) (u : Table) : Prop where
  socks : u.socks = t.socks ++ [(t.next, sock)]
  next : u.next = t.next + 1

section Adds

variable {t u : Table} {sock : Sock}

theorem adds_opened (t : Table) (proto : Proto) : Adds t (.new proto) (t.opened proto) :=
  ⟨rfl, rfl⟩

theorem ne_next_of_mem {entry : ℕ × Sock} (h : entry ∈ t.socks) : entry.1 ≠ t.next :=
  (t.fresh entry h).ne

theorem Adds.updated (h : Adds t sock u) (change : Sock → Sock) :
    Adds t (change sock) (u.updated t.next change) where
  socks := by
    have hold : t.socks.map (fun entry => if entry.1 = t.next then (t.next, change entry.2)
        else entry) = t.socks :=
      (List.map_congr_left fun entry hentry => if_neg (ne_next_of_mem hentry)).trans
        (List.map_id _)
    show u.socks.map _ = _
    rw [h.socks, List.map_append, hold]
    simp
  next := h.next

theorem Adds.closed (h : Adds t sock u) : (u.closed t.next).socks = t.socks := by
  have hold : t.socks.filter (fun entry => entry.1 ≠ t.next) = t.socks :=
    List.filter_eq_self.mpr fun entry hentry => decide_eq_true (ne_next_of_mem hentry)
  show u.socks.filter _ = _
  rw [h.socks, List.filter_append, hold]
  simp

theorem Adds.find (h : Adds t sock u) :
    u.socks.find? (fun entry => entry.1 = t.next) = some (t.next, sock) := by
  have hold : t.socks.find? (fun entry => entry.1 = t.next) = none :=
    List.find?_eq_none.mpr fun entry hentry => by simpa using ne_next_of_mem hentry
  rw [h.socks, List.find?_append, hold]
  simp

end Adds

section Run

variable {α β : Type} (t : Table)

theorem run_bind (x : Calls α) (f : α → Calls β) :
    (x >>= f) t = match x t with
      | (.ok a, u) => f a u
      | (.error e, u) => (.error e, u) := by
  show (ExceptT.bind x f) t = _
  simp only [ExceptT.bind, ExceptT.mk, Bind.bind, StateT.bind]
  cases hx : x t with
  | mk result u => cases result <;> rfl

/-- How `body` ends when it is started in `t`. -/
def Ends (body : Calls α) (t : Table) (ok : α → Table → Prop) (error : String → Table → Prop) :
    Prop :=
  match body t with
  | (.ok a, u) => ok a u
  | (.error e, u) => error e u

variable {t} {x : Calls α} {f : α → Calls β} {error : String → Table → Prop}

theorem ends_bind {ok : β → Table → Prop}
    (h : Ends x t (fun a u => Ends (f a) u ok error) error) : Ends (x >>= f) t ok error := by
  unfold Ends at h ⊢
  rw [run_bind]
  cases hx : x t with
  | mk result u =>
      rw [hx] at h
      cases result <;> exact h

end Run

section Socket

variable {system : System} {proto : Proto} {w : ℕ} {t u : Table} {sock : Sock} {sa : SockaddrIn}

/-- Setting an option changes the socket if the host does so. -/
theorem ends_setOptInt {ok : Unit → Table → Prop} {error : String → Table → Prop} {done : Bool}
    {change : Sock → Sock} (hadds : Adds t sock u)
    (h : ∀ v, Adds t (if done then change sock else sock) v → ok () v) :
    Ends (setOptInt done t.next change) u ok error := by
  show ok () (if done then u.updated t.next change else u)
  cases done
  · exact h u hadds
  · exact h _ (hadds.updated change)

theorem ends_bindSock {ok : Unit → Table → Prop} {error : String → Table → Prop}
    (hadds : Adds t sock u)
    (hfails : ∀ e, system.fails w .bind = some e → error e u)
    (htaken : system.fails w .bind = none →
      system.taken sock (system.chosen w sa) t.socks = true → error inUse u)
    (hok : system.fails w .bind = none →
      system.taken sock (system.chosen w sa) t.socks = false → ∀ v,
        Adds t { sock with bound := some (system.chosen w sa) } v → ok () v) :
    Ends (bind system w t.next sa) u ok error := by
  unfold Ends bind
  rw [hadds.find, hadds.closed]
  cases hbind : system.fails w .bind with
  | some e => exact hfails e hbind
  | none =>
      by_cases hshared : system.taken sock (system.chosen w sa) t.socks
      · simp only [hshared, if_true]
        exact htaken hbind hshared
      · simp only [hshared, Bool.false_eq_true, if_false]
        exact hok hbind (Bool.eq_false_iff.mpr hshared) _ (hadds.updated fun sock =>
          { sock with bound := some (system.chosen w sa) })

theorem ends_listen {ok : Unit → Table → Prop} {error : String → Table → Prop}
    (hadds : Adds t sock u) (hfails : ∀ e, system.fails w .listen = some e → error e u)
    (hok : system.fails w .listen = none →
      ∀ v, Adds t { sock with listening := true } v → ok () v) :
    Ends (listen (system.fails w .listen) t.next) u ok error := by
  unfold Ends listen
  cases hlisten : system.fails w .listen with
  | some e => exact hfails e hlisten
  | none => exact hok hlisten _ (hadds.updated fun sock => { sock with listening := true })

theorem ends_closing {fd : ℕ} {body : Calls Unit} {ok : Unit → Table → Prop}
    {error : String → Table → Prop} (h : Ends body u ok fun e v => error e (v.closed fd)) :
    Ends (closing fd body) u ok error := by
  unfold Ends closing at *
  cases hbody : body u with
  | mk result v =>
      rw [hbody] at h
      cases result <;> exact h

/-- What the calls for one worker come to. -/
structure Outcome (system : System) (proto : Proto) (w : ℕ) (t : Table) (result : Except String ℕ)
    (u : Table) : Prop where
  error : ∀ e, system.failure proto w t.socks = some e → result = .error e ∧ u.socks = t.socks
  ok : system.failure proto w t.socks = none → ∃ sa, sockaddrV4 (system.resolve w) = .ok sa ∧
    result = .ok t.next ∧ Adds t (system.served proto w (system.chosen w sa)) u

theorem ends_liftExcept {α : Type} {x : Except String α} {ok : α → Table → Prop}
    {error : String → Table → Prop} (hok : ∀ a, x = .ok a → ok a t)
    (herror : ∀ e, x = .error e → error e t) : Ends (liftM x : Calls α) t ok error := by
  cases x with
  | ok a => exact hok a rfl
  | error e => exact herror e rfl

theorem ends_socket {ok : ℕ → Table → Prop} {error : String → Table → Prop}
    (hok : system.fails w .socket = none → ∀ u, Adds t (.new proto) u → ok t.next u)
    (herror : ∀ e, system.fails w .socket = some e → error e t) :
    Ends (socket (system.fails w .socket) proto) t ok error := by
  unfold Ends socket
  cases hsocket : system.fails w .socket with
  | some e => exact herror e hsocket
  | none => exact hok hsocket _ (adds_opened t proto)

/-- Both options, one after the other. -/
theorem asking_eq (system : System) (proto : Proto) (w : ℕ) :
    (if system.sets w .reusePort then
        { (if system.sets w .reuseAddr then { Sock.new proto with reuseAddr := true }
            else Sock.new proto) with reusePort := true }
      else if system.sets w .reuseAddr then { Sock.new proto with reuseAddr := true }
      else Sock.new proto) = system.asking proto w := by
  unfold System.asking
  cases system.sets w .reuseAddr <;> cases system.sets w .reusePort <;> rfl

theorem Outcome.failed {e : String} (hfailure : system.failure proto w t.socks = some e)
    (hsocks : u.socks = t.socks) : Outcome system proto w t (.error e) u where
  error := by
    intro e' he
    rw [hfailure] at he
    cases he
    exact ⟨rfl, hsocks⟩
  ok := by
    intro hnone
    rw [hfailure] at hnone
    cases hnone

theorem Outcome.done (hfailure : system.failure proto w t.socks = none)
    (hsa : sockaddrV4 (system.resolve w) = .ok sa)
    (hadds : Adds t (system.served proto w (system.chosen w sa)) u) :
    Outcome system proto w t (.ok t.next) u where
  error := by
    intro e he
    rw [hfailure] at he
    cases he
  ok := fun _ => ⟨sa, hsa, rfl, hadds⟩

/-- What is left once the address and the socket are there. -/
theorem failure_of_socket (proto : Proto) (others : List (ℕ × Sock))
    (hsa : sockaddrV4 (system.resolve w) = .ok sa) (hsocket : system.fails w .socket = none) :
    system.failure proto w others = (system.fails w .bind).or
      ((if system.taken (system.asking proto w) (system.chosen w sa) others then some inUse
        else none).or (if proto = .stream then system.fails w .listen else none)) := by
  unfold System.failure
  rw [hsa, hsocket]
  rfl

/-- The calls up to `bind` are the same for both kinds of socket; `rest` is what follows. -/
theorem ends_reuseport {rest : SockaddrIn → ℕ → Calls ℕ}
    (hrest : ∀ sa u, sockaddrV4 (system.resolve w) = .ok sa → system.fails w .socket = none →
      Adds t (system.asking proto w) u →
      Ends (rest sa t.next) u (fun fd u => Outcome system proto w t (.ok fd) u)
        (fun e u => Outcome system proto w t (.error e) u)) :
    Ends (do
      let sa ← (sockaddrV4 (system.resolve w) : Except String SockaddrIn)
      let fd ← socket (system.fails w .socket) proto
      setOptInt (system.sets w .reuseAddr) fd fun sock => { sock with reuseAddr := true }
      setOptInt (system.sets w .reusePort) fd fun sock => { sock with reusePort := true }
      rest sa fd) t (fun fd u => Outcome system proto w t (.ok fd) u)
      (fun e u => Outcome system proto w t (.error e) u) := by
  apply ends_bind
  apply ends_liftExcept
  · intro sa hsa
    apply ends_bind
    apply ends_socket
    · intro hsocket u hopened
      apply ends_bind
      apply ends_setOptInt hopened
      intro v hreuseAddr
      apply ends_bind
      apply ends_setOptInt hreuseAddr
      intro v hasking
      rw [asking_eq] at hasking
      exact hrest sa v hsa hsocket hasking
    · intro e he
      refine .failed ?_ rfl
      rw [System.failure, hsa, he]
      rfl
  · intro e he
    refine .failed ?_ rfl
    rw [System.failure, he]

theorem ends_reuseportTcpListener (system : System) (w : ℕ) (t : Table) :
    Ends (reuseportTcpListener system w) t
      (fun fd u => Outcome system .stream w t (.ok fd) u)
      (fun e u => Outcome system .stream w t (.error e) u) := by
  refine ends_reuseport fun sa u hsa hsocket hasking => ?_
  have hfailure := failure_of_socket .stream t.socks hsa hsocket
  apply ends_bind
  apply ends_closing
  apply ends_bind
  apply ends_bindSock hasking
  · intro e he
    refine .failed ?_ hasking.closed
    rw [hfailure, he, Option.some_or]
  · intro hbind htaken
    refine .failed ?_ hasking.closed
    rw [hfailure, hbind, htaken]
    rfl
  · intro hbind htaken v hbound
    apply ends_listen hbound
    · intro e he
      refine .failed ?_ hbound.closed
      rw [hfailure, hbind, htaken, he]
      rfl
    · intro hlisten v hserved
      refine Outcome.done ?_ hsa hserved
      rw [hfailure, hbind, htaken, hlisten]
      rfl

theorem ends_reuseportUdpSocket (system : System) (w : ℕ) (t : Table) :
    Ends (reuseportUdpSocket system w) t
      (fun fd u => Outcome system .dgram w t (.ok fd) u)
      (fun e u => Outcome system .dgram w t (.error e) u) := by
  refine ends_reuseport fun sa u hsa hsocket hasking => ?_
  have hfailure := failure_of_socket .dgram t.socks hsa hsocket
  apply ends_bind
  apply ends_closing
  apply ends_bindSock hasking
  · intro e he
    refine .failed ?_ hasking.closed
    rw [hfailure, he, Option.some_or]
  · intro hbind htaken
    refine .failed ?_ hasking.closed
    rw [hfailure, hbind, htaken]
    rfl
  · intro hbind htaken v hbound
    refine Outcome.done ?_ hsa hbound
    rw [hfailure, hbind, htaken]
    rfl

/-- **One socket.**  The calls for a worker either fail as `System.failure` says and leave the
table as it was, or add one socket. -/
theorem outcome_reuseportSocket (system : System) (proto : Proto) (w : ℕ) (t : Table) :
    Outcome system proto w t (reuseportSocket system proto w t).1
      (reuseportSocket system proto w t).2 := by
  have hends : Ends (reuseportSocket system proto w) t
      (fun fd u => Outcome system proto w t (.ok fd) u)
      (fun e u => Outcome system proto w t (.error e) u) := by
    cases proto with
    | stream => exact ends_reuseportTcpListener system w t
    | dgram => exact ends_reuseportUdpSocket system w t
  unfold Ends at hends
  cases hrun : reuseportSocket system proto w t with
  | mk result u =>
      rw [hrun] at hends
      cases result <;> exact hends

end Socket

/-! ## The address -/

/-- **The byte order is right**: the kernel reads the address and the port that were resolved. -/
theorem endpointOf_sockaddrV4 {resolved : Except String (List SocketAddr)} {sa : SockaddrIn}
    (hsa : sockaddrV4 resolved = .ok sa) :
    ∃ addrs ip port, resolved = .ok addrs ∧ firstV4 addrs = some (ip, port) ∧
      endpointOf sa.bytes = ⟨ip.toList, port.toNat⟩ := by
  cases resolved with
  | error e => cases hsa
  | ok addrs =>
      have hmatch : (match firstV4 addrs with
        | none => .error "need an IPv4 addr"
        | some (ip, port) => .ok ⟨afInet, Xdp.bswap16 port, fromNeBytes ip, .replicate 8 0⟩ :
          Except String SockaddrIn) = .ok sa := hsa
      split at hmatch
      · cases hmatch
      · rename_i ip port hfirst
        cases hmatch
        refine ⟨addrs, ip, port, rfl, hfirst, ?_⟩
        have hip : (List.range 4).map (fun i => UInt8.ofNat ((fromNeBytes ip).toNat / 256 ^ i)) =
            ip.toList := by
          have hlength : ip.toList.length = 4 := ip.length_toList
          have hlt := leValue_lt ip.toList
          have hdigits := digits_leValue ip.toList
          rw [hlength] at hlt hdigits
          rw [fromNeBytes, UInt32.toNat_ofNat_of_lt' hlt]
          exact hdigits
        -- `to_be` swaps the bytes on a little-endian host, so the higher one comes first.
        have hport : beAt (SockaddrIn.bytes ⟨afInet, Xdp.bswap16 port, fromNeBytes ip,
            .replicate 8 0⟩) 2 = port.toNat := by
          have hlt := port.toNat_lt
          show 256 * (UInt8.ofNat (Xdp.bswap16 port).toNat).toNat +
            (UInt8.ofNat ((Xdp.bswap16 port).toNat / 256)).toNat = _
          rw [UInt8.toNat_ofNat', UInt8.toNat_ofNat', Xdp.toNat_bswap16]
          have hlow : (256 * (port.toNat % 256) + port.toNat / 256) % 2 ^ 8 = port.toNat / 256 := by
            omega
          have hhigh : (256 * (port.toNat % 256) + port.toNat / 256) / 256 = port.toNat % 256 := by
            omega
          rw [hlow, hhigh]
          omega
        rw [endpointOf, hport, SockaddrIn.bytes, hip]
        congr 1
        have hlength : ip.toList.length = 4 := ip.length_toList
        simp [hlength]

/-! ## All workers -/

/-- Where the socket of worker `w` is bound, if its address was resolved. -/
def System.endpoint (system : System) (w : ℕ) : Option Endpoint :=
  match sockaddrV4 (system.resolve w) with
  | .ok sa => some (system.chosen w sa)
  | .error _ => none

/-- The sockets of the workers `ws`, whose descriptors begin with `next`. -/
def System.servedAll (system : System) (proto : Proto) (next : ℕ) :
    List ℕ → List (ℕ × Sock)
  | [] => []
  | w :: rest =>
      ((system.endpoint w).map fun endpoint => (next, system.served proto w endpoint)).toList ++
        system.servedAll proto (next + 1) rest

section All

variable {system : System} {proto : Proto} {t : Table}

theorem servedAll_cons {w : ℕ} {sa : SockaddrIn} (hsa : sockaddrV4 (system.resolve w) = .ok sa)
    (next : ℕ) (rest : List ℕ) :
    system.servedAll proto next (w :: rest) =
      (next, system.served proto w (system.chosen w sa)) ::
        system.servedAll proto (next + 1) rest := by
  rw [System.servedAll, System.endpoint, hsa]
  rfl

/-- **The loop.**  The sockets of the first workers stay, and the rest of the table is as it
was; the loop fails with the error of the first worker that has one, given the sockets before. -/
theorem openAll_spec (system : System) (proto : Proto) (ws : List ℕ) (t : Table) :
    ∃ first rest, ws = first ++ rest ∧ (∀ w ∈ first, (system.endpoint w).isSome) ∧
      (openAll system proto ws t).2.socks = t.socks ++ system.servedAll proto t.next first ∧
      match rest with
      | [] => (openAll system proto ws t).1 = .ok (List.range' t.next ws.length)
      | w :: _ => ∃ e, system.failure proto w
            (t.socks ++ system.servedAll proto t.next first) = some e ∧
          (openAll system proto ws t).1 = .error e := by
  induction ws generalizing t with
  | nil => exact ⟨[], [], rfl, by simp, (List.append_nil _).symm, rfl⟩
  | cons w ws ih =>
      obtain ⟨herror, hok⟩ := outcome_reuseportSocket system proto w t
      have hrun : openAll system proto (w :: ws) t = _ :=
        run_bind t (reuseportSocket system proto w)
          fun fd => openAll system proto ws >>= fun fds => pure (fd :: fds)
      rw [hrun]
      rcases hsock : reuseportSocket system proto w t with ⟨result, u⟩
      rw [hsock] at herror hok
      cases hfailure : system.failure proto w t.socks with
      | some e =>
          -- The socket of this worker is closed again.
          obtain ⟨hresult, hsocks⟩ := herror e hfailure
          simp only at hresult hsocks
          subst hresult
          refine ⟨[], w :: ws, rfl, by simp, hsocks.trans (List.append_nil _).symm, e, ?_, rfl⟩
          rw [System.servedAll, List.append_nil, hfailure]
      | none =>
          obtain ⟨sa, hsa, hresult, hadds⟩ := hok hfailure
          simp only at hresult hadds
          subst hresult
          obtain ⟨first, rest, rfl, hresolved, hsocks, hend⟩ := ih u
          have hserved : u.socks ++ system.servedAll proto u.next first =
              t.socks ++ system.servedAll proto t.next (w :: first) := by
            rw [servedAll_cons hsa, hadds.socks, hadds.next, List.append_assoc]
            rfl
          have hnext := run_bind u (openAll system proto (first ++ rest))
            fun fds => pure (t.next :: fds)
          simp only [hnext]
          rcases hlater : openAll system proto (first ++ rest) u with ⟨later, v⟩
          rw [hlater] at hsocks hend
          rw [hserved] at hsocks hend
          refine ⟨w :: first, rest, rfl, ?_, ?_, ?_⟩
          · refine List.forall_mem_cons.mpr ⟨?_, hresolved⟩
            rw [System.endpoint, hsa]
            rfl
          · cases later <;> exact hsocks
          · cases rest with
            | nil =>
                simp only at hend
                rw [hend, hadds.next]
                simp
                rfl
            | cons next _ =>
                obtain ⟨e, hfails, herror⟩ := hend
                simp only at herror
                rw [herror]
                exact ⟨e, hfails, rfl⟩

/-- What `socket(7)` says about `SO_REUSEPORT`: sockets that all have it set may be bound to the
same address. -/
def System.SharesReused (system : System) : Prop :=
  ∀ a b : Sock, a.reusePort = true → b.reusePort = true → system.mayShare a b = true

/-- Nothing stands in the way of worker `w`: its address is resolved, its calls do not fail, the
option is set, and so it is on the sockets that others have bound to the address. -/
structure System.Ready (system : System) (proto : Proto) (others : List (ℕ × Sock)) (w : ℕ) :
    Prop where
  resolved : (system.endpoint w).isSome
  calls : ∀ call, system.fails w call = none
  reusePort : system.sets w .reusePort = true
  shared : ∀ other ∈ others, other.2.proto = proto →
    (∃ bound ∈ other.2.bound, ∃ endpoint ∈ system.endpoint w, bound.overlaps endpoint = true) →
    other.2.reusePort = true

theorem reusePort_of_served {next : ℕ} {ws : List ℕ}
    (hsets : ∀ w ∈ ws, system.sets w .reusePort = true) :
    ∀ entry ∈ system.servedAll proto next ws, entry.2.reusePort = true := by
  induction ws generalizing next with
  | nil => simp [System.servedAll]
  | cons w rest ih =>
      intro entry hentry
      rcases List.mem_append.mp hentry with hfirst | hlater
      · obtain ⟨endpoint, -, rfl⟩ := Option.map_eq_some_iff.mp (Option.mem_toList.mp hfirst)
        exact hsets w List.mem_cons_self
      · exact ih (fun v hv => hsets v (List.mem_cons_of_mem _ hv)) entry hlater

/-- The sockets of the workers before do not keep a worker from its address. -/
theorem failure_eq_none {others : List (ℕ × Sock)} {ws : List ℕ} {w : ℕ} (next : ℕ)
    (hshares : system.SharesReused) (hready : system.Ready proto others w)
    (hsets : ∀ v ∈ ws, system.sets v .reusePort = true) :
    system.failure proto w (others ++ system.servedAll proto next ws) = none := by
  obtain ⟨endpoint, hendpoint⟩ := Option.isSome_iff_exists.mp hready.resolved
  unfold System.endpoint at hendpoint
  split at hendpoint
  · rename_i sa hsa
    cases hendpoint
    have htaken : system.taken (system.asking proto w) (system.chosen w sa)
        (others ++ system.servedAll proto next ws) = false := by
      rw [System.taken, List.any_eq_false]
      intro other hother hconflict
      simp only [Bool.and_eq_true, decide_eq_true_eq, Option.any_eq_true, Bool.not_eq_true']
        at hconflict
      obtain ⟨⟨hproto, bound, hbound, hoverlaps⟩, hshare⟩ := hconflict
      -- A socket on the same address is one of another program or one of our own workers.
      have hreused : other.2.reusePort = true := by
        rcases List.mem_append.mp hother with hforeign | hserved
        · refine hready.shared other hforeign hproto ⟨bound, hbound, system.chosen w sa, ?_,
            hoverlaps⟩
          rw [System.endpoint, hsa]
          rfl
        · exact reusePort_of_served hsets other hserved
      have hmay := hshares other.2 (system.asking proto w) hreused hready.reusePort
      rw [hmay] at hshare
      cases hshare
    rw [failure_of_socket proto _ hsa (hready.calls .socket), hready.calls .bind, htaken,
      hready.calls .listen]
    simp
  · cases hendpoint

/-- A worker that has an endpoint has the one that was resolved. -/
theorem endpoint_resolved {w : ℕ} (h : (system.endpoint w).isSome) :
    ∃ addrs ip port, system.resolve w = .ok addrs ∧ firstV4 addrs = some (ip, port) ∧
      system.endpoint w =
        some ⟨ip.toList, if port.toNat = 0 then system.ephemeral w else port.toNat⟩ := by
  obtain ⟨endpoint, hendpoint⟩ := Option.isSome_iff_exists.mp h
  unfold System.endpoint at hendpoint ⊢
  split at hendpoint
  · rename_i sa hsa
    obtain ⟨addrs, ip, port, hresolve, hfirst, hasked⟩ := endpointOf_sockaddrV4 hsa
    refine ⟨addrs, ip, port, hresolve, hfirst, ?_⟩
    simp only [System.chosen, hasked]
    split <;> rfl
  · cases hendpoint

end All

/-- The set-up of a server. -/
def server (system : System) : Proto → List ℕ → Calls (List ℕ)
  | .stream => tcpServer system
  | .dgram => udpServer system

/-- **The sockets of a server.**  Whatever fails, the first `k` workers have their sockets, bound
to the address that was resolved for them, the socket of the next one is closed, and all other
sockets of the host are as they were; the server goes on exactly if `k` is the number of workers,
and ends with the error of the next worker otherwise.  If `SO_REUSEPORT` is set everywhere and
nothing else is in the way, no worker keeps another from the address, however many they are. -/
theorem server_sockets_share_address (system : System) (proto : Proto) (cpus : List ℕ)
    (before : Table) :
    ∃ k ≤ workers cpus,
      (server system proto cpus before).2.socks =
        before.socks ++ system.servedAll proto before.next (List.range k) ∧
      (∀ w < k, ∃ addrs ip port, system.resolve w = .ok addrs ∧ firstV4 addrs = some (ip, port) ∧
        system.endpoint w =
          some ⟨ip.toList, if port.toNat = 0 then system.ephemeral w else port.toNat⟩) ∧
      (k = workers cpus →
        (server system proto cpus before).1 = .ok (List.range' before.next (workers cpus))) ∧
      (k < workers cpus → ∃ e,
        system.failure proto k (server system proto cpus before).2.socks = some e ∧
        (server system proto cpus before).1 = .error e) ∧
      (system.SharesReused → (∀ w < workers cpus, system.Ready proto before.socks w) →
        k = workers cpus) := by
  have hserver : server system proto cpus = openAll system proto (List.range (workers cpus)) := by
    cases proto <;> rfl
  rw [hserver]
  obtain ⟨first, rest, hsplit, hresolved, hsocks, hend⟩ :=
    openAll_spec system proto (List.range (workers cpus)) before
  have hlength : first.length + rest.length = workers cpus := by
    rw [← List.length_append, ← hsplit, List.length_range]
  -- The workers are numbered from 0 on, so the first of them are a range again.
  have hfirst : first = List.range first.length := by
    have htake := congrArg (List.take first.length) hsplit
    rw [List.take_left, List.take_range, Nat.min_eq_left (by omega)] at htake
    exact htake.symm
  refine ⟨first.length, by omega, by rwa [← hfirst], ?_, ?_, ?_, ?_⟩
  · intro w hw
    refine endpoint_resolved (hresolved w ?_)
    rw [hfirst]
    exact List.mem_range.mpr hw
  · intro hall
    obtain rfl : rest = [] := List.eq_nil_of_length_eq_zero (by omega)
    rw [hend, List.length_range]
  · intro hless
    cases rest with
    | nil => simp at hlength; omega
    | cons w others =>
        obtain ⟨e, hfailure, herror⟩ := hend
        have hw : w = first.length := by
          have hget := congrArg (fun list => list[first.length]?) hsplit
          simpa [hless] using hget.symm
        rw [hsocks, ← hw]
        exact ⟨e, hfailure, herror⟩
  · intro hshares hready
    cases rest with
    | nil => simpa using hlength
    | cons w others =>
        obtain ⟨e, hfailure, -⟩ := hend
        have hmem (v : ℕ) (hv : v ∈ first ++ w :: others) : v < workers cpus := by
          rw [← hsplit] at hv
          exact List.mem_range.mp hv
        have hnone := failure_eq_none before.next hshares (hready w (hmem w (by simp)))
          fun v hv => (hready v (hmem v (List.mem_append_left _ hv))).reusePort
        rw [hfailure] at hnone
        cases hnone

/-- A host that resolves the address to 1.1.1.1:5201 and lets sockets share it if both have the
option. -/
def sharingSystem : System where
  resolve _ := .ok [.v6 (.replicate 16 0) 5201, .v4 (.replicate 4 1) 5201]
  fails _ _ := none
  sets _ _ := true
  ephemeral _ := 0
  mayShare a b := a.reusePort && b.reusePort

/-- The table with a socket of another program on the same port. -/
def sharedTable : Table where
  socks := [(6, ⟨.stream, true, true, some ⟨anyIp, 5201⟩, true⟩)]
  next := 7
  fresh := by simp

theorem server_sockets_three :
    sharingSystem.SharesReused ∧ (∀ w < 3, sharingSystem.Ready .stream sharedTable.socks w) ∧
      (server sharingSystem .stream [0, 1, 2] sharedTable).1 = .ok [7, 8, 9] := by
  have hshares : sharingSystem.SharesReused := by
    intro a b ha hb
    show (a.reusePort && b.reusePort) = true
    rw [ha, hb]
    rfl
  have hready : ∀ w < 3, sharingSystem.Ready .stream sharedTable.socks w := by
    intro w _
    refine ⟨rfl, fun _ => rfl, rfl, ?_⟩
    intro other hother _ _
    rw [List.mem_singleton.mp hother]
  obtain ⟨k, -, -, -, hok, -, hall⟩ := server_sockets_share_address sharingSystem .stream [0, 1, 2]
    sharedTable
  exact ⟨hshares, hready, hok (hall hshares hready)⟩

end RunPerf.Net.Sockets
