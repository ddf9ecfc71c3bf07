import Mathlib.Logic.Function.Basic
import Ppdb.ErrorCodes
import Ppdb.ResourceLedgers

/-!
Calls of the network layer that hand out a socket: what they leave of the
descriptors, socket structures and address strings that they acquire, for
every answer of the system calls that they make.
-/

namespace Ppdb.SocketAcquisition

open ErrorCodes ResourceLedgers

structure Socket where
  fd : ℕ
  isUdp : Bool

/-- The resources, the contents of the structures, and what the caller passes
by reference: `*sock` (or `*client`), 0 being the null pointer, and the client's
address. -/
structure State where
  fds : Ledger
  structs : Ledger
  strings : Ledger
  sockets : ℕ → Socket
  sock : ℕ
  host : ℕ
  port : ℕ

inductive Errno
  | again
  | inProgress
  | other (code : ℤ)
  deriving DecidableEq

/-- `infra_config_t.net`. The time for which `select` waits is left to its answer. -/
structure NetConfig where
  flags : BitVec 32
  readTimeoutMs : ℕ
  writeTimeoutMs : ℕ

def nonblockFlag : BitVec 32 := 1#32

def nodelayFlag : BitVec 32 := 2#32

def keepaliveFlag : BitVec 32 := 4#32

def close (fd : ℕ) (s : State) : State := { s with fds := s.fds.giveBack fd }

def freeSocket (sock : ℕ) (s : State) : State := { s with structs := s.structs.giveBack sock }

/-- `*sock = infra_malloc(sizeof(struct infra_socket))` -/
def newStruct (s : State) : State := { s with structs := s.structs.issue, sock := s.structs.next }

/-- `(*sock)->fd` becomes a new descriptor. -/
def newFd (isUdp : Bool) (s : State) : State :=
  { s with
    fds := s.fds.issue
    sockets := Function.update s.sockets s.sock ⟨s.fds.next, isUdp⟩ }

structure CreateReply where
  memory : Bool
  socket : Bool
  getFlags : Bool
  setFlags : Bool

def createSocket (isUdp nonblocking : Bool) (r : CreateReply) (s : State) : State × ErrorCode :=
  if r.memory = false then ({ s with sock := 0 }, .noMemory)
  else
    let s := newStruct s
    if r.socket = false then ({ freeSocket s.sock s with sock := 0 }, .system)
    else
      let s := newFd isUdp s
      if nonblocking then
        if r.getFlags = false then
          ({ freeSocket s.sock (close (s.sockets s.sock).fd s) with sock := 0 }, .system)
        else if r.setFlags = false then
          ({ freeSocket s.sock (close (s.sockets s.sock).fd s) with sock := 0 }, .system)
        else (s, .ok)
      else (s, .ok)

def infraNetCreate (isUdp : Bool) (config : NetConfig) (r : CreateReply) (s : State) :
    State × ErrorCode :=
  createSocket isUdp (config.flags &&& nonblockFlag ≠ 0) r s

def infraNetClose (sock : ℕ) (s : State) : State × ErrorCode :=
  if sock = 0 then (s, .invalid) else (freeSocket sock (close (s.sockets sock).fd s), .ok)

/-- `infra_net_close(*sock); *sock = NULL;` -/
def closeSock (s : State) : State := { (infraNetClose s.sock s).1 with sock := 0 }

/-- The flags of the listening socket are known by whether it is non-blocking,
`none` if they cannot be read. A connection comes with the port of its client. -/
structure AcceptReply where
  memory : Bool
  accept : Except Errno ℕ
  getFlags : Option Bool
  setFlags : Bool
  addressMemory : Bool
  ntop : Bool

def infraNetAccept (clientAddr : Bool) (r : AcceptReply) (s : State) : State × ErrorCode :=
  if r.memory = false then ({ s with sock := 0 }, .noMemory)
  else
    let s := newStruct s
    match r.accept with
    | .error errno =>
      if errno = .again then ({ freeSocket s.sock s with sock := 0 }, .wouldBlock)
      else ({ freeSocket s.sock s with sock := 0 }, .system)
    | .ok port =>
      let s := newFd false s
      if r.getFlags = some true ∧ r.setFlags = false then (closeSock s, .system)
      else if clientAddr = false then (s, .ok)
      else
        let s := { s with port := port }
        if r.addressMemory = false then (closeSock s, .noMemory)
        else
          let ipStr := s.strings.next
          let s := { s with strings := s.strings.issue }
          if r.ntop then ({ s with host := ipStr }, .ok)
          else (closeSock { s with strings := s.strings.giveBack ipStr }, .system)

def setOption (sock : ℕ) (served : Bool) : ErrorCode :=
  if sock = 0 then .invalid else if served then .ok else .system

def infraNetSetNodelay (sock : ℕ) (served : Bool) : ErrorCode := setOption sock served

def infraNetSetKeepalive (sock : ℕ) (served : Bool) : ErrorCode := setOption sock served

structure ConnectReply where
  create : CreateReply
  pton : ℤ
  connect : Option Errno
  select : ℤ
  sockError : Option ℤ
  nodelay : Bool
  keepalive : Bool
  readTimeout : Bool
  writeTimeout : Bool

def setTimeouts (config : NetConfig) (r : ConnectReply) (s : State) : State × ErrorCode :=
  if 0 < config.readTimeoutMs ∧ r.readTimeout = false then (closeSock s, .system)
  else if 0 < config.writeTimeoutMs ∧ r.writeTimeout = false then (closeSock s, .system)
  else (s, .ok)

def setOptions (config : NetConfig) (r : ConnectReply) (s : State) : State × ErrorCode :=
  let nodelay :=
    if config.flags &&& nodelayFlag ≠ 0 then infraNetSetNodelay s.sock r.nodelay else .ok
  if nodelay ≠ .ok then (closeSock s, nodelay)
  else
    let keepalive :=
      if config.flags &&& keepaliveFlag ≠ 0 then infraNetSetKeepalive s.sock r.keepalive else .ok
    if keepalive ≠ .ok then (closeSock s, keepalive)
    else setTimeouts config r s

/-- `infra_net_connect` once there is a socket -/
def connectSocket (config : NetConfig) (r : ConnectReply) (s : State) : State × ErrorCode :=
  if r.pton ≠ 1 then (if s.sock ≠ 0 then closeSock s else s, .invalid)
  else
    match r.connect with
    | none => setOptions config r s
    | some errno =>
      if errno = .inProgress ∨ errno = .again then
        if config.flags &&& nonblockFlag ≠ 0 then (s, .wouldBlock)
        else if r.select = 0 then (closeSock s, .timeout)
        else if r.select < 0 then (closeSock s, .system)
        else
          match r.sockError with
          | none => (closeSock s, .system)
          | some error => if error ≠ 0 then (closeSock s, .system) else setOptions config r s
      else (closeSock s, .system)

def infraNetConnect (config : NetConfig) (r : ConnectReply) (s : State) : State × ErrorCode :=
  if s.sock = 0 then
    match createSocket false (config.flags &&& nonblockFlag ≠ 0) r.create s with
    | (s, .ok) => connectSocket config r s
    | (s, err) => (s, err)
  else connectSocket config r s

structure UdpReply where
  create : CreateReply
  pton : ℤ
  bind : Bool

def infraNetUdpBind (r : UdpReply) (s : State) : State × ErrorCode :=
  match createSocket true false r.create s with
  | (s, .ok) =>
    if r.pton ≠ 1 then ((infraNetClose s.sock s).1, .invalid)
    else if r.bind = false then ((infraNetClose s.sock s).1, .system)
    else (s, .ok)
  | (s, err) => (s, err)

inductive Call
  | create (isUdp : Bool) (config : NetConfig) (r : CreateReply)
  | accept (clientAddr : Bool) (r : AcceptReply)
  | connect (config : NetConfig) (r : ConnectReply)
  | udpBind (r : UdpReply)

def perform (s : State) : Call → State × ErrorCode
  | .create isUdp config r => infraNetCreate isUdp config r s
  | .accept clientAddr r => infraNetAccept clientAddr r s
  | .connect config r => infraNetConnect config r s
  | .udpBind r => infraNetUdpBind r s

/-- Nothing has been given back twice so far. -/
structure Sound (s : State) : Prop where
  fds : s.fds.Sound
  structs : s.structs.Sound
  strings : s.strings.Sound

/-- The one new socket, its descriptor with it, is in `*sock`. -/
structure Opened (s s' : State) : Prop where
  sock : s'.sock ≠ 0
  structs : s.structs.Gains s'.structs s'.sock
  fds : s.fds.Gains s'.fds (s'.sockets s'.sock).fd

/-- Nothing is left of the call. -/
structure Undone (s s' : State) : Prop where
  sock : s'.sock = 0
  structs : s.structs.Released s'.structs
  fds : s.fds.Released s'.fds
  strings : s.strings.Released s'.strings

def HandsOut : Call → ErrorCode → Prop
  | .connect _ _, e => e = .ok ∨ e = .wouldBlock
  | _, e => e = .ok

def Addresses (s s' : State) : Call → Prop
  | .accept true _ => s.strings.Gains s'.strings s'.host
  | _ => s'.strings = s.strings

def CallRight (s : State) (c : Call) : Prop :=
  (HandsOut c (perform s c).2 →
    Opened s (perform s c).1 ∧ Addresses s (perform s c).1 c) ∧
  (¬ HandsOut c (perform s c).2 → Undone s (perform s c).1)

/-- A call of `infra_net_udp_bind` whose socket is created and cannot be bound. -/
def BindFails : Call → Prop
  | .udpBind r => r.create.memory = true ∧ r.create.socket = true ∧ (r.pton ≠ 1 ∨ r.bind = false)
  | _ => False

def Admitted (s : State) : Call → Prop
  | .connect _ _ => s.sock = 0
  | _ => True

variable {s t : State} {isUdp : Bool}

/-! ### A new socket -/

/-- A structure and a descriptor have been acquired since. -/
structure Fresh (s t : State) : Prop where
  fds : t.fds = s.fds.issue
  structs : t.structs = s.structs.issue
  sock : t.sock = s.structs.next
  fd : (t.sockets t.sock).fd = s.fds.next

theorem fresh_newFd (s : State) (isUdp : Bool) : Fresh s (newFd isUdp (newStruct s)) := by
  refine ⟨rfl, rfl, rfl, ?_⟩
  have hupdate := Function.update_self s.structs.next ⟨s.fds.next, isUdp⟩ s.sockets
  exact congrArg Socket.fd hupdate

theorem Fresh.sock_ne (hf : Fresh s t) : t.sock ≠ 0 := by
  rw [hf.sock]
  exact Nat.succ_ne_zero _

theorem Fresh.opened (hf : Fresh s t) (h : Sound s) : Opened s t := by
  refine ⟨hf.sock_ne, ?_, ?_⟩
  · rw [hf.structs, hf.sock]
    exact h.structs.gains_next
  · rw [hf.fds, hf.fd]
    exact h.fds.gains_next

/-- Closing the new socket and clearing the handle undoes the call. -/
theorem Fresh.undone (hf : Fresh s t) (h : Sound s) (hstrings : s.strings.Released t.strings) :
    Undone s (closeSock t) := by
  unfold closeSock infraNetClose
  rw [if_neg hf.sock_ne]
  refine ⟨rfl, ?_, ?_, hstrings⟩
  · show s.structs.Released (t.structs.giveBack t.sock)
    rw [hf.structs, hf.sock]
    exact h.structs.released_next
  · show s.fds.Released (t.fds.giveBack (t.sockets t.sock).fd)
    rw [hf.fds, hf.fd]
    exact h.fds.released_next

theorem undone_noStruct (s : State) : Undone s { s with sock := 0 } :=
  ⟨rfl, released_refl _, released_refl _, released_refl _⟩

theorem undone_noFd (h : Sound s) :
    Undone s { freeSocket (newStruct s).sock (newStruct s) with sock := 0 } :=
  ⟨rfl, h.structs.released_next, released_refl _, released_refl _⟩

/-- Either there is a new socket, or nothing is left of the attempt. -/
theorem createSocket_cases (h : Sound s) (isUdp nonblocking : Bool) (r : CreateReply) :
    createSocket isUdp nonblocking r s = (newFd isUdp (newStruct s), .ok) ∨
      ∃ s' e, e ≠ .ok ∧ e ≠ .wouldBlock ∧ Undone s s' ∧
        createSocket isUdp nonblocking r s = (s', e) := by
  have hf := fresh_newFd s isUdp
  have hundone := hf.undone h (released_refl _)
  have hclose : closeSock (newFd isUdp (newStruct s)) =
      { freeSocket (newFd isUdp (newStruct s)).sock
          (close ((newFd isUdp (newStruct s)).sockets (newFd isUdp (newStruct s)).sock).fd
            (newFd isUdp (newStruct s))) with sock := 0 } := by
    unfold closeSock infraNetClose
    rw [if_neg hf.sock_ne]
  unfold createSocket
  dsimp only
  split
  · exact Or.inr ⟨_, _, by simp, by simp, undone_noStruct s, rfl⟩
  split
  · exact Or.inr ⟨_, _, by simp, by simp, undone_noFd h, rfl⟩
  split
  · rw [← hclose]
    split
    · exact Or.inr ⟨_, _, by simp, by simp, hundone, rfl⟩
    split
    · exact Or.inr ⟨_, _, by simp, by simp, hundone, rfl⟩
    · exact Or.inl rfl
  · exact Or.inl rfl

/-! ### The calls -/

theorem setTimeouts_cases (config : NetConfig) (r : ConnectReply) (s : State) :
    setTimeouts config r s = (s, .ok) ∨
      ∃ e, e ≠ .ok ∧ e ≠ .wouldBlock ∧ setTimeouts config r s = (closeSock s, e) := by
  unfold setTimeouts
  split
  · exact Or.inr ⟨_, by simp, by simp, rfl⟩
  split
  · exact Or.inr ⟨_, by simp, by simp, rfl⟩
  · exact Or.inl rfl

theorem setOption_ne (sock : ℕ) (served : Bool) : setOption sock served ≠ .wouldBlock := by
  unfold setOption
  split
  · simp
  split
  · simp
  · simp

theorem wanted_ne (wanted : Prop) [Decidable wanted] (sock : ℕ) (served : Bool) :
    (if wanted then setOption sock served else .ok) ≠ ErrorCode.wouldBlock := by
  split
  · exact setOption_ne sock served
  · simp

theorem setOptions_cases (config : NetConfig) (r : ConnectReply) (s : State) :
    setOptions config r s = (s, .ok) ∨
      ∃ e, e ≠ .ok ∧ e ≠ .wouldBlock ∧ setOptions config r s = (closeSock s, e) := by
  unfold setOptions
  extract_lets nodelay keepalive
  have hnodelay : nodelay ≠ .wouldBlock := wanted_ne _ _ _
  have hkeepalive : keepalive ≠ .wouldBlock := wanted_ne _ _ _
  by_cases hfirst : nodelay ≠ .ok
  · rw [if_pos hfirst]
    exact Or.inr ⟨_, hfirst, hnodelay, rfl⟩
  rw [if_neg hfirst]
  by_cases hsecond : keepalive ≠ .ok
  · rw [if_pos hsecond]
    exact Or.inr ⟨_, hsecond, hkeepalive, rfl⟩
  · rw [if_neg hsecond]
    exact setTimeouts_cases config r s

/-- A socket is connected, or still connecting, or closed. -/
theorem connectSocket_cases (config : NetConfig) (r : ConnectReply) (hsock : s.sock ≠ 0) :
    (∃ e, (e = .ok ∨ e = .wouldBlock) ∧ connectSocket config r s = (s, e)) ∨
      ∃ e, e ≠ .ok ∧ e ≠ .wouldBlock ∧ connectSocket config r s = (closeSock s, e) := by
  have hoptions : (∃ e, (e = .ok ∨ e = .wouldBlock) ∧ setOptions config r s = (s, e)) ∨
      ∃ e, e ≠ .ok ∧ e ≠ .wouldBlock ∧ setOptions config r s = (closeSock s, e) :=
    (setOptions_cases config r s).imp_left fun h => ⟨_, Or.inl rfl, h⟩
  unfold connectSocket
  by_cases hpton : r.pton ≠ 1
  · rw [if_pos hpton, if_pos hsock]
    exact Or.inr ⟨_, by simp, by simp, rfl⟩
  rw [if_neg hpton]
  split
  · exact hoptions
  split
  · split
    · exact Or.inl ⟨_, Or.inr rfl, rfl⟩
    split
    · exact Or.inr ⟨_, by simp, by simp, rfl⟩
    split
    · exact Or.inr ⟨_, by simp, by simp, rfl⟩
    split
    · exact Or.inr ⟨_, by simp, by simp, rfl⟩
    split
    · exact Or.inr ⟨_, by simp, by simp, rfl⟩
    · exact hoptions
  · exact Or.inr ⟨_, by simp, by simp, rfl⟩

section Right
variable {c : Call} {e : ErrorCode}

theorem callRight_of_opened (hrun : perform s c = (t, e)) (hout : HandsOut c e)
    (hopened : Opened s t) (haddress : Addresses s t c) : CallRight s c := by
  unfold CallRight
  rw [hrun]
  exact ⟨fun _ => ⟨hopened, haddress⟩, fun hno => absurd hout hno⟩

theorem callRight_of_undone (hrun : perform s c = (t, e)) (hnot : ¬ HandsOut c e)
    (hundone : Undone s t) : CallRight s c := by
  unfold CallRight
  rw [hrun]
  exact ⟨fun hout => absurd hout hnot, fun _ => hundone⟩

end Right

theorem create_right (h : Sound s) (isUdp : Bool) (config : NetConfig) (r : CreateReply) :
    CallRight s (.create isUdp config r) := by
  rcases createSocket_cases h isUdp (config.flags &&& nonblockFlag ≠ 0) r with
    heq | ⟨s', e, hok, _, hundone, heq⟩
  · exact callRight_of_opened heq rfl ((fresh_newFd s isUdp).opened h) rfl
  · exact callRight_of_undone heq hok hundone

theorem connect_right (h : Sound s) (config : NetConfig) (r : ConnectReply) (hnull : s.sock = 0) :
    CallRight s (.connect config r) := by
  have hf := fresh_newFd s false
  have hcall : perform s (.connect config r) = infraNetConnect config r s := rfl
  unfold infraNetConnect at hcall
  rw [if_pos hnull] at hcall
  rcases createSocket_cases h false (config.flags &&& nonblockFlag ≠ 0) r.create with
    heq | ⟨s', e, hok, hblock, hundone, heq⟩
  · rw [heq] at hcall
    dsimp only at hcall
    rcases connectSocket_cases config r hf.sock_ne with ⟨e, he, hrun⟩ | ⟨e, hok, hblock, hrun⟩
    · exact callRight_of_opened (hcall.trans hrun) he (hf.opened h) rfl
    · exact callRight_of_undone (hcall.trans hrun) (not_or.mpr ⟨hok, hblock⟩)
        (hf.undone h (released_refl _))
  · rw [heq] at hcall
    have hrun : perform s (.connect config r) = (s', e) := by
      cases e with
      | ok => exact absurd rfl hok
      | _ => exact hcall
    exact callRight_of_undone hrun (not_or.mpr ⟨hok, hblock⟩) hundone

theorem accept_right (h : Sound s) (clientAddr : Bool) (r : AcceptReply) :
    CallRight s (.accept clientAddr r) := by
  have hf := fresh_newFd s false
  have hcall : perform s (.accept clientAddr r) = infraNetAccept clientAddr r s := rfl
  unfold infraNetAccept at hcall
  by_cases hmemory : r.memory = false
  · rw [if_pos hmemory] at hcall
    exact callRight_of_undone hcall (by simp [HandsOut]) (undone_noStruct s)
  rw [if_neg hmemory] at hcall
  cases haccept : r.accept with
  | error errno =>
    rw [haccept] at hcall
    dsimp only at hcall
    by_cases hagain : errno = .again
    · rw [if_pos hagain] at hcall
      exact callRight_of_undone hcall (by simp [HandsOut]) (undone_noFd h)
    · rw [if_neg hagain] at hcall
      exact callRight_of_undone hcall (by simp [HandsOut]) (undone_noFd h)
  | ok port =>
    rw [haccept] at hcall
    dsimp only at hcall
    by_cases hflags : r.getFlags = some true ∧ r.setFlags = false
    · rw [if_pos hflags] at hcall
      exact callRight_of_undone hcall (by simp [HandsOut]) (hf.undone h (released_refl _))
    rw [if_neg hflags] at hcall
    cases clientAddr with
    | false => exact callRight_of_opened hcall rfl (hf.opened h) rfl
    | true =>
      rw [if_neg (by simp)] at hcall
      by_cases haddress : r.addressMemory = false
      · rw [if_pos haddress] at hcall
        refine callRight_of_undone hcall (by simp [HandsOut]) ?_
        exact Fresh.undone ⟨hf.fds, hf.structs, hf.sock, hf.fd⟩ h (released_refl _)
      rw [if_neg haddress] at hcall
      by_cases hntop : r.ntop = true
      · rw [if_pos hntop] at hcall
        refine callRight_of_opened hcall rfl ?_ h.strings.gains_next
        exact Fresh.opened ⟨hf.fds, hf.structs, hf.sock, hf.fd⟩ h
      · rw [if_neg hntop] at hcall
        refine callRight_of_undone hcall (by simp [HandsOut]) ?_
        exact Fresh.undone ⟨hf.fds, hf.structs, hf.sock, hf.fd⟩ h h.strings.released_next

/-! ### The call that forgets the handle -/

theorem createSocket_ok {nonblocking : Bool} {r : CreateReply}
    (hok : (createSocket isUdp nonblocking r s).2 = .ok) : r.memory = true ∧ r.socket = true := by
  unfold createSocket at hok
  by_cases hmemory : r.memory = false
  · rw [if_pos hmemory] at hok
    cases hok
  rw [if_neg hmemory] at hok
  dsimp only at hok
  by_cases hsocket : r.socket = false
  · rw [if_pos hsocket] at hok
    cases hok
  · exact ⟨by simpa using hmemory, by simpa using hsocket⟩

theorem createSocket_blocking {r : CreateReply} (hmemory : r.memory = true)
    (hsocket : r.socket = true) :
    createSocket isUdp false r s = (newFd isUdp (newStruct s), .ok) := by
  unfold createSocket
  rw [if_neg (by simp [hmemory])]
  dsimp only
  rw [if_neg (by simp [hsocket])]
  rfl

theorem udpBind_right (h : Sound s) {r : UdpReply} (hbinds : ¬ BindFails (.udpBind r)) :
    CallRight s (.udpBind r) := by
  have hf := fresh_newFd s true
  have hcall : perform s (.udpBind r) = infraNetUdpBind r s := rfl
  unfold infraNetUdpBind at hcall
  rcases createSocket_cases h true false r.create with heq | ⟨s', e, hok, _, hundone, heq⟩
  · have hcreated := createSocket_ok (congrArg Prod.snd heq)
    have hbound : r.pton = 1 ∧ r.bind = true := by
      by_contra hnot
      refine hbinds ⟨hcreated.1, hcreated.2, ?_⟩
      by_cases hpton : r.pton = 1
      · exact Or.inr (by simpa [hpton] using hnot)
      · exact Or.inl hpton
    rw [heq] at hcall
    dsimp only at hcall
    rw [if_neg (by simp [hbound.1]), if_neg (by simp [hbound.2])] at hcall
    exact callRight_of_opened hcall rfl (hf.opened h) rfl
  · rw [heq] at hcall
    have hrun : perform s (.udpBind r) = (s', e) := by
      cases e with
      | ok => exact absurd rfl hok
      | _ => exact hcall
    exact callRight_of_undone hrun hok hundone

/-- The socket is closed and `*sock` still holds it. -/
theorem udpBind_keeps {r : UdpReply} (hfails : BindFails (.udpBind r)) :
    ∃ e, e ≠ .ok ∧ perform s (.udpBind r) =
      ((infraNetClose s.structs.next (newFd true (newStruct s))).1, e) := by
  obtain ⟨hmemory, hsocket, hfails⟩ := hfails
  have hcall : perform s (.udpBind r) = infraNetUdpBind r s := rfl
  unfold infraNetUdpBind at hcall
  rw [createSocket_blocking hmemory hsocket] at hcall
  dsimp only at hcall
  by_cases hpton : r.pton ≠ 1
  · rw [if_pos hpton] at hcall
    exact ⟨_, by simp, hcall⟩
  · rw [if_neg hpton, if_pos (hfails.resolve_left hpton)] at hcall
    exact ⟨_, by simp, hcall⟩

theorem udpBind_wrong {r : UdpReply} (hfails : BindFails (.udpBind r)) :
    ¬ CallRight s (.udpBind r) := by
  intro hright
  obtain ⟨e, hne, hrun⟩ := udpBind_keeps (s := s) hfails
  have hundone := hright.2
  rw [hrun] at hundone
  have hsock := (hundone hne).sock
  have hnext : s.structs.next ≠ 0 := Nat.succ_ne_zero _
  unfold infraNetClose at hsock
  rw [if_neg hnext] at hsock
  exact absurd hsock hnext

/-- Every call hands out its one new socket or leaves nothing behind, unless it
is one of `infra_net_udp_bind` whose new socket cannot be bound. -/
theorem socketCallRight_iff (h : Sound s) (c : Call) (hadmitted : Admitted s c) :
    CallRight s c ↔ ¬ BindFails c := by
  cases c with
  | create isUdp config r => exact ⟨fun _ => id, fun _ => create_right h isUdp config r⟩
  | accept clientAddr r => exact ⟨fun _ => id, fun _ => accept_right h clientAddr r⟩
  | connect config r => exact ⟨fun _ => id, fun _ => connect_right h config r hadmitted⟩
  | udpBind r => exact ⟨fun hright hfails => udpBind_wrong hfails hright, udpBind_right h⟩

/-! ### A process without sockets -/

def noSockets : State := ⟨Ledger.empty, Ledger.empty, Ledger.empty, fun _ => ⟨0, false⟩, 0, 0, 0⟩

theorem sound_noSockets : Sound noSockets := ⟨sound_empty, sound_empty, sound_empty⟩

def refused : ConnectReply :=
  ⟨⟨true, true, true, true⟩, 1, some (.other 111), 0, none, true, true, true, true⟩

theorem socketCallRight_iff_refused : CallRight noSockets (.connect ⟨0, 0, 0⟩ refused) :=
  (socketCallRight_iff sound_noSockets (.connect ⟨0, 0, 0⟩ refused) rfl).mpr id

/-- A port that is in use, and a caller that closes the socket it is left with:
the descriptor is closed and the structure freed a second time. -/
theorem closed_twice :
    let r : UdpReply := ⟨⟨true, true, true, true⟩, 1, false⟩
    let s := (perform noSockets (.udpBind r)).1
    (perform noSockets (.udpBind r)).2 = .system ∧ s.sock = 1 ∧ ¬ CallRight noSockets (.udpBind r) ∧
      (infraNetClose s.sock s).1.fds.returned = [1, 1] ∧
      (infraNetClose s.sock s).1.structs.returned = [1, 1] :=
  ⟨rfl, rfl, udpBind_wrong ⟨rfl, rfl, Or.inr rfl⟩, rfl, rfl⟩

end Ppdb.SocketAcquisition
