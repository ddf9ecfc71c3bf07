import Ppdb.RinetdContext
import Ppdb.ResourceLedgers
import Ppdb.SocketAcquisition
import Mathlib.Data.Finset.Card
import Mathlib.Data.List.Flatten

/-!
Forwarding sessions, one event after another: a listener accepts a connection
and `create_forward_session` takes one of its exits, a forwarding thread leaves
its loop, the service is stopped. Sockets are numbered in the order in which
they are opened, 0 being `NULL`, and a ledger keeps what becomes of them.
-/

namespace Ppdb.ForwardSessions

open ErrorCodes RinetdContext ResourceLedgers

/-- A running `forward_thread` or `backward_thread`: its handle and the slot of
the session it was given. -/
structure Thread where
  handle : ℕ
  slot : ℕ
  deriving DecidableEq, Repr

/-- The context, the running threads, the number of threads created so far and
the sockets. -/
structure Service where
  ctx : Context
  threads : List Thread
  created : ℕ
  sockets : Ledger

/-- Which of the calls of `create_forward_session` succeed. -/
structure Reply where
  server : Bool
  connect : Bool
  forward : Bool
  backward : Bool
  deriving DecidableEq, Repr

def infraNetClose (sock : ℕ) (l : Ledger) : Ledger := if sock = 0 then l else l.giveBack sock

/-- The number of a socket is that of its structure. -/
theorem structs_infraNetClose (sock : ℕ) (s : SocketAcquisition.State) :
    (SocketAcquisition.infraNetClose sock s).1.structs = infraNetClose sock s.structs := by
  unfold SocketAcquisition.infraNetClose infraNetClose
  split
  · rfl
  · rfl

def freeSlot (ctx : Context) : Option ℕ :=
  (List.range maxRules).find? fun i => !(ctx.activeSessions i).active

def Service.setSession (s : Service) (i : ℕ) (session : Session) : Service :=
  { s with ctx :=
    { s.ctx with activeSessions := Function.update s.ctx.activeSessions i session } }

def Service.spawn (s : Service) (i : ℕ) : Service :=
  { s with threads := s.threads ++ [⟨s.created + 1, i⟩], created := s.created + 1 }

/-- What `create_forward_session` does with the slot it has found. -/
def startSession (r : Reply) (client server i : ℕ) (s : Service) :
    Except Stop (Service × Option ℕ) :=
  let session :=
    { s.ctx.activeSessions i with clientSock := client, serverSock := server, active := true }
  if r.forward = false then
    let s := s.setSession i { session with active := false }
    .ok ({ s with sockets := infraNetClose server s.sockets }, none)
  else
    let session := { session with forwardThread := s.created + 1 }
    let s := (s.setSession i session).spawn i
    -- `infra_thread_join` is given the address of the handle
    if r.backward = false then .error .badJoin
    else
      let session := { session with backwardThread := s.created + 1 }
      let s := (s.setSession i session).spawn i
      .ok ({ s with ctx := { s.ctx with sessionCount := s.ctx.sessionCount + 1 } }, some i)

/-- With the slot of the session, or `none` for `NULL`. An `infra_net_connect`
that fails has closed the socket and cleared the variable. -/
def createForwardSession (r : Reply) (client : ℕ) (s : Service) :
    Except Stop (Service × Option ℕ) :=
  if client = 0 then .ok (s, none)
  else if r.server = false then .ok (s, none)
  else
    let server := s.sockets.next
    let s := { s with sockets := s.sockets.issue }
    if r.connect = false then
      .ok ({ s with sockets := infraNetClose 0 (infraNetClose server s.sockets) }, none)
    else
      match freeSlot s.ctx with
      | none => .ok ({ s with sockets := infraNetClose server s.sockets }, none)
      | some i => startSession r client server i s

/-- A turn of the loop of `listener_thread` that accepts a connection. -/
def acceptClient (r : Reply) (s : Service) : Except Stop Service :=
  let client := s.sockets.next
  match createForwardSession r client { s with sockets := s.sockets.issue } with
  | .error stop => .error stop
  | .ok (s, none) => .ok { s with sockets := infraNetClose client s.sockets }
  | .ok (s, some _) => .ok s

/-- A forwarding thread stores `active = false` and returns. -/
def endThread (s : Service) (k : ℕ) : Service :=
  match s.threads[k]? with
  | none => s
  | some t =>
    let s := s.setSession t.slot { s.ctx.activeSessions t.slot with active := false }
    { s with threads := s.threads.eraseIdx k }

def closeSession (l : Ledger) (session : Session) : Ledger :=
  if session.active then infraNetClose session.serverSock (infraNetClose session.clientSock l)
  else l

def isJoined (ctx : Context) (t : Thread) : Bool :=
  (List.range maxRules).any fun i =>
    (ctx.activeSessions i).active &&
      ((ctx.activeSessions i).forwardThread = t.handle ||
        (ctx.activeSessions i).backwardThread = t.handle)

/-- `stop_service`, with the threads and sockets of the sessions. -/
def stopSessions (s : Service) : Service × ErrorCode :=
  match RinetdContext.stopService s.ctx with
  | (ctx, .ok) =>
    ({ s with
      ctx := ctx
      threads := s.threads.filter fun t => !isJoined s.ctx t
      sockets := ((List.range maxRules).map s.ctx.activeSessions).foldl closeSession s.sockets },
      .ok)
  | (_, e) => (s, e)

/-- Connections are accepted as long as the service is running. -/
inductive Event
  | accept (r : Reply)
  | finish (k : ℕ)
  | stop
  deriving DecidableEq, Repr

def perform (s : Service) : Event → Except Stop Service
  | .accept r => if s.ctx.running then acceptClient r s else .ok s
  | .finish k => .ok (endThread s k)
  | .stop => .ok (stopSessions s).1

/-! ### What an event does -/

variable {s s' : Service} {r : Reply} {i j k : ℕ}

/-- The failure of `create_forward_session` after which it joins with a value
that is no thread. -/
def Faults (s : Service) (r : Reply) : Prop :=
  r.server = true ∧ r.connect = true ∧ (∃ i, freeSlot s.ctx = some i) ∧ r.forward = true ∧
    r.backward = false

/-- The active flags, the active sessions and the counter are as before, and
what was opened has been closed again. -/
structure Refused (s s' : Service) : Prop where
  running : s'.ctx.running = s.ctx.running
  mutex : s'.ctx.mutex = s.ctx.mutex
  count : s'.ctx.sessionCount = s.ctx.sessionCount
  flags : ∀ i, (s'.ctx.activeSessions i).active = (s.ctx.activeSessions i).active
  sessions : ∀ i, (s.ctx.activeSessions i).active = true →
    s'.ctx.activeSessions i = s.ctx.activeSessions i
  threads : s'.threads = s.threads
  sockets : s'.sockets = s.sockets.issue.giveBack s.sockets.next ∨
    s'.sockets =
      (s.sockets.issue.issue.giveBack s.sockets.issue.next).giveBack s.sockets.next

/-- The session has been started in slot `i`. -/
structure Served (s s' : Service) (i : ℕ) : Prop where
  running : s'.ctx.running = s.ctx.running
  mutex : s'.ctx.mutex = s.ctx.mutex
  count : s'.ctx.sessionCount = s.ctx.sessionCount + 1
  active : (s'.ctx.activeSessions i).active = true
  client : (s'.ctx.activeSessions i).clientSock = s.sockets.next
  server : (s'.ctx.activeSessions i).serverSock = s.sockets.issue.next
  others : ∀ j, j ≠ i → s'.ctx.activeSessions j = s.ctx.activeSessions j
  threads : ∀ t ∈ s'.threads, t ∈ s.threads ∨ t.slot = i
  sockets : s'.sockets = s.sockets.issue.issue

theorem next_ne_zero (l : Ledger) : l.next ≠ 0 := Nat.succ_ne_zero _

theorem freeSlot_some (h : freeSlot s.ctx = some i) :
    i < maxRules ∧ (s.ctx.activeSessions i).active = false := by
  unfold freeSlot at h
  constructor
  · exact List.mem_range.mp (List.mem_of_find?_eq_some h)
  · simpa using List.find?_some h

/-- The connection is not served, and no slot has been touched. -/
theorem Refused.of_sockets {l : Ledger} (hl : l = s.sockets.issue.giveBack s.sockets.next ∨
    l = (s.sockets.issue.issue.giveBack s.sockets.issue.next).giveBack s.sockets.next) :
    Refused s { s with sockets := l } :=
  ⟨rfl, rfl, rfl, fun _ => rfl, fun _ _ => rfl, rfl, hl⟩

/-- The slot of a session that was undone stays inactive. -/
theorem Refused.undone {session : Session} (hidle : (s.ctx.activeSessions i).active = false)
    (hundone : session.active = false) : Refused s
      { s.setSession i session with
        sockets :=
          (s.sockets.issue.issue.giveBack s.sockets.issue.next).giveBack s.sockets.next } := by
  refine ⟨rfl, rfl, rfl, ?_, ?_, rfl, Or.inr rfl⟩
  · intro j
    rcases eq_or_ne j i with rfl | hne
    · simp [Service.setSession, hidle, hundone]
    · simp [Service.setSession, hne]
  · intro j hactive
    have hne : j ≠ i := by
      rintro rfl
      rw [hidle] at hactive
      cases hactive
    simp [Service.setSession, hne]

def Service.started (s : Service) (client server i : ℕ) : Service :=
  { s with
    ctx :=
      { s.ctx with
        activeSessions := Function.update s.ctx.activeSessions i
          ⟨client, server, s.created + 1, s.created + 1 + 1, true⟩
        sessionCount := s.ctx.sessionCount + 1 }
    threads := s.threads ++ [⟨s.created + 1, i⟩] ++ [⟨s.created + 1 + 1, i⟩]
    created := s.created + 1 + 1 }

theorem Served.started (s : Service) (i : ℕ) : Served s ({ s with
    sockets := s.sockets.issue.issue }.started s.sockets.next s.sockets.issue.next i) i := by
  refine ⟨rfl, rfl, rfl, ?_, ?_, ?_, ?_, ?_, rfl⟩
  · simp [Service.started]
  · simp [Service.started]
  · simp [Service.started]
  · intro j hne
    simp [Service.started, hne]
  · intro t ht
    simp only [Service.started, List.mem_append, List.mem_singleton] at ht
    rcases ht with (ht | rfl) | rfl
    · exact Or.inl ht
    · exact Or.inr rfl
    · exact Or.inr rfl

/-- The exits of `startSession`. -/
theorem startSession_cases (r : Reply) (client server i : ℕ) (s : Service) :
    (r.forward = true ∧ r.backward = false ∧
      startSession r client server i s = .error .badJoin) ∨
    (r.forward = false ∧ startSession r client server i s =
      .ok ({ s.setSession i
          { s.ctx.activeSessions i with
            clientSock := client
            serverSock := server
            active := false } with
        sockets := infraNetClose server s.sockets }, none)) ∨
    (r.backward = true ∧
      startSession r client server i s = .ok (s.started client server i, some i)) := by
  unfold startSession
  cases hforward : r.forward with
  | false =>
    right
    left
    exact ⟨rfl, if_pos rfl⟩
  | true =>
    cases hbackward : r.backward with
    | false =>
      left
      refine ⟨rfl, rfl, ?_⟩
      simp
    | true =>
      right
      right
      refine ⟨rfl, ?_⟩
      simp [Service.setSession, Service.spawn, Service.started]

/-- The exits of a turn of the listener. -/
theorem acceptClient_cases (s : Service) (r : Reply) :
    (Faults s r ∧ acceptClient r s = .error .badJoin) ∨
    (¬ Faults s r ∧ ∃ s', acceptClient r s = .ok s' ∧ Refused s s') ∨
    ∃ i, ¬ Faults s r ∧ freeSlot s.ctx = some i ∧ ∃ s', acceptClient r s = .ok s' ∧
      Served s s' i := by
  have hclient := next_ne_zero s.sockets
  have hserver := next_ne_zero s.sockets.issue
  cases hopened : r.server with
  | false =>
    right
    left
    refine ⟨by simp [Faults, hopened], _, ?_, Refused.of_sockets (Or.inl rfl)⟩
    simp [acceptClient, createForwardSession, hopened, hclient, infraNetClose]
  | true =>
  cases hconnect : r.connect with
  | false =>
    right
    left
    refine ⟨by simp [Faults, hconnect], _, ?_, Refused.of_sockets (Or.inr rfl)⟩
    simp [acceptClient, createForwardSession, hopened, hconnect, hclient, hserver, infraNetClose]
  | true =>
  cases hfree : freeSlot s.ctx with
  | none =>
    right
    left
    refine ⟨by simp [Faults, hfree], _, ?_, Refused.of_sockets (Or.inr rfl)⟩
    simp [acceptClient, createForwardSession, hopened, hconnect, hfree, hclient, hserver,
      infraNetClose]
  | some i =>
  have hopen : createForwardSession r s.sockets.next { s with sockets := s.sockets.issue } =
      startSession r s.sockets.next s.sockets.issue.next i
        { s with sockets := s.sockets.issue.issue } := by
    simp [createForwardSession, hopened, hconnect, hfree, hclient]
  obtain ⟨_, hidle⟩ := freeSlot_some hfree
  rcases startSession_cases r s.sockets.next s.sockets.issue.next i
    { s with sockets := s.sockets.issue.issue } with
    ⟨hforward, hbackward, hrun⟩ | ⟨hforward, hrun⟩ | ⟨hbackward, hrun⟩
  · left
    refine ⟨⟨hopened, hconnect, ⟨i, hfree⟩, hforward, hbackward⟩, ?_⟩
    simp only [acceptClient, hopen, hrun]
  · right
    left
    have hundone : Session.active
        { s.ctx.activeSessions i with
          clientSock := s.sockets.next
          serverSock := s.sockets.issue.next
          active := false } = false := rfl
    refine ⟨by simp [Faults, hforward], _, ?_, Refused.undone hidle hundone⟩
    simp only [acceptClient, hopen, hrun]
    simp [infraNetClose, hclient, hserver, Service.setSession]
  · right
    right
    refine ⟨i, by simp [Faults, hbackward], rfl, _, ?_, Served.started s i⟩
    simp only [acceptClient, hopen, hrun]

end Ppdb.ForwardSessions
