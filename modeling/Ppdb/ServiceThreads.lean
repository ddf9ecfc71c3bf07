import Ppdb.ResourceLedgers
import Ppdb.SessionRelay
import Ppdb.Transitions

/-!
The threads of the running service, interleaved: `start_service` on the main
thread, any number of listeners, and the two forwarding threads of every
session. A step is one call of the system or one access to the shared context;
a constructor names what its thread does next.
-/

namespace Ppdb.ServiceThreads

open ErrorCodes RinetdContext SessionRelay ResourceLedgers

/-- A call of `create_forward_session` for which a slot has been found. Client
sockets are never numbered twice, so that the claim tells the sessions apart. -/
structure Claim where
  client : ℕ
  server : ℕ
  slot : ℕ
  deriving DecidableEq, Repr

/-- Where a listener stands in `listener_thread`, and in the call of
`create_forward_session` for the connection it has accepted. -/
inductive Phase
  | absent
  | creating
  | reusing
  | binding
  | listening
  /-- `while (g_context.running)` -/
  | testing
  | accepting
  | opening (client : ℕ)
  | connecting (client server : ℕ)
  /-- the flag of slot `i` is read next -/
  | scanning (client server i : ℕ)
  | storingClient (c : Claim)
  | storingServer (c : Claim)
  | activating (c : Claim)
  | startingForward (c : Claim)
  | startingBackward (c : Claim)
  | counting
  /-- `active = false` after a thread could not be created: the forward thread,
  or the backward thread, after which the other one is joined -/
  | undoing (c : Claim) (joins : Bool)
  | joining (c : Claim)
  | closingServer (client server : ℕ)
  | closingClient (client : ℕ)
  | closing
  | returned
  deriving DecidableEq, Repr

/-- A listener and the socket it listens on. -/
structure Listener where
  sock : ℕ
  phase : Phase
  deriving DecidableEq, Repr

/-- Where a thread stands in `forward_thread` or `backward_thread`. -/
inductive Point
  | readingSrc
  | readingDst
  /-- `while (session->active)` -/
  | testing
  | relaying
  | clearing
  | returned
  deriving DecidableEq, Repr

/-- A forwarding thread, with the session it was created for. -/
structure Thread where
  session : Claim
  forward : Bool
  src : ℕ
  dst : ℕ
  point : Point
  deriving DecidableEq, Repr

/-- Where the main thread stands in `start_service`. -/
inductive Starter
  | entering
  | starting (i : ℕ)
  | returned (e : ErrorCode)
  deriving DecidableEq, Repr

structure State where
  ctx : Context
  starter : Starter
  listeners : ℕ → Listener
  threads : List Thread
  sockets : Ledger

/-- Steps of the three kinds of threads, with what the system answers. -/
inductive Action
  | start (ok : Bool)
  | listen (n : ℕ) (ok : Bool)
  | forward (k : ℕ) (received : Received) (sent : Sent)
  deriving DecidableEq, Repr

/-! ### Listeners -/

def setPhase (ls : ℕ → Listener) (n : ℕ) (p : Phase) : ℕ → Listener :=
  Function.update ls n { ls n with phase := p }

namespace State

def goto (s : State) (n : ℕ) (p : Phase) : State := { s with listeners := setPhase s.listeners n p }

def setSession (s : State) (i : ℕ) (session : Session) : State :=
  { s with ctx :=
    { s.ctx with activeSessions := Function.update s.ctx.activeSessions i session } }

def close (s : State) (sock : ℕ) : State := { s with sockets := s.sockets.giveBack sock }

def spawn (s : State) (c : Claim) (forward : Bool) : State :=
  { s with threads := s.threads ++ [⟨c, forward, 0, 0, .readingSrc⟩] }

end State

/-- The next step of listener `n`. An `infra_net_connect` that fails has closed
the socket and cleared the variable; `infra_thread_join` is given the address
of the handle, and what it does is undefined. -/
def listenerStep (s : State) (n : ℕ) (ok : Bool) : Option State :=
  match (s.listeners n).phase with
  | .absent => none
  | .creating =>
    if ok then
      some { s with
        listeners := Function.update s.listeners n ⟨s.sockets.next, .reusing⟩
        sockets := s.sockets.issue }
    else some (s.goto n .returned)
  | .reusing => some (s.goto n (if ok then .binding else .closing))
  | .binding => some (s.goto n (if ok then .listening else .closing))
  | .listening => some (s.goto n (if ok then .testing else .closing))
  | .testing => some (s.goto n (if s.ctx.running then .accepting else .closing))
  | .accepting =>
    if ok then some { s.goto n (.opening s.sockets.next) with sockets := s.sockets.issue }
    else some (s.goto n .testing)
  | .opening client =>
    if ok then
      some { s.goto n (.connecting client s.sockets.next) with sockets := s.sockets.issue }
    else some (s.goto n (.closingClient client))
  | .connecting client server =>
    if ok then some (s.goto n (.scanning client server 0))
    else some ((s.close server).goto n (.closingClient client))
  | .scanning client server i =>
    if maxRules ≤ i then some (s.goto n (.closingServer client server))
    else if (s.ctx.activeSessions i).active then some (s.goto n (.scanning client server (i + 1)))
    else some (s.goto n (.storingClient ⟨client, server, i⟩))
  | .storingClient c =>
    let session := { s.ctx.activeSessions c.slot with clientSock := c.client }
    some ((s.setSession c.slot session).goto n (.storingServer c))
  | .storingServer c =>
    let session := { s.ctx.activeSessions c.slot with serverSock := c.server }
    some ((s.setSession c.slot session).goto n (.activating c))
  | .activating c =>
    let session := { s.ctx.activeSessions c.slot with active := true }
    some ((s.setSession c.slot session).goto n (.startingForward c))
  | .startingForward c =>
    if ok then
      let session := { s.ctx.activeSessions c.slot with forwardThread := s.threads.length + 1 }
      some (((s.setSession c.slot session).spawn c true).goto n (.startingBackward c))
    else some (s.goto n (.undoing c false))
  | .startingBackward c =>
    if ok then
      let session := { s.ctx.activeSessions c.slot with backwardThread := s.threads.length + 1 }
      some (((s.setSession c.slot session).spawn c false).goto n .counting)
    else some (s.goto n (.undoing c true))
  | .counting =>
    some { s.goto n .testing with
      ctx := { s.ctx with sessionCount := s.ctx.sessionCount + 1 } }
  | .undoing c joins =>
    let session := { s.ctx.activeSessions c.slot with active := false }
    some ((s.setSession c.slot session).goto n
      (if joins then .joining c else .closingServer c.client c.server))
  | .joining _ => none
  | .closingServer client server => some ((s.close server).goto n (.closingClient client))
  | .closingClient client => some ((s.close client).goto n .testing)
  | .closing => some ((s.close (s.listeners n).sock).goto n .returned)
  | .returned => none

/-! ### Forwarding threads -/

/-- A turn of the loop leaves it: a call of the network layer fails, the peer
has closed, or fewer bytes are sent than were received. -/
def breaksOff (src dst : ℕ) (received : Received) (sent : Sent) : Bool :=
  if src = 0 then false
  else
    match infraNetRecv src received with
    | (.ok, data) =>
      if data.length = 0 then true
      else if dst = 0 then false
      else
        match infraNetSend dst sent with
        | (.ok, n) => n != data.length
        | (_, _) => true
    | (_, _) => true

def threadStep (t : Thread) (session : Session) (received : Received) (sent : Sent) :
    Option (Thread × Session) :=
  match t.point with
  | .readingSrc =>
    let src := if t.forward then session.clientSock else session.serverSock
    some ({ t with src := src, point := .readingDst }, session)
  | .readingDst =>
    let dst := if t.forward then session.serverSock else session.clientSock
    some ({ t with dst := dst, point := .testing }, session)
  | .testing => some ({ t with point := if session.active then .relaying else .clearing }, session)
  | .relaying =>
    some ({ t with point := if breaksOff t.src t.dst received sent then .clearing else .testing },
      session)
  | .clearing => some ({ t with point := .returned }, { session with active := false })
  | .returned => none

def forwardStep (s : State) (k : ℕ) (received : Received) (sent : Sent) : Option State :=
  match s.threads[k]? with
  | none => none
  | some t =>
    match threadStep t (s.ctx.activeSessions t.session.slot) received sent with
    | none => none
    | some (t', session) =>
      some { s.setSession t.session.slot session with threads := s.threads.set k t' }

/-! ### The main thread -/

/-- `create_listener` for rule `i`, and the loop of `start_service` around it.
There is a new listener if an entry for its handle is free. -/
def startListener (s : State) (i : ℕ) (ok : Bool) : State :=
  match createListener s.ctx (if ok then i + 1 else 0) with
  | (ctx, .ok) =>
    let free := (List.range maxRules).any fun k => s.ctx.listenerThreads k = 0
    { s with
      ctx := ctx
      starter := .starting (i + 1)
      listeners := if free then Function.update s.listeners i ⟨0, .creating⟩ else s.listeners }
  | (ctx, e) => { s with ctx := (stopService ctx).1, starter := .returned e }

def starterStep (s : State) (ok : Bool) : Option State :=
  match s.starter with
  | .entering =>
    if s.ctx.mutex = 0 then some { s with starter := .returned .notSupported }
    else if s.ctx.running then some { s with starter := .returned .alreadyExists }
    else if s.ctx.ruleCount = 0 then some { s with starter := .returned .invalidParam }
    else some { s with starter := .starting 0 }
  | .starting i =>
    if i < s.ctx.ruleCount then
      if (s.ctx.rules i).enabled then some (startListener s i ok)
      else some { s with starter := .starting (i + 1) }
    else some { s with ctx := { s.ctx with running := true }, starter := .returned .ok }
  | .returned _ => none

def step (s : State) : Action → Option State
  | .start ok => starterStep s ok
  | .listen n ok => listenerStep s n ok
  | .forward k received sent => forwardStep s k received sent

/-! ### What the steps leave alone -/

variable {s s' : State} {a : Action} {n k : ℕ} {ok : Bool} {received : Received} {sent : Sent}

/-- Listeners and forwarding threads have no part in `start_service`. -/
structure SameService (s s' : State) : Prop where
  starter : s'.starter = s.starter
  running : s'.ctx.running = s.ctx.running
  rules : s'.ctx.rules = s.ctx.rules

def Passed : Starter → ℕ → Prop
  | .entering, _ => False
  | .starting i, n => n < i
  | .returned _, _ => True

/-- A step of `start_service` changes no rule and no socket; a listener that it
creates is that of an enabled rule, the one it comes past. -/
structure Advances (s s' : State) : Prop where
  rules : s'.ctx.rules = s.ctx.rules
  sockets : s'.sockets = s.sockets
  passed : ∀ n, Passed s.starter n → Passed s'.starter n
  listeners : s'.listeners = s.listeners ∨
    ∃ i, ¬ Passed s.starter i ∧ Passed s'.starter i ∧ (s.ctx.rules i).enabled = true ∧
      s'.listeners = Function.update s.listeners i ⟨0, .creating⟩

theorem startListener_advances {i : ℕ} (hstarter : s.starter = .starting i)
    (hon : (s.ctx.rules i).enabled = true) : Advances s (startListener s i ok) := by
  have hnot : ¬ Passed s.starter i := by
    rw [hstarter]
    exact lt_irrefl i
  unfold startListener
  rcases createListener_cases s.ctx (if ok then i + 1 else 0) with ⟨ctx, hmade, hrules, _⟩ | hfails
  · rw [hmade]
    refine ⟨hrules, rfl, ?_, ?_⟩
    · intro n hn
      rw [hstarter] at hn
      exact Nat.lt_succ_of_lt hn
    · dsimp only
      split
      · exact Or.inr ⟨i, hnot, Nat.lt_succ_self i, hon, rfl⟩
      · exact Or.inl rfl
  · rw [hfails]
    exact ⟨rules_stopService _, rfl, fun _ _ => trivial, Or.inl rfl⟩

theorem starterStep_advances (hstep : starterStep s ok = some s') : Advances s s' := by
  unfold starterStep at hstep
  cases hstarter : s.starter with
  | returned e => simp [hstarter] at hstep
  | entering =>
    have hnone : ∀ p n, Passed s.starter n → Passed p n := by
      intro p n hn
      rw [hstarter] at hn
      exact hn.elim
    simp only [hstarter] at hstep
    split at hstep
    · obtain rfl := Option.some.inj hstep
      exact ⟨rfl, rfl, hnone _, Or.inl rfl⟩
    · split at hstep
      · obtain rfl := Option.some.inj hstep
        exact ⟨rfl, rfl, hnone _, Or.inl rfl⟩
      · split at hstep
        all_goals
          obtain rfl := Option.some.inj hstep
          exact ⟨rfl, rfl, hnone _, Or.inl rfl⟩
  | starting i =>
    simp only [hstarter] at hstep
    split at hstep
    · split at hstep
      · obtain rfl := Option.some.inj hstep
        exact startListener_advances hstarter ‹_›
      · obtain rfl := Option.some.inj hstep
        refine ⟨rfl, rfl, ?_, Or.inl rfl⟩
        intro n hn
        rw [hstarter] at hn
        exact Nat.lt_succ_of_lt hn
    · obtain rfl := Option.some.inj hstep
      exact ⟨rfl, rfl, fun _ _ => trivial, Or.inl rfl⟩

/-- A step of a listener changes no other one. -/
theorem listenerStep_frame (hstep : listenerStep s n ok = some s') :
    SameService s s' ∧ ∀ m, m ≠ n → s'.listeners m = s.listeners m := by
  have hothers : ∀ {l : Listener} m, m ≠ n → Function.update s.listeners n l m = s.listeners m :=
    fun m hne => Function.update_of_ne hne _ _
  unfold listenerStep at hstep
  cases hphase : (s.listeners n).phase with
  | absent | joining c | returned => simp [hphase] at hstep
  | creating | accepting | opening client | connecting client server | startingForward c
  | startingBackward c =>
    simp only [hphase] at hstep
    split at hstep
    all_goals
      obtain rfl := Option.some.inj hstep
      exact ⟨⟨rfl, rfl, rfl⟩, hothers⟩
  | scanning client server i =>
    simp only [hphase] at hstep
    split at hstep
    · obtain rfl := Option.some.inj hstep
      exact ⟨⟨rfl, rfl, rfl⟩, hothers⟩
    · split at hstep
      all_goals
        obtain rfl := Option.some.inj hstep
        exact ⟨⟨rfl, rfl, rfl⟩, hothers⟩
  | reusing | binding | listening | testing | storingClient c | storingServer c | activating c
  | counting | undoing c joins | closingServer client server | closingClient client | closing =>
    simp only [hphase] at hstep
    obtain rfl := Option.some.inj hstep
    exact ⟨⟨rfl, rfl, rfl⟩, hothers⟩

/-- A step of a forwarding thread changes the thread and its slot. -/
theorem forwardStep_cases (hstep : forwardStep s k received sent = some s') :
    ∃ t t' session, s.threads[k]? = some t ∧
      threadStep t (s.ctx.activeSessions t.session.slot) received sent = some (t', session) ∧
      s' = { s.setSession t.session.slot session with threads := s.threads.set k t' } := by
  unfold forwardStep at hstep
  cases hthread : s.threads[k]? with
  | none => simp [hthread] at hstep
  | some t =>
    simp only [hthread] at hstep
    cases hmove : threadStep t (s.ctx.activeSessions t.session.slot) received sent with
    | none => simp [hmove] at hstep
    | some r =>
      simp only [hmove] at hstep
      exact ⟨t, r.1, r.2, rfl, hmove, (Option.some.inj hstep).symm⟩

theorem sameService_forwardStep (hstep : forwardStep s k received sent = some s') :
    SameService s s' := by
  obtain ⟨t, t', session, _, _, rfl⟩ := forwardStep_cases hstep
  exact ⟨rfl, rfl, rfl⟩

/-- A session is over for this model when it is for the relay of its bytes. -/
theorem relay_ended_cons (src dst : ℕ) (received : Received) (sent : Sent) (rest : List Turn) :
    (relay src dst (⟨true, received, sent⟩ :: rest)).ended =
      (breaksOff src dst received sent || (relay src dst rest).ended) := by
  rw [relay, breaksOff]
  by_cases hsrc : src = 0
  · simp [hsrc]
  · cases received with
    | again => simp [hsrc, infraNetRecv]
    | failed => simp [hsrc, infraNetRecv]
    | bytes data =>
      by_cases hdata : data.length = 0
      · simp [hsrc, infraNetRecv, hdata]
      · by_cases hdst : dst = 0
        · simp [hsrc, infraNetRecv, hdata, hdst]
        · cases sent with
          | again | timedOut | failed => simp [hsrc, infraNetRecv, infraNetSend, hdata, hdst]
          | accepted k =>
            by_cases hk : k = data.length
            · simp [hsrc, infraNetRecv, infraNetSend, hdata, hdst, hk]
            · simp [hsrc, infraNetRecv, infraNetSend, hdata, hdst, hk]

end Ppdb.ServiceThreads
