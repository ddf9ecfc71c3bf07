import Ppdb.CStrings
import Ppdb.ErrorCodes
import Ppdb.Multiplexer
import Mathlib.Logic.Function.Basic

/-!
The forwarding service: its context, the table of rules, and the entry points
that one thread calls in turn. Handles are addresses, 0 is `NULL`. What the
system answers is an argument: the handles it gives, 0 where it fails.
-/

namespace Ppdb.RinetdContext

open CStrings ErrorCodes

def maxRules : ℕ := 32

def maxAddrLen : ℕ := 64

/-- An array of `RINETD_MAX_ADDR_LEN` characters that holds a string. -/
structure Address where
  bytes : List UInt8
  length_eq : bytes.length = maxAddrLen
  terminated : 0 ∈ bytes
  deriving DecidableEq

structure Rule where
  srcAddr : Address
  srcPort : ℤ
  dstAddr : Address
  dstPort : ℤ
  enabled : Bool
  deriving DecidableEq

structure Session where
  clientSock : ℕ
  serverSock : ℕ
  forwardThread : ℕ
  backwardThread : ℕ
  active : Bool
  deriving DecidableEq, Repr

/-- `rinetd_context_t` without the path of the configuration, which nothing
reads. The arrays have `RINETD_MAX_RULES` entries. -/
structure Context where
  running : Bool
  rules : ℕ → Rule
  ruleCount : ℕ
  mux : ℕ
  mutex : ℕ
  listenerThreads : ℕ → ℕ
  activeSessions : ℕ → Session
  sessionCount : ℤ

def Address.zero : Address where
  bytes := List.replicate maxAddrLen 0
  length_eq := List.length_replicate
  terminated := by decide

def Rule.zero : Rule := ⟨Address.zero, 0, Address.zero, 0, false⟩

def Session.zero : Session := ⟨0, 0, 0, 0, false⟩

def Context.zero : Context where
  running := false
  rules := fun _ => Rule.zero
  ruleCount := 0
  mux := 0
  mutex := 0
  listenerThreads := fun _ => 0
  activeSessions := fun _ => Session.zero
  sessionCount := 0

/-! ### Rules -/

def sameSource (r rule : Rule) : Bool :=
  r.srcPort = rule.srcPort && strcmp r.srcAddr.bytes rule.srcAddr.bytes = 0

def isDuplicate (ctx : Context) (rule : Rule) : Bool :=
  (List.range ctx.ruleCount).any fun i => (ctx.rules i).enabled && sameSource (ctx.rules i) rule

def rinetdAddRule (ctx : Context) (rule : Option Rule) : Context × ErrorCode :=
  match rule with
  | none => (ctx, .invalidParam)
  | some rule =>
    if maxRules ≤ ctx.ruleCount then (ctx, .noMemory)
    else if isDuplicate ctx rule then (ctx, .existing)
    else
      ({ ctx with
        rules := Function.update ctx.rules ctx.ruleCount rule
        ruleCount := ctx.ruleCount + 1 }, .ok)

def rinetdRemoveRule (ctx : Context) (index : ℤ) : Context × ErrorCode :=
  if index < 0 ∨ (ctx.ruleCount : ℤ) ≤ index then (ctx, .invalidParam)
  else if ctx.running then (ctx, .busy)
  else
    let i := index.toNat
    ({ ctx with
      rules := Function.update ctx.rules i { ctx.rules i with enabled := false }
      ruleCount := if i + 1 = ctx.ruleCount then ctx.ruleCount - 1 else ctx.ruleCount }, .ok)

/-! ### The life of the service -/

/-- What the C library leaves undefined. -/
inductive Stop
  /-- `free` of an address that `malloc` never returned -/
  | badFree
  /-- a lock on memory that holds no mutex -/
  | badLock
  /-- a join with a value that is no thread -/
  | badJoin
  deriving DecidableEq, Repr

def infraMutexCreate (handle : ℕ) : ErrorCode × ℕ :=
  if handle = 0 then (.system, 0) else (.ok, handle)

/-- What `infra_mux_epoll_create` gets: memory for the multiplexer, its
implementation and the events, and the descriptor of the epoll instance. -/
structure MuxReply where
  mux : ℕ
  impl : ℕ
  epollFd : ℤ
  events : ℕ
  deriving DecidableEq, Repr

def infraMuxEpollCreate {α : Type} (config : Option α) (r : MuxReply) : ErrorCode × ℕ :=
  match config with
  | none => (.invalidParam, 0)
  | some _ =>
    if r.mux = 0 then (.noMemory, 0)
    else if r.impl = 0 then (.noMemory, 0)
    else if r.epollFd < 0 then (.system, 0)
    else if r.events = 0 then (.noMemory, 0)
    else (.ok, r.mux)

/-- Apart from its address the multiplexer is the one of `Multiplexer`. -/
theorem infraMuxEpollCreate_eq (config : Option Multiplexer.MuxConfig) (r : MuxReply)
    {epollFd : BitVec 32} (hfd : r.epollFd = epollFd.toInt) :
    infraMuxEpollCreate config r =
      match Multiplexer.infraMuxEpollCreate ⟨r.mux ≠ 0, r.impl ≠ 0, epollFd, r.events ≠ 0⟩ config with
      | .ok _ => (.ok, r.mux)
      | .error e => (e, 0) := by
  cases config with
  | none => rfl
  | some config =>
    unfold infraMuxEpollCreate Multiplexer.infraMuxEpollCreate
    by_cases hmux : r.mux = 0
    · simp [hmux]
    · by_cases himpl : r.impl = 0
      · simp [hmux, himpl]
      · by_cases hneg : epollFd.toInt < 0
        · simp [hmux, himpl, hfd, hneg]
        · by_cases hevents : r.events = 0
          · simp [hmux, himpl, hfd, hneg, hevents]
          · simp [hmux, himpl, hfd, hneg, hevents]

def infraMuxCreate {α : Type} (config : Option α) (r : MuxReply) : ErrorCode × ℕ :=
  match config with
  | none => (.invalidParam, 0)
  | some c => infraMuxEpollCreate (some c) r

/-- The multiplexer is created without a configuration. On failure
`infra_mutex_destroy` is given the address of `g_context.mutex`, a static
object, and frees it. -/
def rinetdInit (ctx : Context) (mutex : ℕ) (r : MuxReply) : Except Stop (Context × ErrorCode) :=
  if ctx.mutex ≠ 0 then .ok (ctx, .alreadyExists)
  else
    match infraMutexCreate mutex with
    | (.ok, mutex) =>
      match infraMuxCreate (none : Option Unit) r with
      | (.ok, mux) => .ok ({ Context.zero with mutex := mutex, mux := mux }, .ok)
      | (_, _) => .error .badFree
    | (e, _) => .ok (Context.zero, e)

/-- `cleanup_forward_session` locks `&g_context.mutex`, the variable in which
the handle is kept. -/
def cleanupSessionList (ctx : Context) : Except Stop Context :=
  if 0 < ctx.sessionCount then .error .badLock
  else .ok { ctx with activeSessions := fun _ => Session.zero, sessionCount := 0 }

def rinetdCleanup (ctx : Context) : Except Stop (Context × ErrorCode) :=
  if ctx.running then .ok (ctx, .busy)
  else
    match cleanupSessionList ctx with
    | .error stop => .error stop
    | .ok _ => .ok (Context.zero, .ok)

def rinetdLoadConfig (ctx : Context) (path : Option String) : ErrorCode :=
  match path with
  | none => .invalidParam
  | some _ => if ctx.mutex = 0 then .notSupported else .ok

def parseConfigFile (ctx : Context) (path : Option String) : ErrorCode :=
  match path with
  | none => .invalidParam
  | some path => if ctx.running then .busy else rinetdLoadConfig ctx (some path)

/-- The handle is stored in the first free entry; with none free there is no thread. -/
def createListener (ctx : Context) (handle : ℕ) : Context × ErrorCode :=
  match (List.range maxRules).find? fun i => ctx.listenerThreads i = 0 with
  | none => (ctx, .ok)
  | some i =>
    if handle = 0 then (ctx, .system)
    else ({ ctx with listenerThreads := Function.update ctx.listenerThreads i handle }, .ok)

theorem createListener_cases (ctx : Context) (handle : ℕ) :
    (∃ ctx', createListener ctx handle = (ctx', .ok) ∧ ctx'.rules = ctx.rules ∧
      ctx'.ruleCount = ctx.ruleCount) ∨ createListener ctx handle = (ctx, .system) := by
  unfold createListener
  split
  · exact Or.inl ⟨ctx, rfl, rfl, rfl⟩
  · split
    · exact Or.inr rfl
    · exact Or.inl ⟨_, rfl, rfl, rfl⟩

def Session.stop (session : Session) : Session :=
  if session.active then Session.zero else session

def stopService (ctx : Context) : Context × ErrorCode :=
  if ctx.mutex = 0 then (ctx, .notSupported)
  else if ctx.running = false then (ctx, .notSupported)
  else
    ({ ctx with
      running := false
      listenerThreads := fun _ => 0
      activeSessions := fun i => (ctx.activeSessions i).stop
      sessionCount := 0 }, .ok)

theorem rules_stopService (ctx : Context) : (stopService ctx).1.rules = ctx.rules := by
  unfold stopService
  split
  · rfl
  · split
    · rfl
    · rfl

/-- The loop of `start_service` over the rules. -/
def startListeners (ctx : Context) (handles : ℕ → ℕ) : List ℕ → Context × ErrorCode
  | [] => (ctx, .ok)
  | i :: rest =>
    if (ctx.rules i).enabled then
      match createListener ctx (handles i) with
      | (ctx, .ok) => startListeners ctx handles rest
      | (ctx, e) => ((stopService ctx).1, e)
    else startListeners ctx handles rest

def startService (ctx : Context) (handles : ℕ → ℕ) : Context × ErrorCode :=
  if ctx.mutex = 0 then (ctx, .notSupported)
  else if ctx.running then (ctx, .alreadyExists)
  else if ctx.ruleCount = 0 then (ctx, .invalidParam)
  else
    match startListeners ctx handles (List.range ctx.ruleCount) with
    | (ctx, .ok) => ({ ctx with running := true }, .ok)
    | (ctx, e) => (ctx, e)

/-- `show_status` prints and returns `INFRA_OK`. -/
def rinetdCmdHandler (ctx : Context) (handles : ℕ → ℕ) (argv : List String) :
    Context × ErrorCode :=
  match argv with
  | _ :: cmd :: rest =>
    if cmd = "--start" then startService ctx handles
    else if cmd = "--stop" then stopService ctx
    else if cmd = "--status" then (ctx, .ok)
    else if cmd = "--config" then
      match rest with
      | [] => (ctx, .invalidParam)
      | path :: _ => (ctx, parseConfigFile ctx (some path))
    else (ctx, .invalidParam)
  | _ => (ctx, .invalidParam)

end Ppdb.RinetdContext
