import Ppdb.ErrorCodes
import Ppdb.SizeArithmetic

/-!
The thread pool as a transition system: the thread that creates it, any number
of workers and of threads that submit tasks, and the thread that destroys it.
A critical section is one step, since nothing else that takes the mutex can
happen inside it; only the way out of a worker is two steps, for between the
decrement of `thread_count` and the unlocking the pool may be looked at without
the mutex. Waits on conditions end by a signal, by a broadcast, spuriously or,
where the source gives one, by a time-out. Allocations and the creation of
threads may fail. The last fields of the state are a history of the tasks,
which no code reads.
-/

namespace Ppdb.ThreadPool

open ErrorCodes SizeArithmetic

/-- `infra_thread_pool_config_t`, as `infra_thread_pool_create` accepts it.
The idle time-out only says when a wait may end. -/
structure Config where
  minThreads : ℕ
  maxThreads : ℕ
  queueSize : ℕ
  min_pos : 0 < minThreads
  min_le_max : minThreads ≤ maxThreads
  queue_pos : 0 < queueSize

/-- A submitted task, told from others by its number. -/
structure Job where
  ticket : ℕ
  func : ℕ
  arg : ℕ
  deriving DecidableEq, Repr

/-- `infra_task_t`, and the number of the task. -/
structure Task where
  func : ℕ
  arg : ℕ
  next : ℕ
  ticket : ℕ
  deriving DecidableEq, Repr

def Task.job (t : Task) : Job := ⟨t.ticket, t.func, t.arg⟩

/-- Where a `worker_thread` is. -/
inductive Worker
  /-- about to test `pool->running` -/
  | testing
  /-- about to lock the mutex -/
  | locking
  /-- blocked on `not_empty` -/
  | waiting
  /-- out of the wait, about to lock the mutex again -/
  | woken
  | timedOut
  /-- calling the function of the task -/
  | running (task : ℕ) (job : Job)
  /-- about to lock the mutex after the task -/
  | finishing
  /-- on its way out, still holding the mutex -/
  | leaving
  /-- returned after the decrement of `thread_count` -/
  | left
  /-- returned because `pool->running` was false -/
  | fell
  deriving DecidableEq, Repr

/-- Where a call of `infra_thread_pool_submit` is. -/
inductive Submitter
  | entering (func arg : ℕ)
  /-- blocked on `not_full` -/
  | waiting (func arg : ℕ)
  | woken (func arg : ℕ)
  | returned (e : ErrorCode)
  deriving DecidableEq, Repr

/-- Where `infra_thread_pool_create` is, from its first thread on. -/
inductive Creator
  | spawning (i : ℕ)
  /-- about to count the thread just created -/
  | counting (i : ℕ)
  | broadcasting
  | polling
  | cleaning
  | ready
  | failed
  deriving DecidableEq, Repr

/-- Where `infra_thread_pool_destroy` is. -/
inductive Destroyer
  | idle
  | broadcastingEmpty
  | broadcastingFull
  | polling
  | cleaning (task : ℕ)
  | destroyed
  deriving DecidableEq, Repr

/-- `infra_thread_pool_t`, the memory for tasks and the threads. -/
structure State where
  threadCount : ℕ
  activeCount : ℕ
  taskCount : ℕ
  taskHead : ℕ
  taskTail : ℕ
  running : Bool
  shuttingDown : Bool
  locked : Bool
  heap : ℕ → Option Task
  workers : List Worker
  submitters : List Submitter
  creator : Creator
  destroyer : Destroyer
  accepted : List Job
  dequeued : List Job
  finished : List Job
  discarded : List Job
  /-- the mutex is destroyed and the pool freed -/
  freed : Bool
  /-- a thread has taken a step on the pool after that -/
  touchedFreed : Bool

def initial : State where
  threadCount := 0
  activeCount := 0
  taskCount := 0
  taskHead := 0
  taskTail := 0
  running := true
  shuttingDown := false
  locked := false
  heap := fun _ => none
  workers := []
  submitters := []
  creator := .spawning 0
  destroyer := .idle
  accepted := []
  dequeued := []
  finished := []
  discarded := []
  freed := false
  touchedFreed := false

/-- A counter of type `size_t` goes down; increments stay below the bounds of
the configuration or count threads in memory. -/
def decrement (n : ℕ) : ℕ := if n = 0 then sizeMax else n - 1

theorem decrement_of_pos {n : ℕ} (h : 0 < n) : decrement n = n - 1 :=
  if_neg (Nat.pos_iff_ne_zero.mp h)

namespace State

def setWorker (s : State) (i : ℕ) (w : Worker) : State := { s with workers := s.workers.set i w }

def setSubmitter (s : State) (j : ℕ) (r : Submitter) : State :=
  { s with submitters := s.submitters.set j r }

end State

/-! ### Conditions -/

def wakeWorker : Worker → Worker
  | .waiting => .woken
  | w => w

def wakeSubmitter : Submitter → Submitter
  | .waiting func arg => .woken func arg
  | r => r

def isBlocked : Submitter → Bool
  | .waiting _ _ => true
  | _ => false

/-- `infra_cond_signal(pool->not_empty)`: one waiter is woken if there is one. -/
def signalNotEmpty (s : State) (waiter : ℕ) : Option State :=
  if s.workers[waiter]? = some .waiting then some (s.setWorker waiter .woken)
  else if .waiting ∈ s.workers then none
  else some s

def signalNotFull (s : State) (waiter : ℕ) : Option State :=
  match s.submitters[waiter]? with
  | some (.waiting func arg) => some (s.setSubmitter waiter (.woken func arg))
  | _ => if s.submitters.any isBlocked then none else some s

def broadcastNotEmpty (s : State) : State := { s with workers := s.workers.map wakeWorker }

def broadcastNotFull (s : State) : State := { s with submitters := s.submitters.map wakeSubmitter }

/-! ### `worker_thread` -/

/-- A worker decrements `thread_count` on its way out. -/
def leave (s : State) (i : ℕ) : State :=
  { s with threadCount := decrement s.threadCount, locked := true }.setWorker i .leaving

def dequeue (s : State) (i : ℕ) : Option State :=
  match s.heap s.taskHead with
  | none => none
  | some task =>
    some ({ s with
      taskHead := task.next
      taskTail := if task.next = 0 then 0 else s.taskTail
      taskCount := decrement s.taskCount
      activeCount := s.activeCount + 1
      dequeued := s.dequeued ++ [task.job] }.setWorker i (.running s.taskHead task.job))

/-- From the test of the inner loop to the next wait, return or task. -/
def checkQueue (s : State) (i : ℕ) : Option State :=
  if s.taskHead = 0 ∧ s.shuttingDown = false then some (s.setWorker i .waiting)
  else if s.shuttingDown = true ∧ s.taskHead = 0 then some (leave s i)
  else dequeue s i

/-- Out of the wait: a time-out is acted on before the queue is looked at. -/
def resumeWorker (c : Config) (s : State) (i : ℕ) : Option State :=
  match s.workers[i]? with
  | some .woken => checkQueue s i
  | some .timedOut => if c.minThreads < s.threadCount then some (leave s i) else checkQueue s i
  | _ => none

def execute (s : State) (i : ℕ) : Option State :=
  match s.workers[i]? with
  | some (.running p _) => match s.heap p with
    | none => none
    | some task =>
      some ({ s with
        heap := Function.update s.heap p none
        finished := s.finished ++ [task.job] }.setWorker i .finishing)
  | _ => none

def finish (c : Config) (s : State) (i waiter : ℕ) : Option State :=
  let s := { s with activeCount := decrement s.activeCount }.setWorker i .testing
  if s.taskCount < c.queueSize then signalNotFull s waiter else some s

/-! ### `infra_thread_pool_submit` -/

/-- What the environment decides in a call of `submit`: whether a wait fails at
once, the memory for the task, which waiter a signal reaches, and whether a
thread can be created. -/
structure Reply where
  waitFails : Bool
  memory : ℕ
  waiter : ℕ
  spawns : Bool
  deriving DecidableEq, Repr

def enqueue (s : State) (p func arg : ℕ) : State :=
  let task : Task := ⟨func, arg, 0, s.accepted.length⟩
  let heap := Function.update s.heap p (some task)
  { s with
    heap := if s.taskTail = 0 then heap
      else Function.update heap s.taskTail ((heap s.taskTail).map fun t => { t with next := p })
    taskHead := if s.taskTail = 0 then p else s.taskHead
    taskTail := p
    taskCount := s.taskCount + 1
    accepted := s.accepted ++ [task.job] }

/-- One more thread if all are at work and their number allows it. -/
def growPool (c : Config) (s : State) (spawns : Bool) : State :=
  if s.threadCount < c.maxThreads ∧ s.activeCount = s.threadCount ∧ spawns = true then
    { s with threadCount := s.threadCount + 1, workers := s.workers ++ [.testing] }
  else s

/-- From the test of the loop to the next wait or the return. -/
def submitLoop (c : Config) (s : State) (j func arg : ℕ) (r : Reply) : Option State :=
  if c.queueSize ≤ s.taskCount ∧ s.shuttingDown = false then
    if r.waitFails then some (s.setSubmitter j (.returned .system))
    else some (s.setSubmitter j (.waiting func arg))
  else if s.shuttingDown then some (s.setSubmitter j (.returned .notReady))
  else if r.memory = 0 then some (s.setSubmitter j (.returned .noMemory))
  else if (s.heap r.memory).isSome then none
  else
    match signalNotEmpty (enqueue s r.memory func arg) r.waiter with
    | none => none
    | some s => some ((growPool c s r.spawns).setSubmitter j (.returned .ok))

/-- The task is refused without a look at the pool if it has no function. -/
def callSubmit (s : State) (func arg : ℕ) : State :=
  { s with submitters := s.submitters ++
      [if func = 0 then .returned .invalidParam else .entering func arg] }

def enterSubmit (c : Config) (s : State) (j : ℕ) (r : Reply) : Option State :=
  match s.submitters[j]? with
  | some (.entering func arg) =>
    if s.shuttingDown then some (s.setSubmitter j (.returned .notReady))
    else submitLoop c s j func arg r
  | _ => none

def resumeSubmit (c : Config) (s : State) (j : ℕ) (r : Reply) : Option State :=
  match s.submitters[j]? with
  | some (.woken func arg) => submitLoop c s j func arg r
  | _ => none

/-! ### `infra_thread_pool_create` and `infra_thread_pool_destroy` -/

/-- A thread is created or, if that fails, the pool is told to shut down. -/
def spawn (s : State) (succeeds : Bool) : Option State :=
  match s.creator with
  | .spawning i =>
    if succeeds then some { s with workers := s.workers ++ [.testing], creator := .counting i }
    else some { s with shuttingDown := true, creator := .broadcasting }
  | _ => none

/-- `p->thread_count++` and the test of the loop. -/
def countThread (c : Config) (s : State) : Option State :=
  match s.creator with
  | .counting i => some { s with
      threadCount := s.threadCount + 1
      creator := if i + 1 < c.minThreads then .spawning (i + 1) else .ready }
  | _ => none

def discardTask (s : State) : Option State :=
  match s.destroyer with
  | .cleaning p => match s.heap p with
    | none => none
    | some task => some { s with
        heap := Function.update s.heap p none
        discarded := s.discarded ++ [task.job]
        destroyer := .cleaning task.next }
  | _ => none

inductive Action
  | spawn (succeeds : Bool)
  | count
  | broadcastFailure
  | pollFailure
  | freeFailed
  | test (i : ℕ)
  | lock (i : ℕ)
  | wake (i : ℕ)
  | timeOut (i : ℕ)
  | resume (i : ℕ)
  | execute (i : ℕ)
  | finish (i waiter : ℕ)
  | unlock (i : ℕ)
  | call (func arg : ℕ)
  | enter (j : ℕ) (r : Reply)
  | wakeSubmit (j : ℕ)
  | resumeSubmit (j : ℕ) (r : Reply)
  | shutDown
  | broadcastEmpty
  | broadcastFull
  | poll
  | discard
  | free
  deriving DecidableEq, Repr

/-- A step of one of the threads, where it is enabled. The pool is handed to
`submit` and `destroy` once `create` has returned it, and to no call of
`submit` any more once `destroy` has been called. -/
def act (c : Config) (s : State) : Action → Option State
  | .spawn succeeds => spawn s succeeds
  | .count => countThread c s
  | .broadcastFailure =>
    if s.creator = .broadcasting then some { broadcastNotEmpty s with creator := .polling } else none
  | .pollFailure =>
    if s.creator = .polling then
      some (if 0 < s.threadCount then s else { s with creator := .cleaning })
    else none
  | .freeFailed =>
    if s.creator = .cleaning then some { s with creator := .failed, freed := true } else none
  | .test i =>
    if s.workers[i]? = some .testing then
      some (s.setWorker i (if s.running then .locking else .fell))
    else none
  | .lock i =>
    if s.workers[i]? = some .locking ∧ s.locked = false then checkQueue s i else none
  | .wake i =>
    if s.workers[i]? = some .waiting then some (s.setWorker i .woken) else none
  | .timeOut i =>
    if s.workers[i]? = some .waiting then some (s.setWorker i .timedOut) else none
  | .resume i => if s.locked = false then resumeWorker c s i else none
  | .execute i => execute s i
  | .finish i waiter =>
    if s.workers[i]? = some .finishing ∧ s.locked = false then finish c s i waiter else none
  | .unlock i =>
    if s.workers[i]? = some .leaving then some ({ s with locked := false }.setWorker i .left)
    else none
  | .call func arg =>
    if s.creator = .ready ∧ s.destroyer = .idle then some (callSubmit s func arg) else none
  | .enter j r => if s.locked = false then enterSubmit c s j r else none
  | .wakeSubmit j =>
    match s.submitters[j]? with
    | some (.waiting func arg) => some (s.setSubmitter j (.woken func arg))
    | _ => none
  | .resumeSubmit j r => if s.locked = false then resumeSubmit c s j r else none
  | .shutDown =>
    if s.creator = .ready ∧ s.destroyer = .idle ∧ s.locked = false then
      some { s with shuttingDown := true, running := false, destroyer := .broadcastingEmpty }
    else none
  | .broadcastEmpty =>
    if s.destroyer = .broadcastingEmpty then
      some { broadcastNotEmpty s with destroyer := .broadcastingFull }
    else none
  | .broadcastFull =>
    if s.destroyer = .broadcastingFull then
      some { broadcastNotFull s with destroyer := .polling }
    else none
  | .poll =>
    if s.destroyer = .polling ∧ s.locked = false then
      some (if s.threadCount = 0 then { s with destroyer := .cleaning s.taskHead } else s)
    else none
  | .discard => discardTask s
  | .free =>
    if s.destroyer = .cleaning 0 then some { s with destroyer := .destroyed, freed := true } else none

/-- A call of the function of a task is the only step inside the pool's code
that does not use the pool. -/
def Action.touchesPool : Action → Bool
  | .execute _ => false
  | _ => true

/-- On a pool that has been freed a step is noted, and does nothing else. -/
def step (c : Config) (s : State) (a : Action) : Option State :=
  if s.freed && a.touchesPool then (act c s a).map fun _ => { s with touchedFreed := true }
  else act c s a

end Ppdb.ThreadPool
