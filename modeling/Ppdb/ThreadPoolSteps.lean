import Ppdb.ThreadPool
import Ppdb.ThreadLists
import Ppdb.Transitions

/-!
What a step of the thread pool can do, said once: the effect of every action
on the state, with the conditions under which it happens. All invariants are
derived from this list.
-/

namespace Ppdb.ThreadPoolSteps

open ErrorCodes ThreadPool ThreadLists

/-- The points from which a worker looks at the queue with the mutex held. -/
def AtQueue (w : Worker) : Prop := w = .locking ∨ w = .woken ∨ w = .timedOut

def AtPool (r : Submitter) (func arg : ℕ) : Prop := r = .entering func arg ∨ r = .woken func arg

def SignalsWorker (ws ws' : List Worker) : Prop :=
  Moves ws .waiting .woken ws' ∨ .waiting ∉ ws ∧ ws' = ws

def SignalsSubmitter (rs rs' : List Submitter) : Prop :=
  (∃ func arg, Moves rs (.waiting func arg) (.woken func arg) rs') ∨
    rs.countP isBlocked = 0 ∧ rs' = rs

def Grows (c : Config) (s : State) (ws : List Worker) (n : ℕ) (ws' : List Worker) : Prop :=
  (ws' = ws ∧ n = s.threadCount) ∨
    ws' = ws ++ [.testing] ∧ n = s.threadCount + 1 ∧ s.threadCount < c.maxThreads ∧
      s.activeCount = s.threadCount

variable {c : Config} {s s' : State}

inductive Effect (c : Config) (s : State) : Action → State → Prop
  | spawns {i : ℕ} (hcreator : s.creator = .spawning i) :
      Effect c s (.spawn true)
        { s with workers := s.workers ++ [.testing], creator := .counting i }
  | spawnFails {i : ℕ} (hcreator : s.creator = .spawning i) :
      Effect c s (.spawn false) { s with shuttingDown := true, creator := .broadcasting }
  | counts {i : ℕ} (hcreator : s.creator = .counting i) :
      Effect c s .count { s with
        threadCount := s.threadCount + 1
        creator := if i + 1 < c.minThreads then .spawning (i + 1) else .ready }
  | broadcastsFailure (hcreator : s.creator = .broadcasting) :
      Effect c s .broadcastFailure
        { s with workers := s.workers.map wakeWorker, creator := .polling }
  | pollsFailure (hcreator : s.creator = .polling) (hcount : s.threadCount = 0) :
      Effect c s .pollFailure { s with creator := .cleaning }
  | pollsFailureAgain (hcreator : s.creator = .polling) (hcount : 0 < s.threadCount) :
      Effect c s .pollFailure s
  | freesFailed (hcreator : s.creator = .cleaning) :
      Effect c s .freeFailed { s with creator := .failed, freed := true }
  | entersLoop {i : ℕ} {ws : List Worker} (hmove : Moves s.workers .testing .locking ws)
      (hrunning : s.running = true) : Effect c s (.test i) { s with workers := ws }
  | falls {i : ℕ} {ws : List Worker} (hmove : Moves s.workers .testing .fell ws)
      (hrunning : s.running = false) : Effect c s (.test i) { s with workers := ws }
  | waits {a : Action} {w : Worker} {ws : List Worker} (hat : AtQueue w)
      (hmove : Moves s.workers w .waiting ws) (hfree : s.locked = false)
      (hempty : s.taskHead = 0) (hopen : s.shuttingDown = false) :
      Effect c s a { s with workers := ws }
  | wakes {i : ℕ} {ws : List Worker} (hmove : Moves s.workers .waiting .woken ws) :
      Effect c s (.wake i) { s with workers := ws }
  | timesOut {i : ℕ} {ws : List Worker} (hmove : Moves s.workers .waiting .timedOut ws) :
      Effect c s (.timeOut i) { s with workers := ws }
  | leaves {a : Action} {w : Worker} {ws : List Worker} (hat : AtQueue w)
      (hmove : Moves s.workers w .leaving ws) (hfree : s.locked = false)
      (hreason : s.shuttingDown = true ∧ s.taskHead = 0 ∨
        w = .timedOut ∧ c.minThreads < s.threadCount) :
      Effect c s a
        { s with threadCount := decrement s.threadCount, locked := true, workers := ws }
  | dequeues {a : Action} {w : Worker} {ws : List Worker} {task : Task} (hat : AtQueue w)
      (hnode : s.heap s.taskHead = some task)
      (hmove : Moves s.workers w (.running s.taskHead task.job) ws) (hfree : s.locked = false)
      (hhead : s.taskHead ≠ 0) :
      Effect c s a { s with
        taskHead := task.next
        taskTail := if task.next = 0 then 0 else s.taskTail
        taskCount := decrement s.taskCount
        activeCount := s.activeCount + 1
        dequeued := s.dequeued ++ [task.job]
        workers := ws }
  | executes {i p : ℕ} {job : Job} {ws : List Worker} {task : Task}
      (hmove : Moves s.workers (.running p job) .finishing ws) (hnode : s.heap p = some task) :
      Effect c s (.execute i) { s with
        heap := Function.update s.heap p none
        finished := s.finished ++ [task.job]
        workers := ws }
  | finishes {i waiter : ℕ} {ws : List Worker} {rs : List Submitter}
      (hmove : Moves s.workers .finishing .testing ws) (hfree : s.locked = false)
      (hsignal : c.queueSize ≤ s.taskCount ∧ rs = s.submitters ∨
        SignalsSubmitter s.submitters rs) :
      Effect c s (.finish i waiter)
        { s with activeCount := decrement s.activeCount, workers := ws, submitters := rs }
  | unlocks {i : ℕ} {ws : List Worker} (hmove : Moves s.workers .leaving .left ws) :
      Effect c s (.unlock i) { s with locked := false, workers := ws }
  | calls {func arg : ℕ} {r : Submitter} (hcreator : s.creator = .ready)
      (hdestroyer : s.destroyer = .idle)
      (hr : r = .returned .invalidParam ∨ r = .entering func arg) :
      Effect c s (.call func arg) { s with submitters := s.submitters ++ [r] }
  | returns {a : Action} {r : Submitter} {func arg : ℕ} {e : ErrorCode} {rs : List Submitter}
      (hat : AtPool r func arg) (hmove : Moves s.submitters r (.returned e) rs)
      (hfree : s.locked = false) (hrefused : e ≠ .ok)
      (hreason : s.shuttingDown = true ∨ c.queueSize ≤ s.taskCount ∨
        r = .entering func arg ∨ ∃ j x, a = .resumeSubmit j x ∧ x.memory = 0) :
      Effect c s a { s with submitters := rs }
  | blocks {a : Action} {r : Submitter} {func arg : ℕ} {rs : List Submitter}
      (hat : AtPool r func arg) (hmove : Moves s.submitters r (.waiting func arg) rs)
      (hfree : s.locked = false) (hfull : c.queueSize ≤ s.taskCount)
      (hopen : s.shuttingDown = false) :
      Effect c s a { s with submitters := rs }
  | submits {a : Action} {r : Submitter} {func arg p n : ℕ} {rs : List Submitter}
      {ws ws' : List Worker} (hat : AtPool r func arg)
      (hmove : Moves s.submitters r (.returned .ok) rs) (hfree : s.locked = false)
      (hroom : s.taskCount < c.queueSize) (hopen : s.shuttingDown = false) (hp : p ≠ 0)
      (hfresh : s.heap p = none) (hsignal : SignalsWorker s.workers ws)
      (hgrow : Grows c s ws n ws') :
      Effect c s a
        { enqueue s p func arg with threadCount := n, workers := ws', submitters := rs }
  | wakesSubmitter {j func arg : ℕ} {rs : List Submitter}
      (hmove : Moves s.submitters (.waiting func arg) (.woken func arg) rs) :
      Effect c s (.wakeSubmit j) { s with submitters := rs }
  | shutsDown (hcreator : s.creator = .ready) (hdestroyer : s.destroyer = .idle)
      (hfree : s.locked = false) :
      Effect c s .shutDown
        { s with shuttingDown := true, running := false, destroyer := .broadcastingEmpty }
  | broadcastsEmpty (hdestroyer : s.destroyer = .broadcastingEmpty) :
      Effect c s .broadcastEmpty
        { s with workers := s.workers.map wakeWorker, destroyer := .broadcastingFull }
  | broadcastsFull (hdestroyer : s.destroyer = .broadcastingFull) :
      Effect c s .broadcastFull
        { s with submitters := s.submitters.map wakeSubmitter, destroyer := .polling }
  | polls (hdestroyer : s.destroyer = .polling) (hfree : s.locked = false)
      (hcount : s.threadCount = 0) :
      Effect c s .poll { s with destroyer := .cleaning s.taskHead }
  | pollsAgain (hdestroyer : s.destroyer = .polling) (hfree : s.locked = false)
      (hcount : s.threadCount ≠ 0) : Effect c s .poll s
  | discards {p : ℕ} {task : Task} (hdestroyer : s.destroyer = .cleaning p)
      (hnode : s.heap p = some task) :
      Effect c s .discard { s with
        heap := Function.update s.heap p none
        discarded := s.discarded ++ [task.job]
        destroyer := .cleaning task.next }
  | frees (hdestroyer : s.destroyer = .cleaning 0) :
      Effect c s .free { s with destroyer := .destroyed, freed := true }

/-! ### The functions of the source -/

theorem signalNotEmpty_cases {waiter : ℕ} (h : signalNotEmpty s waiter = some s') :
    ∃ ws, SignalsWorker s.workers ws ∧ s' = { s with workers := ws } := by
  unfold signalNotEmpty at h
  split at h
  · injection h with h
    exact ⟨_, Or.inl (moves_set ‹_› _), h.symm⟩
  · split at h
    · cases h
    · injection h with h
      exact ⟨s.workers, Or.inr ⟨‹_›, rfl⟩, h.symm⟩

theorem signalNotFull_cases {waiter : ℕ} (h : signalNotFull s waiter = some s') :
    ∃ rs, SignalsSubmitter s.submitters rs ∧ s' = { s with submitters := rs } := by
  unfold signalNotFull at h
  split at h
  · injection h with h
    exact ⟨_, Or.inl ⟨_, _, moves_set ‹_› _⟩, h.symm⟩
  · split at h
    · cases h
    · injection h with h
      refine ⟨s.submitters, Or.inr ⟨?_, rfl⟩, h.symm⟩
      rw [List.countP_eq_zero]
      intro r hr hblocked
      exact ‹¬ _› (List.any_eq_true.mpr ⟨r, hr, hblocked⟩)

/-- From any of its points a worker waits, leaves, or takes a task. -/
theorem checkQueue_effect {a : Action} {i : ℕ} {w : Worker} (hw : s.workers[i]? = some w)
    (hat : AtQueue w) (hfree : s.locked = false) (h : checkQueue s i = some s') :
    Effect c s a s' := by
  unfold checkQueue at h
  split at h
  · injection h with h
    rw [← h]
    exact Effect.waits hat (moves_set hw _) hfree ‹_ ∧ _›.1 ‹_ ∧ _›.2
  · split at h
    · injection h with h
      rw [← h]
      exact Effect.leaves hat (moves_set hw _) hfree (Or.inl ‹_›)
    · rename_i hopen hshut
      have hhead : s.taskHead ≠ 0 := by
        intro hz
        cases hs : s.shuttingDown with
        | true => exact hshut ⟨hs, hz⟩
        | false => exact hopen ⟨hz, hs⟩
      unfold dequeue at h
      cases hnode : s.heap s.taskHead with
      | none => simp [hnode] at h
      | some task =>
        rw [hnode] at h
        injection h with h
        rw [← h]
        exact Effect.dequeues hat hnode (moves_set hw _) hfree hhead

theorem resumeWorker_effect {i : ℕ} (hfree : s.locked = false)
    (h : resumeWorker c s i = some s') : Effect c s (.resume i) s' := by
  unfold resumeWorker at h
  split at h
  · exact checkQueue_effect ‹_› (Or.inr (Or.inl rfl)) hfree h
  · split at h
    · injection h with h
      rw [← h]
      exact Effect.leaves (Or.inr (Or.inr rfl)) (moves_set ‹_› _) hfree (Or.inr ⟨rfl, ‹_›⟩)
    · exact checkQueue_effect ‹_› (Or.inr (Or.inr rfl)) hfree h
  · cases h

theorem finish_effect {i waiter : ℕ} (hw : s.workers[i]? = some .finishing)
    (hfree : s.locked = false) (h : finish c s i waiter = some s') :
    Effect c s (.finish i waiter) s' := by
  unfold finish at h
  dsimp only at h
  split at h
  · obtain ⟨rs, hsignal, hs'⟩ := signalNotFull_cases h
    rw [hs']
    exact Effect.finishes (moves_set hw _) hfree (Or.inr hsignal)
  · injection h with h
    rw [← h]
    exact Effect.finishes (moves_set hw _) hfree (Or.inl ⟨not_lt.mp ‹_›, rfl⟩)

theorem submitLoop_effect {a : Action} {j func arg : ℕ} {r : Submitter} {x : Reply}
    (hr : s.submitters[j]? = some r) (hat : AtPool r func arg) (hfree : s.locked = false)
    (hreason : r = .entering func arg ∨ ∃ j, a = .resumeSubmit j x)
    (h : submitLoop c s j func arg x = some s') : Effect c s a s' := by
  unfold submitLoop at h
  split at h
  · rename_i hfull
    split at h
    · injection h with h
      rw [← h]
      exact Effect.returns hat (moves_set hr _) hfree (by simp) (Or.inr (Or.inl hfull.1))
    · injection h with h
      rw [← h]
      exact Effect.blocks hat (moves_set hr _) hfree hfull.1 hfull.2
  · rename_i hroom
    split at h
    · injection h with h
      rw [← h]
      exact Effect.returns hat (moves_set hr _) hfree (by simp) (Or.inl ‹_›)
    · rename_i hopen
      have hopen' : s.shuttingDown = false := by simpa using hopen
      have hroom' : s.taskCount < c.queueSize := by
        by_contra hge
        exact hroom ⟨not_lt.mp hge, hopen'⟩
      split at h
      · injection h with h
        rw [← h]
        refine Effect.returns hat (moves_set hr _) hfree (by simp) (Or.inr (Or.inr ?_))
        exact hreason.imp_right fun ⟨j, hj⟩ => ⟨j, x, hj, ‹_›⟩
      · split at h
        · cases h
        · rename_i hp hheap
          have hfresh : s.heap x.memory = none := by simpa using hheap
          cases hsignal : signalNotEmpty (enqueue s x.memory func arg) x.waiter with
          | none => simp [hsignal] at h
          | some s₁ =>
            rw [hsignal] at h
            injection h with h
            obtain ⟨ws, hws, hs₁⟩ := signalNotEmpty_cases hsignal
            rw [hs₁] at h
            rw [← h]
            unfold growPool
            split
            · rename_i hgrow
              exact Effect.submits hat (moves_set hr _) hfree hroom' hopen' hp hfresh hws
                (Or.inr ⟨rfl, rfl, hgrow.1, hgrow.2.1⟩)
            · exact Effect.submits hat (moves_set hr _) hfree hroom' hopen' hp hfresh hws
                (Or.inl ⟨rfl, rfl⟩)

theorem enterSubmit_effect {j : ℕ} {x : Reply} (hfree : s.locked = false)
    (h : enterSubmit c s j x = some s') : Effect c s (.enter j x) s' := by
  unfold enterSubmit at h
  split at h
  · rename_i func arg hr
    split at h
    · injection h with h
      rw [← h]
      exact Effect.returns (Or.inl rfl) (moves_set hr _) hfree (by simp) (Or.inl ‹_›)
    · exact submitLoop_effect hr (Or.inl rfl) hfree (Or.inl rfl) h
  · cases h

theorem resumeSubmit_effect {j : ℕ} {x : Reply} (hfree : s.locked = false)
    (h : resumeSubmit c s j x = some s') : Effect c s (.resumeSubmit j x) s' := by
  unfold resumeSubmit at h
  split at h
  · rename_i func arg hr
    exact submitLoop_effect hr (Or.inr rfl) hfree (Or.inr ⟨j, rfl⟩) h
  · cases h

theorem spawn_effect {succeeds : Bool} (h : spawn s succeeds = some s') :
    Effect c s (.spawn succeeds) s' := by
  unfold spawn at h
  split at h
  · cases succeeds with
    | true =>
      injection h with h
      rw [← h]
      exact Effect.spawns ‹_›
    | false =>
      injection h with h
      rw [← h]
      exact Effect.spawnFails ‹_›
  · cases h

theorem countThread_effect (h : countThread c s = some s') : Effect c s .count s' := by
  unfold countThread at h
  split at h
  · injection h with h
    rw [← h]
    exact Effect.counts ‹_›
  · cases h

theorem execute_effect {i : ℕ} (h : execute s i = some s') : Effect c s (.execute i) s' := by
  unfold execute at h
  split at h
  · rename_i p job hw
    cases hnode : s.heap p with
    | none => simp [hnode] at h
    | some task =>
      rw [hnode] at h
      injection h with h
      rw [← h]
      exact Effect.executes (moves_set hw _) hnode
  · cases h

theorem discardTask_effect (h : discardTask s = some s') : Effect c s .discard s' := by
  unfold discardTask at h
  split at h
  · rename_i p hdestroyer
    cases hnode : s.heap p with
    | none => simp [hnode] at h
    | some task =>
      rw [hnode] at h
      injection h with h
      rw [← h]
      exact Effect.discards hdestroyer hnode
  · cases h

/-- A guard that has let a step through. -/
theorem guard_cases {α : Type} {p : Prop} [Decidable p] {x : Option α} {y : α}
    (h : (if p then x else none) = some y) : p ∧ x = some y := by
  split at h
  · exact ⟨‹_›, h⟩
  · cases h

/-- Every step of the model is one of the effects. -/
theorem act_effect {a : Action} (h : act c s a = some s') : Effect c s a s' := by
  cases a with
  | spawn succeeds => exact spawn_effect h
  | count => exact countThread_effect h
  | broadcastFailure =>
    obtain ⟨hcreator, h⟩ := guard_cases h
    injection h with h
    rw [← h]
    exact Effect.broadcastsFailure hcreator
  | pollFailure =>
    obtain ⟨hcreator, h⟩ := guard_cases h
    injection h with h
    rw [← h]
    split
    · exact Effect.pollsFailureAgain hcreator ‹_›
    · exact Effect.pollsFailure hcreator (Nat.eq_zero_of_not_pos ‹_›)
  | freeFailed =>
    obtain ⟨hcreator, h⟩ := guard_cases h
    injection h with h
    rw [← h]
    exact Effect.freesFailed hcreator
  | test i =>
    obtain ⟨hw, h⟩ := guard_cases h
    injection h with h
    rw [← h]
    split
    · exact Effect.entersLoop (moves_set hw _) ‹_›
    · rename_i hrunning
      exact Effect.falls (moves_set hw _) (by simpa using hrunning)
  | lock i =>
    obtain ⟨⟨hw, hfree⟩, h⟩ := guard_cases h
    exact checkQueue_effect hw (Or.inl rfl) hfree h
  | wake i =>
    obtain ⟨hw, h⟩ := guard_cases h
    injection h with h
    rw [← h]
    exact Effect.wakes (moves_set hw _)
  | timeOut i =>
    obtain ⟨hw, h⟩ := guard_cases h
    injection h with h
    rw [← h]
    exact Effect.timesOut (moves_set hw _)
  | resume i =>
    obtain ⟨hfree, h⟩ := guard_cases h
    exact resumeWorker_effect hfree h
  | execute i => exact execute_effect h
  | finish i waiter =>
    obtain ⟨⟨hw, hfree⟩, h⟩ := guard_cases h
    exact finish_effect hw hfree h
  | unlock i =>
    obtain ⟨hw, h⟩ := guard_cases h
    injection h with h
    rw [← h]
    exact Effect.unlocks (moves_set hw _)
  | call func arg =>
    obtain ⟨⟨hcreator, hdestroyer⟩, h⟩ := guard_cases h
    injection h with h
    rw [← h]
    apply Effect.calls hcreator hdestroyer
    split
    · exact Or.inl rfl
    · exact Or.inr rfl
  | enter j r =>
    obtain ⟨hfree, h⟩ := guard_cases h
    exact enterSubmit_effect hfree h
  | wakeSubmit j =>
    unfold act at h
    dsimp only at h
    split at h
    · injection h with h
      rw [← h]
      exact Effect.wakesSubmitter (moves_set ‹_› _)
    · cases h
  | resumeSubmit j r =>
    obtain ⟨hfree, h⟩ := guard_cases h
    exact resumeSubmit_effect hfree h
  | shutDown =>
    obtain ⟨⟨hcreator, hdestroyer, hfree⟩, h⟩ := guard_cases h
    injection h with h
    rw [← h]
    exact Effect.shutsDown hcreator hdestroyer hfree
  | broadcastEmpty =>
    obtain ⟨hdestroyer, h⟩ := guard_cases h
    injection h with h
    rw [← h]
    exact Effect.broadcastsEmpty hdestroyer
  | broadcastFull =>
    obtain ⟨hdestroyer, h⟩ := guard_cases h
    injection h with h
    rw [← h]
    exact Effect.broadcastsFull hdestroyer
  | poll =>
    obtain ⟨⟨hdestroyer, hfree⟩, h⟩ := guard_cases h
    injection h with h
    rw [← h]
    split
    · exact Effect.polls hdestroyer hfree ‹_›
    · exact Effect.pollsAgain hdestroyer hfree ‹_›
  | discard => exact discardTask_effect h
  | free =>
    obtain ⟨hdestroyer, h⟩ := guard_cases h
    injection h with h
    rw [← h]
    exact Effect.frees hdestroyer

/-- A step has its effect, or is noted as a step on a freed pool. -/
theorem step_cases {a : Action} (h : step c s a = some s') :
    Effect c s a s' ∨
      s.freed = true ∧ a.touchesPool = true ∧ (∃ s'', Effect c s a s'') ∧
        s' = { s with touchedFreed := true } := by
  unfold step at h
  split at h
  · rename_i hcond
    obtain ⟨hfreed, htouch⟩ : s.freed = true ∧ a.touchesPool = true := by simpa using hcond
    cases hact : act c s a with
    | none => simp [hact] at h
    | some s'' =>
      rw [hact] at h
      injection h with h
      exact Or.inr ⟨hfreed, htouch, ⟨s'', act_effect hact⟩, h.symm⟩
  · exact Or.inl (act_effect h)

end Ppdb.ThreadPoolSteps
