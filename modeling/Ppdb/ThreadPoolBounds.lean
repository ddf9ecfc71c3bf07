import Ppdb.ThreadPoolQueue

/-!
The bounds of the configuration. Until it is shut down the pool has between
`min_threads` and `max_threads` threads and at most `queue_size` tasks wait;
`active_count` is the number of workers between dequeuing a task and the
critical section after it.
-/

namespace Ppdb.ThreadPoolBounds

open ThreadPool ThreadLists ThreadPoolSteps ThreadPoolCounts ThreadPoolQueue Transitions

/-- A worker between dequeuing a task and the decrement of `active_count`. -/
def isActive : Worker → Bool
  | .running _ _ => true
  | .finishing => true
  | _ => false

structure Bounded (c : Config) (s : State) : Prop where
  queued : s.taskCount ≤ c.queueSize
  active : s.activeCount = s.workers.countP isActive
  most : s.threadCount ≤ c.maxThreads

variable {c : Config} {s s' : State} {a : Action}

theorem bounded_initial (c : Config) : Bounded c initial := by
  constructor <;> simp [initial]

/-! ### The workers at work -/

theorem active_move {w w' : Worker} {ws ws' : List Worker} (hmove : Moves ws w w' ws')
    (hw : isActive w = isActive w') : ws'.countP isActive = ws.countP isActive := by
  have hcount := hmove.countP isActive
  rw [hw] at hcount
  exact Nat.add_right_cancel hcount

theorem isActive_of_atQueue {w : Worker} (h : AtQueue w) : isActive w = false := by
  rcases h with rfl | rfl | rfl <;> rfl

theorem active_broadcast (ws : List Worker) :
    (ws.map wakeWorker).countP isActive = ws.countP isActive := by
  have hsame : isActive ∘ wakeWorker = isActive := by
    funext w
    cases w <;> rfl
  rw [List.countP_map, hsame]

theorem active_spawn (ws : List Worker) :
    (ws ++ [Worker.testing]).countP isActive = ws.countP isActive := by
  simp [List.countP_append, isActive]

theorem active_signal {ws ws' : List Worker} (h : SignalsWorker ws ws') :
    ws'.countP isActive = ws.countP isActive := by
  rcases h with hmove | ⟨_, rfl⟩
  · exact active_move hmove rfl
  · rfl

/-- A worker that is active is still in its loop. -/
theorem active_le_live (ws : List Worker) : ws.countP isActive ≤ ws.countP isLive := by
  apply List.countP_mono_left
  intro w _ hactive
  cases w with
  | running p job => rfl
  | finishing => rfl
  | _ => cases hactive

/-! ### One step -/

/-- The threads that are created with the pool are no more than `min_threads`. -/
theorem counting_le (h : Threads c s) (hphases : Phases s) {i : ℕ}
    (hcreator : s.creator = .counting i) : s.threadCount + 1 ≤ c.maxThreads := by
  obtain ⟨hi, hlive⟩ := h.counting i hcreator
  have hidle := (hphases.early (by simp [hcreator])).1
  have hfallen := h.fallen (hphases.running.mpr hidle)
  have hcount := h.count
  simp only [hcreator, uncounted, hlive, hfallen] at hcount
  have hmax := c.min_le_max
  omega

/-- The same workers are at work, and no task has come. -/
theorem Bounded.of_eq (h : Bounded c s) (hworkers : s'.workers.countP isActive =
      s.workers.countP isActive) (htasks : s'.taskCount = s.taskCount)
    (hactive : s'.activeCount = s.activeCount) (hthreads : s'.threadCount ≤ c.maxThreads) :
    Bounded c s' := by
  constructor
  · rw [htasks]
    exact h.queued
  · rw [hactive, hworkers]
    exact h.active
  · exact hthreads

theorem Bounded.dequeue (h : Bounded c s) {w : Worker} {ws : List Worker} {task : Task}
    (hat : AtQueue w) (hmove : Moves s.workers w (.running s.taskHead task.job) ws)
    (hcount : s'.taskCount ≤ s.taskCount) (hactive : s'.activeCount = s.activeCount + 1)
    (hthreads : s'.threadCount = s.threadCount) (hworkers : s'.workers = ws) : Bounded c s' := by
  have hone := hmove.countP isActive
  rw [isActive_of_atQueue hat] at hone
  change ws.countP isActive + 0 = s.workers.countP isActive + 1 at hone
  constructor
  · exact hcount.trans h.queued
  · rw [hactive, hworkers, h.active]
    omega
  · rw [hthreads]
    exact h.most

theorem Bounded.finish (h : Bounded c s) {ws : List Worker}
    (hmove : Moves s.workers .finishing .testing ws) (htasks : s'.taskCount = s.taskCount)
    (hactive : s'.activeCount = decrement s.activeCount)
    (hthreads : s'.threadCount = s.threadCount) (hworkers : s'.workers = ws) : Bounded c s' := by
  have hone : ws.countP isActive + 1 = s.workers.countP isActive := hmove.countP isActive
  have hpos : 0 < s.activeCount := by
    rw [h.active]
    omega
  constructor
  · rw [htasks]
    exact h.queued
  · rw [hactive, hworkers, decrement_of_pos hpos, h.active]
    omega
  · rw [hthreads]
    exact h.most

/-- A task is accepted only below `queue_size`, a thread added only below `max_threads`. -/
theorem Bounded.submit (h : Bounded c s) {ws ws' : List Worker} {n : ℕ}
    (hroom : s.taskCount < c.queueSize) (hsignal : SignalsWorker s.workers ws)
    (hgrow : Grows c s ws n ws') (htasks : s'.taskCount = s.taskCount + 1)
    (hactive : s'.activeCount = s.activeCount) (hthreads : s'.threadCount = n)
    (hworkers : s'.workers = ws') : Bounded c s' := by
  have hsame := active_signal hsignal
  constructor
  · rw [htasks]
    exact hroom
  · rw [hactive, hworkers, h.active, ← hsame]
    rcases hgrow with ⟨hws, _⟩ | ⟨hws, _⟩
    · rw [hws]
    · rw [hws, active_spawn]
  · rw [hthreads]
    rcases hgrow with ⟨_, hn⟩ | ⟨_, hn, hmax, _⟩
    · rw [hn]
      exact h.most
    · rw [hn]
      exact hmax

theorem Bounded.keep (h : Bounded c s) (hphases : Phases s) (hthreads : Threads c s)
    (hqueue : s.taskHead ≠ 0 → 0 < s.taskCount) (heffect : Effect c s a s') : Bounded c s' := by
  cases heffect with
  | spawns _ => exact h.of_eq (active_spawn s.workers) rfl rfl h.most
  | counts hcreator => exact h.of_eq rfl rfl rfl (counting_le hthreads hphases hcreator)
  | broadcastsFailure _ => exact h.of_eq (active_broadcast s.workers) rfl rfl h.most
  | broadcastsEmpty _ => exact h.of_eq (active_broadcast s.workers) rfl rfl h.most
  | entersLoop hmove _ => exact h.of_eq (active_move hmove rfl) rfl rfl h.most
  | falls hmove _ => exact h.of_eq (active_move hmove rfl) rfl rfl h.most
  | waits hat hmove _ _ _ =>
    exact h.of_eq (active_move hmove (isActive_of_atQueue hat)) rfl rfl h.most
  | wakes hmove => exact h.of_eq (active_move hmove rfl) rfl rfl h.most
  | timesOut hmove => exact h.of_eq (active_move hmove rfl) rfl rfl h.most
  | leaves hat hmove hfree hreason =>
    have hpos := hthreads.leaver_counted hphases hat hmove hreason
    refine h.of_eq (active_move hmove (isActive_of_atQueue hat)) rfl rfl ?_
    have hmost := h.most
    show decrement s.threadCount ≤ c.maxThreads
    rw [decrement_of_pos hpos]
    omega
  | dequeues hat _ hmove _ hhead =>
    refine h.dequeue hat hmove ?_ rfl rfl rfl
    show decrement s.taskCount ≤ s.taskCount
    rw [decrement_of_pos (hqueue hhead)]
    exact Nat.sub_le _ _
  | executes hmove _ => exact h.of_eq (active_move hmove rfl) rfl rfl h.most
  | finishes hmove _ _ => exact h.finish hmove rfl rfl rfl rfl
  | unlocks hmove => exact h.of_eq (active_move hmove rfl) rfl rfl h.most
  | submits _ _ _ hroom _ _ _ hsignal hgrow =>
    exact h.submit hroom hsignal hgrow rfl rfl rfl rfl
  | _ => exact h.of_eq rfl rfl rfl h.most

/-! ### Runs -/

section Runs
variable {P : State → Action → Prop}

theorem reachable_bounded (h : Reachable initial (step c) P s) : Bounded c s := by
  refine h.invariant_of (J := fun s => Phases s ∧ Threads c s ∧ ∃ queue, Accounted s queue)
    (fun s hs => ⟨reachable_phases hs, reachable_threads hs, reachable_accounted hs⟩)
    (bounded_initial c) ?_
  rintro s a s' ⟨hphases, hthreads, queue, haccounted⟩ hs _ hstep
  rcases step_cases hstep with heffect | ⟨_, _, _, rfl⟩
  · exact hs.keep hphases hthreads haccounted.taskCount_pos heffect
  · exact hs.of_eq rfl rfl rfl hs.most

end Runs

/-- Once `create` has returned the pool and until it is shut down, whether the
mutex is free or held by a worker on its way out. -/
theorem bounded_until_shutdown (h : Reachable initial (step c) (fun _ _ => True) s)
    (hready : s.creator = .ready) (hopen : s.shuttingDown = false) :
    s.taskCount ≤ c.queueSize ∧ s.activeCount = s.workers.countP isActive ∧
      s.activeCount ≤ s.threadCount ∧ c.minThreads ≤ s.threadCount ∧
      s.threadCount ≤ c.maxThreads := by
  have hbounded := reachable_bounded h
  have hthreads := reachable_threads h
  have hcount := hthreads.count
  rw [hready] at hcount
  refine ⟨hbounded.queued, hbounded.active, ?_, hthreads.enough hready hopen, hbounded.most⟩
  calc s.activeCount = s.workers.countP isActive := hbounded.active
    _ ≤ s.workers.countP isLive := active_le_live s.workers
    _ ≤ s.workers.countP isLive + s.workers.countP isFallen := Nat.le_add_right _ _
    _ = s.threadCount := hcount.symm

def oneOrTwoWorkers : Config where
  minThreads := 1
  maxThreads := 2
  queueSize := 1
  min_pos := Nat.one_pos
  min_le_max := Nat.le_succ 1
  queue_pos := Nat.one_pos

/-- The only worker is at work when a second task comes: the pool grows. -/
theorem bounded_until_shutdown_two :
    ∃ s, Reachable initial (step oneOrTwoWorkers) (fun _ _ => True) s ∧
      s.workers = [.running 8 ⟨0, 5, 1⟩, .testing] ∧ s.taskCount ≤ 1 ∧
      s.activeCount = s.workers.countP isActive ∧ s.activeCount ≤ s.threadCount ∧
      1 ≤ s.threadCount ∧ s.threadCount ≤ 2 := by
  obtain ⟨s, hreach, hs⟩ : ∃ s, Reachable initial (step oneOrTwoWorkers) (fun _ _ => True) s ∧
      decide (s.creator = .ready ∧ s.shuttingDown = false ∧
        s.workers = [.running 8 ⟨0, 5, 1⟩, .testing]) = true :=
    exists_reachable [.spawn true, .count, .test 0, .lock 0, .call 5 1, .enter 0 ⟨false, 8, 0, true⟩,
      .resume 0, .call 5 2, .enter 1 ⟨false, 16, 0, true⟩] _ (by decide)
  obtain ⟨hready, hopen, hworkers⟩ := of_decide_eq_true hs
  exact ⟨s, hreach, hworkers, bounded_until_shutdown hreach hready hopen⟩

end Ppdb.ThreadPoolBounds
