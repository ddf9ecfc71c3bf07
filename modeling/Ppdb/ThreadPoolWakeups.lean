import Ppdb.ThreadPoolQueue

/-!
That wake-ups are not lost. Signals are not counted, so each direction has its
inequality: as long as a worker waits, there are as many workers on their way to
the queue as there are tasks in it; as long as a call of `submit` is blocked,
the tasks, the calls that have been woken and the workers that will signal are
as many as the queue has places. The second one breaks where a call that has
been woken gives up for lack of memory, and leaves its place to nobody.
-/

namespace Ppdb.ThreadPoolWakeups

open ErrorCodes LinkedQueues ThreadPool ThreadLists ThreadPoolSteps ThreadPoolCounts ThreadPoolQueue
  Transitions

/-- A worker that looks at the queue before it waits again. -/
def isAlert : Worker → Bool
  | .testing => true
  | .locking => true
  | .woken => true
  | .running _ _ => true
  | .finishing => true
  | _ => false

def isWaiting : Worker → Bool
  | .waiting => true
  | _ => false

def isTimedOut : Worker → Bool
  | .timedOut => true
  | _ => false

def isBusy : Worker → Bool
  | .running _ _ => true
  | .finishing => true
  | _ => false

def isPending : Submitter → Bool
  | .woken _ _ => true
  | _ => false

/-- While a worker waits, no task is without a worker on its way to it. -/
def Attended (s : State) : Prop :=
  s.shuttingDown = false → 0 < s.workers.countP isWaiting →
    s.taskCount ≤ s.workers.countP isAlert

/-- While a call is blocked, every free place is somebody's. -/
def Claimed (c : Config) (s : State) : Prop :=
  s.shuttingDown = false → 0 < s.submitters.countP isBlocked →
    c.queueSize ≤ s.taskCount + s.submitters.countP isPending + s.workers.countP isBusy

/-- No call of `submit` that was woken goes without memory while the queue has
room and another one is blocked. -/
def WakesPassOn (c : Config) (s : State) : Action → Prop
  | .resumeSubmit _ r =>
    r.memory = 0 → s.taskCount < c.queueSize → s.submitters.countP isBlocked = 0
  | _ => True

instance (c : Config) (s : State) : (a : Action) → Decidable (WakesPassOn c s a)
  | .resumeSubmit _ r => inferInstanceAs (Decidable (r.memory = 0 → s.taskCount < c.queueSize →
      s.submitters.countP isBlocked = 0))
  | .spawn _ | .count | .broadcastFailure | .pollFailure | .freeFailed | .test _ | .lock _
  | .wake _ | .timeOut _ | .resume _ | .execute _ | .finish _ _ | .unlock _ | .call _ _
  | .enter _ _ | .wakeSubmit _ | .shutDown | .broadcastEmpty | .broadcastFull | .poll
  | .discard | .free => inferInstanceAs (Decidable True)

variable {c : Config} {s s' : State} {a : Action}

theorem taskCount_pos (h : ∃ queue, Accounted s queue) : 0 < s.taskCount ↔ s.taskHead ≠ 0 := by
  obtain ⟨queue, hs⟩ := h
  rw [hs.count, List.length_pos_iff, ne_eq, ne_eq, hs.linked.head_null_iff, List.map_eq_nil_iff]

/-- A live worker is on its way to the queue, waits for a task, or has timed out. -/
theorem live_eq (ws : List Worker) : ws.countP isLive =
    ws.countP isAlert + ws.countP isWaiting + ws.countP isTimedOut := by
  induction ws with
  | nil => rfl
  | cons w rest ih =>
    simp only [List.countP_cons]
    cases w <;> simp [isLive, isAlert, isWaiting, isTimedOut, ih] <;> omega

/-! ### Workers -/

/-- A worker moves, but not to wait: it leaves no task unattended. -/
theorem Attended.move (h : Attended s) {w w' : Worker} (hmove : Moves s.workers w w' s'.workers)
    (hshut : s'.shuttingDown = s.shuttingDown) (hw' : isWaiting w' = false)
    (hcount : s'.taskCount + (isAlert w).toNat ≤ s.taskCount + (isAlert w').toNat) :
    Attended s' := by
  intro hopen hsome
  rw [hshut] at hopen
  have halert := hmove.countP isAlert
  have hwaiting := hmove.countP isWaiting
  rw [hw', Bool.toNat_false] at hwaiting
  have hle := h hopen (by omega)
  omega

/-- More workers are on their way to the queue, and no more of them wait. -/
theorem Attended.of_le (h : Attended s) (hshut : s'.shuttingDown = s.shuttingDown)
    (hcount : s'.taskCount = s.taskCount)
    (hwaiting : s'.workers.countP isWaiting ≤ s.workers.countP isWaiting)
    (halert : s.workers.countP isAlert ≤ s'.workers.countP isAlert) : Attended s' := by
  intro hopen hsome
  rw [hshut] at hopen
  have hle := h hopen (hsome.trans_le hwaiting)
  omega

theorem waiting_broadcast (ws : List Worker) : (ws.map wakeWorker).countP isWaiting = 0 := by
  rw [List.countP_eq_zero]
  intro w hw
  obtain ⟨w, _, rfl⟩ := List.mem_map.mp hw
  cases w <;> simp [wakeWorker, isWaiting]

/-- A new task and its signal: a waiter is on its way, or there was none. -/
theorem Attended.submit (h : Attended s) {ws ws' : List Worker} {n : ℕ}
    (hsignal : SignalsWorker s.workers ws) (hgrow : Grows c s ws n ws')
    (hopen : s.shuttingDown = false) (hworkers : s'.workers = ws')
    (hcount : s'.taskCount = s.taskCount + 1) : Attended s' := by
  intro _ hsome
  have hgrown : ws'.countP isWaiting = ws.countP isWaiting ∧
      ws.countP isAlert ≤ ws'.countP isAlert := by
    rcases hgrow with ⟨rfl, _⟩ | ⟨rfl, _⟩
    · exact ⟨rfl, le_refl _⟩
    · simp [List.countP_append, isWaiting]
  rw [hworkers, hgrown.1] at hsome
  rw [hworkers, hcount]
  rcases hsignal with hmove | ⟨hnone, rfl⟩
  · have halert := hmove.countP isAlert
    have hwaiting := hmove.countP isWaiting
    simp only [isAlert, isWaiting, Bool.toNat_true, Bool.toNat_false] at halert hwaiting
    have hle := h hopen (by omega)
    omega
  · obtain ⟨w, hw, hwaiting⟩ := exists_of_countP hsome
    cases w <;> simp_all [isWaiting]

theorem Attended.keep (h : Attended s) (hphases : Phases s) (hqueue : ∃ queue, Accounted s queue)
    (heffect : Effect c s a s') : Attended s' := by
  have hpos := taskCount_pos hqueue
  cases heffect with
  | spawns _ => exact h.of_le rfl rfl (by simp [List.countP_append, isWaiting]) (by simp)
  | spawnFails _ => exact fun hopen => by cases hopen
  | shutsDown _ _ _ => exact fun hopen => by cases hopen
  | broadcastsFailure _ =>
    intro _ hsome
    rw [waiting_broadcast] at hsome
    cases hsome
  | broadcastsEmpty _ =>
    intro _ hsome
    rw [waiting_broadcast] at hsome
    cases hsome
  | entersLoop hmove _ => exact h.move hmove rfl rfl (le_refl _)
  | falls _ hrunning =>
    intro hopen _
    rw [running_of_open hphases hopen] at hrunning
    cases hrunning
  | waits _ _ _ hhead _ =>
    intro _ _
    show s.taskCount ≤ _
    have hzero : s.taskCount = 0 := by
      by_contra hne
      exact hpos.mp (Nat.pos_of_ne_zero hne) hhead
    omega
  | wakes hmove => exact h.move hmove rfl rfl (by simp [isAlert])
  | timesOut hmove => exact h.move hmove rfl rfl (le_refl _)
  | leaves _ hmove _ hreason =>
    rcases hreason with ⟨hshut, _⟩ | ⟨rfl, _⟩
    · intro hopen _
      exact absurd (hshut.symm.trans hopen) (by simp)
    · exact h.move hmove rfl rfl (le_refl _)
  | @dequeues _ w _ _ _ _ hmove _ hhead =>
    refine h.move hmove rfl rfl ?_
    have hsome := hpos.mpr hhead
    have hle := Bool.toNat_le (isAlert w)
    show decrement s.taskCount + _ ≤ s.taskCount + 1
    rw [decrement_of_pos hsome]
    omega
  | executes hmove _ => exact h.move hmove rfl rfl (le_refl _)
  | finishes hmove _ _ => exact h.move hmove rfl rfl (le_refl _)
  | unlocks hmove => exact h.move hmove rfl rfl (le_refl _)
  | submits _ _ _ _ hopen _ _ hsignal hgrow => exact h.submit hsignal hgrow hopen rfl rfl
  | _ => exact h

/-! ### Submitters -/

/-- No more calls are blocked, and no fewer places are claimed. -/
theorem Claimed.of_le (h : Claimed c s) (hshut : s'.shuttingDown = s.shuttingDown)
    (hblocked : 0 < s'.submitters.countP isBlocked → 0 < s.submitters.countP isBlocked)
    (hclaims : s.taskCount + s.submitters.countP isPending + s.workers.countP isBusy ≤
      s'.taskCount + s'.submitters.countP isPending + s'.workers.countP isBusy) :
    Claimed c s' := by
  intro hopen hsome
  rw [hshut] at hopen
  exact (h hopen (hblocked hsome)).trans hclaims

/-- A worker moves between points at which it owes the same signal. -/
theorem Claimed.move (h : Claimed c s) {w w' : Worker} (hmove : Moves s.workers w w' s'.workers)
    (hshut : s'.shuttingDown = s.shuttingDown) (hcount : s'.taskCount = s.taskCount)
    (hsubmitters : s'.submitters = s.submitters) (hbusy : isBusy w = isBusy w') :
    Claimed c s' := by
  have hsame := hmove.countP isBusy
  rw [hbusy] at hsame
  refine h.of_le hshut ?_ ?_
  · rw [hsubmitters]
    exact id
  · rw [hsubmitters, hcount]
    omega

theorem busy_broadcast (ws : List Worker) : (ws.map wakeWorker).countP isBusy = ws.countP isBusy := by
  have hsame : isBusy ∘ wakeWorker = isBusy := by
    funext w
    cases w <;> rfl
  rw [List.countP_map, hsame]

theorem blocked_broadcast (rs : List Submitter) : (rs.map wakeSubmitter).countP isBlocked = 0 := by
  rw [List.countP_eq_zero]
  intro r hr
  obtain ⟨r, _, rfl⟩ := List.mem_map.mp hr
  cases r <;> simp [wakeSubmitter, isBlocked]

theorem isBusy_of_atQueue {w : Worker} (h : AtQueue w) : isBusy w = false := by
  rcases h with rfl | rfl | rfl <;> rfl

theorem isBlocked_of_atPool {r : Submitter} {func arg : ℕ} (h : AtPool r func arg) :
    isBlocked r = false := by
  rcases h with rfl | rfl <;> rfl

theorem busy_submit {ws ws' : List Worker} {n : ℕ} (hsignal : SignalsWorker s.workers ws)
    (hgrow : Grows c s ws n ws') : ws'.countP isBusy = s.workers.countP isBusy := by
  have hgrown : ws'.countP isBusy = ws.countP isBusy := by
    rcases hgrow with ⟨rfl, _⟩ | ⟨rfl, _⟩
    · rfl
    · simp [List.countP_append, isBusy]
  rw [hgrown]
  rcases hsignal with hmove | ⟨_, rfl⟩
  · exact hmove.countP isBusy
  · rfl

/-- A call ends: a pending one must have put a task in its place. -/
theorem Claimed.leave (h : Claimed c s) {r : Submitter} {e : ErrorCode}
    (hmove : Moves s.submitters r (.returned e) s'.submitters)
    (hshut : s'.shuttingDown = s.shuttingDown)
    (hbusy : s'.workers.countP isBusy = s.workers.countP isBusy)
    (hcount : s.taskCount + (isPending r).toNat ≤ s'.taskCount) : Claimed c s' := by
  have hblocked : s'.submitters.countP isBlocked + (isBlocked r).toNat =
    s.submitters.countP isBlocked := hmove.countP isBlocked
  have hpending : s'.submitters.countP isPending + (isPending r).toNat =
    s.submitters.countP isPending := hmove.countP isPending
  refine h.of_le hshut (fun hsome => ?_) ?_ <;> omega

/-- A blocked call is woken: it claims one place, which another may give up. -/
theorem Claimed.wake (h : Claimed c s) {func arg : ℕ}
    (hmove : Moves s.submitters (.waiting func arg) (.woken func arg) s'.submitters)
    (hshut : s'.shuttingDown = s.shuttingDown)
    (hclaims : s.taskCount + s.workers.countP isBusy ≤ s'.taskCount + s'.workers.countP isBusy + 1) :
    Claimed c s' := by
  have hblocked : s'.submitters.countP isBlocked + 1 = s.submitters.countP isBlocked :=
    hmove.countP isBlocked
  have hpending : s'.submitters.countP isPending = s.submitters.countP isPending + 1 :=
    hmove.countP isPending
  refine h.of_le hshut (fun _ => ?_) ?_ <;> omega

theorem Claimed.keep (h : Claimed c s) (hqueue : ∃ queue, Accounted s queue)
    (heffect : Effect c s a s') (hadmitted : WakesPassOn c s a) : Claimed c s' := by
  have hpos := taskCount_pos hqueue
  -- a full queue claims all its places
  have hfull : c.queueSize ≤ s'.taskCount → Claimed c s' := fun hge _ _ => by omega
  cases heffect with
  | spawns _ => exact h.of_le rfl id (by simp)
  | spawnFails _ => exact fun hopen => by cases hopen
  | shutsDown _ _ _ => exact fun hopen => by cases hopen
  | broadcastsFailure _ => exact h.of_le rfl id (by simp only [busy_broadcast, le_refl])
  | broadcastsEmpty _ => exact h.of_le rfl id (by simp only [busy_broadcast, le_refl])
  | broadcastsFull _ =>
    intro _ hsome
    rw [blocked_broadcast] at hsome
    cases hsome
  | entersLoop hmove _ => exact h.move hmove rfl rfl rfl rfl
  | falls hmove _ => exact h.move hmove rfl rfl rfl rfl
  | waits hat hmove _ _ _ => exact h.move hmove rfl rfl rfl (isBusy_of_atQueue hat)
  | wakes hmove => exact h.move hmove rfl rfl rfl rfl
  | timesOut hmove => exact h.move hmove rfl rfl rfl rfl
  | leaves hat hmove _ _ => exact h.move hmove rfl rfl rfl (isBusy_of_atQueue hat)
  | @dequeues _ w ws _ hat _ hmove _ hhead =>
    -- the place that becomes free is the worker's to announce
    have hsome := hpos.mpr hhead
    have hbusy : ws.countP isBusy + (isBusy w).toNat = s.workers.countP isBusy + 1 :=
      hmove.countP isBusy
    rw [isBusy_of_atQueue hat] at hbusy
    simp only [Bool.toNat_false] at hbusy
    refine h.of_le rfl id ?_
    show _ ≤ decrement s.taskCount + s.submitters.countP isPending + ws.countP isBusy
    rw [decrement_of_pos hsome]
    omega
  | executes hmove _ => exact h.move hmove rfl rfl rfl rfl
  | @finishes _ _ ws rs hmove _ hsignal =>
    have hbusy : ws.countP isBusy + 1 = s.workers.countP isBusy := hmove.countP isBusy
    rcases hsignal with ⟨hge, _⟩ | ⟨func, arg, hwoken⟩ | ⟨hnone, rfl⟩
    · exact hfull hge
    · refine h.wake hwoken rfl ?_
      show _ ≤ s.taskCount + ws.countP isBusy + 1
      omega
    · intro _ hsome
      exact absurd hsome (by rw [hnone]; exact lt_irrefl 0)
  | unlocks hmove => exact h.move hmove rfl rfl rfl rfl
  | @calls _ _ r _ _ hr =>
    have hnew : isBlocked r = false := by
      rcases hr with rfl | rfl <;> rfl
    refine h.of_le rfl ?_ ?_ <;> simp [List.countP_append, hnew]
  | returns hat hmove _ _ hreason =>
    rcases hreason with hshut | hge | rfl | ⟨j, x, rfl, hmemory⟩
    · intro hopen _
      exact absurd (hshut.symm.trans hopen) (by simp)
    · exact hfull hge
    · exact h.leave hmove rfl rfl (le_refl _)
    · by_cases hge : c.queueSize ≤ s.taskCount
      · exact hfull hge
      · intro _ hsome
        have hnone := hadmitted hmemory (not_le.mp hge)
        have hblocked := hmove.countP isBlocked
        rw [isBlocked_of_atPool hat, hnone] at hblocked
        exact absurd hblocked hsome.ne'
  | blocks _ _ _ hge _ => exact hfull hge
  | submits _ hmove _ _ _ _ _ hsignal hgrow =>
    refine h.leave hmove rfl (busy_submit hsignal hgrow) ?_
    exact Nat.add_le_add_left (Bool.toNat_le _) _
  | wakesSubmitter hmove => exact h.wake hmove rfl (Nat.le_succ _)
  | _ => exact h

/-! ### Runs -/

theorem reachable_attended {P : State → Action → Prop} (h : Reachable initial (step c) P s) :
    Attended s := by
  refine h.invariant_of (J := fun s => Phases s ∧ ∃ queue, Accounted s queue)
    (fun s hs => ⟨reachable_phases hs, reachable_accounted hs⟩) ?_
    fun s a s' hJ hs _ hstep => ?_
  · exact fun _ hsome => absurd hsome (lt_irrefl 0)
  · rcases step_cases hstep with heffect | ⟨_, _, _, rfl⟩
    · exact hs.keep hJ.1 hJ.2 heffect
    · exact hs

theorem reachable_claimed (h : Reachable initial (step c) (WakesPassOn c) s) : Claimed c s := by
  refine h.invariant_of (J := fun s => ∃ queue, Accounted s queue)
    (fun s hs => reachable_accounted hs) ?_ fun s a s' hqueue hs hadmitted hstep => ?_
  · exact fun _ hsome => absurd hsome (lt_irrefl 0)
  · rcases step_cases hstep with heffect | ⟨_, _, _, rfl⟩
    · exact hs.keep hqueue heffect hadmitted
    · exact hs

/-- A task in the queue has a worker on its way to it, or more workers have
timed out than may leave the pool. -/
theorem reachable_runnable {P : State → Action → Prop} (h : Reachable initial (step c) P s)
    (hopen : s.shuttingDown = false) (hhead : s.taskHead ≠ 0) :
    0 < s.workers.countP isAlert ∨ s.threadCount < s.workers.countP isTimedOut + c.minThreads := by
  have hphases := reachable_phases h
  have hthreads := reachable_threads h
  have hready := ready_of_head hphases hhead
  have hrunning := running_of_open hphases hopen
  have hsome := (taskCount_pos (reachable_accounted h)).mpr hhead
  have hattended := reachable_attended h hopen
  have hcount := hthreads.count
  rw [hready, hthreads.fallen hrunning, live_eq] at hcount
  have hmin := c.min_pos
  simp only [uncounted] at hcount
  rcases Nat.eq_zero_or_pos (s.workers.countP isWaiting) with hnone | hwaits
  · omega
  · have hle := hattended hwaits
    omega

/-- In such runs, until the pool is shut down, a task in the queue has a
runnable worker, and a call blocked beside a free place has one that is to wake it. -/
theorem no_lost_wakeup (h : Reachable initial (step c) (WakesPassOn c) s)
    (hopen : s.shuttingDown = false) :
    (s.taskHead ≠ 0 →
      (0 < s.workers.countP isAlert ∨
        s.threadCount < s.workers.countP isTimedOut + c.minThreads) ∧
      ∃ w ∈ s.workers, isLive w = true ∧ w ≠ .waiting) ∧
    (0 < s.submitters.countP isBlocked → s.taskCount < c.queueSize →
      0 < s.submitters.countP isPending ∨ 0 < s.workers.countP isBusy) := by
  constructor
  · intro hhead
    have hrunnable := reachable_runnable h hopen hhead
    refine ⟨hrunnable, ?_⟩
    have hready := ready_of_head (reachable_phases h) hhead
    have henough := (reachable_threads h).enough hready hopen
    rcases hrunnable with halert | hmany
    · obtain ⟨w, hw, halert⟩ := exists_of_countP halert
      refine ⟨w, hw, ?_⟩
      cases w <;> simp_all [isAlert, isLive]
    · obtain ⟨w, hw, htimed⟩ := exists_of_countP (p := isTimedOut) (l := s.workers) (by omega)
      refine ⟨w, hw, ?_⟩
      cases w <;> simp_all [isTimedOut, isLive]
  · intro hblocked hroom
    have hclaimed := reachable_claimed h hopen hblocked
    omega

/-- A call is blocked beside a free place while the worker executes a task. -/
theorem no_lost_wakeup_one : ∃ s, Reachable initial (step oneWorker) (WakesPassOn oneWorker) s ∧
    s.submitters.countP isBlocked = 1 ∧ s.taskCount = 0 ∧
    (0 < s.submitters.countP isPending ∨ 0 < s.workers.countP isBusy) := by
  obtain ⟨s, hreach, hs⟩ : ∃ s, Reachable initial (step oneWorker) (WakesPassOn oneWorker) s ∧
      decide (s.shuttingDown = false ∧ s.submitters.countP isBlocked = 1 ∧ s.taskCount = 0) = true :=
    exists_reachable [.spawn true, .count, .test 0, .call 5 1, .call 5 2,
      .enter 0 ⟨false, 8, 0, false⟩, .enter 1 ⟨false, 0, 0, false⟩, .lock 0] _ (by decide)
  obtain ⟨hopen, hblocked, hcount⟩ := of_decide_eq_true hs
  refine ⟨s, hreach, hblocked, hcount, (no_lost_wakeup hreach hopen).2 ?_ ?_⟩
  · rw [hblocked]
    decide
  · rw [hcount]
    decide

/-- The call that has been woken gets no memory and returns; the other one
stays blocked beside an empty queue. -/
theorem wakeup_is_lost : ∃ s, Reachable initial (step oneWorker) (fun _ _ => True) s ∧
    s.shuttingDown = false ∧ s.workers = [.waiting] ∧
    s.submitters = [.returned .ok, .returned .noMemory, .waiting 5 3] ∧
    s.taskCount < oneWorker.queueSize ∧
    ¬ (0 < s.submitters.countP isPending ∨ 0 < s.workers.countP isBusy) := by
  obtain ⟨s, hreach, hs⟩ : ∃ s, Reachable initial (step oneWorker) (fun _ _ => True) s ∧
      decide (s.shuttingDown = false ∧ s.workers = [.waiting] ∧
        s.submitters = [.returned .ok, .returned .noMemory, .waiting 5 3] ∧
        s.taskCount < oneWorker.queueSize ∧
        ¬ (0 < s.submitters.countP isPending ∨ 0 < s.workers.countP isBusy)) = true :=
    exists_reachable [.spawn true, .count, .test 0, .call 5 1, .call 5 2, .call 5 3,
      .enter 0 ⟨false, 8, 0, false⟩, .enter 1 ⟨false, 0, 0, false⟩,
      .enter 2 ⟨false, 0, 0, false⟩, .lock 0, .execute 0, .finish 0 1,
      .resumeSubmit 1 ⟨false, 0, 0, false⟩, .test 0, .lock 0] _ (by decide)
  exact ⟨s, hreach, of_decide_eq_true hs⟩

end Ppdb.ThreadPoolWakeups
