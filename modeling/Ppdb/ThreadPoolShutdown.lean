import Ppdb.ThreadPoolProgress

/-!
When `infra_thread_pool_destroy` returns. It waits for `thread_count` to become
zero, and whether that happens is decided when it clears `pool->running`: a
worker that has still to test the flag returns without being counted off, and a
task in the queue brings a worker to that test.
-/

namespace Ppdb.ThreadPoolShutdown

open ThreadPool ThreadLists ThreadPoolSteps ThreadPoolCounts ThreadPoolQueue ThreadPoolWakeups
  ThreadPoolProgress Transitions BoundedRuns

/-- A worker whose next test of `pool->running` is before its next wait, or who
has returned at that test. -/
def isDoomed : Worker → Bool
  | .testing => true
  | .running _ _ => true
  | .finishing => true
  | .fell => true
  | _ => false

def isPending : Submitter → Bool
  | .returned _ => false
  | _ => true

/-- No task is left, and every worker waits for one or is about to look for one. -/
def Quiet (s : State) : Prop := s.taskHead = 0 ∧ s.workers.countP isDoomed = 0

/-- Any step but one that finds everything as it was, as the polling of
`thread_count` does. -/
def Advances (c : Config) (s : State) (a : Action) : Prop := step c s a ≠ some s

def Spurious : Action → Prop
  | .wake _ | .timeOut _ | .wakeSubmit _ => True
  | _ => False

/-- What the threads do without a time-out or a spurious wake-up. -/
def Own (c : Config) (s : State) (a : Action) : Prop := Advances c s a ∧ ¬ Spurious a

/-- The pool on its way to be freed. -/
structure Calm (s : State) : Prop where
  shuttingDown : s.shuttingDown = true
  ready : s.creator = .ready
  called : s.destroyer ≠ .idle
  empty : s.taskHead = 0
  settled : s.workers.countP isDoomed = 0
  awake : s.destroyer ≠ .broadcastingEmpty → s.workers.countP isWaiting = 0

/-- The pool whose `thread_count` will not become zero. -/
structure Hung (c : Config) (s : State) : Prop where
  shuttingDown : s.shuttingDown = true
  ready : s.creator = .ready
  waits : s.destroyer = .broadcastingEmpty ∨ s.destroyer = .broadcastingFull ∨
    s.destroyer = .polling
  counted : 0 < s.workers.countP isDoomed ∨ s.taskHead ≠ 0 ∧ c.minThreads ≤ s.threadCount

def workerSteps : Worker → ℕ
  | .waiting => 3
  | .locking => 2
  | .woken => 2
  | .timedOut => 2
  | .leaving => 1
  | _ => 0

def submitterSteps : Submitter → ℕ
  | .waiting _ _ => 2
  | .entering _ _ => 1
  | .woken _ _ => 1
  | .returned _ => 0

def destroyerSteps : Destroyer → ℕ
  | .idle => 5
  | .broadcastingEmpty => 4
  | .broadcastingFull => 3
  | .polling => 2
  | .cleaning _ => 1
  | .destroyed => 0

def remaining (s : State) : ℕ :=
  (s.workers.map workerSteps).sum + (s.submitters.map submitterSteps).sum +
    destroyerSteps s.destroyer + (!s.touchedFreed).toNat

variable {c : Config} {s s' t : State} {a : Action} {w w' : Worker} {ws : List Worker}

/-! ### Workers that are not counted off -/

theorem doomed_broadcast (ws : List Worker) :
    (ws.map wakeWorker).countP isDoomed = ws.countP isDoomed := by
  have hsame : isDoomed ∘ wakeWorker = isDoomed := by
    funext w
    cases w <;> rfl
  rw [List.countP_map, hsame]

theorem isDoomed_of_atQueue (h : AtQueue w) : isDoomed w = false := by
  rcases h with rfl | rfl | rfl <;> rfl

theorem doomed_move (hmove : Moves s.workers w w' ws) (hsame : isDoomed w = isDoomed w') :
    ws.countP isDoomed = s.workers.countP isDoomed := by
  have hcount := hmove.countP isDoomed
  rw [hsame] at hcount
  exact Nat.add_right_cancel hcount

/-- The worker at the test, with a task or behind it. -/
theorem doomed_pos (hmem : w ∈ s.workers) (hw : isDoomed w = true) :
    0 < s.workers.countP isDoomed := List.countP_pos_iff.mpr ⟨w, hmem, hw⟩

/-- A worker that is not counted off keeps `thread_count` above zero. -/
theorem threadCount_pos (hthreads : Threads c s) (hready : s.creator = .ready)
    (hdoomed : 0 < s.workers.countP isDoomed) : 0 < s.threadCount := by
  obtain ⟨w, hw, hdoom⟩ := exists_of_countP hdoomed
  have hcount := hthreads.count
  rw [hready] at hcount
  change s.threadCount = _ at hcount
  have hone : 0 < s.workers.countP isLive ∨ 0 < s.workers.countP isFallen := by
    cases hlive : isLive w with
    | true => exact Or.inl (List.countP_pos_iff.mpr ⟨w, hw, hlive⟩)
    | false =>
      refine Or.inr (List.countP_pos_iff.mpr ⟨w, hw, ?_⟩)
      cases w <;> simp_all [isDoomed, isLive, isFallen]
  omega

/-! ### The pool that is freed -/

/-- A worker moves on. -/
theorem Calm.move (h : Calm s) (hmove : Moves s.workers w w' s'.workers)
    (hshut : s'.shuttingDown = s.shuttingDown) (hcreator : s'.creator = s.creator)
    (hdestroyer : s'.destroyer = s.destroyer) (hhead : s'.taskHead = s.taskHead)
    (hsubmitters : s'.submitters = s.submitters) (htouched : s'.touchedFreed = s.touchedFreed)
    (hdoomed : isDoomed w' = false) (hwaiting : isWaiting w' = false)
    (hless : workerSteps w' < workerSteps w) : Calm s' ∧ remaining s' < remaining s := by
  have hcount := hmove.countP isDoomed
  have hwaits := hmove.countP isWaiting
  have hsum := hmove.sum_map workerSteps
  rw [hdoomed, h.settled, Bool.toNat_false] at hcount
  rw [hwaiting, Bool.toNat_false] at hwaits
  refine ⟨⟨hshut.trans h.shuttingDown, hcreator.trans h.ready, ?_, hhead.trans h.empty,
    by omega, ?_⟩, ?_⟩
  · rw [hdestroyer]
    exact h.called
  · rw [hdestroyer]
    intro hne
    have hnone := h.awake hne
    omega
  · unfold remaining
    rw [hdestroyer, hsubmitters, htouched]
    omega

/-- A call of `submit` moves on. -/
theorem Calm.submitter (h : Calm s) {r r' : Submitter} {rs : List Submitter}
    (hmove : Moves s.submitters r r' rs) (hless : submitterSteps r' < submitterSteps r) :
    Calm { s with submitters := rs } ∧ remaining { s with submitters := rs } < remaining s := by
  have hsum := hmove.sum_map submitterSteps
  refine ⟨⟨h.shuttingDown, h.ready, h.called, h.empty, h.settled, h.awake⟩, ?_⟩
  unfold remaining
  dsimp only
  omega

theorem workerSteps_broadcast (ws : List Worker) :
    ((ws.map wakeWorker).map workerSteps).sum ≤ (ws.map workerSteps).sum := by
  induction ws with
  | nil => exact le_refl _
  | cons w ws ih =>
    have hle : workerSteps (wakeWorker w) ≤ workerSteps w := by
      cases w <;> simp [wakeWorker, workerSteps]
    simp only [List.map_cons, List.sum_cons]
    omega

theorem submitterSteps_broadcast (rs : List Submitter) :
    ((rs.map wakeSubmitter).map submitterSteps).sum ≤ (rs.map submitterSteps).sum := by
  induction rs with
  | nil => exact le_refl _
  | cons r rs ih =>
    have hle : submitterSteps (wakeSubmitter r) ≤ submitterSteps r := by
      cases r <;> simp [wakeSubmitter, submitterSteps]
    simp only [List.map_cons, List.sum_cons]
    omega

theorem submitterSteps_of_atPool {r : Submitter} {func arg : ℕ} (h : AtPool r func arg) :
    submitterSteps r = 1 := by
  rcases h with rfl | rfl <;> rfl

/-- Every step that changes anything brings the end nearer. -/
theorem Calm.keep (h : Calm s) (hdrained : Drained s) (heffect : Effect c s a s') :
    s' = s ∨ Calm s' ∧ remaining s' < remaining s := by
  have hopen : s.shuttingDown ≠ false := by simp [h.shuttingDown]
  have hdoomed : ∀ {w : Worker}, w ∈ s.workers → isDoomed w = true → False := fun hmem hw =>
    (doomed_pos hmem hw).ne' h.settled
  cases heffect with
  | pollsAgain _ _ _ => exact Or.inl rfl
  | pollsFailureAgain _ _ => exact Or.inl rfl
  | spawns hcreator => exact absurd (h.ready.symm.trans hcreator) (by simp)
  | spawnFails hcreator => exact absurd (h.ready.symm.trans hcreator) (by simp)
  | counts hcreator => exact absurd (h.ready.symm.trans hcreator) (by simp)
  | broadcastsFailure hcreator => exact absurd (h.ready.symm.trans hcreator) (by simp)
  | pollsFailure hcreator _ => exact absurd (h.ready.symm.trans hcreator) (by simp)
  | freesFailed hcreator => exact absurd (h.ready.symm.trans hcreator) (by simp)
  | entersLoop hmove _ => exact (hdoomed hmove.mem rfl).elim
  | falls hmove _ => exact (hdoomed hmove.mem rfl).elim
  | waits _ _ _ _ hopen' => exact absurd hopen' hopen
  | wakes hmove =>
    exact Or.inr (h.move hmove rfl rfl rfl rfl rfl rfl rfl rfl (Nat.lt_succ_self _))
  | timesOut hmove =>
    exact Or.inr (h.move hmove rfl rfl rfl rfl rfl rfl rfl rfl (Nat.lt_succ_self _))
  | leaves hat hmove _ _ =>
    refine Or.inr (h.move hmove rfl rfl rfl rfl rfl rfl rfl rfl ?_)
    rcases hat with rfl | rfl | rfl <;> exact Nat.lt_succ_self _
  | dequeues _ _ _ _ hhead => exact absurd h.empty hhead
  | executes hmove _ => exact (hdoomed hmove.mem rfl).elim
  | finishes hmove _ _ => exact (hdoomed hmove.mem rfl).elim
  | unlocks hmove =>
    exact Or.inr (h.move hmove rfl rfl rfl rfl rfl rfl rfl rfl (Nat.lt_succ_self _))
  | calls _ hdestroyer _ => exact absurd hdestroyer h.called
  | returns hat hmove _ _ _ =>
    refine Or.inr (h.submitter hmove ?_)
    rw [submitterSteps_of_atPool hat]
    exact Nat.one_pos
  | blocks _ _ _ _ hopen' => exact absurd hopen' hopen
  | submits _ _ _ _ hopen' _ _ _ _ => exact absurd hopen' hopen
  | wakesSubmitter hmove => exact Or.inr (h.submitter hmove (Nat.lt_succ_self _))
  | shutsDown _ hdestroyer _ => exact absurd hdestroyer h.called
  | broadcastsEmpty hdestroyer =>
    have hless := workerSteps_broadcast s.workers
    refine Or.inr ⟨⟨h.shuttingDown, h.ready, by simp, h.empty, ?_, fun _ => ?_⟩, ?_⟩
    · exact (doomed_broadcast s.workers).trans h.settled
    · exact waiting_broadcast s.workers
    · simp only [remaining, hdestroyer, destroyerSteps]
      omega
  | broadcastsFull hdestroyer =>
    have hless := submitterSteps_broadcast s.submitters
    refine Or.inr ⟨⟨h.shuttingDown, h.ready, by simp, h.empty, h.settled, fun _ => ?_⟩, ?_⟩
    · exact h.awake (by simp [hdestroyer])
    · simp only [remaining, hdestroyer, destroyerSteps]
      omega
  | polls hdestroyer _ _ =>
    refine Or.inr ⟨⟨h.shuttingDown, h.ready, by simp, h.empty, h.settled, fun _ => ?_⟩, ?_⟩
    · exact h.awake (by simp [hdestroyer])
    · simp only [remaining, hdestroyer, destroyerSteps]
      omega
  | discards hdestroyer hnode =>
    rw [hdrained.cleaning _ hdestroyer, hdrained.null] at hnode
    cases hnode
  | frees hdestroyer =>
    refine Or.inr ⟨⟨h.shuttingDown, h.ready, by simp, h.empty, h.settled, fun _ => ?_⟩, ?_⟩
    · exact h.awake (by simp [hdestroyer])
    · simp only [remaining, hdestroyer, destroyerSteps]
      omega

/-- So does the first step on the pool after it has been freed. -/
theorem Calm.step (h : Calm s) (hdrained : Drained s) (hadvances : Advances c s a)
    (hstep : step c s a = some s') : Calm s' ∧ remaining s' < remaining s := by
  have hne : s' ≠ s := fun heq => hadvances (heq ▸ hstep)
  rcases step_cases hstep with heffect | ⟨_, _, _, rfl⟩
  · exact (h.keep hdrained heffect).resolve_left hne
  · refine ⟨⟨h.shuttingDown, h.ready, h.called, h.empty, h.settled, h.awake⟩, ?_⟩
    cases htouched : s.touchedFreed with
    | true =>
      refine absurd ?_ hne
      rw [← htouched]
    | false => simp [remaining, htouched]

/-- Nothing but the end is left when no thread has a step of its own. -/
theorem destroyed_of_stuck (h : Calm s) (hthreads : Threads c s) (hdrained : Drained s)
    (hfreed : s.freed = true → s.destroyer = .destroyed ∨ s.creator = .failed)
    (hstuck : Stuck (step c) (Own c) s) : s.destroyer = .destroyed := by
  by_contra hnot
  have halive : s.freed = false := by
    by_contra hne
    rcases hfreed (by simpa using hne) with hdestroyed | hfailed
    · exact hnot hdestroyed
    · exact absurd (h.ready.symm.trans hfailed) (by simp)
  -- an enabled step of a thread's own would leave the state as it is
  have hidle : ∀ a s', ¬ Spurious a → act c s a = some s' → s' = s := by
    intro a s' hown hact
    rw [← step_of_not_freed halive] at hact
    by_contra hne
    have hadvances : Advances c s a := by
      unfold Advances
      rw [hact]
      exact fun heq => hne (Option.some.inj heq)
    exact absurd (hact.symm.trans (hstuck a ⟨hadvances, hown⟩)) (by simp)
  have hleaving : ∀ w ∈ s.workers, w ≠ .leaving := by
    intro w hw hleaving
    obtain ⟨i, hi⟩ := List.mem_iff_getElem?.mp hw
    rw [hleaving] at hi
    have hlocked : s.locked.toNat ≠ 0 := by
      rw [← hthreads.locked]
      exact (List.countP_pos_iff.mpr ⟨w, hw, by rw [hleaving]; rfl⟩).ne'
    have hsame := hidle (.unlock i) _ (fun hspurious => hspurious) (if_pos hi)
    exact hlocked (by rw [← congrArg State.locked hsame]; rfl)
  have hfree : s.locked = false := by
    by_contra hne
    have hcount := hthreads.locked
    rw [eq_true_of_ne_false hne, Bool.toNat_true] at hcount
    obtain ⟨w, hw, hl⟩ := exists_of_countP (p := isLeaving) (l := s.workers) (by omega)
    exact hleaving w hw (by cases w <;> simp_all [isLeaving])
  -- a worker that looks at the queue leaves
  have hqueue : ∀ w ∈ s.workers, ¬ AtQueue w := by
    intro w hw hat
    obtain ⟨i, hi⟩ := List.mem_iff_getElem?.mp hw
    have hcheck : checkQueue s i = some (leave s i) := by
      unfold checkQueue
      rw [if_neg (by simp [h.shuttingDown]), if_pos ⟨h.shuttingDown, h.empty⟩]
    have hsame : leave s i = s := by
      rcases hat with rfl | rfl | rfl
      · exact hidle (.lock i) _ (fun hspurious => hspurious) (by simp [act, hi, hfree, hcheck])
      · exact hidle (.resume i) _ (fun hspurious => hspurious)
          (by simp [act, hi, hfree, hcheck, resumeWorker])
      · exact hidle (.resume i) _ (fun hspurious => hspurious)
          (by simp [act, hi, hfree, hcheck, resumeWorker])
    exact absurd (hfree.symm.trans (congrArg State.locked hsame).symm) (by simp [leave, State.setWorker])
  have hmoves : ∀ d, (∃ a, ¬ Spurious a ∧ ∃ s', act c s a = some s' ∧ s'.destroyer = d) →
      s.destroyer = d := by
    intro d hmove
    obtain ⟨a, hown, s', hact, hd⟩ := hmove
    rw [← hidle a s' hown hact]
    exact hd
  cases hdestroyer : s.destroyer with
  | idle => exact h.called hdestroyer
  | broadcastingEmpty =>
    have hnext := hmoves .broadcastingFull
      ⟨.broadcastEmpty, fun hspurious => hspurious, _, if_pos hdestroyer, rfl⟩
    exact absurd (hdestroyer.symm.trans hnext) (by simp)
  | broadcastingFull =>
    have hnext := hmoves .polling
      ⟨.broadcastFull, fun hspurious => hspurious, _, if_pos hdestroyer, rfl⟩
    exact absurd (hdestroyer.symm.trans hnext) (by simp)
  | polling =>
    have hwaiting := List.countP_eq_zero.mp (h.awake (by simp [hdestroyer]))
    have hsettled := List.countP_eq_zero.mp h.settled
    have hleft : ∀ w ∈ s.workers, w = .left := by
      intro w hw
      have hwait := hwaiting w hw
      have hdoom := hsettled w hw
      have hleave := hleaving w hw
      have hat := hqueue w hw
      cases w <;> simp_all [isWaiting, isDoomed, AtQueue]
    have hzero : s.threadCount = 0 := by
      have hcount := hthreads.count
      rw [h.ready, List.countP_eq_zero.mpr fun w hw => by rw [hleft w hw]; simp [isLive],
        List.countP_eq_zero.mpr fun w hw => by rw [hleft w hw]; simp [isFallen]] at hcount
      exact hcount
    have hnext := hmoves (.cleaning s.taskHead)
      ⟨.poll, fun hspurious => hspurious, _, if_pos ⟨hdestroyer, hfree⟩, by rw [if_pos hzero]⟩
    exact absurd (hdestroyer.symm.trans hnext) (by simp)
  | cleaning p =>
    have hp := hdrained.cleaning p hdestroyer
    have hnext := hmoves .destroyed
      ⟨.free, fun hspurious => hspurious, _, if_pos (by rw [hdestroyer, hp]), rfl⟩
    exact absurd (hdestroyer.symm.trans hnext) (by simp)
  | destroyed => exact hnot hdestroyer

/-! ### The pool that hangs -/

/-- A worker moves that is counted off before and after, or is not. -/
theorem Hung.move (h : Hung c s) (hmove : Moves s.workers w w' s'.workers)
    (hsame : isDoomed w = isDoomed w') (hshut : s'.shuttingDown = s.shuttingDown)
    (hcreator : s'.creator = s.creator) (hdestroyer : s'.destroyer = s.destroyer)
    (hhead : s'.taskHead = s.taskHead) (hcount : s'.threadCount = s.threadCount) : Hung c s' := by
  refine ⟨hshut.trans h.shuttingDown, hcreator.trans h.ready, ?_, ?_⟩
  · rw [hdestroyer]
    exact h.waits
  · rw [doomed_move hmove hsame, hhead, hcount]
    exact h.counted

theorem Hung.keep (h : Hung c s) (hphases : Phases s) (hthreads : Threads c s)
    (heffect : Effect c s a s') : Hung c s' := by
  have hopen : s.shuttingDown ≠ false := by simp [h.shuttingDown]
  have hcalled : s.destroyer ≠ .idle := by
    rcases h.waits with hd | hd | hd <;> simp [hd]
  cases heffect with
  | spawns hcreator => exact absurd (h.ready.symm.trans hcreator) (by simp)
  | spawnFails hcreator => exact absurd (h.ready.symm.trans hcreator) (by simp)
  | counts hcreator => exact absurd (h.ready.symm.trans hcreator) (by simp)
  | broadcastsFailure hcreator => exact absurd (h.ready.symm.trans hcreator) (by simp)
  | pollsFailure hcreator _ => exact absurd (h.ready.symm.trans hcreator) (by simp)
  | freesFailed hcreator => exact absurd (h.ready.symm.trans hcreator) (by simp)
  | entersLoop hmove _ => exact absurd (hphases.running.mp ‹_›) hcalled
  | falls hmove _ => exact h.move hmove rfl rfl rfl rfl rfl rfl
  | waits _ _ _ _ hopen' => exact absurd hopen' hopen
  | wakes hmove => exact h.move hmove rfl rfl rfl rfl rfl rfl
  | timesOut hmove => exact h.move hmove rfl rfl rfl rfl rfl rfl
  | leaves hat hmove _ hreason =>
    refine ⟨h.shuttingDown, h.ready, h.waits, ?_⟩
    rcases h.counted with hdoomed | ⟨hhead, _⟩
    · left
      rw [← doomed_move hmove (isDoomed_of_atQueue hat)] at hdoomed
      exact hdoomed
    · right
      rcases hreason with ⟨_, hempty⟩ | ⟨_, hmany⟩
      · exact absurd hempty hhead
      · refine ⟨hhead, ?_⟩
        change c.minThreads ≤ decrement s.threadCount
        rw [decrement_of_pos (Nat.zero_lt_of_lt hmany)]
        omega
  | @dequeues _ w ws task hat _ hmove _ _ =>
    refine ⟨h.shuttingDown, h.ready, h.waits, Or.inl ?_⟩
    have hcount : ws.countP isDoomed + (isDoomed w).toNat = s.workers.countP isDoomed + 1 :=
      hmove.countP isDoomed
    rw [isDoomed_of_atQueue hat, Bool.toNat_false] at hcount
    change 0 < ws.countP isDoomed
    omega
  | executes hmove _ => exact h.move hmove rfl rfl rfl rfl rfl rfl
  | finishes hmove _ _ => exact h.move hmove rfl rfl rfl rfl rfl rfl
  | unlocks hmove => exact h.move hmove rfl rfl rfl rfl rfl rfl
  | calls _ hdestroyer _ => exact absurd hdestroyer hcalled
  | submits _ _ _ _ hopen' _ _ _ _ => exact absurd hopen' hopen
  | shutsDown _ hdestroyer _ => exact absurd hdestroyer hcalled
  | broadcastsEmpty _ =>
    refine ⟨h.shuttingDown, h.ready, Or.inr (Or.inl rfl), ?_⟩
    change 0 < (s.workers.map wakeWorker).countP isDoomed ∨ _
    rw [doomed_broadcast]
    exact h.counted
  | broadcastsFull _ => exact ⟨h.shuttingDown, h.ready, Or.inr (Or.inr rfl), h.counted⟩
  | polls _ _ hcount =>
    have hpos : 0 < s.threadCount := by
      rcases h.counted with hdoomed | ⟨_, hmin⟩
      · exact threadCount_pos hthreads h.ready hdoomed
      · exact c.min_pos.trans_le hmin
    exact absurd hcount hpos.ne'
  | discards hdestroyer _ =>
    rcases h.waits with hd | hd | hd <;> exact absurd (hd.symm.trans hdestroyer) (by simp)
  | frees hdestroyer =>
    rcases h.waits with hd | hd | hd <;> exact absurd (hd.symm.trans hdestroyer) (by simp)
  | _ => exact ⟨h.shuttingDown, h.ready, h.waits, h.counted⟩

/-! ### Runs -/

/-- `destroy` is called on a pool that `create` has returned, and once. -/
theorem called_of_shutDown (h : step c s .shutDown = some s') :
    s.creator = .ready ∧ s.destroyer = .idle := by
  have hact : act c s .shutDown ≠ none := by
    intro hnone
    unfold step at h
    rw [hnone] at h
    split at h <;> cases h
  obtain ⟨s'', hact⟩ := Option.ne_none_iff_exists'.mp hact
  obtain ⟨⟨hready, hidle, _⟩, _⟩ := guard_cases hact
  exact ⟨hready, hidle⟩

theorem calm_of_quiet (hquiet : Quiet s) (hready : s.creator = .ready) :
    Calm { s with shuttingDown := true, running := false, destroyer := .broadcastingEmpty } :=
  ⟨rfl, hready, by simp, hquiet.1, hquiet.2, fun hne => absurd rfl hne⟩

theorem hung_of_not_quiet (hphases : Phases s) (hthreads : Threads c s) (hready : s.creator = .ready)
    (hidle : s.destroyer = .idle) (hnot : ¬ Quiet s) :
    Hung c { s with shuttingDown := true, running := false, destroyer := .broadcastingEmpty } := by
  refine ⟨rfl, hready, Or.inl rfl, ?_⟩
  by_cases hhead : s.taskHead = 0
  · left
    exact Nat.pos_of_ne_zero fun hzero => hnot ⟨hhead, hzero⟩
  · right
    have hopen : s.shuttingDown = false := by
      rw [← Bool.not_eq_true, hphases.shuttingDown]
      simp [hready, hidle, isFailing]
    exact ⟨hhead, hthreads.enough hready hopen⟩

theorem workers_remaining_le (ws : List Worker) :
    (ws.map workerSteps).sum ≤ 3 * ws.countP isInside := by
  refine sum_map_le (fun w => ?_) ws
  cases w <;> simp [workerSteps, isInside]

theorem submitters_remaining_le (rs : List Submitter) :
    (rs.map submitterSteps).sum ≤ 2 * rs.countP isPending := by
  refine sum_map_le (fun r => ?_) rs
  cases r <;> simp [submitterSteps, isPending]

/-- Whether `destroy` returns is decided at its first critical section. If the
queue is empty and no worker is before the test of `pool->running` or behind it
with a task, then every run from there is finite, not counting vain looks at
`thread_count`, and ends with the pool destroyed; otherwise no run ever does.
Workers and calls that have returned do not add to the length of the run. -/
theorem destroy_returns (h : Reachable initial (step c) (fun _ _ => True) s)
    (hstep : step c s .shutDown = some s') :
    (Quiet s → EndsIn (step c) (Advances c) (Own c) s'
      (3 * s.workers.countP isInside + 2 * s.submitters.countP isPending + 5)
      fun t => t.destroyer = .destroyed) ∧
    ((∃ t, Reachable s' (step c) (fun _ _ => True) t ∧ t.destroyer = .destroyed) → Quiet s) := by
  have hreach' : Reachable initial (step c) (fun _ _ => True) s' := h.step trivial hstep
  obtain ⟨hready, hidle⟩ := called_of_shutDown hstep
  have halive : s.freed = false := by
    by_contra hne
    rcases reachable_freed h (eq_true_of_ne_false hne) with hdestroyed | hfailed
    · exact absurd (hidle.symm.trans hdestroyed) (by simp)
    · exact absurd (hready.symm.trans hfailed) (by simp)
  rw [step_of_not_freed halive] at hstep
  cases (guard_cases hstep).2
  constructor
  · intro hquiet
    refine endsIn_of_measure (μ := remaining)
      (I := fun t => Reachable initial (step c) (fun _ _ => True) t ∧ Calm t) ?_ ?_
      ⟨hreach', calm_of_quiet hquiet hready⟩ ?_
    · intro t a t' ⟨hreach, hcalm⟩ hadvances hstep
      obtain ⟨hcalm', hless⟩ := hcalm.step (reachable_drained hreach) hadvances hstep
      exact ⟨⟨hreach.step trivial hstep, hcalm'⟩, hless⟩
    · intro t ⟨hreach, hcalm⟩ hstuck
      exact destroyed_of_stuck hcalm (reachable_threads hreach) (reachable_drained hreach)
        (reachable_freed hreach) hstuck
    · have hworkers := workers_remaining_le s.workers
      have hsubmitters := submitters_remaining_le s.submitters
      have htouched := Bool.toNat_le (!s.touchedFreed)
      simp only [remaining, destroyerSteps]
      omega
  · intro ⟨t, hreach, hdestroyed⟩
    by_contra hnot
    have hhung : Reachable initial (step c) (fun _ _ => True) t ∧ Hung c t := by
      refine hreach.invariant
        (I := fun t => Reachable initial (step c) (fun _ _ => True) t ∧ Hung c t)
        ⟨hreach', hung_of_not_quiet (reachable_phases h) (reachable_threads h) hready hidle hnot⟩ ?_
      intro t a t' ⟨hreach, hhung⟩ _ hstep
      refine ⟨hreach.step trivial hstep, ?_⟩
      rcases step_cases hstep with heffect | ⟨hfreed, _⟩
      · exact hhung.keep (reachable_phases hreach) (reachable_threads hreach) heffect
      · rcases reachable_freed hreach hfreed with hd | hfailed
        · rcases hhung.waits with hw | hw | hw <;> exact absurd (hw.symm.trans hd) (by simp)
        · exact absurd (hhung.ready.symm.trans hfailed) (by simp)
    rcases hhung.2.waits with hw | hw | hw <;> exact absurd (hw.symm.trans hdestroyed) (by simp)

/-- With its one worker waiting, and a call of `submit` that has returned, the
pool is destroyed in at most eight steps; with the worker at work it never is. -/
theorem destroy_returns_one :
    (∃ s s', Reachable initial (step oneWorker) (fun _ _ => True) s ∧ s.workers = [.waiting] ∧
      s.submitters = [.returned .ok] ∧ step oneWorker s .shutDown = some s' ∧
      EndsIn (step oneWorker) (Advances oneWorker) (Own oneWorker) s' 8
        fun t => t.destroyer = .destroyed) ∧
    ∃ s s', Reachable initial (step oneWorker) (fun _ _ => True) s ∧
      s.workers = [.running 8 ⟨0, 5, 1⟩] ∧ step oneWorker s .shutDown = some s' ∧
      ∀ t, Reachable s' (step oneWorker) (fun _ _ => True) t → t.destroyer ≠ .destroyed := by
  constructor
  · obtain ⟨s, hreach, hs⟩ : ∃ s, Reachable initial (step oneWorker) (fun _ _ => True) s ∧
        decide (s.workers = [.waiting] ∧ s.submitters = [.returned .ok] ∧ s.taskHead = 0 ∧
          (step oneWorker s .shutDown).isSome = true) = true :=
      exists_reachable [.spawn true, .count, .test 0, .lock 0, .call 5 1,
        .enter 0 ⟨false, 8, 0, false⟩, .resume 0, .execute 0, .finish 0 0, .test 0, .lock 0] _
        (by decide)
    obtain ⟨hworkers, hreturned, hhead, hsome⟩ := of_decide_eq_true hs
    obtain ⟨s', hstep⟩ := Option.isSome_iff_exists.mp hsome
    refine ⟨s, s', hreach, hworkers, hreturned, hstep, ?_⟩
    have hends := (destroy_returns hreach hstep).1 ⟨hhead, by rw [hworkers]; rfl⟩
    rw [hworkers, hreturned] at hends
    exact hends
  · obtain ⟨s, hreach, hs⟩ : ∃ s, Reachable initial (step oneWorker) (fun _ _ => True) s ∧
        decide (s.workers = [.running 8 ⟨0, 5, 1⟩] ∧
          (step oneWorker s .shutDown).isSome = true) = true :=
      exists_reachable [.spawn true, .count, .test 0, .lock 0, .call 5 1,
        .enter 0 ⟨false, 8, 0, false⟩, .resume 0] _ (by decide)
    obtain ⟨hworkers, hsome⟩ := of_decide_eq_true hs
    obtain ⟨s', hstep⟩ := Option.isSome_iff_exists.mp hsome
    refine ⟨s, s', hreach, hworkers, hstep, fun t ht hdestroyed => ?_⟩
    have hquiet := (destroy_returns hreach hstep).2 ⟨t, ht, hdestroyed⟩
    have hsettled := hquiet.2
    rw [hworkers] at hsettled
    exact absurd hsettled (by decide)

end Ppdb.ThreadPoolShutdown
