import Ppdb.ThreadPoolCounts

/-!
Who may still be on the pool when it is freed. A count of zero, read with the
mutex free, says that every worker has returned; it says nothing of the calls
of `submit` that `destroy` has woken, and read without the mutex it says
nothing of a worker that still has to unlock.
-/

namespace Ppdb.ThreadPoolLifetime

open ThreadPool ThreadLists ThreadPoolSteps ThreadPoolCounts Transitions

def isInside : Submitter → Bool
  | .returned _ => false
  | _ => true

def Closing (s : State) : Prop :=
  (∃ p, s.destroyer = .cleaning p) ∨ s.destroyer = .destroyed ∨
    s.creator = .cleaning ∨ s.creator = .failed

/-- The pool is freed with no call of `submit` inside, and `create` reads a
count of zero only when the mutex is free. -/
def FreesAlone (s : State) : Action → Prop
  | .free => s.submitters.countP isInside = 0
  | .pollFailure => s.threadCount = 0 → s.locked = false
  | _ => True

instance (s : State) : (a : Action) → Decidable (FreesAlone s a)
  | .free => inferInstanceAs (Decidable (s.submitters.countP isInside = 0))
  | .pollFailure => inferInstanceAs (Decidable (s.threadCount = 0 → s.locked = false))
  | .spawn _ | .count | .broadcastFailure | .freeFailed | .test _ | .lock _ | .wake _
  | .timeOut _ | .resume _ | .execute _ | .finish _ _ | .unlock _ | .call _ _ | .enter _ _
  | .wakeSubmit _ | .resumeSubmit _ _ | .shutDown | .broadcastEmpty | .broadcastFull | .poll
  | .discard => inferInstanceAs (Decidable True)

def twoWorkers : Config where
  minThreads := 2
  maxThreads := 2
  queueSize := 1
  min_pos := Nat.two_pos
  min_le_max := le_refl 2
  queue_pos := Nat.one_pos

structure Lifetime (s : State) : Prop where
  gone : Closing s → s.workers.countP isLive = 0 ∧ s.workers.countP isLeaving = 0
  freed : s.freed = true → (s.destroyer = .destroyed ∨ s.creator = .failed) ∧
    s.submitters.countP isInside = 0
  touched : s.touchedFreed = false

variable {c : Config} {s s' : State} {a : Action}

theorem lifetime_initial : Lifetime initial := by
  constructor
  · rintro (⟨p, h⟩ | h | h | h) <;> cases h
  · intro h
    cases h
  · rfl

/-! ### A pool without workers -/

theorem Lifetime.no_worker (h : Lifetime s) (hclosing : Closing s) {w : Worker}
    (hw : w ∈ s.workers) : isLive w = false ∧ isLeaving w = false := by
  obtain ⟨hlive, hleaving⟩ := h.gone hclosing
  rw [List.countP_eq_zero] at hlive hleaving
  exact ⟨by simpa using hlive w hw, by simpa using hleaving w hw⟩

theorem Lifetime.no_live_move (h : Lifetime s) (hclosing : Closing s) {w w' : Worker}
    {ws : List Worker} (hmove : Moves s.workers w w' ws) (hw : isLive w = true) : False := by
  rw [(h.no_worker hclosing hmove.mem).1] at hw
  cases hw

theorem Lifetime.no_submitter (h : Lifetime s) (hfreed : s.freed = true) {r r' : Submitter}
    {rs : List Submitter} (hmove : Moves s.submitters r r' rs) (hr : isInside r = true) : False := by
  have hinside := (h.freed hfreed).2
  rw [List.countP_eq_zero] at hinside
  exact hinside r hmove.mem hr

theorem isInside_of_atPool {r : Submitter} {func arg : ℕ} (h : AtPool r func arg) :
    isInside r = true := by
  rcases h with rfl | rfl <;> rfl

theorem closing_of_freed (h : Lifetime s) (hfreed : s.freed = true) : Closing s := by
  rcases (h.freed hfreed).1 with hdestroyer | hcreator
  · exact Or.inr (Or.inl hdestroyer)
  · exact Or.inr (Or.inr (Or.inr hcreator))

/-- On a freed pool no thread has a step left. -/
theorem Lifetime.stuck (h : Lifetime s) (hphases : Phases s) (hfreed : s.freed = true)
    (heffect : Effect c s a s') : False := by
  have hclosing := closing_of_freed h hfreed
  have hends : s.destroyer = .destroyed ∧ s.creator = .ready ∨
      s.destroyer = .idle ∧ s.creator = .failed := by
    rcases (h.freed hfreed).1 with hdestroyer | hcreator
    · exact Or.inl ⟨hdestroyer, ready_of_destroyer hphases (by simp [hdestroyer])⟩
    · exact Or.inr ⟨(hphases.early (by simp [hcreator])).1, hcreator⟩
  cases heffect with
  | entersLoop hmove _ => exact h.no_live_move hclosing hmove rfl
  | falls hmove _ => exact h.no_live_move hclosing hmove rfl
  | waits hat hmove _ _ _ => exact h.no_live_move hclosing hmove (isLive_of_atQueue hat)
  | wakes hmove => exact h.no_live_move hclosing hmove rfl
  | timesOut hmove => exact h.no_live_move hclosing hmove rfl
  | leaves hat hmove _ _ => exact h.no_live_move hclosing hmove (isLive_of_atQueue hat)
  | dequeues hat _ hmove _ _ => exact h.no_live_move hclosing hmove (isLive_of_atQueue hat)
  | executes hmove _ => exact h.no_live_move hclosing hmove rfl
  | finishes hmove _ _ => exact h.no_live_move hclosing hmove rfl
  | unlocks hmove => exact absurd (h.no_worker hclosing hmove.mem).2 (by simp [isLeaving])
  | returns hat hmove _ _ _ => exact h.no_submitter hfreed hmove (isInside_of_atPool hat)
  | blocks hat hmove _ _ _ => exact h.no_submitter hfreed hmove (isInside_of_atPool hat)
  | submits hat hmove _ _ _ _ _ _ _ => exact h.no_submitter hfreed hmove (isInside_of_atPool hat)
  | wakesSubmitter hmove => exact h.no_submitter hfreed hmove rfl
  | _ => simp_all

/-- A step that neither ends the wait for the workers nor frees the pool. -/
theorem Lifetime.of_eq (h : Lifetime s) (hnot : s.freed = false)
    (hgone : Closing s' → s'.workers.countP isLive = 0 ∧ s'.workers.countP isLeaving = 0)
    (hfreed : s'.freed = s.freed) (htouched : s'.touchedFreed = s.touchedFreed) : Lifetime s' := by
  refine ⟨hgone, ?_, htouched.trans h.touched⟩
  intro hon
  rw [hfreed, hnot] at hon
  cases hon

/-- A live worker takes a step: then the wait for the workers is not over. -/
theorem Lifetime.of_live_move (h : Lifetime s) (hnot : s.freed = false) {w w' : Worker}
    {ws : List Worker} (hmove : Moves s.workers w w' ws) (hw : isLive w = true)
    (hclosing : Closing s' → Closing s) (hfreed : s'.freed = s.freed)
    (htouched : s'.touchedFreed = s.touchedFreed) : Lifetime s' := by
  apply h.of_eq hnot _ hfreed htouched
  intro hclosing'
  exact (h.no_live_move (hclosing hclosing') hmove hw).elim

/-- The pool is still being used or created. -/
theorem Lifetime.of_open (h : Lifetime s) (hnot : s.freed = false) (hopen : ¬ Closing s')
    (hfreed : s'.freed = s.freed) (htouched : s'.touchedFreed = s.touchedFreed) : Lifetime s' := by
  apply h.of_eq hnot _ hfreed htouched
  intro hclosing
  exact absurd hclosing hopen

/-- A zero count, read with the mutex free, says that every worker has returned. -/
theorem gone_of_zero (h : Threads c s) (hcount : s.threadCount = 0)
    (hsettled : uncounted s.creator = 0) (hfree : s.locked = false) :
    s.workers.countP isLive = 0 ∧ s.workers.countP isLeaving = 0 := by
  have hsum := h.count
  have hlocked := h.locked
  rw [hfree] at hlocked
  exact ⟨by omega, hlocked⟩

theorem Lifetime.keep (h : Lifetime s) (hphases : Phases s) (hthreads : Threads c s)
    (hnot : s.freed = false) (heffect : Effect c s a s') (hadmitted : FreesAlone s a) :
    Lifetime s' := by
  have hidle : s.creator ≠ .ready → s.destroyer = .idle := fun hne => (hphases.early hne).1
  cases heffect with
  | spawns hcreator =>
    have hdestroyer := hidle (by simp [hcreator])
    exact h.of_open hnot (by simp [Closing, hdestroyer]) rfl rfl
  | spawnFails hcreator =>
    have hdestroyer := hidle (by simp [hcreator])
    exact h.of_open hnot (by simp [Closing, hdestroyer]) rfl rfl
  | @counts i hcreator =>
    have hdestroyer := hidle (by simp [hcreator])
    refine h.of_open hnot ?_ rfl rfl
    by_cases hmore : i + 1 < c.minThreads <;> simp [Closing, hdestroyer, hmore]
  | broadcastsFailure hcreator =>
    have hdestroyer := hidle (by simp [hcreator])
    exact h.of_open hnot (by simp [Closing, hdestroyer]) rfl rfl
  | pollsFailure hcreator hcount =>
    have hsettled : uncounted s.creator = 0 := by rw [hcreator]; rfl
    have hgone := gone_of_zero hthreads hcount hsettled (hadmitted hcount)
    exact h.of_eq hnot (fun _ => hgone) rfl rfl
  | freesFailed hcreator =>
    have hgone := h.gone (Or.inr (Or.inr (Or.inl hcreator)))
    have hearly := hphases.early (by simp [hcreator])
    refine ⟨fun _ => hgone, fun _ => ⟨Or.inr rfl, ?_⟩, h.touched⟩
    show s.submitters.countP isInside = 0
    rw [hearly.2.1]
    rfl
  | entersLoop hmove _ => exact h.of_live_move hnot hmove rfl id rfl rfl
  | falls hmove _ => exact h.of_live_move hnot hmove rfl id rfl rfl
  | waits hat hmove _ _ _ =>
    exact h.of_live_move hnot hmove (isLive_of_atQueue hat) id rfl rfl
  | wakes hmove => exact h.of_live_move hnot hmove rfl id rfl rfl
  | timesOut hmove => exact h.of_live_move hnot hmove rfl id rfl rfl
  | leaves hat hmove _ _ =>
    exact h.of_live_move hnot hmove (isLive_of_atQueue hat) id rfl rfl
  | dequeues hat _ hmove _ _ =>
    exact h.of_live_move hnot hmove (isLive_of_atQueue hat) id rfl rfl
  | executes hmove _ => exact h.of_live_move hnot hmove rfl id rfl rfl
  | finishes hmove _ _ => exact h.of_live_move hnot hmove rfl id rfl rfl
  | unlocks hmove =>
    refine h.of_eq hnot ?_ rfl rfl
    intro hclosing
    exact absurd (h.no_worker hclosing hmove.mem).2 (by simp [isLeaving])
  | submits _ hmove _ _ hopen _ _ _ _ =>
    -- the pool is neither shut down nor given up
    have hready := ready_of_submitter hphases hmove
    have hdestroyer := hphases.running.mp (running_of_open hphases hopen)
    exact h.of_open hnot (by simp [Closing, enqueue, hready, hdestroyer]) rfl rfl
  | shutsDown hcreator _ _ => exact h.of_open hnot (by simp [Closing, hcreator]) rfl rfl
  | broadcastsEmpty hdestroyer =>
    have hready := ready_of_destroyer hphases (by simp [hdestroyer])
    exact h.of_open hnot (by simp [Closing, hready]) rfl rfl
  | broadcastsFull hdestroyer =>
    have hready := ready_of_destroyer hphases (by simp [hdestroyer])
    exact h.of_open hnot (by simp [Closing, hready]) rfl rfl
  | polls hdestroyer hfree hcount =>
    have hready := ready_of_destroyer hphases (by simp [hdestroyer])
    have hsettled : uncounted s.creator = 0 := by rw [hready]; rfl
    have hgone := gone_of_zero hthreads hcount hsettled hfree
    exact h.of_eq hnot (fun _ => hgone) rfl rfl
  | discards hdestroyer _ =>
    have hgone := h.gone (Or.inl ⟨_, hdestroyer⟩)
    exact h.of_eq hnot (fun _ => hgone) rfl rfl
  | frees hdestroyer =>
    have hgone := h.gone (Or.inl ⟨_, hdestroyer⟩)
    exact ⟨fun _ => hgone, fun _ => ⟨Or.inl rfl, hadmitted⟩, h.touched⟩
  | _ => exact h.of_eq hnot h.gone rfl rfl

/-- In such runs no thread takes a step on the pool after it has been freed. -/
theorem no_step_after_free (h : Reachable initial (step c) FreesAlone s) :
    s.touchedFreed = false := by
  have hlife : Lifetime s := by
    refine h.invariant_of (J := fun s => Phases s ∧ Threads c s)
      (fun s hs => ⟨reachable_phases hs, reachable_threads hs⟩) lifetime_initial
      ?_
    intro s a s' hJ hs hadmitted hstep
    rcases step_cases hstep with heffect | ⟨hfreed, _, ⟨_, heffect⟩, _⟩
    · cases hfreed : s.freed with
      | true => exact (hs.stuck hJ.1 hfreed heffect).elim
      | false => exact hs.keep hJ.1 hJ.2 hfreed heffect hadmitted
    · exact (hs.stuck hJ.1 hfreed heffect).elim
  exact hlife.touched

/-- A worker leaves, a call of `submit` returns, and the pool is freed. -/
theorem no_step_after_free_one : ∃ s, Reachable initial (step oneWorker) FreesAlone s ∧
    s.freed = true ∧ s.touchedFreed = false := by
  obtain ⟨s, hreach, hs⟩ : ∃ s, Reachable initial (step oneWorker) FreesAlone s ∧
      decide (s.freed = true) = true :=
    exists_reachable [.spawn true, .count, .test 0, .lock 0, .call 1 2, .shutDown, .broadcastEmpty,
      .broadcastFull, .resume 0, .unlock 0, .enter 0 ⟨false, 0, 0, false⟩, .poll, .free] _ (by decide)
  exact ⟨s, hreach, of_decide_eq_true hs, no_step_after_free hreach⟩

/-- Destroyed with a call of `submit` about to lock the mutex, and failing to
be created with a worker about to unlock it. -/
theorem step_after_free :
    (∃ s, Reachable initial (step oneWorker) (fun _ _ => True) s ∧ s.destroyer = .destroyed ∧
      s.touchedFreed = true) ∧
    ∃ s, Reachable initial (step twoWorkers) (fun _ _ => True) s ∧ s.creator = .failed ∧
      s.touchedFreed = true := by
  constructor
  · obtain ⟨s, hreach, hs⟩ : ∃ s, Reachable initial (step oneWorker) (fun _ _ => True) s ∧
        decide (s.destroyer = .destroyed ∧ s.touchedFreed = true) = true :=
      exists_reachable [.spawn true, .count, .test 0, .lock 0, .call 1 2, .shutDown,
        .broadcastEmpty, .broadcastFull, .resume 0, .unlock 0, .poll, .free,
        .enter 0 ⟨false, 0, 0, false⟩] _ (by decide)
    exact ⟨s, hreach, of_decide_eq_true hs⟩
  · obtain ⟨s, hreach, hs⟩ : ∃ s, Reachable initial (step twoWorkers) (fun _ _ => True) s ∧
        decide (s.creator = .failed ∧ s.touchedFreed = true) = true :=
      exists_reachable [.spawn true, .count, .test 0, .spawn false, .broadcastFailure, .lock 0,
        .pollFailure, .freeFailed, .unlock 0] _ (by decide)
    exact ⟨s, hreach, of_decide_eq_true hs⟩

end Ppdb.ThreadPoolLifetime
