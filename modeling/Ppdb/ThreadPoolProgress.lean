import Ppdb.BoundedRuns
import Ppdb.ThreadPoolWakeups

/-!
That the work gets done. A worker that is left to itself comes to rest after a
few steps for every task in the queue, and when all of them rest the queue is
empty and every task that was accepted has been executed, with no help from
time-outs or spurious wake-ups.
-/

namespace Ppdb.ThreadPoolProgress

open ThreadPool ThreadLists ThreadPoolSteps ThreadPoolCounts ThreadPoolQueue ThreadPoolWakeups
  Transitions BoundedRuns

def Works (_ : State) : Action → Prop
  | .test _ | .lock _ | .resume _ | .execute _ | .finish _ _ | .unlock _ => True
  | _ => False

def isInside : Worker → Bool
  | .left => false
  | .fell => false
  | _ => true

/-- How many steps a worker may take before it rests, if it gets no task. -/
def load : Worker → ℕ
  | .running _ _ => 5
  | .finishing => 4
  | .testing => 3
  | .locking | .woken | .timedOut => 2
  | .leaving => 1
  | .waiting | .left | .fell => 0

def work (s : State) : ℕ := 4 * s.taskCount + (s.workers.map load).sum

/-- A step towards rest, which nobody but the workers takes part in. -/
structure Worked (s s' : State) : Prop where
  accepted : s'.accepted = s.accepted
  shuttingDown : s'.shuttingDown = s.shuttingDown
  less : work s' < work s

variable {c : Config} {s s' t : State} {a : Action} {i : ℕ} {w : Worker}

/-- The pool is freed only when it has been shut down. -/
theorem reachable_freed {P : State → Action → Prop} (h : Reachable initial (step c) P s) :
    s.freed = true → s.destroyer = .destroyed ∨ s.creator = .failed := by
  refine h.invariant (I := fun s => s.freed = true → s.destroyer = .destroyed ∨ s.creator = .failed)
    (fun hfreed => by cases hfreed) fun s a s' hs _ hstep => ?_
  cases hfreed : s.freed with
  | true =>
    have hsame : s'.destroyer = s.destroyer ∧ s'.creator = s.creator := by
      unfold step at hstep
      rw [hfreed, Bool.true_and] at hstep
      split at hstep
      · obtain ⟨_, _, rfl⟩ := Option.map_eq_some_iff.mp hstep
        exact ⟨rfl, rfl⟩
      · cases a with
        | execute i =>
          change execute s i = some s' at hstep
          unfold execute at hstep
          repeat' split at hstep
          all_goals cases hstep
          exact ⟨rfl, rfl⟩
        | _ => exact absurd rfl ‹_›
    intro _
    rw [hsame.1, hsame.2]
    exact hs hfreed
  | false =>
    intro hfreed'
    rcases step_cases hstep with heffect | ⟨hfreed'', _⟩
    · cases heffect with
      | frees _ => exact Or.inl rfl
      | freesFailed _ => exact Or.inr rfl
      | _ => exact absurd (hfreed.symm.trans hfreed') Bool.false_ne_true
    · exact absurd (hfreed.symm.trans hfreed'') Bool.false_ne_true

theorem freed_of_open {P : State → Action → Prop} (h : Reachable initial (step c) P s)
    (hopen : s.shuttingDown = false) : s.freed = false := by
  cases hfreed : s.freed with
  | false => rfl
  | true =>
    have hshut : s.shuttingDown = true := by
      rw [(reachable_phases h).shuttingDown]
      rcases reachable_freed h hfreed with hdestroyer | hcreator
      · exact Or.inr (by simp [hdestroyer])
      · exact Or.inl (by simp [hcreator, isFailing])
    exact absurd (hopen.symm.trans hshut) Bool.false_ne_true

theorem step_of_not_freed (h : s.freed = false) (a : Action) : step c s a = act c s a := by
  unfold step
  rw [h, Bool.false_and, if_neg Bool.false_ne_true]

/-! ### One step -/

theorem sum_load_le (ws : List Worker) : (ws.map load).sum ≤ 5 * ws.countP isInside := by
  refine sum_map_le (fun w => ?_) ws
  cases w <;> simp [load, isInside]

theorem load_of_atQueue (h : AtQueue w) : load w = 2 := by
  rcases h with rfl | rfl | rfl <;> rfl

/-- Worker `i` moves on, and it may have taken a task. -/
theorem worked_of_set (w' : Worker) (hw : s.workers[i]? = some w)
    (hworkers : s'.workers = s.workers.set i w') (haccepted : s'.accepted = s.accepted)
    (hshut : s'.shuttingDown = s.shuttingDown)
    (hless : 4 * s'.taskCount + load w' < 4 * s.taskCount + load w) : Worked s s' := by
  have hsum := (moves_set hw w').sum_map load
  refine ⟨haccepted, hshut, ?_⟩
  unfold work
  rw [hworkers]
  omega

theorem leave_worked (hw : s.workers[i]? = some w) (hat : AtQueue w) : Worked s (leave s i) := by
  refine worked_of_set .leaving hw rfl rfl rfl ?_
  rw [load_of_atQueue hat]
  exact Nat.lt_succ_self _

theorem checkQueue_worked (hw : s.workers[i]? = some w) (hat : AtQueue w)
    (hqueue : ∃ queue, Accounted s queue) (h : checkQueue s i = some s') : Worked s s' := by
  have hload := load_of_atQueue hat
  unfold checkQueue at h
  split_ifs at h with hempty hleaves
  · cases h
    refine worked_of_set .waiting hw rfl rfl rfl ?_
    rw [hload]
    exact Nat.lt_add_of_pos_right Nat.two_pos
  · cases h
    exact leave_worked hw hat
  · have hhead : s.taskHead ≠ 0 := by
      intro hzero
      cases hshut : s.shuttingDown with
      | true => exact hleaves ⟨hshut, hzero⟩
      | false => exact hempty ⟨hzero, hshut⟩
    have hpos := (taskCount_pos hqueue).mpr hhead
    unfold dequeue at h
    cases hnode : s.heap s.taskHead with
    | none => simp [hnode] at h
    | some task =>
      rw [hnode] at h
      cases h
      refine worked_of_set (.running s.taskHead task.job) hw rfl rfl rfl ?_
      change 4 * decrement s.taskCount + 5 < _
      rw [hload, decrement_of_pos hpos]
      omega

theorem execute_worked (h : execute s i = some s') : Worked s s' := by
  unfold execute at h
  split at h
  · next p job hw =>
    cases hnode : s.heap p with
    | none => simp [hnode] at h
    | some task =>
      rw [hnode] at h
      cases h
      exact worked_of_set .finishing hw rfl rfl rfl (Nat.lt_succ_self _)
  · cases h

theorem finish_worked {waiter : ℕ} (hw : s.workers[i]? = some .finishing)
    (h : finish c s i waiter = some s') : Worked s s' := by
  unfold finish at h
  dsimp only at h
  split_ifs at h
  · obtain ⟨rs, _, rfl⟩ := signalNotFull_cases h
    exact worked_of_set .testing hw rfl rfl rfl (Nat.lt_succ_self _)
  · cases h
    exact worked_of_set .testing hw rfl rfl rfl (Nat.lt_succ_self _)

theorem step_worked (hqueue : ∃ queue, Accounted s queue) (hfreed : s.freed = false)
    (hworks : Works s a) (h : step c s a = some s') : Worked s s' := by
  rw [step_of_not_freed hfreed] at h
  cases a with
  | test i =>
    obtain ⟨hw, h⟩ := guard_cases h
    cases h
    refine worked_of_set _ hw rfl rfl rfl ?_
    change 4 * s.taskCount + load _ < 4 * s.taskCount + 3
    split_ifs
    · exact Nat.lt_succ_self _
    · exact Nat.lt_add_of_pos_right (by decide : 0 < 3)
  | lock i =>
    obtain ⟨⟨hw, _⟩, h⟩ := guard_cases h
    exact checkQueue_worked hw (Or.inl rfl) hqueue h
  | resume i =>
    obtain ⟨_, h⟩ := guard_cases h
    unfold resumeWorker at h
    split at h
    · exact checkQueue_worked ‹_› (Or.inr (Or.inl rfl)) hqueue h
    · split_ifs at h
      · cases h
        exact leave_worked ‹_› (Or.inr (Or.inr rfl))
      · exact checkQueue_worked ‹_› (Or.inr (Or.inr rfl)) hqueue h
    · cases h
  | execute i => exact execute_worked h
  | finish i waiter =>
    obtain ⟨⟨hw, _⟩, h⟩ := guard_cases h
    exact finish_worked hw h
  | unlock i =>
    obtain ⟨hw, h⟩ := guard_cases h
    cases h
    exact worked_of_set .left hw rfl rfl rfl (Nat.lt_succ_self _)
  | _ => exact hworks.elim

/-! ### At rest -/

theorem checkQueue_enabled (h : ∃ queue, Accounted s queue) (i : ℕ) : checkQueue s i ≠ none := by
  obtain ⟨queue, hs⟩ := h
  unfold checkQueue
  split_ifs with hempty hleaves
  · simp
  · simp
  · have hhead : s.taskHead ≠ 0 := by
      intro hzero
      cases hshut : s.shuttingDown with
      | true => exact hleaves ⟨hshut, hzero⟩
      | false => exact hempty ⟨hzero, hshut⟩
    -- the head of the queue is a task in memory
    have hqueue : queue ≠ [] := by
      intro hnil
      apply hhead
      rw [hs.linked.head_null_iff, hnil]
      rfl
    obtain ⟨x, rest, rfl⟩ := List.exists_cons_of_ne_nil hqueue
    have hx : s.taskHead = x.1 := hs.linked.segment.1
    obtain ⟨task, hnode⟩ := hs.stored_node (q := x.1) (by simp)
    unfold dequeue
    rw [hx, hnode]
    simp

theorem signalNotFull_enabled (s : State) : ∃ waiter, signalNotFull s waiter ≠ none := by
  by_cases hsome : s.submitters.any isBlocked = true
  · obtain ⟨r, hr, hblocked⟩ := List.any_eq_true.mp hsome
    obtain ⟨j, hj, rfl⟩ := List.mem_iff_getElem.mp hr
    refine ⟨j, ?_⟩
    have hget : s.submitters[j]? = some s.submitters[j] := List.getElem?_eq_getElem hj
    unfold signalNotFull
    rw [hget]
    cases hcase : s.submitters[j] <;> simp_all [isBlocked]
  · refine ⟨0, ?_⟩
    unfold signalNotFull
    split
    · simp
    · simp [hsome]

/-- A worker that is not at rest has a step, or another one holds the mutex. -/
theorem resting_of_stuck (hqueue : ∃ queue, Accounted s queue) (hthreads : Threads c s)
    (hfreed : s.freed = false) (hstuck : Stuck (step c) Works s) (hw : w ∈ s.workers) :
    w = .waiting ∨ w = .left ∨ w = .fell := by
  have hact : ∀ a, Works s a → act c s a = none := fun a ha => by
    rw [← step_of_not_freed hfreed]
    exact hstuck a ha
  have hfree : s.locked = false := by
    by_contra hnot
    have hlocked : s.locked = true := by simpa using hnot
    have hcount := hthreads.locked
    rw [hlocked, Bool.toNat_true] at hcount
    obtain ⟨v, hv, hleaving⟩ := exists_of_countP (p := isLeaving) (l := s.workers) (by omega)
    obtain ⟨i, hi⟩ := List.mem_iff_getElem?.mp hv
    cases v with
    | leaving => exact absurd (hact (.unlock i) trivial) (by simp [act, hi])
    | _ => cases hleaving
  obtain ⟨i, hi⟩ := List.mem_iff_getElem?.mp hw
  have henabled := checkQueue_enabled hqueue i
  cases w with
  | waiting => exact Or.inl rfl
  | left => exact Or.inr (Or.inl rfl)
  | fell => exact Or.inr (Or.inr rfl)
  | testing => exact absurd (hact (.test i) trivial) (by simp [act, hi])
  | locking => exact absurd (hact (.lock i) trivial) (by simpa [act, hi, hfree] using henabled)
  | woken =>
    exact absurd (hact (.resume i) trivial) (by simpa [act, hi, hfree, resumeWorker] using henabled)
  | timedOut =>
    refine absurd (hact (.resume i) trivial) ?_
    simp only [act, hfree, if_true, resumeWorker, hi]
    split_ifs
    · simp
    · exact henabled
  | running p job =>
    obtain ⟨queue, hs⟩ := hqueue
    have hmem : (p, job) ∈ executing s := List.mem_filterMap.mpr ⟨_, hw, rfl⟩
    obtain ⟨task, hnode, _⟩ := hs.stored (p, job) (List.mem_append_right _ hmem)
    exact absurd (hact (.execute i) trivial) (by simp [act, execute, hi, hnode])
  | finishing =>
    obtain ⟨waiter, hsignal⟩ :=
      signalNotFull_enabled ({ s with activeCount := decrement s.activeCount }.setWorker i .testing)
    have hdisabled := hact (.finish i waiter) trivial
    have hguard : s.workers[i]? = some .finishing ∧ s.locked = false := ⟨hi, hfree⟩
    simp only [act, if_pos hguard, finish] at hdisabled
    split_ifs at hdisabled
    exact absurd hdisabled hsignal
  | leaving => exact absurd (hact (.unlock i) trivial) (by simp [act, hi])

/-- While nothing new is submitted the workers alone empty the queue, in a
number of steps given by its length and the number of those that have not
returned, in whatever order they take them; when none of them has a step left,
all tasks have been executed. -/
theorem pool_drains (h : Reachable initial (step c) (fun _ _ => True) s)
    (hopen : s.shuttingDown = false) :
    EndsIn (step c) Works Works s (4 * s.taskCount + 5 * s.workers.countP isInside) fun t =>
      t.accepted = s.accepted ∧ t.taskCount = 0 ∧ executing t = [] ∧
        t.finished.Perm s.accepted := by
  have hwork : work s ≤ 4 * s.taskCount + 5 * s.workers.countP isInside :=
    Nat.add_le_add_left (sum_load_le s.workers) _
  refine endsIn_of_measure (μ := work) (I := fun t => Reachable initial (step c) (fun _ _ => True) t ∧
    t.shuttingDown = false ∧ t.accepted = s.accepted) ?_ ?_ ⟨h, hopen, rfl⟩ hwork
  · intro t a t' ⟨hreach, hshut, haccepted⟩ hworks hstep
    have hworked := step_worked (reachable_accounted hreach) (freed_of_open hreach hshut) hworks hstep
    exact ⟨⟨hreach.step trivial hstep, hworked.shuttingDown.trans hshut,
      hworked.accepted.trans haccepted⟩, hworked.less⟩
  · intro t ⟨hreach, hshut, haccepted⟩ hstuck
    have hqueue := reachable_accounted hreach
    have hthreads := reachable_threads hreach
    have hrest : ∀ w ∈ t.workers, w = .waiting ∨ w = .left ∨ w = .fell := fun w hw =>
      resting_of_stuck hqueue hthreads (freed_of_open hreach hshut) hstuck hw
    have hnone : ∀ p : Worker → Bool, p .waiting = false → p .left = false → p .fell = false →
        t.workers.countP p = 0 := by
      intro p hp₁ hp₂ hp₃
      rw [List.countP_eq_zero]
      intro w hw
      rcases hrest w hw with rfl | rfl | rfl
      · simp [hp₁]
      · simp [hp₂]
      · simp [hp₃]
    have hhead : t.taskHead = 0 := by
      by_contra hne
      have hready := ready_of_head (reachable_phases hreach) hne
      have henough := hthreads.enough hready hshut
      rcases reachable_runnable hreach hshut hne with halert | hmany
      · rw [hnone isAlert rfl rfl rfl] at halert
        exact absurd halert (lt_irrefl 0)
      · rw [hnone isTimedOut rfl rfl rfl] at hmany
        omega
    have hexecuting : executing t = [] := by
      unfold executing
      rw [List.filterMap_eq_nil_iff]
      intro w hw
      rcases hrest w hw with rfl | rfl | rfl <;> rfl
    obtain ⟨queue, hs⟩ := hqueue
    have hnil : queue = [] := by
      have hmap := hs.linked.head_null_iff.mp hhead
      exact List.map_eq_nil_iff.mp hmap
    subst hnil
    have horder := hs.order
    have hparts := hs.parts
    rw [List.map_nil, List.append_nil] at horder
    rw [hexecuting, List.map_nil, List.nil_append, horder, haccepted] at hparts
    exact ⟨haccepted, hs.count, hexecuting, hparts.symm⟩

/-- The one task in the queue will have been executed after at most nine steps. -/
theorem pool_drains_one : ∃ s, Reachable initial (step oneWorker) (fun _ _ => True) s ∧
    s.taskCount = 1 ∧ s.finished = [] ∧
    EndsIn (step oneWorker) Works Works s 9 (fun t => t.finished.Perm [⟨0, 5, 1⟩]) ∧
    ∃ actions t, Run (step oneWorker) Works s actions t ∧ t.finished.Perm [⟨0, 5, 1⟩] := by
  obtain ⟨s, hreach, hs⟩ : ∃ s, Reachable initial (step oneWorker) (fun _ _ => True) s ∧
      decide (s.taskCount = 1 ∧ s.workers.countP isInside = 1 ∧ s.accepted = [⟨0, 5, 1⟩] ∧ s.finished = [] ∧
        s.shuttingDown = false) = true :=
    exists_reachable [.spawn true, .count, .test 0, .lock 0, .call 5 1,
      .enter 0 ⟨false, 8, 0, false⟩] _ (by decide)
  obtain ⟨hcount, hinside, haccepted, hfinished, hopen⟩ := of_decide_eq_true hs
  have hends := pool_drains hreach hopen
  rw [hcount, hinside, haccepted] at hends
  have hdone : EndsIn (step oneWorker) Works Works s 9 (fun t => t.finished.Perm [⟨0, 5, 1⟩]) :=
    ⟨hends.bounded, fun actions t hrun hstuck => (hends.final actions t hrun hstuck).2.2.2⟩
  exact ⟨s, hreach, hcount, hfinished, hdone, hdone.reaches (fun _ _ hQ => hQ) (Run.nil s)⟩

end Ppdb.ThreadPoolProgress
