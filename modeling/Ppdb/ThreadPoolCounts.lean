import Ppdb.ThreadPoolSteps

/-!
How many workers there are. `thread_count` counts the workers that are still in
their loop and, because `worker_thread` does not decrement it there, those that
returned at the test of `pool->running`. Without the latter it is exact.
-/

namespace Ppdb.ThreadPoolCounts

open ThreadPool ThreadLists ThreadPoolSteps Transitions

/-- A worker that has neither returned nor decremented `thread_count`. -/
def isLive : Worker → Bool
  | .leaving => false
  | .left => false
  | .fell => false
  | _ => true

def isFallen : Worker → Bool
  | .fell => true
  | _ => false

def isLeaving : Worker → Bool
  | .leaving => true
  | _ => false

def isFailing : Creator → Bool
  | .spawning _ => false
  | .counting _ => false
  | .ready => false
  | _ => true

def uncounted : Creator → ℕ
  | .counting _ => 1
  | _ => 0

/-- What the flags of the pool say, and what cannot have happened yet while it
is being created. -/
structure Phases (s : State) : Prop where
  running : s.running = true ↔ s.destroyer = .idle
  shuttingDown : s.shuttingDown = true ↔ isFailing s.creator = true ∨ s.destroyer ≠ .idle
  early : s.creator ≠ .ready →
    s.destroyer = .idle ∧ s.submitters = [] ∧ s.taskHead = 0 ∧ s.taskCount = 0

def SameCounts (ws ws' : List Worker) : Prop :=
  ws'.countP isLive = ws.countP isLive ∧ ws'.countP isFallen = ws.countP isFallen ∧
    ws'.countP isLeaving = ws.countP isLeaving

def registry (s : State) :=
  (s.threadCount, s.locked, s.running, s.shuttingDown, s.creator)

structure Threads (c : Config) (s : State) : Prop where
  count : s.threadCount + uncounted s.creator =
    s.workers.countP isLive + s.workers.countP isFallen
  locked : s.workers.countP isLeaving = s.locked.toNat
  fallen : s.running = true → s.workers.countP isFallen = 0
  spawning : ∀ i, s.creator = .spawning i → i < c.minThreads ∧ s.workers.countP isLive = i
  counting : ∀ i, s.creator = .counting i → i < c.minThreads ∧ s.workers.countP isLive = i + 1
  enough : s.creator = .ready → s.shuttingDown = false → c.minThreads ≤ s.threadCount

variable {c : Config} {s s' : State} {a : Action}

theorem phases_initial : Phases initial := by
  constructor <;> simp [initial, isFailing]

theorem threads_initial (c : Config) : Threads c initial := by
  constructor <;> simp [initial, uncounted, c.min_pos]

/-! ### The phases of the pool -/

theorem ready_of_submitter (h : Phases s) {r r' : Submitter} {rs : List Submitter}
    (hmove : Moves s.submitters r r' rs) : s.creator = .ready := by
  by_contra hcreator
  have hmem := hmove.mem
  rw [(h.early hcreator).2.1] at hmem
  exact absurd hmem List.not_mem_nil

theorem ready_of_head (h : Phases s) (hhead : s.taskHead ≠ 0) : s.creator = .ready := by
  by_contra hcreator
  exact hhead (h.early hcreator).2.2.1

theorem ready_of_destroyer (h : Phases s) (hdestroyer : s.destroyer ≠ .idle) :
    s.creator = .ready := by
  by_contra hcreator
  exact hdestroyer (h.early hcreator).1

theorem running_of_open (h : Phases s) (hopen : s.shuttingDown = false) : s.running = true := by
  rw [h.running]
  by_contra hdestroyer
  rw [h.shuttingDown.mpr (Or.inr hdestroyer)] at hopen
  cases hopen

/-- While the pool is being destroyed the flags stay as they are. -/
theorem Phases.destroy (h : Phases s) (hfrom : s.destroyer ≠ .idle) (hto : s'.destroyer ≠ .idle)
    (hrunning : s'.running = s.running) (hshut : s'.shuttingDown = s.shuttingDown)
    (hcreator : s'.creator = s.creator) : Phases s' := by
  refine ⟨?_, ?_, fun hne => ?_⟩
  · rw [hrunning, h.running]
    exact iff_of_false hfrom hto
  · rw [hshut, h.shuttingDown]
    exact iff_of_true (Or.inr hfrom) (Or.inr hto)
  · rw [hcreator] at hne
    exact absurd (h.early hne).1 hfrom

/-- So they do while its creation is being given up. -/
theorem Phases.fail (h : Phases s) (hfrom : isFailing s.creator = true)
    (hto : isFailing s'.creator = true) (hrunning : s'.running = s.running)
    (hshut : s'.shuttingDown = s.shuttingDown) (hdestroyer : s'.destroyer = s.destroyer)
    (hearly : s'.submitters = s.submitters ∧ s'.taskHead = s.taskHead ∧ s'.taskCount = s.taskCount) :
    Phases s' := by
  have hne : s.creator ≠ .ready := fun hready => by simp [hready, isFailing] at hfrom
  refine ⟨?_, ?_, fun _ => ?_⟩
  · rw [hrunning, hdestroyer]
    exact h.running
  · rw [hshut, h.shuttingDown]
    exact iff_of_true (Or.inl hfrom) (Or.inl hto)
  · rw [hdestroyer, hearly.1, hearly.2.1, hearly.2.2]
    exact h.early hne

theorem Phases.keep (h : Phases s) (heffect : Effect c s a s') : Phases s' := by
  cases heffect with
  | spawns hcreator =>
    have hearly := h.early (by simp [hcreator])
    refine ⟨h.running, ?_, fun _ => hearly⟩
    have hflag := h.shuttingDown
    simpa [hcreator, isFailing] using hflag
  | spawnFails hcreator =>
    have hearly := h.early (by simp [hcreator])
    exact ⟨h.running, by simp [isFailing], fun _ => hearly⟩
  | counts hcreator =>
    have hearly := h.early (by simp [hcreator])
    have hflag := h.shuttingDown
    refine ⟨h.running, ?_, fun _ => hearly⟩
    rw [hcreator] at hflag
    split <;> simpa [isFailing] using hflag
  | broadcastsFailure hcreator =>
    exact h.fail (by simp [hcreator, isFailing]) rfl rfl rfl rfl ⟨rfl, rfl, rfl⟩
  | pollsFailure hcreator _ =>
    exact h.fail (by simp [hcreator, isFailing]) rfl rfl rfl rfl ⟨rfl, rfl, rfl⟩
  | freesFailed hcreator =>
    exact h.fail (by simp [hcreator, isFailing]) rfl rfl rfl rfl ⟨rfl, rfl, rfl⟩
  | dequeues _ _ _ _ hhead =>
    have hready := ready_of_head h hhead
    exact ⟨h.running, h.shuttingDown, fun hne => absurd hready hne⟩
  | finishes _ _ hsignal =>
    refine ⟨h.running, h.shuttingDown, ?_⟩
    intro hne
    obtain ⟨hidle, hnone, hhead, hcount⟩ := h.early hne
    refine ⟨hidle, ?_, hhead, hcount⟩
    rcases hsignal with ⟨_, rfl⟩ | ⟨_, _, hmove⟩ | ⟨_, rfl⟩
    · exact hnone
    · exact absurd (ready_of_submitter h hmove) hne
    · exact hnone
  | calls hcreator _ _ => exact ⟨h.running, h.shuttingDown, fun hne => absurd hcreator hne⟩
  | returns _ hmove _ _ _ =>
    exact ⟨h.running, h.shuttingDown, fun hne => absurd (ready_of_submitter h hmove) hne⟩
  | blocks _ hmove _ _ _ =>
    exact ⟨h.running, h.shuttingDown, fun hne => absurd (ready_of_submitter h hmove) hne⟩
  | submits _ hmove _ _ _ _ _ _ _ =>
    exact ⟨h.running, h.shuttingDown, fun hne => absurd (ready_of_submitter h hmove) hne⟩
  | wakesSubmitter hmove =>
    exact ⟨h.running, h.shuttingDown, fun hne => absurd (ready_of_submitter h hmove) hne⟩
  | shutsDown hcreator _ _ => exact ⟨by simp, by simp, fun hne => absurd hcreator hne⟩
  | broadcastsEmpty hdestroyer => exact h.destroy (by simp [hdestroyer]) (by simp) rfl rfl rfl
  | broadcastsFull hdestroyer => exact h.destroy (by simp [hdestroyer]) (by simp) rfl rfl rfl
  | polls hdestroyer _ _ => exact h.destroy (by simp [hdestroyer]) (by simp) rfl rfl rfl
  | discards hdestroyer _ => exact h.destroy (by simp [hdestroyer]) (by simp) rfl rfl rfl
  | frees hdestroyer => exact h.destroy (by simp [hdestroyer]) (by simp) rfl rfl rfl
  | _ => exact ⟨h.running, h.shuttingDown, h.early⟩

/-! ### The number of workers -/

/-- A worker stays in its loop. -/
theorem live_move {w w' : Worker} {ws ws' : List Worker} (hmove : Moves ws w w' ws')
    (hw : isLive w = true) (hw' : isLive w' = true) : SameCounts ws ws' := by
  have hother : ∀ x : Worker, isLive x = true → isFallen x = false ∧ isLeaving x = false := by
    intro x hx
    cases x <;> simp_all [isLive, isFallen, isLeaving]
  have hlive := hmove.countP isLive
  have hfallen := hmove.countP isFallen
  have hleaving := hmove.countP isLeaving
  rw [hw, hw'] at hlive
  rw [(hother w hw).1, (hother w' hw').1] at hfallen
  rw [(hother w hw).2, (hother w' hw').2] at hleaving
  exact ⟨Nat.add_right_cancel hlive, Nat.add_right_cancel hfallen, Nat.add_right_cancel hleaving⟩

theorem live_broadcast (ws : List Worker) : SameCounts ws (ws.map wakeWorker) := by
  have hsame : isLive ∘ wakeWorker = isLive ∧ isFallen ∘ wakeWorker = isFallen ∧
      isLeaving ∘ wakeWorker = isLeaving := by
    refine ⟨?_, ?_, ?_⟩ <;> funext w <;> cases w <;> rfl
  unfold SameCounts
  rw [List.countP_map, List.countP_map, List.countP_map, hsame.1, hsame.2.1, hsame.2.2]
  exact ⟨rfl, rfl, rfl⟩

theorem isLive_of_atQueue {w : Worker} (h : AtQueue w) : isLive w = true := by
  rcases h with rfl | rfl | rfl <;> rfl

theorem SameCounts.refl (ws : List Worker) : SameCounts ws ws := ⟨rfl, rfl, rfl⟩

/-- The same workers are in their loops. -/
theorem Threads.of_eq (h : Threads c s) (hworkers : SameCounts s.workers s'.workers)
    (hregistry : registry s' = registry s) : Threads c s' := by
  obtain ⟨hlive, hfallen, hleaving⟩ := hworkers
  simp only [registry, Prod.mk.injEq] at hregistry
  obtain ⟨hcount, hlocked, hrunning, hshut, hcreator⟩ := hregistry
  constructor
  · rw [hcount, hcreator, hlive, hfallen]
    exact h.count
  · rw [hleaving, hlocked]
    exact h.locked
  · rw [hrunning, hfallen]
    exact h.fallen
  · rw [hcreator, hlive]
    exact h.spawning
  · rw [hcreator, hlive]
    exact h.counting
  · rw [hcreator, hshut, hcount]
    exact h.enough

/-- While threads are being created no worker has a reason to leave. -/
theorem creator_of_leaving (h : Threads c s) (hphases : Phases s) {w : Worker}
    (hreason : s.shuttingDown = true ∧ s.taskHead = 0 ∨
      w = .timedOut ∧ c.minThreads < s.threadCount) :
    s.creator = .ready ∨ isFailing s.creator = true := by
  have hcount := h.count
  have hopen : s.creator ≠ .ready → isFailing s.creator = false →
      s.shuttingDown = false ∧ s.workers.countP isFallen = 0 := by
    intro hne hfail
    have hidle := (hphases.early hne).1
    refine ⟨?_, h.fallen (hphases.running.mpr hidle)⟩
    rw [← Bool.not_eq_true, hphases.shuttingDown]
    simp [hfail, hidle]
  cases hcreator : s.creator with
  | spawning i =>
    obtain ⟨hshut, hfallen⟩ := hopen (by simp [hcreator]) (by simp [hcreator, isFailing])
    obtain ⟨hi, hlive⟩ := h.spawning i hcreator
    simp only [hcreator, uncounted, hfallen, hlive] at hcount
    rcases hreason with ⟨hshut', _⟩ | ⟨_, hmin⟩
    · rw [hshut] at hshut'
      cases hshut'
    · omega
  | counting i =>
    obtain ⟨hshut, hfallen⟩ := hopen (by simp [hcreator]) (by simp [hcreator, isFailing])
    obtain ⟨hi, hlive⟩ := h.counting i hcreator
    simp only [hcreator, uncounted, hfallen, hlive] at hcount
    rcases hreason with ⟨hshut', _⟩ | ⟨_, hmin⟩
    · rw [hshut] at hshut'
      cases hshut'
    · omega
  | ready => exact Or.inl rfl
  | _ => exact Or.inr rfl

theorem uncounted_of_settled {k : Creator} (h : k = .ready ∨ isFailing k = true) :
    uncounted k = 0 ∧ (∀ i, k ≠ .spawning i) ∧ ∀ i, k ≠ .counting i := by
  cases k <;> simp_all [uncounted, isFailing]

/-- The worker that leaves has been counted. -/
theorem Threads.leaver_counted (h : Threads c s) (hphases : Phases s) {w : Worker}
    {ws : List Worker} (hat : AtQueue w) (hmove : Moves s.workers w .leaving ws)
    (hreason : s.shuttingDown = true ∧ s.taskHead = 0 ∨
      w = .timedOut ∧ c.minThreads < s.threadCount) : 0 < s.threadCount := by
  have hnone := (uncounted_of_settled (creator_of_leaving h hphases hreason)).1
  have hcount := h.count
  have hlive : 0 < s.workers.countP isLive :=
    List.countP_pos_iff.mpr ⟨w, hmove.mem, isLive_of_atQueue hat⟩
  omega

theorem Threads.leave (h : Threads c s) (hphases : Phases s) {w : Worker} {ws : List Worker}
    (hat : AtQueue w) (hmove : Moves s.workers w .leaving ws) (hfree : s.locked = false)
    (hreason : s.shuttingDown = true ∧ s.taskHead = 0 ∨
      w = .timedOut ∧ c.minThreads < s.threadCount) :
    Threads c { s with threadCount := decrement s.threadCount, locked := true, workers := ws } := by
  obtain ⟨hnone, hspawning, hcounting⟩ :=
    uncounted_of_settled (creator_of_leaving h hphases hreason)
  have hlive := hmove.countP isLive
  have hfallen := hmove.countP isFallen
  have hleaving := hmove.countP isLeaving
  have hw : isLive w = true ∧ isFallen w = false ∧ isLeaving w = false := by
    rcases hat with rfl | rfl | rfl <;> exact ⟨rfl, rfl, rfl⟩
  rw [hw.1] at hlive
  rw [hw.2.1] at hfallen
  rw [hw.2.2] at hleaving
  have hcount := h.count
  have hlocked := h.locked
  simp only [isLive, isFallen, isLeaving, Bool.toNat_true, Bool.toNat_false] at hlive hfallen hleaving
  rw [hfree, Bool.toNat_false] at hlocked
  have hpos := h.leaver_counted hphases hat hmove hreason
  refine ⟨?_, ?_, fun hrunning => ?_, fun i hi => absurd hi (hspawning i),
    fun i hi => absurd hi (hcounting i), fun _ hopen => ?_⟩
  · rw [decrement_of_pos hpos]
    show s.threadCount - 1 + uncounted s.creator = ws.countP isLive + ws.countP isFallen
    omega
  · show ws.countP isLeaving = 1
    omega
  · have hzero := h.fallen hrunning
    show ws.countP isFallen = 0
    omega
  · rw [decrement_of_pos hpos]
    rcases hreason with ⟨hshut, _⟩ | ⟨_, hmin⟩
    · rw [hopen] at hshut
      cases hshut
    · show c.minThreads ≤ s.threadCount - 1
      omega

theorem live_signal {ws ws' : List Worker} (h : SignalsWorker ws ws') : SameCounts ws ws' := by
  rcases h with hmove | ⟨_, rfl⟩
  · exact live_move hmove rfl rfl
  · exact SameCounts.refl _

theorem live_spawn (ws : List Worker) :
    (ws ++ [Worker.testing]).countP isLive = ws.countP isLive + 1 ∧
      (ws ++ [Worker.testing]).countP isFallen = ws.countP isFallen ∧
      (ws ++ [Worker.testing]).countP isLeaving = ws.countP isLeaving := by
  simp [List.countP_append, isLive, isFallen, isLeaving]

/-- The creation of the pool is being given up. -/
theorem Threads.fail (h : Threads c s) (hworkers : SameCounts s.workers s'.workers)
    (hfrom : uncounted s.creator = 0) (hto : isFailing s'.creator = true)
    (hcount : s'.threadCount = s.threadCount) (hlocked : s'.locked = s.locked)
    (hrunning : s'.running = s.running) : Threads c s' := by
  obtain ⟨hlive, hfallen, hleaving⟩ := hworkers
  obtain ⟨hnone, hspawning, hcounting⟩ := uncounted_of_settled (Or.inr hto)
  refine ⟨?_, ?_, ?_, fun i hi => absurd hi (hspawning i), fun i hi => absurd hi (hcounting i), ?_⟩
  · rw [hcount, hnone, hlive, hfallen, ← h.count, hfrom]
  · rw [hleaving, hlocked]
    exact h.locked
  · rw [hrunning, hfallen]
    exact h.fallen
  · intro hready
    rw [hready] at hto
    cases hto

theorem Threads.spawn (h : Threads c s) {i : ℕ} (hcreator : s.creator = .spawning i) :
    Threads c { s with workers := s.workers ++ [.testing], creator := .counting i } := by
  obtain ⟨hi, hlive⟩ := h.spawning i hcreator
  obtain ⟨hone, hfallen, hleaving⟩ := live_spawn s.workers
  have hcount := h.count
  rw [hcreator] at hcount
  refine ⟨?_, hleaving.trans h.locked, fun hrunning => hfallen.trans (h.fallen hrunning), by simp,
    fun k hk => ?_, by simp⟩
  · show s.threadCount + 1 = _
    rw [hone, hfallen]
    simp only [uncounted] at hcount
    omega
  · injection hk with hk
    rw [← hk, hone, hlive]
    exact ⟨hi, rfl⟩

theorem Threads.countThread (h : Threads c s) {i : ℕ} (hcreator : s.creator = .counting i) :
    Threads c { s with
      threadCount := s.threadCount + 1
      creator := if i + 1 < c.minThreads then .spawning (i + 1) else .ready } := by
  obtain ⟨hi, hlive⟩ := h.counting i hcreator
  have hcount := h.count
  simp only [hcreator, uncounted] at hcount
  by_cases hmore : i + 1 < c.minThreads
  · rw [if_pos hmore]
    refine ⟨hcount, h.locked, h.fallen, ?_, by simp, by simp⟩
    intro k hk
    injection hk with hk
    exact ⟨hk ▸ hmore, hk ▸ hlive⟩
  · rw [if_neg hmore]
    refine ⟨hcount, h.locked, h.fallen, by simp, by simp, ?_⟩
    intro _ _
    show c.minThreads ≤ s.threadCount + 1
    omega

/-- A worker that finds `pool->running` false stays counted. -/
theorem Threads.fall (h : Threads c s) (hphases : Phases s) {ws : List Worker}
    (hmove : Moves s.workers .testing .fell ws) (hrunning : s.running = false) :
    Threads c { s with workers := ws } := by
  have hready : s.creator = .ready := by
    apply ready_of_destroyer hphases
    intro hidle
    rw [hphases.running.mpr hidle] at hrunning
    cases hrunning
  obtain ⟨_, hspawning, hcounting⟩ := uncounted_of_settled (Or.inl hready)
  have hlive : ws.countP isLive + 1 = s.workers.countP isLive := hmove.countP isLive
  have hfallen : ws.countP isFallen = s.workers.countP isFallen + 1 := hmove.countP isFallen
  have hleaving : ws.countP isLeaving = s.workers.countP isLeaving := hmove.countP isLeaving
  have hcount := h.count
  refine ⟨?_, hleaving.trans h.locked, fun hon => ?_, fun i hi => absurd hi (hspawning i),
    fun i hi => absurd hi (hcounting i), h.enough⟩
  · show s.threadCount + uncounted s.creator = ws.countP isLive + ws.countP isFallen
    omega
  · rw [hrunning] at hon
    cases hon

/-- The mutex is held by the one worker that is leaving. -/
theorem Threads.unlock (h : Threads c s) {ws : List Worker}
    (hmove : Moves s.workers .leaving .left ws) :
    Threads c { s with locked := false, workers := ws } := by
  have hlive : ws.countP isLive = s.workers.countP isLive := hmove.countP isLive
  have hfallen : ws.countP isFallen = s.workers.countP isFallen := hmove.countP isFallen
  have hleaving : ws.countP isLeaving + 1 = s.workers.countP isLeaving := hmove.countP isLeaving
  have hlocked := h.locked
  have hle := Bool.toNat_le s.locked
  have hzero : ws.countP isLeaving = 0 := by omega
  refine ⟨?_, hzero, ?_, ?_, ?_, h.enough⟩
  · rw [hlive, hfallen]
    exact h.count
  · rw [hfallen]
    exact h.fallen
  · rw [hlive]
    exact h.spawning
  · rw [hlive]
    exact h.counting

/-- A task is submitted, and the pool may get one more worker for it. -/
theorem Threads.submit (h : Threads c s) {ws : List Worker}
    (hcreator : s.creator = .ready) (hopen : s.shuttingDown = false)
    (hsignal : SignalsWorker s.workers ws) (hgrow : Grows c s ws s'.threadCount s'.workers)
    (hregistry : registry s' = registry { s with threadCount := s'.threadCount }) :
    Threads c s' := by
  have hsame := live_signal hsignal
  rcases hgrow with ⟨hws, hn⟩ | ⟨hws, hn, _, _⟩
  · rw [← hws] at hsame
    rw [hn] at hregistry
    exact h.of_eq hsame hregistry
  · simp only [registry, Prod.mk.injEq] at hregistry
    obtain ⟨_, hlocked, hrunning, _, hcreator'⟩ := hregistry
    obtain ⟨hlive, hfallen, hleaving⟩ := hsame
    obtain ⟨hone, hfallen', hleaving'⟩ := live_spawn ws
    obtain ⟨_, hspawning, hcounting⟩ := uncounted_of_settled (Or.inl (hcreator'.trans hcreator))
    have hcount := h.count
    have henough := h.enough hcreator hopen
    refine ⟨?_, ?_, ?_, fun i hi => absurd hi (hspawning i), fun i hi => absurd hi (hcounting i),
      fun _ _ => ?_⟩
    · rw [hws, hn, hcreator', hone, hfallen', hlive, hfallen]
      omega
    · rw [hws, hleaving', hleaving, hlocked]
      exact h.locked
    · rw [hws, hfallen', hfallen, hrunning]
      exact h.fallen
    · rw [hn]
      exact Nat.le_succ_of_le henough

theorem Threads.keep (h : Threads c s) (hphases : Phases s) (heffect : Effect c s a s') :
    Threads c s' := by
  cases heffect with
  | spawns hcreator => exact h.spawn hcreator
  | spawnFails hcreator =>
    exact h.fail (SameCounts.refl _) (by simp [hcreator, uncounted]) rfl rfl rfl rfl
  | counts hcreator => exact h.countThread hcreator
  | broadcastsFailure hcreator =>
    exact h.fail (live_broadcast s.workers) (by simp [hcreator, uncounted]) rfl rfl rfl rfl
  | pollsFailure hcreator _ =>
    exact h.fail (SameCounts.refl _) (by simp [hcreator, uncounted]) rfl rfl rfl rfl
  | freesFailed hcreator =>
    exact h.fail (SameCounts.refl _) (by simp [hcreator, uncounted]) rfl rfl rfl rfl
  | entersLoop hmove _ => exact h.of_eq (live_move hmove rfl rfl) rfl
  | falls hmove hrunning => exact h.fall hphases hmove hrunning
  | waits hat hmove _ _ _ =>
    exact h.of_eq (live_move hmove (isLive_of_atQueue hat) rfl) rfl
  | wakes hmove => exact h.of_eq (live_move hmove rfl rfl) rfl
  | timesOut hmove => exact h.of_eq (live_move hmove rfl rfl) rfl
  | leaves hat hmove hfree hreason => exact h.leave hphases hat hmove hfree hreason
  | dequeues hat _ hmove _ _ =>
    exact h.of_eq (live_move hmove (isLive_of_atQueue hat) rfl) rfl
  | executes hmove _ => exact h.of_eq (live_move hmove rfl rfl) rfl
  | finishes hmove _ _ => exact h.of_eq (live_move hmove rfl rfl) rfl
  | unlocks hmove => exact h.unlock hmove
  | submits _ hmove _ _ hopen _ _ hsignal hgrow =>
    exact h.submit (ready_of_submitter hphases hmove) hopen hsignal hgrow rfl
  | shutsDown _ _ _ => exact ⟨h.count, h.locked, by simp, h.spawning, h.counting, by simp⟩
  | broadcastsEmpty _ => exact h.of_eq (live_broadcast s.workers) rfl
  | _ => exact h.of_eq (SameCounts.refl _) rfl

/-! ### Runs -/

section Runs
variable {P : State → Action → Prop}

theorem reachable_phases (h : Reachable initial (step c) P s) : Phases s := by
  apply h.invariant phases_initial
  intro s a s' hs _ hstep
  rcases step_cases hstep with heffect | ⟨_, _, _, rfl⟩
  · exact hs.keep heffect
  · exact ⟨hs.running, hs.shuttingDown, hs.early⟩

theorem reachable_threads (h : Reachable initial (step c) P s) : Threads c s := by
  refine h.invariant_of (fun s hs => reachable_phases hs) (threads_initial c)
    ?_
  intro s a s' hphases hs _ hstep
  rcases step_cases hstep with heffect | ⟨_, _, _, rfl⟩
  · exact hs.keep hphases heffect
  · exact hs.of_eq (SameCounts.refl _) rfl

end Runs

/-- A worker falls out of its loop only at the test of `pool->running`. -/
theorem fallen_keep (heffect : Effect c s a s') (htest : ∀ i, a = .test i → s.running = true) :
    s'.workers.countP isFallen = s.workers.countP isFallen := by
  cases heffect with
  | spawns _ => simp [List.countP_append, isFallen]
  | broadcastsFailure _ => exact (live_broadcast s.workers).2.1
  | entersLoop hmove _ => exact (live_move hmove rfl rfl).2.1
  | falls _ hrunning =>
    rw [htest _ rfl] at hrunning
    cases hrunning
  | waits hat hmove _ _ _ => exact (live_move hmove (isLive_of_atQueue hat) rfl).2.1
  | wakes hmove => exact (live_move hmove rfl rfl).2.1
  | timesOut hmove => exact (live_move hmove rfl rfl).2.1
  | leaves hat hmove _ _ =>
    have hfallen := hmove.countP isFallen
    rcases hat with rfl | rfl | rfl <;> simpa [isFallen] using hfallen
  | dequeues hat _ hmove _ _ => exact (live_move hmove (isLive_of_atQueue hat) rfl).2.1
  | executes hmove _ => exact (live_move hmove rfl rfl).2.1
  | finishes hmove _ _ => exact (live_move hmove rfl rfl).2.1
  | unlocks hmove => simpa [isFallen] using hmove.countP isFallen
  | submits _ _ _ _ _ _ _ hsignal hgrow =>
    obtain ⟨_, hfallen, _⟩ := live_signal hsignal
    rcases hgrow with ⟨rfl, _⟩ | ⟨rfl, _⟩
    · exact hfallen
    · simpa [List.countP_append, isFallen] using hfallen
  | broadcastsEmpty _ => exact (live_broadcast s.workers).2.1
  | _ => rfl

/-- No worker comes to the test of `pool->running` once `destroy` has cleared it. -/
def TestsWhileRunning (s : State) : Action → Prop
  | .test _ => s.running = true
  | _ => True

instance (s : State) : (a : Action) → Decidable (TestsWhileRunning s a)
  | .test _ => inferInstanceAs (Decidable (s.running = true))
  | .spawn _ | .count | .broadcastFailure | .pollFailure | .freeFailed | .lock _ | .wake _
  | .timeOut _ | .resume _ | .execute _ | .finish _ _ | .unlock _ | .call _ _ | .enter _ _
  | .wakeSubmit _ | .resumeSubmit _ _ | .shutDown | .broadcastEmpty | .broadcastFull | .poll
  | .discard | .free => inferInstanceAs (Decidable True)

/-- In such runs `thread_count` is the number of workers still in their loop,
whether the mutex is free or not. -/
theorem threadCount_eq_live (h : Reachable initial (step c) TestsWhileRunning s)
    (hready : s.creator = .ready) : s.threadCount = s.workers.countP isLive := by
  have hfallen : s.workers.countP isFallen = 0 := by
    refine h.invariant (I := fun s => s.workers.countP isFallen = 0) rfl
      ?_
    intro s a s' hs hadmitted hstep
    rcases step_cases hstep with heffect | ⟨_, _, _, rfl⟩
    · exact (fallen_keep heffect fun i hi => by rwa [hi] at hadmitted).trans hs
    · exact hs
  have hcount := (reachable_threads h).count
  rw [hready, hfallen] at hcount
  exact hcount

def oneWorker : Config where
  minThreads := 1
  maxThreads := 1
  queueSize := 1
  min_pos := Nat.one_pos
  min_le_max := le_refl 1
  queue_pos := Nat.one_pos

/-- The pool is destroyed while its worker waits, and the worker leaves. -/
theorem threadCount_eq_live_one : ∃ s, Reachable initial (step oneWorker) TestsWhileRunning s ∧
    s.workers = [.left] ∧ s.threadCount = s.workers.countP isLive := by
  obtain ⟨s, hreach, hs⟩ : ∃ s, Reachable initial (step oneWorker) TestsWhileRunning s ∧
      decide (s.creator = .ready ∧ s.workers = [.left]) = true :=
    exists_reachable [.spawn true, .count, .test 0, .lock 0, .shutDown, .broadcastEmpty, .resume 0,
      .unlock 0] _ (by decide)
  obtain ⟨hready, hworkers⟩ := of_decide_eq_true hs
  exact ⟨s, hreach, hworkers, threadCount_eq_live hreach hready⟩

/-- `destroy` clears `pool->running` before the worker has tested it: the
worker returns without a decrement. -/
theorem falling_worker_is_counted : ∃ s, Reachable initial (step oneWorker) (fun _ _ => True) s ∧
    s.creator = .ready ∧ s.locked = false ∧ s.workers = [.fell] ∧ s.threadCount = 1 ∧
    s.threadCount ≠ s.workers.countP isLive := by
  obtain ⟨s, hreach, hs⟩ : ∃ s, Reachable initial (step oneWorker) (fun _ _ => True) s ∧
      decide (s.creator = .ready ∧ s.locked = false ∧ s.workers = [.fell] ∧ s.threadCount = 1) =
        true :=
    exists_reachable [.spawn true, .count, .shutDown, .test 0] _ (by decide)
  obtain ⟨hready, hfree, hworkers, hcount⟩ := of_decide_eq_true hs
  refine ⟨s, hreach, hready, hfree, hworkers, hcount, ?_⟩
  rw [hcount, hworkers]
  decide

end Ppdb.ThreadPoolCounts
