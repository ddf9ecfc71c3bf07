import Ppdb.LinkedQueues
import Ppdb.ThreadPoolCounts

/-!
Where the tasks are. The queue is a linked list whose tasks, with those the
workers hold and those that are finished, are the tasks that `submit` has
accepted; nothing is left in it for `destroy` to discard, since the last worker
to leave has seen it empty.
-/

namespace Ppdb.ThreadPoolQueue

open LinkedQueues LinkedSegments ThreadPool ThreadLists ThreadPoolSteps ThreadPoolCounts Transitions

def taskOf : Worker → Option (ℕ × Job)
  | .running p job => some (p, job)
  | _ => none

def executing (s : State) : List (ℕ × Job) := s.workers.filterMap taskOf

def nextOf (heap : ℕ → Option Task) (p : ℕ) : ℕ := ((heap p).map Task.next).getD 0

/-- What the account of the tasks depends on, apart from the workers. -/
def ledger (s : State) := (s.heap, s.taskHead, s.taskTail, s.taskCount, s.accepted, s.dequeued, s.finished)

/-- The queue that is linked in the pool, as addresses with their tasks, and
where the accepted tasks are. -/
structure Accounted (s : State) (queue : List (ℕ × Job)) : Prop where
  linked : Queued (nextOf s.heap) 0 s.taskHead s.taskTail (queue.map Prod.fst)
  count : s.taskCount = queue.length
  stored : ∀ x ∈ queue ++ executing s, ∃ task, s.heap x.1 = some task ∧ task.job = x.2
  apart : ((queue ++ executing s).map Prod.fst).Nodup
  order : s.dequeued ++ queue.map Prod.snd = s.accepted
  parts : s.dequeued.Perm ((executing s).map Prod.snd ++ s.finished)
  tickets : s.accepted.map Job.ticket = List.range s.accepted.length

/-- A pool without threads has an empty queue. -/
structure Drained (s : State) : Prop where
  null : s.heap 0 = none
  empty : s.threadCount = 0 → s.taskHead = 0
  cleaning : ∀ p, s.destroyer = .cleaning p → p = 0
  discarded : s.discarded = []

def isAccepted : Submitter → Bool
  | .returned .ok => true
  | _ => false

variable {c : Config} {s s' : State} {a : Action} {queue : List (ℕ × Job)}

theorem accounted_initial : Accounted initial [] :=
  ⟨queued_nil, rfl, by simp [executing, initial], List.nodup_nil, rfl, List.Perm.refl _, rfl⟩

theorem drained_initial : Drained initial := by
  constructor <;> simp [initial]

/-! ### The memory behind the queue -/

section Enqueue
variable {p func arg : ℕ}

theorem enqueue_heap_new (htail : s.taskTail ≠ p) :
    (enqueue s p func arg).heap p = some ⟨func, arg, 0, s.accepted.length⟩ := by
  unfold enqueue
  dsimp only
  split
  · rw [Function.update_self]
  · rw [Function.update_of_ne htail.symm, Function.update_self]

theorem enqueue_heap_tail (hnull : s.taskTail ≠ 0) (htail : s.taskTail ≠ p) :
    (enqueue s p func arg).heap s.taskTail =
      (s.heap s.taskTail).map fun t => { t with next := p } := by
  unfold enqueue
  dsimp only
  rw [if_neg hnull, Function.update_self, Function.update_of_ne htail]

theorem enqueue_heap_old {q : ℕ} (hp : q ≠ p) (hq : s.taskTail ≠ 0 → q ≠ s.taskTail) :
    (enqueue s p func arg).heap q = s.heap q := by
  unfold enqueue
  dsimp only
  split
  · rw [Function.update_of_ne hp]
  · rw [Function.update_of_ne (hq ‹_›), Function.update_of_ne hp]

/-- The other tasks are what they were; only a link may have changed. -/
theorem enqueue_job {q : ℕ} {task : Task} (htail : s.taskTail ≠ p) (hp : q ≠ p)
    (hnode : s.heap q = some task) :
    ∃ task', (enqueue s p func arg).heap q = some task' ∧ task'.job = task.job := by
  by_cases hq : s.taskTail ≠ 0 ∧ q = s.taskTail
  · obtain ⟨hnull, rfl⟩ := hq
    refine ⟨{ task with next := p }, ?_, rfl⟩
    rw [enqueue_heap_tail hnull htail, hnode]
    rfl
  · rw [not_and] at hq
    exact ⟨task, (enqueue_heap_old hp hq).trans hnode, rfl⟩

end Enqueue

/-! ### The workers' tasks -/

theorem executing_broadcast (ws : List Worker) :
    (ws.map wakeWorker).filterMap taskOf = ws.filterMap taskOf := by
  have hsame : taskOf ∘ wakeWorker = taskOf := by
    funext w
    cases w <;> rfl
  rw [List.filterMap_map, hsame]

theorem executing_signal {ws ws' : List Worker} (h : SignalsWorker ws ws') :
    ws'.filterMap taskOf = ws.filterMap taskOf := by
  rcases h with hmove | ⟨_, rfl⟩
  · exact hmove.filterMap_eq rfl rfl
  · rfl

theorem executing_grow {ws ws' : List Worker} {n : ℕ} (h : Grows c s ws n ws') :
    ws'.filterMap taskOf = ws.filterMap taskOf := by
  rcases h with ⟨rfl, _⟩ | ⟨rfl, _⟩
  · rfl
  · simp [taskOf]

theorem taskOf_atQueue {w : Worker} (h : AtQueue w) : taskOf w = none := by
  rcases h with rfl | rfl | rfl <;> rfl

/-! ### Steps -/

theorem Accounted.taskCount_pos (h : Accounted s queue) (hhead : s.taskHead ≠ 0) :
    0 < s.taskCount := by
  rw [h.count, List.length_pos_iff]
  intro hnil
  apply hhead
  rw [h.linked.head_null_iff, hnil]
  rfl

/-- Neither the queue nor what is being executed changes. -/
theorem Accounted.of_eq (h : Accounted s queue) (hledger : ledger s' = ledger s)
    (hworkers : executing s' = executing s) : Accounted s' queue := by
  simp only [ledger, Prod.mk.injEq] at hledger
  obtain ⟨hheap, hhead, htail, hcount, haccepted, hdequeued, hfinished⟩ := hledger
  constructor
  · rw [hheap, hhead, htail]
    exact h.linked
  · exact hcount.trans h.count
  · rw [hheap, hworkers]
    exact h.stored
  · rw [hworkers]
    exact h.apart
  · rw [hdequeued, haccepted]
    exact h.order
  · rw [hdequeued, hworkers, hfinished]
    exact h.parts
  · rw [haccepted]
    exact h.tickets

theorem Accounted.stored_node (h : Accounted s queue) {q : ℕ}
    (hq : q ∈ (queue ++ executing s).map Prod.fst) : ∃ task, s.heap q = some task := by
  obtain ⟨x, hx, rfl⟩ := List.mem_map.mp hq
  obtain ⟨task, hnode, _⟩ := h.stored x hx
  exact ⟨task, hnode⟩

/-- The new task goes behind the last one. -/
theorem Accounted.enqueue (h : Accounted s queue) {p func arg : ℕ} (hp : p ≠ 0)
    (hfresh : s.heap p = none) (hledger : ledger s' = ledger (enqueue s p func arg))
    (hworkers : executing s' = executing s) :
    Accounted s' (queue ++ [(p, ⟨s.accepted.length, func, arg⟩)]) := by
  have hother : ∀ x ∈ queue ++ executing s, x.1 ≠ p := by
    intro x hx hxp
    obtain ⟨task, hnode, _⟩ := h.stored x hx
    rw [hxp, hfresh] at hnode
    cases hnode
  have htail : s.taskTail ≠ p := by
    intro htp
    by_cases hnil : queue.map Prod.fst = []
    · exact hp (htp.symm.trans (h.linked.tail_null_iff.mpr hnil))
    · obtain ⟨x, hx, hxp⟩ := List.mem_map.mp (h.linked.tail_mem hnil)
      exact hother x (List.mem_append_left _ hx) (hxp.trans htp)
  have hmoved : (queue ++ [(p, Job.mk s.accepted.length func arg)] ++ executing s).Perm
      ((p, Job.mk s.accepted.length func arg) :: (queue ++ executing s)) := by
    rw [List.append_assoc]
    exact List.perm_middle
  refine Accounted.of_eq (s := { ThreadPool.enqueue s p func arg with workers := s.workers })
    ?_ hledger hworkers
  constructor
  · rw [List.map_append]
    refine h.linked.push hp ?_ (fun hnull => ?_) fun q hq hne => ?_
    · simp [nextOf, enqueue_heap_new htail]
    · obtain ⟨task, hnode⟩ := h.stored_node (q := s.taskTail) (by
        rw [List.map_append]
        refine List.mem_append_left _ (h.linked.tail_mem fun hnil => hnull ?_)
        exact h.linked.tail_null_iff.mpr hnil)
      simp [nextOf, enqueue_heap_tail hnull htail, hnode]
    · obtain ⟨x, hx, rfl⟩ := List.mem_map.mp hq
      have hxp := hother x (List.mem_append_left _ hx)
      simp only [nextOf, enqueue_heap_old hxp fun _ => hne]
  · show s.taskCount + 1 = _
    rw [h.count, List.length_append]
    rfl
  · intro x hx
    rcases List.mem_cons.mp (hmoved.mem_iff.mp hx) with rfl | hx
    · exact ⟨_, enqueue_heap_new htail, rfl⟩
    · obtain ⟨task, hnode, hjob⟩ := h.stored x hx
      obtain ⟨task', hnode', hjob'⟩ := enqueue_job htail (hother x hx) hnode
      exact ⟨task', hnode', hjob'.trans hjob⟩
  · refine ((hmoved.map Prod.fst).nodup_iff).mpr (List.nodup_cons.mpr ⟨fun hmem => ?_, h.apart⟩)
    obtain ⟨x, hx, hxp⟩ := List.mem_map.mp hmem
    exact hother x hx hxp
  · show s.dequeued ++ _ = s.accepted ++ _
    rw [← h.order, List.map_append, ← List.append_assoc]
    rfl
  · exact h.parts
  · show (s.accepted ++ _).map Job.ticket = List.range (s.accepted ++ _).length
    rw [List.map_append, h.tickets, List.length_append, List.length_singleton, List.range_succ]
    rfl

/-- The first task leaves the queue and is the worker's. -/
theorem Accounted.dequeue (h : Accounted s queue) {w : Worker} {ws : List Worker} {task : Task}
    (hat : AtQueue w) (hnode : s.heap s.taskHead = some task)
    (hmove : Moves s.workers w (.running s.taskHead task.job) ws) (hhead : s.taskHead ≠ 0) :
    ∃ queue', Accounted { s with
      taskHead := task.next
      taskTail := if task.next = 0 then 0 else s.taskTail
      taskCount := decrement s.taskCount
      activeCount := s.activeCount + 1
      dequeued := s.dequeued ++ [task.job]
      workers := ws } queue' := by
  obtain ⟨rest, hqueue, hrest⟩ := h.linked.pop hhead
  cases queue with
  | nil => cases hqueue
  | cons x queue' =>
    obtain ⟨hx, rfl⟩ : x.1 = s.taskHead ∧ queue'.map Prod.fst = rest := by
      injection hqueue with hx hrest'
      exact ⟨hx, hrest'⟩
    have hjob : x = (s.taskHead, task.job) := by
      obtain ⟨task', hnode', hjob⟩ := h.stored x (List.mem_append_left _ List.mem_cons_self)
      rw [hx, hnode] at hnode'
      injection hnode' with hsame
      exact Prod.ext hx (hjob.symm.trans (congrArg Task.job hsame.symm))
    subst hjob
    have hheld : (ws.filterMap taskOf).Perm ((s.taskHead, task.job) :: executing s) := by
      have hperm := hmove.filterMap_perm taskOf
      rwa [taskOf_atQueue hat] at hperm
    have hmoved : (queue' ++ ws.filterMap taskOf).Perm
        ((s.taskHead, task.job) :: queue' ++ executing s) :=
      (hheld.append_left queue').trans List.perm_middle
    have hnext : nextOf s.heap s.taskHead = task.next := by simp [nextOf, hnode]
    rw [hnext] at hrest
    refine ⟨queue', hrest, ?_, ?_, ?_, ?_, ?_, h.tickets⟩
    · show decrement s.taskCount = queue'.length
      rw [h.count, List.length_cons, decrement_of_pos (Nat.succ_pos _)]
      rfl
    · exact fun y hy => h.stored y (hmoved.mem_iff.mp hy)
    · exact ((hmoved.map Prod.fst).nodup_iff).mpr h.apart
    · show s.dequeued ++ [task.job] ++ queue'.map Prod.snd = s.accepted
      rw [← h.order, List.append_assoc]
      rfl
    · show (s.dequeued ++ [task.job]).Perm ((ws.filterMap taskOf).map Prod.snd ++ s.finished)
      apply (List.perm_append_singleton _ _).trans
      exact (h.parts.cons _).trans (((hheld.map Prod.snd).append_right _).symm)

/-- The function has been called, and the task is freed. -/
theorem Accounted.execute (h : Accounted s queue) {p : ℕ} {job : Job} {ws : List Worker}
    {task : Task} (hmove : Moves s.workers (.running p job) .finishing ws)
    (hnode : s.heap p = some task) :
    Accounted { s with
      heap := Function.update s.heap p none
      finished := s.finished ++ [task.job]
      workers := ws } queue := by
  have hheld : ((p, job) :: ws.filterMap taskOf).Perm (executing s) :=
    hmove.filterMap_perm taskOf
  have hmoved : ((p, job) :: (queue ++ ws.filterMap taskOf)).Perm (queue ++ executing s) :=
    List.perm_middle.symm.trans (hheld.append_left queue)
  have hapart := (hmoved.map Prod.fst).nodup_iff.mpr h.apart
  rw [List.map_cons, List.nodup_cons] at hapart
  have hother : ∀ x ∈ queue ++ ws.filterMap taskOf, x.1 ≠ p := fun x hx hxp =>
    hapart.1 (List.mem_map.mpr ⟨x, hx, hxp⟩)
  have hjob : task.job = job := by
    obtain ⟨task', hnode', hjob'⟩ := h.stored (p, job) (hmoved.mem_iff.mp List.mem_cons_self)
    rw [hnode] at hnode'
    injection hnode' with hsame
    rw [hsame]
    exact hjob'
  refine ⟨h.linked.congr fun q hq => ?_, h.count, fun x hx => ?_, hapart.2, h.order, ?_, h.tickets⟩
  · obtain ⟨x, hx, rfl⟩ := List.mem_map.mp hq
    simp only [nextOf, Function.update_of_ne (hother x (List.mem_append_left _ hx))]
  · obtain ⟨task', hnode', hjob'⟩ := h.stored x (hmoved.mem_iff.mp (List.mem_cons_of_mem _ hx))
    exact ⟨task', (Function.update_of_ne (hother x hx) _ _).trans hnode', hjob'⟩
  · show s.dequeued.Perm ((ws.filterMap taskOf).map Prod.snd ++ (s.finished ++ [task.job]))
    rw [hjob, ← List.append_assoc]
    apply h.parts.trans
    apply ((hheld.map Prod.snd).symm.append_right _).trans
    exact (List.perm_append_singleton _ _).symm

theorem Drained.keep (h : Drained s) (hphases : Phases s) (hthreads : Threads c s)
    (heffect : Effect c s a s') : Drained s' := by
  cases heffect with
  | counts _ => exact ⟨h.null, by simp, h.cleaning, h.discarded⟩
  | leaves _ _ _ hreason =>
    refine ⟨h.null, ?_, h.cleaning, h.discarded⟩
    intro hzero
    rcases hreason with ⟨_, hempty⟩ | ⟨_, hmin⟩
    · exact hempty
    · have hmore := c.min_pos
      change decrement s.threadCount = 0 at hzero
      rw [decrement_of_pos (by omega)] at hzero
      omega
  | dequeues _ _ _ _ hhead =>
    exact ⟨h.null, fun hzero => absurd (h.empty hzero) hhead, h.cleaning, h.discarded⟩
  | executes _ _ =>
    refine ⟨?_, h.empty, h.cleaning, h.discarded⟩
    show Function.update s.heap _ none 0 = none
    rw [Function.update_apply, h.null, ite_self]
  | @submits _ _ _ _ _ n _ _ _ _ hmove _ _ hopen hp _ _ hgrow =>
    have henough := hthreads.enough (ready_of_submitter hphases hmove) hopen
    have hmin := c.min_pos
    refine ⟨?_, fun hzero => ?_, h.cleaning, h.discarded⟩
    · exact (enqueue_heap_old hp.symm fun hnull => hnull.symm).trans h.null
    · change n = 0 at hzero
      rcases hgrow with ⟨_, rfl⟩ | ⟨_, rfl, _⟩ <;> omega
  | shutsDown _ _ _ => exact ⟨h.null, h.empty, by simp, h.discarded⟩
  | broadcastsEmpty _ => exact ⟨h.null, h.empty, by simp, h.discarded⟩
  | broadcastsFull _ => exact ⟨h.null, h.empty, by simp, h.discarded⟩
  | polls _ _ hcount =>
    refine ⟨h.null, h.empty, ?_, h.discarded⟩
    intro p hp
    injection hp with hp
    exact hp ▸ h.empty hcount
  | discards hdestroyer hnode =>
    rw [h.cleaning _ hdestroyer, h.null] at hnode
    cases hnode
  | frees _ => exact ⟨h.null, h.empty, by simp, h.discarded⟩
  | _ => exact ⟨h.null, h.empty, h.cleaning, h.discarded⟩

theorem Accounted.keep (h : Accounted s queue) (hdrained : Drained s)
    (heffect : Effect c s a s') : ∃ queue', Accounted s' queue' := by
  have hsame : ledger s' = ledger s → executing s' = executing s → ∃ queue', Accounted s' queue' :=
    fun hledger hworkers => ⟨queue, h.of_eq hledger hworkers⟩
  cases heffect with
  | spawns _ => exact hsame rfl (by simp [executing, taskOf])
  | broadcastsFailure _ => exact hsame rfl (executing_broadcast s.workers)
  | broadcastsEmpty _ => exact hsame rfl (executing_broadcast s.workers)
  | entersLoop hmove _ => exact hsame rfl (hmove.filterMap_eq rfl rfl)
  | falls hmove _ => exact hsame rfl (hmove.filterMap_eq rfl rfl)
  | waits hat hmove _ _ _ => exact hsame rfl (hmove.filterMap_eq (taskOf_atQueue hat) rfl)
  | wakes hmove => exact hsame rfl (hmove.filterMap_eq rfl rfl)
  | timesOut hmove => exact hsame rfl (hmove.filterMap_eq rfl rfl)
  | leaves hat hmove _ _ => exact hsame rfl (hmove.filterMap_eq (taskOf_atQueue hat) rfl)
  | dequeues hat hnode hmove _ hhead => exact h.dequeue hat hnode hmove hhead
  | executes hmove hnode => exact ⟨queue, h.execute hmove hnode⟩
  | finishes hmove _ _ => exact hsame rfl (hmove.filterMap_eq rfl rfl)
  | unlocks hmove => exact hsame rfl (hmove.filterMap_eq rfl rfl)
  | submits _ _ _ _ _ hp hfresh hsignal hgrow =>
    exact ⟨_, h.enqueue hp hfresh rfl ((executing_grow hgrow).trans (executing_signal hsignal))⟩
  | discards hdestroyer hnode =>
    rw [hdrained.cleaning _ hdestroyer, hdrained.null] at hnode
    cases hnode
  | _ => exact hsame rfl rfl

/-! ### Answers -/

theorem isAccepted_of_atPool {r : Submitter} {func arg : ℕ} (h : AtPool r func arg) :
    isAccepted r = false := by
  rcases h with rfl | rfl <;> rfl

theorem accepted_signal {rs rs' : List Submitter} (h : SignalsSubmitter rs rs') :
    rs'.countP isAccepted = rs.countP isAccepted := by
  rcases h with ⟨func, arg, hmove⟩ | ⟨_, rfl⟩
  · exact hmove.countP isAccepted
  · rfl

theorem accepted_broadcast (rs : List Submitter) :
    (rs.map wakeSubmitter).countP isAccepted = rs.countP isAccepted := by
  have hsame : isAccepted ∘ wakeSubmitter = isAccepted := by
    funext r
    cases r <;> rfl
  rw [List.countP_map, hsame]

/-- The call that returns `INFRA_OK` is the one whose task is accepted. -/
theorem answered_keep (h : s.accepted.length = s.submitters.countP isAccepted)
    (heffect : Effect c s a s') : s'.accepted.length = s'.submitters.countP isAccepted := by
  cases heffect with
  | finishes _ _ hsignal =>
    rcases hsignal with ⟨_, rfl⟩ | hsignal
    · exact h
    · exact h.trans (accepted_signal hsignal).symm
  | calls _ _ hr => rcases hr with rfl | rfl <;> simpa [List.countP_append, isAccepted] using h
  | @returns _ _ _ _ e _ hat hmove _ hrefused _ =>
    have hsame := hmove.countP isAccepted
    have hreply : isAccepted (.returned e) = false := by
      cases e with
      | ok => exact absurd rfl hrefused
      | _ => rfl
    rw [isAccepted_of_atPool hat, hreply] at hsame
    exact h.trans hsame.symm
  | blocks hat hmove _ _ _ =>
    have hsame := hmove.countP isAccepted
    rw [isAccepted_of_atPool hat] at hsame
    exact h.trans hsame.symm
  | @submits _ _ _ _ _ _ rs _ _ hat hmove _ _ _ _ _ _ _ =>
    have hone := hmove.countP isAccepted
    rw [isAccepted_of_atPool hat] at hone
    change rs.countP isAccepted = s.submitters.countP isAccepted + 1 at hone
    show (s.accepted ++ [_]).length = rs.countP isAccepted
    rw [List.length_append, List.length_singleton, h, hone]
  | wakesSubmitter hmove => exact h.trans (hmove.countP isAccepted).symm
  | broadcastsFull _ => exact h.trans (accepted_broadcast s.submitters).symm
  | _ => exact h

/-! ### Runs -/

section Runs
variable {P : State → Action → Prop}

theorem reachable_drained (h : Reachable initial (step c) P s) : Drained s := by
  refine h.invariant_of (J := fun s => Phases s ∧ Threads c s)
    (fun s hs => ⟨reachable_phases hs, reachable_threads hs⟩) drained_initial
    ?_
  intro s a s' hJ hs _ hstep
  rcases step_cases hstep with heffect | ⟨_, _, _, rfl⟩
  · exact hs.keep hJ.1 hJ.2 heffect
  · exact ⟨hs.null, hs.empty, hs.cleaning, hs.discarded⟩

theorem reachable_accounted (h : Reachable initial (step c) P s) :
    ∃ queue, Accounted s queue := by
  refine h.invariant_of (I := fun s => ∃ queue, Accounted s queue)
    (fun s hs => reachable_drained hs) ⟨[], accounted_initial⟩
    ?_
  rintro s a s' hdrained ⟨queue, hs⟩ _ hstep
  rcases step_cases hstep with heffect | ⟨_, _, _, rfl⟩
  · exact hs.keep hdrained heffect
  · exact ⟨queue, hs.of_eq rfl rfl⟩

theorem reachable_answered (h : Reachable initial (step c) P s) :
    s.accepted.length = s.submitters.countP isAccepted := by
  refine h.invariant (I := fun s => s.accepted.length = s.submitters.countP isAccepted) rfl
    ?_
  intro s a s' hs _ hstep
  rcases step_cases hstep with heffect | ⟨_, _, _, rfl⟩
  · exact answered_keep hs heffect
  · exact hs

end Runs

/-- Every accepted task, one for each call of `submit` that returned `INFRA_OK`,
is, once, queued, being executed, finished or discarded; tasks leave the queue
in the order in which they were accepted; and the queue is a well formed list. -/
theorem tasks_accounted (h : Reachable initial (step c) (fun _ _ => True) s) :
    ∃ queue : List (ℕ × Job),
      s.accepted.length = s.submitters.countP isAccepted ∧
      (∀ x ∈ queue ++ executing s, ∃ task, s.heap x.1 = some task ∧ task.job = x.2) ∧
      ((queue.map Prod.snd ++ (executing s).map Prod.snd ++ s.finished ++ s.discarded).Perm
        s.accepted ∧ s.accepted.Nodup) ∧
      s.dequeued ++ queue.map Prod.snd = s.accepted ∧
      Segment (nextOf s.heap) 0 s.taskHead (queue.map Prod.fst) ∧
      s.taskTail = (queue.map Prod.fst).getLastD 0 ∧
      (s.taskHead = 0 ↔ queue = []) ∧ (s.taskTail = 0 ↔ queue = []) ∧
      s.taskCount = queue.length := by
  obtain ⟨queue, hs⟩ := reachable_accounted h
  have hempty : queue.map Prod.fst = [] ↔ queue = [] := List.map_eq_nil_iff
  refine ⟨queue, reachable_answered h, hs.stored, ⟨?_, ?_⟩, hs.order, hs.linked.segment, hs.linked.last,
    hs.linked.head_null_iff.trans hempty, hs.linked.tail_null_iff.trans hempty, hs.count⟩
  · rw [(reachable_drained h).discarded, List.append_nil, ← hs.order, List.append_assoc]
    exact (hs.parts.symm.append_left _).trans List.perm_append_comm
  · apply List.Nodup.of_map Job.ticket
    rw [hs.tickets]
    exact List.nodup_range

/-- One task is being executed and a second one is in the queue. -/
theorem tasks_accounted_two : ∃ s, Reachable initial (step oneWorker) (fun _ _ => True) s ∧
    s.workers = [.running 8 ⟨0, 5, 1⟩] ∧ s.taskHead = 16 ∧ s.accepted = [⟨0, 5, 1⟩, ⟨1, 5, 2⟩] ∧
    ∃ queue : List (ℕ × Job), s.dequeued ++ queue.map Prod.snd = s.accepted ∧
      s.taskCount = queue.length := by
  obtain ⟨s, hreach, hs⟩ : ∃ s, Reachable initial (step oneWorker) (fun _ _ => True) s ∧
      decide (s.workers = [.running 8 ⟨0, 5, 1⟩] ∧ s.taskHead = 16 ∧
        s.accepted = [⟨0, 5, 1⟩, ⟨1, 5, 2⟩]) = true :=
    exists_reachable [.spawn true, .count, .test 0, .lock 0, .call 5 1, .enter 0 ⟨false, 8, 0, false⟩,
      .resume 0, .call 5 2, .enter 1 ⟨false, 16, 0, false⟩] _ (by decide)
  obtain ⟨hworkers, hhead, haccepted⟩ := of_decide_eq_true hs
  obtain ⟨queue, _, _, _, horder, _, _, _, _, hcount⟩ := tasks_accounted hreach
  exact ⟨s, hreach, hworkers, hhead, haccepted, queue, horder, hcount⟩

end Ppdb.ThreadPoolQueue
