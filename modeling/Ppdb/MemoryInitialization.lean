import Ppdb.LayerMutexes
import Ppdb.PoolReallocation
import Ppdb.Transitions

/-!
Initialisations of the memory module that fail: what `infra_memory_init` does
to the module and its mutex with any configuration, or none, in every state
that calls of the module reach.
-/

namespace Ppdb.MemoryInitialization

open BlockHeaders ByteMemory ErrorCodes EventualResults ResourceLedgers SizeArithmetic Transitions
open PoolOperations (Config Stop)

/-- `g_memory` with its mutex, and all mutexes ever created. -/
structure State where
  memory : PoolOperations.State
  mutex : ℕ
  mutexes : Ledger

/-- `reset_memory_state` keeps the mutex of an initialised module. -/
def resetMemoryState (s : State) : State :=
  { s with
    memory := PoolOperations.resetMemoryState s.memory
    mutex := if s.memory.initialized then s.mutex else 0 }

/-- `infra_memory_init`, given whether a mutex can be created and the block for
the pool, 0 if there is none. -/
def infraMemoryInit (served : Bool) (reply : ℕ) (s : State) : Option Config → State × ErrorCode
  | none => (resetMemoryState s, .invalidParam)
  | some config =>
    if s.memory.initialized then (s, .existing)
    else if config.useMemoryPool && PoolOperations.poolRejected config then
      (resetMemoryState s, .invalidParam)
    else
      let s := resetMemoryState s
      match LayerMutexes.infraMutexCreate served s.mutexes with
      | none => (resetMemoryState s, .system)
      | some (l, mutex) =>
        let s :=
          { s with mutex := mutex, mutexes := l, memory := { s.memory with config := config } }
        if config.useMemoryPool then
          match PoolOperations.initializePool reply s.memory with
          | none =>
            (resetMemoryState
              { s with mutexes := LayerMutexes.infraMutexDestroy s.mutexes s.mutex }, .noMemory)
          | some memory => ({ s with memory := { memory with initialized := true } }, .ok)
        else ({ s with memory := { s.memory with initialized := true } }, .ok)

def cleanupPool (s : PoolOperations.State) : Except Stop PoolOperations.State :=
  let clear (s : PoolOperations.State) : PoolOperations.State :=
    { s with pool := ⟨0, 0, 0, 0, 0⟩, stats := PoolOperations.Stats.zero }
  if s.pool.poolStart ≠ 0 then do
    let s ← PoolOperations.libcFree s s.pool.poolStart
    .ok (clear s)
  else .ok (clear s)

/-- `infra_memory_cleanup` leaves the handle of the mutex it destroys. -/
def infraMemoryCleanup (s : State) : Except Stop State :=
  if s.memory.initialized = false then .ok s
  else do
    let memory ← if s.memory.config.useMemoryPool then cleanupPool s.memory else .ok s.memory
    .ok { s with
      memory := PoolOperations.resetMemoryState memory
      mutexes := LayerMutexes.infraMutexDestroy s.mutexes s.mutex }

/-- The calls of the module with what they need from outside, and what its
users write to memory. -/
inductive Action
  | init (served : Bool) (reply : ℕ) (config : Option Config)
  | cleanup
  | call (fuel reply : ℕ) (c : PoolRuns.Call)
  | write (bytes : Mem)

def step (s : State) : Action → Option State
  | .init served reply config => some (infraMemoryInit served reply s config).1
  | .cleanup => (infraMemoryCleanup s).toOption
  | .call fuel reply c =>
    (PoolRuns.perform fuel reply s.memory c).toOption.map fun r => { s with memory := r.1 }
  | .write bytes => some { s with memory := { s.memory with bytes := bytes } }

def initial (bytes : Mem) : State :=
  ⟨⟨false, ⟨false, 0, 0⟩, PoolOperations.Stats.zero, ⟨0, 0, 0, 0, 0⟩, bytes, []⟩, 0, Ledger.empty⟩

/-- The whole module and all of its memory are as they were, and no mutex is
left behind. -/
def Untouched (s s' : State) : Prop :=
  s'.memory = s.memory ∧ ∀ id, s'.mutexes.InUse id ↔ s.mutexes.InUse id

/-- A failed initialisation leaves no trace. -/
def InitRight (served : Bool) (reply : ℕ) (s : State) (config : Option Config) : Prop :=
  (infraMemoryInit served reply s config).2 ≠ .ok →
    Untouched s (infraMemoryInit served reply s config).1

/-- What holds between calls: the module is clear while it is not initialised,
and holds its mutex while it is. -/
structure Kept (s : State) : Prop where
  clear : s.memory.initialized = false → PoolOperations.resetMemoryState s.memory = s.memory
  sound : s.mutexes.Sound
  held : s.memory.initialized = true → s.mutexes.InUse s.mutex

variable {s s' : State} {served : Bool} {reply fuel : ℕ} {config : Option Config}

/-- For the module itself this is the initialisation of its memory. -/
theorem infraMemoryInit_memory : (infraMemoryInit served reply s config).1.memory =
    (PoolOperations.infraMemoryInit (if served then .ok else .noMemory) reply s.memory config).1 := by
  cases config with
  | none => rfl
  | some config =>
    unfold infraMemoryInit PoolOperations.infraMemoryInit
    cases s.memory.initialized with
    | true => rfl
    | false =>
      dsimp only
      rw [if_neg Bool.false_ne_true, if_neg Bool.false_ne_true]
      by_cases hrejected : (config.useMemoryPool && PoolOperations.poolRejected config) = true
      · rw [if_pos hrejected, if_pos hrejected]
        rfl
      · rw [if_neg hrejected, if_neg hrejected]
        cases served with
        | false => rfl
        | true =>
          rw [LayerMutexes.infraMutexCreate_served _ rfl, if_pos rfl, if_neg (by simp)]
          dsimp only [resetMemoryState]
          cases config.useMemoryPool with
          | false => rfl
          | true =>
            rw [if_pos rfl, if_pos rfl]
            cases PoolOperations.initializePool reply _ with
            | none => rfl
            | some memory => rfl

/-- What the layer's account of its mutexes holds of the module, the rest as in `l`. -/
def account (l : LayerMutexes.State) (s : State) : LayerMutexes.State :=
  { l with
    memoryInitialized := s.memory.initialized
    memoryMutex := s.mutex
    mutexes := s.mutexes }

theorem account_reset (l : LayerMutexes.State) (s : State) :
    LayerMutexes.resetMemoryState (account l s) = account l (resetMemoryState s) := rfl

/-- For the mutexes it is the initialisation that the layer calls. -/
theorem infraMemoryInit_account (l : LayerMutexes.State) (config : Config) (r : LayerMutexes.Reply) :
    LayerMutexes.infraMemoryInit config r (account l s) =
      (infraMemoryInit r.memory r.pool s (some config)).map (account l) id := by
  have hmutexes : ∀ t, (account l t).mutexes = t.mutexes := fun _ => rfl
  unfold infraMemoryInit LayerMutexes.infraMemoryInit
  by_cases hon : s.memory.initialized = true
  · have hon' : (account l s).memoryInitialized = true := hon
    simp [hon, hon']
  · have hon' : ¬ (account l s).memoryInitialized = true := hon
    rw [if_neg hon']
    dsimp only
    rw [if_neg hon]
    by_cases hrejected : (config.useMemoryPool && PoolOperations.poolRejected config) = true
    · rw [if_pos hrejected, if_pos hrejected]
      rfl
    · rw [if_neg hrejected, if_neg hrejected, account_reset, hmutexes]
      cases hmutex : r.memory with
      | false => rfl
      | true =>
        rw [LayerMutexes.infraMutexCreate_served _ rfl]
        dsimp only
        cases config.useMemoryPool with
        | false => rfl
        | true =>
          unfold PoolOperations.initializePool
          by_cases hpool : r.pool = 0
          · simp [hpool, account, LayerMutexes.resetMemoryState, resetMemoryState,
              PoolOperations.resetMemoryState]
          · simp [hpool, account]

/-- Likewise its cleanup. -/
theorem infraMemoryCleanup_account (l : LayerMutexes.State) (h : infraMemoryCleanup s = .ok s') :
    LayerMutexes.infraMemoryCleanup (account l s) = account l s' := by
  suffices hall : Ensures (fun t => LayerMutexes.infraMemoryCleanup (account l s) = account l t)
      (infraMemoryCleanup s) from hall s' h
  unfold infraMemoryCleanup LayerMutexes.infraMemoryCleanup
  refine Ensures.ite (fun hoff => ensures_ok (if_pos hoff)) fun hon => ?_
  have hcleaned : ∀ memory, (if (account l s).memoryInitialized = false then account l s
      else { account l s with
        memoryInitialized := false
        mutexes := LayerMutexes.infraMutexDestroy s.mutexes s.mutex }) =
      account l { s with
        memory := PoolOperations.resetMemoryState memory
        mutexes := LayerMutexes.infraMutexDestroy s.mutexes s.mutex } := fun _ => if_neg hon
  exact Ensures.ite (fun _ => ensures_bind fun memory => ensures_ok (hcleaned memory))
    fun _ => ensures_ok (hcleaned s.memory)

/-- All that an initialisation can do. -/
theorem infraMemoryInit_cases (served : Bool) (reply : ℕ) (s : State) (config : Option Config) :
    (config = none ∧ infraMemoryInit served reply s config = (resetMemoryState s, .invalidParam)) ∨
    (config ≠ none ∧ s.memory.initialized = true ∧
      infraMemoryInit served reply s config = (s, .existing)) ∨
    (s.memory.initialized = false ∧ ∃ l e, e ≠ .ok ∧
      (l = s.mutexes ∨ l = s.mutexes.issue.giveBack s.mutexes.next) ∧
      infraMemoryInit served reply s config = ({ resetMemoryState s with mutexes := l }, e)) ∨
    (s.memory.initialized = false ∧ ∃ memory, memory.initialized = true ∧
      infraMemoryInit served reply s config =
        (⟨memory, s.mutexes.next, s.mutexes.issue⟩, .ok)) := by
  cases config with
  | none => exact Or.inl ⟨rfl, rfl⟩
  | some config =>
    right
    unfold infraMemoryInit
    cases hon : s.memory.initialized with
    | true => exact Or.inl ⟨by simp, rfl, rfl⟩
    | false =>
      right
      dsimp only
      rw [if_neg Bool.false_ne_true]
      by_cases hrejected : (config.useMemoryPool && PoolOperations.poolRejected config) = true
      · rw [if_pos hrejected]
        exact Or.inl ⟨rfl, s.mutexes, _, by simp, Or.inl rfl, rfl⟩
      · rw [if_neg hrejected]
        have hreset : resetMemoryState (resetMemoryState s) = resetMemoryState s := by
          simp [resetMemoryState, PoolOperations.resetMemoryState, hon]
        cases served with
        | false => exact Or.inl ⟨rfl, s.mutexes, _, by simp, Or.inl rfl, congrArg (·, _) hreset⟩
        | true =>
          rw [LayerMutexes.infraMutexCreate_served _ rfl]
          dsimp only [resetMemoryState]
          cases hpool : config.useMemoryPool with
          | false => exact Or.inr ⟨rfl, _, rfl, rfl⟩
          | true =>
            rw [if_pos rfl]
            cases hinit : PoolOperations.initializePool reply _ with
            | none =>
              left
              refine ⟨rfl, _, .noMemory, by simp, Or.inr rfl, ?_⟩
              dsimp only
              rw [LayerMutexes.infraMutexDestroy_next]
              simp [PoolOperations.resetMemoryState, hon]
            | some memory => exact Or.inr ⟨rfl, _, rfl, rfl⟩

/-! ### Calls keep the module initialised, or not -/

section Initialized
open PoolOperations (takeBestFit takeFirstFit splitBlock)
variable {m : PoolOperations.State} {on : Bool}

/-- A call that returns leaves the flag as it was. -/
abbrev Keeps (on : Bool) : Except Stop (PoolOperations.State × ℕ) → Prop :=
  Ensures fun r => r.1.initialized = on

theorem takeBestFit_initialized (block alignedSize size : ℕ) :
    (takeBestFit m block alignedSize size).1.initialized = m.initialized := by
  unfold takeBestFit
  split
  · rfl
  · rfl

theorem splitBlock_initialized (block size : ℕ) :
    (splitBlock m block size).initialized = m.initialized := by
  unfold splitBlock
  extract_lets _ _ remaining
  clear_value remaining
  split
  · rfl
  · rfl

theorem firstFitLoop_keeps (h : m.initialized = on) (alignedSize size fuel current : ℕ) :
    Keeps on (PoolOperations.firstFitLoop m alignedSize size fuel current) := by
  induction fuel generalizing current with
  | zero => exact ensures_error
  | succ fuel ih =>
    unfold PoolOperations.firstFitLoop
    refine Ensures.ite (fun _ => ensures_ok h) fun _ => Ensures.ite (fun _ => ?_) fun _ => ih _
    exact ensures_ok ((PoolGrowth.takeFirstFit_state _ _ _ _).1.trans h)

theorem allocateFromPool_keeps (h : m.initialized = on) (fuel size : ℕ) :
    Keeps on (PoolOperations.allocateFromPool fuel m size) := by
  unfold PoolOperations.allocateFromPool
  refine Ensures.ite (fun _ => ensures_ok h) fun _ => Ensures.ite (fun _ => ensures_ok h) fun _ =>
    Ensures.ite (fun _ => ensures_ok h) fun _ => Ensures.ite (fun _ => ensures_ok h) fun _ => ?_
  exact firstFitLoop_keeps h _ _ _ _

theorem allocatePooled_keeps (h : m.initialized = on) (fuel size : ℕ) :
    Keeps on (PoolOperations.allocatePooled fuel m size) := by
  unfold PoolOperations.allocatePooled
  refine ensures_bind fun block => Ensures.ite (fun _ => ensures_ok h) fun _ => ?_
  exact ensures_ok ((takeBestFit_initialized _ _ _).trans h)

theorem allocateSystem_keeps (h : m.initialized = on) (size : ℕ) :
    (PoolOperations.allocateSystem reply m size).1.initialized = on := by
  unfold PoolOperations.allocateSystem
  extract_lets totalSize
  clear_value totalSize
  split
  · split
    · exact h
    · exact h
  · exact h

theorem allocateMemory_keeps (h : m.initialized = on) (fuel size : ℕ) :
    Keeps on (PoolOperations.allocateMemory fuel reply m size) := by
  unfold PoolOperations.allocateMemory
  extract_lets size peak
  have hpeak : ∀ r : PoolOperations.State × ℕ, r.1.initialized = on → Keeps on (peak r) :=
    fun r hr => Ensures.ite (fun _ => ensures_ok hr) fun _ => ensures_ok hr
  refine Ensures.ite (fun _ => ?_) fun _ => ?_
  · exact (allocatePooled_keeps h fuel size).bind hpeak
  · rw [ok_bind]
    exact hpeak (PoolOperations.allocateSystem reply m size) (allocateSystem_keeps h size)

abbrev KeepsState (on : Bool) : Except Stop PoolOperations.State → Prop :=
  Ensures fun m => m.initialized = on

theorem tryMergeBlocks_keeps (h : m.initialized = on) (fuel : ℕ) :
    KeepsState on (PoolOperations.tryMergeBlocks fuel m) :=
  ensures_bind fun _ => ensures_ok h

theorem libcFree_keeps (h : m.initialized = on) (base : ℕ) :
    KeepsState on (PoolOperations.libcFree m base) := by
  unfold PoolOperations.libcFree
  split
  · exact ensures_error
  · exact ensures_ok h

theorem freeMemory_keeps (h : m.initialized = on) (fuel ptr : ℕ) :
    KeepsState on (PoolOperations.freeMemory fuel m ptr) := by
  unfold PoolOperations.freeMemory PoolOperations.freePooled
  refine Ensures.ite (fun _ => ensures_ok h) fun _ => Ensures.ite (fun _ => ?_) fun _ => ?_
  · refine Ensures.ite (fun _ => tryMergeBlocks_keeps ?_ fuel) fun _ => ensures_ok h
    exact h
  · refine libcFree_keeps ?_ _
    exact h

theorem infraFree_keeps (h : m.initialized = on) (fuel ptr : ℕ) :
    KeepsState on (PoolOperations.infraFree fuel m ptr) :=
  Ensures.ite (fun _ => ensures_ok h) fun _ => freeMemory_keeps h fuel ptr

theorem infraMalloc_keeps (h : m.initialized = on) (fuel size : ℕ) :
    Keeps on (PoolOperations.infraMalloc fuel reply m size) := by
  unfold PoolOperations.infraMalloc
  refine Ensures.ite (fun _ => ensures_ok h) fun _ => ?_
  refine (allocateMemory_keeps h fuel size).bind fun r hr => ?_
  exact Ensures.ite (fun _ => ensures_ok hr) fun _ => ensures_ok hr

theorem infraCalloc_keeps (h : m.initialized = on) (fuel nmemb size : ℕ) :
    Keeps on (PoolOperations.infraCalloc fuel reply m nmemb size) := by
  unfold PoolOperations.infraCalloc
  refine Ensures.ite (fun _ => ensures_ok h) fun _ => Ensures.ite (fun _ => ensures_ok h) fun _ => ?_
  refine (infraMalloc_keeps h fuel _).bind fun r hr => ?_
  exact Ensures.ite (fun _ => ensures_bind fun _ => ensures_ok hr) fun _ => ensures_ok hr

theorem reallocMove_keeps (h : m.initialized = on) (fuel ptr block size : ℕ) :
    Keeps on (PoolOperations.reallocMove fuel m ptr block size) := by
  unfold PoolOperations.reallocMove
  extract_lets oldSize alignedOldSize
  clear_value alignedOldSize oldSize
  refine (allocateFromPool_keeps h fuel size).bind ?_
  rintro ⟨m', newPtr⟩ hm'
  dsimp only at hm' ⊢
  by_cases hp : newPtr ≠ 0
  · rw [if_pos hp]
    refine Ensures.bind (Q := fun m => m.initialized = on) ?_ ?_
    · apply tryMergeBlocks_keeps
      exact hm'
    · exact fun _ hm => ensures_ok hm
  · rw [if_neg hp]
    exact ensures_ok hm'

theorem reallocInPlace_initialized (block size : ℕ) :
    (PoolOperations.reallocInPlace m block size).initialized = m.initialized := by
  obtain ⟨used, current, hplace⟩ := PoolReallocation.reallocInPlace_eq m block size
  rw [hplace]
  exact (PoolAllocation.withUsage_same _ _ _ _).initialized.trans (splitBlock_initialized _ _)

theorem reallocPooled_keeps (h : m.initialized = on) (fuel ptr size : ℕ) :
    Keeps on (PoolOperations.reallocPooled fuel m ptr size) := by
  unfold PoolOperations.reallocPooled
  refine Ensures.ite (fun _ => Ensures.ite (fun _ => ?_) fun _ => ?_) fun _ => ensures_ok h
  · refine ensures_ok ?_
    exact (reallocInPlace_initialized _ size).trans h
  · exact reallocMove_keeps h fuel ptr _ size

theorem reallocSystem_keeps (h : m.initialized = on) (ptr size : ℕ) :
    Keeps on (PoolOperations.reallocSystem reply m ptr size) := by
  unfold PoolOperations.reallocSystem
  refine Ensures.ite (fun _ => Ensures.ite (fun _ => ?_) fun _ => ensures_ok h) fun _ => ensures_ok h
  cases m.libc.find? _ with
  | none => exact ensures_error
  | some blk => exact Ensures.ite (fun _ => ensures_ok h) fun _ => ensures_ok h

theorem infraRealloc_keeps (h : m.initialized = on) (fuel ptr size : ℕ) :
    Keeps on (PoolOperations.infraRealloc fuel reply m ptr size) := by
  unfold PoolOperations.infraRealloc
  refine Ensures.ite (fun _ => ensures_ok h) fun _ => Ensures.ite (fun _ => ?_) fun _ => ?_
  · exact (infraFree_keeps h fuel ptr).bind fun _ hm => ensures_ok hm
  refine Ensures.ite (fun _ => infraMalloc_keeps h fuel size) fun _ => Ensures.ite (fun _ => ?_)
    fun _ => Ensures.ite (fun _ => ?_) fun _ => ensures_ok h
  · exact reallocPooled_keeps h fuel ptr size
  · exact reallocSystem_keeps h ptr size

/-- No call of the module initialises it or ends its service. -/
theorem perform_keeps (h : m.initialized = on) (fuel : ℕ) (c : PoolRuns.Call) :
    Keeps on (PoolRuns.perform fuel reply m c) := by
  cases c with
  | malloc size => exact infraMalloc_keeps h fuel size
  | calloc nmemb size => exact infraCalloc_keeps h fuel nmemb size
  | realloc ptr size => exact infraRealloc_keeps h fuel ptr size
  | free ptr => exact (infraFree_keeps h fuel ptr).bind fun _ hm => ensures_ok hm

/-- Before the module is initialised a call does nothing. -/
theorem perform_off (h : m.initialized = false) (fuel : ℕ) (c : PoolRuns.Call) :
    PoolRuns.perform fuel reply m c = .ok (m, 0) := by
  cases c <;> simp [PoolRuns.perform, PoolOperations.infraMalloc, PoolOperations.infraCalloc,
    PoolOperations.infraRealloc, PoolOperations.infraFree, h]

end Initialized

/-! ### Runs -/

theorem kept_initial (bytes : Mem) : Kept (initial bytes) where
  clear _ := rfl
  sound := sound_empty
  held hon := by cases hon

theorem Kept.reset (h : Kept s) : Kept (resetMemoryState s) where
  clear _ := rfl
  sound := h.sound
  held hon := by cases hon

theorem Kept.infraMemoryInit (h : Kept s) : Kept (infraMemoryInit served reply s config).1 := by
  rcases infraMemoryInit_cases served reply s config with ⟨_, heq⟩ | ⟨_, _, heq⟩ |
    ⟨_, l, e, _, hl, heq⟩ | ⟨_, memory, hon, heq⟩
  · rw [heq]
    exact h.reset
  · rw [heq]
    exact h
  · rw [heq]
    have hnext : s.mutexes.issue.InUse s.mutexes.next := (inUse_issue_iff h.sound).mpr (Or.inr rfl)
    have hsound : l.Sound := by
      rcases hl with rfl | rfl
      · exact h.sound
      · exact h.sound.issue.giveBack hnext
    exact ⟨fun _ => rfl, hsound, fun hon => by cases hon⟩
  · rw [heq]
    refine ⟨fun hoff => ?_, h.sound.issue, fun _ => (inUse_issue_iff h.sound).mpr (Or.inr rfl)⟩
    rw [hon] at hoff
    cases hoff

theorem Kept.infraMemoryCleanup (h : Kept s) (hrun : infraMemoryCleanup s = .ok s') : Kept s' := by
  revert hrun
  suffices hall : Ensures Kept (MemoryInitialization.infraMemoryCleanup s) from
    fun hrun => hall s' hrun
  unfold MemoryInitialization.infraMemoryCleanup
  refine Ensures.ite (fun _ => ensures_ok h) fun hon => ?_
  have hheld := h.held (by simpa using hon)
  have hne : s.mutex ≠ 0 := Nat.ne_of_gt hheld.1
  have hkept : ∀ memory, Kept { s with
      memory := PoolOperations.resetMemoryState memory
      mutexes := LayerMutexes.infraMutexDestroy s.mutexes s.mutex } := by
    intro memory
    refine ⟨fun _ => rfl, ?_, fun hon => by cases hon⟩
    rw [LayerMutexes.infraMutexDestroy, if_pos hne]
    exact h.sound.giveBack hheld
  exact Ensures.ite (fun _ => ensures_bind fun memory => ensures_ok (hkept memory))
    fun _ => ensures_ok (hkept s.memory)

theorem Kept.call (h : Kept s) {c : PoolRuns.Call} {r : PoolOperations.State × ℕ}
    (hrun : PoolRuns.perform fuel reply s.memory c = .ok r) : Kept { s with memory := r.1 } := by
  have hkeeps := perform_keeps rfl fuel c r hrun
  refine ⟨fun hoff => ?_, h.sound, fun hon => h.held (hkeeps ▸ hon)⟩
  rw [perform_off (hkeeps ▸ hoff)] at hrun
  cases hrun
  exact h.clear hoff

theorem Kept.step {a : Action} (h : Kept s) (hstep : step s a = some s') : Kept s' := by
  cases a with
  | init served reply config =>
    cases hstep
    exact h.infraMemoryInit
  | cleanup =>
    cases hrun : MemoryInitialization.infraMemoryCleanup s with
    | error e => simp [MemoryInitialization.step, hrun, Except.toOption] at hstep
    | ok t =>
      have heq : t = s' := by simpa [MemoryInitialization.step, hrun, Except.toOption] using hstep
      exact heq ▸ h.infraMemoryCleanup hrun
  | call fuel reply c =>
    cases hrun : PoolRuns.perform fuel reply s.memory c with
    | error e => simp [MemoryInitialization.step, hrun, Except.toOption] at hstep
    | ok r =>
      have heq : { s with memory := r.1 } = s' := by
        simpa [MemoryInitialization.step, hrun, Except.toOption] using hstep
      exact heq ▸ h.call hrun
  | write bytes =>
    cases hstep
    refine ⟨fun hoff => ?_, h.sound, h.held⟩
    exact congrArg (fun m => { m with bytes := bytes }) (h.clear hoff)

/-- The states that the module's calls reach, with any memory at the start. -/
abbrev Run (bytes : Mem) : State → Prop := Reachable (initial bytes) step fun _ _ => True

theorem kept_of_run {bytes : Mem} (h : Run bytes s) : Kept s :=
  h.invariant (kept_initial bytes) fun _ _ _ hkept _ hstep => hkept.step hstep

theorem Kept.untouched (h : Kept s) (hoff : s.memory.initialized = false) {l : Ledger}
    (hl : l = s.mutexes ∨ l = s.mutexes.issue.giveBack s.mutexes.next) :
    Untouched s { resetMemoryState s with mutexes := l } := by
  refine ⟨h.clear hoff, fun id => ?_⟩
  rcases hl with rfl | rfl
  · exact Iff.rfl
  · exact inUse_returned_iff h.sound

theorem Kept.initRight (h : Kept s) (hcond : ¬ (config = none ∧ s.memory.initialized = true)) :
    InitRight served reply s config := by
  rcases infraMemoryInit_cases served reply s config with ⟨hnone, heq⟩ | ⟨_, _, heq⟩ |
    ⟨hoff, l, e, _, hl, heq⟩ | ⟨_, memory, _, heq⟩
  · intro _
    have hoff : s.memory.initialized = false := by
      rw [← Bool.not_eq_true]
      exact fun hon => hcond ⟨hnone, hon⟩
    rw [heq]
    exact h.untouched hoff (Or.inl rfl)
  · intro _
    rw [heq]
    exact ⟨rfl, fun _ => Iff.rfl⟩
  · intro _
    rw [heq]
    exact h.untouched hoff hl
  · intro herr
    rw [heq] at herr
    exact absurd rfl herr

/-- Without a configuration the module in service is reset. -/
theorem not_initRight_none (hon : s.memory.initialized = true) :
    ¬ InitRight served reply s none := by
  intro hright
  have hsame := (hright (by simp [infraMemoryInit])).1
  have hflag : false = s.memory.initialized :=
    congrArg (fun m : PoolOperations.State => m.initialized) hsame
  rw [hon] at hflag
  cases hflag

/-- An initialisation that fails leaves no trace, unless it is one without a
configuration of the module in service. -/
theorem memoryInitRight_iff {bytes : Mem} (h : Run bytes s) (served : Bool) (reply : ℕ)
    (config : Option Config) :
    InitRight served reply s config ↔ ¬ (config = none ∧ s.memory.initialized = true) := by
  refine ⟨?_, (kept_of_run h).initRight⟩
  rintro hright ⟨rfl, hon⟩
  exact not_initRight_none hon hright

/-- In service with memory from the C library. -/
theorem started (bytes : Mem) : ∃ s, Run bytes s ∧ s.memory.initialized = true :=
  ⟨_, Reachable.init.step (a := .init true 0 (some ⟨false, 0, 0⟩)) trivial rfl, rfl⟩

/-- A second initialisation. -/
theorem memoryInitRight_iff_again : ∃ s, s.memory.initialized = true ∧
    InitRight true 0 s (some ⟨false, 0, 0⟩) := by
  obtain ⟨s, hrun, hon⟩ := started fun _ => 0
  exact ⟨s, hon, (memoryInitRight_iff hrun true 0 _).mpr (by simp)⟩

/-- An initialisation without a configuration is refused, and ends the service. -/
theorem refusal_resets : ∃ s, Run (fun _ => 0) s ∧ s.memory.initialized = true ∧
    (infraMemoryInit true 0 s none).2 = .invalidParam ∧
    (infraMemoryInit true 0 s none).1.memory.initialized = false ∧ ¬ InitRight true 0 s none := by
  obtain ⟨s, hrun, hon⟩ := started fun _ => 0
  exact ⟨s, hrun, hon, rfl, rfl, not_initRight_none hon⟩

end Ppdb.MemoryInitialization
