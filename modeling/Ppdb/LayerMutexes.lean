import Ppdb.ErrorCodes
import Ppdb.PoolOperations
import Ppdb.ResourceLedgers

/-!
The mutexes of the infrastructure layer: the global one, that of the log and
that of the memory module. The model follows the handles through
initialisations, which may fail at each of their steps, and cleanups.
-/

namespace Ppdb.LayerMutexes

open ErrorCodes ResourceLedgers

def initMemoryFlag : BitVec 32 := 1#32

def initLogFlag : BitVec 32 := 2#32

def initDsFlag : BitVec 32 := 4#32

/-- What `g_infra` and `g_memory` hold of this, and all mutexes ever created.
Handles are numbers in the order of creation, 0 being the null pointer. -/
structure State where
  initialized : Bool
  activeFlags : BitVec 32
  mutex : ℕ
  logMutex : ℕ
  memoryInitialized : Bool
  memoryMutex : ℕ
  mutexes : Ledger
  deriving DecidableEq, Repr

def initial : State := ⟨false, 0, 0, 0, false, 0, Ledger.empty⟩

/-- Which mutexes can be created, and the block for the pool, 0 if there is none. -/
structure Reply where
  global : Bool
  log : Bool
  memory : Bool
  pool : ℕ
  deriving DecidableEq, Repr

def infraMutexCreate (served : Bool) (l : Ledger) : Option (Ledger × ℕ) :=
  if served then some (l.issue, l.next) else none

def infraMutexDestroy (l : Ledger) (mutex : ℕ) : Ledger :=
  if mutex ≠ 0 then l.giveBack mutex else l

/-- `reset_memory_state` keeps the mutex of an initialised module. -/
def resetMemoryState (s : State) : State :=
  { s with memoryInitialized := false, memoryMutex := if s.memoryInitialized then s.memoryMutex else 0 }

/-- `infra_memory_init` with a configuration -/
def infraMemoryInit (config : PoolOperations.Config) (r : Reply) (s : State) : State × ErrorCode :=
  if s.memoryInitialized then (s, .existing)
  else if config.useMemoryPool && PoolOperations.poolRejected config then
    (resetMemoryState s, .invalidParam)
  else
    let s := resetMemoryState s
    match infraMutexCreate r.memory s.mutexes with
    | none => (resetMemoryState s, .system)
    | some (l, mutex) =>
      let s := { s with memoryMutex := mutex, mutexes := l }
      -- `initialize_pool` fails only if there is no memory for the pool
      if config.useMemoryPool && r.pool = 0 then
        (resetMemoryState { s with mutexes := infraMutexDestroy s.mutexes s.memoryMutex }, .noMemory)
      else ({ s with memoryInitialized := true }, .ok)

/-- `infra_memory_cleanup` leaves the handle of the mutex it destroys. -/
def infraMemoryCleanup (s : State) : State :=
  if s.memoryInitialized = false then s
  else { s with memoryInitialized := false, mutexes := infraMutexDestroy s.mutexes s.memoryMutex }

/-- `init_module` for the log -/
def initLog (served : Bool) (s : State) : State × ErrorCode :=
  match infraMutexCreate served s.mutexes with
  | none => (s, .system)
  | some (l, mutex) => ({ s with logMutex := mutex, mutexes := l }, .ok)

/-- `infra_init_with_config` with a configuration that is not null -/
def infraInitWithConfig (flags : BitVec 32) (config : PoolOperations.Config) (r : Reply) (s : State) :
    State × ErrorCode :=
  if s.initialized then (s, .ok)
  else
    match infraMutexCreate r.global s.mutexes with
    | none => (s, .system)
    | some (l, mutex) =>
      match initLog r.log { s with mutex := mutex, mutexes := l } with
      | (s, .ok) =>
        if flags &&& initMemoryFlag ≠ 0 then
          match infraMemoryInit config r s with
          | (s, .ok) => ({ s with initialized := true, activeFlags := flags }, .ok)
          | (s, e) => (s, e)
        else ({ s with initialized := true, activeFlags := flags }, .ok)
      | (s, e) => (s, e)

/-- `if (flags & flag) flags &= ~flag;` -/
def clearFlag (flags flag : BitVec 32) : BitVec 32 :=
  if flags &&& flag ≠ 0 then flags &&& ~~~flag else flags

def infraCleanup (s : State) : State :=
  if s.initialized = false then s
  else
    let flags := clearFlag (clearFlag s.activeFlags initDsFlag) initLogFlag
    let s := if flags &&& initMemoryFlag ≠ 0 then infraMemoryCleanup s else s
    { s with
      mutexes := infraMutexDestroy s.mutexes s.mutex
      initialized := false
      activeFlags := 0 }

inductive Call
  | init (flags : BitVec 32) (config : PoolOperations.Config) (r : Reply)
  | cleanup

def perform (s : State) : Call → State
  | .init flags config r => (infraInitWithConfig flags config r s).1
  | .cleanup => infraCleanup s

/-- The memory module refuses the configuration or lacks a mutex or memory. -/
def MemoryFails (config : PoolOperations.Config) (r : Reply) : Prop :=
  (config.useMemoryPool = true ∧ PoolOperations.poolRejected config = true) ∨ r.memory = false ∨
    config.useMemoryPool = true ∧ r.pool = 0

/-- An initialisation that fails after it has created the global mutex, and a
cleanup of the initialised layer. -/
def Leaks (s : State) : Call → Prop
  | .init flags config r => s.initialized = false ∧ r.global = true ∧
      (r.log = false ∨ flags &&& initMemoryFlag ≠ 0 ∧ MemoryFails config r)
  | .cleanup => s.initialized = true

/-- A run of calls from the start of the process, and whether one of them leaks. -/
inductive Run : State → Prop → Prop
  | start : Run initial False
  | call {s : State} {leaked : Prop} (hrun : Run s leaked) (c : Call) :
      Run (perform s c) (leaked ∨ Leaks s c)

def Referenced (s : State) (id : ℕ) : Prop :=
  s.initialized = true ∧ (id = s.mutex ∨ id = s.logMutex ∨
    s.activeFlags &&& initMemoryFlag ≠ 0 ∧ id = s.memoryMutex)

/-- Exactly the mutexes that the layer refers to are alive, none when it is not
initialised; all others have been destroyed, none of them twice. -/
def MutexesRight (s : State) : Prop :=
  (∀ id, s.mutexes.InUse id ↔ Referenced s id) ∧
    ∀ id, 0 < id → id ≤ s.mutexes.issued → ¬ Referenced s id → s.mutexes.returned.count id = 1

/-- What holds along a run; a mutex that has leaked stays alive for good. -/
structure Kept (s : State) (leaked : Prop) : Prop where
  sound : s.mutexes.Sound
  memory : s.memoryInitialized = true ↔
    s.initialized = true ∧ s.activeFlags &&& initMemoryFlag ≠ 0
  alive : ∀ id, Referenced s id → s.mutexes.InUse id
  apart : s.initialized = true → s.mutex ≠ s.logMutex ∧ (s.activeFlags &&& initMemoryFlag ≠ 0 →
    s.memoryMutex ≠ s.mutex ∧ s.memoryMutex ≠ s.logMutex)
  complete : ¬ leaked → ∀ id, s.mutexes.InUse id → Referenced s id
  leak : leaked → ∃ id, s.mutexes.InUse id ∧ ¬ Referenced s id

variable {s s' : State} {leaked leaked' : Prop} {c : Call} {flags : BitVec 32}
  {config : PoolOperations.Config} {r : Reply} {id : ℕ}

theorem not_referenced (h : s.initialized = false) : ¬ Referenced s id := by
  rintro ⟨hon, _⟩
  rw [h] at hon
  cases hon

theorem kept_initial : Kept initial False := by
  refine ⟨sound_empty, by simp [initial], ?_, ?_, ?_, False.elim⟩
  · intro id hid
    exact absurd hid (not_referenced rfl)
  · intro hon
    cases hon
  · intro _ id hid
    exact absurd hid not_inUse_empty

theorem Kept.congr (h : Kept s leaked) (hiff : leaked ↔ leaked') : Kept s leaked' := by
  rwa [← propext hiff]

/-- The layer is not initialised and a mutex is still alive. -/
theorem Kept.of_leak (hsound : s.mutexes.Sound) (hoff : s.initialized = false)
    (hmemory : s.memoryInitialized = false) (hid : s.mutexes.InUse id) (hleaked : leaked) :
    Kept s leaked := by
  refine ⟨hsound, by simp [hoff, hmemory], ?_, by simp [hoff], ?_, fun _ => ⟨id, hid, not_referenced hoff⟩⟩
  · intro id' hid'
    exact absurd hid' (not_referenced hoff)
  · intro hnot
    exact absurd hleaked hnot

theorem Kept.mutexesRight_iff (h : Kept s leaked) : MutexesRight s ↔ ¬ leaked := by
  constructor
  · intro hright hleaked
    obtain ⟨id, hid, hnot⟩ := h.leak hleaked
    exact hnot ((hright.1 id).mp hid)
  · intro hnot
    refine ⟨fun id => ⟨h.complete hnot id, h.alive id⟩, ?_⟩
    intro id hpos hle hunreferenced
    apply h.sound.count_eq_one hpos hle
    intro hid
    exact hunreferenced (h.complete hnot id hid)

/-! ### The memory module -/

theorem infraMutexCreate_served {served : Bool} (l : Ledger) (h : served = true) :
    infraMutexCreate served l = some (l.issue, l.next) := if_pos h

theorem infraMutexCreate_refused {served : Bool} (l : Ledger) (h : served = false) :
    infraMutexCreate served l = none := by
  simp [infraMutexCreate, h]

theorem infraMutexDestroy_next (l : Ledger) :
    infraMutexDestroy l.issue l.next = l.issue.giveBack l.next := if_pos (Nat.succ_ne_zero _)

/-- A failing initialisation of the memory module leaves no mutex of its own. -/
theorem infraMemoryInit_fails (h : s.memoryInitialized = false) (hfails : MemoryFails config r) :
    ∃ s' e, infraMemoryInit config r s = (s', e) ∧ e ≠ .ok ∧ s'.initialized = s.initialized ∧
      s'.memoryInitialized = false ∧ (s'.mutexes = s.mutexes ∨
        s'.mutexes = s.mutexes.issue.giveBack s.mutexes.next) := by
  unfold infraMemoryInit
  rw [if_neg (by simp [h])]
  by_cases hrejected : (config.useMemoryPool && PoolOperations.poolRejected config) = true
  · rw [if_pos hrejected]
    exact ⟨_, _, rfl, by simp, rfl, rfl, Or.inl rfl⟩
  · rw [if_neg hrejected]
    dsimp only
    cases hmutex : r.memory with
    | false =>
      rw [infraMutexCreate_refused _ rfl]
      exact ⟨_, _, rfl, by simp, rfl, rfl, Or.inl rfl⟩
    | true =>
      rw [infraMutexCreate_served _ rfl]
      have hpool : (config.useMemoryPool && decide (r.pool = 0)) = true := by
        rcases hfails with ⟨hpool, hbad⟩ | hbad | ⟨hpool, hbad⟩
        · rw [hpool, hbad] at hrejected
          exact absurd rfl hrejected
        · rw [hmutex] at hbad
          cases hbad
        · simp [hpool, hbad]
      dsimp only
      rw [if_pos hpool]
      exact ⟨_, _, rfl, by simp, rfl, rfl, Or.inr (infraMutexDestroy_next _)⟩

theorem infraMemoryInit_succeeds (h : s.memoryInitialized = false) (hok : ¬ MemoryFails config r) :
    infraMemoryInit config r s = ({ s with
      memoryInitialized := true
      memoryMutex := s.mutexes.next
      mutexes := s.mutexes.issue }, .ok) := by
  rw [MemoryFails, not_or, not_or] at hok
  obtain ⟨haccepted, hmutex, hpool⟩ := hok
  have hrejected : ¬ (config.useMemoryPool && PoolOperations.poolRejected config) = true := by
    rwa [Bool.and_eq_true]
  have hserved : r.memory = true := by simpa using hmutex
  have hblock : ¬ (config.useMemoryPool && decide (r.pool = 0)) = true := by
    rwa [Bool.and_eq_true, decide_eq_true_iff]
  unfold infraMemoryInit
  rw [if_neg (by simp [h]), if_neg hrejected]
  dsimp only
  rw [infraMutexCreate_served _ hserved]
  dsimp only
  rw [if_neg hblock]
  rfl

/-- The configuration is refused only before anything of the module is set up. -/
theorem infraMemoryInit_refuses_iff : (infraMemoryInit config r s).2 = .invalidParam ↔
    s.memoryInitialized = false ∧ config.useMemoryPool = true ∧
      PoolOperations.poolRejected config = true := by
  unfold infraMemoryInit
  cases hon : s.memoryInitialized with
  | true =>
    rw [if_pos rfl]
    exact iff_of_false (fun h => nomatch h) (fun h => nomatch h.1)
  | false =>
    rw [if_neg Bool.false_ne_true]
    by_cases hrejected : (config.useMemoryPool && PoolOperations.poolRejected config) = true
    · rw [if_pos hrejected]
      exact iff_of_true rfl ⟨rfl, Bool.and_eq_true_iff.mp hrejected⟩
    · rw [if_neg hrejected]
      refine iff_of_false ?_ fun h => hrejected (Bool.and_eq_true_iff.mpr h.2)
      dsimp only
      cases infraMutexCreate r.memory (resetMemoryState s).mutexes with
      | none => exact fun h => nomatch h
      | some created =>
        dsimp only
        split
        · exact fun h => nomatch h
        · exact fun h => nomatch h

/-! ### Initialisation -/

theorem infraInitWithConfig_again (h : s.initialized = true) :
    infraInitWithConfig flags config r s = (s, .ok) := if_pos h

theorem infraInitWithConfig_refused (h : s.initialized = false) (hglobal : r.global = false) :
    infraInitWithConfig flags config r s = (s, .system) := by
  simp [infraInitWithConfig, h, infraMutexCreate_refused _ hglobal]

/-- The global mutex is created; the log is next. -/
theorem infraInitWithConfig_global (h : s.initialized = false) (hglobal : r.global = true)
    (hlog : r.log = true) (hflag : flags &&& initMemoryFlag = 0) :
    infraInitWithConfig flags config r s = ({ s with
      initialized := true
      activeFlags := flags
      mutex := s.mutexes.next
      logMutex := s.mutexes.issue.next
      mutexes := s.mutexes.issue.issue }, .ok) := by
  simp [infraInitWithConfig, h, infraMutexCreate_served _ hglobal, initLog,
    infraMutexCreate_served _ hlog, hflag]

def beforeMemory (s : State) : State :=
  { s with
    mutex := s.mutexes.next
    logMutex := s.mutexes.issue.next
    mutexes := s.mutexes.issue.issue }

theorem infraInitWithConfig_memory (h : s.initialized = false) (hglobal : r.global = true)
    (hlog : r.log = true) (hflag : flags &&& initMemoryFlag ≠ 0) :
    infraInitWithConfig flags config r s =
      match infraMemoryInit config r (beforeMemory s) with
      | (s, .ok) => ({ s with initialized := true, activeFlags := flags }, .ok)
      | (s, e) => (s, e) := by
  unfold infraInitWithConfig
  rw [if_neg (by simp [h]), infraMutexCreate_served _ hglobal]
  dsimp only
  rw [initLog, infraMutexCreate_served _ hlog]
  dsimp only
  rw [if_pos hflag]
  rfl

theorem infraInitWithConfig_noLog (h : s.initialized = false) (hglobal : r.global = true)
    (hlog : r.log = false) : infraInitWithConfig flags config r s =
      ({ s with mutex := s.mutexes.next, mutexes := s.mutexes.issue }, .system) := by
  simp [infraInitWithConfig, h, infraMutexCreate_served _ hglobal, initLog,
    infraMutexCreate_refused _ hlog]

def Refused (s : State) (flags : BitVec 32) (config : PoolOperations.Config) (r : Reply) : Prop :=
  (s.initialized = false ∧ r.global = true ∧ r.log = true ∧ flags &&& initMemoryFlag ≠ 0) ∧
    config.useMemoryPool = true ∧ PoolOperations.poolRejected config = true

theorem infraInitWithConfig_refuses_iff (hoff : s.initialized = false → s.memoryInitialized = false) :
    (infraInitWithConfig flags config r s).2 = .invalidParam ↔ Refused s flags config r := by
  by_cases hreached : s.initialized = false ∧ r.global = true ∧ r.log = true ∧
      flags &&& initMemoryFlag ≠ 0
  · obtain ⟨hon, hglobal, hlog, hflag⟩ := id hreached
    have hcode : (infraInitWithConfig flags config r s).2 =
        (infraMemoryInit config r (beforeMemory s)).2 := by
      rw [infraInitWithConfig_memory hon hglobal hlog hflag]
      rcases infraMemoryInit config r (beforeMemory s) with ⟨s', e⟩
      cases e <;> rfl
    rw [hcode, infraMemoryInit_refuses_iff, Refused, and_iff_right hreached]
    exact and_iff_right (hoff hon)
  · refine iff_of_false ?_ fun h => hreached h.1
    cases hon : s.initialized with
    | true =>
      rw [infraInitWithConfig_again hon]
      exact fun h => nomatch h
    | false =>
      cases hglobal : r.global with
      | false =>
        rw [infraInitWithConfig_refused hon hglobal]
        exact fun h => nomatch h
      | true =>
        cases hlog : r.log with
        | false =>
          rw [infraInitWithConfig_noLog hon hglobal hlog]
          exact fun h => nomatch h
        | true =>
          have hflag : flags &&& initMemoryFlag = 0 := by
            by_contra hflag
            exact hreached ⟨hon, hglobal, hlog, hflag⟩
          rw [infraInitWithConfig_global hon hglobal hlog hflag]
          exact fun h => nomatch h

theorem Kept.memory_off (h : Kept s leaked) (hoff : s.initialized = false) :
    s.memoryInitialized = false := by
  rw [← Bool.not_eq_true, h.memory]
  simp [hoff]

/-- An initialisation that fails on the way leaves the global mutex behind. -/
theorem Kept.init_fails (h : Kept s leaked) (hleaks : Leaks s (.init flags config r)) :
    Kept (perform s (.init flags config r)) True := by
  obtain ⟨hoff, hglobal, hreason⟩ := hleaks
  have hmemory := h.memory_off hoff
  have hnext : s.mutexes.issue.InUse s.mutexes.next := (inUse_issue_iff h.sound).mpr (Or.inr rfl)
  have hsound := h.sound.issue
  cases hlog : r.log with
  | false =>
    rw [perform, infraInitWithConfig_noLog hoff hglobal hlog]
    exact Kept.of_leak hsound hoff hmemory hnext trivial
  | true =>
    have hreason' : flags &&& initMemoryFlag ≠ 0 ∧ MemoryFails config r := by
      rcases hreason with hbad | hreason
      · rw [hlog] at hbad
        cases hbad
      · exact hreason
    have hnext₂ : s.mutexes.issue.issue.InUse s.mutexes.next :=
      (inUse_issue_iff hsound).mpr (Or.inl hnext)
    obtain ⟨s', e, hrun, hne, hoff', hmemory', hmutexes⟩ :=
      infraMemoryInit_fails (s := beforeMemory s) hmemory hreason'.2
    have heq : infraInitWithConfig flags config r s = (s', e) := by
      rw [infraInitWithConfig_memory hoff hglobal hlog hreason'.1, hrun]
      split
      · rename_i hpair
        obtain ⟨-, he⟩ := Prod.mk.inj hpair
        exact absurd he hne
      · rename_i hpair
        exact hpair.symm
    rw [perform, heq]
    have hleft : s'.mutexes.Sound ∧ s'.mutexes.InUse s.mutexes.next := by
      rcases hmutexes with hsame | hback
      · rw [hsame]
        exact ⟨hsound.issue, hnext₂⟩
      · have hthird : s.mutexes.issue.issue.issue.InUse s.mutexes.issue.issue.next :=
          (inUse_issue_iff hsound.issue).mpr (Or.inr rfl)
        rw [hback]
        refine ⟨hsound.issue.issue.giveBack hthird, inUse_giveBack_iff.mpr ⟨?_, hnext₂.ne_next⟩⟩
        exact (inUse_issue_iff hsound.issue).mpr (Or.inl hnext₂)
    exact Kept.of_leak hleft.1 (hoff'.trans hoff) hmemory' hleft.2 trivial

/-- The mutexes in use are those from before and the ones now referred to. -/
theorem Kept.started (h : Kept s leaked) (hoff : s.initialized = false) (hsound : s'.mutexes.Sound)
    (hmemory : s'.memoryInitialized = true ↔
      s'.initialized = true ∧ s'.activeFlags &&& initMemoryFlag ≠ 0)
    (hinUse : ∀ id, s'.mutexes.InUse id ↔ s.mutexes.InUse id ∨ Referenced s' id)
    (hnew : ∀ id, s.mutexes.InUse id → ¬ Referenced s' id)
    (hapart : s'.mutex ≠ s'.logMutex ∧ (s'.activeFlags &&& initMemoryFlag ≠ 0 →
      s'.memoryMutex ≠ s'.mutex ∧ s'.memoryMutex ≠ s'.logMutex)) : Kept s' leaked := by
  refine ⟨hsound, hmemory, fun id hid => (hinUse id).mpr (Or.inr hid), fun _ => hapart, ?_, ?_⟩
  · intro hnot id hid
    rcases (hinUse id).mp hid with hold | hreferenced
    · exact absurd (h.complete hnot id hold) (not_referenced hoff)
    · exact hreferenced
  · intro hleaked
    obtain ⟨id, hid, _⟩ := h.leak hleaked
    exact ⟨id, (hinUse id).mpr (Or.inl hid), hnew id hid⟩

theorem next_issue_ne (l : Ledger) : l.next ≠ l.issue.next := by
  simp [Ledger.next, Ledger.issue]

theorem Ledger.InUse.issue {l : Ledger} (h : l.InUse id) : l.issue.InUse id :=
  ⟨h.1, Nat.le_succ_of_le h.2.1, h.2.2⟩

theorem Kept.init_succeeds (h : Kept s leaked) (hoff : s.initialized = false)
    (hglobal : r.global = true) (hlog : r.log = true)
    (hok : flags &&& initMemoryFlag ≠ 0 → ¬ MemoryFails config r) :
    Kept (perform s (.init flags config r)) leaked := by
  have hmemory := h.memory_off hoff
  have hissue := h.sound.issue
  have hlogInUse : ∀ id, s.mutexes.issue.issue.InUse id ↔
      s.mutexes.InUse id ∨ id = s.mutexes.next ∨ id = s.mutexes.issue.next := by
    intro id
    rw [inUse_issue_iff hissue, inUse_issue_iff h.sound, or_assoc]
  have hne := next_issue_ne s.mutexes
  have hold : ∀ id, s.mutexes.InUse id → id ≠ s.mutexes.next ∧ id ≠ s.mutexes.issue.next ∧
      id ≠ s.mutexes.issue.issue.next := by
    intro id hid
    exact ⟨hid.ne_next, (Ledger.InUse.issue hid).ne_next,
      (Ledger.InUse.issue (Ledger.InUse.issue hid)).ne_next⟩
  by_cases hflag : flags &&& initMemoryFlag = 0
  · rw [perform, infraInitWithConfig_global hoff hglobal hlog hflag]
    apply h.started hoff hissue.issue
    · simp [hmemory, hflag]
    · intro id
      rw [hlogInUse id]
      simp [Referenced, hflag]
    · rintro id hid ⟨_, hmutex | hmutex | ⟨hset, _⟩⟩
      · exact (hold id hid).1 hmutex
      · exact (hold id hid).2.1 hmutex
      · exact hset hflag
    · exact ⟨hne, fun hset => absurd hflag hset⟩
  · have hrun := infraMemoryInit_succeeds (s := beforeMemory s) hmemory (hok hflag)
    have hset : ¬ flags &&& initMemoryFlag = 0#32 := hflag
    rw [perform, infraInitWithConfig_memory hoff hglobal hlog hflag, hrun]
    apply h.started hoff hissue.issue.issue
    · exact iff_of_true rfl ⟨rfl, hflag⟩
    · intro id
      show s.mutexes.issue.issue.issue.InUse id ↔ _
      rw [inUse_issue_iff hissue.issue, hlogInUse id]
      simp [Referenced, hset, beforeMemory, or_assoc]
    · rintro id hid ⟨_, hmutex | hmutex | ⟨_, hmutex⟩⟩
      · exact (hold id hid).1 hmutex
      · exact (hold id hid).2.1 hmutex
      · exact (hold id hid).2.2 hmutex
    · refine ⟨hne, fun _ => ⟨?_, (next_issue_ne s.mutexes.issue).symm⟩⟩
      show s.mutexes.issued + 1 + 1 + 1 ≠ s.mutexes.issued + 1
      omega

/-! ### Cleanup -/

theorem clearFlag_memory (flags : BitVec 32) :
    clearFlag (clearFlag flags initDsFlag) initLogFlag &&& initMemoryFlag = flags &&& initMemoryFlag := by
  have hkeep : ∀ (f flag : BitVec 32), ~~~flag &&& initMemoryFlag = initMemoryFlag →
      clearFlag f flag &&& initMemoryFlag = f &&& initMemoryFlag := by
    intro f flag hflag
    unfold clearFlag
    split
    · rw [BitVec.and_assoc, hflag]
    · rfl
  rw [hkeep _ _ (by decide), hkeep _ _ (by decide)]

/-- The mutex of the log stays behind. -/
theorem Kept.cleanup (h : Kept s leaked) (hon : s.initialized = true) :
    Kept (perform s .cleanup) True := by
  have hmutex := h.alive s.mutex ⟨hon, Or.inl rfl⟩
  have hlog := h.alive s.logMutex ⟨hon, Or.inr (Or.inl rfl)⟩
  obtain ⟨hapart, hapartMemory⟩ := h.apart hon
  have hdestroy : ∀ l : Ledger, ∀ m, l.InUse m → infraMutexDestroy l m = l.giveBack m :=
    fun l m hm => if_pos (Nat.pos_iff_ne_zero.mp hm.1)
  by_cases hflag : s.activeFlags &&& initMemoryFlag = 0
  · have hcleanup : infraCleanup s = { s with
        mutexes := s.mutexes.giveBack s.mutex, initialized := false, activeFlags := 0 } := by
      rw [infraCleanup, if_neg (by simp [hon])]
      dsimp only
      rw [clearFlag_memory, if_neg (not_not.mpr hflag), hdestroy _ _ hmutex]
    have hmemory : s.memoryInitialized = false := by
      rw [← Bool.not_eq_true, h.memory]
      simp [hflag]
    rw [perform, hcleanup]
    have hleft : (s.mutexes.giveBack s.mutex).InUse s.logMutex :=
      inUse_giveBack_iff.mpr ⟨hlog, hapart.symm⟩
    refine Kept.of_leak ?_ rfl ?_ hleft trivial
    · exact h.sound.giveBack hmutex
    · exact hmemory
  · have hmemory := h.memory.mpr ⟨hon, hflag⟩
    have hmemoryMutex := h.alive s.memoryMutex ⟨hon, Or.inr (Or.inr ⟨hflag, rfl⟩)⟩
    obtain ⟨hne, hneLog⟩ := hapartMemory hflag
    have hmutex' : (s.mutexes.giveBack s.memoryMutex).InUse s.mutex :=
      inUse_giveBack_iff.mpr ⟨hmutex, hne.symm⟩
    have hcleanup : infraCleanup s = { s with
        memoryInitialized := false
        mutexes := (s.mutexes.giveBack s.memoryMutex).giveBack s.mutex
        initialized := false
        activeFlags := 0 } := by
      rw [infraCleanup, if_neg (by simp [hon])]
      dsimp only
      rw [clearFlag_memory, if_pos hflag, infraMemoryCleanup, if_neg (by simp [hmemory])]
      dsimp only
      rw [hdestroy _ _ hmemoryMutex, hdestroy _ _ hmutex']
    rw [perform, hcleanup]
    have hleft : ((s.mutexes.giveBack s.memoryMutex).giveBack s.mutex).InUse s.logMutex :=
      inUse_giveBack_iff.mpr ⟨inUse_giveBack_iff.mpr ⟨hlog, hneLog.symm⟩, hapart.symm⟩
    refine Kept.of_leak ?_ rfl rfl hleft trivial
    exact (h.sound.giveBack hmemoryMutex).giveBack hmutex'

/-! ### Runs -/

theorem Kept.perform (h : Kept s leaked) (c : Call) : Kept (perform s c) (leaked ∨ Leaks s c) := by
  by_cases hleaks : Leaks s c
  · have hfalls : Kept (LayerMutexes.perform s c) True := by
      cases c with
      | init flags config r => exact h.init_fails hleaks
      | cleanup => exact h.cleanup hleaks
    exact hfalls.congr (iff_of_true trivial (Or.inr hleaks))
  · have hstays : Kept (LayerMutexes.perform s c) leaked := by
      cases c with
      | init flags config r =>
        cases hon : s.initialized with
        | true =>
          rw [LayerMutexes.perform, infraInitWithConfig_again hon]
          exact h
        | false =>
          cases hglobal : r.global with
          | false =>
            rw [LayerMutexes.perform, infraInitWithConfig_refused hon hglobal]
            exact h
          | true =>
            have hreason : ¬ (r.log = false ∨ flags &&& initMemoryFlag ≠ 0 ∧ MemoryFails config r) :=
              fun hbad => hleaks ⟨hon, hglobal, hbad⟩
            rw [not_or, Bool.not_eq_false] at hreason
            exact h.init_succeeds hon hglobal hreason.1 fun hflag hfails => hreason.2 ⟨hflag, hfails⟩
      | cleanup =>
        have hoff : s.initialized = false := by simpa [Leaks] using hleaks
        rw [LayerMutexes.perform, infraCleanup, if_pos hoff]
        exact h
    exact hstays.congr (or_iff_left hleaks).symm

theorem kept_of_run (h : Run s leaked) : Kept s leaked := by
  induction h with
  | start => exact kept_initial
  | call _ c ih => exact ih.perform c

/-- In the state that a run reaches the mutexes are right exactly if no call of it leaks. -/
theorem mutexesRight_iff_of_run (h : Run s leaked) : MutexesRight s ↔ ¬ leaked :=
  (kept_of_run h).mutexesRight_iff

def systemConfig : PoolOperations.Config := ⟨false, 0, 8⟩

def allServed : Reply := ⟨true, true, true, 4096⟩

/-- An initialisation without a global mutex, then one that succeeds, and a
third that finds the layer initialised. -/
theorem mutexesRight_three : ∃ s leaked, Run s leaked ∧ s.initialized = true ∧ ¬ leaked ∧
    MutexesRight s := by
  have hrun := ((Run.start.call (.init 0xFFFFFFFF systemConfig ⟨false, true, true, 0⟩)).call
    (.init 0xFFFFFFFF systemConfig allServed)).call (.init 1 systemConfig allServed)
  refine ⟨_, _, hrun, rfl, ?_, (mutexesRight_iff_of_run hrun).mpr ?_⟩
  all_goals
    simp [Leaks, perform, infraInitWithConfig, initial, infraMutexCreate, MemoryFails, systemConfig,
      allServed, initLog, infraMemoryInit, resetMemoryState]

/-- One initialisation and one cleanup leave the mutex of the log, the second
of three, alive. -/
theorem log_mutex_leaks :
    (perform (perform initial (.init 0xFFFFFFFF systemConfig allServed)) .cleanup).initialized =
      false ∧
    (perform (perform initial (.init 0xFFFFFFFF systemConfig allServed)) .cleanup).mutexes =
      ⟨3, [1, 3]⟩ ∧
    ¬ MutexesRight (perform (perform initial (.init 0xFFFFFFFF systemConfig allServed)) .cleanup) := by
  have hmutexes : (perform (perform initial (.init 0xFFFFFFFF systemConfig allServed)) .cleanup).mutexes =
      ⟨3, [1, 3]⟩ := by decide
  refine ⟨by decide, hmutexes, ?_⟩
  intro hright
  have hcount := hright.2 2
  rw [hmutexes] at hcount
  have hzero := hcount (by decide) (by decide) (not_referenced (by decide))
  cases hzero

end Ppdb.LayerMutexes
