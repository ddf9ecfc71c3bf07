import Ppdb.GlobalOptions
import Ppdb.LayerMutexes

/-!
The settings of the infrastructure layer, which are the log level and the size
and load factor of hash tables, under all calls that write them.
-/

namespace Ppdb.LayerSettings

open ErrorCodes SizeArithmetic
open GlobalOptions (levelNone levelTrace)
open LayerMutexes (Reply initMemoryFlag infraMutexCreate Refused allServed)

/-- What `infra_config_t` says of the memory, the log and the data structures.
The name of the log file is a number, 0 being the null pointer. -/
structure Config where
  memory : PoolOperations.Config
  level : ℤ
  logFile : ℕ
  hashInitialSize : ℕ
  hashLoadFactor : ℕ
  deriving DecidableEq, Repr

def defaultConfig : Config := ⟨⟨false, 1024 * 1024, 8⟩, 3, 0, 16, 75⟩

/-- `g_infra` with the mutexes and modules of the layer -/
structure State where
  layer : LayerMutexes.State
  level : ℤ
  logFile : ℕ
  hashInitialSize : ℕ
  hashLoadFactor : ℕ
  deriving DecidableEq, Repr

def initial : State :=
  ⟨LayerMutexes.initial, defaultConfig.level, defaultConfig.logFile, defaultConfig.hashInitialSize,
    defaultConfig.hashLoadFactor⟩

/-- What `infra_config_validate` refuses of a pool; the memory module also
refuses one that is smaller than its smallest block. -/
def poolInvalid (config : PoolOperations.Config) : Bool :=
  config.poolInitialSize = 0 || config.poolAlignment = 0 || config.poolAlignment < 8 ||
    config.poolAlignment &&& subSize config.poolAlignment 1 ≠ 0

def infraConfigValidate : Option Config → ErrorCode
  | none => .invalidParam
  | some config =>
    if config.memory.useMemoryPool && poolInvalid config.memory then .invalidParam
    else if config.level < levelNone ∨ levelTrace < config.level then .invalidParam
    else if config.hashInitialSize = 0 ∨ config.hashLoadFactor = 0 ∨ 100 < config.hashLoadFactor then
      .invalidParam
    else .ok

def infraConfigApply (config : Option Config) (s : State) : State × ErrorCode :=
  match config with
  | none => (s, .invalidParam)
  | some config =>
    match infraConfigValidate (some config) with
    | .ok =>
      ({ s with
        level := config.level
        logFile := config.logFile
        hashInitialSize := config.hashInitialSize
        hashLoadFactor := config.hashLoadFactor }, .ok)
    | e => (s, e)

def infraLogSetLevel (level : ℤ) (s : State) : State :=
  if levelNone ≤ level ∧ level ≤ levelTrace then { s with level := level } else s

/-- `init_module` for the log -/
def initLog (config : Config) (served : Bool) (s : State) : State × ErrorCode :=
  let s := { s with level := config.level, logFile := config.logFile }
  match LayerMutexes.initLog served s.layer with
  | (layer, e) => ({ s with layer := layer }, e)

/-- `init_module` for the memory -/
def initMemory (config : Config) (r : Reply) (s : State) : State × ErrorCode :=
  match LayerMutexes.infraMemoryInit config.memory r s.layer with
  | (layer, e) => ({ s with layer := layer }, e)

def setInitialized (flags : BitVec 32) (s : State) : State :=
  { s with layer := { s.layer with initialized := true, activeFlags := flags } }

def infraInitWithConfig (flags : BitVec 32) (config : Config) (r : Reply) (s : State) :
    State × ErrorCode :=
  if s.layer.initialized then (s, .ok)
  else
    match infraMutexCreate r.global s.layer.mutexes with
    | none => (s, .system)
    | some (l, mutex) =>
      let s := { s with layer := { s.layer with mutex := mutex, mutexes := l } }
      match initLog config r.log s with
      | (s, .ok) =>
        if flags &&& initMemoryFlag ≠ 0 then
          match initMemory config r s with
          | (s, .ok) => (setInitialized flags s, .ok)
          | (s, e) => (s, e)
        else (setInitialized flags s, .ok)
      | (s, e) => (s, e)

def infraCleanup (s : State) : State := { s with layer := LayerMutexes.infraCleanup s.layer }

inductive Call
  | init (flags : BitVec 32) (config : Config) (r : Reply)
  | apply (config : Option Config)
  | setLevel (level : ℤ)
  | cleanup

def perform (s : State) : Call → State
  | .init flags config r => (infraInitWithConfig flags config r s).1
  | .apply config => (infraConfigApply config s).1
  | .setLevel level => infraLogSetLevel level s
  | .cleanup => infraCleanup s

/-! ### Valid settings -/

def IsLevel (level : ℤ) : Prop := levelNone ≤ level ∧ level ≤ levelTrace

instance (level : ℤ) : Decidable (IsLevel level) :=
  inferInstanceAs (Decidable (levelNone ≤ level ∧ level ≤ levelTrace))

/-- What `infra_config_validate` demands of the settings. -/
structure Valid (s : State) : Prop where
  level : IsLevel s.level
  hashInitialSize : s.hashInitialSize ≠ 0
  hashLoadFactor : 1 ≤ s.hashLoadFactor ∧ s.hashLoadFactor ≤ 100

def SameSettings (s s' : State) : Prop :=
  s'.level = s.level ∧ s'.hashInitialSize = s.hashInitialSize ∧ s'.hashLoadFactor = s.hashLoadFactor

/-- The call rejects its argument; that of `infra_log_set_level` it ignores. -/
def Rejects (s : State) : Call → Prop
  | .init flags config r => (infraInitWithConfig flags config r s).2 = .invalidParam
  | .apply config => (infraConfigApply config s).2 = .invalidParam
  | .setLevel level => ¬ IsLevel level
  | .cleanup => False

/-- The settings are valid afterwards, and unchanged if the argument is rejected. -/
def CallRight (s : State) (c : Call) : Prop :=
  Valid (perform s c) ∧ (Rejects s c → SameSettings s (perform s c))

/-- An initialisation that stores a level out of range, or another level than
the present one and then refuses the configuration for the pool. -/
def Careless (s : State) : Call → Prop
  | .init flags config r =>
    (s.layer.initialized = false ∧ r.global = true ∧ ¬ IsLevel config.level) ∨
      (config.level ≠ s.level ∧ Refused s.layer flags config.memory r)
  | .apply _ => False
  | .setLevel _ => False
  | .cleanup => False

/-- A run of calls from the start of the process, whether the calls are all
right and whether one of them is careless. -/
inductive Run : State → Prop → Prop → Prop
  | start : Run initial True False
  | call {s : State} {right careless : Prop} (hrun : Run s right careless) (c : Call) :
      Run (perform s c) (right ∧ CallRight s c) (careless ∨ Careless s c)

variable {s s' : State} {right careless : Prop} {c : Call} {flags : BitVec 32} {config : Config}
  {r : Reply} {level : ℤ}

theorem valid_initial : Valid initial := ⟨by decide, by decide, by decide⟩

theorem SameSettings.refl (s : State) : SameSettings s s := ⟨rfl, rfl, rfl⟩

theorem SameSettings.valid (h : SameSettings s s') (hvalid : Valid s) : Valid s' := by
  obtain ⟨hlevel, hsize, hfactor⟩ := h
  refine ⟨?_, ?_, ?_⟩
  · rw [hlevel]
    exact hvalid.level
  · rw [hsize]
    exact hvalid.hashInitialSize
  · rw [hfactor]
    exact hvalid.hashLoadFactor

theorem callRight_of_same (h : SameSettings s (perform s c)) (hvalid : Valid s) : CallRight s c :=
  ⟨h.valid hvalid, fun _ => h⟩

/-! ### Configurations -/

theorem infraConfigValidate_ok_iff : infraConfigValidate (some config) = .ok ↔
    ¬ (config.memory.useMemoryPool && poolInvalid config.memory) = true ∧
      IsLevel config.level ∧ config.hashInitialSize ≠ 0 ∧
        1 ≤ config.hashLoadFactor ∧ config.hashLoadFactor ≤ 100 := by
  have hlevel : ¬ (config.level < levelNone ∨ levelTrace < config.level) ↔ IsLevel config.level := by
    rw [not_or, not_lt, not_lt, IsLevel]
  have hhash : ¬ (config.hashInitialSize = 0 ∨ config.hashLoadFactor = 0 ∨
      100 < config.hashLoadFactor) ↔
        config.hashInitialSize ≠ 0 ∧ 1 ≤ config.hashLoadFactor ∧ config.hashLoadFactor ≤ 100 := by
    omega
  rw [← hlevel, ← hhash, infraConfigValidate]
  split
  · rename_i hbad
    exact iff_of_false (fun h => nomatch h) fun h => h.1 hbad
  · rename_i hpool
    split
    · rename_i hbad
      exact iff_of_false (fun h => nomatch h) fun h => h.2.1 hbad
    · rename_i hrange
      split
      · rename_i hbad
        exact iff_of_false (fun h => nomatch h) fun h => h.2.2 hbad
      · rename_i hsizes
        exact iff_of_true rfl ⟨hpool, hrange, hsizes⟩

theorem infraConfigApply_layer (config : Option Config) (s : State) :
    (infraConfigApply config s).1.layer = s.layer := by
  cases config with
  | none => rfl
  | some config =>
    rw [infraConfigApply]
    split
    · rfl
    · rfl

theorem infraLogSetLevel_layer (level : ℤ) (s : State) :
    (infraLogSetLevel level s).layer = s.layer := by
  unfold infraLogSetLevel
  split
  · rfl
  · rfl

/-- A configuration is applied as a whole or not at all. -/
theorem apply_right (hvalid : Valid s) (config : Option Config) : CallRight s (.apply config) := by
  cases config with
  | none => exact callRight_of_same (SameSettings.refl s) hvalid
  | some config =>
    by_cases hok : infraConfigValidate (some config) = .ok
    · obtain ⟨_, hlevel, hsize, hfactor⟩ := infraConfigValidate_ok_iff.mp hok
      have happly : infraConfigApply (some config) s = ({ s with
          level := config.level
          logFile := config.logFile
          hashInitialSize := config.hashInitialSize
          hashLoadFactor := config.hashLoadFactor }, .ok) := by
        rw [infraConfigApply, hok]
      rw [CallRight, Rejects, perform, happly]
      exact ⟨⟨hlevel, hsize, hfactor⟩, fun h => nomatch h⟩
    · apply callRight_of_same _ hvalid
      have hsame : (infraConfigApply (some config) s).1 = s := by
        rw [infraConfigApply]
        cases he : infraConfigValidate (some config) with
        | ok => exact absurd he hok
        | _ => rfl
      rw [perform, hsame]
      exact SameSettings.refl s

theorem setLevel_right (hvalid : Valid s) (level : ℤ) : CallRight s (.setLevel level) := by
  by_cases hlevel : IsLevel level
  · have hset : infraLogSetLevel level s = { s with level := level } := if_pos hlevel
    refine ⟨?_, fun h => absurd hlevel h⟩
    rw [perform, hset]
    exact ⟨hlevel, hvalid.hashInitialSize, hvalid.hashLoadFactor⟩
  · have hset : infraLogSetLevel level s = s := if_neg hlevel
    apply callRight_of_same _ hvalid
    rw [perform, hset]
    exact SameSettings.refl s

/-! ### Initialisations -/

/-- The layer is initialised as it is without the settings; of these the level
and the log file are stored as soon as the global mutex exists. -/
theorem infraInitWithConfig_eq (flags : BitVec 32) (config : Config) (r : Reply) (s : State) :
    infraInitWithConfig flags config r s =
      ({ layer := (LayerMutexes.infraInitWithConfig flags config.memory r s.layer).1
         level := if s.layer.initialized = false ∧ r.global = true then config.level else s.level
         logFile :=
          if s.layer.initialized = false ∧ r.global = true then config.logFile else s.logFile
         hashInitialSize := s.hashInitialSize
         hashLoadFactor := s.hashLoadFactor },
        (LayerMutexes.infraInitWithConfig flags config.memory r s.layer).2) := by
  cases hon : s.layer.initialized with
  | true => simp [infraInitWithConfig, LayerMutexes.infraInitWithConfig, hon]
  | false =>
    cases hglobal : r.global with
    | false =>
      rw [LayerMutexes.infraInitWithConfig_refused hon hglobal]
      simp [infraInitWithConfig, hon, infraMutexCreate, hglobal]
    | true =>
      cases hlog : r.log with
      | false =>
        rw [LayerMutexes.infraInitWithConfig_noLog hon hglobal hlog]
        simp [infraInitWithConfig, hon, infraMutexCreate, hglobal, initLog, LayerMutexes.initLog,
          hlog]
      | true =>
        by_cases hflag : flags &&& initMemoryFlag = 0
        · rw [LayerMutexes.infraInitWithConfig_global hon hglobal hlog hflag]
          simp [infraInitWithConfig, hon, infraMutexCreate, hglobal, initLog, LayerMutexes.initLog,
            hlog, hflag, setInitialized]
        · have hset : ¬ flags &&& initMemoryFlag = 0#32 := hflag
          have hstart : infraInitWithConfig flags config r s =
              match initMemory config r { s with
                  layer := LayerMutexes.beforeMemory s.layer
                  level := config.level
                  logFile := config.logFile } with
              | (s, .ok) => (setInitialized flags s, .ok)
              | (s, e) => (s, e) := by
            simp [infraInitWithConfig, hon, infraMutexCreate, hglobal, initLog, LayerMutexes.initLog,
              hlog, hset, LayerMutexes.beforeMemory]
          rw [hstart, initMemory, LayerMutexes.infraInitWithConfig_memory hon hglobal hlog hflag]
          dsimp only
          rcases LayerMutexes.infraMemoryInit config.memory r _ with ⟨layer, e⟩
          cases e <;> rfl

theorem layer_perform_init (s : State) (flags : BitVec 32) (config : Config) (r : Reply) :
    (perform s (.init flags config r)).layer =
      LayerMutexes.perform s.layer (.init flags config.memory r) := by
  rw [perform, infraInitWithConfig_eq, LayerMutexes.perform]

theorem init_same_iff : SameSettings s (perform s (.init flags config r)) ↔
    (s.layer.initialized = false ∧ r.global = true → config.level = s.level) := by
  rw [perform, infraInitWithConfig_eq, SameSettings]
  dsimp only
  split
  · rename_i hstored
    exact ⟨fun h _ => h.1, fun h => ⟨h hstored, rfl, rfl⟩⟩
  · rename_i hkept
    exact iff_of_true ⟨rfl, rfl, rfl⟩ fun hstored => absurd hstored hkept

theorem init_valid_iff (hvalid : Valid s) : Valid (perform s (.init flags config r)) ↔
    (s.layer.initialized = false ∧ r.global = true → IsLevel config.level) := by
  rw [perform, infraInitWithConfig_eq]
  constructor
  · intro h hstored
    have hlevel := h.level
    dsimp only at hlevel
    rwa [if_pos hstored] at hlevel
  · intro h
    refine ⟨?_, hvalid.hashInitialSize, hvalid.hashLoadFactor⟩
    dsimp only
    split
    · rename_i hstored
      exact h hstored
    · exact hvalid.level

theorem init_right_iff (hvalid : Valid s)
    (hoff : s.layer.initialized = false → s.layer.memoryInitialized = false) :
    CallRight s (.init flags config r) ↔ ¬ Careless s (.init flags config r) := by
  have hrejects : Rejects s (.init flags config r) ↔ Refused s.layer flags config.memory r := by
    rw [Rejects, infraInitWithConfig_eq]
    exact LayerMutexes.infraInitWithConfig_refuses_iff hoff
  rw [CallRight, init_valid_iff hvalid, hrejects, init_same_iff, Careless, not_or]
  constructor
  · rintro ⟨hlevel, hrefused⟩
    refine ⟨fun hbad => hbad.2.2 (hlevel ⟨hbad.1, hbad.2.1⟩), fun hbad => hbad.1 ?_⟩
    exact hrefused hbad.2 ⟨hbad.2.1.1, hbad.2.1.2.1⟩
  · rintro ⟨hlevel, hrefused⟩
    refine ⟨fun hstored => ?_, fun hbad _ => ?_⟩
    · by_contra hrange
      exact hlevel ⟨hstored.1, hstored.2, hrange⟩
    · by_contra hne
      exact hrefused ⟨hne, hbad⟩

/-! ### Runs -/

theorem settingsCallRight_iff (hvalid : Valid s)
    (hoff : s.layer.initialized = false → s.layer.memoryInitialized = false) :
    CallRight s c ↔ ¬ Careless s c := by
  cases c with
  | init flags config r => exact init_right_iff hvalid hoff
  | apply config => exact iff_of_true (apply_right hvalid config) not_false
  | setLevel level => exact iff_of_true (setLevel_right hvalid level) not_false
  | cleanup => exact iff_of_true (callRight_of_same (SameSettings.refl s) hvalid) not_false

/-- The layer without its settings makes a run of its own, without the calls
that only concern the settings. -/
theorem layer_run (h : Run s right careless) : ∃ leaked, LayerMutexes.Run s.layer leaked := by
  induction h with
  | start => exact ⟨_, LayerMutexes.Run.start⟩
  | @call s _ _ _ c ih =>
    obtain ⟨leaked, hrun⟩ := ih
    cases c with
    | init flags config r =>
      rw [layer_perform_init]
      exact ⟨_, hrun.call (.init flags config.memory r)⟩
    | apply config =>
      rw [perform, infraConfigApply_layer]
      exact ⟨leaked, hrun⟩
    | setLevel level =>
      rw [perform, infraLogSetLevel_layer]
      exact ⟨leaked, hrun⟩
    | cleanup => exact ⟨_, hrun.call .cleanup⟩

theorem memory_off_of_run (h : Run s right careless) (hoff : s.layer.initialized = false) :
    s.layer.memoryInitialized = false := by
  obtain ⟨_, hrun⟩ := layer_run h
  exact (LayerMutexes.kept_of_run hrun).memory_off hoff

theorem valid_of_run (h : Run s right careless) (hright : right) : Valid s := by
  induction h with
  | start => exact valid_initial
  | call _ _ _ => exact hright.2.1

/-- Along a run the calls are all right exactly if none of them is careless. -/
theorem right_iff_of_run (h : Run s right careless) : right ↔ ¬ careless := by
  induction h with
  | start => exact iff_of_true trivial not_false
  | @call s right careless hrun c ih =>
    rw [not_or, ← ih]
    refine and_congr_right fun hright => ?_
    exact settingsCallRight_iff (valid_of_run hrun hright) (memory_off_of_run hrun)

/-- The initialisations of the program, with a level from its options, are not careless. -/
theorem main_not_careless {served : Bool} {argv : List HashOperations.CString}
    {run : GlobalOptions.Handler → ℤ → List HashOperations.CString → ErrorCode}
    (h : (GlobalOptions.main served run argv).initialized = some level) (s : State) (r : Reply) :
    ¬ Careless s (.init 0xFFFFFFFF { defaultConfig with level := level } r) := by
  rintro (⟨_, _, hrange⟩ | ⟨_, _, hpool, _⟩)
  · exact hrange (GlobalOptions.level_of_main h)
  · cases hpool

def emptyPool : Config := { defaultConfig with memory := ⟨true, 0, 8⟩, level := 5 }

/-- The level 5 is kept while a level of 9 and a load factor of 0 are rejected,
and again when the layer is initialised anew and refuses the pool. -/
theorem right_five : ∃ s right careless, Run s right careless ∧ s.level = 5 ∧ right := by
  have hrun := ((((Run.start.call
    (.init 0xFFFFFFFF { defaultConfig with level := 5 } allServed)).call
    (.setLevel 9)).call (.apply (some { defaultConfig with hashLoadFactor := 0 }))).call
    .cleanup).call (.init 1 emptyPool allServed)
  refine ⟨_, _, _, hrun, by decide, (right_iff_of_run hrun).mpr ?_⟩
  rintro (((((h | h) | h) | h) | h) | h)
  · exact h
  · rcases h with ⟨_, _, hrange⟩ | ⟨_, _, hpool, _⟩
    · exact hrange (by decide)
    · cases hpool
  · exact h
  · exact h
  · exact h
  · rcases h with ⟨_, _, hrange⟩ | ⟨hne, _⟩
    · exact hrange (by decide)
    · exact hne (by decide)

def levelSeven : Config := { defaultConfig with level := 7 }

/-- An initialisation stores the level 7, and one that refuses its pool the
level 5 in place of 3. -/
theorem unvalidated_level :
    (perform initial (.init 0xFFFFFFFF levelSeven allServed)).level = 7 ∧
    ¬ Valid (perform initial (.init 0xFFFFFFFF levelSeven allServed)) ∧
    Rejects initial (.init 1 emptyPool allServed) ∧ initial.level = 3 ∧
    (perform initial (.init 1 emptyPool allServed)).level = 5 := by
  have hseven : (perform initial (.init 0xFFFFFFFF levelSeven allServed)).level = 7 := by decide
  have hrefuses : (infraInitWithConfig 1 emptyPool allServed initial).2 =
      .invalidParam := by decide
  refine ⟨hseven, ?_, hrefuses, rfl, by decide⟩
  intro hvalid
  have hlevel := hvalid.level
  rw [hseven] at hlevel
  exact absurd hlevel (by decide)

end Ppdb.LayerSettings
