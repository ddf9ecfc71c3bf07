import Ppdb.RinetdContext
import Ppdb.Transitions

/-!
The life of the service over any sequence of its entry points, where every
resource that is asked for is granted. `infra_mux_create` refuses to work
without a configuration and `rinetd_init` gives it none, so that a module that
is not initialised stays so; on an initialised one the commands do what they
promise.
-/

namespace Ppdb.ServiceLifeCycle

open ErrorCodes RinetdContext Transitions

/-- A call of an entry point, with what the system answers. -/
inductive Call
  | init (mutex : ℕ) (r : MuxReply)
  | cleanup
  | addRule (rule : Option Rule)
  | removeRule (index : ℤ)
  | command (argv : List String) (handles : ℕ → ℕ)

def MuxReply.Granted (r : MuxReply) : Prop :=
  r.mux ≠ 0 ∧ r.impl ≠ 0 ∧ 0 ≤ r.epollFd ∧ r.events ≠ 0

def Granted : Call → Prop
  | .init mutex r => mutex ≠ 0 ∧ MuxReply.Granted r
  | .command _ handles => ∀ i, handles i ≠ 0
  | _ => True

def answer (ctx : Context) : Call → Except Stop (Context × ErrorCode)
  | .init mutex r => rinetdInit ctx mutex r
  | .cleanup => rinetdCleanup ctx
  | .addRule rule => .ok (rinetdAddRule ctx rule)
  | .removeRule index => .ok (rinetdRemoveRule ctx index)
  | .command argv handles => .ok (rinetdCmdHandler ctx handles argv)

def step (ctx : Context) (c : Call) : Option Context :=
  match answer ctx c with
  | .ok (after, _) => some after
  | .error _ => none

/-- Contexts that calls make of the one at the start. -/
abbrev LifeRun (ctx₀ : Context) : Context → Prop := Reachable ctx₀ step (fun _ c => Granted c)

/-- At the start of the process, or as an initialisation is meant to leave it. -/
def Starts (ctx : Context) : Prop :=
  ctx = Context.zero ∨ ∃ mutex mux, mutex ≠ 0 ∧ mux ≠ 0 ∧
    ctx = { Context.zero with mutex := mutex, mux := mux }

def InitRight (ctx : Context) (mutex : ℕ) (r : MuxReply) : Prop :=
  ((∃ after, rinetdInit ctx mutex r = .ok (after, .ok)) ↔ ctx.mutex = 0) ∧
    ∀ after, rinetdInit ctx mutex r = .ok (after, .ok) → after.mutex ≠ 0 ∧ after.mux ≠ 0

/-- A running module is left alone; another one can be initialised afterwards. -/
def CleanupRight (ctx : Context) : Prop :=
  (ctx.running = true → rinetdCleanup ctx = .ok (ctx, .busy)) ∧
  (ctx.running = false → ∃ after e, rinetdCleanup ctx = .ok (after, e) ∧
    ∀ mutex r, Granted (.init mutex r) → ∃ again, rinetdInit after mutex r = .ok (again, .ok))

def CommandRight (ctx : Context) (argv : List String) (handles : ℕ → ℕ) : Prop :=
  (argv[1]? = some "--start" → ((rinetdCmdHandler ctx handles argv).2 = .ok ↔
    ctx.mutex ≠ 0 ∧ ctx.running = false ∧ 0 < ctx.ruleCount)) ∧
  (argv[1]? = some "--stop" → ((rinetdCmdHandler ctx handles argv).2 = .ok ↔ ctx.running = true))

def CallRight (ctx : Context) : Call → Prop
  | .init mutex r => InitRight ctx mutex r
  | .cleanup => CleanupRight ctx
  | .command argv handles => CommandRight ctx argv handles
  | _ => True

/-- The calls that come down to an initialisation: the first one, and a
cleanup, after which there should be another. -/
def Initialises (ctx : Context) : Call → Prop
  | .init _ _ => ctx.mutex = 0
  | .cleanup => ctx.running = false
  | _ => False

/-- What the commands rely on. -/
structure Sound (ctx : Context) : Prop where
  initialised : ctx.running = true → ctx.mutex ≠ 0
  sessions : ctx.sessionCount = 0

variable {ctx₀ ctx ctx' : Context} {c : Call} {mutex : ℕ} {r : MuxReply} {handles : ℕ → ℕ}

/-! ### Initialisation and cleanup -/

theorem infraMuxCreate_null (r : MuxReply) :
    infraMuxCreate (none : Option Unit) r = (.invalidParam, 0) := rfl

/-- An initialisation never comes to its end. -/
theorem rinetdInit_stops (h : ctx.mutex = 0) (hmutex : mutex ≠ 0) :
    rinetdInit ctx mutex r = .error .badFree := by
  simp [rinetdInit, h, infraMutexCreate, hmutex, infraMuxCreate_null]

theorem rinetdInit_again (h : ctx.mutex ≠ 0) :
    rinetdInit ctx mutex r = .ok (ctx, .alreadyExists) := if_pos h

theorem rinetdCleanup_running (h : ctx.running = true) : rinetdCleanup ctx = .ok (ctx, .busy) :=
  if_pos h

theorem rinetdCleanup_idle (hidle : ctx.running = false) (hsessions : ctx.sessionCount = 0) :
    rinetdCleanup ctx = .ok (Context.zero, .ok) := by
  simp [rinetdCleanup, hidle, cleanupSessionList, hsessions]

theorem initRight_iff (hmutex : mutex ≠ 0) : InitRight ctx mutex r ↔ ctx.mutex ≠ 0 := by
  constructor
  · intro h hzero
    obtain ⟨after, hafter⟩ := h.1.mpr hzero
    rw [rinetdInit_stops hzero hmutex] at hafter
    cases hafter
  · intro hset
    rw [InitRight, rinetdInit_again hset]
    refine ⟨iff_of_false ?_ hset, ?_⟩
    · rintro ⟨after, hafter⟩
      simp at hafter
    · intro after hafter
      simp at hafter

/-- What a cleanup leaves cannot be initialised. -/
theorem cleanupRight_iff (h : Sound ctx) : CleanupRight ctx ↔ ctx.running = true := by
  constructor
  · intro hright
    by_contra hrunning
    have hidle : ctx.running = false := by simpa using hrunning
    obtain ⟨after, e, hafter, hagain⟩ := hright.2 hidle
    rw [rinetdCleanup_idle hidle h.sessions] at hafter
    injection hafter with hafter
    obtain ⟨rfl, -⟩ := Prod.mk.inj hafter
    obtain ⟨again, hinit⟩ := hagain 1 ⟨1, 1, 0, 1⟩ (by simp [Granted, MuxReply.Granted])
    rw [rinetdInit_stops rfl Nat.one_ne_zero] at hinit
    cases hinit
  · intro hrunning
    refine ⟨fun _ => rinetdCleanup_running hrunning, ?_⟩
    intro hidle
    rw [hrunning] at hidle
    cases hidle

/-! ### Commands -/

theorem createListener_granted {handle : ℕ} (h : handle ≠ 0) (ctx : Context) :
    ∃ threads, createListener ctx handle = ({ ctx with listenerThreads := threads }, .ok) := by
  unfold createListener
  cases (List.range maxRules).find? fun i => ctx.listenerThreads i = 0 with
  | none => exact ⟨ctx.listenerThreads, rfl⟩
  | some i => exact ⟨_, if_neg h⟩

theorem startListeners_granted (h : ∀ i, handles i ≠ 0) (ctx : Context) (is : List ℕ) :
    ∃ threads, startListeners ctx handles is = ({ ctx with listenerThreads := threads }, .ok) := by
  induction is generalizing ctx with
  | nil => exact ⟨ctx.listenerThreads, rfl⟩
  | cons i rest ih =>
    unfold startListeners
    split
    · obtain ⟨threads, hcreate⟩ := createListener_granted (h i) ctx
      rw [hcreate]
      exact ih _
    · exact ih ctx

theorem startService_granted (h : ∀ i, handles i ≠ 0) (hmutex : ctx.mutex ≠ 0)
    (hidle : ctx.running = false) (hrules : 0 < ctx.ruleCount) : ∃ threads,
      startService ctx handles = ({ ctx with running := true, listenerThreads := threads }, .ok) := by
  obtain ⟨threads, hstart⟩ := startListeners_granted h ctx (List.range ctx.ruleCount)
  refine ⟨threads, ?_⟩
  simp [startService, hmutex, hidle, Nat.pos_iff_ne_zero.mp hrules, hstart]

/-- The ways in which `start_service` ends. -/
theorem startService_spec (h : ∀ i, handles i ≠ 0) (ctx : Context) :
    (ctx.mutex ≠ 0 ∧ ctx.running = false ∧ 0 < ctx.ruleCount ∧ ∃ threads,
      startService ctx handles = ({ ctx with running := true, listenerThreads := threads }, .ok)) ∨
    ¬ (ctx.mutex ≠ 0 ∧ ctx.running = false ∧ 0 < ctx.ruleCount) ∧
      ∃ e, e ≠ .ok ∧ startService ctx handles = (ctx, e) := by
  by_cases hmutex : ctx.mutex = 0
  · exact Or.inr ⟨fun hall => hall.1 hmutex, .notSupported, by simp, if_pos hmutex⟩
  · cases hrunning : ctx.running with
    | true =>
      exact Or.inr ⟨by simp, .alreadyExists, by simp, by simp [startService, hmutex, hrunning]⟩
    | false =>
      by_cases hrules : ctx.ruleCount = 0
      · exact Or.inr ⟨by simp [hrules], .invalidParam, by simp,
          by simp [startService, hmutex, hrunning, hrules]⟩
      · have hpos := Nat.pos_iff_ne_zero.mpr hrules
        exact Or.inl ⟨hmutex, rfl, hpos, startService_granted h hmutex hrunning hpos⟩

theorem stopService_running (hmutex : ctx.mutex ≠ 0) (hrunning : ctx.running = true) :
    (stopService ctx).2 = .ok ∧ (stopService ctx).1.running = false ∧
      (stopService ctx).1.sessionCount = 0 := by
  simp [stopService, hmutex, hrunning]

theorem stopService_idle (h : ctx.running = false) : stopService ctx = (ctx, .notSupported) := by
  simp [stopService, h]

theorem handler_start (rest : List String) (name : String) :
    rinetdCmdHandler ctx handles (name :: "--start" :: rest) = startService ctx handles := rfl

theorem handler_stop (rest : List String) (name : String) :
    rinetdCmdHandler ctx handles (name :: "--stop" :: rest) = stopService ctx := rfl

/-- A command starts the service, stops it, or leaves it alone. -/
theorem handler_cases (ctx : Context) (handles : ℕ → ℕ) (argv : List String) :
    rinetdCmdHandler ctx handles argv = startService ctx handles ∨
      rinetdCmdHandler ctx handles argv = stopService ctx ∨
      (rinetdCmdHandler ctx handles argv).1 = ctx := by
  unfold rinetdCmdHandler
  split
  · split
    · exact Or.inl rfl
    · split
      · exact Or.inr (Or.inl rfl)
      · split
        · exact Or.inr (Or.inr rfl)
        · split
          · split <;> exact Or.inr (Or.inr rfl)
          · exact Or.inr (Or.inr rfl)
  · exact Or.inr (Or.inr rfl)

theorem Sound.commandRight (h : Sound ctx) (hgranted : ∀ i, handles i ≠ 0) (argv : List String) :
    CommandRight ctx argv handles := by
  constructor
  · intro hargv
    obtain ⟨name, rest, rfl⟩ : ∃ name rest, argv = name :: "--start" :: rest := by
      match argv, hargv with
      | name :: _ :: rest, hcmd => exact ⟨name, rest, by rw [Option.some.inj hcmd]⟩
    rw [handler_start]
    rcases startService_spec hgranted ctx with ⟨hmutex, hidle, hrules, threads, heq⟩ | ⟨hnot, e, he, heq⟩
    · rw [heq]
      exact iff_of_true rfl ⟨hmutex, hidle, hrules⟩
    · rw [heq]
      exact iff_of_false he hnot
  · intro hargv
    obtain ⟨name, rest, rfl⟩ : ∃ name rest, argv = name :: "--stop" :: rest := by
      match argv, hargv with
      | name :: _ :: rest, hcmd => exact ⟨name, rest, by rw [Option.some.inj hcmd]⟩
    rw [handler_stop]
    cases hrunning : ctx.running with
    | true => exact iff_of_true (stopService_running (h.initialised hrunning) hrunning).1 rfl
    | false =>
      rw [stopService_idle hrunning]
      exact iff_of_false (by simp) (by simp)

/-! ### Runs -/

theorem Sound.of_starts (h : Starts ctx) : Sound ctx := by
  rcases h with rfl | ⟨mutex, mux, _, _, rfl⟩
  · exact ⟨by simp [Context.zero], rfl⟩
  · exact ⟨by simp [Context.zero], rfl⟩

theorem Sound.stop (h : Sound ctx) : Sound (stopService ctx).1 := by
  unfold stopService
  split
  · exact h
  · split
    · exact h
    · exact ⟨by simp, rfl⟩

theorem Sound.start (h : Sound ctx) (hgranted : ∀ i, handles i ≠ 0) :
    Sound (startService ctx handles).1 := by
  rcases startService_spec hgranted ctx with ⟨hmutex, _, _, threads, heq⟩ | ⟨_, e, _, heq⟩
  · rw [heq]
    exact ⟨fun _ => hmutex, h.sessions⟩
  · rwa [heq]

theorem rinetdAddRule_keeps (ctx : Context) (rule : Option Rule) :
    (rinetdAddRule ctx rule).1.running = ctx.running ∧
      (rinetdAddRule ctx rule).1.mutex = ctx.mutex ∧
      (rinetdAddRule ctx rule).1.sessionCount = ctx.sessionCount := by
  unfold rinetdAddRule
  split
  · exact ⟨rfl, rfl, rfl⟩
  · split
    · exact ⟨rfl, rfl, rfl⟩
    · split <;> exact ⟨rfl, rfl, rfl⟩

theorem rinetdRemoveRule_keeps (ctx : Context) (index : ℤ) :
    (rinetdRemoveRule ctx index).1.running = ctx.running ∧
      (rinetdRemoveRule ctx index).1.mutex = ctx.mutex ∧
      (rinetdRemoveRule ctx index).1.sessionCount = ctx.sessionCount := by
  unfold rinetdRemoveRule
  split
  · exact ⟨rfl, rfl, rfl⟩
  · split <;> exact ⟨rfl, rfl, rfl⟩

theorem Sound.of_keeps (h : Sound ctx) (hkeeps : ctx'.running = ctx.running ∧
    ctx'.mutex = ctx.mutex ∧ ctx'.sessionCount = ctx.sessionCount) : Sound ctx' := by
  obtain ⟨hrunning, hmutex, hsessions⟩ := hkeeps
  refine ⟨?_, hsessions.trans h.sessions⟩
  rw [hrunning, hmutex]
  exact h.initialised

theorem Sound.command (h : Sound ctx) (hgranted : ∀ i, handles i ≠ 0) (argv : List String) :
    Sound (rinetdCmdHandler ctx handles argv).1 := by
  rcases handler_cases ctx handles argv with heq | heq | heq
  · rw [heq]
    exact h.start hgranted
  · rw [heq]
    exact h.stop
  · rwa [heq]

theorem Sound.keep (h : Sound ctx) (hgranted : Granted c) (hstep : step ctx c = some ctx') :
    Sound ctx' := by
  unfold step at hstep
  cases c with
  | init mutex r =>
    by_cases hzero : ctx.mutex = 0
    · rw [answer, rinetdInit_stops hzero hgranted.1] at hstep
      cases hstep
    · rw [answer, rinetdInit_again hzero] at hstep
      injection hstep with hstep
      rwa [← hstep]
  | cleanup =>
    cases hrunning : ctx.running with
    | true =>
      rw [answer, rinetdCleanup_running hrunning] at hstep
      injection hstep with hstep
      rwa [← hstep]
    | false =>
      rw [answer, rinetdCleanup_idle hrunning h.sessions] at hstep
      injection hstep with hstep
      rw [← hstep]
      exact Sound.of_starts (Or.inl rfl)
  | addRule rule =>
    injection hstep with hstep
    rw [← hstep]
    exact h.of_keeps (rinetdAddRule_keeps ctx rule)
  | removeRule index =>
    injection hstep with hstep
    rw [← hstep]
    exact h.of_keeps (rinetdRemoveRule_keeps ctx index)
  | command argv handles =>
    injection hstep with hstep
    rw [← hstep]
    exact h.command hgranted argv

theorem sound_of_run (hstart : Starts ctx₀) (h : LifeRun ctx₀ ctx) : Sound ctx := by
  apply h.invariant (Sound.of_starts hstart)
  intro ctx c ctx' hctx hgranted hstep
  exact hctx.keep hgranted hstep

/-- Over every sequence of calls exactly those are wrong that come down to an initialisation. -/
theorem callRight_iff (hstart : Starts ctx₀) (h : LifeRun ctx₀ ctx) (hgranted : Granted c) :
    CallRight ctx c ↔ ¬ Initialises ctx c := by
  have hsound := sound_of_run hstart h
  cases c with
  | init mutex r => exact initRight_iff hgranted.1
  | cleanup =>
    show CleanupRight ctx ↔ ¬ ctx.running = false
    rw [cleanupRight_iff hsound, Bool.not_eq_false]
  | addRule rule => exact iff_of_true trivial not_false
  | removeRule index => exact iff_of_true trivial not_false
  | command argv handles => exact iff_of_true (hsound.commandRight hgranted argv) not_false

/-- Without a mutex there is no start, with one and a rule there is. -/
theorem callRight_start :
    CallRight Context.zero (.command ["rinetd", "--start"] fun _ => 1) ∧
    ∃ ctx, LifeRun { Context.zero with mutex := 1, mux := 1 } ctx ∧ ctx.ruleCount = 1 ∧
      CallRight ctx (.command ["rinetd", "--start"] fun _ => 1) := by
  have hgranted : Granted (.command ["rinetd", "--start"] fun _ => 1) := fun _ => Nat.one_ne_zero
  refine ⟨(callRight_iff (Or.inl rfl) Reachable.init hgranted).mpr not_false, ?_⟩
  have hrun : LifeRun { Context.zero with mutex := 1, mux := 1 }
      (rinetdAddRule { Context.zero with mutex := 1, mux := 1 } (some Rule.zero)).1 :=
    Reachable.step Reachable.init (a := .addRule (some Rule.zero)) trivial rfl
  have hstarts : Starts { Context.zero with mutex := 1, mux := 1 } :=
    Or.inr ⟨1, 1, Nat.one_ne_zero, Nat.one_ne_zero, rfl⟩
  exact ⟨_, hrun, rfl, (callRight_iff hstarts hrun hgranted).mpr not_false⟩

/-- The first call of `rinetd_init` frees a static object, and so does the one
after a cleanup. -/
theorem init_is_wrong : ¬ CallRight Context.zero (.init 1 ⟨1, 1, 0, 1⟩) ∧
    rinetdInit Context.zero 1 ⟨1, 1, 0, 1⟩ = .error .badFree ∧
    ¬ CallRight Context.zero .cleanup := by
  refine ⟨fun h => (initRight_iff Nat.one_ne_zero).mp h rfl, rfl, ?_⟩
  intro h
  have hrunning := (cleanupRight_iff (Sound.of_starts (Or.inl rfl))).mp h
  cases hrunning

end Ppdb.ServiceLifeCycle
