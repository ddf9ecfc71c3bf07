import Ppdb.ForwardSessions
import Ppdb.ServiceThreads
import Mathlib.Logic.Relation

/-!
Threads that nobody interrupts: the steps of a listener, from an accepted
connection back to the head of its loop, and those of the main thread in
`start_service` do what the calls as a whole do.
-/

namespace Ppdb.UninterruptedCalls

open ErrorCodes RinetdContext ResourceLedgers ServiceThreads ForwardSessions

def Alone (n : ℕ) : State → State → Prop :=
  Relation.ReflTransGen fun s t => ∃ ok, listenerStep s n ok = some t

def placed (s : State) (n : ℕ) (p : Phase) (ctx : Context) (ts : List ServiceThreads.Thread)
    (l : Ledger) : State := ⟨ctx, s.starter, setPhase s.listeners n p, ts, l⟩

variable {s t : State} {n i client server : ℕ} {ctx : Context} {ts : List ServiceThreads.Thread}
  {l : Ledger} {p q : Phase} {ok : Bool}

theorem phase_placed : ((placed s n p ctx ts l).listeners n).phase = p := by
  simp [placed, setPhase]

theorem goto_placed :
    (placed s n p ctx ts l).goto n q = placed s n q ctx ts l := by
  simp [placed, State.goto, setPhase]

/-- One step, then the others. -/
theorem Alone.first (ok : Bool) (h : listenerStep s n ok = some t) {u : State}
    (hrest : Alone n t u) : Alone n s u := Relation.ReflTransGen.head ⟨ok, h⟩ hrest

/-- The search passes active slots. -/
theorem alone_scan {j : ℕ} (hle : j ≤ i) (hlt : i ≤ maxRules)
    (hactive : ∀ k, j ≤ k → k < i → (ctx.activeSessions k).active = true) :
    Alone n (placed s n (.scanning client server j) ctx ts l)
      (placed s n (.scanning client server i) ctx ts l) := by
  induction i, hle using Nat.le_induction with
  | base => exact Relation.ReflTransGen.refl
  | succ i hji ih =>
    refine (ih (by omega) fun k hk hki => hactive k hk (by omega)).tail ⟨true, ?_⟩
    have hset : (ctx.activeSessions i).active = true := hactive i hji (Nat.lt_succ_self i)
    have hin : ¬ maxRules ≤ i := by omega
    simp only [listenerStep, phase_placed, if_neg hin, goto_placed]
    exact if_pos hset

def withSession (ctx : Context) (i : ℕ) (session : Session) : Context :=
  { ctx with activeSessions := Function.update ctx.activeSessions i session }

theorem withSession_twice {a b : Session} :
    withSession (withSession ctx i a) i b = withSession ctx i b := by
  simp [withSession]

theorem withSession_self {a : Session} : (withSession ctx i a).activeSessions i = a := by
  simp [withSession]

theorem setSession_placed {session : Session} :
    (placed s n p ctx ts l).setSession i session =
      placed s n p (withSession ctx i session) ts l := rfl

theorem ctx_placed : (placed s n p ctx ts l).ctx = ctx := rfl

theorem threads_placed : (placed s n p ctx ts l).threads = ts := rfl

theorem spawn_placed {c : Claim} {forward : Bool} :
    (placed s n p ctx ts l).spawn c forward =
      placed s n p ctx (ts ++ [⟨c, forward, 0, 0, .readingSrc⟩]) l := rfl

theorem close_placed {sock : ℕ} :
    (placed s n p ctx ts l).close sock = placed s n p ctx ts (l.giveBack sock) := rfl

/-! ### The steps after a slot has been found -/

section Found
variable {c : Claim} {a : Session}

theorem step_storingClient : listenerStep (placed s n (.storingClient c) ctx ts l) n ok =
    some (placed s n (.storingServer c) (withSession ctx c.slot
      { ctx.activeSessions c.slot with clientSock := c.client }) ts l) := by
  simp only [listenerStep, phase_placed, setSession_placed, goto_placed, ctx_placed]

theorem step_storingServer :
    listenerStep (placed s n (.storingServer c) (withSession ctx c.slot a) ts l) n ok =
      some (placed s n (.activating c)
        (withSession ctx c.slot { a with serverSock := c.server }) ts l) := by
  simp only [listenerStep, phase_placed, setSession_placed, goto_placed, ctx_placed,
    withSession_twice, withSession_self]

theorem step_activating :
    listenerStep (placed s n (.activating c) (withSession ctx c.slot a) ts l) n ok =
      some (placed s n (.startingForward c)
        (withSession ctx c.slot { a with active := true }) ts l) := by
  simp only [listenerStep, phase_placed, setSession_placed, goto_placed, ctx_placed,
    withSession_twice, withSession_self]

/-- The three stores. -/
theorem alone_store : Alone n (placed s n (.storingClient c) ctx ts l)
    (placed s n (.startingForward c) (withSession ctx c.slot
      { ctx.activeSessions c.slot with
        clientSock := c.client
        serverSock := c.server
        active := true }) ts l) :=
  Alone.first true step_storingClient (Alone.first true step_storingServer
    (Alone.first true step_activating Relation.ReflTransGen.refl))

theorem step_startingForward :
    listenerStep (placed s n (.startingForward c) (withSession ctx c.slot a) ts l) n true =
      some (placed s n (.startingBackward c)
        (withSession ctx c.slot { a with forwardThread := ts.length + 1 })
        (ts ++ [⟨c, true, 0, 0, .readingSrc⟩]) l) := by
  simp only [listenerStep, phase_placed, if_true, setSession_placed, spawn_placed, goto_placed,
    ctx_placed, threads_placed, withSession_twice, withSession_self]

theorem step_startingBackward {k : ℕ} (hlength : ts.length = k) :
    listenerStep (placed s n (.startingBackward c) (withSession ctx c.slot a) ts l) n true =
      some (placed s n .counting (withSession ctx c.slot { a with backwardThread := k + 1 })
        (ts ++ [⟨c, false, 0, 0, .readingSrc⟩]) l) := by
  simp only [listenerStep, phase_placed, if_true, setSession_placed, spawn_placed, goto_placed,
    ctx_placed, threads_placed, withSession_twice, withSession_self, hlength]

theorem step_counting : listenerStep (placed s n .counting ctx ts l) n ok =
    some (placed s n .testing { ctx with sessionCount := ctx.sessionCount + 1 } ts l) := by
  simp only [listenerStep, phase_placed, goto_placed, ctx_placed]
  rfl

theorem step_startingForward_fails :
    listenerStep (placed s n (.startingForward c) ctx ts l) n false =
      some (placed s n (.undoing c false) ctx ts l) := by
  simp only [listenerStep, phase_placed, Bool.false_eq_true, if_false, goto_placed]

theorem step_undoing :
    listenerStep (placed s n (.undoing c false) (withSession ctx c.slot a) ts l) n ok =
      some (placed s n (.closingServer c.client c.server)
        (withSession ctx c.slot { a with active := false }) ts l) := by
  simp only [listenerStep, phase_placed, Bool.false_eq_true, if_false, setSession_placed,
    goto_placed, ctx_placed, withSession_twice, withSession_self]

/-- Both threads are created and the session is counted. -/
theorem alone_started : ∃ ts', ts'.length = ts.length + 1 + 1 ∧
    Alone n (placed s n (.startingForward c) (withSession ctx c.slot a) ts l)
      (placed s n .testing
        { withSession ctx c.slot
            { a with
              forwardThread := ts.length + 1
              backwardThread := ts.length + 1 + 1 } with
          sessionCount := ctx.sessionCount + 1 } ts' l) := by
  refine ⟨ts ++ [⟨c, true, 0, 0, .readingSrc⟩] ++ [⟨c, false, 0, 0, .readingSrc⟩], ?_, ?_⟩
  · simp
  · apply Alone.first true step_startingForward
    apply Alone.first true (step_startingBackward List.length_append)
    exact Alone.first true step_counting Relation.ReflTransGen.refl

/-- The forward thread cannot be created. -/
theorem alone_undone :
    Alone n (placed s n (.startingForward c) (withSession ctx c.slot a) ts l)
      (placed s n (.closingServer c.client c.server)
        (withSession ctx c.slot { a with active := false }) ts l) :=
  Alone.first false step_startingForward_fails
    (Alone.first true step_undoing Relation.ReflTransGen.refl)

end Found

/-! ### The call as a whole -/

theorem alone_closeClient :
    Alone n (placed s n (.closingClient client) ctx ts l)
      (placed s n .testing ctx ts (l.giveBack client)) := by
  refine Alone.first true ?_ Relation.ReflTransGen.refl
  simp only [listenerStep, phase_placed, close_placed, goto_placed]

theorem alone_closeBoth :
    Alone n (placed s n (.closingServer client server) ctx ts l)
      (placed s n .testing ctx ts ((l.giveBack server).giveBack client)) := by
  refine Alone.first true ?_ alone_closeClient
  simp only [listenerStep, phase_placed, close_placed, goto_placed]

theorem step_accepting : listenerStep (placed s n .accepting ctx ts l) n true =
    some (placed s n (.opening l.next) ctx ts l.issue) := by
  simp only [listenerStep, phase_placed, if_true, goto_placed]
  rfl

theorem step_opening : listenerStep (placed s n (.opening client) ctx ts l) n true =
    some (placed s n (.connecting client l.next) ctx ts l.issue) := by
  simp only [listenerStep, phase_placed, if_true, goto_placed]
  rfl

theorem step_opening_fails : listenerStep (placed s n (.opening client) ctx ts l) n false =
    some (placed s n (.closingClient client) ctx ts l) := by
  simp only [listenerStep, phase_placed, Bool.false_eq_true, if_false, goto_placed]

theorem step_connecting : listenerStep (placed s n (.connecting client server) ctx ts l) n true =
    some (placed s n (.scanning client server 0) ctx ts l) := by
  simp only [listenerStep, phase_placed, if_true, goto_placed]

theorem step_connecting_fails :
    listenerStep (placed s n (.connecting client server) ctx ts l) n false =
      some (placed s n (.closingClient client) ctx ts (l.giveBack server)) := by
  simp only [listenerStep, phase_placed, Bool.false_eq_true, if_false, close_placed, goto_placed]

/-- The search ends at the slot that `freeSlot` gives, or behind the last one. -/
theorem alone_search :
    Alone n (placed s n (.scanning client server 0) ctx ts l)
      (placed s n (match freeSlot ctx with
        | none => .closingServer client server
        | some i => .storingClient ⟨client, server, i⟩) ctx ts l) := by
  cases hfree : freeSlot ctx with
  | none =>
    have hall : ∀ k, 0 ≤ k → k < maxRules → (ctx.activeSessions k).active = true := by
      intro k _ hk
      have hk' := List.find?_eq_none.mp hfree k (List.mem_range.mpr hk)
      simpa using hk'
    refine (alone_scan (Nat.zero_le _) (le_refl _) hall).tail ⟨true, ?_⟩
    simp only [listenerStep, phase_placed, le_refl, if_true, goto_placed]
  | some i =>
    unfold freeSlot at hfree
    rw [List.find?_range_eq_some] at hfree
    obtain ⟨hidle, hmem, hbefore⟩ := hfree
    have hlt := List.mem_range.mp hmem
    have hall : ∀ k, 0 ≤ k → k < i → (ctx.activeSessions k).active = true := by
      intro k _ hk
      simpa using hbefore k hk
    refine (alone_scan (Nat.zero_le _) hlt.le hall).tail ⟨true, ?_⟩
    have hnot : ¬ maxRules ≤ i := Nat.not_le_of_lt hlt
    have hclear : ¬ (ctx.activeSessions i).active = true := by simpa using hidle
    simp only [listenerStep, phase_placed, ctx_placed, if_neg hnot, if_neg hclear, goto_placed]

/-- Up to the search the listener holds both sockets. -/
theorem alone_connected {t : State} (hrest : Alone n (placed s n
      (match freeSlot ctx with
        | none => .closingServer l.next l.issue.next
        | some i => .storingClient ⟨l.next, l.issue.next, i⟩) ctx ts l.issue.issue) t) :
    Alone n (placed s n .accepting ctx ts l) t :=
  Alone.first true step_accepting (Alone.first true step_opening
    (Alone.first true step_connecting (alone_search.trans hrest)))

/-- A listener that is alone does what `acceptClient` says. -/
theorem alone_acceptClient {v v' : Service} {r : Reply} (hlength : ts.length = v.created)
    (hrun : acceptClient r v = .ok v') : ∃ ts', ts'.length = v'.created ∧
      Alone n (placed s n .accepting v.ctx ts v.sockets)
        (placed s n .testing v'.ctx ts' v'.sockets) := by
  have hclient := next_ne_zero v.sockets
  have hserver := next_ne_zero v.sockets.issue
  unfold acceptClient createForwardSession at hrun
  simp only [if_neg hclient] at hrun
  cases hopened : r.server with
  | false =>
    simp only [hopened, if_true, infraNetClose, if_neg hclient] at hrun
    obtain rfl := Except.ok.inj hrun
    exact ⟨ts, hlength, Alone.first true step_accepting
      (Alone.first false step_opening_fails alone_closeClient)⟩
  | true =>
  simp only [hopened, Bool.true_eq_false, if_false] at hrun
  cases hconnect : r.connect with
  | false =>
    simp only [hconnect, if_true, infraNetClose, if_neg hclient, if_neg hserver] at hrun
    obtain rfl := Except.ok.inj hrun
    exact ⟨ts, hlength, Alone.first true step_accepting (Alone.first true step_opening
      (Alone.first false step_connecting_fails alone_closeClient))⟩
  | true =>
  simp only [hconnect, Bool.true_eq_false, if_false] at hrun
  cases hfree : freeSlot v.ctx with
  | none =>
    simp only [hfree, infraNetClose, if_neg hclient, if_neg hserver] at hrun
    obtain rfl := Except.ok.inj hrun
    refine ⟨ts, hlength, alone_connected ?_⟩
    rw [hfree]
    exact alone_closeBoth
  | some i =>
  simp only [hfree] at hrun
  rcases startSession_cases r v.sockets.next v.sockets.issue.next i
    { v with sockets := v.sockets.issue.issue } with
    ⟨_, _, hfaults⟩ | ⟨_, hundone⟩ | ⟨_, hstarted⟩
  · simp [hfaults] at hrun
  · simp only [hundone, infraNetClose, if_neg hclient, if_neg hserver] at hrun
    obtain rfl := Except.ok.inj hrun
    refine ⟨ts, hlength, alone_connected ?_⟩
    rw [hfree]
    exact (alone_store.trans alone_undone).trans alone_closeBoth
  · simp only [hstarted] at hrun
    obtain rfl := Except.ok.inj hrun
    obtain ⟨ts', hts', hrest⟩ := @alone_started s n v.ctx ts v.sockets.issue.issue
      ⟨v.sockets.next, v.sockets.issue.next, i⟩
      { v.ctx.activeSessions i with
        clientSock := v.sockets.next
        serverSock := v.sockets.issue.next
        active := true }
    refine ⟨ts', ?_, alone_connected ?_⟩
    · rw [hts', hlength]
      rfl
    · rw [hfree]
      rw [hlength] at hrest
      exact alone_store.trans hrest

/-! ### The start of the service -/

def MainAlone : State → State → Prop :=
  Relation.ReflTransGen fun s t => ∃ ok, starterStep s ok = some t

/-- The main thread has left `start_service`. -/
structure Left (s : State) (r : Context × ErrorCode) : Prop where
  ctx : s.ctx = r.1
  starter : s.starter = .returned r.2

def handlesOf (served : ℕ → Bool) (i : ℕ) : ℕ := if served i then i + 1 else 0

def finishStart (r : Context × ErrorCode) : Context × ErrorCode :=
  match r with
  | (ctx, .ok) => ({ ctx with running := true }, .ok)
  | (ctx, e) => (ctx, e)

theorem starterStep_last (hstarter : s.starter = .starting i) (hend : ¬ i < s.ctx.ruleCount) :
    starterStep s ok =
      some { s with ctx := { s.ctx with running := true }, starter := .returned .ok } := by
  simp only [starterStep, hstarter, if_neg hend]

theorem starterStep_skips (hstarter : s.starter = .starting i) (hin : i < s.ctx.ruleCount)
    (hoff : ¬ (s.ctx.rules i).enabled = true) :
    starterStep s ok = some { s with starter := .starting (i + 1) } := by
  simp only [starterStep, hstarter, if_pos hin, if_neg hoff]

theorem starterStep_listens (hstarter : s.starter = .starting i) (hin : i < s.ctx.ruleCount)
    (hon : (s.ctx.rules i).enabled = true) :
    starterStep s ok = some (startListener s i ok) := by
  simp only [starterStep, hstarter, if_pos hin, if_pos hon]

/-- The loop from rule `i` on, with `k` rules to go. -/
theorem mainAlone_loop (served : ℕ → Bool) {k : ℕ} (hstarter : s.starter = .starting i)
    (hcount : i + k = s.ctx.ruleCount) : ∃ t, MainAlone s t ∧
      Left t (finishStart (startListeners s.ctx (handlesOf served) (List.range' i k))) := by
  induction k generalizing i s with
  | zero =>
    have hstep : starterStep s true = some _ := starterStep_last hstarter (by omega)
    exact ⟨_, Relation.ReflTransGen.single ⟨true, hstep⟩, rfl, rfl⟩
  | succ k ih =>
    have hin : i < s.ctx.ruleCount := by omega
    have hrest : i + 1 + k = s.ctx.ruleCount := by omega
    rw [List.range'_succ, startListeners]
    by_cases hon : (s.ctx.rules i).enabled = true
    · have hstep : starterStep s (served i) = some _ := starterStep_listens hstarter hin hon
      have hhandle : (if served i = true then i + 1 else 0) = handlesOf served i := rfl
      rw [if_pos hon]
      rcases createListener_cases s.ctx (handlesOf served i) with ⟨ctx', hmade, _, hrules⟩ | hfails
      · have hnext : (startListener s i (served i)).starter = .starting (i + 1) := by
          rw [startListener, hhandle, hmade]
        have hctx : (startListener s i (served i)).ctx = ctx' := by
          rw [startListener, hhandle, hmade]
        obtain ⟨t, hsteps, hleft⟩ := ih hnext (by rw [hctx, hrules, hrest])
        rw [hctx] at hleft
        rw [hmade]
        exact ⟨t, Relation.ReflTransGen.head ⟨_, hstep⟩ hsteps, hleft⟩
      · rw [startListener, hhandle, hfails] at hstep
        rw [hfails]
        exact ⟨_, Relation.ReflTransGen.single ⟨_, hstep⟩, rfl, rfl⟩
    · have hstep : starterStep s true = some _ := starterStep_skips hstarter hin hon
      rw [if_neg hon]
      obtain ⟨t, hsteps, hleft⟩ := ih (s := { s with starter := .starting (i + 1) }) rfl hrest
      exact ⟨t, Relation.ReflTransGen.head ⟨_, hstep⟩ hsteps, hleft⟩

/-- A main thread that is alone does what `startService` says. -/
theorem mainAlone_startService (served : ℕ → Bool) (hstarter : s.starter = .entering) :
    ∃ t, MainAlone s t ∧ Left t (startService s.ctx (handlesOf served)) := by
  unfold startService
  by_cases hmutex : s.ctx.mutex = 0
  · have hstep : starterStep s true = some { s with starter := .returned .notSupported } := by
      simp only [starterStep, hstarter, if_pos hmutex]
    rw [if_pos hmutex]
    exact ⟨_, Relation.ReflTransGen.single ⟨_, hstep⟩, rfl, rfl⟩
  by_cases hrunning : s.ctx.running = true
  · have hstep : starterStep s true = some { s with starter := .returned .alreadyExists } := by
      simp only [starterStep, hstarter, if_neg hmutex, if_pos hrunning]
    rw [if_neg hmutex, if_pos hrunning]
    exact ⟨_, Relation.ReflTransGen.single ⟨_, hstep⟩, rfl, rfl⟩
  by_cases hnone : s.ctx.ruleCount = 0
  · have hstep : starterStep s true = some { s with starter := .returned .invalidParam } := by
      simp only [starterStep, hstarter, if_neg hmutex, if_neg hrunning, if_pos hnone]
    rw [if_neg hmutex, if_neg hrunning, if_pos hnone]
    exact ⟨_, Relation.ReflTransGen.single ⟨_, hstep⟩, rfl, rfl⟩
  have hstep : starterStep s true = some { s with starter := .starting 0 } := by
    simp only [starterStep, hstarter, if_neg hmutex, if_neg hrunning, if_neg hnone]
  rw [if_neg hmutex, if_neg hrunning, if_neg hnone, List.range_eq_range']
  obtain ⟨t, hsteps, hleft⟩ := mainAlone_loop (s := { s with starter := .starting 0 }) served rfl
    (Nat.zero_add _)
  exact ⟨t, Relation.ReflTransGen.head ⟨_, hstep⟩ hsteps, hleft⟩

end Ppdb.UninterruptedCalls
