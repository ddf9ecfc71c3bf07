import Ppdb.ForwardSessions

/-!
The number of sessions and their sockets over whole runs. A session that ends
because one of its threads leaves its loop is neither uncounted nor are its
sockets closed: `stop_service` looks at active sessions only, and everything
else overwrites the slot.
-/

namespace Ppdb.SessionAccounts

open ErrorCodes RinetdContext ResourceLedgers ForwardSessions

/-! ### Runs -/

/-- The service has just been started, without sessions. -/
structure Starts (s : Service) : Prop where
  initialised : s.ctx.mutex ≠ 0 ∧ s.ctx.mux ≠ 0
  running : s.ctx.running = true
  sessions : ∀ i, s.ctx.activeSessions i = Session.zero
  count : s.ctx.sessionCount = 0
  threads : s.threads = []
  sockets : s.sockets = Ledger.empty

def run : List Event → Service → Except Stop Service
  | [], s => .ok s
  | e :: es, s =>
    match perform s e with
    | .ok s' => run es s'
    | .error stop => .error stop

/-- After each event of the run the service is as required. -/
def AfterEach (R : Service → Prop) : List Event → Service → Prop
  | [], _ => True
  | e :: es, s => ∃ s', perform s e = .ok s' ∧ R s' ∧ AfterEach R es s'

/-- A thread leaves its loop while its session is active, or a backward thread
cannot be created. -/
def Breaks (s : Service) : Event → Prop
  | .accept r => s.ctx.running = true ∧ Faults s r
  | .finish k => ∃ t, s.threads[k]? = some t ∧ (s.ctx.activeSessions t.slot).active = true
  | .stop => False

def Unbroken : List Event → Service → Prop
  | [], _ => True
  | e :: es, s => ¬ Breaks s e ∧ ∀ s', perform s e = .ok s' → Unbroken es s'

/-! ### What is counted and what is open -/

def activeSlots (ctx : Context) : Finset ℕ :=
  (Finset.range maxRules).filter fun i => (ctx.activeSessions i).active = true

/-- The loop of `remove_session_from_list` from index `i` on, with `n` more
sessions to go; `none` stands for an access behind the array. -/
def removeFrom (ctx : Context) (session : Session) (i : ℕ) : ℕ → Option Context
  | 0 => some ctx
  | n + 1 =>
    if maxRules ≤ i then none
    else if (ctx.activeSessions i).clientSock = session.clientSock ∧
        (ctx.activeSessions i).serverSock = session.serverSock then
      if maxRules ≤ i + n then none
      else
        let moved := if n ≠ 0 then
            Function.update ctx.activeSessions i (ctx.activeSessions (i + n))
          else ctx.activeSessions
        some { ctx with
          activeSessions := Function.update moved (i + n) Session.zero
          sessionCount := ctx.sessionCount - 1 }
    else removeFrom ctx session (i + 1) n

def removeSessionFromList (ctx : Context) (session : Session) : Option Context :=
  removeFrom ctx session 0 ctx.sessionCount.toNat

/-- The counter is the number of active sessions, of which there are at most
`RINETD_MAX_RULES`, and a removal stays within the array. -/
structure CountRight (s : Service) : Prop where
  count : s.ctx.sessionCount = (activeSlots s.ctx).card
  bounds : 0 ≤ s.ctx.sessionCount ∧ s.ctx.sessionCount ≤ maxRules
  removal : ∀ session, ∃ ctx, removeSessionFromList s.ctx session = some ctx

def openOf (session : Session) : List ℕ :=
  if session.active then [session.clientSock, session.serverSock] else []

def openSockets (ctx : Context) : List ℕ :=
  (List.range maxRules).flatMap fun i => openOf (ctx.activeSessions i)

def ClosedOnce (l : Ledger) : Prop := ∀ id, 0 < id → id ≤ l.issued → l.returned.count id = 1

variable {s s' : Service} {e : Event} {es : List Event} {r : Reply} {i k : ℕ} {ctx ctx' : Context}
  {leaked : Prop}

/-! ### Slots -/

theorem mem_activeSlots :
    i ∈ activeSlots ctx ↔ i < maxRules ∧ (ctx.activeSessions i).active = true := by
  simp [activeSlots]

theorem activeSlots_congr
    (h : ∀ i, (ctx'.activeSessions i).active = (ctx.activeSessions i).active) :
    activeSlots ctx' = activeSlots ctx := by
  ext i
  rw [mem_activeSlots, mem_activeSlots, h i]

/-- A session started in a free slot. -/
theorem card_activeSlots_started (hlt : i < maxRules)
    (hfree : (ctx.activeSessions i).active = false) (hset : (ctx'.activeSessions i).active = true)
    (hothers : ∀ j, j ≠ i → ctx'.activeSessions j = ctx.activeSessions j) :
    (activeSlots ctx').card = (activeSlots ctx).card + 1 := by
  have hinsert : activeSlots ctx' = insert i (activeSlots ctx) := by
    ext j
    rw [Finset.mem_insert, mem_activeSlots, mem_activeSlots]
    rcases eq_or_ne j i with rfl | hne
    · simp [hlt, hset]
    · simp [hne, hothers j hne]
  rw [hinsert, Finset.card_insert_of_notMem]
  rw [mem_activeSlots, hfree]
  simp

theorem card_activeSlots_le (ctx : Context) : (activeSlots ctx).card ≤ maxRules :=
  (Finset.card_filter_le _ _).trans (Finset.card_range maxRules).le

theorem removeFrom_some (session : Session) {n : ℕ} (h : i + n ≤ maxRules) :
    ∃ ctx', removeFrom ctx session i n = some ctx' := by
  induction n generalizing i with
  | zero => exact ⟨ctx, rfl⟩
  | succ n ih =>
    unfold removeFrom
    rw [if_neg (by omega)]
    split
    · rw [if_neg (by omega)]
      exact ⟨_, rfl⟩
    · apply ih
      omega

theorem countRight_of_count (h : s.ctx.sessionCount = (activeSlots s.ctx).card) : CountRight s := by
  have hle := card_activeSlots_le s.ctx
  refine ⟨h, by omega, ?_⟩
  intro session
  apply removeFrom_some
  omega

/-! ### The counter -/

/-- The counter, and the slots that the threads refer to. -/
structure Counted (s : Service) : Prop where
  count : s.ctx.sessionCount = (activeSlots s.ctx).card
  slots : ∀ t ∈ s.threads, t.slot < maxRules

theorem Counted.accept (h : Counted s) (hnot : ¬ Faults s r) :
    ∃ s', acceptClient r s = .ok s' ∧ Counted s' := by
  rcases acceptClient_cases s r with ⟨hfaults, _⟩ | ⟨_, s', hrun, hrefused⟩ |
    ⟨i, _, hfree, s', hrun, hserved⟩
  · exact absurd hfaults hnot
  · refine ⟨s', hrun, ?_, ?_⟩
    · rw [hrefused.count, activeSlots_congr hrefused.flags]
      exact h.count
    · rw [hrefused.threads]
      exact h.slots
  · obtain ⟨hlt, hidle⟩ := freeSlot_some hfree
    refine ⟨s', hrun, ?_, ?_⟩
    · rw [hserved.count, card_activeSlots_started hlt hidle hserved.active hserved.others, h.count]
      rfl
    · intro t ht
      rcases hserved.threads t ht with hold | hnew
      · exact h.slots t hold
      · rwa [hnew]

theorem endThread_none (h : s.threads[k]? = none) : endThread s k = s := by
  simp only [endThread, h]

theorem endThread_some {t : Thread} (h : s.threads[k]? = some t) :
    endThread s k = { s.setSession t.slot { s.ctx.activeSessions t.slot with active := false } with
      threads := s.threads.eraseIdx k } := by
  simp only [endThread, h]
  rfl

/-- The thread clears the flag of its slot and leaves the other slots. -/
theorem endThread_slots {t : Thread} (h : s.threads[k]? = some t) :
    ((endThread s k).ctx.activeSessions t.slot).active = false ∧
      ∀ j, j ≠ t.slot → s.ctx.activeSessions j = (endThread s k).ctx.activeSessions j := by
  rw [endThread_some h]
  constructor
  · simp [Service.setSession]
  · intro j hne
    simp [Service.setSession, hne]

theorem endThread_frame (s : Service) (k : ℕ) :
    (endThread s k).ctx.sessionCount = s.ctx.sessionCount ∧
      (endThread s k).sockets = s.sockets ∧ ∀ t ∈ (endThread s k).threads, t ∈ s.threads := by
  cases hthread : s.threads[k]? with
  | none =>
    rw [endThread_none hthread]
    exact ⟨rfl, rfl, fun _ ht => ht⟩
  | some t =>
    rw [endThread_some hthread]
    exact ⟨rfl, rfl, fun _ ht => List.mem_of_mem_eraseIdx ht⟩

/-- A thread whose session is no longer active changes no slot. -/
theorem endThread_idle {t : Thread} (h : s.threads[k]? = some t)
    (hidle : (s.ctx.activeSessions t.slot).active = false) (i : ℕ) :
    (endThread s k).ctx.activeSessions i = s.ctx.activeSessions i := by
  rw [endThread_some h]
  rcases eq_or_ne i t.slot with rfl | hne
  · simp [Service.setSession, ← hidle]
  · simp [Service.setSession, hne]

theorem Counted.finish (h : Counted s) (hnot : ¬ Breaks s (.finish k)) :
    Counted (endThread s k) := by
  cases hthread : s.threads[k]? with
  | none =>
    rw [endThread_none hthread]
    exact h
  | some t =>
    have hidle : (s.ctx.activeSessions t.slot).active = false := by
      rw [← Bool.not_eq_true]
      intro hactive
      exact hnot ⟨t, hthread, hactive⟩
    have hsame := endThread_idle hthread hidle
    obtain ⟨hcount, _, hthreads⟩ := endThread_frame s k
    refine ⟨?_, fun u hu => h.slots u (hthreads u hu)⟩
    rw [activeSlots_congr fun i => congrArg Session.active (hsame i), hcount]
    exact h.count

theorem session_stop_active (session : Session) : session.stop.active = false := by
  cases hactive : session.active <;> simp [Session.stop, hactive, Session.zero]

/-- A stop that is served leaves no active session and no count. -/
structure Stopped (s s' : Service) : Prop where
  count : s'.ctx.sessionCount = 0
  flags : ∀ i, (s'.ctx.activeSessions i).active = false
  threads : ∀ t ∈ s'.threads, t ∈ s.threads
  sockets : s'.sockets =
    ((List.range maxRules).map s.ctx.activeSessions).foldl closeSession s.sockets

/-- `stop_service` refuses or stops. -/
theorem stopSessions_cases (s : Service) :
    ((stopSessions s).2 ≠ .ok ∧ (stopSessions s).1 = s) ∨
      ((stopSessions s).2 = .ok ∧ Stopped s (stopSessions s).1) := by
  by_cases hmutex : s.ctx.mutex = 0
  · left
    simp [stopSessions, stopService, hmutex]
  by_cases hrunning : s.ctx.running = false
  · left
    simp [stopSessions, stopService, hmutex, hrunning]
  right
  have hstop : stopSessions s = ({ s with
      ctx := { s.ctx with
        running := false
        listenerThreads := fun _ => 0
        activeSessions := fun i => (s.ctx.activeSessions i).stop
        sessionCount := 0 }
      threads := s.threads.filter fun t => !isJoined s.ctx t
      sockets := ((List.range maxRules).map s.ctx.activeSessions).foldl closeSession s.sockets },
      .ok) := by
    simp only [stopSessions, stopService, if_neg hmutex, if_neg hrunning]
  rw [hstop]
  refine ⟨rfl, rfl, fun i => session_stop_active _, ?_, rfl⟩
  intro t ht
  exact List.mem_of_mem_filter ht

theorem activeSlots_empty (h : ∀ i, (ctx.activeSessions i).active = false) :
    activeSlots ctx = ∅ := by
  ext i
  rw [mem_activeSlots, h i]
  simp

theorem Counted.stop (h : Counted s) : Counted (stopSessions s).1 := by
  rcases stopSessions_cases s with ⟨_, hsame⟩ | ⟨_, hstopped⟩
  · rw [hsame]
    exact h
  · refine ⟨?_, fun t ht => h.slots t (hstopped.threads t ht)⟩
    rw [hstopped.count, activeSlots_empty hstopped.flags]
    rfl

/-- An event that does not break keeps the count. -/
theorem Counted.perform (h : Counted s) (hnot : ¬ Breaks s e) :
    ∃ s', perform s e = .ok s' ∧ Counted s' := by
  cases e with
  | accept r =>
    by_cases hrunning : s.ctx.running = true
    · rw [ForwardSessions.perform, if_pos hrunning]
      exact h.accept fun hfaults => hnot ⟨hrunning, hfaults⟩
    · exact ⟨s, if_neg hrunning, h⟩
  | finish k => exact ⟨_, rfl, h.finish hnot⟩
  | stop => exact ⟨_, rfl, h.stop⟩

/-- A client whose session cannot be recorded leaves nothing defined. -/
theorem accept_breaks {r : Reply} (hbreaks : Breaks s (.accept r)) :
    perform s (.accept r) ≠ .ok s' := by
  intro hrun
  obtain ⟨hrunning, hfaults⟩ := hbreaks
  rw [ForwardSessions.perform, if_pos hrunning] at hrun
  rcases acceptClient_cases s r with ⟨_, hfault⟩ | ⟨hnot, _⟩ | ⟨_, hnot, _⟩
  · rw [hfault] at hrun
    cases hrun
  · exact absurd hfaults hnot
  · exact absurd hfaults hnot

/-- A session that ends by itself stays counted. -/
theorem endThread_uncounted (h : Counted s) (hbreaks : Breaks s (.finish k)) :
    (endThread s k).ctx.sessionCount ≠ (activeSlots (endThread s k).ctx).card := by
  obtain ⟨t, hthread, hactive⟩ := hbreaks
  have hlt := h.slots t (List.mem_of_getElem? hthread)
  obtain ⟨hlater, hothers⟩ := endThread_slots hthread
  have hcard := card_activeSlots_started hlt hlater hactive hothers
  rw [(endThread_frame s k).1, h.count, hcard]
  omega

/-- After an event that breaks the count is wrong, or nothing is defined. -/
theorem not_countRight_of_breaks (h : Counted s) (hbreaks : Breaks s e)
    (hrun : perform s e = .ok s') : ¬ CountRight s' := by
  cases e with
  | accept r => exact absurd hrun (accept_breaks hbreaks)
  | finish k =>
    obtain rfl := Except.ok.inj hrun
    intro hright
    exact endThread_uncounted h hbreaks hright.count
  | stop => exact hbreaks.elim

theorem Starts.counted (h : Starts s) : Counted s := by
  refine ⟨?_, by simp [h.threads]⟩
  rw [h.count, activeSlots_empty]
  · rfl
  · intro i
    rw [h.sessions i]
    rfl

theorem afterEach_iff_of_counted (h : Counted s) :
    AfterEach CountRight es s ↔ Unbroken es s := by
  induction es generalizing s with
  | nil => exact Iff.rfl
  | cons e es ih =>
    constructor
    · rintro ⟨s', hrun, hright, hrest⟩
      have hnot : ¬ Breaks s e := fun hbreaks => not_countRight_of_breaks h hbreaks hrun hright
      refine ⟨hnot, ?_⟩
      intro t ht
      obtain ⟨u, hu, hcounted⟩ := h.perform hnot
      obtain rfl := Except.ok.inj (hrun.symm.trans ht)
      obtain rfl := Except.ok.inj (hrun.symm.trans hu)
      exact (ih hcounted).mp hrest
    · rintro ⟨hnot, hrest⟩
      obtain ⟨s', hrun, hcounted⟩ := h.perform hnot
      exact ⟨s', hrun, countRight_of_count hcounted.count, (ih hcounted).mpr (hrest s' hrun)⟩

/-- The counter agrees with the flags after each event of a run if and only if
no event of the run breaks. -/
theorem sessionCount_right_iff (h : Starts s) (es : List Event) :
    AfterEach CountRight es s ↔ Unbroken es s := afterEach_iff_of_counted h.counted

def Calm : Event → Prop
  | .accept r => r.backward = true
  | .finish _ => False
  | .stop => True

theorem unbroken_of_calm (h : ∀ e ∈ es, Calm e) : Unbroken es s := by
  induction es generalizing s with
  | nil => trivial
  | cons e es ih =>
    obtain ⟨hcalm, hrest⟩ := List.forall_mem_cons.mp h
    refine ⟨?_, fun s' _ => ih hrest⟩
    intro hbreaks
    cases e with
    | accept r =>
      obtain ⟨_, _, _, _, _, hbackward⟩ := hbreaks
      exact absurd (hcalm.symm.trans hbackward) (by decide)
    | finish k => exact hcalm
    | stop => exact hbreaks

def started : Service :=
  ⟨{ Context.zero with running := true, mutex := 1, mux := 2 }, [], 0, Ledger.empty⟩

def served : Event := .accept ⟨true, true, true, true⟩

theorem started_starts : Starts started := by
  refine ⟨⟨?_, ?_⟩, rfl, fun _ => rfl, rfl, rfl, rfl⟩
  · exact Nat.one_ne_zero
  · exact Nat.succ_ne_zero 1

theorem sessionCount_right_two : AfterEach CountRight [served, served, .stop] started := by
  apply (sessionCount_right_iff started_starts _).mpr
  apply unbroken_of_calm
  simp [Calm, served]

/-- A session that has ended is still counted. -/
theorem ended_session_counted : ∃ s es, Starts s ∧ ¬ AfterEach CountRight es s := by
  refine ⟨started, [served, .finish 0], started_starts, ?_⟩
  rintro ⟨s, hserved, _, t, hfinish, hright, _⟩
  obtain rfl := Except.ok.inj hserved
  obtain rfl := Except.ok.inj hfinish
  have hcount := hright.count
  revert hcount
  decide

/-! ### The sockets -/

/-- All sockets in use belong to active sessions, unless some have leaked. -/
structure Kept (s : Service) (leaked : Prop) : Prop where
  holds : s.sockets.Holds (openSockets s.ctx)
  leaks : s.sockets.Leaks (openSockets s.ctx) ↔ leaked
  slots : ∀ t ∈ s.threads, t.slot < maxRules

theorem openSockets_congr
    (h : ∀ i, openOf (ctx'.activeSessions i) = openOf (ctx.activeSessions i)) :
    openSockets ctx' = openSockets ctx := by
  unfold openSockets
  simp only [h]

/-- The sockets of one slot, and those of the others. -/
theorem openSockets_split (ctx : Context) (hlt : i < maxRules) :
    (openSockets ctx).Perm (openOf (ctx.activeSessions i) ++
      ((List.range maxRules).erase i).flatMap fun j => openOf (ctx.activeSessions j)) :=
  (List.perm_cons_erase (List.mem_range.mpr hlt)).flatMap_right _

theorem flatMap_others (hothers : ∀ j, j ≠ i → ctx'.activeSessions j = ctx.activeSessions j) :
    ((List.range maxRules).erase i).flatMap (fun j => openOf (ctx'.activeSessions j)) =
      ((List.range maxRules).erase i).flatMap fun j => openOf (ctx.activeSessions j) := by
  apply List.flatMap_congr
  intro j hj
  have hne := ((List.nodup_range.mem_erase_iff).mp hj).1
  rw [hothers j hne]

/-- A slot that changes hands, all others being as before. -/
theorem openSockets_perm {ids : List ℕ} (hlt : i < maxRules)
    (hidle : (ctx.activeSessions i).active = false)
    (hothers : ∀ j, j ≠ i → ctx'.activeSessions j = ctx.activeSessions j)
    (hids : openOf (ctx'.activeSessions i) = ids) :
    (openSockets ctx').Perm (ids ++ openSockets ctx) := by
  have hold := openSockets_split ctx hlt
  rw [openOf, hidle] at hold
  have hnew := openSockets_split ctx' hlt
  rw [flatMap_others hothers, hids] at hnew
  exact hnew.trans (hold.symm.append_left ids)

theorem Kept.of_refused (h : Kept s leaked) (hrefused : Refused s s') : Kept s' leaked := by
  have hopen : openSockets s'.ctx = openSockets s.ctx := by
    apply openSockets_congr
    intro i
    cases hactive : (s.ctx.activeSessions i).active with
    | true => rw [hrefused.sessions i hactive]
    | false =>
      have hidle := hrefused.flags i
      rw [hactive] at hidle
      simp [openOf, hactive, hidle]
  have hclient := h.holds.issue
  have hclientLeaks : s.sockets.issue.Leaks (s.sockets.next :: openSockets s.ctx) ↔ leaked :=
    (leaks_issue_iff h.holds.sound).trans h.leaks
  have hslots : ∀ t ∈ s'.threads, t.slot < maxRules := by
    rw [hrefused.threads]
    exact h.slots
  rcases hrefused.sockets with hsockets | hsockets
  · refine ⟨?_, ?_, hslots⟩
    · rw [hsockets, hopen]
      exact hclient.giveBack
    · rw [hsockets, hopen]
      exact leaks_giveBack_iff.trans hclientLeaks
  · have hserver := hclient.issue
    refine ⟨?_, ?_, hslots⟩
    · rw [hsockets, hopen]
      exact hserver.giveBack.giveBack
    · rw [hsockets, hopen]
      exact (leaks_giveBack_iff.trans leaks_giveBack_iff).trans
        ((leaks_issue_iff hclient.sound).trans hclientLeaks)

theorem Kept.of_served (h : Kept s leaked) (hfree : freeSlot s.ctx = some i)
    (hserved : Served s s' i) : Kept s' leaked := by
  obtain ⟨hlt, hidle⟩ := freeSlot_some hfree
  have hids : openOf (s'.ctx.activeSessions i) = [s.sockets.next, s.sockets.issue.next] := by
    rw [openOf, hserved.active, hserved.client, hserved.server]
    rfl
  have hopen := openSockets_perm hlt hidle hserved.others hids
  have hswap : (s.sockets.issue.next :: s.sockets.next :: openSockets s.ctx).Perm
      (openSockets s'.ctx) := (List.Perm.swap _ _ _).trans hopen.symm
  have hclient := h.holds.issue
  refine ⟨?_, ?_, ?_⟩
  · rw [hserved.sockets]
    exact hclient.issue.perm hswap
  · rw [hserved.sockets, ← leaks_perm_iff hswap]
    exact (leaks_issue_iff hclient.sound).trans ((leaks_issue_iff h.holds.sound).trans h.leaks)
  · intro t ht
    rcases hserved.threads t ht with hold | hnew
    · exact h.slots t hold
    · rwa [hnew]

/-- The sockets of a session that ends by itself leak. -/
theorem Kept.finish_breaks (h : Kept s leaked) (hbreaks : Breaks s (.finish k)) :
    Kept (endThread s k) True := by
  obtain ⟨t, hthread, hactive⟩ := hbreaks
  have hlt := h.slots t (List.mem_of_getElem? hthread)
  obtain ⟨hlater, hothers⟩ := endThread_slots hthread
  have hids : openOf (s.ctx.activeSessions t.slot) =
      [(s.ctx.activeSessions t.slot).clientSock, (s.ctx.activeSessions t.slot).serverSock] := by
    rw [openOf, hactive]
    rfl
  obtain ⟨_, hsockets, hthreads⟩ := endThread_frame s k
  have hheld := h.holds.perm (openSockets_perm hlt hlater hothers hids)
  refine ⟨?_, iff_of_true ?_ trivial, fun u hu => h.slots u (hthreads u hu)⟩
  · rw [hsockets]
    exact hheld.drop
  · rw [hsockets]
    exact hheld.leaks_of_drop.mono fun id hid => List.mem_cons_of_mem _ hid

theorem Kept.finish_idle (h : Kept s leaked) (hnot : ¬ Breaks s (.finish k)) :
    Kept (endThread s k) leaked := by
  cases hthread : s.threads[k]? with
  | none =>
    rw [endThread_none hthread]
    exact h
  | some t =>
    have hidle : (s.ctx.activeSessions t.slot).active = false := by
      rw [← Bool.not_eq_true]
      intro hactive
      exact hnot ⟨t, hthread, hactive⟩
    have hopen : openSockets (endThread s k).ctx = openSockets s.ctx :=
      openSockets_congr fun i => congrArg openOf (endThread_idle hthread hidle i)
    obtain ⟨_, hsockets, hthreads⟩ := endThread_frame s k
    refine ⟨?_, ?_, fun u hu => h.slots u (hthreads u hu)⟩
    · rw [hopen, hsockets]
      exact h.holds
    · rw [hopen, hsockets]
      exact h.leaks

theorem closeSession_eq {l : Ledger} {session : Session}
    (hpos : ∀ id ∈ openOf session, id ≠ 0) :
    closeSession l session = l.giveBackAll (openOf session) := by
  unfold closeSession openOf at *
  cases hactive : session.active with
  | false => simp [Ledger.giveBackAll]
  | true =>
    have hclient : session.clientSock ≠ 0 := hpos _ (by simp [hactive])
    have hserver : session.serverSock ≠ 0 := hpos _ (by simp [hactive])
    simp [Ledger.giveBackAll, infraNetClose, hclient, hserver]

/-- What `stop_service` closes, slot after slot. -/
theorem closeSessions_eq {l : Ledger} {slots : List ℕ} {sessions : ℕ → Session}
    (hpos : ∀ id ∈ slots.flatMap fun i => openOf (sessions i), id ≠ 0) :
    (slots.map sessions).foldl closeSession l =
      l.giveBackAll (slots.flatMap fun i => openOf (sessions i)) := by
  induction slots generalizing l with
  | nil => rfl
  | cons i slots ih =>
    rw [List.flatMap_cons] at hpos ⊢
    rw [List.map_cons, List.foldl_cons,
      closeSession_eq fun id hid => hpos id (List.mem_append_left _ hid),
      ih fun id hid => hpos id (List.mem_append_right _ hid)]
    exact (List.foldl_append).symm

/-- After a stop that is served nobody holds a socket. -/
theorem Kept.stopped (h : Kept s leaked) (hstopped : Stopped s s') :
    s'.sockets.Holds [] ∧ (s'.sockets.Leaks [] ↔ leaked) := by
  have hclosed : s'.sockets = s.sockets.giveBackAll (openSockets s.ctx) := by
    rw [hstopped.sockets]
    exact closeSessions_eq fun id hid => (h.holds.inUse id hid).1.ne'
  have hnil := List.append_nil (openSockets s.ctx)
  rw [hclosed]
  refine ⟨?_, ?_⟩
  · apply Ledger.Holds.giveBackAll
    rw [hnil]
    exact h.holds
  · rw [leaks_giveBackAll_iff, hnil]
    exact h.leaks

theorem openSockets_nil (h : ∀ i, (ctx.activeSessions i).active = false) :
    openSockets ctx = [] := by
  unfold openSockets
  rw [List.flatMap_eq_nil_iff]
  intro i _
  rw [openOf, h i]
  rfl

theorem Kept.stop (h : Kept s leaked) : Kept (stopSessions s).1 leaked := by
  rcases stopSessions_cases s with ⟨_, hsame⟩ | ⟨_, hstopped⟩
  · rw [hsame]
    exact h
  · obtain ⟨hholds, hleaks⟩ := h.stopped hstopped
    rw [← openSockets_nil hstopped.flags] at hholds hleaks
    exact ⟨hholds, hleaks, fun t ht => h.slots t (hstopped.threads t ht)⟩

/-- What an event leaves of it, if it is defined. -/
theorem Kept.perform (h : Kept s leaked) (hrun : perform s e = .ok s') :
    Kept s' (leaked ∨ Breaks s e) := by
  by_cases hbreaks : Breaks s e
  · cases e with
    | accept r => exact absurd hrun (accept_breaks hbreaks)
    | finish k =>
      obtain rfl := Except.ok.inj hrun
      rw [eq_true hbreaks, or_true]
      exact h.finish_breaks hbreaks
    | stop => exact hbreaks.elim
  · rw [eq_false hbreaks, or_false]
    cases e with
    | accept r =>
      by_cases hrunning : s.ctx.running = true
      · rw [ForwardSessions.perform, if_pos hrunning] at hrun
        rcases acceptClient_cases s r with ⟨_, hfault⟩ | ⟨_, t, ht, hrefused⟩ |
          ⟨i, _, hfree, t, ht, hserved⟩
        · rw [hfault] at hrun
          cases hrun
        · obtain rfl := Except.ok.inj (ht.symm.trans hrun)
          exact h.of_refused hrefused
        · obtain rfl := Except.ok.inj (ht.symm.trans hrun)
          exact h.of_served hfree hserved
      · rw [ForwardSessions.perform, if_neg hrunning] at hrun
        obtain rfl := Except.ok.inj hrun
        exact h
    | finish k =>
      obtain rfl := Except.ok.inj hrun
      exact h.finish_idle hbreaks
    | stop =>
      obtain rfl := Except.ok.inj hrun
      exact h.stop

theorem Kept.congr {leaked' : Prop} (h : Kept s leaked) (hiff : leaked ↔ leaked') :
    Kept s leaked' := ⟨h.holds, h.leaks.trans hiff, h.slots⟩

theorem run_cons {t : Service} (hrun : run (e :: es) s = .ok t) :
    ∃ s', perform s e = .ok s' ∧ run es s' = .ok t := by
  unfold run at hrun
  split at hrun
  · next s' hs' => exact ⟨s', hs', hrun⟩
  · cases hrun

/-- Sockets have leaked by the end of a run if and only if an event breaks. -/
theorem Kept.run {t : Service} (h : Kept s leaked) (hrun : run es s = .ok t) :
    Kept t (leaked ∨ ¬ Unbroken es s) := by
  induction es generalizing s leaked with
  | nil =>
    obtain rfl := Except.ok.inj hrun
    exact h.congr (by simp [Unbroken])
  | cons e es ih =>
    obtain ⟨s', hstep, hrest⟩ := run_cons hrun
    apply (ih (h.perform hstep) hrest).congr
    have hunbroken : Unbroken (e :: es) s ↔ ¬ Breaks s e ∧ Unbroken es s' := by
      constructor
      · rintro ⟨hnot, hlater⟩
        exact ⟨hnot, hlater s' hstep⟩
      · rintro ⟨hnot, hlater⟩
        refine ⟨hnot, ?_⟩
        intro u hu
        obtain rfl := Except.ok.inj (hstep.symm.trans hu)
        exact hlater
    rw [hunbroken, not_and_or, not_not, or_assoc]

/-- Nothing undefined happens in an unbroken run. -/
theorem Counted.run_defined (h : Counted s) (hunbroken : Unbroken es s) :
    ∃ t, run es s = .ok t := by
  induction es generalizing s with
  | nil => exact ⟨s, rfl⟩
  | cons e es ih =>
    obtain ⟨s', hstep, hcounted⟩ := h.perform hunbroken.1
    obtain ⟨t, ht⟩ := ih hcounted (hunbroken.2 s' hstep)
    refine ⟨t, ?_⟩
    rw [SessionAccounts.run, hstep]
    exact ht

theorem Starts.kept (h : Starts s) : Kept s False := by
  have hopen : openSockets s.ctx = [] := by
    apply openSockets_nil
    intro i
    rw [h.sessions i]
    rfl
  refine ⟨?_, ?_, by simp [h.threads]⟩
  · rw [hopen, h.sockets]
    exact holds_empty
  · rw [hopen, h.sockets]
    exact iff_of_false not_leaks_empty id

theorem Kept.closedOnce_iff (h : Kept s leaked) (hstop : (stopSessions s).2 = .ok) :
    ClosedOnce (stopSessions s).1.sockets ↔ ¬ leaked := by
  rcases stopSessions_cases s with ⟨hnot, _⟩ | ⟨_, hstopped⟩
  · exact absurd hstop hnot
  · obtain ⟨hholds, hleaks⟩ := h.stopped hstopped
    exact hholds.count_eq_one_iff.trans (not_congr hleaks)

/-- When the service is stopped after a run, every socket has been closed
exactly once if and only if no event of the run breaks. -/
theorem sockets_closed_iff (h : Starts s) (es : List Event)
    (hstop : ∀ t, run es s = .ok t → (stopSessions t).2 = .ok) :
    (∃ t, run es s = .ok t ∧ ClosedOnce (stopSessions t).1.sockets) ↔ Unbroken es s := by
  have hclosed : ∀ t, run es s = .ok t →
      (ClosedOnce (stopSessions t).1.sockets ↔ Unbroken es s) := by
    intro t ht
    rw [(h.kept.run ht).closedOnce_iff (hstop t ht), false_or, not_not]
  constructor
  · rintro ⟨t, ht, honce⟩
    exact (hclosed t ht).mp honce
  · intro hunbroken
    obtain ⟨t, ht⟩ := h.counted.run_defined hunbroken
    exact ⟨t, ht, (hclosed t ht).mpr hunbroken⟩

theorem sockets_closed_two : ∃ t, run [served, served] started = .ok t ∧
    ClosedOnce (stopSessions t).1.sockets := by
  apply (sockets_closed_iff started_starts [served, served] ?_).mpr
  · apply unbroken_of_calm
    simp [Calm, served]
  · intro t ht
    obtain rfl := Except.ok.inj ht
    rfl

/-- The sockets of a session that has ended stay open. -/
theorem sockets_leak : ∃ s es t, Starts s ∧ run es s = .ok t ∧ (stopSessions t).2 = .ok ∧
    ¬ ClosedOnce (stopSessions t).1.sockets := by
  refine ⟨started, [served, .finish 0], _, started_starts, rfl, rfl, ?_⟩
  intro honce
  have hfirst := honce 1
  revert hfirst
  decide

end Ppdb.SessionAccounts
