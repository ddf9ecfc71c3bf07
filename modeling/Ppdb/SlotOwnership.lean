import Ppdb.ServiceThreads

/-!
Who owns the slots of `active_sessions`. A slot belongs to the listener that
has found it free, until both threads are created, and to these threads until
they have returned. The flag that the search reads says less: it is set some
steps after it has been read, and one thread clears it while the other runs on.
-/

namespace Ppdb.SlotOwnership

open ErrorCodes RinetdContext SessionRelay ResourceLedgers Transitions ServiceThreads

def heldClaim : Phase → Option Claim
  | .storingClient c => some c
  | .storingServer c => some c
  | .activating c => some c
  | .startingForward c => some c
  | .startingBackward c => some c
  | .undoing c _ => some c
  | .joining c => some c
  | _ => none

def isYoung : Phase → Bool
  | .storingClient _ => true
  | .storingServer _ => true
  | .activating _ => true
  | .startingForward _ => true
  | .undoing _ joins => !joins
  | _ => false

def storedSockets : Phase → ℕ
  | .storingClient _ => 0
  | .storingServer _ => 1
  | _ => 2

def claimOf (ls : ℕ → Listener) (n : ℕ) : Option Claim := heldClaim (ls n).phase

def Running (ts : List Thread) (t : Thread) : Prop := t ∈ ts ∧ t.point ≠ .returned

/-- A slot is owned by the sessions of the listeners that use it and of the
threads that run on it. -/
inductive Owns (ls : ℕ → Listener) (ts : List Thread) : Claim → Prop
  | listener {n : ℕ} {c : Claim} (h : claimOf ls n = some c) : Owns ls ts c
  | thread {t : Thread} (h : Running ts t) : Owns ls ts t.session

/-- A slot is owned by one session and used by one listener; it is handed on
when the threads that ran on it have returned, and what a running thread finds
in it, and clears, is its own session. -/
structure OwnedOnce (ls : ℕ → Listener) (ts : List Thread) (slots : ℕ → Session) : Prop where
  one : ∀ c d, Owns ls ts c → Owns ls ts d → c.slot = d.slot → c = d
  listeners : ∀ n m c d, claimOf ls n = some c → claimOf ls m = some d → c.slot = d.slot → n = m
  handed : ∀ n c t, claimOf ls n = some c → isYoung (ls n).phase = true → Running ts t →
    t.session.slot ≠ c.slot
  own : ∀ t, Running ts t → (slots t.session.slot).clientSock = t.session.client ∧
    (slots t.session.slot).serverSock = t.session.server

def SlotsRight (s : State) : Prop := OwnedOnce s.listeners s.threads s.ctx.activeSessions

/-- A listener has read the flag of the slot as clear and is still in
`create_forward_session`, or a thread on the slot has not returned. -/
def Busy (s : State) (i : ℕ) : Prop :=
  (∃ m c, claimOf s.listeners m = some c ∧ c.slot = i) ∨
    ∃ t, Running s.threads t ∧ t.session.slot = i

/-- A search does not stop at a slot that is busy. -/
def Admitted (s : State) : Action → Prop
  | .listen n _ => ∀ client server i, (s.listeners n).phase = .scanning client server i →
      i < maxRules → (s.ctx.activeSessions i).active = false → ¬ Busy s i
  | _ => True

/-- The service is running, the slots are empty and listeners wait for connections. -/
structure Starts (s : State) : Prop where
  initialised : s.ctx.mutex ≠ 0 ∧ s.ctx.mux ≠ 0
  running : s.ctx.running = true
  slots : ∀ i, s.ctx.activeSessions i = Session.zero
  starter : s.starter = .returned .ok
  listeners : ∀ n, (s.listeners n).phase = .absent ∨ (s.listeners n).phase = .testing
  threads : s.threads = []

/-- What holds besides: the sockets that a listener has stored. -/
structure Kept (ls : ℕ → Listener) (ts : List Thread) (slots : ℕ → Session) : Prop
    extends OwnedOnce ls ts slots where
  client : ∀ n c, claimOf ls n = some c → 1 ≤ storedSockets (ls n).phase →
    (slots c.slot).clientSock = c.client
  server : ∀ n c, claimOf ls n = some c → 2 ≤ storedSockets (ls n).phase →
    (slots c.slot).serverSock = c.server

variable {ls ls' : ℕ → Listener} {ts ts' : List Thread} {slots slots' : ℕ → Session} {n m : ℕ}
  {p : Phase} {c d : Claim} {t : Thread}

/-! ### Listeners that move on -/

theorem phase_setPhase (ls : ℕ → Listener) (n : ℕ) (p : Phase) :
    (setPhase ls n p n).phase = p := by
  simp [setPhase]

theorem setPhase_ne (hne : m ≠ n) : setPhase ls n p m = ls m := by
  simp [setPhase, hne]

theorem claimOf_setPhase (ls : ℕ → Listener) (n : ℕ) (p : Phase) :
    claimOf (setPhase ls n p) n = heldClaim p := by
  rw [claimOf, phase_setPhase]

theorem claimOf_setPhase_ne (hne : m ≠ n) : claimOf (setPhase ls n p) m = claimOf ls m := by
  rw [claimOf, setPhase_ne hne, claimOf]

/-- Listeners and threads that own less than before, in the same stages, and
slots that hold the same sockets. -/
structure Shrinks (ls : ℕ → Listener) (ts : List Thread) (slots : ℕ → Session)
    (ls' : ℕ → Listener) (ts' : List Thread) (slots' : ℕ → Session) : Prop where
  claims : ∀ n c, claimOf ls' n = some c → claimOf ls n = some c
  young : ∀ n c, claimOf ls' n = some c → isYoung (ls' n).phase = true →
    isYoung (ls n).phase = true
  stored : ∀ n c, claimOf ls' n = some c → storedSockets (ls' n).phase ≤ storedSockets (ls n).phase
  threads : ∀ t, Running ts' t → ∃ u, Running ts u ∧ u.session = t.session
  sockets : ∀ i, (slots' i).clientSock = (slots i).clientSock ∧
    (slots' i).serverSock = (slots i).serverSock

theorem Shrinks.owns (h : Shrinks ls ts slots ls' ts' slots') (howns : Owns ls' ts' c) :
    Owns ls ts c := by
  cases howns with
  | listener hclaim => exact Owns.listener (h.claims _ _ hclaim)
  | thread hrunning =>
    obtain ⟨u, hu, heq⟩ := h.threads _ hrunning
    rw [← heq]
    exact Owns.thread hu

theorem Kept.shrink (h : Kept ls ts slots) (hless : Shrinks ls ts slots ls' ts' slots') :
    Kept ls' ts' slots' := by
  refine ⟨⟨?_, ?_, ?_, ?_⟩, ?_, ?_⟩
  · intro c d hc hd
    exact h.one c d (hless.owns hc) (hless.owns hd)
  · intro n m c d hc hd
    exact h.listeners n m c d (hless.claims n c hc) (hless.claims m d hd)
  · intro n c t hc hyoung ht
    obtain ⟨u, hu, heq⟩ := hless.threads t ht
    rw [← heq]
    exact h.handed n c u (hless.claims n c hc) (hless.young n c hc hyoung) hu
  · intro t ht
    obtain ⟨u, hu, heq⟩ := hless.threads t ht
    obtain ⟨hclient, hserver⟩ := hless.sockets t.session.slot
    rw [hclient, hserver, ← heq]
    exact h.own u hu
  · intro n c hc hstored
    rw [(hless.sockets c.slot).1]
    exact h.client n c (hless.claims n c hc) (hstored.trans (hless.stored n c hc))
  · intro n c hc hstored
    rw [(hless.sockets c.slot).2]
    exact h.server n c (hless.claims n c hc) (hstored.trans (hless.stored n c hc))

/-- A listener goes on with the same claim, or without one. -/
theorem Shrinks.update {l : Listener} (hclaim : ∀ c, heldClaim l.phase = some c →
      claimOf ls n = some c ∧ (isYoung l.phase = true → isYoung (ls n).phase = true) ∧
        storedSockets l.phase ≤ storedSockets (ls n).phase)
    (hsockets : ∀ i, (slots' i).clientSock = (slots i).clientSock ∧
      (slots' i).serverSock = (slots i).serverSock) :
    Shrinks ls ts slots (Function.update ls n l) ts slots' := by
  refine ⟨?_, ?_, ?_, fun t ht => ⟨t, ht, rfl⟩, hsockets⟩
  · intro m c hc
    rcases eq_or_ne m n with rfl | hne
    · rw [claimOf, Function.update_self] at hc
      exact (hclaim c hc).1
    · rwa [claimOf, Function.update_of_ne hne] at hc
  · intro m c hc hyoung
    rcases eq_or_ne m n with rfl | hne
    · rw [claimOf, Function.update_self] at hc
      rw [Function.update_self] at hyoung
      exact (hclaim c hc).2.1 hyoung
    · rwa [Function.update_of_ne hne] at hyoung
  · intro m c hc
    rcases eq_or_ne m n with rfl | hne
    · rw [claimOf, Function.update_self] at hc
      rw [Function.update_self]
      exact (hclaim c hc).2.2
    · rw [Function.update_of_ne hne]

/-- A listener goes on without a claim. -/
theorem Kept.release (h : Kept ls ts slots) {l : Listener} (hnone : heldClaim l.phase = none) :
    Kept (Function.update ls n l) ts slots := by
  apply h.shrink
  apply Shrinks.update
  · intro c hc
    rw [hnone] at hc
    cases hc
  · intro i
    exact ⟨rfl, rfl⟩

/-- A session that has the same sockets is put into a slot. -/
theorem sockets_update {i : ℕ} {session : Session}
    (hclient : session.clientSock = (slots i).clientSock)
    (hserver : session.serverSock = (slots i).serverSock) (j : ℕ) :
    (Function.update slots i session j).clientSock = (slots j).clientSock ∧
      (Function.update slots i session j).serverSock = (slots j).serverSock := by
  rcases eq_or_ne j i with rfl | hne
  · rw [Function.update_self]
    exact ⟨hclient, hserver⟩
  · rw [Function.update_of_ne hne]
    exact ⟨rfl, rfl⟩

/-- The owners once listener `n` has found a slot. -/
theorem owns_update {l : Listener} (howns : Owns (Function.update ls n l) ts d)
    (hclaim : heldClaim l.phase = some c) : d = c ∨ Owns ls ts d := by
  cases howns with
  | listener h =>
    rename_i m
    rcases eq_or_ne m n with rfl | hne
    · left
      rw [claimOf, Function.update_self, hclaim] at h
      exact (Option.some.inj h).symm
    · right
      rw [claimOf, Function.update_of_ne hne] at h
      exact Owns.listener h
  | thread h => exact Or.inr (Owns.thread h)

def Free (ls : ℕ → Listener) (ts : List Thread) (i : ℕ) : Prop :=
  (∀ m c, claimOf ls m = some c → c.slot ≠ i) ∧ ∀ t, Running ts t → t.session.slot ≠ i

theorem Free.not_owned (h : Free ls ts d.slot) (howns : Owns ls ts c) : c.slot ≠ d.slot := by
  cases howns with
  | listener hclaim => exact h.1 _ _ hclaim
  | thread hrunning => exact h.2 _ hrunning

/-- A listener finds a slot that nobody uses. -/
theorem Kept.find (h : Kept ls ts slots) (hfree : Free ls ts c.slot) :
    Kept (setPhase ls n (.storingClient c)) ts slots := by
  have hself : claimOf (setPhase ls n (.storingClient c)) n = some c := claimOf_setPhase _ _ _
  have hcases : ∀ m d, claimOf (setPhase ls n (.storingClient c)) m = some d →
      (m = n ∧ d = c) ∨ (m ≠ n ∧ claimOf ls m = some d) := by
    intro m d hd
    rcases eq_or_ne m n with rfl | hne
    · rw [hself] at hd
      exact Or.inl ⟨rfl, (Option.some.inj hd).symm⟩
    · rw [claimOf_setPhase_ne hne] at hd
      exact Or.inr ⟨hne, hd⟩
  have howns : ∀ d, Owns (setPhase ls n (.storingClient c)) ts d → d = c ∨ Owns ls ts d :=
    fun d hd => owns_update hd rfl
  refine ⟨⟨?_, ?_, ?_, h.own⟩, ?_, ?_⟩
  · intro d e hd he heq
    rcases howns d hd with rfl | hd'
    · rcases howns e he with rfl | he'
      · rfl
      · exact absurd heq.symm (hfree.not_owned he')
    · rcases howns e he with rfl | he'
      · exact absurd heq (hfree.not_owned hd')
      · exact h.one d e hd' he' heq
  · intro m k d e hd he heq
    rcases hcases m d hd with ⟨rfl, rfl⟩ | ⟨_, hd'⟩
    · rcases hcases k e he with ⟨rfl, _⟩ | ⟨_, he'⟩
      · rfl
      · exact absurd heq.symm (hfree.1 k e he')
    · rcases hcases k e he with ⟨rfl, rfl⟩ | ⟨_, he'⟩
      · exact absurd heq (hfree.1 m d hd')
      · exact h.listeners m k d e hd' he' heq
  · intro m d t hd hyoung ht
    rcases hcases m d hd with ⟨rfl, rfl⟩ | ⟨hne, hd⟩
    · exact hfree.2 t ht
    · rw [setPhase_ne hne] at hyoung
      exact h.handed m d t hd hyoung ht
  · intro m d hd hstored
    rcases hcases m d hd with ⟨rfl, rfl⟩ | ⟨hne, hd⟩
    · rw [phase_setPhase] at hstored
      cases hstored
    · rw [setPhase_ne hne] at hstored
      exact h.client m d hd hstored
  · intro m d hd hstored
    rcases hcases m d hd with ⟨rfl, rfl⟩ | ⟨hne, hd⟩
    · rw [phase_setPhase] at hstored
      cases hstored
    · rw [setPhase_ne hne] at hstored
      exact h.server m d hd hstored

/-- A listener of which no thread has been created stores into its slot. -/
theorem Kept.store (h : Kept ls ts slots) {session : Session} (hclaim : claimOf ls n = some c)
    (hyoung : isYoung (ls n).phase = true) (hp : heldClaim p = some c) (hpyoung : isYoung p = true)
    (hclient : 1 ≤ storedSockets p → session.clientSock = c.client)
    (hserver : 2 ≤ storedSockets p → session.serverSock = c.server) :
    Kept (setPhase ls n p) ts (Function.update slots c.slot session) := by
  have hself : claimOf (setPhase ls n p) n = some c := (claimOf_setPhase _ _ _).trans hp
  have hsame : ∀ m, claimOf (setPhase ls n p) m = claimOf ls m := by
    intro m
    rcases eq_or_ne m n with rfl | hne
    · rw [hself, hclaim]
    · exact claimOf_setPhase_ne hne
  have hyoungs : ∀ m, isYoung (setPhase ls n p m).phase = isYoung (ls m).phase := by
    intro m
    rcases eq_or_ne m n with rfl | hne
    · rw [phase_setPhase, hpyoung, hyoung]
    · rw [setPhase_ne hne]
  have helse : ∀ m d, m ≠ n → claimOf ls m = some d → d.slot ≠ c.slot := by
    intro m d hne hd heq
    exact hne (h.listeners m n d c hd hclaim heq)
  have howns : ∀ d, Owns (setPhase ls n p) ts d → Owns ls ts d := by
    intro d hd
    cases hd with
    | listener hd =>
      rw [hsame] at hd
      exact Owns.listener hd
    | thread hd => exact Owns.thread hd
  refine ⟨⟨fun d e hd he => h.one d e (howns d hd) (howns e he), ?_, ?_, ?_⟩, ?_, ?_⟩
  · intro m k d e hd he
    rw [hsame] at hd he
    exact h.listeners m k d e hd he
  · intro m d t hd hfresh
    rw [hsame] at hd
    rw [hyoungs] at hfresh
    exact h.handed m d t hd hfresh
  · intro t ht
    rw [Function.update_of_ne (h.handed n c t hclaim hyoung ht)]
    exact h.own t ht
  · intro m d hd hstored
    rcases eq_or_ne m n with rfl | hne
    · rw [phase_setPhase] at hstored
      obtain rfl := Option.some.inj (hself.symm.trans hd)
      rw [Function.update_self]
      exact hclient hstored
    · rw [hsame] at hd
      rw [setPhase_ne hne] at hstored
      rw [Function.update_of_ne (helse m d hne hd)]
      exact h.client m d hd hstored
  · intro m d hd hstored
    rcases eq_or_ne m n with rfl | hne
    · rw [phase_setPhase] at hstored
      obtain rfl := Option.some.inj (hself.symm.trans hd)
      rw [Function.update_self]
      exact hserver hstored
    · rw [hsame] at hd
      rw [setPhase_ne hne] at hstored
      rw [Function.update_of_ne (helse m d hne hd)]
      exact h.server m d hd hstored

/-- A thread for the claim of a listener. -/
theorem Kept.spawn (h : Kept ls ts slots) (hclaim : claimOf ls n = some c)
    (hstored : storedSockets (ls n).phase = 2) (hp : ∀ d, heldClaim p = some d → d = c)
    (hpyoung : isYoung p = false) (ht : t.session = c)
    (hsockets : ∀ i, (slots' i).clientSock = (slots i).clientSock ∧
      (slots' i).serverSock = (slots i).serverSock) :
    Kept (setPhase ls n p) (ts ++ [t]) slots' := by
  have hclaims : ∀ m d, claimOf (setPhase ls n p) m = some d → claimOf ls m = some d := by
    intro m d hd
    rcases eq_or_ne m n with rfl | hne
    · rw [claimOf_setPhase] at hd
      rw [hclaim, hp d hd]
    · rwa [claimOf_setPhase_ne hne] at hd
  have hrunning : ∀ u, Running (ts ++ [t]) u → u = t ∨ Running ts u := by
    rintro u ⟨hmem, hlive⟩
    rcases List.mem_append.mp hmem with hmem | hmem
    · exact Or.inr ⟨hmem, hlive⟩
    · exact Or.inl (List.mem_singleton.mp hmem)
  have howns : ∀ d, Owns (setPhase ls n p) (ts ++ [t]) d → Owns ls ts d := by
    intro d hd
    cases hd with
    | listener hd => exact Owns.listener (hclaims _ _ hd)
    | thread hu =>
      rcases hrunning _ hu with rfl | hu
      · rw [ht]
        exact Owns.listener hclaim
      · exact Owns.thread hu
  have hbefore : ∀ m k, k ≤ storedSockets (setPhase ls n p m).phase → k ≤ 2 →
      k ≤ storedSockets (ls m).phase := by
    intro m k hk hle
    rcases eq_or_ne m n with rfl | hne
    · rwa [hstored]
    · rwa [setPhase_ne hne] at hk
  refine ⟨⟨fun d e hd he => h.one d e (howns d hd) (howns e he), ?_, ?_, ?_⟩, ?_, ?_⟩
  · intro m k d e hd he
    exact h.listeners m k d e (hclaims m d hd) (hclaims k e he)
  · intro m d u hd hyoung hu
    rcases eq_or_ne m n with rfl | hne
    · rw [phase_setPhase, hpyoung] at hyoung
      cases hyoung
    · rw [setPhase_ne hne] at hyoung
      rcases hrunning u hu with rfl | hu
      · intro heq
        rw [ht] at heq
        exact hne (h.listeners m n d c (hclaims m d hd) hclaim heq.symm)
      · exact h.handed m d u (hclaims m d hd) hyoung hu
  · intro u hu
    obtain ⟨hclient, hserver⟩ := hsockets u.session.slot
    rw [hclient, hserver]
    rcases hrunning u hu with rfl | hu
    · rw [ht]
      exact ⟨h.client n c hclaim (by omega), h.server n c hclaim (by omega)⟩
    · exact h.own u hu
  · intro m d hd hk
    rw [(hsockets d.slot).1]
    exact h.client m d (hclaims m d hd) (hbefore m 1 hk (by omega))
  · intro m d hd hk
    rw [(hsockets d.slot).2]
    exact h.server m d (hclaims m d hd) (hbefore m 2 hk (le_refl 2))

/-! ### Steps -/

variable {s s' init : State} {ok : Bool} {a : Action}

def KeptIn (s : State) : Prop := Kept s.listeners s.threads s.ctx.activeSessions

theorem claimOf_eq (hphase : (s.listeners n).phase = p) :
    claimOf s.listeners n = heldClaim p := congrArg heldClaim hphase

theorem free_of_not_busy {i : ℕ} (h : ¬ Busy s i) : Free s.listeners s.threads i := by
  constructor
  · intro m c hc heq
    exact h (Or.inl ⟨m, c, hc, heq⟩)
  · intro t ht heq
    exact h (Or.inr ⟨t, ht, heq⟩)

/-- A listener goes on with the same claim, and a slot changes but for its sockets. -/
theorem Kept.proceed (h : Kept s.listeners s.threads slots) {q : Phase}
    (hphase : (s.listeners n).phase = p) (hclaim : heldClaim q = heldClaim p)
    (hyoung : isYoung q = true → isYoung p = true) (hstored : storedSockets q ≤ storedSockets p)
    (hsockets : ∀ i, (slots' i).clientSock = (slots i).clientSock ∧
      (slots' i).serverSock = (slots i).serverSock) :
    Kept (setPhase s.listeners n q) s.threads slots' := by
  apply h.shrink
  apply Shrinks.update
  · intro c hc
    refine ⟨?_, ?_, ?_⟩
    · rw [claimOf_eq hphase, ← hclaim]
      exact hc
    · rwa [hphase]
    · rwa [hphase]
  · exact hsockets

theorem kept_listenerStep (h : KeptIn s) (hadmitted : Admitted s (.listen n ok))
    (hstep : listenerStep s n ok = some s') : KeptIn s' := by
  unfold KeptIn at *
  unfold listenerStep at hstep
  cases hphase : (s.listeners n).phase with
  | absent | joining c | returned => simp [hphase] at hstep
  | creating | accepting | opening client | connecting client server =>
    simp only [hphase] at hstep
    split at hstep
    all_goals
      obtain rfl := Option.some.inj hstep
      exact h.release rfl
  | reusing | binding | listening =>
    simp only [hphase] at hstep
    obtain rfl := Option.some.inj hstep
    cases ok
    all_goals exact h.release rfl
  | testing =>
    simp only [hphase] at hstep
    obtain rfl := Option.some.inj hstep
    cases hrunning : s.ctx.running
    all_goals exact h.release rfl
  | counting | closingServer client server | closingClient client | closing =>
    simp only [hphase] at hstep
    obtain rfl := Option.some.inj hstep
    exact h.release rfl
  | scanning client server i =>
    simp only [hphase] at hstep
    split at hstep
    · obtain rfl := Option.some.inj hstep
      exact h.release rfl
    · next hlt =>
      split at hstep
      · obtain rfl := Option.some.inj hstep
        exact h.release rfl
      · next hactive =>
        obtain rfl := Option.some.inj hstep
        apply h.find
        apply free_of_not_busy
        exact hadmitted client server i hphase (Nat.lt_of_not_le hlt) (by simpa using hactive)
  | storingClient c =>
    simp only [hphase] at hstep
    obtain rfl := Option.some.inj hstep
    exact h.store (claimOf_eq hphase) (congrArg isYoung hphase) rfl rfl (fun _ => rfl)
      (fun hk => absurd hk (Nat.not_succ_le_self 1))
  | storingServer c =>
    have hclaim := claimOf_eq hphase
    have hclient := h.client n c hclaim (by rw [hphase]; exact le_refl 1)
    simp only [hphase] at hstep
    obtain rfl := Option.some.inj hstep
    exact h.store hclaim (congrArg isYoung hphase) rfl rfl (fun _ => hclient) (fun _ => rfl)
  | activating c =>
    simp only [hphase] at hstep
    obtain rfl := Option.some.inj hstep
    exact h.proceed hphase rfl (fun _ => rfl) (le_refl 2) (sockets_update rfl rfl)
  | startingForward c =>
    simp only [hphase] at hstep
    split at hstep
    · obtain rfl := Option.some.inj hstep
      exact h.spawn (claimOf_eq hphase) (congrArg storedSockets hphase)
        (fun d hd => (Option.some.inj hd).symm) rfl rfl (sockets_update rfl rfl)
    · obtain rfl := Option.some.inj hstep
      exact h.proceed hphase rfl (fun _ => rfl) (le_refl 2) (fun _ => ⟨rfl, rfl⟩)
  | startingBackward c =>
    simp only [hphase] at hstep
    split at hstep
    · obtain rfl := Option.some.inj hstep
      refine h.spawn (claimOf_eq hphase) (congrArg storedSockets hphase) ?_ rfl rfl
        (sockets_update rfl rfl)
      intro d hd
      cases hd
    · obtain rfl := Option.some.inj hstep
      refine h.proceed hphase rfl ?_ (le_refl 2) (fun _ => ⟨rfl, rfl⟩)
      intro hyoung
      cases hyoung
  | undoing c joins =>
    simp only [hphase] at hstep
    obtain rfl := Option.some.inj hstep
    cases joins with
    | true =>
      refine h.proceed hphase rfl ?_ (le_refl 2) (sockets_update rfl rfl)
      intro hyoung
      cases hyoung
    | false =>
      refine h.shrink (Shrinks.update ?_ (sockets_update rfl rfl))
      intro d hd
      cases hd

/-- A step of a thread that has not returned; in its slot only the flag changes. -/
theorem threadStep_spec {t' : Thread} {session session' : Session} {received : Received}
    {sent : Sent} (h : threadStep t session received sent = some (t', session')) :
    t.point ≠ .returned ∧ t'.session = t.session ∧
      session'.clientSock = session.clientSock ∧ session'.serverSock = session.serverSock := by
  unfold threadStep at h
  cases hpoint : t.point with
  | returned => simp [hpoint] at h
  | readingSrc | readingDst | testing | relaying | clearing =>
    simp only [hpoint, Option.some.injEq, Prod.mk.injEq] at h
    obtain ⟨rfl, rfl⟩ := h
    exact ⟨by simp, rfl, rfl, rfl⟩

theorem kept_forwardStep (h : KeptIn s) {k : ℕ} {received : Received} {sent : Sent}
    (hstep : forwardStep s k received sent = some s') : KeptIn s' := by
  obtain ⟨t, t', session, hthread, hmove, rfl⟩ := forwardStep_cases hstep
  obtain ⟨hlive, hsame, hclient, hserver⟩ := threadStep_spec hmove
  apply Kept.shrink h
  refine ⟨fun _ _ hc => hc, fun _ _ _ hyoung => hyoung, fun _ _ _ => le_refl _, ?_,
    sockets_update hclient hserver⟩
  rintro u ⟨hmem, hu⟩
  rcases List.mem_or_eq_of_mem_set hmem with hold | rfl
  · exact ⟨u, ⟨hold, hu⟩, rfl⟩
  · exact ⟨t, ⟨List.mem_of_getElem? hthread, hlive⟩, hsame.symm⟩

/-- Ownership, with the main thread outside `start_service`. -/
structure Started (s : State) : Prop where
  kept : KeptIn s
  starter : s.starter = .returned .ok

theorem Started.step (h : Started s) (hadmitted : Admitted s a) (hstep : step s a = some s') :
    Started s' := by
  cases a with
  | start ok => simp [ServiceThreads.step, starterStep, h.starter] at hstep
  | listen n ok =>
    exact ⟨kept_listenerStep h.kept hadmitted hstep,
      (listenerStep_frame hstep).1.starter.trans h.starter⟩
  | forward k received sent =>
    exact ⟨kept_forwardStep h.kept hstep, (sameService_forwardStep hstep).starter.trans h.starter⟩

theorem Starts.started (h : Starts init) : Started init := by
  have hnone : ∀ n, claimOf init.listeners n = none := by
    intro n
    rcases h.listeners n with hphase | hphase
    · exact claimOf_eq hphase
    · exact claimOf_eq hphase
  have hidle : ∀ t, ¬ Running init.threads t := by
    rintro t ⟨hmem, _⟩
    rw [h.threads] at hmem
    cases hmem
  refine ⟨⟨⟨?_, ?_, ?_, ?_⟩, ?_, ?_⟩, h.starter⟩
  · intro c d hc
    cases hc with
    | listener hclaim => simp [hnone] at hclaim
    | thread hrunning => exact absurd hrunning (hidle _)
  · intro n m c d hc
    simp [hnone] at hc
  · intro n c t hc
    simp [hnone] at hc
  · intro t ht
    exact absurd ht (hidle t)
  · intro n c hc
    simp [hnone] at hc
  · intro n c hc
    simp [hnone] at hc

/-- A search that stops at a busy slot makes a second owner. -/
theorem admitted_of_slotsRight (hstep : step s a = some s') (hright : SlotsRight s') :
    Admitted s a := by
  cases a with
  | start ok => trivial
  | forward k received sent => trivial
  | listen n ok =>
    intro client server i hphase hlt hidle hbusy
    have hfound : s' = s.goto n (.storingClient ⟨client, server, i⟩) := by
      have hnot : ¬ maxRules ≤ i := Nat.not_le_of_lt hlt
      simp only [ServiceThreads.step, listenerStep, hphase, if_neg hnot, hidle] at hstep
      exact (Option.some.inj hstep).symm
    subst hfound
    have hclaim : claimOf (setPhase s.listeners n (.storingClient ⟨client, server, i⟩)) n =
        some ⟨client, server, i⟩ := claimOf_setPhase _ _ _
    rcases hbusy with ⟨m, c, hc, hslot⟩ | ⟨t, ht, hslot⟩
    · have hne : m ≠ n := by
        rintro rfl
        rw [claimOf_eq hphase] at hc
        cases hc
      apply hne
      apply hright.listeners m n c ⟨client, server, i⟩
      · exact (claimOf_setPhase_ne hne).trans hc
      · exact hclaim
      · exact hslot
    · refine hright.handed n ⟨client, server, i⟩ t hclaim ?_ ht hslot
      exact congrArg isYoung (phase_setPhase _ _ _)

/-- The slots are owned as they should be until a search stops at a busy slot,
and never after the first one that does. -/
theorem slots_right (hinit : Starts init) (hrun : Reachable init step Admitted s) :
    SlotsRight s ∧ ∀ a s', step s a = some s' → (SlotsRight s' ↔ Admitted s a) := by
  have hstarted : Started s :=
    hrun.invariant hinit.started fun _ _ _ h hadmitted hstep => h.step hadmitted hstep
  refine ⟨hstarted.kept.toOwnedOnce, ?_⟩
  intro a s' hstep
  constructor
  · exact admitted_of_slotsRight hstep
  · intro hadmitted
    exact (hstarted.step hadmitted hstep).kept.toOwnedOnce

def waiting : State where
  ctx := { Context.zero with running := true, mutex := 1, mux := 2 }
  starter := .returned .ok
  listeners := fun n => if n < 2 then ⟨n + 1, .testing⟩ else ⟨0, .absent⟩
  threads := []
  sockets := ⟨2, []⟩

theorem waiting_starts : Starts waiting := by
  refine ⟨⟨?_, ?_⟩, rfl, fun _ => rfl, rfl, ?_, rfl⟩
  · exact Nat.one_ne_zero
  · exact Nat.succ_ne_zero 1
  · intro n
    by_cases hn : n < 2
    · right
      exact congrArg Listener.phase (if_pos hn)
    · left
      exact congrArg Listener.phase (if_neg hn)

/-- Both listeners accept a connection and find slot 0 before either has set
its flag. -/
theorem slot_claimed_twice : ∃ init s, Starts init ∧
    Reachable init step (fun _ _ => True) s ∧ ¬ SlotsRight s := by
  obtain ⟨s, hs, hclaims⟩ : ∃ s, Reachable waiting step (fun _ _ => True) s ∧
      decide (claimOf s.listeners 0 = some ⟨3, 4, 0⟩ ∧ claimOf s.listeners 1 = some ⟨5, 6, 0⟩) =
        true :=
    exists_reachable [.listen 0 true, .listen 0 true, .listen 0 true, .listen 0 true,
      .listen 1 true, .listen 1 true, .listen 1 true, .listen 1 true, .listen 0 true,
      .listen 1 true] _ (by decide)
  obtain ⟨hfirst, hsecond⟩ := of_decide_eq_true hclaims
  refine ⟨waiting, s, waiting_starts, hs, ?_⟩
  intro hright
  have heq := hright.listeners 0 1 _ _ hfirst hsecond rfl
  cases heq

end Ppdb.SlotOwnership
