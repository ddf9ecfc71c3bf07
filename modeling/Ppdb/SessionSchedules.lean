import Ppdb.SlotOwnership

/-!
Schedules on which the flags of `active_sessions` tell the truth. While no
session is being set up and none has lost one of its two threads, a slot whose
flag is clear has nobody on it, so that a search may take it.
-/

namespace Ppdb.SessionSchedules

open RinetdContext ServiceThreads SessionRelay SlotOwnership Transitions

/-- Between the end of the search and the creation of the backward thread, or
the end of the undoing -/
def isSettingUp : Phase → Bool
  | .storingClient _ => true
  | .storingServer _ => true
  | .activating _ => true
  | .startingForward _ => true
  | .startingBackward _ => true
  | .undoing _ _ => true
  | .joining _ => true
  | _ => false

def isScanning : Phase → Bool
  | .scanning _ _ _ => true
  | _ => false

/-- No listener reads a flag while another one sets up a session, or while one
of the two threads of a session has returned and the other one has not. -/
def Ordered (s : State) : Action → Prop
  | .listen n _ => isScanning (s.listeners n).phase = true →
      (∀ m, m ≠ n → isSettingUp (s.listeners m).phase = false) ∧
        ∀ t ∈ s.threads, ∀ u ∈ s.threads, t.session = u.session →
          t.point = .returned → u.point = .returned
  | _ => True

def isStarting : Phase → Bool
  | .startingForward _ => true
  | .startingBackward _ => true
  | _ => false

def Ended (ts : List Thread) (c : Claim) : Prop := ∃ t ∈ ts, t.session = c ∧ t.point = .returned

/-- The flag is clear only where the end of a session has begun, or its set-up
has not ended. -/
structure Flagged (ls : ℕ → Listener) (ts : List Thread) (slots : ℕ → Session) : Prop where
  running : ∀ t, Running ts t → (slots t.session.slot).active = true ∨ Ended ts t.session ∨
    ∃ n, claimOf ls n = some t.session
  starting : ∀ n c, claimOf ls n = some c → isStarting (ls n).phase = true →
    (slots c.slot).active = true ∨ Ended ts c

variable {ls ls' : ℕ → Listener} {ts ts' : List Thread} {slots slots' : ℕ → Session} {n m k : ℕ}
  {p q : Phase} {c : Claim} {t t' : Thread} {s s' init : State} {a : Action} {ok : Bool}

def FlaggedIn (s : State) : Prop := Flagged s.listeners s.threads s.ctx.activeSessions

theorem isSettingUp_of_heldClaim (h : heldClaim p = some c) : isSettingUp p = true := by
  cases p <;> simp_all [heldClaim, isSettingUp]

/-! ### Listeners -/

/-- A listener moves on. Its claim is kept, or has a flag or an ended session to
show for it, and nobody else loses a flag. -/
theorem Flagged.update (h : Flagged ls ts slots) {l : Listener}
    (hended : ∀ d, Ended ts d → Ended ts' d)
    (hthreads : ∀ t, Running ts' t →
      (∃ u, Running ts u ∧ u.session = t.session) ∨ claimOf ls n = some t.session)
    (hheld : ∀ d, claimOf ls n = some d →
      heldClaim l.phase = some d ∨ (slots' d.slot).active = true ∨ Ended ts' d)
    (hactive : ∀ t, Running ts t → (slots t.session.slot).active = true →
      (slots' t.session.slot).active = true ∨ heldClaim l.phase = some t.session)
    (hothers : ∀ m d, m ≠ n → claimOf ls m = some d → (slots d.slot).active = true →
      (slots' d.slot).active = true)
    (hstarting : ∀ d, heldClaim l.phase = some d → isStarting l.phase = true →
      (slots' d.slot).active = true ∨ Ended ts' d) :
    Flagged (Function.update ls n l) ts' slots' := by
  have hself : claimOf (Function.update ls n l) n = heldClaim l.phase := by
    rw [claimOf, Function.update_self]
  have helse : ∀ m, m ≠ n → claimOf (Function.update ls n l) m = claimOf ls m := by
    intro m hne
    rw [claimOf, Function.update_of_ne hne, claimOf]
  have hclaimed : ∀ d, claimOf ls n = some d → (slots' d.slot).active = true ∨ Ended ts' d ∨
      ∃ m, claimOf (Function.update ls n l) m = some d := by
    intro d hd
    rcases hheld d hd with hsame | hflag | hend
    · exact Or.inr (Or.inr ⟨n, hself.trans hsame⟩)
    · exact Or.inl hflag
    · exact Or.inr (Or.inl hend)
  refine ⟨?_, ?_⟩
  · intro t ht
    rcases hthreads t ht with ⟨u, hu, hsame⟩ | hclaim
    · rw [← hsame]
      rcases h.running u hu with hflag | hend | ⟨m, hm⟩
      · rcases hactive u hu hflag with hflag' | hclaim
        · exact Or.inl hflag'
        · exact Or.inr (Or.inr ⟨n, hself.trans hclaim⟩)
      · exact Or.inr (Or.inl (hended _ hend))
      · rcases eq_or_ne m n with rfl | hne
        · exact hclaimed _ hm
        · exact Or.inr (Or.inr ⟨m, (helse m hne).trans hm⟩)
    · exact hclaimed _ hclaim
  · intro m d hd hm
    rcases eq_or_ne m n with rfl | hne
    · rw [Function.update_self] at hm
      exact hstarting d (hself.symm.trans hd) hm
    · rw [Function.update_of_ne hne] at hm
      rw [helse m hne] at hd
      rcases h.starting m d hd hm with hflag | hend
      · exact Or.inl (hothers m d hne hd hflag)
      · exact Or.inr (hended d hend)

/-- A listener moves on that keeps its claim, or has none yet, and clears no flag. -/
theorem Flagged.proceed (h : Flagged ls ts slots) {l : Listener}
    (hclaim : ∀ d, claimOf ls n = some d → heldClaim l.phase = some d)
    (hflags : ∀ i, (slots i).active = true → (slots' i).active = true)
    (hstarting : ∀ d, heldClaim l.phase = some d → isStarting l.phase = true →
      (slots' d.slot).active = true ∨ Ended ts d) :
    Flagged (Function.update ls n l) ts slots' :=
  h.update (fun _ hend => hend) (fun t ht => Or.inl ⟨t, ht, rfl⟩)
    (fun d hd => Or.inl (hclaim d hd)) (fun _ _ hflag => Or.inl (hflags _ hflag))
    (fun _ _ _ _ hflag => hflags _ hflag) hstarting

/-- Outside the set-up of a session no flag is touched. -/
theorem Flagged.outside (h : Flagged ls ts slots) {l : Listener} (hphase : (ls n).phase = p)
    (hnone : heldClaim p = none) (hstarting : isStarting l.phase = false) :
    Flagged (Function.update ls n l) ts slots := by
  refine h.proceed ?_ (fun _ hflag => hflag) ?_
  · intro d hd
    rw [claimOf, hphase, hnone] at hd
    cases hd
  · intro d _ htrue
    rw [hstarting] at htrue
    cases htrue

/-- A session is put into a slot that has the flag if the one before has it. -/
theorem active_update {i : ℕ} {session : Session}
    (h : (slots i).active = true → session.active = true) (j : ℕ)
    (hflag : (slots j).active = true) : (Function.update slots i session j).active = true := by
  rcases eq_or_ne j i with rfl | hne
  · rw [Function.update_self]
    exact h hflag
  · rwa [Function.update_of_ne hne]

theorem Ended.append (h : Ended ts c) (t : Thread) : Ended (ts ++ [t]) c := by
  obtain ⟨u, hu, hend⟩ := h
  exact ⟨u, List.mem_append_left _ hu, hend⟩

/-- A thread is created for the session that the listener sets up; the last one
ends the set-up. -/
theorem Flagged.spawn (h : Flagged ls ts slots) (hclaim : claimOf ls n = some c)
    (hstarting : isStarting (ls n).phase = true) (ht : t.session = c)
    (hq : ∀ d, heldClaim q = some d → d = c)
    (hflags : ∀ i, (slots i).active = true → (slots' i).active = true) :
    Flagged (setPhase ls n q) (ts ++ [t]) slots' := by
  have hshown : (slots' c.slot).active = true ∨ Ended (ts ++ [t]) c := by
    rcases h.starting n c hclaim hstarting with hflag | hend
    · exact Or.inl (hflags _ hflag)
    · exact Or.inr (hend.append t)
  refine h.update (fun _ hend => hend.append t) ?_ ?_ (fun _ _ hflag => Or.inl (hflags _ hflag))
    (fun _ _ _ _ hflag => hflags _ hflag) ?_
  · intro u ⟨hmem, hlive⟩
    rcases List.mem_append.mp hmem with hmem | hmem
    · exact Or.inl ⟨u, ⟨hmem, hlive⟩, rfl⟩
    · rw [List.mem_singleton.mp hmem, ht]
      exact Or.inr hclaim
  · intro d hd
    obtain rfl := Option.some.inj (hclaim.symm.trans hd)
    exact Or.inr hshown
  · intro d hd _
    rw [hq d hd]
    exact hshown

/-- The flag of a session that could not be set up is cleared. -/
theorem Flagged.undo (h : Flagged ls ts slots) (hkept : Kept ls ts slots)
    (hclaim : claimOf ls n = some c)
    (hleft : heldClaim q = some c ∨ heldClaim q = none ∧ isYoung (ls n).phase = true)
    (hq : isStarting q = false) {session : Session} :
    Flagged (setPhase ls n q) ts (Function.update slots c.slot session) := by
  have helse : ∀ {d : Claim}, d.slot ≠ c.slot → (slots d.slot).active = true →
      (Function.update slots c.slot session d.slot).active = true := by
    intro d hne hflag
    rwa [Function.update_of_ne hne]
  have hothers : ∀ m d, m ≠ n → claimOf ls m = some d → d.slot ≠ c.slot :=
    fun m d hne hd heq => hne (hkept.listeners m n d c hd hclaim heq)
  refine ⟨?_, ?_⟩
  · intro t ht
    rcases hleft with hheld | ⟨_, hyoung⟩
    · -- whatever runs on the slot is of the session that is being undone
      by_cases hslot : t.session.slot = c.slot
      · right; right
        have hsame := hkept.one _ _ (Owns.thread ht) (Owns.listener hclaim) hslot
        exact ⟨n, (claimOf_setPhase ls n q).trans (hheld.trans (congrArg some hsame.symm))⟩
      · rcases h.running t ht with hflag | hend | ⟨m, hm⟩
        · exact Or.inl (helse hslot hflag)
        · exact Or.inr (Or.inl hend)
        · refine Or.inr (Or.inr ⟨m, (claimOf_setPhase_ne ?_).trans hm⟩)
          rintro rfl
          exact hslot (congrArg Claim.slot (Option.some.inj (hm.symm.trans hclaim)))
    · have hslot := hkept.handed n c t hclaim hyoung ht
      rcases h.running t ht with hflag | hend | ⟨m, hm⟩
      · exact Or.inl (helse hslot hflag)
      · exact Or.inr (Or.inl hend)
      · refine Or.inr (Or.inr ⟨m, (claimOf_setPhase_ne ?_).trans hm⟩)
        rintro rfl
        exact hslot (congrArg Claim.slot (Option.some.inj (hm.symm.trans hclaim)))
  · intro m d hd hm
    rcases eq_or_ne m n with rfl | hne
    · rw [phase_setPhase, hq] at hm
      cases hm
    · rw [setPhase_ne hne] at hm
      rw [claimOf_setPhase_ne hne] at hd
      rcases h.starting m d hd hm with hflag | hend
      · exact Or.inl (helse (hothers m d hne hd) hflag)
      · exact Or.inr hend

theorem flagged_listenerStep (hkept : KeptIn s) (h : FlaggedIn s)
    (hstep : listenerStep s n ok = some s') : FlaggedIn s' := by
  unfold FlaggedIn at *
  unfold listenerStep at hstep
  cases hphase : (s.listeners n).phase with
  | absent | joining c | returned => simp [hphase] at hstep
  | creating | accepting | opening client | connecting client server =>
    simp only [hphase] at hstep
    split at hstep
    all_goals
      obtain rfl := Option.some.inj hstep
      exact h.outside hphase rfl rfl
  | reusing | binding | listening =>
    simp only [hphase] at hstep
    obtain rfl := Option.some.inj hstep
    cases ok
    all_goals exact h.outside hphase rfl rfl
  | testing =>
    simp only [hphase] at hstep
    obtain rfl := Option.some.inj hstep
    cases hrunning : s.ctx.running
    all_goals exact h.outside hphase rfl rfl
  | counting | closingServer client server | closingClient client | closing =>
    simp only [hphase] at hstep
    obtain rfl := Option.some.inj hstep
    exact h.outside hphase rfl rfl
  | scanning client server i =>
    simp only [hphase] at hstep
    split at hstep
    · obtain rfl := Option.some.inj hstep
      exact h.outside hphase rfl rfl
    · split at hstep
      all_goals
        obtain rfl := Option.some.inj hstep
        exact h.outside hphase rfl rfl
  | storingClient c | storingServer c =>
    have hclaim : claimOf s.listeners n = some c := claimOf_eq hphase
    simp only [hphase] at hstep
    obtain rfl := Option.some.inj hstep
    refine h.proceed (fun d hd => hclaim.symm.trans hd) (active_update fun hflag => hflag) ?_
    intro d _ hstarting
    cases hstarting
  | activating c =>
    have hclaim : claimOf s.listeners n = some c := claimOf_eq hphase
    simp only [hphase] at hstep
    obtain rfl := Option.some.inj hstep
    refine h.proceed (fun d hd => hclaim.symm.trans hd) (active_update fun _ => rfl) ?_
    intro d hd _
    cases hd
    left
    change (Function.update s.ctx.activeSessions c.slot _ c.slot).active = true
    rw [Function.update_self]
  | startingForward c =>
    have hclaim : claimOf s.listeners n = some c := claimOf_eq hphase
    simp only [hphase] at hstep
    split at hstep
    · obtain rfl := Option.some.inj hstep
      exact h.spawn hclaim (congrArg isStarting hphase) rfl
        (fun d hd => (Option.some.inj hd).symm) (active_update fun hflag => hflag)
    · obtain rfl := Option.some.inj hstep
      refine h.proceed (fun d hd => hclaim.symm.trans hd) (fun _ hflag => hflag) ?_
      intro d _ hstarting
      cases hstarting
  | startingBackward c =>
    have hclaim : claimOf s.listeners n = some c := claimOf_eq hphase
    simp only [hphase] at hstep
    split at hstep
    · obtain rfl := Option.some.inj hstep
      refine h.spawn hclaim (congrArg isStarting hphase) rfl ?_ (active_update fun hflag => hflag)
      intro d hd
      cases hd
    · obtain rfl := Option.some.inj hstep
      refine h.proceed (fun d hd => hclaim.symm.trans hd) (fun _ hflag => hflag) ?_
      intro d _ hstarting
      cases hstarting
  | undoing c joins =>
    have hclaim : claimOf s.listeners n = some c := claimOf_eq hphase
    simp only [hphase] at hstep
    obtain rfl := Option.some.inj hstep
    cases joins with
    | true => exact h.undo hkept hclaim (Or.inl rfl) rfl
    | false => exact h.undo hkept hclaim (Or.inr ⟨rfl, congrArg isYoung hphase⟩) rfl

/-! ### Forwarding threads -/

/-- A thread clears the flag when it returns, and at no other time. -/
theorem threadStep_active {session session' : Session} {received : Received} {sent : Sent}
    (h : threadStep t session received sent = some (t', session')) :
    session'.active = session.active ∨ t'.point = .returned := by
  unfold threadStep at h
  cases hpoint : t.point with
  | returned => simp [hpoint] at h
  | clearing =>
    simp only [hpoint, Option.some.injEq, Prod.mk.injEq] at h
    obtain ⟨rfl, rfl⟩ := h
    exact Or.inr rfl
  | readingSrc | readingDst | testing | relaying =>
    simp only [hpoint, Option.some.injEq, Prod.mk.injEq] at h
    obtain ⟨rfl, rfl⟩ := h
    exact Or.inl rfl

/-- A thread that has returned stays where it is. -/
theorem Ended.set (h : Ended ts c) (hthread : ts[k]? = some t) (hlive : t.point ≠ .returned) :
    Ended (ts.set k t') c := by
  obtain ⟨u, hu, hsession, hend⟩ := h
  obtain ⟨j, hj⟩ := List.mem_iff_getElem?.mp hu
  have hne : k ≠ j := by
    rintro rfl
    obtain rfl := Option.some.inj (hthread.symm.trans hj)
    exact hlive hend
  refine ⟨u, List.mem_iff_getElem?.mpr ⟨j, ?_⟩, hsession, hend⟩
  rw [List.getElem?_set_ne hne, hj]

theorem flagged_forwardStep (hkept : KeptIn s) (h : FlaggedIn s) {received : Received} {sent : Sent}
    (hstep : forwardStep s k received sent = some s') : FlaggedIn s' := by
  obtain ⟨t, t', session, hthread, hmove, rfl⟩ := forwardStep_cases hstep
  obtain ⟨hlive, hsame, _, _⟩ := threadStep_spec hmove
  have hrunning : Running s.threads t := ⟨List.mem_of_getElem? hthread, hlive⟩
  have hset : t' ∈ s.threads.set k t' := by
    obtain ⟨hk, _⟩ := List.getElem?_eq_some_iff.mp hthread
    exact List.mem_set hk t'
  -- the flag of a session of the slot is kept, or the thread that cleared it is its own
  have hshown : ∀ d, Owns s.listeners s.threads d → (s.ctx.activeSessions d.slot).active = true →
      (Function.update s.ctx.activeSessions t.session.slot session d.slot).active = true ∨
        Ended (s.threads.set k t') d := by
    intro d howns hflag
    rcases eq_or_ne d.slot t.session.slot with hslot | hne
    · rw [hslot, Function.update_self]
      rcases threadStep_active hmove with hactive | hend
      · left
        rw [hactive, ← hslot]
        exact hflag
      · right
        have heq := (Kept.toOwnedOnce hkept).one d t.session howns (Owns.thread hrunning) hslot
        exact ⟨t', hset, hsame.trans heq.symm, hend⟩
    · rw [Function.update_of_ne hne]
      exact Or.inl hflag
  refine ⟨?_, ?_⟩
  · rintro u ⟨hmem, hu⟩
    obtain ⟨v, hv, heq⟩ : ∃ v, Running s.threads v ∧ v.session = u.session := by
      rcases List.mem_or_eq_of_mem_set hmem with hold | rfl
      · exact ⟨u, ⟨hold, hu⟩, rfl⟩
      · exact ⟨t, hrunning, hsame.symm⟩
    rw [← heq]
    rcases Flagged.running h v hv with hflag | hend | hclaim
    · exact (hshown _ (Owns.thread hv) hflag).imp_right Or.inl
    · exact Or.inr (Or.inl (hend.set hthread hlive))
    · exact Or.inr (Or.inr hclaim)
  · intro m d hd hm
    rcases Flagged.starting h m d hd hm with hflag | hend
    · exact hshown d (Owns.listener hd) hflag
    · exact Or.inr (hend.set hthread hlive)

/-! ### Runs -/

/-- On an ordered schedule a search stops at no busy slot. -/
theorem admitted_of_ordered (h : FlaggedIn s) (hordered : Ordered s a) : Admitted s a := by
  cases a with
  | start ok => trivial
  | forward k received sent => trivial
  | listen n ok =>
    intro client server i hphase _ hclear hbusy
    obtain ⟨hsetup, hpairs⟩ := hordered (congrArg isScanning hphase)
    have hfree : ∀ m d, claimOf s.listeners m ≠ some d := by
      intro m d hd
      rcases eq_or_ne m n with rfl | hne
      · rw [claimOf_eq hphase] at hd
        cases hd
      · exact Bool.false_ne_true ((hsetup m hne).symm.trans (isSettingUp_of_heldClaim hd))
    rcases hbusy with ⟨m, c, hc, _⟩ | ⟨t, ht, rfl⟩
    · exact hfree m c hc
    · rcases h.running t ht with hflag | ⟨u, hu, hsession, hend⟩ | ⟨m, hm⟩
      · exact Bool.false_ne_true (hclear.symm.trans hflag)
      · exact ht.2 (hpairs u hu t ht.1 hsession hend)
      · exact hfree m _ hm

theorem flagged_of_starts (h : Starts init) : FlaggedIn init := by
  refine ⟨?_, ?_⟩
  · rintro t ⟨hmem, _⟩
    rw [h.threads] at hmem
    cases hmem
  · intro n c hc
    rcases h.listeners n with hphase | hphase
    · rw [claimOf_eq hphase] at hc
      cases hc
    · rw [claimOf_eq hphase] at hc
      cases hc

theorem FlaggedIn.step (hkept : KeptIn s) (h : FlaggedIn s) (hstarter : s.starter = .returned .ok)
    (hstep : step s a = some s') : FlaggedIn s' := by
  cases a with
  | start ok => simp [ServiceThreads.step, starterStep, hstarter] at hstep
  | listen n ok => exact flagged_listenerStep hkept h hstep
  | forward k received sent => exact flagged_forwardStep hkept h hstep

/-- On an ordered schedule every slot is owned as it should be, in every state. -/
theorem slots_right_of_ordered (hinit : Starts init) (hrun : Reachable init step Ordered s) :
    SlotsRight s := by
  have hall : Reachable init step Admitted s ∧ Started s ∧ FlaggedIn s := by
    refine hrun.invariant
      (I := fun s => Reachable init step Admitted s ∧ Started s ∧ FlaggedIn s)
      ⟨Reachable.init, hinit.started, flagged_of_starts hinit⟩ ?_
    intro s a s' ⟨hreach, hstarted, hflagged⟩ hordered hstep
    have hadmitted := admitted_of_ordered hflagged hordered
    exact ⟨hreach.step hadmitted hstep, hstarted.step hadmitted hstep,
      hflagged.step hstarted.kept hstarted.starter hstep⟩
  exact (slots_right hinit hall.1).1

/-- What `Ordered` asks for where there are two listeners. -/
def OrderedOfTwo (s : State) : Action → Prop
  | .listen n _ => isScanning (s.listeners n).phase = true →
      (∀ m < 2, m ≠ n → isSettingUp (s.listeners m).phase = false) ∧
        ∀ t ∈ s.threads, ∀ u ∈ s.threads, t.session = u.session →
          t.point = .returned → u.point = .returned
  | _ => True

instance (s : State) : (a : Action) → Decidable (OrderedOfTwo s a)
  | .start _ => isTrue trivial
  | .forward _ _ _ => isTrue trivial
  | .listen n _ => inferInstanceAs (Decidable (isScanning (s.listeners n).phase = true →
      (∀ m < 2, m ≠ n → isSettingUp (s.listeners m).phase = false) ∧
        ∀ t ∈ s.threads, ∀ u ∈ s.threads, t.session = u.session →
          t.point = .returned → u.point = .returned))

theorem absent_of_run {P : State → Action → Prop} (h : Reachable waiting step P s) :
    s.starter = .returned .ok ∧ ∀ m, 2 ≤ m → (s.listeners m).phase = .absent := by
  refine h.invariant
    (I := fun s => s.starter = .returned .ok ∧ ∀ m, 2 ≤ m → (s.listeners m).phase = .absent)
    ⟨rfl, fun m hm => congrArg Listener.phase (if_neg (Nat.not_lt_of_le hm))⟩ ?_
  intro s a s' ⟨hstarter, habsent⟩ _ hstep
  cases a with
  | start ok => simp [ServiceThreads.step, starterStep, hstarter] at hstep
  | listen n ok =>
    obtain ⟨hservice, hothers⟩ := listenerStep_frame hstep
    refine ⟨hservice.starter.trans hstarter, fun m hm => ?_⟩
    rcases eq_or_ne m n with rfl | hne
    · simp [ServiceThreads.step, listenerStep, habsent m hm] at hstep
    · rw [hothers m hne]
      exact habsent m hm
  | forward k received sent =>
    obtain ⟨t, t', session, _, _, rfl⟩ := forwardStep_cases hstep
    exact ⟨hstarter, habsent⟩

theorem ordered_of_two (h : Reachable waiting step OrderedOfTwo s) :
    Reachable waiting step Ordered s := by
  induction h with
  | init => exact .init
  | @step s s' a hs hadmitted hstep ih =>
    refine ih.step ?_ hstep
    cases a with
    | listen n ok =>
      intro hscanning
      obtain ⟨hsetup, hpairs⟩ := hadmitted hscanning
      refine ⟨fun m hne => ?_, hpairs⟩
      rcases Nat.lt_or_ge m 2 with hm | hm
      · exact hsetup m hm hne
      · rw [(absent_of_run hs).2 m hm]
        rfl
    | _ => trivial

/-- The session of the first listener ends, and that of the second one gets its
slot and its two threads. -/
theorem slots_right_of_ordered_twice : ∃ s, Reachable waiting step Ordered s ∧
    (s.threads.map fun t => (t.session, t.point)) = [(⟨3, 4, 0⟩, .returned),
      (⟨3, 4, 0⟩, .returned), (⟨5, 6, 0⟩, .readingSrc), (⟨5, 6, 0⟩, .readingSrc)] ∧
    SlotsRight s := by
  obtain ⟨s, hs, hthreads⟩ : ∃ s, Reachable waiting step OrderedOfTwo s ∧
      decide ((s.threads.map fun t => (t.session, t.point)) = [(⟨3, 4, 0⟩, .returned),
        (⟨3, 4, 0⟩, .returned), (⟨5, 6, 0⟩, .readingSrc), (⟨5, 6, 0⟩, .readingSrc)]) = true :=
    exists_reachable (List.replicate 11 (.listen 0 true) ++
      List.replicate 5 (.forward 0 .failed .failed) ++
      List.replicate 4 (.forward 1 .failed .failed) ++
      List.replicate 10 (.listen 1 true)) _ (by decide)
  have hrun := ordered_of_two hs
  exact ⟨s, hrun, of_decide_eq_true hthreads, slots_right_of_ordered waiting_starts hrun⟩

end Ppdb.SessionSchedules
