import Ppdb.ServiceThreads

/-!
The start of the service. `start_service` creates the listeners before it sets
`running`, the flag that each of them tests as soon as it listens; one that is
quicker leaves its loop and closes its socket, and the service runs without it.
-/

namespace Ppdb.ListenerStarts

open ErrorCodes RinetdContext SessionRelay ResourceLedgers Transitions ServiceThreads

/-- An initialised service that is not running and has an enabled rule; the
main thread is about to enter `start_service`. -/
structure Starts (s : State) : Prop where
  initialised : s.ctx.mutex ≠ 0 ∧ s.ctx.mux ≠ 0
  idle : s.ctx.running = false
  rules : s.ctx.ruleCount ≤ maxRules ∧ ∃ i < s.ctx.ruleCount, (s.ctx.rules i).enabled = true
  starter : s.starter = .entering
  listeners : ∀ n, s.listeners n = ⟨0, .absent⟩
  sockets : s.sockets = Ledger.empty

def isSetUp : Phase → Bool
  | .creating => true
  | .reusing => true
  | .binding => true
  | .listening => true
  | _ => false

def SetUp (s : State) : Action → Prop
  | .listen n ok => isSetUp (s.listeners n).phase = true → ok = true
  | _ => True

def Waits (s : State) : Action → Prop
  | .listen n _ => (s.listeners n).phase = .testing → s.ctx.running = true
  | _ => True

/-- The listener has left its loop, if it ever came there. -/
def HasLeft (p : Phase) : Prop := p = .closing ∨ p = .returned

/-- Once the service is started no listener of an enabled rule has left its
loop, or has had its socket closed. -/
def ListenersRight (s : State) : Prop :=
  s.starter = .returned .ok → ∀ i, (s.ctx.rules i).enabled = true →
    ¬ HasLeft (s.listeners i).phase ∧ (s.listeners i).sock ∉ s.sockets.returned

/-- The sockets of a connection that a listener has in hand. -/
def inHand : Phase → List ℕ
  | .opening client => [client]
  | .connecting client server => [client, server]
  | .scanning client server _ => [client, server]
  | .storingClient c => [c.client, c.server]
  | .storingServer c => [c.client, c.server]
  | .activating c => [c.client, c.server]
  | .startingForward c => [c.client, c.server]
  | .startingBackward c => [c.client, c.server]
  | .undoing c _ => [c.client, c.server]
  | .joining c => [c.client, c.server]
  | .closingServer client server => [client, server]
  | .closingClient client => [client]
  | _ => []

def Spare (ls : ℕ → Listener) (l : Ledger) (x : ℕ) : Prop :=
  0 < x ∧ x ≤ l.issued ∧ ∀ m, (ls m).sock ≠ x

/-- No listener has left, and nobody closes the socket of a listener. -/
structure Apart (ls : ℕ → Listener) (l : Ledger) : Prop where
  stays : ∀ n, ¬ HasLeft (ls n).phase
  issued : ∀ n, (ls n).sock ≤ l.issued
  returned : ∀ x ∈ l.returned, Spare ls l x
  hand : ∀ n, ∀ x ∈ inHand (ls n).phase, Spare ls l x

variable {s s' init : State} {a : Action} {n m x : ℕ} {ok : Bool} {ls : ℕ → Listener} {l : Ledger}
  {p q : Phase}

theorem sock_setPhase (ls : ℕ → Listener) (n : ℕ) (p : Phase) (m : ℕ) :
    (setPhase ls n p m).sock = (ls m).sock := by
  rcases eq_or_ne m n with rfl | hne
  · simp [setPhase]
  · simp [setPhase, hne]

theorem spare_setPhase : Spare (setPhase ls n p) l x ↔ Spare ls l x := by
  unfold Spare
  simp only [sock_setPhase]

theorem spare_giveBack {y : ℕ} : Spare ls (l.giveBack y) x ↔ Spare ls l x := Iff.rfl

/-- A listener goes on, with spare sockets in hand. -/
theorem Apart.goto (h : Apart ls l) (hp : ¬ HasLeft p) (hhand : ∀ x ∈ inHand p, Spare ls l x) :
    Apart (setPhase ls n p) l := by
  refine ⟨?_, ?_, ?_, ?_⟩
  · intro m
    rcases eq_or_ne m n with rfl | hne
    · simpa [setPhase] using hp
    · simpa [setPhase, hne] using h.stays m
  · intro m
    rw [sock_setPhase]
    exact h.issued m
  · intro x hx
    exact spare_setPhase.mpr (h.returned x hx)
  · intro m x hx
    apply spare_setPhase.mpr
    rcases eq_or_ne m n with rfl | hne
    · apply hhand
      simpa [setPhase] using hx
    · apply h.hand m x
      simpa [setPhase, hne] using hx

theorem Spare.issue (h : Spare ls l x) : Spare ls l.issue x :=
  ⟨h.1, Nat.le_succ_of_le h.2.1, h.2.2⟩

/-- A socket is opened; it is nobody's yet. -/
theorem Apart.issue (h : Apart ls l) : Apart ls l.issue :=
  ⟨h.stays, fun n => Nat.le_succ_of_le (h.issued n), fun x hx => (h.returned x hx).issue,
    fun n x hx => (h.hand n x hx).issue⟩

theorem Apart.spare_next (h : Apart ls l) : Spare ls l.issue l.next := by
  refine ⟨Nat.succ_pos _, le_refl _, ?_⟩
  intro m
  exact Nat.ne_of_lt (Nat.lt_succ_of_le (h.issued m))

/-- A spare socket is closed. -/
theorem Apart.close (h : Apart ls l) (hx : Spare ls l x) : Apart ls (l.giveBack x) := by
  refine ⟨h.stays, h.issued, ?_, h.hand⟩
  intro y hy
  rcases List.mem_cons.mp hy with rfl | hy
  · exact hx
  · exact h.returned y hy

/-- A listener appears, or gets its socket. -/
theorem Apart.put (h : Apart ls l) {y : Listener} (hleft : ¬ HasLeft y.phase)
    (hissued : y.sock ≤ l.issued) (hempty : inHand y.phase = [])
    (hreturned : y.sock ∉ l.returned) (hhand : ∀ m, y.sock ∉ inHand (ls m).phase) :
    Apart (Function.update ls n y) l := by
  have hspare : ∀ x, Spare ls l x → y.sock ≠ x → Spare (Function.update ls n y) l x := by
    rintro x ⟨hpos, hle, hnot⟩ hne
    refine ⟨hpos, hle, ?_⟩
    intro m
    rcases eq_or_ne m n with rfl | hmn
    · rwa [Function.update_self]
    · rw [Function.update_of_ne hmn]
      exact hnot m
  refine ⟨?_, ?_, ?_, ?_⟩
  · intro m
    rcases eq_or_ne m n with rfl | hne
    · rwa [Function.update_self]
    · rw [Function.update_of_ne hne]
      exact h.stays m
  · intro m
    rcases eq_or_ne m n with rfl | hne
    · rwa [Function.update_self]
    · rw [Function.update_of_ne hne]
      exact h.issued m
  · intro x hx
    apply hspare x (h.returned x hx)
    rintro rfl
    exact hreturned hx
  · intro m x hx
    rcases eq_or_ne m n with rfl | hne
    · rw [Function.update_self, hempty] at hx
      cases hx
    · rw [Function.update_of_ne hne] at hx
      apply hspare x (h.hand m x hx)
      rintro rfl
      exact hhand m hx

/-- A new listener has no socket yet. -/
theorem Apart.appear (h : Apart ls l) : Apart (Function.update ls n ⟨0, .creating⟩) l := by
  apply h.put
  · simp [HasLeft]
  · exact Nat.zero_le _
  · rfl
  · intro hx
    exact absurd (h.returned 0 hx).1 (lt_irrefl 0)
  · intro m hx
    exact absurd (h.hand m 0 hx).1 (lt_irrefl 0)

theorem Apart.create (h : Apart ls l) :
    Apart (Function.update ls n ⟨l.next, .reusing⟩) l.issue := by
  apply h.issue.put
  · simp [HasLeft]
  · exact le_refl _
  · rfl
  · intro hx
    exact absurd (h.returned _ hx).2.1 (Nat.not_succ_le_self _)
  · intro m hx
    exact absurd (h.hand m _ hx).2.1 (Nat.not_succ_le_self _)

/-! ### Steps -/

/-- What a step of listener `n` does to the sockets: those that it has in hand
afterwards it had before, or has just opened. -/
inductive Effect (ls : ℕ → Listener) (l : Ledger) (n : ℕ) : (ℕ → Listener) → Ledger → Prop
  | creates : Effect ls l n (Function.update ls n ⟨l.next, .reusing⟩) l.issue
  | goes {p q : Phase} (hphase : (ls n).phase = q) (hp : ¬ HasLeft p)
      (hhand : inHand p ⊆ inHand q) : Effect ls l n (setPhase ls n p) l
  | opens {p q : Phase} (hphase : (ls n).phase = q) (hp : ¬ HasLeft p)
      (hhand : inHand p ⊆ inHand q ++ [l.next]) : Effect ls l n (setPhase ls n p) l.issue
  | closes {p q : Phase} {x : ℕ} (hphase : (ls n).phase = q) (hp : ¬ HasLeft p)
      (hhand : inHand p ⊆ inHand q) (hx : x ∈ inHand q) :
      Effect ls l n (setPhase ls n p) (l.giveBack x)

theorem Apart.effect {ls' : ℕ → Listener} {l' : Ledger} (h : Apart ls l)
    (heffect : Effect ls l n ls' l') : Apart ls' l' := by
  have hspare : ∀ {q x}, (ls n).phase = q → x ∈ inHand q → Spare ls l x := by
    intro q x hphase hx
    exact h.hand n x (hphase ▸ hx)
  cases heffect with
  | creates => exact h.create
  | goes hphase hp hhand => exact h.goto hp fun x hx => hspare hphase (hhand hx)
  | opens hphase hp hhand =>
    refine h.issue.goto hp ?_
    intro x hx
    rcases List.mem_append.mp (hhand hx) with hold | hnew
    · exact (hspare hphase hold).issue
    · rw [List.mem_singleton.mp hnew]
      exact h.spare_next
  | closes hphase hp hhand hx =>
    refine (h.close (hspare hphase hx)).goto hp ?_
    intro y hy
    exact spare_giveBack.mpr (hspare hphase (hhand hy))

theorem listenerStep_effect (hserved : SetUp s (.listen n ok)) (hwaits : Waits s (.listen n ok))
    (hstays : ¬ HasLeft (s.listeners n).phase) (hstep : listenerStep s n ok = some s') :
    Effect s.listeners s.sockets n s'.listeners s'.sockets := by
  unfold listenerStep at hstep
  unfold SetUp at hserved
  unfold Waits at hwaits
  cases hphase : (s.listeners n).phase with
  | absent | joining c | returned => simp [hphase] at hstep
  | closing => exact absurd (Or.inl hphase) hstays
  | creating =>
    obtain rfl := hserved (by rw [hphase]; rfl)
    simp only [hphase, if_true] at hstep
    obtain rfl := Option.some.inj hstep
    exact Effect.creates
  | reusing | binding | listening =>
    obtain rfl := hserved (by rw [hphase]; rfl)
    simp only [hphase, if_true] at hstep
    obtain rfl := Option.some.inj hstep
    exact Effect.goes hphase (by simp [HasLeft]) (List.Subset.refl _)
  | testing =>
    simp only [hphase, hwaits hphase, if_true] at hstep
    obtain rfl := Option.some.inj hstep
    exact Effect.goes hphase (by simp [HasLeft]) (List.Subset.refl _)
  | accepting | opening client =>
    simp only [hphase] at hstep
    split at hstep
    · obtain rfl := Option.some.inj hstep
      exact Effect.opens hphase (by simp [HasLeft]) (List.Subset.refl _)
    · obtain rfl := Option.some.inj hstep
      exact Effect.goes hphase (by simp [HasLeft]) (List.Subset.refl _)
  | connecting client server =>
    simp only [hphase] at hstep
    split at hstep
    · obtain rfl := Option.some.inj hstep
      exact Effect.goes hphase (by simp [HasLeft]) (List.Subset.refl _)
    · obtain rfl := Option.some.inj hstep
      exact Effect.closes hphase (by simp [HasLeft]) (by simp [inHand]) (by simp [inHand])
  | scanning client server i =>
    simp only [hphase] at hstep
    split at hstep
    · obtain rfl := Option.some.inj hstep
      exact Effect.goes hphase (by simp [HasLeft]) (List.Subset.refl _)
    · split at hstep
      all_goals
        obtain rfl := Option.some.inj hstep
        exact Effect.goes hphase (by simp [HasLeft]) (List.Subset.refl _)
  | startingForward c =>
    simp only [hphase] at hstep
    split at hstep
    all_goals
      obtain rfl := Option.some.inj hstep
      exact Effect.goes hphase (by simp [HasLeft]) (List.Subset.refl _)
  | startingBackward c =>
    simp only [hphase] at hstep
    split at hstep
    · obtain rfl := Option.some.inj hstep
      exact Effect.goes hphase (by simp [HasLeft]) (List.nil_subset _)
    · obtain rfl := Option.some.inj hstep
      exact Effect.goes hphase (by simp [HasLeft]) (List.Subset.refl _)
  | undoing c joins =>
    simp only [hphase] at hstep
    obtain rfl := Option.some.inj hstep
    cases joins
    all_goals exact Effect.goes hphase (by simp [HasLeft]) (List.Subset.refl _)
  | storingClient c | storingServer c | activating c | counting =>
    simp only [hphase] at hstep
    obtain rfl := Option.some.inj hstep
    exact Effect.goes hphase (by simp [HasLeft]) (List.Subset.refl _)
  | closingServer client server =>
    simp only [hphase] at hstep
    obtain rfl := Option.some.inj hstep
    exact Effect.closes hphase (by simp [HasLeft]) (by simp [inHand]) (by simp [inHand])
  | closingClient client =>
    simp only [hphase] at hstep
    obtain rfl := Option.some.inj hstep
    exact Effect.closes hphase (by simp [HasLeft]) (List.nil_subset _) (by simp [inHand])

theorem apart_starterStep (h : Apart s.listeners s.sockets) (hstep : starterStep s ok = some s') :
    Apart s'.listeners s'.sockets := by
  have hadvances := starterStep_advances hstep
  rw [hadvances.sockets]
  rcases hadvances.listeners with hsame | ⟨i, _, _, _, hnew⟩
  · rw [hsame]
    exact h
  · rw [hnew]
    exact h.appear

/-- No step that sets a listener up and lets it wait makes it leave. -/
theorem apart_step (h : Apart s.listeners s.sockets) (hserved : SetUp s a) (hwaits : Waits s a)
    (hstep : step s a = some s') : Apart s'.listeners s'.sockets := by
  cases a with
  | start ok => exact apart_starterStep h hstep
  | listen n ok => exact h.effect (listenerStep_effect hserved hwaits (h.stays n) hstep)
  | forward k received sent =>
    obtain ⟨t, t', session, _, _, rfl⟩ := forwardStep_cases hstep
    exact h

theorem Starts.apart (h : Starts init) : Apart init.listeners init.sockets := by
  refine ⟨?_, ?_, ?_, ?_⟩
  · intro n
    rw [h.listeners n]
    simp [HasLeft]
  · intro n
    rw [h.listeners n]
    exact Nat.zero_le _
  · intro x hx
    rw [h.sockets] at hx
    cases hx
  · intro n x hx
    rw [h.listeners n] at hx
    cases hx

theorem Apart.listenersRight (h : Apart s.listeners s.sockets) : ListenersRight s := by
  intro _ i _
  refine ⟨h.stays i, ?_⟩
  intro hmem
  exact (h.returned _ hmem).2.2 i rfl

/-! ### Listeners that leave -/

def Begun (s : State) : Prop :=
  ∀ n, (s.listeners n).phase ≠ .absent →
    (s.ctx.rules n).enabled = true ∧ Passed s.starter n

theorem Starts.begun (h : Starts init) : Begun init := by
  intro n hphase
  rw [h.listeners n] at hphase
  exact absurd rfl hphase

theorem Begun.listenerStep (h : Begun s) (hstep : listenerStep s n ok = some s') : Begun s' := by
  obtain ⟨hsame, hothers⟩ := listenerStep_frame hstep
  intro m hphase
  rw [hsame.rules, hsame.starter]
  apply h m
  rcases eq_or_ne m n with rfl | hne
  · intro habsent
    simp [ServiceThreads.listenerStep, habsent] at hstep
  · rwa [hothers m hne] at hphase

theorem Begun.starterStep (h : Begun s) (hstep : starterStep s ok = some s') : Begun s' := by
  have hadvances := starterStep_advances hstep
  intro m hphase
  rw [hadvances.rules]
  rcases hadvances.listeners with hsame | ⟨i, _, hpassed, hon, hnew⟩
  · rw [hsame] at hphase
    exact ⟨(h m hphase).1, hadvances.passed m (h m hphase).2⟩
  · rcases eq_or_ne m i with rfl | hne
    · exact ⟨hon, hpassed⟩
    · rw [hnew, Function.update_of_ne hne] at hphase
      exact ⟨(h m hphase).1, hadvances.passed m (h m hphase).2⟩

theorem Begun.step (h : Begun s) (hstep : step s a = some s') : Begun s' := by
  cases a with
  | start ok => exact h.starterStep hstep
  | listen n ok => exact h.listenerStep hstep
  | forward k received sent =>
    obtain ⟨t, t', session, _, _, rfl⟩ := forwardStep_cases hstep
    exact h

theorem HasLeft.ne_absent (h : HasLeft p) : p ≠ .absent := by
  rintro rfl
  rcases h with h | h
  · cases h
  · cases h

/-- A listener that has left its loop does not come back, and there is no
second one for its rule. -/
theorem hasLeft_step (hbegun : Begun s) (hleft : HasLeft (s.listeners n).phase)
    (hstep : step s a = some s') : HasLeft (s'.listeners n).phase := by
  cases a with
  | start ok =>
    rcases (starterStep_advances hstep).listeners with hsame | ⟨i, hnot, _, _, hnew⟩
    · rwa [hsame]
    · have hne : n ≠ i := by
        rintro rfl
        exact hnot (hbegun n hleft.ne_absent).2
      rwa [hnew, Function.update_of_ne hne]
  | listen m ok =>
    rcases eq_or_ne n m with rfl | hne
    · rcases hleft with hclosing | hreturned
      · simp only [step, listenerStep, hclosing] at hstep
        obtain rfl := Option.some.inj hstep
        right
        simp [State.goto, setPhase]
      · simp [step, listenerStep, hreturned] at hstep
    · rwa [(listenerStep_frame hstep).2 n hne]
  | forward k received sent =>
    obtain ⟨t, t', session, _, _, rfl⟩ := forwardStep_cases hstep
    exact hleft

theorem hasLeft_run (hbegun : Begun s) (hleft : HasLeft (s.listeners n).phase) {t : State}
    (hrun : Reachable s step (fun _ _ => True) t) : Begun t ∧ HasLeft (t.listeners n).phase :=
  hrun.invariant (I := fun t => Begun t ∧ HasLeft (t.listeners n).phase) ⟨hbegun, hleft⟩
    fun _ _ _ h _ hstep => ⟨h.1.step hstep, hasLeft_step h.1 h.2 hstep⟩

/-- A listener that tests the flag too early leaves. -/
theorem exists_hasLeft (hwaits : ¬ Waits s a) (hstep : step s a = some s') :
    ∃ n, HasLeft (s'.listeners n).phase := by
  cases a with
  | start ok => exact absurd trivial hwaits
  | forward k received sent => exact absurd trivial hwaits
  | listen n ok =>
    obtain ⟨hphase, hidle⟩ := Classical.not_imp.mp hwaits
    refine ⟨n, Or.inl ?_⟩
    simp only [step, listenerStep, hphase, if_neg hidle] at hstep
    obtain rfl := Option.some.inj hstep
    simp [State.goto, setPhase]

/-- In every run in which each listener tests the flag after it has been set,
all listeners stay in their loops; after the first test that is too early the
started service never has them all. -/
theorem listeners_right (hinit : Starts init)
    (hrun : Reachable init step (fun s a => SetUp s a ∧ Waits s a) s) :
    ListenersRight s ∧ ∀ a s' t, ¬ Waits s a → step s a = some s' →
      Reachable s' step (fun _ _ => True) t → t.starter = .returned .ok → ¬ ListenersRight t := by
  have hapart : Apart s.listeners s.sockets :=
    hrun.invariant hinit.apart fun _ _ _ h hadmitted hstep =>
      apart_step h hadmitted.1 hadmitted.2 hstep
  have hbegun : Begun s := hrun.invariant hinit.begun fun _ _ _ h _ hstep => h.step hstep
  refine ⟨hapart.listenersRight, ?_⟩
  intro a s' t hwaits hstep hlater hstarted hright
  obtain ⟨n, hleft⟩ := exists_hasLeft hwaits hstep
  obtain ⟨hthen, hgone⟩ := hasLeft_run (hbegun.step hstep) hleft hlater
  have hon := (hthen n hgone.ne_absent).1
  exact (hright hstarted n hon).1 hgone

instance (s : State) (a : Action) : Decidable (SetUp s a) := by
  cases a
  all_goals
    unfold SetUp
    infer_instance

instance (s : State) (a : Action) : Decidable (Waits s a) := by
  cases a
  all_goals
    unfold Waits
    infer_instance

def oneRule : State where
  ctx :=
    { Context.zero with
      rules := fun _ => { Rule.zero with enabled := true }
      ruleCount := 1
      mutex := 1
      mux := 2 }
  starter := .entering
  listeners := fun _ => ⟨0, .absent⟩
  threads := []
  sockets := Ledger.empty

theorem oneRule_starts : Starts oneRule := by
  refine ⟨⟨?_, ?_⟩, rfl, ⟨?_, 0, ?_, rfl⟩, rfl, fun _ => rfl, rfl⟩
  · exact Nat.one_ne_zero
  · exact Nat.succ_ne_zero 1
  · decide
  · exact Nat.zero_lt_one

/-- The listener comes to its loop when `start_service` has returned. -/
theorem listeners_right_one : ∃ s, s.starter = .returned .ok ∧
    (s.listeners 0).phase = .accepting ∧ ListenersRight s := by
  obtain ⟨s, hs, htest⟩ : ∃ s, Reachable oneRule step (fun s a => SetUp s a ∧ Waits s a) s ∧
      decide (s.starter = .returned .ok ∧ (s.listeners 0).phase = .accepting) = true :=
    exists_reachable [.start true, .start true, .listen 0 true, .listen 0 true, .listen 0 true,
      .listen 0 true, .start true, .listen 0 true] _ (by decide)
  obtain ⟨hstarter, hphase⟩ := of_decide_eq_true htest
  exact ⟨s, hstarter, hphase, (listeners_right oneRule_starts hs).1⟩

/-- The listener tests the flag before `start_service` sets it. -/
theorem listener_leaves : ∃ init s, Starts init ∧ Reachable init step SetUp s ∧
    ¬ ListenersRight s := by
  obtain ⟨s, hs, htest⟩ : ∃ s, Reachable oneRule step SetUp s ∧
      decide (s.starter = .returned .ok ∧ (s.listeners 0).phase = .closing ∧
        (s.ctx.rules 0).enabled = true) = true :=
    exists_reachable [.start true, .start true, .listen 0 true, .listen 0 true, .listen 0 true,
      .listen 0 true, .listen 0 true, .start true] _ (by decide)
  obtain ⟨hstarter, hphase, henabled⟩ := of_decide_eq_true htest
  refine ⟨oneRule, s, oneRule_starts, hs, ?_⟩
  intro hright
  exact (hright hstarter 0 henabled).1 (Or.inl hphase)

end Ppdb.ListenerStarts
