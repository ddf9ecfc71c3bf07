import Ppdb.RinetdContext

/-!
The threads that a start of the service creates and joins. `start_service`
means to undo a start that fails half way by `stop_service`, which refuses to
work as long as `running` is not set; the listeners created so far stay.
-/

namespace Ppdb.ListenerRollback

open ErrorCodes RinetdContext

/-- A listener created for a rule, its handle stored in an entry of
`listener_threads`, or the thread of a handle joined. -/
inductive Event
  | created (rule entry handle : ℕ)
  | joined (handle : ℕ)
  deriving DecidableEq, Repr

def Event.rule? : Event → Option ℕ
  | .created rule _ _ => some rule
  | .joined _ => none

def Event.entry? : Event → Option ℕ
  | .created _ entry _ => some entry
  | .joined _ => none

def createListenerEvents (ctx : Context) (rule handle : ℕ) : List Event :=
  match (List.range maxRules).find? fun i => ctx.listenerThreads i = 0 with
  | none => []
  | some i => if handle = 0 then [] else [.created rule i handle]

def stopServiceEvents (ctx : Context) : List Event :=
  if ctx.mutex = 0 then []
  else if ctx.running = false then []
  else (((List.range maxRules).map ctx.listenerThreads).filter (· ≠ 0)).map .joined

def startListenersEvents (ctx : Context) (handles : ℕ → ℕ) : List ℕ → List Event
  | [] => []
  | i :: rest =>
    if (ctx.rules i).enabled then
      match createListener ctx (handles i) with
      | (ctx', .ok) =>
        createListenerEvents ctx i (handles i) ++ startListenersEvents ctx' handles rest
      | (ctx', _) => stopServiceEvents ctx'
    else startListenersEvents ctx handles rest

def startServiceEvents (ctx : Context) (handles : ℕ → ℕ) : List Event :=
  if ctx.mutex = 0 then []
  else if ctx.running then []
  else if ctx.ruleCount = 0 then []
  else startListenersEvents ctx handles (List.range ctx.ruleCount)

def enabledAmong (ctx : Context) (is : List ℕ) : List ℕ :=
  is.filter fun i => (ctx.rules i).enabled

def enabledRules (ctx : Context) : List ℕ := enabledAmong ctx (List.range ctx.ruleCount)

def freeEntries (ctx : Context) : List ℕ :=
  (List.range maxRules).filter fun i => ctx.listenerThreads i = 0

/-- One listener for each of the rules, each in an entry of its own. -/
def StartedAll (events : List Event) (rules : List ℕ) (threads : ℕ → ℕ) : Prop :=
  events.filterMap Event.rule? = rules ∧ (events.filterMap Event.entry?).Nodup ∧
    ∀ i k h, Event.created i k h ∈ events → h ≠ 0 ∧ threads k = h

/-- A start creates one listener for each enabled rule, or else leaves none. -/
def StartRight (ctx : Context) (handles : ℕ → ℕ) : Prop :=
  let (after, e) := startService ctx handles
  let events := startServiceEvents ctx handles
  (e = .ok → StartedAll events (enabledRules ctx) after.listenerThreads) ∧
  (e ≠ .ok → after.running = false ∧ ∀ i k h, Event.created i k h ∈ events →
    Event.joined h ∈ events ∧ after.listenerThreads k ≠ h)

def AllServed (ctx : Context) (handles : ℕ → ℕ) : Prop :=
  (∀ i ∈ enabledRules ctx, handles i ≠ 0) ∧ (enabledRules ctx).length ≤ (freeEntries ctx).length

def FirstRefused (ctx : Context) (handles : ℕ → ℕ) : Prop :=
  freeEntries ctx ≠ [] ∧ ∃ i, (enabledRules ctx).head? = some i ∧ handles i = 0

variable {ctx ctx' : Context} {handles : ℕ → ℕ} {i k handle : ℕ} {is entries : List ℕ}

/-! ### One listener -/

theorem find_free (ctx : Context) :
    (List.range maxRules).find? (fun i => ctx.listenerThreads i = 0) = (freeEntries ctx).head? :=
  List.head?_filter.symm

theorem createListener_full (h : freeEntries ctx = []) :
    createListener ctx handle = (ctx, .ok) ∧ createListenerEvents ctx i handle = [] := by
  simp [createListener, createListenerEvents, find_free, h]

theorem createListener_refused (h : freeEntries ctx = k :: entries) :
    createListener ctx 0 = (ctx, .system) := by
  simp [createListener, find_free, h]

def withListener (ctx : Context) (k handle : ℕ) : Context :=
  { ctx with listenerThreads := Function.update ctx.listenerThreads k handle }

theorem createListener_served (h : freeEntries ctx = k :: entries) (hhandle : handle ≠ 0) :
    createListener ctx handle = (withListener ctx k handle, .ok) ∧
      createListenerEvents ctx i handle = [.created i k handle] := by
  simp [createListener, createListenerEvents, find_free, h, hhandle, withListener]

theorem freeEntries_withListener (h : freeEntries ctx = k :: entries) (hhandle : handle ≠ 0) :
    freeEntries (withListener ctx k handle) = entries := by
  have hnodup : (k :: entries).Nodup := h ▸ List.nodup_range.filter _
  have hsplit : freeEntries (withListener ctx k handle) = (freeEntries ctx).filter (· ≠ k) := by
    unfold freeEntries
    rw [List.filter_filter]
    apply List.filter_congr
    intro j _
    rcases eq_or_ne j k with rfl | hne
    · simp [withListener, hhandle]
    · simp [withListener, hne]
  rw [hsplit, h, List.filter_cons_of_neg (by simp), List.filter_eq_self]
  intro j hj
  have hne : j ≠ k := by
    intro heq
    exact (List.nodup_cons.mp hnodup).1 (heq ▸ hj)
  simpa using hne

/-! ### The loop over the rules -/

section Loop
variable {rest : List ℕ}

theorem loop_disabled (hoff : ¬ (ctx.rules i).enabled = true) :
    startListeners ctx handles (i :: rest) = startListeners ctx handles rest ∧
      startListenersEvents ctx handles (i :: rest) = startListenersEvents ctx handles rest :=
  ⟨if_neg hoff, if_neg hoff⟩

theorem loop_full (hon : (ctx.rules i).enabled = true) (hfull : freeEntries ctx = []) :
    startListeners ctx handles (i :: rest) = startListeners ctx handles rest ∧
      startListenersEvents ctx handles (i :: rest) = startListenersEvents ctx handles rest := by
  obtain ⟨hcreate, hevents⟩ : createListener ctx (handles i) = (ctx, .ok) ∧
      createListenerEvents ctx i (handles i) = [] := createListener_full hfull
  simp [startListeners, startListenersEvents, hon, hcreate, hevents]

theorem stopServiceEvents_idle (h : ctx.running = false) : stopServiceEvents ctx = [] := by
  simp [stopServiceEvents, h]

theorem loop_refused (hidle : ctx.running = false) (hon : (ctx.rules i).enabled = true)
    (hfree : freeEntries ctx = k :: entries) (hzero : handles i = 0) :
    startListeners ctx handles (i :: rest) = (ctx, .system) ∧
      startListenersEvents ctx handles (i :: rest) = [] := by
  have hcreate := createListener_refused hfree
  have hstop : stopService ctx = (ctx, .notSupported) := by simp [stopService, hidle]
  simp [startListeners, startListenersEvents, hon, hzero, hcreate, hstop,
    stopServiceEvents_idle hidle]

theorem loop_served (hon : (ctx.rules i).enabled = true) (hfree : freeEntries ctx = k :: entries)
    (hhandle : handles i ≠ 0) :
    startListeners ctx handles (i :: rest) =
        startListeners (withListener ctx k (handles i)) handles rest ∧
      startListenersEvents ctx handles (i :: rest) = .created i k (handles i) ::
        startListenersEvents (withListener ctx k (handles i)) handles rest := by
  obtain ⟨hcreate, hevents⟩ := createListener_served (i := i) hfree hhandle
  simp [startListeners, startListenersEvents, hon, hcreate, hevents]

end Loop

theorem enabledAmong_cons (hon : (ctx.rules i).enabled = true) :
    enabledAmong ctx (i :: is) = i :: enabledAmong ctx is := List.filter_cons_of_pos hon

theorem enabledAmong_skip (hoff : ¬ (ctx.rules i).enabled = true) :
    enabledAmong ctx (i :: is) = enabledAmong ctx is := List.filter_cons_of_neg hoff

/-- With threads and entries for all rules the loop starts them all. -/
theorem startListeners_served (hserved : ∀ i ∈ enabledAmong ctx is, handles i ≠ 0)
    (hroom : (enabledAmong ctx is).length ≤ (freeEntries ctx).length) : ∃ threads,
    startListeners ctx handles is = ({ ctx with listenerThreads := threads }, .ok) ∧
    (startListenersEvents ctx handles is).filterMap Event.rule? = enabledAmong ctx is ∧
    (startListenersEvents ctx handles is).filterMap Event.entry? <+: freeEntries ctx ∧
    (∀ i k h, Event.created i k h ∈ startListenersEvents ctx handles is →
      h ≠ 0 ∧ threads k = h) ∧
    ∀ k, k ∉ (startListenersEvents ctx handles is).filterMap Event.entry? →
      threads k = ctx.listenerThreads k := by
  induction is generalizing ctx with
  | nil => exact ⟨ctx.listenerThreads, rfl, rfl, List.nil_prefix, by simp [startListenersEvents],
      fun _ _ => rfl⟩
  | cons i rest ih =>
    by_cases hon : (ctx.rules i).enabled = true
    · rw [enabledAmong_cons hon] at hserved hroom ⊢
      have hhandle := hserved i List.mem_cons_self
      obtain ⟨k, entries, hfree⟩ : ∃ k entries, freeEntries ctx = k :: entries := by
        apply List.exists_cons_of_length_pos
        exact Nat.lt_of_lt_of_le (Nat.succ_pos _) hroom
      have hentries := freeEntries_withListener hfree hhandle
      obtain ⟨threads, heq, hrules, htaken, hstored, hothers⟩ :=
        @ih (withListener ctx k (handles i)) (fun j hj => hserved j (List.mem_cons_of_mem _ hj))
          (by rw [hfree] at hroom; rw [hentries]; exact Nat.le_of_succ_le_succ hroom)
      rw [hentries] at htaken
      have hnodup : (k :: entries).Nodup := hfree ▸ List.nodup_range.filter _
      have hk : threads k = handles i := by
        rw [hothers k ?_]
        · exact Function.update_self _ _ _
        · intro hmem
          exact (List.nodup_cons.mp hnodup).1 (htaken.subset hmem)
      rw [(loop_served hon hfree hhandle).1, (loop_served hon hfree hhandle).2, hfree]
      refine ⟨threads, heq, congrArg (i :: ·) hrules, ?_, ?_, ?_⟩
      · exact (List.cons_prefix_cons).mpr ⟨rfl, htaken⟩
      · intro j l h hmem
        rcases List.mem_cons.mp hmem with hhead | htail
        · injection hhead with _ hl hh
          rw [hl, hh]
          exact ⟨hhandle, hk⟩
        · exact hstored j l h htail
      · intro l hl
        have hne : l ≠ k := fun heq => hl (heq ▸ List.mem_cons_self)
        rw [hothers l fun hmem => hl (List.mem_cons_of_mem _ hmem)]
        exact Function.update_of_ne hne _ _
    · rw [enabledAmong_skip hon] at hserved hroom ⊢
      rw [(loop_disabled hon).1, (loop_disabled hon).2]
      exact ih hserved hroom

/-- A loop of a service that is not running creates threads only. -/
theorem created_of_mem (hidle : ctx.running = false) {e : Event}
    (he : e ∈ startListenersEvents ctx handles is) :
    ∃ i k, e = .created i k (handles i) ∧ handles i ≠ 0 := by
  induction is generalizing ctx with
  | nil => cases he
  | cons i rest ih =>
    by_cases hon : (ctx.rules i).enabled = true
    · cases hfree : freeEntries ctx with
      | nil =>
        rw [(loop_full hon hfree).2] at he
        exact ih hidle he
      | cons k entries =>
        by_cases hhandle : handles i = 0
        · rw [(loop_refused hidle hon hfree hhandle).2] at he
          cases he
        · rw [(loop_served hon hfree hhandle).2] at he
          rcases List.mem_cons.mp he with rfl | he
          · exact ⟨i, k, rfl, hhandle⟩
          · exact @ih (withListener ctx k (handles i)) hidle he
    · rw [(loop_disabled hon).2] at he
      exact ih hidle he

/-- Each thread that is created takes a free entry. -/
theorem length_events_le (hidle : ctx.running = false) (is : List ℕ) :
    (startListenersEvents ctx handles is).length ≤ (freeEntries ctx).length := by
  induction is generalizing ctx with
  | nil => exact Nat.zero_le _
  | cons i rest ih =>
    by_cases hon : (ctx.rules i).enabled = true
    · cases hfree : freeEntries ctx with
      | nil =>
        rw [(loop_full hon hfree).2, ← hfree]
        exact ih hidle
      | cons k entries =>
        by_cases hhandle : handles i = 0
        · rw [(loop_refused hidle hon hfree hhandle).2]
          exact Nat.zero_le _
        · rw [(loop_served hon hfree hhandle).2]
          have hrest := @ih (withListener ctx k (handles i)) hidle
          rw [freeEntries_withListener hfree hhandle] at hrest
          exact Nat.succ_le_succ hrest
    · rw [(loop_disabled hon).2]
      exact ih hidle

theorem startListeners_full (hfull : freeEntries ctx = []) (is : List ℕ) :
    startListeners ctx handles is = (ctx, .ok) := by
  induction is with
  | nil => rfl
  | cons i rest ih =>
    by_cases hon : (ctx.rules i).enabled = true
    · rw [(loop_full hon hfull).1]
      exact ih
    · rw [(loop_disabled hon).1]
      exact ih

/-- A failing loop that has created nothing fails at the first enabled rule. -/
theorem refused_of_no_events (hfails : (startListeners ctx handles is).2 ≠ .ok)
    (hnone : startListenersEvents ctx handles is = []) : freeEntries ctx ≠ [] ∧
      ∃ i, (enabledAmong ctx is).head? = some i ∧ handles i = 0 := by
  induction is with
  | nil => exact absurd rfl hfails
  | cons i rest ih =>
    by_cases hon : (ctx.rules i).enabled = true
    · cases hfree : freeEntries ctx with
      | nil =>
        rw [startListeners_full hfree] at hfails
        exact absurd rfl hfails
      | cons k entries =>
        refine ⟨List.cons_ne_nil _ _, i, by rw [enabledAmong_cons hon]; rfl, ?_⟩
        by_contra hhandle
        rw [(loop_served hon hfree hhandle).2] at hnone
        cases hnone
    · rw [(loop_disabled hon).1] at hfails
      rw [(loop_disabled hon).2] at hnone
      rw [enabledAmong_skip hon]
      exact ih hfails hnone

theorem startListeners_refused (hidle : ctx.running = false) (hfree : freeEntries ctx ≠ [])
    (hfirst : (enabledAmong ctx is).head? = some i) (hzero : handles i = 0) :
    startListeners ctx handles is = (ctx, .system) ∧ startListenersEvents ctx handles is = [] := by
  obtain ⟨k, entries, hcons⟩ := List.exists_cons_of_ne_nil hfree
  induction is with
  | nil => cases hfirst
  | cons j rest ih =>
    by_cases hon : (ctx.rules j).enabled = true
    · rw [enabledAmong_cons hon] at hfirst
      obtain rfl := Option.some.inj hfirst
      exact loop_refused hidle hon hcons hzero
    · rw [enabledAmong_skip hon] at hfirst
      rw [(loop_disabled hon).1, (loop_disabled hon).2]
      exact ih hfirst

/-! ### The start -/

theorem startService_idle (hmutex : ctx.mutex ≠ 0) (hidle : ctx.running = false)
    (hrules : ctx.ruleCount ≠ 0) : startService ctx handles =
      match startListeners ctx handles (List.range ctx.ruleCount) with
      | (ctx, .ok) => ({ ctx with running := true }, .ok)
      | (ctx, e) => (ctx, e) := by
  have hstopped : ¬ ctx.running = true := by simp [hidle]
  unfold startService
  exact ((if_neg hmutex).trans (if_neg hstopped)).trans (if_neg hrules)

theorem startServiceEvents_idle (hmutex : ctx.mutex ≠ 0) (hidle : ctx.running = false)
    (hrules : ctx.ruleCount ≠ 0) : startServiceEvents ctx handles =
      startListenersEvents ctx handles (List.range ctx.ruleCount) := by
  simp [startServiceEvents, hmutex, hidle, hrules]

theorem startRight_of_no_rules (hmutex : ctx.mutex ≠ 0) (hidle : ctx.running = false)
    (hrules : ctx.ruleCount = 0) : StartRight ctx handles := by
  simp [StartRight, startService, startServiceEvents, hmutex, hidle, hrules]

theorem startRight_of_served (hmutex : ctx.mutex ≠ 0) (hidle : ctx.running = false)
    (hrules : ctx.ruleCount ≠ 0) (h : AllServed ctx handles) : StartRight ctx handles := by
  obtain ⟨threads, heq, hlisteners, htaken, hstored, _⟩ := startListeners_served h.1 h.2
  unfold StartRight
  rw [startService_idle hmutex hidle hrules, startServiceEvents_idle hmutex hidle hrules, heq]
  refine ⟨fun _ => ⟨hlisteners, ?_, hstored⟩, fun hfails => absurd rfl hfails⟩
  exact (htaken.sublist.nodup (List.nodup_range.filter _))

theorem startRight_of_refused (hmutex : ctx.mutex ≠ 0) (hidle : ctx.running = false)
    (hrules : ctx.ruleCount ≠ 0) (h : FirstRefused ctx handles) : StartRight ctx handles := by
  obtain ⟨hfree, i, hfirst, hzero⟩ := h
  obtain ⟨heq, hevents⟩ := startListeners_refused hidle hfree hfirst hzero
  unfold StartRight
  rw [startService_idle hmutex hidle hrules, startServiceEvents_idle hmutex hidle hrules, heq,
    hevents]
  refine ⟨?_, fun _ => ⟨hidle, ?_⟩⟩
  · intro hok
    cases hok
  · intro i k h hmem
    cases hmem

theorem allServed_of_started (hidle : ctx.running = false) {threads : ℕ → ℕ}
    (h : StartedAll (startListenersEvents ctx handles (List.range ctx.ruleCount))
      (enabledRules ctx) threads) : AllServed ctx handles := by
  have hmem := @created_of_mem ctx handles (List.range ctx.ruleCount) hidle
  refine ⟨?_, ?_⟩
  · intro i hi
    rw [← h.1, List.mem_filterMap] at hi
    obtain ⟨e, he, hrule⟩ := hi
    obtain ⟨j, k, rfl, hne⟩ := hmem he
    obtain rfl := Option.some.inj hrule
    exact hne
  · rw [← h.1]
    exact Nat.le_trans (List.length_filterMap_le _ _) (length_events_le hidle _)

/-- A start is right exactly if no thread is refused and there are entries for
all listeners, or if the very first thread is refused. -/
theorem startRight_iff (hmutex : ctx.mutex ≠ 0) (hidle : ctx.running = false) :
    StartRight ctx handles ↔ AllServed ctx handles ∨ FirstRefused ctx handles := by
  by_cases hrules : ctx.ruleCount = 0
  · refine iff_of_true (startRight_of_no_rules hmutex hidle hrules) (Or.inl ?_)
    simp [AllServed, enabledRules, enabledAmong, hrules]
  constructor
  · intro hright
    unfold StartRight at hright
    rw [startService_idle hmutex hidle hrules, startServiceEvents_idle hmutex hidle hrules]
      at hright
    cases hloop : startListeners ctx handles (List.range ctx.ruleCount) with
    | mk after e =>
      by_cases hok : e = .ok
      · left
        rw [hloop, hok] at hright
        exact allServed_of_started hidle (hright.1 rfl)
      · right
        have hfails : (startListeners ctx handles (List.range ctx.ruleCount)).2 ≠ .ok := by
          rw [hloop]
          exact hok
        refine refused_of_no_events hfails ?_
        apply List.eq_nil_iff_forall_not_mem.mpr
        intro ev hev
        obtain ⟨i, k, rfl, _⟩ := created_of_mem hidle hev
        have hjoined : Event.joined (handles i) ∈
            startListenersEvents ctx handles (List.range ctx.ruleCount) := by
          rw [hloop] at hright
          cases e with
          | ok => exact absurd rfl hok
          | _ => exact ((hright.2 (by simp)).2 i k _ hev).1
        obtain ⟨_, _, hcreated, _⟩ := created_of_mem hidle hjoined
        cases hcreated
  · rintro (hserved | hrefused)
    · exact startRight_of_served hmutex hidle hrules hserved
    · exact startRight_of_refused hmutex hidle hrules hrefused

def withRules (count : ℕ) : Context where
  __ := Context.zero
  rules := fun _ => { Rule.zero with enabled := true }
  ruleCount := count
  mutex := 1
  mux := 2

/-- Two listeners are started. -/
theorem startRight_two : (startService (withRules 2) fun i => i + 1).2 = .ok ∧
    StartRight (withRules 2) fun i => i + 1 := by
  refine ⟨by decide, (startRight_iff Nat.one_ne_zero rfl).mpr (Or.inl ⟨?_, by decide⟩)⟩
  intro i _
  exact Nat.succ_ne_zero i

/-- The second of two threads is refused, and the first one stays. -/
theorem first_listener_stays :
    (startService (withRules 2) fun i => if i = 0 then 1 else 0).2 = .system ∧
      ¬ StartRight (withRules 2) fun i => if i = 0 then 1 else 0 := by
  refine ⟨by decide, ?_⟩
  rintro ⟨_, hfails⟩
  have hjoined := ((hfails (by decide)).2 0 0 1 (by decide)).1
  exact absurd hjoined (by decide)

end Ppdb.ListenerRollback
