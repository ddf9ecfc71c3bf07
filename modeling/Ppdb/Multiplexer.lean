import Ppdb.ErrorCodes
import Ppdb.Transitions
import Mathlib.Data.BitVec
import Mathlib.Order.Basic

/-!
The event multiplexer over `epoll`. Descriptors are registered, changed and
removed, and a wait hands on what the kernel reports. The data word that goes
through the kernel is a union: the descriptor is written into its lower half,
and on the way back it is read both as the descriptor and as a pointer.
-/

namespace Ppdb.Multiplexer

open ErrorCodes Transitions

def eventRead : BitVec 32 := 1
def eventWrite : BitVec 32 := 2
def eventError : BitVec 32 := 4

def epollIn : BitVec 32 := 0x1
def epollOut : BitVec 32 := 0x4
def epollErr : BitVec 32 := 0x8
def epollHup : BitVec 32 := 0x10
def epollEt : BitVec 32 := 0x80000000

/-- `struct epoll_event`, its union as one word. -/
structure EpollEvent where
  events : BitVec 32
  data : BitVec 64
  deriving DecidableEq, Repr

namespace EpollEvent

def zero : EpollEvent := ⟨0, 0⟩

/-- An assignment to `data.fd`, the lower half of the word. -/
def setFd (fd : BitVec 32) (ev : EpollEvent) : EpollEvent :=
  { ev with data := (ev.data &&& 0xFFFFFFFF00000000) ||| fd.setWidth 64 }

def fd (ev : EpollEvent) : BitVec 32 := ev.data.setWidth 32

def ptr (ev : EpollEvent) : BitVec 64 := ev.data

end EpollEvent

/-! ### The kernel -/

/-- The events and the data word that each registered descriptor came with last. -/
abbrev Kernel := BitVec 32 → Option EpollEvent

inductive CtlOp
  | add
  | mod
  | del
  deriving DecidableEq, Repr

/-- `epoll_ctl`: an added descriptor must be new, another one must not be; the
call may also fail for reasons of the system. -/
def epollCtl (served : Bool) (k : Kernel) (op : CtlOp) (fd : BitVec 32) (ev : EpollEvent) :
    Kernel × Bool :=
  match op with
  | .add => if served ∧ k fd = none then (Function.update k fd (some ev), true) else (k, false)
  | .mod => if served ∧ k fd ≠ none then (Function.update k fd (some ev), true) else (k, false)
  | .del => if served ∧ k fd ≠ none then (Function.update k fd none, true) else (k, false)

/-- What one call of `epoll_wait` comes to. -/
inductive Answer
  | interrupted
  | failed
  | ready (reports : List EpollEvent)
  deriving DecidableEq, Repr

/-- What `epoll_wait` is documented to report: registered descriptors with the
word they came with, and events that are subscribed to, errors and hang-ups. -/
structure Honest (k : Kernel) (maxevents : BitVec 32) (reports : List EpollEvent) : Prop where
  length : (reports.length : ℤ) ≤ maxevents.toInt
  registered : ∀ ev ∈ reports, ∃ fd reg, k fd = some reg ∧ ev.data = reg.data ∧
    (ev.events &&& epollIn ≠ 0 → reg.events &&& epollIn ≠ 0) ∧
    (ev.events &&& epollOut ≠ 0 → reg.events &&& epollOut ≠ 0)
  others : ∀ ev ∈ reports, ev.events &&& ~~~(epollIn ||| epollOut ||| epollErr ||| epollHup) = 0
  nonempty : ∀ ev ∈ reports, ev.events ≠ 0

/-! ### The platform layer -/

def toEpoll (events : BitVec 32) (edgeTrigger : Bool) : BitVec 32 :=
  (if events &&& eventRead ≠ 0 then epollIn else 0) |||
    (if events &&& eventWrite ≠ 0 then epollOut else 0) |||
    (if events &&& eventError ≠ 0 then epollErr else 0) ||| (if edgeTrigger then epollEt else 0)

def control (served : Bool) (k : Kernel) (op : CtlOp) (epollFd fd : BitVec 32) (ev : EpollEvent) :
    Kernel × ErrorCode :=
  if epollFd.toInt < 0 ∨ fd.toInt < 0 then (k, .invalidParam)
  else
    let (k, done) := epollCtl served k op fd ev
    (k, if done then .ok else .system)

/-- The pointer is not used. -/
def infraPlatformEpollAdd (served : Bool) (k : Kernel) (epollFd fd events : BitVec 32)
    (edgeTrigger : Bool) (_userData : BitVec 64) : Kernel × ErrorCode :=
  control served k .add epollFd fd
    ({ EpollEvent.zero with events := toEpoll events edgeTrigger }.setFd fd)

def infraPlatformEpollModify (served : Bool) (k : Kernel) (epollFd fd events : BitVec 32)
    (edgeTrigger : Bool) : Kernel × ErrorCode :=
  control served k .mod epollFd fd
    ({ EpollEvent.zero with events := toEpoll events edgeTrigger }.setFd fd)

def infraPlatformEpollRemove (served : Bool) (k : Kernel) (epollFd fd : BitVec 32) :
    Kernel × ErrorCode :=
  control served k .del epollFd fd .zero

/-- The loop around `epoll_wait`, which is given the time limit; `none` while it
goes on. -/
def epollWaitLoop : List Answer → Option (Except ErrorCode (List EpollEvent))
  | [] => none
  | .interrupted :: answers => epollWaitLoop answers
  | .failed :: _ => some (.error .system)
  | .ready reports :: _ => some (.ok reports)

def infraPlatformEpollWait (epollFd : BitVec 32) (maxEvents : ℕ) (answers : List Answer) :
    Option (Except ErrorCode (List EpollEvent)) :=
  if epollFd.toInt < 0 ∨ maxEvents = 0 then some (.error .invalidParam) else epollWaitLoop answers

/-! ### The multiplexer -/

structure MuxConfig where
  maxEvents : ℕ
  edgeTrigger : Bool
  deriving DecidableEq, Repr

/-- `infra_mux_epoll_impl_t` of a multiplexer that has been created. -/
structure Mux where
  epollFd : BitVec 32
  edgeTrigger : Bool
  maxEvents : ℕ
  opened : 0 ≤ epollFd.toInt

/-- The three requests for memory and what `epoll_create1` returns. -/
structure CreateReply where
  mux : Bool
  impl : Bool
  epollFd : BitVec 32
  buffer : Bool
  deriving DecidableEq, Repr

def infraMuxEpollCreate (r : CreateReply) (config : Option MuxConfig) : Except ErrorCode Mux :=
  match config with
  | none => .error .invalidParam
  | some config =>
    if r.mux = false ∨ r.impl = false then .error .noMemory
    else if h : r.epollFd.toInt < 0 then .error .system
    else if r.buffer = false then .error .noMemory
    else .ok ⟨r.epollFd, config.edgeTrigger, config.maxEvents, Int.not_lt.mp h⟩

structure MuxEvent where
  fd : BitVec 32
  events : BitVec 32
  userData : BitVec 64
  deriving DecidableEq, Repr

def fromEpoll (events : BitVec 32) : BitVec 32 :=
  (if events &&& epollIn ≠ 0 then eventRead else 0) |||
    (if events &&& epollOut ≠ 0 then eventWrite else 0) |||
    (if events &&& epollErr ≠ 0 then eventError else 0)

def convert (ev : EpollEvent) : MuxEvent := ⟨ev.fd, fromEpoll ev.events, ev.ptr⟩

def infraMuxAdd (mux : Mux) (served : Bool) (k : Kernel) (fd events : BitVec 32)
    (userData : BitVec 64) : Kernel × ErrorCode :=
  if fd.toInt < 0 then (k, .invalidParam)
  else infraPlatformEpollAdd served k mux.epollFd fd events mux.edgeTrigger userData

def infraMuxModify (mux : Mux) (served : Bool) (k : Kernel) (fd events : BitVec 32) :
    Kernel × ErrorCode :=
  if fd.toInt < 0 then (k, .invalidParam)
  else infraPlatformEpollModify served k mux.epollFd fd events mux.edgeTrigger

def infraMuxRemove (mux : Mux) (served : Bool) (k : Kernel) (fd : BitVec 32) :
    Kernel × ErrorCode :=
  if fd.toInt < 0 then (k, .invalidParam)
  else infraPlatformEpollRemove served k mux.epollFd fd

/-- `num_events`, which goes to `epoll_wait` as an `int`. -/
def numEvents (mux : Mux) (maxEvents : ℕ) : ℕ :=
  if maxEvents < mux.maxEvents then maxEvents else mux.maxEvents

/-- The events written, `buffer` telling whether there is a place for them. -/
def infraMuxWait (mux : Mux) (buffer : Bool) (maxEvents : ℕ) (answers : List Answer) :
    Option (Except ErrorCode (List MuxEvent)) :=
  if buffer = false ∨ maxEvents = 0 then some (.error .invalidParam)
  else
    (infraPlatformEpollWait mux.epollFd (numEvents mux maxEvents) answers).map
      (Except.map (List.map convert))

/-! ### Runs -/

/-- What a caller has asked for. -/
structure Request where
  events : BitVec 32
  userData : BitVec 64
  deriving DecidableEq, Repr

/-- The kernel, and beside it the requests in force by the calls that succeeded. -/
structure State where
  kernel : Kernel
  book : BitVec 32 → Option Request

inductive Action
  | add (fd events : BitVec 32) (userData : BitVec 64) (served : Bool)
  | modify (fd events : BitVec 32) (served : Bool)
  | remove (fd : BitVec 32) (served : Bool)
  | wait (buffer : Bool) (maxEvents : ℕ) (answers : List Answer)
  deriving DecidableEq, Repr

/-- Registrations enter the book if they succeed; a wait changes nothing. -/
def step (mux : Mux) (s : State) : Action → Option State
  | .add fd events userData served =>
    let r := infraMuxAdd mux served s.kernel fd events userData
    some ⟨r.1, if r.2 = .ok then Function.update s.book fd (some ⟨events, userData⟩) else s.book⟩
  | .modify fd events served =>
    let r := infraMuxModify mux served s.kernel fd events
    let entry := (s.book fd).map fun q => { q with events }
    some ⟨r.1, if r.2 = .ok then Function.update s.book fd entry else s.book⟩
  | .remove fd served =>
    let r := infraMuxRemove mux served s.kernel fd
    some ⟨r.1, if r.2 = .ok then Function.update s.book fd none else s.book⟩
  | .wait _ _ _ => some s

def initial : State := ⟨fun _ => none, fun _ => none⟩

abbrev Reached (mux : Mux) (s : State) : Prop :=
  Reachable initial (step mux) (fun _ _ => True) s

/-! ### Flags -/

/-- A flag is set in what goes to the kernel if its counterpart was given. -/
theorem toEpoll_flags (events : BitVec 32) (edgeTrigger : Bool) :
    (toEpoll events edgeTrigger &&& epollIn ≠ 0 → events &&& eventRead ≠ 0) ∧
      (toEpoll events edgeTrigger &&& epollOut ≠ 0 → events &&& eventWrite ≠ 0) := by
  unfold toEpoll
  split_ifs <;> simp_all [epollIn, epollOut, epollErr, epollEt]

theorem fromEpoll_flags (events : BitVec 32) :
    (fromEpoll events &&& eventRead ≠ 0 → events &&& epollIn ≠ 0) ∧
      (fromEpoll events &&& eventWrite ≠ 0 → events &&& epollOut ≠ 0) := by
  unfold fromEpoll
  split_ifs <;> simp_all [eventRead, eventWrite, eventError]

/-- Only a bare hang-up has no counterpart. -/
theorem fromEpoll_ne_zero {events : BitVec 32} (hne : events ≠ 0) (hhup : events ≠ epollHup)
    (hothers : events &&& ~~~(epollIn ||| epollOut ||| epollErr ||| epollHup) = 0) :
    fromEpoll events ≠ 0 := by
  intro hzero
  have hflags : events &&& epollIn = 0 ∧ events &&& epollOut = 0 ∧ events &&& epollErr = 0 := by
    unfold fromEpoll at hzero
    split_ifs at hzero <;> simp_all [eventRead, eventWrite, eventError]
  have hall : epollIn ||| epollOut ||| epollErr ||| epollHup |||
      ~~~(epollIn ||| epollOut ||| epollErr ||| epollHup) = BitVec.allOnes 32 := by decide
  have honly : events = events &&& epollHup := by
    have hself : events = events &&& BitVec.allOnes 32 := BitVec.and_allOnes.symm
    rw [← hall] at hself
    simpa only [BitVec.and_or_distrib_left, hflags, hothers, BitVec.ofNat_eq_ofNat, BitVec.zero_or,
      BitVec.or_zero] using hself
  have htwo : epollHup = BitVec.twoPow 32 4 := by decide
  rw [htwo, BitVec.and_twoPow] at honly
  split_ifs at honly
  · exact hhup (honly.trans htwo.symm)
  · exact hne honly

/-! ### The book -/

theorem setFd_zero (events fd : BitVec 32) :
    ({ EpollEvent.zero with events } : EpollEvent).setFd fd = ⟨events, fd.setWidth 64⟩ := by
  simp [EpollEvent.setFd, EpollEvent.zero]

def register (mux : Mux) (fd : BitVec 32) (q : Request) : EpollEvent :=
  ⟨toEpoll q.events mux.edgeTrigger, fd.setWidth 64⟩

/-- The kernel holds the requests in force, and their descriptors for data. -/
structure Inv (mux : Mux) (s : State) : Prop where
  refines : ∀ fd, s.kernel fd = (s.book fd).map (register mux fd)
  nonneg : ∀ fd, s.book fd ≠ none → 0 ≤ fd.toInt

section Steps
variable {mux : Mux} {s : State} {fd : BitVec 32}

theorem Inv.update (h : Inv mux s) (hfd : 0 ≤ fd.toInt) (entry : Option Request) :
    Inv mux ⟨Function.update s.kernel fd (entry.map (register mux fd)),
      Function.update s.book fd entry⟩ := by
  constructor
  · intro fd'
    by_cases heq : fd' = fd
    · subst heq
      simp
    · simp [heq, h.refines fd']
  · intro fd' hne
    by_cases heq : fd' = fd
    · exact heq ▸ hfd
    · simp only [Function.update_of_ne heq] at hne
      exact h.nonneg fd' hne

/-- A call of `epoll_ctl` fails and changes nothing or stores what it was given. -/
theorem epollCtl_cases (served : Bool) (k : Kernel) (op : CtlOp) (fd : BitVec 32)
    (ev : EpollEvent) :
    epollCtl served k op fd ev = (k, false) ∨
      ((op ≠ .add → k fd ≠ none) ∧ epollCtl served k op fd ev =
        (Function.update k fd (if op = .del then none else some ev), true)) := by
  cases op with
  | add =>
    by_cases hdone : served ∧ k fd = none
    · exact Or.inr ⟨fun hne => absurd rfl hne, if_pos hdone⟩
    · exact Or.inl (if_neg hdone)
  | mod =>
    by_cases hdone : served ∧ k fd ≠ none
    · exact Or.inr ⟨fun _ => hdone.2, if_pos hdone⟩
    · exact Or.inl (if_neg hdone)
  | del =>
    by_cases hdone : served ∧ k fd ≠ none
    · exact Or.inr ⟨fun _ => hdone.2, if_pos hdone⟩
    · exact Or.inl (if_neg hdone)

theorem control_cases (served : Bool) (k : Kernel) (op : CtlOp) (epollFd fd : BitVec 32)
    (ev : EpollEvent) :
    ((control served k op epollFd fd ev).1 = k ∧ (control served k op epollFd fd ev).2 ≠ .ok) ∨
      (0 ≤ fd.toInt ∧ (op ≠ .add → k fd ≠ none) ∧ control served k op epollFd fd ev =
        (Function.update k fd (if op = .del then none else some ev), .ok)) := by
  unfold control
  by_cases hneg : epollFd.toInt < 0 ∨ fd.toInt < 0
  · rw [if_pos hneg]
    exact Or.inl ⟨rfl, by simp⟩
  · have hfd : 0 ≤ fd.toInt := by omega
    rw [if_neg hneg]
    rcases epollCtl_cases served k op fd ev with heq | ⟨hreg, heq⟩
    · rw [heq]
      exact Or.inl ⟨rfl, by simp⟩
    · rw [heq]
      exact Or.inr ⟨hfd, hreg, rfl⟩

/-- The three calls that change a registration, for the entry they make. -/
theorem control_entry (h : Inv mux s) (served : Bool) {op : CtlOp} {ev : EpollEvent}
    {entry : Option Request} (hentry : (op ≠ .add → s.book fd ≠ none) →
      (if op = .del then none else some ev) = entry.map (register mux fd)) :
    Inv mux ⟨(control served s.kernel op mux.epollFd fd ev).1,
      if (control served s.kernel op mux.epollFd fd ev).2 = .ok then
        Function.update s.book fd entry else s.book⟩ := by
  rcases control_cases served s.kernel op mux.epollFd fd ev with ⟨hsame, herr⟩ | ⟨hfd, hreg, heq⟩
  · rw [hsame, if_neg herr]
    exact h
  · have hbook : op ≠ .add → s.book fd ≠ none := by
      intro hop hnone
      apply hreg hop
      rw [h.refines, hnone, Option.map_none]
    rw [heq, hentry hbook]
    exact h.update hfd entry

/-- The test of the descriptor is made twice. -/
theorem checked_twice (served : Bool) (k : Kernel) (op : CtlOp) (ev : EpollEvent) :
    (if fd.toInt < 0 then (k, .invalidParam) else control served k op mux.epollFd fd ev) =
      control served k op mux.epollFd fd ev := by
  split_ifs with hneg
  · rw [control, if_pos (Or.inr hneg)]
  · rfl

/-- One call keeps the kernel and the book together. -/
theorem Inv.step (h : Inv mux s) {a : Action} {s' : State} (hstep : step mux s a = some s') :
    Inv mux s' := by
  cases a with
  | add fd events userData served =>
    have hadd : infraMuxAdd mux served s.kernel fd events userData =
        control served s.kernel .add mux.epollFd fd (register mux fd ⟨events, userData⟩) := by
      unfold infraMuxAdd infraPlatformEpollAdd
      rw [setFd_zero]
      exact checked_twice served s.kernel .add _
    rw [Multiplexer.step, hadd] at hstep
    obtain rfl := Option.some.inj hstep
    exact control_entry h served fun _ => rfl
  | modify fd events served =>
    have hmodify : infraMuxModify mux served s.kernel fd events = control served s.kernel .mod
        mux.epollFd fd ⟨toEpoll events mux.edgeTrigger, fd.setWidth 64⟩ := by
      unfold infraMuxModify infraPlatformEpollModify
      rw [setFd_zero]
      exact checked_twice served s.kernel .mod _
    rw [Multiplexer.step, hmodify] at hstep
    obtain rfl := Option.some.inj hstep
    refine control_entry h served fun hbook => ?_
    obtain ⟨q, hq⟩ := Option.ne_none_iff_exists'.mp (hbook (by decide))
    rw [hq]
    rfl
  | remove fd served =>
    have hremove : infraMuxRemove mux served s.kernel fd =
        control served s.kernel .del mux.epollFd fd .zero := checked_twice served s.kernel .del _
    rw [Multiplexer.step, hremove] at hstep
    obtain rfl := Option.some.inj hstep
    exact control_entry h served fun _ => rfl
  | wait buffer maxEvents answers =>
    obtain rfl := Option.some.inj hstep
    exact h

end Steps

theorem inv_of_reached {mux : Mux} {s : State} (h : Reached mux s) : Inv mux s :=
  h.invariant ⟨fun _ => rfl, fun _ hne => absurd rfl hne⟩ fun _ _ _ hinv _ hstep => hinv.step hstep

/-! ### Waiting -/

/-- What one reported event is handed on as: its descriptor is registered and in
place of the pointer, and its flags are the requested ones and errors. -/
structure Delivered (s : State) (ev : EpollEvent) (e : MuxEvent) : Prop where
  registered : ∃ q, s.book e.fd = some q ∧
    (e.events &&& eventRead ≠ 0 → q.events &&& eventRead ≠ 0) ∧
    (e.events &&& eventWrite ≠ 0 → q.events &&& eventWrite ≠ 0)
  descriptor : 0 ≤ e.fd.toInt
  pointer : e.userData = e.fd.setWidth 64
  nonempty : ev.events ≠ epollHup → e.events ≠ 0

theorem epollWaitLoop_ok {answers : List Answer} {reports : List EpollEvent}
    (h : epollWaitLoop answers = some (.ok reports)) : .ready reports ∈ answers := by
  induction answers with
  | nil => cases h
  | cons a answers ih =>
    cases a with
    | interrupted => exact List.mem_cons_of_mem _ (ih h)
    | failed => cases h
    | ready reports' =>
      obtain rfl := Except.ok.inj (Option.some.inj h)
      exact List.mem_cons_self

/-- A wait that returns hands on one of the answers. -/
theorem infraMuxWait_ok {mux : Mux} {buffer : Bool} {maxEvents : ℕ} {answers : List Answer}
    {events : List MuxEvent} (h : infraMuxWait mux buffer maxEvents answers = some (.ok events)) :
    ∃ reports, .ready reports ∈ answers ∧ events = reports.map convert := by
  unfold infraMuxWait at h
  by_cases hparam : buffer = false ∨ maxEvents = 0
  · rw [if_pos hparam] at h
    cases h
  rw [if_neg hparam] at h
  obtain ⟨result, hplatform, hresult⟩ := Option.map_eq_some_iff.mp h
  cases result with
  | error err => cases hresult
  | ok reports =>
    refine ⟨reports, ?_, (Except.ok.inj hresult).symm⟩
    unfold infraPlatformEpollWait at hplatform
    split_ifs at hplatform with hinvalid
    · cases hplatform
    · exact epollWaitLoop_ok hplatform

theorem maxEvents_of_create {r : CreateReply} {config : MuxConfig} {mux : Mux}
    (h : infraMuxEpollCreate r (some config) = .ok mux) : mux.maxEvents = config.maxEvents := by
  unfold infraMuxEpollCreate at h
  dsimp only at h
  split_ifs at h
  obtain rfl := Except.ok.inj h
  rfl

theorem numEvents_eq (mux : Mux) (maxEvents : ℕ) :
    numEvents mux maxEvents = min maxEvents mux.maxEvents := by
  unfold numEvents
  split_ifs <;> omega

theorem toInt_ofNat_le (n : ℕ) : (BitVec.ofNat 32 n).toInt ≤ n := by
  have hmod : n % 2 ^ 32 ≤ n := Nat.mod_le _ _
  rw [BitVec.toInt_eq_toNat_cond, BitVec.toNat_ofNat]
  split_ifs <;> omega

/-- Through the kernel and back. -/
theorem delivered_of_honest {mux : Mux} {s : State} (h : Inv mux s) {maxevents : BitVec 32}
    {reports : List EpollEvent} (hhonest : Honest s.kernel maxevents reports) :
    ∀ ev ∈ reports, Delivered s ev (convert ev) := by
  intro ev hev
  obtain ⟨fd, reg, hreg, hdata, hread, hwrite⟩ := hhonest.registered ev hev
  rw [h.refines] at hreg
  obtain ⟨q, hq, rfl⟩ := Option.map_eq_some_iff.mp hreg
  have hword : ev.data = fd.setWidth 64 := hdata
  have hfd : (convert ev).fd = fd := by
    change ev.data.setWidth 32 = fd
    rw [hword, BitVec.setWidth_setWidth_of_le fd (by decide), BitVec.setWidth_eq]
  refine ⟨⟨q, hfd ▸ hq, ?_, ?_⟩, ?_, ?_, ?_⟩
  · intro hflag
    exact (toEpoll_flags _ _).1 (hread ((fromEpoll_flags _).1 hflag))
  · intro hflag
    exact (toEpoll_flags _ _).2 (hwrite ((fromEpoll_flags _).2 hflag))
  · rw [hfd]
    exact h.nonneg fd (by simp [hq])
  · rw [hfd]
    exact hword
  · intro hhup
    exact fromEpoll_ne_zero (hhonest.nonempty ev hev) hhup (hhonest.others ev hev)

/-- In every run each event written by a wait is about a registered descriptor
and carries that descriptor in the place of the user data, its flags are not
empty unless the kernel reported a bare hang-up, and there are no more events
than asked for and configured. -/
theorem wait_delivers {r : CreateReply} {config : MuxConfig} {mux : Mux}
    (hcreate : infraMuxEpollCreate r (some config) = .ok mux) {s : State} (hs : Reached mux s)
    {buffer : Bool} {maxEvents : ℕ} {answers : List Answer} {events : List MuxEvent}
    (hwait : infraMuxWait mux buffer maxEvents answers = some (.ok events))
    (hhonest : ∀ reports, .ready reports ∈ answers →
      Honest s.kernel (BitVec.ofNat 32 (numEvents mux maxEvents)) reports) :
    (∃ reports, .ready reports ∈ answers ∧ events = reports.map convert ∧
      ∀ ev ∈ reports, Delivered s ev (convert ev)) ∧
    events.length ≤ min maxEvents config.maxEvents := by
  obtain ⟨reports, hmem, rfl⟩ := infraMuxWait_ok hwait
  have hreports := hhonest reports hmem
  refine ⟨⟨reports, hmem, rfl, delivered_of_honest (inv_of_reached hs) hreports⟩, ?_⟩
  have hbound := hreports.length.trans (toInt_ofNat_le _)
  rw [numEvents_eq, maxEvents_of_create hcreate] at hbound
  rw [List.length_map]
  exact_mod_cast hbound

def smallMux : Mux := ⟨3, false, 16, by decide⟩

/-- Descriptor 5 is added for reading, with a pointer. -/
theorem reached_five : ∃ s, Reached smallMux s ∧
    (decide (s.kernel 5 = some ⟨epollIn, 5⟩) && decide (s.book 5 = some ⟨eventRead, 0xABCD⟩)) =
      true :=
  exists_reachable [.add 5 eventRead 0xABCD true] _ (by decide)

theorem honest_five {k : Kernel} (hk : k 5 = some ⟨epollIn, 5⟩) {events : BitVec 32}
    (h : events = epollIn ∨ events = epollHup) : Honest k 8 [⟨events, 5⟩] := by
  refine ⟨?_, ?_, ?_, ?_⟩
  · change (1 : ℤ) ≤ BitVec.toInt 8
    decide
  · intro ev hev
    obtain rfl := List.mem_singleton.mp hev
    refine ⟨5, _, hk, rfl, ?_⟩
    rcases h with rfl | rfl <;> decide
  · intro ev hev
    obtain rfl := List.mem_singleton.mp hev
    rcases h with rfl | rfl <;> decide
  · intro ev hev
    obtain rfl := List.mem_singleton.mp hev
    rcases h with rfl | rfl <;> decide

/-- The event is about descriptor 5. -/
theorem wait_delivers_five : ∃ s, Reached smallMux s ∧
    infraMuxWait smallMux true 8 [.interrupted, .ready [⟨epollIn, 5⟩]] =
      some (.ok [⟨5, eventRead, 5⟩]) ∧
    ∃ ev, Delivered s ev ⟨5, eventRead, 5⟩ := by
  obtain ⟨s, hs, hfive⟩ := reached_five
  simp only [Bool.and_eq_true, decide_eq_true_eq] at hfive
  have hcreate : infraMuxEpollCreate ⟨true, true, 3, true⟩ (some ⟨16, false⟩) = .ok smallMux := by
    rfl
  have hwait : infraMuxWait smallMux true 8 [.interrupted, .ready [⟨epollIn, 5⟩]] =
      some (.ok [⟨5, eventRead, 5⟩]) := by decide
  have hhonest : ∀ reports, .ready reports ∈ [Answer.interrupted, .ready [⟨epollIn, 5⟩]] →
      Honest s.kernel (BitVec.ofNat 32 (numEvents smallMux 8)) reports := by
    intro reports hmem
    obtain rfl : reports = [⟨epollIn, 5⟩] := by simpa using hmem
    exact honest_five hfive.1 (Or.inl rfl)
  obtain ⟨⟨reports, hmem, hevents, hall⟩, _⟩ := wait_delivers hcreate hs hwait hhonest
  obtain rfl : reports = [⟨epollIn, 5⟩] := by simpa using hmem
  exact ⟨s, hs, hwait, _, hall _ List.mem_cons_self⟩

/-- The pointer given with the descriptor does not come back, and a bare hang-up
comes back without flags. -/
theorem user_data_lost : ∃ s, Reached smallMux s ∧ s.book 5 = some ⟨eventRead, 0xABCD⟩ ∧
    Honest s.kernel 8 [⟨epollIn, 5⟩] ∧
    infraMuxWait smallMux true 8 [.ready [⟨epollIn, 5⟩]] = some (.ok [⟨5, eventRead, 5⟩]) ∧
    Honest s.kernel 8 [⟨epollHup, 5⟩] ∧
    infraMuxWait smallMux true 8 [.ready [⟨epollHup, 5⟩]] = some (.ok [⟨5, 0, 5⟩]) := by
  obtain ⟨s, hs, hfive⟩ := reached_five
  simp only [Bool.and_eq_true, decide_eq_true_eq] at hfive
  exact ⟨s, hs, hfive.2, honest_five hfive.1 (Or.inl rfl), by decide,
    honest_five hfive.1 (Or.inr rfl), by decide⟩

end Ppdb.Multiplexer
