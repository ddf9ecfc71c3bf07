import Ppdb.RinetdContext
import Mathlib.Data.List.Basic
import Mathlib.Tactic.Common

/-!
What the two threads of a session move from one socket to the other. Each turn
of their loop receives a chunk and sends it with one call; a call that accepts
less than the chunk ends the session, and the rest of the chunk is lost.
-/

namespace Ppdb.SessionRelay

open ErrorCodes RinetdContext

def bufferSize : ℕ := 8192

/-- What `recv` does: it returns bytes, none after an orderly close, or `-1`
with an error number. -/
inductive Received
  | bytes (data : List UInt8)
  /-- `EAGAIN`, `EWOULDBLOCK` or `ETIMEDOUT` -/
  | again
  | failed
  deriving DecidableEq, Repr

inductive Sent
  | accepted (n : ℕ)
  /-- `EAGAIN` or `EWOULDBLOCK` -/
  | again
  | timedOut
  | failed
  deriving DecidableEq, Repr

def infraNetRecv (sock : ℕ) (r : Received) : ErrorCode × List UInt8 :=
  if sock = 0 then (.invalid, [])
  else
    match r with
    | .bytes data => if data.length = 0 then (.closed, []) else (.ok, data)
    | .again => (.timeout, [])
    | .failed => (.system, [])

def infraNetSend (sock : ℕ) (r : Sent) : ErrorCode × ℕ :=
  if sock = 0 then (.invalid, 0)
  else
    match r with
    | .accepted n => (.ok, n)
    | .again => (.wouldBlock, 0)
    | .timedOut => (.timeout, 0)
    | .failed => (.system, 0)

/-- What one turn of the loop meets: the value of `session->active` and the
answers of the two sockets. -/
structure Turn where
  active : Bool
  received : Received
  sent : Sent
  deriving DecidableEq, Repr

/-- What a thread has delivered, and whether it has left its loop, which ends
the session. -/
structure Relayed where
  delivered : List UInt8
  ended : Bool
  deriving DecidableEq, Repr

/-- The loop that `forward_thread` and `backward_thread` share, up to their sockets. -/
def relay (src dst : ℕ) : List Turn → Relayed
  | [] => ⟨[], false⟩
  | t :: rest =>
    if t.active = false then ⟨[], true⟩
    else if src = 0 then relay src dst rest
    else
      match infraNetRecv src t.received with
      | (.ok, data) =>
        if data.length = 0 then ⟨[], true⟩
        else if dst = 0 then relay src dst rest
        else
          match infraNetSend dst t.sent with
          | (.ok, n) =>
            if n ≠ data.length then ⟨data.take n, true⟩
            else ⟨data.take n ++ (relay src dst rest).delivered, (relay src dst rest).ended⟩
          | (_, _) => ⟨[], true⟩
      | (_, _) => ⟨[], true⟩

def forwardThread (session : Session) (turns : List Turn) : Relayed :=
  relay session.clientSock session.serverSock turns

def backwardThread (session : Session) (turns : List Turn) : Relayed :=
  relay session.serverSock session.clientSock turns

/-- A chunk that arrives and the number of its bytes that `send` accepts. -/
structure Transfer where
  chunk : List UInt8
  accepted : ℕ
  nonempty : 0 < chunk.length
  fits : chunk.length ≤ bufferSize
  progress : 0 < accepted
  within : accepted ≤ chunk.length

def Transfer.turn (t : Transfer) : Turn := ⟨true, .bytes t.chunk, .accepted t.accepted⟩

/-- The chunks in turn, then an orderly close, with the session left active. -/
def turnsOf (ts : List Transfer) : List Turn :=
  ts.map Transfer.turn ++ [⟨true, .bytes [], .again⟩]

def stream (ts : List Transfer) : List UInt8 := (ts.map Transfer.chunk).flatten

/-- What gets through: all chunks up to the first short send. -/
def passed : List Transfer → List UInt8
  | [] => []
  | t :: rest =>
    if t.accepted = t.chunk.length then t.chunk ++ passed rest else t.chunk.take t.accepted

variable {src dst : ℕ} {t : Transfer} {ts : List Transfer}

theorem passed_cons : passed (t :: ts) =
    if t.accepted = t.chunk.length then t.chunk ++ passed ts else t.chunk.take t.accepted := rfl

theorem stream_cons : stream (t :: ts) = t.chunk ++ stream ts := rfl

/-! ### The loop -/

theorem infraNetRecv_chunk (hsrc : src ≠ 0) (t : Transfer) :
    infraNetRecv src (.bytes t.chunk) = (.ok, t.chunk) := by
  have hne : t.chunk.length ≠ 0 := Nat.pos_iff_ne_zero.mp t.nonempty
  simp [infraNetRecv, hsrc, List.length_eq_zero_iff.not.mp hne]

theorem relay_close (hsrc : src ≠ 0) (r : Sent) (rest : List Turn) :
    relay src dst (⟨true, .bytes [], r⟩ :: rest) = ⟨[], true⟩ := by
  simp [relay, infraNetRecv, hsrc]

/-- One turn of the loop on a chunk. -/
theorem relay_turn (hsrc : src ≠ 0) (hdst : dst ≠ 0) (t : Transfer) (rest : List Turn) :
    relay src dst (t.turn :: rest) =
      if t.accepted = t.chunk.length then
        ⟨t.chunk ++ (relay src dst rest).delivered, (relay src dst rest).ended⟩
      else ⟨t.chunk.take t.accepted, true⟩ := by
  have hrecv : infraNetRecv src t.turn.received = (.ok, t.chunk) := infraNetRecv_chunk hsrc t
  have hsend : infraNetSend dst t.turn.sent = (.ok, t.accepted) := by
    simp [infraNetSend, hdst, Transfer.turn]
  have hne : t.chunk.length ≠ 0 := Nat.pos_iff_ne_zero.mp t.nonempty
  rw [relay, hrecv]
  dsimp only
  rw [hsend]
  by_cases hall : t.accepted = t.chunk.length
  · simp [Transfer.turn, hsrc, hdst, List.length_eq_zero_iff.not.mp hne, hall]
  · simp [Transfer.turn, hsrc, hdst, List.length_eq_zero_iff.not.mp hne, hall]

/-- Whatever the pieces, the thread delivers what gets through and ends the session. -/
theorem relay_passed (hsrc : src ≠ 0) (hdst : dst ≠ 0) (ts : List Transfer) :
    relay src dst (turnsOf ts) = ⟨passed ts, true⟩ := by
  induction ts with
  | nil => exact relay_close hsrc _ _
  | cons t ts ih =>
    change relay src dst (t.turn :: turnsOf ts) = _
    rw [relay_turn hsrc hdst, ih, passed_cons]
    split <;> rfl

/-! ### What gets through -/

/-- The stream gets through exactly if no send is short. -/
theorem passed_eq_stream_iff (ts : List Transfer) :
    passed ts = stream ts ↔ ∀ t ∈ ts, t.accepted = t.chunk.length := by
  induction ts with
  | nil => exact iff_of_true rfl fun t ht => absurd ht List.not_mem_nil
  | cons t ts ih =>
    rw [stream_cons, passed_cons, List.forall_mem_cons]
    by_cases hall : t.accepted = t.chunk.length
    · rw [if_pos hall, List.append_cancel_left_eq, ih]
      exact (and_iff_right hall).symm
    · rw [if_neg hall]
      refine iff_of_false ?_ (fun h => hall h.1)
      intro heq
      have hlength := congrArg List.length heq
      rw [List.length_take, List.length_append] at hlength
      have hwithin := t.within
      omega

/-- Both threads of a session deliver the stream, and then end the session,
exactly if no send is short. -/
theorem stream_delivered_iff (session : Session) (hclient : session.clientSock ≠ 0)
    (hserver : session.serverSock ≠ 0) (ts : List Transfer) :
    (forwardThread session (turnsOf ts) = ⟨stream ts, true⟩ ↔
      ∀ t ∈ ts, t.accepted = t.chunk.length) ∧
    (backwardThread session (turnsOf ts) = ⟨stream ts, true⟩ ↔
      ∀ t ∈ ts, t.accepted = t.chunk.length) := by
  have hright : ∀ src dst : ℕ, src ≠ 0 → dst ≠ 0 → (relay src dst (turnsOf ts) = ⟨stream ts, true⟩ ↔
      ∀ t ∈ ts, t.accepted = t.chunk.length) := by
    intro src dst hsrc hdst
    rw [relay_passed hsrc hdst, ← passed_eq_stream_iff, Relayed.mk.injEq]
    exact and_iff_left rfl
  exact ⟨hright _ _ hclient hserver, hright _ _ hserver hclient⟩

def twoBytes : Transfer where
  chunk := [104, 105]
  accepted := 2
  nonempty := by decide
  fits := by decide
  progress := by decide
  within := by decide

def oneOfTwo : Transfer where
  chunk := [104, 105]
  accepted := 1
  nonempty := by decide
  fits := by decide
  progress := by decide
  within := by decide

def pairOfSockets : Session := ⟨1, 2, 3, 4, true⟩

theorem stream_delivered_two :
    forwardThread pairOfSockets (turnsOf [twoBytes, twoBytes]) = ⟨[104, 105, 104, 105], true⟩ := by
  have hall : ∀ t ∈ [twoBytes, twoBytes], t.accepted = t.chunk.length := by decide
  exact ((stream_delivered_iff pairOfSockets (by decide) (by decide) _).1).mpr hall

/-- The second byte is lost in both directions. -/
theorem short_send_loses :
    forwardThread pairOfSockets (turnsOf [oneOfTwo]) = ⟨[104], true⟩ ∧
      backwardThread pairOfSockets (turnsOf [oneOfTwo]) = ⟨[104], true⟩ ∧
      forwardThread pairOfSockets (turnsOf [oneOfTwo]) ≠ ⟨stream [oneOfTwo], true⟩ := by
  decide

end Ppdb.SessionRelay
