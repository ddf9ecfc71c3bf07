import Ppdb.ResourceLedgers
import Mathlib.Data.List.Induction

/-!
The table of peer connections. An entry is written at the index `peer_count`,
which only grows, so an entry that has been closed is not used again: the table
is full for good after `MAX_PEERS` connections, and the number of a peer never
comes to mean another one.
-/

namespace Ppdb.PeerTable

open ResourceLedgers

def maxPeers : ℕ := 128

/-- `peer_connection_t`: a socket is known by its number in the ledger. -/
structure Peer where
  socket : ℕ
  isActive : Bool
  deriving DecidableEq, Repr

/-- `peer_pool` and `peer_count`, with the sockets opened by this module. -/
structure State where
  peers : ℕ → Peer
  count : ℕ
  sockets : Ledger

/-- Which of the system calls of `infra_peer_connect` succeed. -/
structure Reply where
  socket : Bool
  connect : Bool
  deriving DecidableEq, Repr

def infraPeerInit (s : State) : State := { s with peers := fun _ => ⟨0, false⟩, count := 0 }

def State.enter (s : State) : State where
  peers := Function.update s.peers s.count ⟨s.sockets.next, true⟩
  count := s.count + 1
  sockets := s.sockets.issue

def State.leave (i : ℕ) (s : State) : State where
  peers := Function.update s.peers i { s.peers i with isActive := false }
  count := s.count
  sockets := s.sockets.giveBack (s.peers i).socket

/-- The state and the number of the new peer, or -1. -/
def infraPeerConnect (r : Reply) (s : State) : State × ℤ :=
  if s.count ≥ maxPeers then (s, -1)
  else if r.socket = false then (s, -1)
  else if r.connect = false then
    ({ s with sockets := s.sockets.issue.giveBack s.sockets.next }, -1)
  else (s.enter, s.count)

def infraPeerClose (peerId : ℤ) (s : State) : State :=
  if peerId < 0 ∨ peerId ≥ s.count then s
  else
    if (s.peers peerId.toNat).isActive then s.leave peerId.toNat else s

/-- The socket that `infra_peer_send` and `infra_peer_recv` pass on, `none`
where they return -1. -/
def socketOf (s : State) (peerId : ℤ) : Option ℕ :=
  if peerId < 0 ∨ peerId ≥ s.count ∨ (s.peers peerId.toNat).isActive = false then none
  else some (s.peers peerId.toNat).socket

/-- The loop of `infra_peer_cleanup` -/
def closeUpTo (n : ℕ) (s : State) : State :=
  (List.range n).foldl (fun s i => infraPeerClose i s) s

def infraPeerCleanup (s : State) : State := { closeUpTo s.count s with count := 0 }

inductive Call
  | connect (r : Reply)
  | close (peerId : ℤ)
  deriving DecidableEq, Repr

def perform (s : State) : Call → State
  | .connect r => (infraPeerConnect r s).1
  | .close peerId => infraPeerClose peerId s

def initial : State := infraPeerInit ⟨fun _ => ⟨0, false⟩, 0, Ledger.empty⟩

def after (calls : List Call) : State := calls.foldl perform initial

/-- A peer is refused although the system would connect it. -/
def LacksRoom (s : State) : Prop := (infraPeerConnect ⟨true, true⟩ s).2 = -1

def activePeers (s : State) : ℕ := (List.range maxPeers).countP fun i => (s.peers i).isActive

/-- Room is lacking only while all entries are in use. -/
def RoomRight (calls : List Call) : Prop :=
  ∀ earlier r later, calls = earlier ++ .connect r :: later →
    LacksRoom (after earlier) → activePeers (after earlier) = maxPeers

/-- A number that was returned goes on to mean the same open socket unless it
has been closed. -/
def NumbersRight (calls : List Call) : Prop :=
  ∀ earlier r later k, calls = earlier ++ .connect r :: later →
    (infraPeerConnect r (after earlier)).2 = k → k ≠ -1 → .close k ∉ later →
    socketOf (after calls) k = some (after earlier).sockets.next ∧
      (after calls).sockets.InUse (after earlier).sockets.next

def granted (calls : List Call) : ℕ := calls.countP fun c => c = .connect ⟨true, true⟩

/-- At least `MAX_PEERS` calls were granted, and a number given out by then was
closed. -/
def Worn (calls : List Call) : Prop :=
  maxPeers ≤ granted calls ∧ ∃ (i : ℕ) (earlier later : List Call),
    calls = earlier ++ .close i :: later ∧ i < maxPeers ∧ i < granted earlier

/-! ### What one call does -/

/-- The table and the ledger agree. -/
structure Inv (s : State) : Prop where
  bound : s.count ≤ maxPeers
  sound : s.sockets.Sound
  inUse : ∀ i < s.count, (s.peers i).isActive = true → s.sockets.InUse (s.peers i).socket
  apart : ∀ i < s.count, ∀ j < s.count, (s.peers i).isActive = true → (s.peers j).isActive = true →
    (s.peers i).socket = (s.peers j).socket → i = j
  held : ∀ n, s.sockets.InUse n →
    ∃ i < s.count, (s.peers i).isActive = true ∧ (s.peers i).socket = n

section Calls
variable {s : State} {r : Reply} {k : ℤ}

/-- `infra_peer_connect` leaves the table alone, having closed again what it opened,
or enters a new peer. -/
theorem infraPeerConnect_cases (r : Reply) (s : State) :
    ((maxPeers ≤ s.count ∨ r ≠ ⟨true, true⟩) ∧ ∃ sockets,
      (sockets = s.sockets ∨ sockets = s.sockets.issue.giveBack s.sockets.next) ∧
      infraPeerConnect r s = ({ s with sockets }, -1)) ∨
    (s.count < maxPeers ∧ r = ⟨true, true⟩ ∧ infraPeerConnect r s = (s.enter, (s.count : ℤ))) := by
  obtain ⟨socket, connect⟩ := r
  by_cases hfull : s.count ≥ maxPeers
  · exact Or.inl ⟨Or.inl hfull, _, Or.inl rfl, if_pos hfull⟩
  · unfold infraPeerConnect
    rw [if_neg hfull]
    cases socket with
    | false => exact Or.inl ⟨Or.inr (by simp), _, Or.inl rfl, rfl⟩
    | true =>
      cases connect with
      | false => exact Or.inl ⟨Or.inr (by simp), _, Or.inr rfl, rfl⟩
      | true => exact Or.inr ⟨Nat.lt_of_not_le hfull, rfl, rfl⟩

/-- `infra_peer_close` does nothing or closes the socket of one active entry. -/
theorem infraPeerClose_cases (k : ℤ) (s : State) :
    (infraPeerClose k s = s ∧ ∀ i : ℕ, k = i → i < s.count → (s.peers i).isActive = false) ∨
    ∃ i : ℕ, k = i ∧ i < s.count ∧ (s.peers i).isActive = true ∧
      infraPeerClose k s = s.leave i := by
  by_cases hrange : k < 0 ∨ k ≥ s.count
  · refine Or.inl ⟨if_pos hrange, ?_⟩
    intro i hk hi
    omega
  · obtain ⟨i, rfl⟩ : ∃ i : ℕ, k = i := ⟨k.toNat, by omega⟩
    have hi : i < s.count := by omega
    unfold infraPeerClose
    rw [if_neg hrange, Int.toNat_natCast]
    by_cases hactive : (s.peers i).isActive = true
    · exact Or.inr ⟨i, rfl, hi, hactive, if_pos hactive⟩
    · refine Or.inl ⟨if_neg hactive, ?_⟩
      intro j hj _
      obtain rfl : i = j := by omega
      exact Bool.eq_false_iff.mpr hactive

theorem inv_initial : Inv initial := by
  refine ⟨Nat.zero_le _, sound_empty, fun _ hi => (nomatch hi), fun _ hi => (nomatch hi), ?_⟩
  intro n hn
  exact absurd hn not_inUse_empty

/-- A socket that is closed again at once leaves the table as it was. -/
theorem Inv.unconnected (h : Inv s) :
    Inv { s with sockets := s.sockets.issue.giveBack s.sockets.next } := by
  have hsame : ∀ n, (s.sockets.issue.giveBack s.sockets.next).InUse n ↔ s.sockets.InUse n :=
    fun n => inUse_returned_iff h.sound
  have hnext := (inUse_issue_iff h.sound).mpr (Or.inr rfl)
  refine ⟨h.bound, h.sound.issue.giveBack hnext, ?_, h.apart, ?_⟩
  · intro i hi hactive
    exact (hsame _).mpr (h.inUse i hi hactive)
  · intro n hn
    exact h.held n ((hsame n).mp hn)

theorem enter_old {i : ℕ} (hi : i < s.count) : s.enter.peers i = s.peers i :=
  Function.update_of_ne (Nat.ne_of_lt hi) _ _

theorem enter_new (s : State) : s.enter.peers s.count = ⟨s.sockets.next, true⟩ :=
  Function.update_self _ _ _

theorem Inv.enter (h : Inv s) (hroom : s.count < maxPeers) : Inv s.enter := by
  have hold : ∀ {i}, i < s.count → (s.peers i).isActive = true →
      (s.peers i).socket ≠ s.sockets.next := fun hi hactive => (h.inUse _ hi hactive).ne_next
  refine ⟨hroom, h.sound.issue, ?_, ?_, ?_⟩
  · intro i hi hactive
    apply (inUse_issue_iff h.sound).mpr
    rcases Nat.lt_succ_iff_lt_or_eq.mp hi with hi | rfl
    · rw [enter_old hi] at hactive ⊢
      exact Or.inl (h.inUse i hi hactive)
    · exact Or.inr (by rw [enter_new])
  · intro i hi j hj hai haj heq
    rcases Nat.lt_succ_iff_lt_or_eq.mp hi with hi | rfl <;>
      rcases Nat.lt_succ_iff_lt_or_eq.mp hj with hj | rfl
    · rw [enter_old hi] at hai heq
      rw [enter_old hj] at haj heq
      exact h.apart i hi j hj hai haj heq
    · rw [enter_old hi] at hai heq
      rw [enter_new] at heq
      exact absurd heq (hold hi hai)
    · rw [enter_old hj] at haj heq
      rw [enter_new] at heq
      exact absurd heq.symm (hold hj haj)
    · rfl
  · intro n hn
    rcases (inUse_issue_iff h.sound).mp hn with hn | rfl
    · obtain ⟨i, hi, hactive, hsock⟩ := h.held n hn
      refine ⟨i, Nat.lt_succ_of_lt hi, ?_⟩
      rw [enter_old hi]
      exact ⟨hactive, hsock⟩
    · refine ⟨s.count, Nat.lt_succ_self _, ?_⟩
      rw [enter_new]
      exact ⟨rfl, rfl⟩

theorem leave_of_ne {i j : ℕ} (h : j ≠ i) (s : State) : (s.leave i).peers j = s.peers j :=
  Function.update_of_ne h _ _

theorem leave_self (i : ℕ) (s : State) : ((s.leave i).peers i).isActive = false := by
  simp [State.leave]

/-- An entry that is still active is not the one that was closed. -/
theorem ne_of_active_leave {i j : ℕ} (h : ((s.leave i).peers j).isActive = true) : j ≠ i := by
  rintro rfl
  rw [leave_self] at h
  cases h

theorem Inv.leave (h : Inv s) {i : ℕ} (hi : i < s.count) (hactive : (s.peers i).isActive = true) :
    Inv (s.leave i) := by
  refine ⟨h.bound, h.sound.giveBack (h.inUse i hi hactive), ?_, ?_, ?_⟩
  · intro j hj haj
    have hne := ne_of_active_leave haj
    rw [leave_of_ne hne] at haj ⊢
    refine inUse_giveBack_iff.mpr ⟨h.inUse j hj haj, ?_⟩
    intro heq
    exact hne (h.apart j hj i hi haj hactive heq)
  · intro j hj l hl haj hal heq
    have hji := ne_of_active_leave haj
    have hli := ne_of_active_leave hal
    rw [leave_of_ne hji] at haj heq
    rw [leave_of_ne hli] at hal heq
    exact h.apart j hj l hl haj hal heq
  · intro n hn
    obtain ⟨huse, hne⟩ := inUse_giveBack_iff.mp hn
    obtain ⟨j, hj, haj, hsock⟩ := h.held n huse
    have hji : j ≠ i := by
      rintro rfl
      exact hne hsock.symm
    refine ⟨j, hj, ?_⟩
    rw [leave_of_ne hji]
    exact ⟨haj, hsock⟩

theorem Inv.perform (h : Inv s) (c : Call) : Inv (perform s c) := by
  cases c with
  | connect r =>
    rcases infraPeerConnect_cases r s with ⟨_, sockets, hsockets, heq⟩ | ⟨hroom, _, heq⟩
    · rw [PeerTable.perform, heq]
      rcases hsockets with rfl | rfl
      · exact h
      · exact h.unconnected
    · rw [PeerTable.perform, heq]
      exact h.enter hroom
  | close k =>
    rcases infraPeerClose_cases k s with ⟨heq, _⟩ | ⟨i, _, hi, hactive, heq⟩
    · rw [PeerTable.perform, heq]
      exact h
    · rw [PeerTable.perform, heq]
      exact h.leave hi hactive

end Calls

theorem after_concat (calls : List Call) (c : Call) :
    after (calls ++ [c]) = perform (after calls) c := by
  simp [after]

theorem inv_after (calls : List Call) : Inv (after calls) := by
  induction calls using List.reverseRecOn with
  | nil => exact inv_initial
  | append_singleton calls c ih =>
    rw [after_concat]
    exact ih.perform c

/-! ### Cleaning up -/

theorem closeUpTo_succ (n : ℕ) (s : State) :
    closeUpTo (n + 1) s = infraPeerClose n (closeUpTo n s) := by
  simp [closeUpTo, List.range_succ]

theorem closeUpTo_spec {s : State} (h : Inv s) {n : ℕ} (hn : n ≤ s.count) :
    Inv (closeUpTo n s) ∧ (closeUpTo n s).count = s.count ∧
      ∀ i < n, ((closeUpTo n s).peers i).isActive = false := by
  induction n with
  | zero => exact ⟨h, rfl, fun _ hi => (nomatch hi)⟩
  | succ n ih =>
    obtain ⟨hinv, hcount, hclosed⟩ := ih (Nat.le_of_succ_le hn)
    rw [closeUpTo_succ]
    rcases infraPeerClose_cases n (closeUpTo n s) with ⟨heq, hdone⟩ | ⟨j, hj, hlt, hactive, heq⟩
    · rw [heq]
      refine ⟨hinv, hcount, fun i hi => ?_⟩
      rcases Nat.lt_succ_iff_lt_or_eq.mp hi with hi | rfl
      · exact hclosed i hi
      · exact hdone i rfl (by omega)
    · obtain rfl : n = j := Int.ofNat_inj.mp hj
      rw [heq]
      refine ⟨hinv.leave hlt hactive, hcount, fun i hi => ?_⟩
      rcases Nat.lt_succ_iff_lt_or_eq.mp hi with hi | rfl
      · rw [leave_of_ne (Nat.ne_of_lt hi)]
        exact hclosed i hi
      · exact leave_self i _

/-- After `infra_peer_cleanup` every socket that was opened has been closed once. -/
theorem cleanup_releases (calls : List Call) {n : ℕ} (hpos : 0 < n)
    (hissued : n ≤ (infraPeerCleanup (after calls)).sockets.issued) :
    (infraPeerCleanup (after calls)).sockets.returned.count n = 1 := by
  obtain ⟨hinv, hcount, hclosed⟩ := closeUpTo_spec (inv_after calls) (Nat.le_refl _)
  apply hinv.sound.count_eq_one hpos hissued
  intro huse
  obtain ⟨i, hi, hactive, _⟩ := hinv.held n huse
  rw [hcount] at hi
  rw [hclosed i hi] at hactive
  cases hactive

/-! ### Which entries have been closed -/

theorem granted_concat (calls : List Call) (c : Call) : granted (calls ++ [c]) =
    granted calls + if c = .connect ⟨true, true⟩ then 1 else 0 := by
  simp [granted, List.countP_append, List.countP_singleton]

/-- The table grows with each call that is granted, until it is full. -/
theorem count_after (calls : List Call) :
    (after calls).count = min maxPeers (granted calls) := by
  induction calls using List.reverseRecOn with
  | nil => rfl
  | append_singleton calls c ih =>
    have hbound := (inv_after calls).bound
    rw [after_concat, granted_concat]
    cases c with
    | connect r =>
      rcases infraPeerConnect_cases r (after calls) with ⟨hnot, sockets, _, heq⟩ | ⟨hroom, rfl, heq⟩
      · rw [perform, heq, ih]
        rcases hnot with hfull | hr
        · omega
        · simp [hr]
      · rw [perform, heq]
        simp only [State.enter, if_true]
        omega
    | close k =>
      have hcount : (infraPeerClose k (after calls)).count = (after calls).count := by
        rcases infraPeerClose_cases k (after calls) with ⟨heq, _⟩ | ⟨i, _, _, _, heq⟩
        · rw [heq]
        · rw [heq]
          rfl
      rw [perform, hcount, ih]
      simp

/-- Where an element stands in a list that ends with `y`. -/
theorem exists_split_concat {α : Type} {P : List α → Prop} {xs : List α} {x y : α} :
    (∃ l r, xs ++ [y] = l ++ x :: r ∧ P l) ↔ (∃ l r, xs = l ++ x :: r ∧ P l) ∨ (y = x ∧ P xs) := by
  constructor
  · rintro ⟨l, r, heq, hP⟩
    rcases List.eq_nil_or_concat' r with rfl | ⟨r, z, rfl⟩
    · obtain ⟨rfl, hy⟩ := List.append_inj' heq rfl
      exact Or.inr ⟨List.singleton_injective hy, hP⟩
    · rw [← List.cons_append, ← List.append_assoc] at heq
      exact Or.inl ⟨l, r, (List.append_inj' heq rfl).1, hP⟩
  · rintro (⟨l, r, rfl, hP⟩ | ⟨rfl, hP⟩)
    · exact ⟨l, r ++ [y], by simp, hP⟩
    · exact ⟨xs, [], rfl, hP⟩

/-- An entry is inactive exactly if it was closed at some time. -/
theorem inactive_iff (calls : List Call) {i : ℕ} (hi : i < (after calls).count) :
    ((after calls).peers i).isActive = false ↔
      ∃ earlier later, calls = earlier ++ .close i :: later ∧ i < (after earlier).count := by
  induction calls using List.reverseRecOn with
  | nil => cases hi
  | append_singleton calls c ih =>
    rw [exists_split_concat]
    rw [after_concat] at hi ⊢
    cases c with
    | connect r =>
      have hno : ¬ ((Call.connect r) = .close i ∧ i < (after calls).count) := fun h => nomatch h.1
      rw [or_iff_left hno]
      rcases infraPeerConnect_cases r (after calls) with ⟨_, sockets, _, heq⟩ | ⟨_, rfl, heq⟩
      · rw [perform, heq] at hi ⊢
        exact ih hi
      · rw [perform, heq] at hi ⊢
        rcases Nat.lt_succ_iff_lt_or_eq.mp hi with hi | rfl
        · rw [enter_old hi]
          exact ih hi
        · -- the entry was not there to be closed before
          refine iff_of_false (by simp [enter_new]) ?_
          rintro ⟨earlier, later, hcalls, hlt⟩
          have hmono : (after earlier).count ≤ (after calls).count := by
            have hle : granted earlier ≤ granted calls := by
              rw [hcalls, granted, granted, List.countP_append]
              exact Nat.le_add_right _ _
            rw [count_after, count_after]
            omega
          exact absurd hlt (Nat.not_lt_of_le hmono)
    | close k =>
      rcases infraPeerClose_cases k (after calls) with ⟨heq, hdone⟩ | ⟨j, rfl, hj, _, heq⟩
      · rw [perform, heq] at hi ⊢
        constructor
        · exact fun h => Or.inl ((ih hi).mp h)
        · rintro (h | ⟨hk, _⟩)
          · exact (ih hi).mpr h
          · exact hdone i (Call.close.inj hk) hi
      · rw [perform, heq] at hi ⊢
        by_cases hij : i = j
        · subst hij
          exact iff_of_true (leave_self i _) (Or.inr ⟨rfl, hj⟩)
        · have hno : ¬ (Call.close (j : ℤ) = .close i ∧ i < (after calls).count) := by
            rintro ⟨hk, _⟩
            exact hij (Int.ofNat_inj.mp (Call.close.inj hk)).symm
          rw [or_iff_left hno, leave_of_ne hij]
          exact ih hi

/-! ### Room and numbers -/

theorem lacksRoom_iff {s : State} : LacksRoom s ↔ maxPeers ≤ s.count := by
  unfold LacksRoom
  rcases infraPeerConnect_cases ⟨true, true⟩ s with ⟨hnot, sockets, _, heq⟩ | ⟨hroom, _, heq⟩
  · rw [heq]
    exact iff_of_true rfl (hnot.resolve_right fun hne => hne rfl)
  · rw [heq]
    exact iff_of_false (by simp) (Nat.not_le_of_lt hroom)

theorem activePeers_iff {s : State} :
    activePeers s = maxPeers ↔ ∀ i < maxPeers, (s.peers i).isActive = true := by
  have hall := List.countP_eq_length (p := fun i => (s.peers i).isActive) (l := List.range maxPeers)
  simp only [List.length_range, List.mem_range] at hall
  exact hall

/-- Whether one refusal is right, by the calls before it. -/
theorem room_iff (calls : List Call) :
    (LacksRoom (after calls) → activePeers (after calls) = maxPeers) ↔ ¬ Worn calls := by
  rw [lacksRoom_iff, activePeers_iff, count_after]
  constructor
  · rintro hroom ⟨hfull, i, earlier, later, hcalls, hi, hgranted⟩
    have hactive := hroom (by omega) i hi
    have hlt : i < (after calls).count := by
      rw [count_after]
      omega
    have hclosed : ((after calls).peers i).isActive = false := by
      refine (inactive_iff calls hlt).mpr ⟨earlier, later, hcalls, ?_⟩
      rw [count_after]
      omega
    rw [hclosed] at hactive
    cases hactive
  · intro hfresh hfull i hi
    by_contra hnot
    have hlt : i < (after calls).count := by
      rw [count_after]
      omega
    obtain ⟨earlier, later, hcalls, hgranted⟩ :=
      (inactive_iff calls hlt).mp (Bool.eq_false_iff.mpr hnot)
    rw [count_after] at hgranted
    exact hfresh ⟨by omega, i, earlier, later, hcalls, hi, by omega⟩

theorem socketOf_eq_some {s : State} {k : ℤ} {n : ℕ} : socketOf s k = some n ↔
    ∃ i : ℕ, k = i ∧ i < s.count ∧ (s.peers i).isActive = true ∧ (s.peers i).socket = n := by
  unfold socketOf
  split_ifs with h
  · refine iff_of_false (by simp) ?_
    rintro ⟨i, rfl, hi, hactive, _⟩
    rw [Int.toNat_natCast, hactive] at h
    simp only [Bool.true_eq_false, or_false] at h
    omega
  · simp only [not_or, Bool.not_eq_false] at h
    constructor
    · intro hsock
      exact ⟨k.toNat, by omega, by omega, h.2.2, Option.some.inj hsock⟩
    · rintro ⟨i, rfl, _, _, rfl⟩
      rfl

/-- A number keeps its socket through every call but its own close. -/
theorem socketOf_perform {s : State} {c : Call} {k : ℤ} {n : ℕ} (h : socketOf s k = some n)
    (hne : c ≠ .close k) : socketOf (perform s c) k = some n := by
  obtain ⟨i, rfl, hi, hactive, hsock⟩ := socketOf_eq_some.mp h
  cases c with
  | connect r =>
    rcases infraPeerConnect_cases r s with ⟨_, sockets, _, heq⟩ | ⟨_, _, heq⟩
    · rw [perform, heq]
      exact h
    · rw [perform, heq]
      refine socketOf_eq_some.mpr ⟨i, rfl, Nat.lt_succ_of_lt hi, ?_⟩
      rw [enter_old hi]
      exact ⟨hactive, hsock⟩
  | close l =>
    rcases infraPeerClose_cases l s with ⟨heq, _⟩ | ⟨j, rfl, _, _, heq⟩
    · rw [perform, heq]
      exact h
    · rw [perform, heq]
      have hij : i ≠ j := by
        rintro rfl
        exact hne rfl
      refine socketOf_eq_some.mpr ⟨i, rfl, hi, ?_⟩
      rw [leave_of_ne hij]
      exact ⟨hactive, hsock⟩

theorem socketOf_foldl {s : State} {k : ℤ} {n : ℕ} (h : socketOf s k = some n) (later : List Call)
    (hnot : .close k ∉ later) : socketOf (later.foldl perform s) k = some n := by
  induction later generalizing s with
  | nil => exact h
  | cons c later ih =>
    have hne : c ≠ .close k := fun heq => hnot (heq ▸ List.mem_cons_self)
    exact ih (socketOf_perform h hne) fun hmem => hnot (List.mem_cons_of_mem _ hmem)

theorem Inv.inUse_of_socketOf {s : State} (h : Inv s) {k : ℤ} {n : ℕ}
    (hsock : socketOf s k = some n) : s.sockets.InUse n := by
  obtain ⟨i, _, hi, hactive, rfl⟩ := socketOf_eq_some.mp hsock
  exact h.inUse i hi hactive

theorem numbersRight (calls : List Call) : NumbersRight calls := by
  intro earlier r later k hcalls hret hk hnot
  have hsock : socketOf (after calls) k = some (after earlier).sockets.next := by
    have hafter : after calls = later.foldl perform (infraPeerConnect r (after earlier)).1 := by
      rw [hcalls]
      simp [after, perform]
    rw [hafter]
    apply socketOf_foldl _ later hnot
    rcases infraPeerConnect_cases r (after earlier) with ⟨_, sockets, _, heq⟩ | ⟨_, _, heq⟩
    · rw [heq] at hret
      exact absurd hret.symm hk
    · rw [heq] at hret ⊢
      refine socketOf_eq_some.mpr ⟨_, hret.symm, Nat.lt_succ_self _, ?_⟩
      rw [enter_new]
      exact ⟨rfl, rfl⟩
  exact ⟨hsock, (inv_after calls).inUse_of_socketOf hsock⟩

/-- The table does what is asked of it exactly in the runs in which no peer is
connected after the table has been filled and an entry closed. -/
theorem peers_right_iff (calls : List Call) : RoomRight calls ∧ NumbersRight calls ↔
    ∀ earlier r later, calls = earlier ++ .connect r :: later → ¬ Worn earlier := by
  rw [and_iff_left (numbersRight calls)]
  constructor
  · intro h earlier r later hcalls
    exact (room_iff earlier).mp (h earlier r later hcalls)
  · intro h earlier r later hcalls
    exact (room_iff earlier).mpr (h earlier r later hcalls)

/-- 128 peers are connected and one of them is closed: 127 are active, and no
further one is let in. -/
theorem closed_entry_lost :
    let calls := List.replicate 128 (Call.connect ⟨true, true⟩) ++ [.close 5]
    LacksRoom (after calls) ∧ activePeers (after calls) ≠ maxPeers ∧
      ¬ RoomRight (calls ++ [.connect ⟨true, true⟩]) := by
  intro calls
  have hall : granted (List.replicate 128 (Call.connect ⟨true, true⟩)) = 128 := by
    simp [granted]
  have hworn : Worn calls := by
    refine ⟨?_, 5, List.replicate 128 (.connect ⟨true, true⟩), [], rfl, by decide, ?_⟩
    · rw [granted_concat, hall]
      exact Nat.le_add_right _ _
    · rw [hall]
      decide
  obtain ⟨hlacks, hactive⟩ := Classical.not_imp.mp (mt (room_iff calls).mp (not_not.mpr hworn))
  refine ⟨hlacks, hactive, fun hright => hactive ?_⟩
  exact hright calls ⟨true, true⟩ [] rfl hlacks

end Ppdb.PeerTable
