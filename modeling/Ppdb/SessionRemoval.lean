import Ppdb.SessionAccounts
import Mathlib.Data.List.Perm.Basic

/-!
The removal of a session from a list without holes. The last session is moved
to the place of the one removed: the table then holds exactly the others, but
the threads of the moved session still look at its old slot, which is cleared.
-/

namespace Ppdb.SessionRemoval

open RinetdContext SessionAccounts

/-- The first `n` slots hold the sessions, which differ in their sockets. -/
structure Compact (ctx : Context) (n : ℕ) : Prop where
  count : ctx.sessionCount = n
  fits : n ≤ maxRules
  active : ∀ i, i < n → (ctx.activeSessions i).active = true ∧
    (ctx.activeSessions i).clientSock ≠ 0 ∧ (ctx.activeSessions i).serverSock ≠ 0
  distinct : ∀ i j, i < n → j < n →
    (ctx.activeSessions i).clientSock = (ctx.activeSessions j).clientSock →
    (ctx.activeSessions i).serverSock = (ctx.activeSessions j).serverSock → i = j
  empty : ∀ i, n ≤ i → ctx.activeSessions i = Session.zero

def sessions (ctx : Context) (n : ℕ) : List Session := (List.range n).map ctx.activeSessions

/-- The session in slot `i` is taken out of the table, and every other one is
left in the slot that its threads were given. -/
def RemovalRight (ctx : Context) (n i : ℕ) : Prop :=
  ∃ after, removeSessionFromList ctx (ctx.activeSessions i) = some after ∧
    after.sessionCount = n - 1 ∧
    (sessions after (n - 1)).Perm ((sessions ctx n).erase (ctx.activeSessions i)) ∧
    ∀ j, j < n → j ≠ i → after.activeSessions j = ctx.activeSessions j

def withoutSession (slots : ℕ → Session) (n i : ℕ) : ℕ → Session :=
  Function.update (if i + 1 < n then Function.update slots i (slots (n - 1)) else slots) (n - 1)
    Session.zero

variable {ctx : Context} {n i k m : ℕ}

/-- The loop goes past the sessions before the one it looks for. -/
theorem removeFrom_spec (h : Compact ctx n) (hi : i < n) (hk : k ≤ i) (hm : k + m = n) :
    removeFrom ctx (ctx.activeSessions i) k m =
      some { ctx with
        activeSessions := withoutSession ctx.activeSessions n i
        sessionCount := ctx.sessionCount - 1 } := by
  have hfits := h.fits
  induction m generalizing k with
  | zero => omega
  | succ m ih =>
    unfold removeFrom
    rw [if_neg (by omega)]
    rcases eq_or_ne k i with rfl | hne
    · have hlast : k + m = n - 1 := by omega
      rw [if_pos ⟨rfl, rfl⟩, if_neg (by omega), hlast]
      by_cases hm0 : m = 0
      · have hend : ¬ k + 1 < n := by omega
        simp only [hm0, ne_eq, not_true, if_false, withoutSession, if_neg hend]
      · have hmore : k + 1 < n := by omega
        simp only [ne_eq, hm0, not_false_iff, if_true, withoutSession, if_pos hmore]
    · rw [if_neg]
      · exact ih (by omega) (by omega)
      · rintro ⟨hclient, hserver⟩
        exact hne (h.distinct k i (by omega) hi hclient hserver)

theorem removeSessionFromList_spec (h : Compact ctx n) (hi : i < n) :
    removeSessionFromList ctx (ctx.activeSessions i) =
      some { ctx with
        activeSessions := withoutSession ctx.activeSessions n i
        sessionCount := ctx.sessionCount - 1 } := by
  have hcount : ctx.sessionCount.toNat = n := by
    rw [h.count]
    exact Int.toNat_natCast n
  rw [removeSessionFromList, hcount]
  exact removeFrom_spec h hi (Nat.zero_le i) (Nat.zero_add n)

theorem map_range_congr {α : Type} {f g : ℕ → α} (h : ∀ j, j < m → f j = g j) :
    (List.range m).map f = (List.range m).map g :=
  List.map_congr_left fun j hj => h j (List.mem_range.mp hj)

/-- Writing `b` over the value at `i` exchanges the two. -/
theorem map_range_update_perm {α : Type} (f : ℕ → α) (b : α) (hi : i < m) :
    (f i :: (List.range m).map (Function.update f i b)).Perm (b :: (List.range m).map f) := by
  induction m with
  | zero => exact absurd hi (Nat.not_lt_zero i)
  | succ m ih =>
    rw [List.range_succ, List.map_append, List.map_append]
    rcases Nat.lt_succ_iff_lt_or_eq.mp hi with hlt | rfl
    · have hother : Function.update f i b m = f m := Function.update_of_ne (Nat.ne_of_gt hlt) _ _
      rw [List.map_singleton, List.map_singleton, hother]
      exact (ih hlt).append_right [f m]
    · have hbefore : (List.range i).map (Function.update f i b) = (List.range i).map f :=
        map_range_congr fun j hj => Function.update_of_ne (Nat.ne_of_lt hj) _ _
      rw [List.map_singleton, List.map_singleton, hbefore, Function.update_self]
      have hmoved : (f i :: ((List.range i).map f ++ [b])).Perm
          (b :: f i :: (List.range i).map f) :=
        List.perm_append_singleton b (f i :: (List.range i).map f)
      exact hmoved.trans ((List.perm_append_singleton (f i) _).symm.cons b)

/-- The table keeps exactly the other sessions, in whatever slots. -/
theorem sessions_removed (hi : i < n) {after : Context}
    (hafter : after.activeSessions = withoutSession ctx.activeSessions n i) :
    (sessions after (n - 1)).Perm ((sessions ctx n).erase (ctx.activeSessions i)) := by
  obtain ⟨l, rfl⟩ : ∃ l, n = l + 1 := ⟨n - 1, by omega⟩
  have hsessions : sessions ctx (l + 1) = sessions ctx l ++ [ctx.activeSessions l] := by
    rw [sessions, List.range_succ, List.map_append]
    rfl
  have hall : (ctx.activeSessions l :: sessions ctx l).Perm (sessions ctx (l + 1)) := by
    rw [hsessions]
    exact (List.perm_append_singleton _ _).symm
  refine (List.cons_perm_iff_perm_erase.mp ?_).2
  rw [Nat.add_sub_cancel]
  rcases Nat.lt_succ_iff_lt_or_eq.mp hi with hlt | rfl
  · have hslots : sessions after l = (List.range l).map
        (Function.update ctx.activeSessions i (ctx.activeSessions l)) := by
      apply map_range_congr
      intro j hj
      rw [hafter, withoutSession, if_pos (Nat.succ_lt_succ hlt), Nat.add_sub_cancel]
      exact Function.update_of_ne (Nat.ne_of_lt hj) _ _
    rw [hslots]
    exact (map_range_update_perm _ _ hlt).trans hall
  · have hslots : sessions after i = sessions ctx i := by
      apply map_range_congr
      intro j hj
      rw [hafter, withoutSession, if_neg (lt_irrefl _), Nat.add_sub_cancel]
      exact Function.update_of_ne (Nat.ne_of_lt hj) _ _
    rw [hslots]
    exact hall

/-- A removal leaves the other sessions where they are exactly if it is that of
the last one. -/
theorem removalRight_iff (h : Compact ctx n) (hi : i < n) : RemovalRight ctx n i ↔ i + 1 = n := by
  have hremoved := removeSessionFromList_spec h hi
  constructor
  · rintro ⟨after, hafter, _, _, hothers⟩
    obtain rfl := Option.some.inj (hremoved.symm.trans hafter)
    by_contra hne
    have hlast := hothers (n - 1) (by omega) (by omega)
    have hactive := (h.active (n - 1) (by omega)).1
    rw [← hlast] at hactive
    simp [withoutSession, Session.zero] at hactive
  · intro hlast
    refine ⟨_, hremoved, ?_, sessions_removed hi rfl, ?_⟩
    · simp [h.count]
    · intro j hj hne
      have hend : ¬ i + 1 < n := by omega
      show withoutSession ctx.activeSessions n i j = ctx.activeSessions j
      rw [withoutSession, if_neg hend]
      exact Function.update_of_ne (by omega) _ _

def withSessions (n : ℕ) : Context where
  __ := Context.zero
  activeSessions := fun i => if i < n then ⟨2 * i + 1, 2 * i + 2, 0, 0, true⟩ else Session.zero
  sessionCount := n

theorem compact_withSessions (hn : n ≤ maxRules) : Compact (withSessions n) n := by
  refine ⟨rfl, hn, ?_, ?_, ?_⟩
  · intro i hi
    simp [withSessions, hi]
  · intro i j hi hj hclient _
    simp [withSessions, hi, hj] at hclient
    omega
  · intro i hi
    simp [withSessions, not_lt.mpr hi]

/-- The second of two sessions is removed. -/
theorem removalRight_second : RemovalRight (withSessions 2) 2 1 :=
  (removalRight_iff (compact_withSessions (by decide)) (by decide)).mpr rfl

/-- The first of two sessions is removed: the threads of the second one find
their slot cleared. -/
theorem moved_session_lost :
    (∃ after, removeSessionFromList (withSessions 2) ((withSessions 2).activeSessions 0) =
      some after ∧ (after.activeSessions 1).active = false) ∧
    Compact (withSessions 2) 2 ∧ ¬ RemovalRight (withSessions 2) 2 0 := by
  refine ⟨⟨_, rfl, rfl⟩, compact_withSessions (by decide), ?_⟩
  rintro ⟨after, hafter, _, _, hothers⟩
  obtain rfl := Option.some.inj hafter
  have hslot := congrArg Session.active (hothers 1 (by decide) (by decide))
  cases hslot

end Ppdb.SessionRemoval
