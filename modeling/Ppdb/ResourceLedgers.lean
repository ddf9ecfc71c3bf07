import Mathlib.Data.List.Nodup
import Mathlib.Order.Nat
import Mathlib.Tactic.Common

/-!
What becomes of resources that are issued one after another, and given back:
the number issued so far and the identities given back. A sound ledger has no
identity given back twice; one without resources in use has had every one of
them given back exactly once.
-/

namespace Ppdb.ResourceLedgers

/-- Resources are known by their numbers, from 1 on. -/
structure Ledger where
  issued : ℕ
  returned : List ℕ
  deriving DecidableEq, Repr

namespace Ledger

def empty : Ledger := ⟨0, []⟩

def next (l : Ledger) : ℕ := l.issued + 1

def issue (l : Ledger) : Ledger := { l with issued := l.issued + 1 }

def giveBack (l : Ledger) (id : ℕ) : Ledger := { l with returned := id :: l.returned }

def InUse (l : Ledger) (id : ℕ) : Prop := 0 < id ∧ id ≤ l.issued ∧ id ∉ l.returned

/-- Only issued resources have been given back, none of them twice. -/
structure Sound (l : Ledger) : Prop where
  issued : ∀ id ∈ l.returned, 0 < id ∧ id ≤ l.issued
  once : l.returned.Nodup

end Ledger

open Ledger

variable {l : Ledger} {id id' : ℕ}

theorem sound_empty : Sound Ledger.empty := ⟨by simp [Ledger.empty], List.nodup_nil⟩

theorem not_inUse_empty : ¬ InUse Ledger.empty id := by
  rintro ⟨hpos, hissued, _⟩
  exact absurd hissued (not_le.mpr hpos)

theorem Ledger.InUse.ne_next (h : l.InUse id) : id ≠ l.next := by
  have hle := h.2.1
  unfold Ledger.next
  omega

theorem Ledger.Sound.issue (h : l.Sound) : l.issue.Sound := by
  refine ⟨?_, h.once⟩
  intro id hid
  obtain ⟨hpos, hle⟩ := h.issued id hid
  exact ⟨hpos, Nat.le_succ_of_le hle⟩

theorem inUse_issue_iff (h : l.Sound) : l.issue.InUse id ↔ l.InUse id ∨ id = l.next := by
  constructor
  · rintro ⟨hpos, hle, hnot⟩
    by_cases hid : id = l.next
    · exact Or.inr hid
    · refine Or.inl ⟨hpos, ?_, hnot⟩
      change id ≤ l.issued + 1 at hle
      unfold Ledger.next at hid
      omega
  · rintro (⟨hpos, hle, hnot⟩ | rfl)
    · exact ⟨hpos, Nat.le_succ_of_le hle, hnot⟩
    · refine ⟨Nat.succ_pos _, le_refl _, ?_⟩
      intro hmem
      exact absurd (h.issued _ hmem).2 (Nat.not_succ_le_self _)

theorem Ledger.Sound.giveBack (h : l.Sound) (hid : l.InUse id) : (l.giveBack id).Sound := by
  refine ⟨?_, List.nodup_cons.mpr ⟨hid.2.2, h.once⟩⟩
  intro id' hid'
  rcases List.mem_cons.mp hid' with rfl | hid'
  · exact ⟨hid.1, hid.2.1⟩
  · exact h.issued id' hid'

theorem inUse_giveBack_iff : (l.giveBack id).InUse id' ↔ l.InUse id' ∧ id' ≠ id := by
  unfold Ledger.InUse
  rw [Ledger.giveBack, List.mem_cons, not_or]
  constructor
  · rintro ⟨hpos, hle, hne, hnot⟩
    exact ⟨⟨hpos, hle, hnot⟩, hne⟩
  · rintro ⟨⟨hpos, hle, hnot⟩, hne⟩
    exact ⟨hpos, hle, hne, hnot⟩

/-- A resource that is issued and not in use has been given back exactly once. -/
theorem Ledger.Sound.count_eq_one (h : l.Sound) (hpos : 0 < id) (hle : id ≤ l.issued)
    (hnot : ¬ l.InUse id) : l.returned.count id = 1 := by
  apply List.count_eq_one_of_mem h.once
  by_contra hmem
  exact hnot ⟨hpos, hle, hmem⟩

/-- What is issued and given back again leaves everything else as it was. -/
theorem inUse_returned_iff (h : l.Sound) : (l.issue.giveBack l.next).InUse id ↔ l.InUse id := by
  rw [inUse_giveBack_iff, inUse_issue_iff h]
  constructor
  · rintro ⟨hid | hid, hne⟩
    · exact hid
    · exact absurd hid hne
  · intro hid
    exact ⟨Or.inl hid, hid.ne_next⟩

/-- Everything issued since has been given back exactly once, and nothing else. -/
structure Ledger.Released (l l' : Ledger) : Prop where
  once : ∀ id, l.issued < id → id ≤ l'.issued → l'.returned.count id = 1
  others : ∀ id, l'.InUse id ↔ l.InUse id

theorem released_refl (l : Ledger) : l.Released l :=
  ⟨fun _ hlt hle => absurd hlt (not_lt.mpr hle), fun _ => Iff.rfl⟩

theorem Ledger.Sound.released_next (h : l.Sound) : l.Released (l.issue.giveBack l.next) := by
  have hnext : l.issue.InUse l.next := (inUse_issue_iff h).mpr (Or.inr rfl)
  refine ⟨?_, fun _ => inUse_returned_iff h⟩
  intro id hlt hle
  apply (h.issue.giveBack hnext).count_eq_one (Nat.zero_lt_of_lt hlt) hle
  rw [inUse_returned_iff h]
  intro huse
  exact absurd huse.2.1 (not_le.mpr hlt)

def Ledger.Gains (l l' : Ledger) (id : ℕ) : Prop :=
  ¬ l.InUse id ∧ ∀ id', l'.InUse id' ↔ l.InUse id' ∨ id' = id

theorem Ledger.Sound.gains_next (h : l.Sound) : l.Gains l.issue l.next :=
  ⟨fun huse => huse.ne_next rfl, fun _ => inUse_issue_iff h⟩

/-! ### Holders -/

section Holders
variable {held held' ids : List ℕ}

/-- The resources in a list of holders are in use, each held once. -/
structure Ledger.Holds (l : Ledger) (held : List ℕ) : Prop where
  sound : l.Sound
  nodup : held.Nodup
  inUse : ∀ id ∈ held, l.InUse id

def Ledger.Leaks (l : Ledger) (held : List ℕ) : Prop := ∃ id, l.InUse id ∧ id ∉ held

def Ledger.giveBackAll (l : Ledger) (ids : List ℕ) : Ledger := ids.foldl Ledger.giveBack l

theorem holds_empty : Ledger.empty.Holds [] := ⟨sound_empty, List.nodup_nil, by simp⟩

theorem not_leaks_empty : ¬ Ledger.empty.Leaks [] := by
  rintro ⟨id, hid, _⟩
  exact not_inUse_empty hid

theorem Ledger.Holds.perm (h : l.Holds held) (hperm : held.Perm held') : l.Holds held' := by
  refine ⟨h.sound, hperm.nodup h.nodup, ?_⟩
  intro id hid
  exact h.inUse id (hperm.mem_iff.mpr hid)

theorem leaks_perm_iff (hperm : held.Perm held') : l.Leaks held ↔ l.Leaks held' := by
  unfold Ledger.Leaks
  simp only [hperm.mem_iff]

theorem Ledger.Holds.issue (h : l.Holds held) : l.issue.Holds (l.next :: held) := by
  refine ⟨h.sound.issue, List.nodup_cons.mpr ⟨?_, h.nodup⟩, ?_⟩
  · intro hmem
    exact (h.inUse _ hmem).ne_next rfl
  · intro id hid
    rw [inUse_issue_iff h.sound]
    rcases List.mem_cons.mp hid with rfl | hid
    · exact Or.inr rfl
    · exact Or.inl (h.inUse id hid)

theorem leaks_issue_iff (h : l.Sound) : l.issue.Leaks (l.next :: held) ↔ l.Leaks held := by
  unfold Ledger.Leaks
  simp only [inUse_issue_iff h, List.mem_cons, not_or]
  constructor
  · rintro ⟨id, huse, hne, hnot⟩
    exact ⟨id, huse.resolve_right hne, hnot⟩
  · rintro ⟨id, huse, hnot⟩
    exact ⟨id, Or.inl huse, huse.ne_next, hnot⟩

theorem Ledger.Holds.giveBack (h : l.Holds (id :: held)) : (l.giveBack id).Holds held := by
  obtain ⟨hnot, hnodup⟩ := List.nodup_cons.mp h.nodup
  refine ⟨h.sound.giveBack (h.inUse id List.mem_cons_self), hnodup, ?_⟩
  intro id' hid'
  rw [inUse_giveBack_iff]
  refine ⟨h.inUse id' (List.mem_cons_of_mem _ hid'), ?_⟩
  rintro rfl
  exact hnot hid'

theorem leaks_giveBack_iff : (l.giveBack id).Leaks held ↔ l.Leaks (id :: held) := by
  unfold Ledger.Leaks
  simp only [inUse_giveBack_iff, List.mem_cons, not_or, and_assoc]

/-- Holders that are forgotten without giving back leave a leak. -/
theorem Ledger.Holds.drop (h : l.Holds (ids ++ held)) : l.Holds held := by
  refine ⟨h.sound, (List.nodup_append.mp h.nodup).2.1, ?_⟩
  intro id hid
  exact h.inUse id (List.mem_append_right _ hid)

theorem Ledger.Holds.leaks_of_drop (h : l.Holds (id :: held)) : l.Leaks held :=
  ⟨id, h.inUse id List.mem_cons_self, (List.nodup_cons.mp h.nodup).1⟩

theorem Ledger.Leaks.mono (h : l.Leaks held) (hsub : ∀ id ∈ held', id ∈ held) : l.Leaks held' := by
  obtain ⟨id, huse, hnot⟩ := h
  exact ⟨id, huse, fun hmem => hnot (hsub id hmem)⟩

theorem Ledger.Holds.giveBackAll (h : l.Holds (ids ++ held)) : (l.giveBackAll ids).Holds held := by
  induction ids generalizing l with
  | nil => exact h
  | cons id ids ih =>
    rw [List.cons_append] at h
    exact ih h.giveBack

theorem leaks_giveBackAll_iff : (l.giveBackAll ids).Leaks held ↔ l.Leaks (ids ++ held) := by
  induction ids generalizing l with
  | nil => exact Iff.rfl
  | cons id ids ih => exact ih.trans leaks_giveBack_iff

/-- With no holders left, everything issued has been given back exactly once,
unless there is a leak. -/
theorem Ledger.Holds.count_eq_one_iff (h : l.Holds []) :
    (∀ id, 0 < id → id ≤ l.issued → l.returned.count id = 1) ↔ ¬ l.Leaks [] := by
  constructor
  · rintro hall ⟨id, ⟨hpos, hle, hnot⟩, _⟩
    have hone := hall id hpos hle
    rw [List.count_eq_zero_of_not_mem hnot] at hone
    cases hone
  · intro hnone id hpos hle
    apply h.sound.count_eq_one hpos hle
    intro huse
    exact hnone ⟨id, huse, List.not_mem_nil⟩

end Holders

end Ppdb.ResourceLedgers
