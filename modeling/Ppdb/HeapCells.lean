import Mathlib.Data.List.Perm.Subperm
import Mathlib.Logic.Function.Basic

/-!
The cells of a memory that are in use. An operation hands out a cell, takes one
back, or does neither, and the number of cells in use changes accordingly. A
structure that owns as many cells as are in use owns all of them.
-/

namespace Ppdb.HeapCells

variable {ι α : Type*} {heap heap' heap'' : ι → Option α} {ids : List ι} {p : ι} {n : ℕ}

/-- The cells in use are those of the list. -/
structure Exactly (heap : ι → Option α) (ids : List ι) : Prop where
  nodup : ids.Nodup
  live : ∀ i, (heap i).isSome ↔ i ∈ ids

def Counts (heap : ι → Option α) (n : ℕ) : Prop := ∃ ids, Exactly heap ids ∧ ids.length = n

def SameCells (heap heap' : ι → Option α) : Prop := ∀ i, (heap' i).isSome ↔ (heap i).isSome

def Gains (p : ι) (heap heap' : ι → Option α) : Prop :=
  ¬ (heap p).isSome ∧ ∀ i, (heap' i).isSome ↔ i = p ∨ (heap i).isSome

def Loses (p : ι) (heap heap' : ι → Option α) : Prop :=
  (heap p).isSome ∧ ∀ i, (heap' i).isSome ↔ i ≠ p ∧ (heap i).isSome

/-- Cells are taken back, and nothing else is done to any. -/
def Frees (heap heap' : ι → Option α) : Prop := ∀ i, heap' i = heap i ∨ heap' i = none

/-! ### Single cells -/

section Update
variable [DecidableEq ι]

theorem sameCells_update (h : (heap p).isSome) (a : α) :
    SameCells heap (Function.update heap p (some a)) := by
  intro i
  by_cases hi : i = p
  · rw [hi, Function.update_self]
    exact iff_of_true rfl h
  · rw [Function.update_of_ne hi]

theorem gains_update (h : ¬ (heap p).isSome) (a : α) :
    Gains p heap (Function.update heap p (some a)) := by
  refine ⟨h, fun i => ?_⟩
  by_cases hi : i = p
  · simp [hi]
  · simp [hi]

theorem loses_update (h : (heap p).isSome) : Loses p heap (Function.update heap p none) := by
  refine ⟨h, fun i => ?_⟩
  by_cases hi : i = p
  · simp [hi]
  · simp [hi]

theorem frees_update (heap : ι → Option α) (p : ι) : Frees heap (Function.update heap p none) := by
  intro i
  by_cases hi : i = p
  · rw [hi, Function.update_self]
    exact Or.inr rfl
  · exact Or.inl (Function.update_of_ne hi _ _)

end Update

theorem SameCells.refl (heap : ι → Option α) : SameCells heap heap := fun _ => Iff.rfl

theorem SameCells.trans (h : SameCells heap heap') (h' : SameCells heap' heap'') :
    SameCells heap heap'' := fun i => (h' i).trans (h i)

theorem Gains.trans (h : Gains p heap heap') (h' : SameCells heap' heap'') : Gains p heap heap'' :=
  ⟨h.1, fun i => (h' i).trans (h.2 i)⟩

theorem SameCells.loses (h : SameCells heap heap') (h' : Loses p heap' heap'') :
    Loses p heap heap'' :=
  ⟨(h p).mp h'.1, fun i => (h'.2 i).trans (and_congr_right fun _ => h i)⟩

/-- A cell handed out and taken back again -/
theorem Gains.loses (h : Gains p heap heap') (h' : Loses p heap' heap'') :
    SameCells heap heap'' := by
  intro i
  rw [h'.2, h.2]
  constructor
  · intro ⟨hne, hor⟩
    exact hor.resolve_left hne
  · intro hlive
    exact ⟨fun heq => h.1 (heq ▸ hlive), Or.inr hlive⟩

theorem Frees.refl (heap : ι → Option α) : Frees heap heap := fun _ => Or.inl rfl

theorem Frees.trans (h : Frees heap heap') (h' : Frees heap' heap'') : Frees heap heap'' := by
  intro i
  rcases h' i with heq | hnone
  · rw [heq]
    exact h i
  · exact Or.inr hnone

theorem Frees.none (h : Frees heap heap') (hnone : heap p = none) : heap' p = none := by
  rcases h p with heq | hnone'
  · rw [heq, hnone]
  · exact hnone'

/-! ### The cells as a whole -/

theorem counts_zero : Counts (fun _ : ι => (none : Option α)) 0 :=
  ⟨[], ⟨List.nodup_nil, fun _ => by simp⟩, rfl⟩

theorem Counts.same (h : Counts heap n) (hsame : SameCells heap heap') : Counts heap' n := by
  obtain ⟨ids, hids, hn⟩ := h
  exact ⟨ids, ⟨hids.nodup, fun i => (hsame i).trans (hids.live i)⟩, hn⟩

theorem Counts.gain (h : Counts heap n) (hgain : Gains p heap heap') : Counts heap' (n + 1) := by
  obtain ⟨ids, hids, hn⟩ := h
  refine ⟨p :: ids, ⟨List.nodup_cons.mpr ⟨mt (hids.live p).mpr hgain.1, hids.nodup⟩, ?_⟩, ?_⟩
  · intro i
    rw [hgain.2, List.mem_cons, hids.live]
  · rw [List.length_cons, hn]

theorem Counts.lose [DecidableEq ι] (h : Counts heap n) (hlose : Loses p heap heap') :
    0 < n ∧ Counts heap' (n - 1) := by
  obtain ⟨ids, hids, hn⟩ := h
  have hp : p ∈ ids := (hids.live p).mp hlose.1
  refine ⟨hn ▸ List.length_pos_of_mem hp, ids.erase p, ⟨hids.nodup.erase p, ?_⟩, ?_⟩
  · intro i
    rw [hlose.2, hids.nodup.mem_erase_iff, hids.live]
  · rw [List.length_erase_of_mem hp, hn]

/-- As many different cells as are in use, all of them in use, are all there are. -/
theorem Counts.exactly (h : Counts heap n) (hnodup : ids.Nodup)
    (hlive : ∀ i ∈ ids, (heap i).isSome) (hlength : n ≤ ids.length) : Exactly heap ids := by
  obtain ⟨live, hids, hn⟩ := h
  have hsubset : ids ⊆ live := fun i hi => (hids.live i).mp (hlive i hi)
  have hperm := (List.subperm_of_subset hnodup hsubset).perm_of_length_le (hn ▸ hlength)
  exact ⟨hnodup, fun i => (hids.live i).trans hperm.mem_iff.symm⟩

theorem Exactly.counts (h : Exactly heap ids) : Counts heap ids.length := ⟨ids, h, rfl⟩

/-- If all the cells of the structure are freed, nothing is in use any more. -/
theorem Exactly.freed (h : Exactly heap ids) (hfrees : Frees heap heap')
    (hnone : ∀ i ∈ ids, heap' i = none) : heap' = fun _ => none := by
  funext i
  by_cases hi : i ∈ ids
  · exact hnone i hi
  · exact hfrees.none (Option.not_isSome_iff_eq_none.mp (mt (h.live i).mp hi))

end Ppdb.HeapCells
