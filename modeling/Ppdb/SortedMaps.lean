import Mathlib.Data.List.Basic
import Mathlib.Order.Lattice
import Mathlib.Tactic.Common
import Mathlib.Logic.Function.Basic

/-!
Finite maps held as lists in strictly increasing order of their keys: a list
denotes a map, and what an insertion, an overwriting and a removal in the
middle of the list do to it.
-/

namespace Ppdb.SortedMaps

variable {κ ν : Type} {before after : List (κ × ν)} {m : κ → Option ν} {k : κ} {v w : ν}

def Denotes (l : List (κ × ν)) (m : κ → Option ν) : Prop := ∀ k v, m k = some v ↔ (k, v) ∈ l

theorem denotes_nil : Denotes ([] : List (κ × ν)) fun _ => none := by
  intro k v
  simp

theorem Denotes.none_iff {l : List (κ × ν)} (h : Denotes l m) :
    m k = none ↔ ∀ v, (k, v) ∉ l := by
  constructor
  · intro hnone v hmem
    rw [(h k v).mpr hmem] at hnone
    cases hnone
  · intro hout
    cases hk : m k with
    | none => rfl
    | some v => exact absurd ((h k v).mp hk) (hout v)

/-- The value of a key in the middle of the list. -/
theorem Denotes.at_key (h : Denotes (before ++ (k, v) :: after) m) : m k = some v :=
  (h k v).mpr (by simp)

variable [LinearOrder κ]

def Ascending (l : List (κ × ν)) : Prop := l.Pairwise fun a b => a.1 < b.1

/-- In an ascending list the keys before and after a pair differ from its own. -/
theorem Ascending.apart (h : Ascending (before ++ (k, v) :: after)) :
    (∀ w, (k, w) ∉ before) ∧ ∀ w, (k, w) ∉ after := by
  obtain ⟨_, hafter, hbefore⟩ := List.pairwise_append.mp h
  constructor
  · intro w hmem
    exact lt_irrefl k (hbefore (k, w) hmem (k, v) List.mem_cons_self)
  · intro w hmem
    exact lt_irrefl k ((List.pairwise_cons.mp hafter).1 (k, w) hmem)

theorem Ascending.erase (h : Ascending (before ++ (k, v) :: after)) : Ascending (before ++ after) :=
  h.sublist ((List.sublist_cons_self _ _).append_left _)

theorem Ascending.insert (h : Ascending (before ++ after)) (hbefore : ∀ a ∈ before, a.1 < k)
    (hafter : ∀ a ∈ after, k < a.1) (v : ν) : Ascending (before ++ (k, v) :: after) := by
  obtain ⟨hb, ha, hab⟩ := List.pairwise_append.mp h
  refine List.pairwise_append.mpr ⟨hb, List.pairwise_cons.mpr ⟨hafter, ha⟩, ?_⟩
  intro a hmem b hmem'
  rcases List.mem_cons.mp hmem' with rfl | hmem'
  · exact hbefore a hmem
  · exact hab a hmem b hmem'

theorem Ascending.overwrite (h : Ascending (before ++ (k, v) :: after)) (w : ν) :
    Ascending (before ++ (k, w) :: after) := by
  obtain ⟨_, ha, hab⟩ := List.pairwise_append.mp h
  refine h.erase.insert (fun a hmem => hab a hmem (k, v) List.mem_cons_self) ?_ w
  exact (List.pairwise_cons.mp ha).1

theorem Denotes.insert (h : Denotes (before ++ after) m) (hk : m k = none) (v : ν) :
    Denotes (before ++ (k, v) :: after) (Function.update m k (some v)) := by
  intro k' w
  have hnone := h.none_iff.mp hk
  have hmem : (k', w) ∈ before ++ (k, v) :: after ↔ (k' = k ∧ w = v) ∨ (k', w) ∈ before ++ after := by
    simp only [List.mem_append, List.mem_cons, Prod.mk.injEq]
    tauto
  rw [hmem]
  by_cases heq : k' = k
  · subst heq
    have hout := hnone w
    simp only [Function.update_self, Option.some.injEq, true_and, hout, or_false]
    exact eq_comm
  · simp only [Function.update_of_ne heq, heq, false_and, false_or]
    exact h k' w

theorem Denotes.erase (h : Denotes (before ++ (k, v) :: after) m)
    (hasc : Ascending (before ++ (k, v) :: after)) :
    Denotes (before ++ after) (Function.update m k none) := by
  obtain ⟨hb, ha⟩ := hasc.apart
  intro k' w
  by_cases heq : k' = k
  · subst heq
    simp [hb, ha]
  · rw [Function.update_of_ne heq, h k' w]
    simp [heq]

theorem Denotes.overwrite (h : Denotes (before ++ (k, v) :: after) m)
    (hasc : Ascending (before ++ (k, v) :: after)) (w : ν) :
    Denotes (before ++ (k, w) :: after) (Function.update m k (some w)) := by
  have herase := h.erase hasc
  have hinsert := herase.insert (Function.update_self k none m) w
  rwa [Function.update_idem] at hinsert

end Ppdb.SortedMaps
