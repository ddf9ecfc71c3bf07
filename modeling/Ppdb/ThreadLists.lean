import Mathlib.Data.List.Basic
import Mathlib.Data.List.Perm.Basic
import Mathlib.Algebra.GroupWithZero.Nat
import Mathlib.Tactic.Common

/-!
Any number of threads as the list of the points they have reached. One thread
moves at a time; what that does to the number of threads at certain points and
to what the threads hold follows from where it was and where it is.
-/

namespace Ppdb.ThreadLists

variable {α β : Type} {l l' : List α} {a b : α}

/-- One thread goes from `a` to `b`. -/
def Moves (l : List α) (a b : α) (l' : List α) : Prop :=
  ∃ before after, l = before ++ a :: after ∧ l' = before ++ b :: after

theorem moves_set {i : ℕ} (h : l[i]? = some a) (b : α) : Moves l a b (l.set i b) := by
  obtain ⟨hi, ha⟩ := List.getElem?_eq_some_iff.mp h
  refine ⟨l.take i, l.drop (i + 1), ?_, List.set_eq_take_cons_drop b hi⟩
  rw [← ha, List.getElem_cons_drop, List.take_append_drop]

theorem Moves.mem (h : Moves l a b l') : a ∈ l := by
  obtain ⟨before, after, rfl, _⟩ := h
  simp

/-- The number of threads at points that satisfy `p`. -/
theorem Moves.countP (h : Moves l a b l') (p : α → Bool) :
    l'.countP p + (p a).toNat = l.countP p + (p b).toNat := by
  obtain ⟨before, after, rfl, rfl⟩ := h
  simp only [List.countP_append, List.countP_cons]
  cases p a <;> cases p b <;> simp <;> omega

/-- A sum over all threads. -/
theorem Moves.sum_map (h : Moves l a b l') (f : α → ℕ) :
    (l'.map f).sum + f a = (l.map f).sum + f b := by
  obtain ⟨before, after, rfl, rfl⟩ := h
  simp only [List.map_append, List.map_cons, List.sum_append, List.sum_cons]
  omega

/-- A sum to which only the threads at certain points add. -/
theorem sum_map_le {f : α → ℕ} {p : α → Bool} {k : ℕ} (hbound : ∀ a, f a ≤ k * (p a).toNat)
    (l : List α) : (l.map f).sum ≤ k * l.countP p := by
  induction l with
  | nil => exact Nat.le_refl _
  | cons a l ih =>
    have ha := hbound a
    rw [List.map_cons, List.sum_cons, List.countP_cons]
    cases hp : p a with
    | false =>
      rw [hp, Bool.toNat_false, Nat.mul_zero] at ha
      rw [if_neg Bool.false_ne_true, Nat.add_zero]
      omega
    | true =>
      rw [hp, Bool.toNat_true, Nat.mul_one] at ha
      rw [if_pos rfl, Nat.mul_add, Nat.mul_one]
      omega

/-- What the threads hold, where only the one that moves may take or drop something. -/
theorem Moves.filterMap_perm (h : Moves l a b l') (f : α → Option β) :
    ((f a).toList ++ l'.filterMap f).Perm ((f b).toList ++ l.filterMap f) := by
  obtain ⟨before, after, rfl, rfl⟩ := h
  have hcons : ∀ x : α, (before ++ x :: after).filterMap f =
      before.filterMap f ++ ((f x).toList ++ after.filterMap f) := by
    intro x
    cases hx : f x <;> simp [hx]
  rw [hcons, hcons]
  apply (List.perm_append_comm_assoc _ _ _).trans
  refine List.Perm.trans ?_ (List.perm_append_comm_assoc _ _ _)
  exact (List.perm_append_comm_assoc _ _ _).append_left _

theorem Moves.filterMap_eq (h : Moves l a b l') {f : α → Option β} (ha : f a = none)
    (hb : f b = none) : l'.filterMap f = l.filterMap f := by
  obtain ⟨before, after, rfl, rfl⟩ := h
  simp [ha, hb]

/-- A number of threads that is positive has a thread. -/
theorem exists_of_countP {p : α → Bool} (h : 0 < l.countP p) : ∃ a ∈ l, p a = true :=
  List.countP_pos_iff.mp h

end Ppdb.ThreadLists
