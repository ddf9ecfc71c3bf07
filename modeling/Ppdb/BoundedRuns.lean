import Ppdb.Transitions

/-!
Runs that come to an end. If every step makes a measure smaller, no run is
longer than the measure it starts with, and every run can be continued to a
state in which nothing is left to do.
-/

namespace Ppdb.BoundedRuns

open Transitions

variable {σ α : Type} {step : σ → α → Option σ} {P Q : σ → α → Prop} {s t u : σ}
  {actions more : List α} {G : σ → Prop}

/-- The actions of a list in turn, each of them admitted. -/
inductive Run (step : σ → α → Option σ) (P : σ → α → Prop) : σ → List α → σ → Prop
  | nil (s : σ) : Run step P s [] s
  | cons {s s' t : σ} {a : α} {actions : List α} (hadmitted : P s a) (hstep : step s a = some s')
      (h : Run step P s' actions t) : Run step P s (a :: actions) t

/-- None of the actions of `Q` is enabled. -/
def Stuck (step : σ → α → Option σ) (Q : σ → α → Prop) (s : σ) : Prop :=
  ∀ a, Q s a → step s a = none

/-- No run of actions of `P` from `s` is longer than `n`, and one after which no
action of `Q` is left ends in a state of `G`. -/
structure EndsIn (step : σ → α → Option σ) (P Q : σ → α → Prop) (s : σ) (n : ℕ)
    (G : σ → Prop) : Prop where
  bounded : ∀ actions t, Run step P s actions t → actions.length ≤ n
  final : ∀ actions t, Run step P s actions t → Stuck step Q t → G t

theorem Run.append (h : Run step P s actions t) (h' : Run step P t more u) :
    Run step P s (actions ++ more) u := by
  induction h with
  | nil => exact h'
  | cons hadmitted hstep _ ih => exact Run.cons hadmitted hstep (ih h')

/-- An invariant under which every step makes the measure smaller. -/
theorem Run.measure {I : σ → Prop} {μ : σ → ℕ}
    (hkeep : ∀ s a s', I s → P s a → step s a = some s' → I s' ∧ μ s' < μ s)
    (h : Run step P s actions t) (hI : I s) : I t ∧ actions.length + μ t ≤ μ s := by
  induction h with
  | nil => exact ⟨hI, by simp⟩
  | cons hadmitted hstep _ ih =>
    obtain ⟨hI', hless⟩ := hkeep _ _ _ hI hadmitted hstep
    obtain ⟨hend, hle⟩ := ih hI'
    refine ⟨hend, ?_⟩
    rw [List.length_cons]
    omega

theorem endsIn_of_measure {I : σ → Prop} {μ : σ → ℕ} {n : ℕ}
    (hkeep : ∀ s a s', I s → P s a → step s a = some s' → I s' ∧ μ s' < μ s)
    (hfinal : ∀ t, I t → Stuck step Q t → G t) (hI : I s) (hle : μ s ≤ n) :
    EndsIn step P Q s n G := by
  refine ⟨fun actions t h => ?_, fun actions t h hstuck => ?_⟩
  · have hmeasure := (h.measure hkeep hI).2
    omega
  · exact hfinal t (h.measure hkeep hI).1 hstuck

/-- Every run can be continued to its end. -/
theorem EndsIn.reaches {n : ℕ} (h : EndsIn step P Q s n G) (hsub : ∀ s a, Q s a → P s a)
    (hrun : Run step P s actions t) : ∃ more u, Run step P t more u ∧ G u := by
  -- induction on the number of actions that may still follow
  obtain ⟨k, hk⟩ : ∃ k, n - actions.length = k := ⟨_, rfl⟩
  induction k using Nat.strongRecOn generalizing actions t with
  | ind k ih =>
    by_cases hstuck : Stuck step Q t
    · exact ⟨[], t, Run.nil t, h.final actions t hrun hstuck⟩
    · unfold Stuck at hstuck
      push Not at hstuck
      obtain ⟨a, hadmitted, henabled⟩ := hstuck
      obtain ⟨t', hstep⟩ := Option.ne_none_iff_exists'.mp henabled
      have hone : Run step P t [a] t' := Run.cons (hsub t a hadmitted) hstep (Run.nil t')
      have hlonger := h.bounded _ _ (hrun.append hone)
      rw [List.length_append, List.length_singleton] at hlonger
      obtain ⟨more, u, hmore, hG⟩ :=
        ih (n - (actions ++ [a]).length) (by simp; omega) (hrun.append hone) rfl
      exact ⟨a :: more, u, Run.cons (hsub t a hadmitted) hstep hmore, hG⟩

end Ppdb.BoundedRuns
