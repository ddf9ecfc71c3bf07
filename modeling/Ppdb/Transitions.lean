import Mathlib.Tactic.Common

/-!
Systems that take step after step: a step function that is undefined where an
action is not enabled, the states that runs of admitted actions reach, and the
rule by which an invariant is carried along a run.
-/

namespace Ppdb.Transitions

variable {σ α : Type} {init : σ} {step : σ → α → Option σ} {P Q : σ → α → Prop} {s : σ}

/-- Reached from `init` by actions that the relation admits. -/
inductive Reachable (init : σ) (step : σ → α → Option σ) (P : σ → α → Prop) : σ → Prop
  | init : Reachable init step P init
  | step {s s' : σ} {a : α} (h : Reachable init step P s) (hadmitted : P s a)
      (hstep : step s a = some s') : Reachable init step P s'

theorem Reachable.trans {t : σ} (h : Reachable init step P s) (h' : Reachable s step P t) :
    Reachable init step P t := by
  induction h' with
  | init => exact h
  | step _ hadmitted hstep ih => exact ih.step hadmitted hstep

/-- What holds at the start and is kept by every admitted step holds throughout. -/
theorem Reachable.invariant {I : σ → Prop} (h : Reachable init step P s) (hinit : I init)
    (hkeep : ∀ s a s', I s → P s a → step s a = some s' → I s') : I s := by
  induction h with
  | init => exact hinit
  | step _ hadmitted hstep ih => exact hkeep _ _ _ ih hadmitted hstep

/-- An invariant whose steps rely on another one that holds throughout. -/
theorem Reachable.invariant_of {I J : σ → Prop} (h : Reachable init step P s)
    (hJ : ∀ s, Reachable init step P s → J s) (hinit : I init)
    (hkeep : ∀ s a s', J s → I s → P s a → step s a = some s' → I s') : I s := by
  induction h with
  | init => exact hinit
  | step hs hadmitted hstep ih => exact hkeep _ _ _ (hJ _ hs) ih hadmitted hstep

section Follow
variable [∀ s a, Decidable (P s a)]

def follow (step : σ → α → Option σ) (P : σ → α → Prop) [∀ s a, Decidable (P s a)] :
    List α → σ → Option σ
  | [], s => some s
  | a :: rest, s =>
    if P s a then
      match step s a with
      | none => none
      | some s' => follow step P rest s'
    else none

theorem reachable_follow {actions : List α} {s s' : σ} (h : Reachable init step P s)
    (hfollow : follow step P actions s = some s') : Reachable init step P s' := by
  induction actions generalizing s with
  | nil =>
    injection hfollow with hs
    rwa [← hs]
  | cons a rest ih =>
    unfold follow at hfollow
    split at hfollow
    · cases hstep : step s a with
      | none => simp [hstep] at hfollow
      | some s₁ =>
        rw [hstep] at hfollow
        exact ih (Reachable.step h ‹_› hstep) hfollow
    · cases hfollow

/-- A state that a list of actions reaches and that passes a test. -/
theorem exists_reachable (actions : List α) (T : σ → Bool)
    (h : (follow step P actions init).any T = true) :
    ∃ s, Reachable init step P s ∧ T s = true := by
  cases hfollow : follow step P actions init with
  | none => simp [hfollow] at h
  | some s =>
    rw [hfollow] at h
    exact ⟨s, reachable_follow Reachable.init hfollow, h⟩

end Follow

end Ppdb.Transitions
