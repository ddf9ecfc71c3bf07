import Mathlib.Data.Nat.Basic

/-!
Loops that need not terminate are run with a bound on their iterations, the
fuel. A bounded run settles on a result when every large enough bound gives
that result. A loop that never ends settles on running out of fuel, so that
settling on a proper result includes termination.
-/

namespace Ppdb.EventualResults

variable {α β ε : Type}

@[simp] theorem ok_bind (a : α) (f : α → Except ε β) : (Except.ok a >>= f) = f a := rfl

@[simp] theorem error_bind (e : ε) (f : α → Except ε β) : (Except.error e >>= f) = .error e := rfl

/-- Every large enough fuel gives the result `r`. -/
def Settles (f : ℕ → α) (r : α) : Prop := ∃ n, ∀ fuel, n ≤ fuel → f fuel = r

theorem settles_const (r : α) : Settles (fun _ => r) r := ⟨0, fun _ _ => rfl⟩

theorem settles_of_ge {f : ℕ → α} {r : α} (n : ℕ) (h : ∀ fuel, f (fuel + n) = r) :
    Settles f r :=
  ⟨n, fun fuel hfuel => by rw [← Nat.sub_add_cancel hfuel]; exact h _⟩

/-- The first iteration of a loop is left out of account. -/
theorem Settles.succ {f : ℕ → α} {r : α} (h : Settles (fun fuel => f (fuel + 1)) r) :
    Settles f r := by
  obtain ⟨n, hn⟩ := h
  refine ⟨n + 1, ?_⟩
  intro fuel hfuel
  obtain ⟨k, rfl⟩ : ∃ k, fuel = k + 1 := ⟨fuel - 1, (Nat.sub_add_cancel (Nat.one_le_of_lt hfuel)).symm⟩
  exact hn k (Nat.le_of_succ_le_succ hfuel)

theorem Settles.unique {f : ℕ → α} {r r' : α} (h : Settles f r) (h' : Settles f r') : r = r' := by
  obtain ⟨n, hn⟩ := h
  obtain ⟨n', hn'⟩ := h'
  exact (hn (max n n') (le_max_left n n')).symm.trans (hn' (max n n') (le_max_right n n'))

theorem Settles.of_eq {f g : ℕ → α} {r : α} (h : Settles g r) (heq : ∀ fuel, f fuel = g fuel) :
    Settles f r := by
  obtain ⟨n, hn⟩ := h
  exact ⟨n, fun fuel hfuel => (heq fuel).trans (hn fuel hfuel)⟩

theorem Settles.map {f : ℕ → α} {r : α} (h : Settles f r) (g : α → β) :
    Settles (fun fuel => g (f fuel)) (g r) := by
  obtain ⟨n, hn⟩ := h
  exact ⟨n, fun fuel hfuel => congrArg g (hn fuel hfuel)⟩

/-- Sequencing: a first part that settles on a value hands it to the rest. -/
theorem Settles.bind {f : ℕ → Except ε α} {g : ℕ → α → Except ε β} {a : α} {r : Except ε β}
    (h : Settles f (.ok a)) (h' : Settles (fun fuel => g fuel a) r) :
    Settles (fun fuel => f fuel >>= g fuel) r := by
  obtain ⟨n, hn⟩ := h
  obtain ⟨n', hn'⟩ := h'
  refine ⟨max n n', ?_⟩
  intro fuel hfuel
  have hf : f fuel = .ok a := hn fuel (le_trans (le_max_left n n') hfuel)
  have hg : g fuel a = r := hn' fuel (le_trans (le_max_right n n') hfuel)
  change f fuel >>= g fuel = r
  rw [hf]
  exact hg

/-! ### Runs that only lack fuel -/

section Extends
variable {e : ε} {f : ℕ → Except ε α} {r r' : Except ε α}

/-- The second result is the first one, unless that lacks fuel, which the
error `e` stands for. -/
def Extends (e : ε) (r r' : Except ε α) : Prop := r ≠ .error e → r' = r

theorem Extends.refl (r : Except ε α) : Extends e r r := fun _ => rfl

theorem extends_of_error : Extends e (.error e) r := fun h => absurd rfl h

theorem Extends.bind {g g' : α → Except ε β} (h : Extends e r r')
    (hg : ∀ a, Extends e (g a) (g' a)) : Extends e (r >>= g) (r' >>= g') := by
  intro hne
  cases r with
  | error e' =>
    rw [h fun heq => hne (by rw [heq]; rfl)]
    rfl
  | ok a =>
    rw [h (by simp)]
    exact hg a hne

theorem Extends.map (h : Extends e r r') (g : α → β) : Extends e (r.map g) (r'.map g) := by
  intro hne
  rw [h fun heq => hne (by rw [heq]; rfl)]

theorem Extends.ite {c : Prop} [Decidable c] {q q' : Except ε α} (h : Extends e r r')
    (h' : Extends e q q') : Extends e (if c then r else q) (if c then r' else q') := by
  by_cases hc : c
  · rwa [if_pos hc, if_pos hc]
  · rwa [if_neg hc, if_neg hc]

/-- A result obtained with some fuel is the one the computation settles on. -/
theorem settles_of_extends (h : ∀ n, Extends e (f n) (f (n + 1))) {n : ℕ} (hn : f n = r)
    (hr : r ≠ .error e) : Settles f r := by
  have hmore : ∀ k, f (k + n) = r := by
    intro k
    induction k with
    | zero => rwa [Nat.zero_add]
    | succ k ih =>
      rw [Nat.succ_add]
      exact (h (k + n) (ih ▸ hr)).trans ih
  exact settles_of_ge n hmore

/-- Once a bound is enough, every larger one gives what the computation settles on. -/
theorem eq_of_extends (h : ∀ n, Extends e (f n) (f (n + 1))) {n : ℕ} (hn : f n ≠ .error e)
    (hr : Settles f r) {fuel : ℕ} (hfuel : n ≤ fuel) : f fuel = r := by
  have hmore : ∀ k, f (k + n) = f n := by
    intro k
    induction k with
    | zero => rw [Nat.zero_add]
    | succ k ih =>
      rw [Nat.succ_add]
      exact (h (k + n) (ih ▸ hn)).trans ih
  have hfuel' : f fuel = f n := by
    rw [← Nat.sub_add_cancel hfuel]
    exact hmore (fuel - n)
  rw [hfuel', (settles_of_extends h rfl hn).unique hr]

end Extends

/-! ### What a computation guarantees if it returns -/

section Ensures
variable {Q : α → Prop} {R : β → Prop} {r q : Except ε α} {f : α → Except ε β}

def Ensures (Q : α → Prop) (r : Except ε α) : Prop := ∀ a, r = .ok a → Q a

theorem ensures_ok {a : α} (h : Q a) : Ensures Q (.ok a : Except ε α) := by
  intro a' heq
  cases heq
  exact h

theorem ensures_error {e : ε} : Ensures Q (.error e : Except ε α) := by
  intro a heq
  cases heq

theorem Ensures.bind (h : Ensures Q r) (hf : ∀ a, Q a → Ensures R (f a)) : Ensures R (r >>= f) := by
  cases r with
  | error e => exact ensures_error
  | ok a => exact hf a (h a rfl)

theorem ensures_bind (hf : ∀ a, Ensures R (f a)) : Ensures R (r >>= f) := by
  cases r with
  | error e => exact ensures_error
  | ok a => exact hf a

theorem Ensures.ite {c : Prop} [Decidable c] (h : c → Ensures Q r) (h' : ¬ c → Ensures Q q) :
    Ensures Q (if c then r else q) := by
  by_cases hc : c
  · rw [if_pos hc]
    exact h hc
  · rw [if_neg hc]
    exact h' hc

theorem Ensures.map {g : α → β} (h : Ensures (fun a => R (g a)) r) : Ensures R (r.map g) := by
  cases r with
  | error e => exact ensures_error
  | ok a => exact ensures_ok (h a rfl)

/-- A result that is settled on is one of the results there are. -/
theorem Settles.ensures {f : ℕ → Except ε α} {a : α} (h : Settles f (.ok a))
    (hf : ∀ fuel, Ensures Q (f fuel)) : Q a := by
  obtain ⟨n, hn⟩ := h
  exact hf n a (hn n le_rfl)

end Ensures

end Ppdb.EventualResults
