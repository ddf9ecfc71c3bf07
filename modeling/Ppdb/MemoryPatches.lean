import Ppdb.ByteMemory
import Mathlib.Data.List.Basic
import Mathlib.Data.List.Forall2
import Mathlib.Data.Set.Basic

/-!
Stores carried out one after another. A byte is decided by the stores that
cover it, whatever was there before, so that the same stores made twice are
made once. A table that says what to store may be read while the stores are
made: if none of them falls into the table, it reads as it did at the start.
-/

namespace Ppdb.MemoryPatches

open ByteMemory

/-- A little-endian store of `width` bytes. -/
structure Patch where
  addr : ℕ
  width : ℕ
  value : ℕ
  deriving DecidableEq, Repr

def Patch.Covers (p : Patch) (i : ℕ) : Prop := p.addr ≤ i ∧ i < p.addr + p.width

def Patch.Avoids (p : Patch) (lo n : ℕ) : Prop := p.addr + p.width ≤ lo ∨ lo + n ≤ p.addr

instance (p : Patch) (lo n : ℕ) : Decidable (p.Avoids lo n) :=
  inferInstanceAs (Decidable (p.addr + p.width ≤ lo ∨ lo + n ≤ p.addr))

def Patch.Apart (p q : Patch) : Prop := p.Avoids q.addr q.width

instance (p q : Patch) : Decidable (p.Apart q) :=
  inferInstanceAs (Decidable (p.Avoids q.addr q.width))

def Patch.Spares (p : Patch) (T : Set ℕ) : Prop := ∀ i ∈ T, ¬ p.Covers i

def apply (m : Mem) (p : Patch) : Mem := writeLe m p.addr p.value p.width

def applyAll (m : Mem) (ps : List Patch) : Mem := ps.foldl apply m

def SameOn (T : Set ℕ) (m m' : Mem) : Prop := ∀ i ∈ T, m' i = m i

/-- For each entry of a table in turn: the patches that it asks for now. -/
def runTable {α : Type} (next : Mem → α → List Patch) (m : Mem) (entries : List α) : Mem :=
  entries.foldl (fun m a => applyAll m (next m a)) m

variable {m m' : Mem} {p : Patch} {ps qs : List Patch} {i : ℕ} {T : Set ℕ}

theorem Patch.Avoids.not_covers {lo n : ℕ} (h : p.Avoids lo n) (hlo : lo ≤ i) (hi : i < lo + n) :
    ¬ p.Covers i := by
  unfold Patch.Avoids at h
  unfold Patch.Covers
  omega

theorem Patch.Apart.symm {q : Patch} (h : p.Apart q) : q.Apart p := by
  unfold Patch.Apart Patch.Avoids at h ⊢
  omega

theorem apply_of_not_covers (h : ¬ p.Covers i) : apply m p i = m i := if_neg h

/-- A covered byte does not depend on the memory. -/
theorem apply_congr (h : p.Covers i) : apply m' p i = apply m p i := (if_pos h).trans (if_pos h).symm

theorem applyAll_cons (m : Mem) (p : Patch) (ps : List Patch) :
    applyAll m (p :: ps) = applyAll (apply m p) ps := rfl

theorem applyAll_append (m : Mem) (ps qs : List Patch) :
    applyAll m (ps ++ qs) = applyAll (applyAll m ps) qs := List.foldl_append

theorem applyAll_of_not_covers (h : ∀ p ∈ ps, ¬ p.Covers i) : applyAll m ps i = m i := by
  induction ps generalizing m with
  | nil => rfl
  | cons p ps ih =>
    rw [applyAll_cons, ih fun q hq => h q (List.mem_cons_of_mem p hq)]
    exact apply_of_not_covers (h p List.mem_cons_self)

theorem applyAll_congr (h : ∃ p ∈ ps, p.Covers i) : applyAll m' ps i = applyAll m ps i := by
  induction ps generalizing m m' with
  | nil =>
    obtain ⟨p, hp, _⟩ := h
    cases hp
  | cons p ps ih =>
    rw [applyAll_cons, applyAll_cons]
    by_cases hlater : ∃ q ∈ ps, q.Covers i
    · exact ih hlater
    · have hnone : ∀ q ∈ ps, ¬ q.Covers i := fun q hq hc => hlater ⟨q, hq, hc⟩
      obtain ⟨q, hq, hc⟩ := h
      rcases List.mem_cons.mp hq with rfl | hq
      · rw [applyAll_of_not_covers hnone, applyAll_of_not_covers hnone, apply_congr hc]
      · exact absurd hc (hnone q hq)

/-- The same stores made a second time change nothing. -/
theorem applyAll_twice (m : Mem) (ps : List Patch) : applyAll (applyAll m ps) ps = applyAll m ps := by
  funext i
  by_cases h : ∃ p ∈ ps, p.Covers i
  · exact applyAll_congr h
  · exact applyAll_of_not_covers fun p hp hc => h ⟨p, hp, hc⟩

theorem sameOn_applyAll (h : ∀ p ∈ ps, p.Spares T) : SameOn T m (applyAll m ps) :=
  fun i hi => applyAll_of_not_covers fun p hp => h p hp i hi

theorem SameOn.trans {m'' : Mem} (h : SameOn T m m') (h' : SameOn T m' m'') : SameOn T m m'' :=
  fun i hi => (h' i hi).trans (h i hi)

theorem readLe_apply (m : Mem) (p : Patch) :
    readLe (apply m p) p.addr p.width = p.value % 256 ^ p.width := readLe_writeLe m _ _ _

/-- Patches apart from each other each leave their value behind. -/
theorem readLe_applyAll (hapart : ps.Pairwise Patch.Apart) (hp : p ∈ ps) :
    readLe (applyAll m ps) p.addr p.width = p.value % 256 ^ p.width := by
  induction ps generalizing m with
  | nil => cases hp
  | cons q ps ih =>
    rw [applyAll_cons]
    obtain ⟨hq, htail⟩ := List.pairwise_cons.mp hapart
    rcases List.mem_cons.mp hp with rfl | hp
    · rw [← readLe_apply m p]
      apply readLe_congr
      intro i hlo hhi
      exact applyAll_of_not_covers fun q hmem => (hq q hmem).symm.not_covers hlo hhi
    · exact ih htail hp

/-- Reading the table while the patches are made comes to the same as reading
all of it before. -/
theorem runTable_eq {α : Type} (next : Mem → α → List Patch) {entries : List α}
    (hsame : SameOn T m m')
    (hreads : ∀ m'', SameOn T m m'' → ∀ a ∈ entries, next m'' a = next m a)
    (hspares : ∀ a ∈ entries, ∀ p ∈ next m a, p.Spares T) :
    runTable next m' entries = applyAll m' (entries.flatMap (next m)) := by
  induction entries generalizing m' with
  | nil => rfl
  | cons a entries ih =>
    obtain ⟨hhead, htail⟩ := List.forall_mem_cons.mp hspares
    have hnext : next m' a = next m a := hreads m' hsame a List.mem_cons_self
    have hrest := ih (hsame.trans (sameOn_applyAll hhead))
      (fun m'' h b hb => hreads m'' h b (List.mem_cons_of_mem a hb)) htail
    unfold runTable at hrest ⊢
    rw [List.foldl_cons, hnext, hrest, List.flatMap_cons, applyAll_append]

/-! ### The same stores elsewhere -/

/-- Two patches at one offset from two bases; they leave the same byte at the
offset `i` if they cover it. -/
def Corresponds (base base' i : ℕ) (p q : Patch) : Prop :=
  ∃ a, p.addr = base + a ∧ q.addr = base' + a ∧ p.width = q.width ∧
    (p.Covers (base + i) → p.value = q.value)

theorem applyAll_corresponds {base base' : ℕ}
    (h : List.Forall₂ (Corresponds base base' i) ps qs) (hbyte : m' (base' + i) = m (base + i)) :
    applyAll m' qs (base' + i) = applyAll m ps (base + i) := by
  induction h generalizing m m' with
  | nil => exact hbyte
  | @cons p q _ _ hhead _ ih =>
    apply ih
    obtain ⟨a, hp, hq, hwidth, hvalue⟩ := hhead
    have hoffset : base' + i - q.addr = base + i - p.addr := by omega
    by_cases hcovers : p.Covers (base + i)
    · have hcovers' : q.Covers (base' + i) := by
        unfold Patch.Covers at hcovers ⊢
        omega
      refine (if_pos hcovers').trans (Eq.trans ?_ (if_pos hcovers).symm)
      rw [hoffset, hvalue hcovers]
    · have hcovers' : ¬ q.Covers (base' + i) := by
        unfold Patch.Covers at hcovers ⊢
        omega
      rw [apply_of_not_covers hcovers', apply_of_not_covers hcovers, hbyte]

end Ppdb.MemoryPatches
