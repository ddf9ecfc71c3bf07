import Mathlib.Data.List.Nodup
import Mathlib.Logic.Function.Basic

/-!
A store of objects, as the user of an allocator sees it: pointers to arrays of
cells, each of which has a known content or has not been written yet. A memory
shows the store if it has every known content in its place.
-/

namespace Ppdb.ObjectStores

variable {ν : Type*}

/-- An array of cells; `none` where nothing has been written. -/
structure Object (ν : Type*) where
  size : ℕ
  cell : ℕ → Option ν

/-- The objects by their pointers -/
abbrev Store (ν : Type*) := List (ℕ × Object ν)

def fresh (n : ℕ) : Object ν := ⟨n, fun _ => none⟩

def filled (n : ℕ) (v : ν) : Object ν := ⟨n, fun i => if i < n then some v else none⟩

def Object.resize (o : Object ν) (n : ℕ) : Object ν :=
  ⟨n, fun i => if i < n then o.cell i else none⟩

def Object.set (o : Object ν) (i : ℕ) (v : ν) : Object ν :=
  { o with cell := Function.update o.cell i (some v) }

def enter (st : Store ν) (p : ℕ) (o : Object ν) : Store ν := if p = 0 then st else (p, o) :: st

def drop (st : Store ν) (p : ℕ) : Store ν := st.filter fun x => x.1 ≠ p

def write (st : Store ν) (p i : ℕ) (v : ν) : Store ν :=
  st.map fun x => if x.1 = p then (x.1, x.2.set i v) else x

def find (st : Store ν) (p : ℕ) : Object ν :=
  ((st.find? fun x => x.1 = p).map Prod.snd).getD (fresh 0)

def sizes (st : Store ν) : List (ℕ × ℕ) := st.map fun x => (x.1, x.2.size)

/-- Every known content is in its place. -/
def Shows (read : ℕ → ν) (st : Store ν) : Prop :=
  ∀ x ∈ st, ∀ i v, x.2.cell i = some v → read (x.1 + i) = v

/-- What is known lies within the sizes, and in objects of admitted sizes only. -/
def Within (ok : ℕ → Prop) (st : Store ν) : Prop :=
  ∀ x ∈ st, ∀ i v, x.2.cell i = some v → i < x.2.size ∧ ok x.2.size

variable {read read' : ℕ → ν} {st : Store ν} {ok : ℕ → Prop} {p i n : ℕ} {v : ν}

theorem sizes_enter (st : Store ν) (p : ℕ) (o : Object ν) :
    sizes (enter st p o) = if p = 0 then sizes st else (p, o.size) :: sizes st := by
  unfold enter
  split_ifs
  · rfl
  · rfl

theorem sizes_drop (st : Store ν) (p : ℕ) :
    sizes (drop st p) = (sizes st).filter fun x => x.1 ≠ p := by
  unfold sizes drop
  rw [List.filter_map]
  rfl

theorem sizes_write (st : Store ν) (p i : ℕ) (v : ν) : sizes (write st p i v) = sizes st := by
  unfold sizes write
  rw [List.map_map]
  apply List.map_congr_left
  intro x _
  simp only [Function.comp_apply]
  split_ifs
  · rfl
  · rfl

theorem mem_drop {x : ℕ × Object ν} : x ∈ drop st p ↔ x ∈ st ∧ x.1 ≠ p := by
  simp [drop]

theorem mem_sizes {x : ℕ × Object ν} (h : x ∈ st) : (x.1, x.2.size) ∈ sizes st :=
  List.mem_map_of_mem (f := fun x : ℕ × Object ν => (x.1, x.2.size)) h

/-- The object of a pointer that has one is in the store. -/
theorem find_mem (h : p ∈ (sizes st).map Prod.fst) : (p, find st p) ∈ st := by
  obtain ⟨y, hy, rfl⟩ := List.mem_map.mp h
  obtain ⟨x, hx, rfl⟩ := List.mem_map.mp hy
  have hsome : (st.find? fun z => z.1 = x.1).isSome := by
    rw [List.find?_isSome]
    exact ⟨x, hx, by simp⟩
  obtain ⟨z, hz⟩ := Option.isSome_iff_exists.mp hsome
  have hp : z.1 = x.1 := by simpa using List.find?_some hz
  have hmem := List.mem_of_find?_eq_some hz
  dsimp only
  rw [find, hz, ← hp]
  exact hmem

/-! ### What is known -/

theorem known_filled {n : ℕ} {w : ν} (h : (filled n v).cell i = some w) : i < n ∧ w = v := by
  change (if i < n then some v else none) = some w at h
  split_ifs at h with hi
  exact ⟨hi, (Option.some.inj h).symm⟩

theorem known_resize {o : Object ν} (h : (o.resize n).cell i = some v) :
    i < n ∧ o.cell i = some v := by
  change (if i < n then o.cell i else none) = some v at h
  split_ifs at h with hi
  exact ⟨hi, h⟩

theorem known_set {o : Object ν} {j : ℕ} {w : ν} (h : (o.set i v).cell j = some w) :
    j = i ∧ w = v ∨ j ≠ i ∧ o.cell j = some w := by
  change Function.update o.cell i (some v) j = some w at h
  by_cases hj : j = i
  · subst hj
    rw [Function.update_self] at h
    exact Or.inl ⟨rfl, (Option.some.inj h).symm⟩
  · rw [Function.update_of_ne hj] at h
    exact Or.inr ⟨hj, h⟩

theorem shows_cons {o : Object ν} : Shows read ((p, o) :: st) ↔
    (∀ i v, o.cell i = some v → read (p + i) = v) ∧ Shows read st :=
  List.forall_mem_cons

theorem within_cons {o : Object ν} : Within ok ((p, o) :: st) ↔
    (∀ i v, o.cell i = some v → i < o.size ∧ ok o.size) ∧ Within ok st :=
  List.forall_mem_cons

theorem Within.drop (h : Within ok st) (p : ℕ) : Within ok (ObjectStores.drop st p) :=
  fun x hx => h x (mem_drop.mp hx).1

theorem Shows.enter {o : Object ν} (h : Shows read st)
    (hnew : p ≠ 0 → ∀ i v, o.cell i = some v → read (p + i) = v) :
    Shows read (ObjectStores.enter st p o) := by
  unfold ObjectStores.enter
  split_ifs with hp
  · exact h
  · exact shows_cons.mpr ⟨hnew hp, h⟩

theorem Within.enter {o : Object ν} (h : Within ok st)
    (hnew : p ≠ 0 → ∀ i v, o.cell i = some v → i < o.size ∧ ok o.size) :
    Within ok (ObjectStores.enter st p o) := by
  unfold ObjectStores.enter
  split_ifs with hp
  · exact h
  · exact within_cons.mpr ⟨hnew hp, h⟩

/-- Objects with pairwise distinct pointers are found by them. -/
theorem object_unique (h : ((sizes st).map Prod.fst).Nodup) {o o' : Object ν}
    (hmem : (p, o) ∈ st) (hmem' : (p, o') ∈ st) : o = o' := by
  have hmap : (sizes st).map Prod.fst = st.map Prod.fst := List.map_map
  rw [hmap] at h
  have heq := List.inj_on_of_nodup_map h hmem hmem' rfl
  exact (Prod.mk.inj heq).2

/-- A write at the place of one cell, apart from the known cells of the others. -/
theorem Shows.write (h : Shows read st) (hself : read' (p + i) = v)
    (hother : ∀ a, a ≠ p + i → read' a = read a)
    (hapart : ∀ x ∈ st, x.1 ≠ p → ∀ j w, x.2.cell j = some w → x.1 + j ≠ p + i) :
    Shows read' (ObjectStores.write st p i v) := by
  intro x hx j w hknown
  obtain ⟨y, hy, rfl⟩ := List.mem_map.mp hx
  split_ifs at hknown ⊢ with hp
  · rcases known_set hknown with ⟨rfl, rfl⟩ | ⟨hj, hknown⟩
    · rw [hp]
      exact hself
    · rw [hother _ (by omega)]
      exact h y hy j w hknown
  · rw [hother _ (hapart y hy hp j w hknown)]
    exact h y hy j w hknown

theorem Within.write (h : Within ok st) (hi : ∀ x ∈ st, x.1 = p → i < x.2.size ∧ ok x.2.size) :
    Within ok (ObjectStores.write st p i v) := by
  intro x hx j w hknown
  obtain ⟨y, hy, rfl⟩ := List.mem_map.mp hx
  split_ifs at hknown ⊢ with hp
  · rcases known_set hknown with ⟨rfl, rfl⟩ | ⟨_, hknown⟩
    · exact hi y hy hp
    · exact h y hy j w hknown
  · exact h y hy j w hknown

end Ppdb.ObjectStores
