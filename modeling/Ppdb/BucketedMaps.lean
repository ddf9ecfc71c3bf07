import Ppdb.SortedMaps
import Mathlib.Logic.Function.Basic
import Mathlib.Data.List.Nodup

/-!
Maps kept in buckets. Every entry has a key, the key tells its bucket, and a
bucket lists its entries. If the entries of a bucket have distinct keys, then
those of all buckets have; a map is read in the one bucket of each key, and
changing a bucket changes the map at the keys that belong there.
-/

namespace Ppdb.BucketedMaps

open SortedMaps

variable {α κ ν : Type} {key : α → κ} {value : α → ν} {place : κ → ℕ} {n i : ℕ}
  {chains : ℕ → List α} {m : κ → Option ν}

def entries (n : ℕ) (chains : ℕ → List α) : List α := (List.range n).flatMap chains

/-- Each entry is in the bucket of its key, and no key occurs twice in a bucket. -/
structure Placed (key : α → κ) (place : κ → ℕ) (n : ℕ) (chains : ℕ → List α) : Prop where
  place : ∀ i < n, ∀ a ∈ chains i, place (key a) = i
  distinct : ∀ i < n, ((chains i).map key).Nodup

/-- The map read in the bucket of each key. -/
def Reads (key : α → κ) (value : α → ν) (place : κ → ℕ) (chains : ℕ → List α)
    (m : κ → Option ν) : Prop :=
  ∀ k v, m k = some v ↔ ∃ a ∈ chains (place k), key a = k ∧ value a = v

theorem mem_entries {a : α} : a ∈ entries n chains ↔ ∃ i < n, a ∈ chains i := by
  simp [entries]

theorem placed_nil : Placed key place n fun _ => [] :=
  ⟨fun _ _ _ ha => absurd ha List.not_mem_nil, fun _ _ => List.nodup_nil⟩

theorem reads_nil : Reads key value place (fun _ => []) fun _ => none := by
  intro k v
  simp

theorem entries_nil : entries n (fun _ => ([] : List α)) = [] := by
  simp [entries]

/-- Entries with the same key are the same entry. -/
theorem Placed.eq_of_key (h : Placed key place n chains) {a b : α} {j : ℕ} (hi : i < n)
    (hj : j < n) (ha : a ∈ chains i) (hb : b ∈ chains j) (heq : key a = key b) :
    i = j ∧ a = b := by
  have hij : i = j := by rw [← h.place i hi a ha, heq, h.place j hj b hb]
  subst hij
  exact ⟨rfl, List.inj_on_of_nodup_map (h.distinct i hi) ha hb heq⟩

/-- No key occurs twice. -/
theorem Placed.nodup_keys (h : Placed key place n chains) :
    ((entries n chains).map key).Nodup := by
  apply List.Nodup.map_on
  · intro a ha b hb heq
    obtain ⟨i, hi, ha⟩ := mem_entries.mp ha
    obtain ⟨j, hj, hb⟩ := mem_entries.mp hb
    exact (h.eq_of_key hi hj ha hb heq).2
  · refine List.nodup_flatMap.mpr ⟨?_, ?_⟩
    · intro i hi
      exact (h.distinct i (List.mem_range.mp hi)).of_map key
    · refine List.nodup_range.pairwise_of_forall_ne ?_
      intro i hi j hj hne a ha hb
      exact hne (h.eq_of_key (List.mem_range.mp hi) (List.mem_range.mp hj) ha hb rfl).1

/-- Read in its own bucket or anywhere, a key has the same value. -/
theorem Placed.denotes (h : Placed key place n chains) (hplace : ∀ k, place k < n)
    (hm : Reads key value place chains m) :
    Denotes ((entries n chains).map fun a => (key a, value a)) m := by
  intro k v
  rw [hm k v, List.mem_map]
  constructor
  · rintro ⟨a, ha, hkey, hvalue⟩
    exact ⟨a, mem_entries.mpr ⟨place k, hplace k, ha⟩, Prod.ext hkey hvalue⟩
  · rintro ⟨a, ha, hpair⟩
    obtain ⟨i, hi, ha⟩ := mem_entries.mp ha
    have hkey : key a = k := congrArg Prod.fst hpair
    refine ⟨a, ?_, hkey, congrArg Prod.snd hpair⟩
    rwa [← hkey, h.place i hi a ha]

/-! ### Changing one bucket -/

theorem Placed.update (h : Placed key place n chains) {l : List α}
    (hplace : ∀ a ∈ l, place (key a) = i) (hdistinct : (l.map key).Nodup) :
    Placed key place n (Function.update chains i l) := by
  constructor
  · intro j hj a ha
    by_cases hji : j = i
    · subst hji
      rw [Function.update_self] at ha
      exact hplace a ha
    · rw [Function.update_of_ne hji] at ha
      exact h.place j hj a ha
  · intro j hj
    by_cases hji : j = i
    · subst hji
      rwa [Function.update_self]
    · rw [Function.update_of_ne hji]
      exact h.distinct j hj

theorem length_update (chains : ℕ → List α) (hi : i < n) (l : List α) :
    (entries n (Function.update chains i l)).length + (chains i).length =
      (entries n chains).length + l.length := by
  induction n with
  | zero => exact absurd hi (Nat.not_lt_zero i)
  | succ n ih =>
    have hcut : ∀ c : ℕ → List α, (entries (n + 1) c).length =
        (entries n c).length + (c n).length := by
      intro c
      simp [entries, List.range_succ]
    rw [hcut, hcut]
    by_cases hin : i = n
    · subst hin
      have hsame : entries i (Function.update chains i l) = entries i chains := by
        refine List.flatMap_congr ?_
        intro j hj
        exact Function.update_of_ne (ne_of_lt (List.mem_range.mp hj)) _ _
      rw [hsame, Function.update_self]
      omega
    · rw [Function.update_of_ne (Ne.symm hin)]
      have hlen := ih (by omega)
      omega

/-- A bucket that changes at one key only, where it then has the value `w`. -/
theorem Reads.update [DecidableEq κ] {k : κ} {l : List α} {w : Option ν} (hm : Reads key value place chains m)
    (hself : ∀ v, w = some v ↔ ∃ a ∈ l, key a = k ∧ value a = v)
    (hother : ∀ a, key a ≠ k → (a ∈ l ↔ a ∈ chains (place k))) :
    Reads key value place (Function.update chains (place k) l) (Function.update m k w) := by
  intro k' v
  by_cases hk : k' = k
  · subst hk
    rw [Function.update_self, Function.update_self]
    exact hself v
  · rw [Function.update_of_ne hk, hm k' v]
    by_cases hplace : place k' = place k
    · rw [hplace, Function.update_self]
      constructor
      · rintro ⟨a, ha, hkey, hvalue⟩
        exact ⟨a, (hother a (hkey ▸ hk)).mpr ha, hkey, hvalue⟩
      · rintro ⟨a, ha, hkey, hvalue⟩
        exact ⟨a, (hother a (hkey ▸ hk)).mp ha, hkey, hvalue⟩
    · rw [Function.update_of_ne hplace]

theorem mem_entries_update {a : α} {l : List α}
    (ha : a ∈ entries n (Function.update chains i l)) : a ∈ l ∨ a ∈ entries n chains := by
  obtain ⟨j, hj, ha⟩ := mem_entries.mp ha
  by_cases hji : j = i
  · subst hji
    rw [Function.update_self] at ha
    exact Or.inl ha
  · rw [Function.update_of_ne hji] at ha
    exact Or.inr (mem_entries.mpr ⟨j, hj, ha⟩)

/-! ### Finding, adding, overwriting and removing an entry -/

variable {a b : α} {before after : List α}

theorem Reads.absent (hm : Reads key value place chains m) {k : κ} (hk : m k = none) :
    ∀ a ∈ chains (place k), key a ≠ k := by
  intro a ha hkey
  have hsome : m k = some (value a) := (hm k _).mpr ⟨a, ha, hkey, rfl⟩
  rw [hk] at hsome
  cases hsome

/-- The other entries of a bucket have other keys. -/
theorem Placed.apart (h : Placed key place n chains) (hi : i < n)
    (hcut : chains i = before ++ a :: after) :
    (∀ c ∈ before, key c ≠ key a) ∧ ∀ c ∈ after, key c ≠ key a := by
  have hnodup := h.distinct i hi
  rw [hcut, List.map_append, List.map_cons] at hnodup
  obtain ⟨_, hafter, hbefore⟩ := List.nodup_append.mp hnodup
  constructor
  · intro c hc
    exact hbefore _ (List.mem_map_of_mem hc) _ List.mem_cons_self
  · intro c hc heq
    exact (List.nodup_cons.mp hafter).1 (heq ▸ List.mem_map_of_mem hc)

/-- A bucket cut at the entry of a key. -/
theorem Reads.cut (hm : Reads key value place chains m) {k : κ} {v : ν} (hk : m k = some v) :
    ∃ before a after, chains (place k) = before ++ a :: after ∧ key a = k ∧ value a = v := by
  obtain ⟨a, ha, hkey, hvalue⟩ := (hm k v).mp hk
  obtain ⟨before, after, hcut⟩ := List.append_of_mem ha
  exact ⟨before, a, after, hcut, hkey, hvalue⟩

theorem Placed.insert (h : Placed key place n chains) (hi : place (key a) < n)
    (habsent : ∀ c ∈ chains (place (key a)), key c ≠ key a) :
    Placed key place n (Function.update chains (place (key a)) (a :: chains (place (key a)))) := by
  apply h.update
  · intro c hc
    rcases List.mem_cons.mp hc with rfl | hc
    · rfl
    · exact h.place _ hi c hc
  · refine List.nodup_cons.mpr ⟨?_, h.distinct _ hi⟩
    intro hmem
    obtain ⟨c, hc, hkey⟩ := List.mem_map.mp hmem
    exact habsent c hc hkey

theorem Reads.insert [DecidableEq κ] (hm : Reads key value place chains m)
    (habsent : ∀ c ∈ chains (place (key a)), key c ≠ key a) :
    Reads key value place (Function.update chains (place (key a)) (a :: chains (place (key a))))
      (Function.update m (key a) (some (value a))) := by
  apply hm.update
  · intro v
    constructor
    · intro hv
      injection hv with hv
      exact ⟨a, List.mem_cons_self, rfl, hv⟩
    · rintro ⟨c, hc, hkey, hvalue⟩
      rcases List.mem_cons.mp hc with rfl | hc
      · rw [hvalue]
      · exact absurd hkey (habsent c hc)
  · intro c hne
    rw [List.mem_cons]
    exact or_iff_right fun heq => hne (congrArg key heq)

theorem Placed.overwrite (h : Placed key place n chains) (hi : i < n)
    (hcut : chains i = before ++ a :: after) (hkey : key b = key a) :
    Placed key place n (Function.update chains i (before ++ b :: after)) := by
  have hplace := h.place i hi
  have hdistinct := h.distinct i hi
  rw [hcut] at hplace hdistinct
  apply h.update
  · intro c hc
    rcases List.mem_append.mp hc with hc | hc
    · exact hplace c (List.mem_append_left _ hc)
    · rcases List.mem_cons.mp hc with rfl | hc
      · rw [hkey]
        exact hplace a (by simp)
      · exact hplace c (List.mem_append_right _ (List.mem_cons_of_mem _ hc))
  · rw [List.map_append, List.map_cons, hkey]
    rwa [List.map_append, List.map_cons] at hdistinct

theorem Reads.overwrite [DecidableEq κ] (hm : Reads key value place chains m)
    (h : Placed key place n chains) (hi : place (key a) < n) (hcut : chains (place (key a)) = before ++ a :: after)
    (hkey : key b = key a) :
    Reads key value place (Function.update chains (place (key a)) (before ++ b :: after))
      (Function.update m (key a) (some (value b))) := by
  obtain ⟨hbefore, hafter⟩ := h.apart hi hcut
  apply hm.update
  · intro v
    constructor
    · intro hv
      injection hv with hv
      exact ⟨b, by simp, hkey, hv⟩
    · rintro ⟨c, hc, hkey', hvalue⟩
      rcases List.mem_append.mp hc with hc | hc
      · exact absurd hkey' (hbefore c hc)
      · rcases List.mem_cons.mp hc with rfl | hc
        · rw [hvalue]
        · exact absurd hkey' (hafter c hc)
  · intro c hne
    have hcb : c ≠ b := fun heq => hne ((congrArg key heq).trans hkey)
    have hca : c ≠ a := fun heq => hne (congrArg key heq)
    simp [hcut, hcb, hca]

theorem Placed.erase (h : Placed key place n chains) (hi : i < n)
    (hcut : chains i = before ++ a :: after) :
    Placed key place n (Function.update chains i (before ++ after)) := by
  have hplace := h.place i hi
  have hdistinct := h.distinct i hi
  rw [hcut] at hplace hdistinct
  have hsub : (before ++ after).Sublist (before ++ a :: after) :=
    (List.sublist_cons_self _ _).append_left _
  exact h.update (fun c hc => hplace c (hsub.subset hc)) (hdistinct.sublist (hsub.map key))

theorem Reads.erase [DecidableEq κ] (hm : Reads key value place chains m)
    (h : Placed key place n chains) (hi : place (key a) < n) (hcut : chains (place (key a)) = before ++ a :: after) :
    Reads key value place (Function.update chains (place (key a)) (before ++ after))
      (Function.update m (key a) none) := by
  obtain ⟨hbefore, hafter⟩ := h.apart hi hcut
  apply hm.update
  · intro v
    constructor
    · intro hv
      cases hv
    · rintro ⟨c, hc, hkey, _⟩
      rcases List.mem_append.mp hc with hc | hc
      · exact absurd hkey (hbefore c hc)
      · exact absurd hkey (hafter c hc)
  · intro c hne
    have hca : c ≠ a := fun heq => hne (congrArg key heq)
    simp [hcut, hca]

end Ppdb.BucketedMaps
