import Ppdb.HashRuns
import Ppdb.HeapCells

/-!
The memory of a hash table. Whatever calls have been made, refused ones among
them, the nodes and the copies of keys in use are those of the entries, and the
destruction of the table gives back each of them.
-/

namespace Ppdb.HashDestruction

open SizeArithmetic HashOperations BucketedMaps SortedMaps HashChains HashMaps HashRuns HeapCells
  EventualResults

/-- The outer loop of `infra_hash_destroy`, with `count` buckets left from `i`
on. The inner loop is that of `infra_hash_clear`. -/
def destroyBuckets (fuel : ℕ) : (count i : ℕ) → State → Except Fault State
  | 0, _, s => .ok s
  | count + 1, i, s => do
    let head ← s.bucket i
    let s ← clearEntries fuel s head
    destroyBuckets fuel count (i + 1) s

/-- `infra_hash_destroy`: what is left of the memory for nodes and for keys. The
table is given up itself, with the array of buckets. -/
def infraHashDestroy (fuel : ℕ) (hash : Option State) :
    Except Fault ((ℕ → Option Node) × (ℕ → Option CString)) :=
  match hash with
  | none => .ok (fun _ => none, fun _ => none)
  | some s => do
    let s ← destroyBuckets fuel s.capacity 0 s
    .ok (s.nodes, s.strings)

/-- What a call does to the memory in use, and to the counter. -/
inductive Effect (s s' : State) : Prop
  | none (hnodes : SameCells s.nodes s'.nodes) (hstrings : SameCells s.strings s'.strings)
      (hsize : s'.size = s.size)
  | enters {p k : ℕ} (hp : p ≠ 0) (hbound : p < sizeModulus) (hnodes : Gains p s.nodes s'.nodes)
      (hstrings : Gains k s.strings s'.strings) (hsize : s'.size = addSize s.size 1)
  | leaves {p k : ℕ} (hnodes : Loses p s.nodes s'.nodes) (hstrings : Loses k s.strings s'.strings)
      (hsize : s'.size = subSize s.size 1)

/-- As many nodes are in use, and copies of keys, as the counter says. -/
structure Counted (s : State) : Prop where
  nodes : Counts s.nodes s.size
  strings : Counts s.strings s.size
  bounded : ∀ p, (s.nodes p).isSome → 0 < p ∧ p < sizeModulus

variable {s s' : State} {e : Entry} {es : List Entry} {p i v nodeReply keyReply : ℕ} {key : CString}
  {k : Option CString}
  {chains : ℕ → List Entry}

/-! ### Calls that put and remove -/

theorem node_isSome {n : Node} (h : s.node p = .ok n) : (s.nodes p).isSome := by
  unfold State.node at h
  cases hp : s.nodes p with
  | none =>
    rw [hp] at h
    cases h
  | some m => rfl

theorem freeNode_loses (s : State) (p : ℕ) : Ensures (fun s' => Loses p s.nodes s'.nodes ∧
    s'.strings = s.strings ∧ s'.size = s.size) (s.freeNode p) := by
  intro s' h
  cases hn : s.node p with
  | error e =>
    rw [State.freeNode, hn] at h
    cases h
  | ok n =>
    rw [State.freeNode, hn] at h
    cases h
    exact ⟨loses_update (node_isSome hn), rfl, rfl⟩

theorem freeString_loses (s : State) (p : ℕ) : Ensures (fun s' => Loses p s.strings s'.strings ∧
    s'.nodes = s.nodes ∧ s'.size = s.size) (s.freeString p) := by
  intro s' h
  unfold State.freeString State.string at h
  cases hk : s.strings p with
  | none =>
    rw [hk] at h
    cases h
  | some k =>
    rw [hk] at h
    cases h
    exact ⟨loses_update (by rw [hk]; rfl), rfl, rfl⟩

theorem setBucket_frame (s : State) (i p : ℕ) : Ensures (fun s' => s'.nodes = s.nodes ∧
    s'.strings = s.strings ∧ s'.size = s.size) (s.setBucket i p) := by
  intro s' h
  cases hi : s.bucket i with
  | error e =>
    rw [State.setBucket, hi] at h
    cases h
  | ok head =>
    rw [State.setBucket, hi] at h
    cases h
    exact ⟨rfl, rfl, rfl⟩

theorem unlink_frame (s : State) (i prev next : ℕ) :
    Ensures (fun s' => SameCells s.nodes s'.nodes ∧ s'.strings = s.strings ∧ s'.size = s.size)
      (unlink s i prev next) := by
  refine Ensures.ite (fun _ => ?_) fun _ => ?_
  · intro s' h
    obtain ⟨hnodes, hstrings, hsize⟩ := setBucket_frame s i next s' h
    exact ⟨hnodes ▸ SameCells.refl _, hstrings, hsize⟩
  · intro s' h
    cases hn : s.node prev with
    | error e =>
      rw [hn] at h
      cases h
    | ok n =>
      rw [hn] at h
      cases h
      exact ⟨sameCells_update (node_isSome hn) _, rfl, rfl⟩

theorem Effect.refl (s : State) : Effect s s := .none (SameCells.refl _) (SameCells.refl _) rfl

theorem effect_enters {k n : ℕ} (hp : p ≠ 0) (hbound : p < sizeModulus)
    (hnodes : Gains p s.nodes s'.nodes) (hstrings : Gains k s.strings s'.strings)
    (hn : n = addSize s.size 1) : Effect s { s' with size := n } :=
  .enters hp hbound hnodes hstrings hn

theorem effect_leaves {k n : ℕ} (hnodes : Loses p s.nodes s'.nodes)
    (hstrings : Loses k s.strings s'.strings) (hn : n = subSize s.size 1) :
    Effect s { s' with size := n } :=
  .leaves hnodes hstrings hn

/-- A node without a key is given back at once. -/
theorem putEntry_effect (hnode : nodeReply ≠ 0 → s.nodes nodeReply = none ∧ nodeReply < sizeModulus)
    (hkey : keyReply ≠ 0 → s.strings keyReply = none) (index value : ℕ) :
    Ensures (fun r => Effect s r.1) (putEntry nodeReply keyReply s index key value) := by
  unfold putEntry
  by_cases hp : nodeReply = 0
  · rw [if_pos hp]
    exact ensures_ok (Effect.refl s)
  rw [if_neg hp]
  obtain ⟨hfresh, hbound⟩ := hnode hp
  have hgains : Gains nodeReply s.nodes (s.putNode nodeReply (some ⟨0, 0, 0⟩)).nodes :=
    gains_update (by simp [hfresh]) _
  unfold infraStrdup
  by_cases hk : keyReply = 0
  · simp only [if_pos hk, if_true]
    refine (freeNode_loses _ nodeReply).bind fun s₁ ⟨hloses, hstrings, hsize⟩ => ensures_ok ?_
    exact .none (hgains.loses hloses) (hstrings ▸ SameCells.refl _) hsize
  · simp only [if_neg hk]
    refine ensures_bind fun head => ?_
    refine (setBucket_frame _ index nodeReply).bind fun s₁ ⟨hnodes, hstrings, hsize⟩ => ensures_ok ?_
    refine effect_enters (k := keyReply) hp hbound ?_ ?_ ?_
    · rw [hnodes]
      exact hgains.trans (sameCells_update ((hgains.2 nodeReply).mpr (Or.inl rfl)) _)
    · rw [hstrings]
      exact gains_update (by simp [hkey hk]) _
    · rw [hsize]
      rfl

theorem infraHashPut_effect (fuel : ℕ) (hadmissible : Admissible s (.put nodeReply keyReply k v)) :
    Ensures (fun r => Effect s r.1) (infraHashPut fuel nodeReply keyReply s k v) := by
  cases k with
  | none => exact ensures_ok (Effect.refl s)
  | some key =>
    refine ensures_bind fun head => ?_
    refine ensures_bind fun found => ?_
    refine Ensures.ite (fun _ => ?_) fun _ => putEntry_effect hadmissible.1 hadmissible.2 _ _
    intro r h
    cases hn : s.node found.2 with
    | error e =>
      rw [hn] at h
      cases h
    | ok n =>
      rw [hn] at h
      cases h
      exact .none (sameCells_update (node_isSome hn) _) (SameCells.refl _) rfl

/-- An entry is left behind neither by its node nor by its key. -/
theorem infraHashRemove_effect (fuel : ℕ) (k : Option CString) :
    Ensures (fun r => Effect s r.1) (infraHashRemove fuel s k) := by
  cases k with
  | none => exact ensures_ok (Effect.refl s)
  | some key =>
    refine ensures_bind fun head => ?_
    refine ensures_bind fun found => ?_
    refine Ensures.ite (fun _ => ensures_ok (Effect.refl s)) fun _ => ?_
    refine ensures_bind fun n => ?_
    refine (unlink_frame s (s.index key) found.1 n.next).bind fun s₁ ⟨hnodes₁, hstrings₁, hsize₁⟩ => ?_
    refine (freeString_loses s₁ n.key).bind fun s₂ ⟨hloses₂, hnodes₂, hsize₂⟩ => ?_
    refine (freeNode_loses s₂ found.2).bind fun s₃ ⟨hloses₃, hstrings₃, hsize₃⟩ => ensures_ok ?_
    refine effect_leaves (p := found.2) (k := n.key) ?_ ?_ ?_
    · rw [hnodes₂] at hloses₃
      exact hnodes₁.loses hloses₃
    · rw [hstrings₃, ← hstrings₁]
      exact hloses₂
    · rw [hsize₃, hsize₂, hsize₁]

/-! ### Counting -/

theorem counts_lt {α : Type} {heap : ℕ → Option α} {n : ℕ} (h : Counts heap n)
    (hbounded : ∀ p, (heap p).isSome → 0 < p ∧ p < sizeModulus) : n < sizeModulus := by
  obtain ⟨ids, hids, hn⟩ := h
  rw [← hn]
  exact length_lt_of_nodup hids.nodup fun p hp => hbounded p ((hids.live p).mpr hp)

theorem Counted.effect (h : Counted s) (heffect : Effect s s') : Counted s' := by
  cases heffect with
  | none hnodes hstrings hsize =>
    refine ⟨?_, ?_, fun p hp => h.bounded p ((hnodes p).mp hp)⟩
    · rw [hsize]
      exact h.nodes.same hnodes
    · rw [hsize]
      exact h.strings.same hstrings
  | @enters p k hp hbound hnodes hstrings hsize =>
    have hbounded : ∀ q, (s'.nodes q).isSome → 0 < q ∧ q < sizeModulus := by
      intro q hq
      rcases (hnodes.2 q).mp hq with rfl | hq
      · exact ⟨Nat.pos_of_ne_zero hp, hbound⟩
      · exact h.bounded q hq
    have hgained := h.nodes.gain hnodes
    rw [addSize_of_lt (counts_lt hgained hbounded)] at hsize
    refine ⟨?_, ?_, hbounded⟩
    · rw [hsize]
      exact hgained
    · rw [hsize]
      exact h.strings.gain hstrings
  | leaves hnodes hstrings hsize =>
    obtain ⟨hpos, hlost⟩ := h.nodes.lose hnodes
    rw [subSize_of_le (counts_lt h.nodes h.bounded) hpos] at hsize
    refine ⟨?_, ?_, fun p hp => h.bounded p ((hnodes.2 p).mp hp).2⟩
    · rw [hsize]
      exact hlost
    · rw [hsize]
      exact (h.strings.lose hstrings).2

def Distinct (n : ℕ) (chains : ℕ → List Entry) : Prop :=
  ∀ i < n, ∀ j < n, ∀ e ∈ chains i, ∀ e' ∈ chains j, e.id = e'.id ∨ e.keyId = e'.keyId →
    i = j ∧ e = e'

theorem distinct_of_holds (h : Holds s chains) : Distinct s.capacity chains :=
  fun _ hi _ hj _ he _ he' hshared => eq_of_shared h.represents h.placed hi hj he he' hshared

/-- The memory in use is that of the entries. -/
theorem Counted.exactly (h : Counted s) (hholds : Holds s chains) :
    Exactly s.nodes ((entries s.capacity chains).map Entry.id) ∧
      Exactly s.strings ((entries s.capacity chains).map Entry.keyId) := by
  have hstored : ∀ e ∈ entries s.capacity chains, Stored s e := by
    intro e he
    obtain ⟨i, hi, he⟩ := mem_entries.mp he
    exact (hholds.represents.chain i hi).stored e he
  have hshared : ∀ a ∈ entries s.capacity chains, ∀ b ∈ entries s.capacity chains,
      a.id = b.id ∨ a.keyId = b.keyId → a = b := by
    intro a ha b hb hor
    obtain ⟨i, hi, ha⟩ := mem_entries.mp ha
    obtain ⟨j, hj, hb⟩ := mem_entries.mp hb
    exact (distinct_of_holds hholds i hi j hj a ha b hb hor).2
  have hnodup := hholds.placed.nodup_keys.of_map
  constructor
  · refine h.nodes.exactly (hnodup.map_on fun a ha b hb hid => hshared a ha b hb (Or.inl hid)) ?_ ?_
    · intro p hp
      obtain ⟨e, he, rfl⟩ := List.mem_map.mp hp
      rw [(hstored e he).node]
      rfl
    · rw [List.length_map, hholds.size]
  · refine h.strings.exactly (hnodup.map_on fun a ha b hb hid => hshared a ha b hb (Or.inr hid)) ?_ ?_
    · intro p hp
      obtain ⟨e, he, rfl⟩ := List.mem_map.mp hp
      rw [(hstored e he).string]
      rfl
    · rw [List.length_map, hholds.size]

/-! ### The loops that free entries -/

/-- What has happened to the memory of the entries `es`, and to other memory. -/
structure Freed (s t : State) (es : List Entry) : Prop where
  nodes : Frees s.nodes t.nodes
  strings : Frees s.strings t.strings
  gone : ∀ e ∈ es, t.nodes e.id = none ∧ t.strings e.keyId = none

theorem Freed.trans {t : State} {es' : List Entry} (h : Freed s t es) (h' : Freed t s' es') :
    Freed s s' (es ++ es') := by
  refine ⟨h.nodes.trans h'.nodes, h.strings.trans h'.strings, fun e he => ?_⟩
  rcases List.mem_append.mp he with he | he
  · exact ⟨h'.nodes.none (h.gone e he).1, h'.strings.none (h.gone e he).2⟩
  · exact h'.gone e he

theorem clearEntries_freed {t : State} (h : Chain s p es) (hkeyIds : (es.map Entry.keyId).Nodup)
    (hrun : Settles (fun fuel => clearEntries fuel s p) (.ok t)) : Freed s t es := by
  induction es generalizing s p with
  | nil =>
    have hp : p = 0 := h.segment
    have hnothing : Settles (fun fuel => clearEntries fuel s p) (.ok s) :=
      Settles.succ ((settles_const _).of_eq fun fuel => by rw [clearEntries, if_pos hp])
    cases hrun.unique hnothing
    exact ⟨Frees.refl _, Frees.refl _, by simp⟩
  | cons e es ih =>
    have hids := h.segment.nodup
    obtain ⟨rfl, hne, hstored, hrest⟩ := chain_cons.mp h
    rw [List.map_cons] at hids hkeyIds
    obtain ⟨hid, _⟩ := List.nodup_cons.mp hids
    obtain ⟨hkeyId, hkeyIds⟩ := List.nodup_cons.mp hkeyIds
    have hchain : Chain ((s.putString e.keyId none).putNode e.id none) (next s e.id) es := by
      refine hrest.congr (fun c hc => ?_) fun c hc => ?_
      · exact Function.update_of_ne (fun heq : c.id = e.id => hid (heq ▸ List.mem_map_of_mem hc)) _ _
      · exact Function.update_of_ne
          (fun heq : c.keyId = e.keyId => hkeyId (heq ▸ List.mem_map_of_mem hc)) _ _
    obtain ⟨t', hrun', _⟩ := clearEntries_settles hchain hkeyIds
    have hsame : Settles (fun fuel => clearEntries fuel s e.id) (.ok t') := by
      refine Settles.succ (hrun'.of_eq fun fuel => ?_)
      have hnode : (s.putString e.keyId none).node e.id = .ok ⟨e.keyId, e.value, next s e.id⟩ :=
        hstored.node_ok
      simp only [clearEntries, hne, if_false, hstored.node_ok, ok_bind, State.freeString,
        hstored.string_ok, State.freeNode, hnode]
    cases hrun.unique hsame
    have hfreed := ih hchain hkeyIds hrun'
    have hfirst : Freed s ((s.putString e.keyId none).putNode e.id none) [e] := by
      refine ⟨frees_update _ _, frees_update _ _, fun c hc => ?_⟩
      cases List.mem_singleton.mp hc
      exact ⟨Function.update_self _ _ _, Function.update_self _ _ _⟩
    exact hfirst.trans hfreed

def Intact (s : State) (chains : ℕ → List Entry) (i : ℕ) : Prop :=
  ∀ j, i ≤ j → j < s.capacity → Chain s (s.buckets.getD j 0) (chains j)

/-- One turn of either loop gives back the memory of one chain. -/
theorem clearChain_settles (h : Intact s chains i) (hi : i < s.capacity)
    (hdistinct : Distinct s.capacity chains) (hnodup : (chains i).Nodup) :
    ∃ t, Settles (fun fuel => clearEntries fuel s (s.buckets.getD i 0)) (.ok t) ∧
      t.buckets = s.buckets ∧ t.capacity = s.capacity ∧ Freed s t (chains i) ∧
      Intact t chains (i + 1) := by
  have hchain := h i le_rfl hi
  have hkeyIds : ((chains i).map Entry.keyId).Nodup :=
    hnodup.map_on fun a ha b hb heq => (hdistinct i hi i hi a ha b hb (Or.inr heq)).2
  obtain ⟨t, hrun, hbuckets, hcapacity, hnodes, hstrings⟩ := clearEntries_settles hchain hkeyIds
  refine ⟨t, hrun, hbuckets, hcapacity, clearEntries_freed hchain hkeyIds hrun, ?_⟩
  intro j hj hlt
  rw [hcapacity] at hlt
  rw [hbuckets]
  refine (h j (by omega) hlt).congr (fun c hc => hnodes _ fun hid => ?_)
    fun c hc => hstrings _ fun hkeyId => ?_
  · obtain ⟨d, hd, hid⟩ := List.mem_map.mp hid
    have heq := (hdistinct j hlt i hi c hc d hd (Or.inl hid.symm)).1
    omega
  · obtain ⟨d, hd, hkeyId⟩ := List.mem_map.mp hkeyId
    have heq := (hdistinct j hlt i hi c hc d hd (Or.inr hkeyId.symm)).1
    omega

/-- The entries from bucket `i` on are freed, with what was freed before. -/
theorem entries_from {chains : ℕ → List Entry} {t : State} {count : ℕ}
    (hfirst : Freed s t (chains i))
    (hrest : Freed t s' ((List.range' (i + 1) count).flatMap chains)) :
    Freed s s' ((List.range' i (count + 1)).flatMap chains) := by
  rw [List.range'_succ, List.flatMap_cons]
  exact hfirst.trans hrest

theorem destroyBuckets_settles (count : ℕ) (h : Intact s chains i)
    (hdistinct : Distinct s.capacity chains) (hnodup : ∀ j < s.capacity, (chains j).Nodup)
    (hlength : s.buckets.length = s.capacity) (hcount : i + count = s.capacity) :
    ∃ t, Settles (fun fuel => destroyBuckets fuel count i s) (.ok t) ∧
      Freed s t ((List.range' i count).flatMap chains) := by
  induction count generalizing i s with
  | zero => exact ⟨s, settles_const _, Frees.refl _, Frees.refl _, by simp⟩
  | succ count ih =>
    have hi : i < s.capacity := by omega
    have hbucket : s.bucket i = .ok (s.buckets.getD i 0) := by
      rw [State.bucket, List.getD_eq_getElem?_getD, List.getElem?_eq_getElem (hlength ▸ hi)]
      rfl
    obtain ⟨t, hrun, hbuckets, hcapacity, hfreed, hintact⟩ :=
      clearChain_settles h hi hdistinct (hnodup i hi)
    obtain ⟨t', hrun', hfreed'⟩ := ih hintact (hcapacity ▸ hdistinct) (hcapacity ▸ hnodup)
      (by rw [hbuckets, hcapacity, hlength]) (by omega)
    refine ⟨t', ?_, entries_from hfreed hfreed'⟩
    simp only [destroyBuckets, hbucket, ok_bind]
    exact hrun.bind hrun'

/-- Setting the bucket that has been emptied changes nothing for the later ones. -/
theorem clearBuckets_freed (count : ℕ) (h : Intact s chains i)
    (hdistinct : Distinct s.capacity chains) (hnodup : ∀ j < s.capacity, (chains j).Nodup)
    (hlength : s.buckets.length = s.capacity) (hcount : i + count = s.capacity) :
    ∃ t, Settles (fun fuel => clearBuckets fuel count i s) (.ok t) ∧
      Freed s t ((List.range' i count).flatMap chains) := by
  induction count generalizing i s with
  | zero => exact ⟨s, settles_const _, Frees.refl _, Frees.refl _, by simp⟩
  | succ count ih =>
    have hi : i < s.capacity := by omega
    have hbucket : ∀ t : State, t.buckets = s.buckets → t.bucket i = .ok (s.buckets.getD i 0) := by
      intro t ht
      rw [State.bucket, ht, List.getD_eq_getElem?_getD, List.getElem?_eq_getElem (hlength ▸ hi)]
      rfl
    obtain ⟨t, hrun, hbuckets, hcapacity, hfreed, hintact⟩ :=
      clearChain_settles h hi hdistinct (hnodup i hi)
    let u : State := { t with buckets := t.buckets.set i 0 }
    have hset : t.setBucket i 0 = .ok u := by
      rw [State.setBucket, hbucket t hbuckets]
      rfl
    have hintact' : Intact u chains (i + 1) := by
      intro j hj hlt
      have hother : u.buckets.getD j 0 = t.buckets.getD j 0 := by
        have hne : i ≠ j := by omega
        simp [u, List.getD_eq_getElem?_getD, List.getElem?_set_ne hne]
      rw [hother]
      exact (hintact j hj hlt).congr (fun _ _ => rfl) fun _ _ => rfl
    obtain ⟨t', hrun', hfreed'⟩ := ih hintact' (hcapacity ▸ hdistinct) (hcapacity ▸ hnodup)
      (by simp [u, hbuckets, hcapacity, hlength]) (by show i + 1 + count = t.capacity; omega)
    have hfreed'' : Freed t t' ((List.range' (i + 1) count).flatMap chains) :=
      ⟨hfreed'.nodes, hfreed'.strings, hfreed'.gone⟩
    refine ⟨t', ?_, entries_from hfreed hfreed''⟩
    simp only [clearBuckets, hbucket s rfl, ok_bind]
    apply hrun.bind
    simp only [hset, ok_bind]
    exact hrun'

/-! ### Runs -/

theorem intact_of_holds (h : Holds s chains) : Intact s chains 0 :=
  fun j _ hj => h.represents.chain j hj

theorem nodup_of_holds (h : Holds s chains) : ∀ j < s.capacity, (chains j).Nodup :=
  fun j hj => (h.placed.distinct j hj).of_map _

theorem range_flatMap (n : ℕ) (chains : ℕ → List Entry) :
    (List.range' 0 n).flatMap chains = entries n chains := by
  rw [entries, List.range_eq_range']

/-- Nothing is in use when all entries have been freed. -/
theorem Freed.empty {t : State} (h : Counted s) (hholds : Holds s chains)
    (hfreed : Freed s t (entries s.capacity chains)) :
    t.nodes = (fun _ => none) ∧ t.strings = fun _ => none := by
  obtain ⟨hnodes, hstrings⟩ := h.exactly hholds
  constructor
  · refine hnodes.freed hfreed.nodes fun p hp => ?_
    obtain ⟨e, he, rfl⟩ := List.mem_map.mp hp
    exact (hfreed.gone e he).1
  · refine hstrings.freed hfreed.strings fun p hp => ?_
    obtain ⟨e, he, rfl⟩ := List.mem_map.mp hp
    exact (hfreed.gone e he).2

theorem counted_empty (h : s.nodes = fun _ => none) (h' : s.strings = fun _ => none)
    (hsize : s.size = 0) : Counted s := by
  refine ⟨?_, ?_, ?_⟩
  · rw [h, hsize]
    exact counts_zero
  · rw [h', hsize]
    exact counts_zero
  · intro p hp
    rw [h] at hp
    cases hp

theorem created_empty {tableReply bucketsReply capacity : ℕ} (garbage : ℕ → ℕ) :
    Ensures (fun r => ∀ s ∈ r.1, Counted s)
      (infraHashCreate tableReply bucketsReply garbage capacity) := by
  have hnone : ∀ s ∈ (none : Option State), Counted s := fun s hs => by cases hs
  refine Ensures.ite (fun _ => ensures_ok hnone) fun _ => ?_
  refine Ensures.ite (fun _ => ensures_ok hnone) fun _ => ?_
  refine Ensures.ite (fun _ => ensures_ok hnone) fun _ => ?_
  refine ensures_bind fun buckets => ensures_ok ?_
  intro s hs
  cases hs
  exact counted_empty rfl rfl rfl

theorem perform_effect {call : Call} (hadmissible : Admissible s call) (hclear : call ≠ .clear)
    (fuel : ℕ) : Ensures (fun r => Effect s r.1) (perform fuel s call) := by
  cases call with
  | put nodeReply keyReply key value => exact Ensures.map (infraHashPut_effect fuel hadmissible)
  | get key => exact Ensures.map fun _ _ => Effect.refl s
  | remove key => exact Ensures.map (infraHashRemove_effect fuel key)
  | clear => exact absurd rfl hclear

theorem clear_counted (h : Counted s) (hholds : Holds s chains) :
    ∃ t, Counted t ∧ Settles (fun fuel => perform fuel s .clear) (.ok (t, .nothing)) := by
  obtain ⟨t, hcleared, hfreed⟩ := clearBuckets_freed s.capacity (intact_of_holds hholds)
    (distinct_of_holds hholds) (nodup_of_holds hholds) hholds.represents.length (Nat.zero_add _)
  rw [range_flatMap] at hfreed
  obtain ⟨hnodes, hstrings⟩ := hfreed.empty h hholds
  have hclear : Settles (fun fuel => infraHashClear fuel s) (.ok { t with size := 0 }) :=
    hcleared.bind (settles_const _)
  have hcounted : Counted { t with size := 0 } := counted_empty hnodes hstrings rfl
  exact ⟨_, hcounted, hclear.map (Except.map fun s => (s, Answer.nothing))⟩

theorem counted_of_run {capacity : ℕ} (hcapacity : 8 * capacity < sizeModulus)
    {past : List (Call × Answer)} (h : Run capacity past s) : Counted s := by
  induction h with
  | create hcreate => exact created_empty _ _ hcreate _ rfl
  | @call past s s' call answer hpast hadmissible hrun ih =>
    by_cases hclear : call = .clear
    · subst hclear
      obtain ⟨_, ⟨chains, hholds, _⟩, _⟩ := run_holds hcapacity hpast
      obtain ⟨t, ht, hdone⟩ := clear_counted ih hholds
      cases hrun.unique hdone
      exact ht
    · exact ih.effect (hrun.ensures (perform_effect hadmissible hclear))

/-- In every state that a run reaches the memory in use is that of the entries,
one node and one copy of a key for each; and destroying the table meets each
of them once and leaves none in use. -/
theorem hash_released {capacity : ℕ} (hcapacity : 8 * capacity < sizeModulus)
    {past : List (Call × Answer)} (h : Run capacity past s) :
    (∃ chains, Represents s chains ∧
      Exactly s.nodes ((entries capacity chains).map Entry.id) ∧
      Exactly s.strings ((entries capacity chains).map Entry.keyId)) ∧
    Settles (fun fuel => infraHashDestroy fuel (some s)) (.ok (fun _ => none, fun _ => none)) := by
  obtain ⟨hcap, ⟨chains, hholds, _⟩, _⟩ := run_holds hcapacity h
  have hcounted := counted_of_run hcapacity h
  refine ⟨⟨chains, hholds.represents, hcap ▸ hcounted.exactly hholds⟩, ?_⟩
  obtain ⟨t, hrun, hfreed⟩ := destroyBuckets_settles s.capacity (intact_of_holds hholds)
    (distinct_of_holds hholds) (nodup_of_holds hholds) hholds.represents.length (Nat.zero_add _)
  rw [range_flatMap] at hfreed
  obtain ⟨hnodes, hstrings⟩ := hfreed.empty hcounted hholds
  rw [← hnodes, ← hstrings]
  exact hrun.bind (settles_const _)

/-- Two keys of one bucket, a request refused for its key only, and a removal. -/
theorem hash_released_colliding : ∃ past s, Run 1 past s ∧ past.length = 4 ∧
    (∃ chains, Represents s chains ∧ Exactly s.nodes ((entries 1 chains).map Entry.id) ∧
      Exactly s.strings ((entries 1 chains).map Entry.keyId)) ∧
    Settles (fun fuel => infraHashDestroy fuel (some s)) (.ok (fun _ => none, fun _ => none)) := by
  have hcreated := @Run.create 1 1 2 (fun _ => 9) _ rfl
  have hfirst := hcreated.call (by decide : Admissible _ (.put 3 4 (some (letter 0)) 7))
    (settles_of_ge 4 fun fuel => rfl)
  have hsecond := hfirst.call (by decide : Admissible _ (.put 5 6 (some (letter 1)) 8))
    (settles_of_ge 4 fun fuel => rfl)
  have hrefused := hsecond.call (by decide : Admissible _ (.put 7 0 (some (letter 2)) 1))
    (settles_of_ge 4 fun fuel => rfl)
  have hremoved := hrefused.call (by decide : Admissible _ (.remove (some (letter 0))))
    (settles_of_ge 4 fun fuel => rfl)
  exact ⟨_, _, hremoved, rfl, hash_released (by norm_num [sizeModulus]) hremoved⟩

end Ppdb.HashDestruction
