import Ppdb.HashChains
import Mathlib.Order.Interval.Finset.Nat

/-!
The hash table as a finite map. On a table whose chains are placed by their
keys, every operation ends, faults nowhere, and does to the map what it is for.
-/

namespace Ppdb.HashMaps

open SizeArithmetic HashOperations LinkedSegments BucketedMaps SortedMaps HashChains EventualResults

/-- The table holds the chains, at addresses that fit a pointer. -/
structure Holds (s : State) (chains : ℕ → List Entry) : Prop where
  represents : Represents s chains
  placed : Placed Entry.key s.index s.capacity chains
  pos : 0 < s.capacity
  bounded : ∀ e ∈ entries s.capacity chains, e.id < sizeModulus
  size : s.size = (entries s.capacity chains).length

def Denoted (s : State) (m : CString → Option ℕ) : Prop :=
  ∃ chains, Holds s chains ∧ Reads Entry.key Entry.value s.index chains m

variable {s s' : State} {e : Entry} {es before after l : List Entry} {p i : ℕ} {key : CString}
  {chains : ℕ → List Entry} {m : CString → Option ℕ}

theorem index_lt (hpos : 0 < s.capacity) (key : CString) : s.index key < s.capacity :=
  Nat.mod_lt _ hpos

/-- Entries that share a node or a copy of the key are the same. -/
theorem eq_of_shared (h : Represents s chains) (hplaced : Placed Entry.key s.index s.capacity chains)
    {j : ℕ} {e' : Entry} (hi : i < s.capacity) (hj : j < s.capacity) (he : e ∈ chains i)
    (he' : e' ∈ chains j) (hshared : e.id = e'.id ∨ e.keyId = e'.keyId) : i = j ∧ e = e' := by
  have hstored := (h.chain i hi).stored e he
  have hstored' := (h.chain j hj).stored e' he'
  have hkeyId : e.keyId = e'.keyId := by
    rcases hshared with hid | hkeyId
    · have hnode := hstored.node.symm.trans ((congrArg s.nodes hid).trans hstored'.node)
      injection hnode with hnode
      exact (Node.mk.inj hnode).1
    · exact hkeyId
  have hkey := hstored.string.symm.trans ((congrArg s.strings hkeyId).trans hstored'.string)
  injection hkey with hkey
  exact hplaced.eq_of_key hi hj he he' hkey

/-- The number of entries fits a `size_t`. -/
theorem length_lt (h : Represents s chains) (hplaced : Placed Entry.key s.index s.capacity chains)
    (hbounded : ∀ e ∈ entries s.capacity chains, e.id < sizeModulus) :
    (entries s.capacity chains).length < sizeModulus := by
  have hnodup : ((entries s.capacity chains).map Entry.id).Nodup := by
    refine (hplaced.nodup_keys.of_map _).map_on ?_
    intro a ha b hb hid
    obtain ⟨i, hi, ha⟩ := mem_entries.mp ha
    obtain ⟨j, hj, hb⟩ := mem_entries.mp hb
    exact (eq_of_shared h hplaced hi hj ha hb (Or.inl hid)).2
  have hbounds : ∀ a ∈ (entries s.capacity chains).map Entry.id, 0 < a ∧ a < sizeModulus := by
    intro a ha
    obtain ⟨b, hb, rfl⟩ := List.mem_map.mp ha
    obtain ⟨i, hi, hb'⟩ := mem_entries.mp hb
    have hne := (h.chain i hi).segment.ne_end _ (List.mem_map_of_mem hb')
    exact ⟨Nat.pos_of_ne_zero hne, hbounded b hb⟩
  have hlength := length_lt_of_nodup hnodup hbounds
  rwa [List.length_map] at hlength

/-- A new chain in one bucket leaves the other chains alone. -/
theorem represents_update (h : Represents s chains) (hcapacity : s'.capacity = s.capacity)
    (hlength : s'.buckets.length = s.buckets.length)
    (hchain : i < s.capacity → Chain s' (s'.buckets.getD i 0) l)
    (hother : ∀ j < s.capacity, j ≠ i → s'.buckets.getD j 0 = s.buckets.getD j 0 ∧
      ∀ e ∈ chains j, s'.nodes e.id = s.nodes e.id ∧ s'.strings e.keyId = s.strings e.keyId) :
    Represents s' (Function.update chains i l) := by
  constructor
  · rw [hlength, h.length, hcapacity]
  · intro j hj
    rw [hcapacity] at hj
    by_cases hji : j = i
    · subst hji
      rw [Function.update_self]
      exact hchain hj
    · obtain ⟨hbucket, hsame⟩ := hother j hj hji
      rw [Function.update_of_ne hji, hbucket]
      exact (h.chain j hj).congr (fun e he => (hsame e he).1) fun e he => (hsame e he).2

/-- A table whose bucket `i` has got the chain `l`. -/
theorem Holds.update (h : Holds s chains) (hi : i < s.capacity)
    (hrepresents : Represents s' (Function.update chains i l)) (hcapacity : s'.capacity = s.capacity)
    (hplaced : Placed Entry.key s.index s.capacity (Function.update chains i l))
    (hbounded : ∀ e ∈ l, e.id < sizeModulus)
    (hsize : s'.size + (chains i).length = s.size + l.length) :
    Holds s' (Function.update chains i l) := by
  have hlength := length_update chains hi l
  rw [h.size] at hsize
  refine ⟨hrepresents, ?_, hcapacity ▸ h.pos, ?_, ?_⟩
  · unfold State.index at hplaced ⊢
    rwa [hcapacity]
  · intro e he
    rcases mem_entries_update he with he | he
    · exact hbounded e he
    · exact h.bounded e (hcapacity ▸ he)
  · rw [hcapacity]
    omega

theorem Holds.bounded_chain (h : Holds s chains) (hi : i < s.capacity) :
    ∀ e ∈ chains i, e.id < sizeModulus :=
  fun e he => h.bounded e (mem_entries.mpr ⟨i, hi, he⟩)

/-- The other entries of the bucket, and those of other buckets, share no
memory with the entry `e`. -/
theorem Holds.beside (h : Holds s chains) (hi : i < s.capacity)
    (hcut : chains i = before ++ e :: after) :
    (∀ c ∈ before ++ after, c ∈ chains i ∧ c.id ≠ e.id ∧ c.keyId ≠ e.keyId) ∧
    ∀ j < s.capacity, j ≠ i → ∀ c ∈ chains j, c.id ≠ e.id ∧ c.keyId ≠ e.keyId := by
  have hmem : e ∈ chains i := by simp [hcut]
  have hapart := h.placed.apart hi hcut
  constructor
  · intro c hc
    have hmem' : c ∈ chains i := by
      rw [hcut]
      exact ((List.sublist_cons_self _ _).append_left _).subset hc
    have hne : c ≠ e := by
      rintro rfl
      rcases List.mem_append.mp hc with hc | hc
      · exact hapart.1 c hc rfl
      · exact hapart.2 c hc rfl
    have hshared := fun hor => hne (eq_of_shared h.represents h.placed hi hi hmem' hmem hor).2
    exact ⟨hmem', fun hid => hshared (Or.inl hid), fun hkeyId => hshared (Or.inr hkeyId)⟩
  · intro j hj hji c hc
    have hshared := fun hor => hji (eq_of_shared h.represents h.placed hj hi hc hmem hor).1
    exact ⟨fun hid => hshared (Or.inl hid), fun hkeyId => hshared (Or.inr hkeyId)⟩

/-! ### Reading and overwriting -/

theorem get_settles (h : Holds s chains) (hm : Reads Entry.key Entry.value s.index chains m)
    (key : CString) :
    Settles (fun fuel => infraHashGet fuel s (some key)) (.ok ((m key).getD 0)) := by
  have hi := index_lt h.pos key
  have hchain := h.represents.chain _ hi
  simp only [infraHashGet, h.represents.bucket_ok hi, ok_bind]
  cases hk : m key with
  | none =>
    obtain ⟨last, hscan⟩ := scan_absent hchain (hm.absent hk) 0
    exact hscan.bind ((settles_const _).of_eq fun fuel => rfl)
  | some v =>
    obtain ⟨before, e, after, hcut, rfl, rfl⟩ := hm.cut hk
    rw [hcut] at hchain
    have hscan := scan_found hchain (h.placed.apart hi hcut).1 0
    have hne : e.id ≠ 0 := hchain.segment.ne_end _ (by simp)
    apply hscan.bind
    refine (settles_const _).of_eq fun fuel => ?_
    simp only [if_neg hne, (hchain.stored e (by simp)).node_ok, ok_bind]
    rfl

/-- The key is in the table: its value is replaced. -/
theorem put_overwrites (h : Holds s chains) (hm : Reads Entry.key Entry.value s.index chains m)
    {w : ℕ} (hk : m key = some w) (nodeReply keyReply v : ℕ) : ∃ s',
    Settles (fun fuel => infraHashPut fuel nodeReply keyReply s (some key) v) (.ok (s', .ok)) ∧
    s'.capacity = s.capacity ∧ Denoted s' (Function.update m key (some v)) := by
  have hi := index_lt h.pos key
  have hchain := h.represents.chain _ hi
  obtain ⟨before, e, after, hcut, rfl, _⟩ := hm.cut hk
  have hmem : e ∈ chains (s.index e.key) := by simp [hcut]
  have hstored := hchain.stored e hmem
  have hne : e.id ≠ 0 := hchain.segment.ne_end _ (List.mem_map_of_mem hmem)
  have hscan := scan_found (hcut ▸ hchain) (h.placed.apart hi hcut).1 0
  obtain ⟨hbeside, helsewhere⟩ := h.beside hi hcut
  let s' := s.putNode e.id (some ⟨e.keyId, v, next s e.id⟩)
  let e' : Entry := { e with value := v }
  have hsame : ∀ a, a ≠ e.id → s'.nodes a = s.nodes a := fun a ha => Function.update_of_ne ha _ _
  have hself : s'.nodes e.id = some ⟨e.keyId, v, next s e.id⟩ := Function.update_self _ _ _
  have hnext : ∀ a, next s' a = next s a := by
    intro a
    by_cases ha : a = e.id
    · subst ha
      exact next_of_node hself
    · exact next_congr (hsame a ha)
  have hnew : Chain s' (s'.buckets.getD (s.index e.key) 0) (before ++ e' :: after) := by
    constructor
    · have hids : (before ++ e' :: after).map Entry.id = (chains (s.index e.key)).map Entry.id := by
        simp [hcut, e']
      rw [hids]
      exact hchain.segment.congr fun a _ => hnext a
    · intro c hc
      have hc' : c = e' ∨ c ∈ before ++ after := by
        simp only [List.mem_append, List.mem_cons] at hc ⊢
        tauto
      rcases hc' with rfl | hc'
      · refine ⟨?_, hstored.string⟩
        rw [hnext]
        exact hself
      · obtain ⟨hc', hid, _⟩ := hbeside c hc'
        exact (hchain.stored c hc').congr (hsame _ hid) rfl
  have hrepresents : Represents s' (Function.update chains (s.index e.key) (before ++ e' :: after)) := by
    refine represents_update h.represents rfl rfl (fun _ => hnew) ?_
    intro j hj hji
    exact ⟨rfl, fun c hc => ⟨hsame _ (helsewhere j hj hji c hc).1, rfl⟩⟩
  refine ⟨s', ?_, rfl, _, h.update hi hrepresents rfl (h.placed.overwrite hi hcut rfl) ?_ ?_,
    hm.overwrite h.placed hi hcut rfl⟩
  · simp only [infraHashPut, h.represents.bucket_ok hi, ok_bind]
    apply hscan.bind
    refine (settles_const _).of_eq fun fuel => ?_
    simp only [ne_eq, hne, not_false_eq_true, if_true, hstored.node_ok, ok_bind]
    rfl
  · intro c hc
    have hids : c.id ∈ (chains (s.index e.key)).map Entry.id := by
      have hc' := List.mem_map_of_mem (f := Entry.id) hc
      simpa [hcut, e'] using hc'
    obtain ⟨d, hd, hid⟩ := List.mem_map.mp hids
    exact hid ▸ h.bounded_chain hi d hd
  · simp [s', hcut, State.putNode]

/-! ### Adding an entry -/

/-- Without memory for a node or for the key, nothing has changed. -/
theorem putEntry_noMemory (nodeReply keyReply i v : ℕ)
    (hnode : nodeReply ≠ 0 → s.nodes nodeReply = none) (hreply : nodeReply = 0 ∨ keyReply = 0) :
    putEntry nodeReply keyReply s i key v = .ok (s, .noMemory) := by
  by_cases hzero : nodeReply = 0
  · rw [putEntry, if_pos hzero]
  · have hkey : keyReply = 0 := hreply.resolve_left hzero
    have hfree : (s.putNode nodeReply (some ⟨0, 0, 0⟩)).freeNode nodeReply = .ok s := by
      have hback : Function.update (Function.update s.nodes nodeReply (some ⟨0, 0, 0⟩)) nodeReply
          none = s.nodes := by
        rw [Function.update_idem, ← hnode hzero, Function.update_eq_self]
      simp [State.freeNode, State.node, State.putNode, hback]
    simp only [putEntry, hzero, infraStrdup, hkey, if_true, if_false, hfree, ok_bind]

theorem put_refused (h : Holds s chains) (hm : Reads Entry.key Entry.value s.index chains m)
    (hk : m key = none) (nodeReply keyReply v : ℕ)
    (hnode : nodeReply ≠ 0 → s.nodes nodeReply = none) (hreply : nodeReply = 0 ∨ keyReply = 0) :
    Settles (fun fuel => infraHashPut fuel nodeReply keyReply s (some key) v)
      (.ok (s, .noMemory)) := by
  have hi := index_lt h.pos key
  obtain ⟨last, hscan⟩ := scan_absent (h.represents.chain _ hi) (hm.absent hk) 0
  simp only [infraHashPut, h.represents.bucket_ok hi, ok_bind]
  apply hscan.bind
  refine (settles_const _).of_eq fun fuel => ?_
  exact putEntry_noMemory nodeReply keyReply _ v hnode hreply

theorem putEntry_ok {nodeReply keyReply head v : ℕ} (hnodeReply : nodeReply ≠ 0)
    (hkeyReply : keyReply ≠ 0) (hbucket : s.bucket i = .ok head) :
    putEntry nodeReply keyReply s i key v = .ok (⟨s.buckets.set i nodeReply, addSize s.size 1,
      s.capacity, Function.update s.nodes nodeReply (some ⟨keyReply, v, head⟩),
      Function.update s.strings keyReply (some key)⟩, .ok) := by
  have hsame : ∀ t : State, t.buckets = s.buckets → t.bucket i = .ok head := by
    intro t ht
    rwa [State.bucket, ht]
  simp only [putEntry, hnodeReply, infraStrdup, hkeyReply, State.setBucket, if_false]
  rw [hsame _ (by rfl), ok_bind, hsame _ (by rfl), ok_bind, ok_bind]
  simp only [State.putNode, State.putString, Function.update_idem]

/-- The key is not in the table: an entry becomes the head of its bucket. -/
theorem put_adds (h : Holds s chains) (hm : Reads Entry.key Entry.value s.index chains m)
    (hk : m key = none) {nodeReply keyReply : ℕ} (v : ℕ) (hnode : s.nodes nodeReply = none)
    (hstring : s.strings keyReply = none) (hnodeReply : nodeReply ≠ 0) (hkeyReply : keyReply ≠ 0)
    (hfits : nodeReply < sizeModulus) : ∃ s',
    Settles (fun fuel => infraHashPut fuel nodeReply keyReply s (some key) v) (.ok (s', .ok)) ∧
    s'.capacity = s.capacity ∧ Denoted s' (Function.update m key (some v)) := by
  have hi := index_lt h.pos key
  have hchain := h.represents.chain _ hi
  obtain ⟨last, hscan⟩ := scan_absent hchain (hm.absent hk) 0
  let head := s.buckets.getD (s.index key) 0
  let e : Entry := ⟨nodeReply, keyReply, key, v⟩
  let s' : State := ⟨s.buckets.set (s.index key) nodeReply, addSize s.size 1, s.capacity,
    Function.update s.nodes nodeReply (some ⟨keyReply, v, head⟩),
    Function.update s.strings keyReply (some key)⟩
  have hfresh : ∀ j < s.capacity, ∀ c ∈ chains j, s'.nodes c.id = s.nodes c.id ∧
      s'.strings c.keyId = s.strings c.keyId := by
    intro j hj c hc
    have hstored := (h.represents.chain j hj).stored c hc
    constructor
    · refine Function.update_of_ne (fun hid => ?_) _ _
      have hsome := hstored.node
      rw [hid, hnode] at hsome
      cases hsome
    · refine Function.update_of_ne (fun hkeyId => ?_) _ _
      have hsome := hstored.string
      rw [hkeyId, hstring] at hsome
      cases hsome
  have hlt : s.index key < s.buckets.length := by rwa [h.represents.length]
  have hself : s'.nodes e.id = some ⟨keyReply, v, head⟩ := Function.update_self _ _ _
  have hnew : Chain s' (s'.buckets.getD (s.index key) 0) (e :: chains (s.index key)) := by
    have hhead : s'.buckets.getD (s.index key) 0 = e.id := by simp [s', e, hlt]
    rw [hhead]
    refine chain_cons.mpr ⟨rfl, hnodeReply, ⟨?_, Function.update_self _ _ _⟩, ?_⟩
    · rw [next_of_node hself]
      exact hself
    · rw [next_of_node hself]
      exact hchain.congr (fun c hc => (hfresh _ hi c hc).1) fun c hc => (hfresh _ hi c hc).2
  have hrepresents : Represents s' (Function.update chains (s.index key) (e :: chains (s.index key))) := by
    refine represents_update h.represents rfl (List.length_set) (fun _ => hnew) ?_
    intro j hj hji
    refine ⟨?_, hfresh j hj⟩
    simp [s', List.getD_eq_getElem?_getD, List.getElem?_set_ne (Ne.symm hji)]
  have hplaced : Placed Entry.key s.index s.capacity (Function.update chains (s.index key) (e :: chains (s.index key))) :=
    h.placed.insert (a := e) hi (hm.absent hk)
  have hbounded : ∀ c ∈ e :: chains (s.index key), c.id < sizeModulus := by
    intro c hc
    rcases List.mem_cons.mp hc with rfl | hc
    · exact hfits
    · exact h.bounded_chain hi c hc
  have hsize : s'.size = s.size + 1 := by
    have hlt : (entries s.capacity (Function.update chains (s.index key)
        (e :: chains (s.index key)))).length < sizeModulus := by
      refine length_lt (s := s') hrepresents hplaced fun c hc => ?_
      rcases mem_entries_update hc with hc | hc
      · exact hbounded c hc
      · exact h.bounded c hc
    have hlength := length_update chains hi (e :: chains (s.index key))
    have heq := h.size
    rw [List.length_cons] at hlength
    exact addSize_of_lt (by omega)
  refine ⟨s', ?_, rfl, _, h.update hi hrepresents rfl hplaced hbounded ?_,
    hm.insert (a := e) (hm.absent hk)⟩
  · simp only [infraHashPut, h.represents.bucket_ok hi, ok_bind]
    apply hscan.bind
    refine (settles_const _).of_eq fun fuel => ?_
    exact putEntry_ok hnodeReply hkeyReply (h.represents.bucket_ok hi)
  · rw [hsize, List.length_cons]
    exact Nat.add_right_comm _ _ _

/-! ### Removing an entry -/

theorem remove_absent (h : Holds s chains) (hm : Reads Entry.key Entry.value s.index chains m)
    (hk : m key = none) :
    Settles (fun fuel => infraHashRemove fuel s (some key)) (.ok (s, 0)) := by
  have hi := index_lt h.pos key
  obtain ⟨last, hscan⟩ := scan_absent (h.represents.chain _ hi) (hm.absent hk) 0
  simp only [infraHashRemove, h.represents.bucket_ok hi, ok_bind]
  exact hscan.bind ((settles_const _).of_eq fun fuel => rfl)

/-- The state `t` is `s` with the entries `before` and `after` of bucket `i`
linked to each other. -/
structure Unlinked (s t : State) (i : ℕ) (before after : List Entry) : Prop where
  capacity : t.capacity = s.capacity
  size : t.size = s.size
  strings : t.strings = s.strings
  length : t.buckets.length = s.buckets.length
  buckets : ∀ j, j ≠ i → t.buckets.getD j 0 = s.buckets.getD j 0
  nodes : ∀ a, a ∉ before.map Entry.id → t.nodes a = s.nodes a
  chain : Chain t (t.buckets.getD i 0) (before ++ after)

/-- At the head of the bucket, or behind another entry, the entry `e` is passed over. -/
theorem unlink_ok (hi : i < s.buckets.length)
    (hchain : Chain s (s.buckets.getD i 0) (before ++ e :: after)) :
    ∃ t, unlink s i ((before.map Entry.id).getLastD 0) (next s e.id) = .ok t ∧
      Unlinked s t i before after := by
  have hbucket : s.bucket i = .ok (s.buckets.getD i 0) := by
    rw [State.bucket, List.getElem?_eq_getElem hi, List.getD_eq_getElem _ _ hi]
  rcases List.eq_nil_or_concat before with rfl | ⟨front, c, rfl⟩
  · obtain ⟨_, _, _, hrest⟩ := chain_cons.mp hchain
    refine ⟨{ s with buckets := s.buckets.set i (next s e.id) }, ?_, rfl, rfl, rfl,
      List.length_set, ?_, fun _ _ => rfl, ?_⟩
    · simp only [unlink, List.map_nil, List.getLastD_nil, if_true, State.setBucket, hbucket, ok_bind]
    · intro j hj
      simp [List.getD_eq_getElem?_getD, List.getElem?_set_ne (Ne.symm hj)]
    · have hhead : (s.buckets.set i (next s e.id)).getD i 0 = next s e.id := by simp [hi]
      rw [hhead]
      exact hrest.congr (fun _ _ => rfl) fun _ _ => rfl
  · rw [List.concat_eq_append] at hchain ⊢
    have hstored := hchain.stored c (by simp)
    have hne : c.id ≠ 0 := hchain.segment.ne_end _ (by simp)
    have hnodup := hchain.segment.nodup
    have hsegment := hchain.segment
    simp only [List.append_assoc, List.singleton_append, List.map_append, List.map_cons] at hnodup hsegment
    obtain ⟨_, hback, hfront⟩ := List.nodup_append.mp hnodup
    obtain ⟨hc, hback⟩ := List.nodup_cons.mp hback
    let t := s.putNode c.id (some ⟨c.keyId, c.value, next s e.id⟩)
    have hself : t.nodes c.id = some ⟨c.keyId, c.value, next s e.id⟩ := Function.update_self _ _ _
    have hsame : ∀ a, a ≠ c.id → t.nodes a = s.nodes a := fun a ha => Function.update_of_ne ha _ _
    have hothers : ∀ a ∈ front ++ after, a.id ≠ c.id := by
      intro a ha hid
      rcases List.mem_append.mp ha with ha | ha
      · exact hfront _ (List.mem_map_of_mem ha) _ List.mem_cons_self hid
      · exact hc (hid ▸ List.mem_cons_of_mem _ (List.mem_map_of_mem ha))
    refine ⟨t, ?_, rfl, rfl, rfl, rfl, fun _ _ => rfl, ?_, ?_, ?_⟩
    · simp only [unlink, List.map_append, List.map_cons, List.map_nil, List.getLastD_concat, hne,
        if_false, hstored.node_ok, ok_bind]
      rfl
    · intro a ha
      apply hsame
      rintro rfl
      exact ha (by simp)
    · rw [List.append_assoc, List.map_append]
      apply hsegment.unlink
      · exact next_of_node hself
      · intro a ha
        rw [← List.map_append] at ha
        obtain ⟨b, hb, rfl⟩ := List.mem_map.mp ha
        exact next_congr (hsame _ (hothers b hb))
    · intro a ha
      have ha' : a = c ∨ a ∈ front ++ after := by
        simp only [List.mem_append, List.mem_cons, List.not_mem_nil] at ha ⊢
        tauto
      rcases ha' with rfl | ha'
      · refine ⟨?_, hstored.string⟩
        rw [next_of_node hself]
        exact hself
      · have hmem : a ∈ front ++ [c] ++ e :: after := by
          simp only [List.mem_append, List.mem_cons] at ha' ⊢
          tauto
        exact (hchain.stored a hmem).congr (hsame _ (hothers a ha')) rfl

/-- The key is in the table: its entry is taken out and freed. -/
theorem remove_takes (h : Holds s chains) (hm : Reads Entry.key Entry.value s.index chains m)
    {v : ℕ} (hk : m key = some v) : ∃ s',
    Settles (fun fuel => infraHashRemove fuel s (some key)) (.ok (s', v)) ∧
    s'.capacity = s.capacity ∧ Denoted s' (Function.update m key none) := by
  have hi := index_lt h.pos key
  have hchain := h.represents.chain _ hi
  obtain ⟨before, e, after, hcut, rfl, rfl⟩ := hm.cut hk
  have hplaced := h.placed.erase hi hcut
  have hmem : e ∈ chains (s.index e.key) := by simp [hcut]
  have hstored := hchain.stored e hmem
  have hne : e.id ≠ 0 := hchain.segment.ne_end _ (List.mem_map_of_mem hmem)
  have hscan := scan_found (hcut ▸ hchain) (h.placed.apart hi hcut).1 0
  obtain ⟨hbeside, helsewhere⟩ := h.beside hi hcut
  have hlt : s.index e.key < s.buckets.length := by rwa [h.represents.length]
  obtain ⟨t, hunlink, hunlinked⟩ := unlink_ok hlt (hcut ▸ hchain)
  have hnode : t.node e.id = .ok ⟨e.keyId, e.value, next s e.id⟩ := by
    have hout : e.id ∉ before.map Entry.id := by
      intro hid
      obtain ⟨c, hc, hid⟩ := List.mem_map.mp hid
      exact (hbeside c (List.mem_append_left _ hc)).2.1 hid
    rw [State.node, hunlinked.nodes _ hout, hstored.node]
  have hstring : t.string e.keyId = .ok e.key := by
    rw [State.string, hunlinked.strings, hstored.string]
  let s' : State := { (t.putString e.keyId none).putNode e.id none with size := subSize s.size 1 }
  have hsame : ∀ c : Entry, c.id ≠ e.id ∧ c.keyId ≠ e.keyId → s'.nodes c.id = t.nodes c.id ∧
      s'.strings c.keyId = t.strings c.keyId := fun c hc =>
    ⟨Function.update_of_ne hc.1 _ _, Function.update_of_ne hc.2 _ _⟩
  have hrepresents : Represents s' (Function.update chains (s.index e.key) (before ++ after)) := by
    refine represents_update h.represents hunlinked.capacity hunlinked.length (fun _ => ?_) ?_
    · exact hunlinked.chain.congr (fun c hc => (hsame c (hbeside c hc).2).1)
        fun c hc => (hsame c (hbeside c hc).2).2
    · intro j hj hji
      refine ⟨hunlinked.buckets j hji, fun c hc => ?_⟩
      obtain ⟨hnode', hstring'⟩ := hsame c (helsewhere j hj hji c hc)
      rw [hnode', hstring', hunlinked.strings]
      refine ⟨hunlinked.nodes _ fun hid => ?_, rfl⟩
      obtain ⟨d, hd, hid⟩ := List.mem_map.mp hid
      have hd' := (hbeside d (List.mem_append_left _ hd)).1
      exact hji (eq_of_shared h.represents h.placed hj hi hc hd' (Or.inl hid.symm)).1
  have hindex : s'.index = s.index := by
    funext k
    rw [State.index, State.index, show s'.capacity = s.capacity from hunlinked.capacity]
  have hpos : 0 < s.size := by
    rw [h.size]
    exact List.length_pos_of_mem (mem_entries.mpr ⟨_, hi, hmem⟩)
  have hsize : s'.size = s.size - 1 := by
    refine subSize_of_le ?_ hpos
    rw [h.size]
    exact length_lt h.represents h.placed h.bounded
  refine ⟨s', ?_, hunlinked.capacity, _,
    h.update hi hrepresents hunlinked.capacity hplaced ?_ ?_, ?_⟩
  · simp only [infraHashRemove, h.represents.bucket_ok hi, ok_bind]
    apply hscan.bind
    refine (settles_const _).of_eq fun fuel => ?_
    have hfree : (t.putString e.keyId none).node e.id = .ok ⟨e.keyId, e.value, next s e.id⟩ := hnode
    simp only [hne, if_false, hstored.node_ok, ok_bind, hunlink, State.freeString, hstring,
      State.freeNode, hfree]
    rw [show ((t.putString e.keyId none).putNode e.id none).size = s.size from hunlinked.size]
  · exact fun c hc => h.bounded_chain hi c (hbeside c hc).1
  · rw [hsize, hcut, List.length_append, List.length_append, List.length_cons]
    omega
  · rw [hindex]
    exact hm.erase h.placed hi hcut

/-! ### Clearing -/

/-- Freeing the entries of a chain leaves all other memory as it was. -/
theorem clearEntries_settles (h : Chain s p es) (hkeyIds : (es.map Entry.keyId).Nodup) :
    ∃ t, Settles (fun fuel => clearEntries fuel s p) (.ok t) ∧ t.buckets = s.buckets ∧
      t.capacity = s.capacity ∧ (∀ a, a ∉ es.map Entry.id → t.nodes a = s.nodes a) ∧
      ∀ a, a ∉ es.map Entry.keyId → t.strings a = s.strings a := by
  induction es generalizing s p with
  | nil =>
    have hp : p = 0 := h.segment
    refine ⟨s, Settles.succ ((settles_const _).of_eq fun fuel => ?_), rfl, rfl, fun _ _ => rfl,
      fun _ _ => rfl⟩
    rw [clearEntries, if_pos hp]
  | cons e es ih =>
    have hids := h.segment.nodup
    obtain ⟨rfl, hne, hstored, hrest⟩ := chain_cons.mp h
    rw [List.map_cons] at hids hkeyIds
    obtain ⟨hid, _⟩ := List.nodup_cons.mp hids
    obtain ⟨hkeyId, hkeyIds⟩ := List.nodup_cons.mp hkeyIds
    let u := (s.putString e.keyId none).putNode e.id none
    have hnodes : ∀ a, a ≠ e.id → u.nodes a = s.nodes a := fun a ha => Function.update_of_ne ha _ _
    have hstrings : ∀ a, a ≠ e.keyId → u.strings a = s.strings a :=
      fun a ha => Function.update_of_ne ha _ _
    have hchain : Chain u (next s e.id) es := by
      refine hrest.congr (fun c hc => hnodes _ fun heq => ?_) fun c hc => hstrings _ fun heq => ?_
      · exact hid (heq ▸ List.mem_map_of_mem hc)
      · exact hkeyId (heq ▸ List.mem_map_of_mem hc)
    obtain ⟨t, hrun, hbuckets, hcapacity, htnodes, htstrings⟩ := ih hchain hkeyIds
    refine ⟨t, Settles.succ (hrun.of_eq fun fuel => ?_), hbuckets, hcapacity, ?_, ?_⟩
    · have hnode : (s.putString e.keyId none).node e.id = .ok ⟨e.keyId, e.value, next s e.id⟩ :=
        hstored.node_ok
      simp only [clearEntries, hne, if_false, hstored.node_ok, ok_bind, State.freeString,
        hstored.string_ok, State.freeNode, hnode]
      rfl
    · intro a ha
      rw [List.map_cons, List.mem_cons, not_or] at ha
      rw [htnodes a ha.2, hnodes a ha.1]
    · intro a ha
      rw [List.map_cons, List.mem_cons, not_or] at ha
      rw [htstrings a ha.2, hstrings a ha.1]

/-- One turn of the outer loop empties one bucket. -/
theorem clearBucket_settles (h : Represents s chains)
    (hplaced : Placed Entry.key s.index s.capacity chains) (hi : i < s.capacity) :
    ∃ t u, Settles (fun fuel => clearEntries fuel s (s.buckets.getD i 0)) (.ok t) ∧
      t.setBucket i 0 = .ok u ∧ u.capacity = s.capacity ∧
      Represents u (Function.update chains i []) := by
  have hchain := h.chain i hi
  have hkeyIds : ((chains i).map Entry.keyId).Nodup := by
    refine ((hplaced.distinct i hi).of_map _).map_on ?_
    intro a ha b hb heq
    exact (eq_of_shared h hplaced hi hi ha hb (Or.inr heq)).2
  obtain ⟨t, hrun, hbuckets, hcapacity, hnodes, hstrings⟩ := clearEntries_settles hchain hkeyIds
  have hlt : i < s.buckets.length := by rwa [h.length]
  refine ⟨t, { t with buckets := t.buckets.set i 0 }, hrun, ?_, hcapacity, ?_⟩
  · rw [State.setBucket, State.bucket, hbuckets, List.getElem?_eq_getElem hlt]
    rfl
  · refine represents_update h hcapacity ?_ (fun _ => ?_) ?_
    · rw [List.length_set, hbuckets]
    · have hhead : (t.buckets.set i 0).getD i 0 = 0 := by simp [hbuckets, hlt]
      rw [hhead]
      exact chain_nil
    · intro j hj hji
      refine ⟨?_, fun c hc => ⟨hnodes _ fun hid => ?_, hstrings _ fun hkeyId => ?_⟩⟩
      · simp [List.getD_eq_getElem?_getD, List.getElem?_set_ne (Ne.symm hji), hbuckets]
      · obtain ⟨d, hd, hid⟩ := List.mem_map.mp hid
        exact hji (eq_of_shared h hplaced hj hi hc hd (Or.inl hid.symm)).1
      · obtain ⟨d, hd, hkeyId⟩ := List.mem_map.mp hkeyId
        exact hji (eq_of_shared h hplaced hj hi hc hd (Or.inr hkeyId.symm)).1

/-- The outer loop empties the buckets from `i` on. -/
theorem clearBuckets_settles (count : ℕ) (h : Represents s chains)
    (hplaced : Placed Entry.key s.index s.capacity chains) (hcount : i + count = s.capacity) :
    ∃ t, Settles (fun fuel => clearBuckets fuel count i s) (.ok t) ∧ t.capacity = s.capacity ∧
      Represents t fun j => if j < i then chains j else [] := by
  induction count generalizing i s chains with
  | zero =>
    refine ⟨s, settles_const _, rfl, h.length, ?_⟩
    intro j hj
    rw [if_pos (by omega)]
    exact h.chain j hj
  | succ count ih =>
    have hi : i < s.capacity := by omega
    obtain ⟨t, u, hrun, hset, hcapacity, hrepresents⟩ := clearBucket_settles h hplaced hi
    have hplaced' : Placed Entry.key u.index u.capacity (Function.update chains i []) := by
      unfold State.index at hplaced ⊢
      rw [hcapacity]
      exact hplaced.update (fun _ ha => absurd ha List.not_mem_nil) List.nodup_nil
    have hemptied : (fun j => if j < i + 1 then Function.update chains i [] j else []) =
        fun j => if j < i then chains j else [] := by
      funext j
      by_cases hji : j = i
      · simp [hji]
      · have hiff : j < i + 1 ↔ j < i := by omega
        simp [hji, hiff]
    obtain ⟨t', hrun', hcapacity', hrepresents'⟩ :=
      ih (i := i + 1) hrepresents hplaced' (by omega)
    refine ⟨t', ?_, hcapacity'.trans hcapacity, hemptied ▸ hrepresents'⟩
    simp only [clearBuckets, h.bucket_ok hi, ok_bind]
    apply hrun.bind
    simp only [hset, ok_bind]
    exact hrun'

theorem clear_settles (h : Holds s chains) : ∃ s',
    Settles (fun fuel => infraHashClear fuel s) (.ok s') ∧ s'.capacity = s.capacity ∧
    Denoted s' fun _ => none := by
  obtain ⟨t, hrun, hcapacity, hrepresents⟩ := clearBuckets_settles s.capacity h.represents h.placed
    (Nat.zero_add s.capacity)
  simp only [Nat.not_lt_zero, if_false] at hrepresents
  refine ⟨{ t with size := 0 }, hrun.bind (settles_const _), hcapacity, fun _ => [],
    ⟨⟨hrepresents.length, ?_⟩, placed_nil, ?_, ?_, ?_⟩, reads_nil⟩
  · exact fun i hi => (hrepresents.chain i hi).congr (fun _ _ => rfl) fun _ _ => rfl
  · exact hcapacity ▸ h.pos
  · rw [entries_nil]
    exact fun _ he => absurd he List.not_mem_nil
  · rw [entries_nil]
    rfl

end Ppdb.HashMaps
