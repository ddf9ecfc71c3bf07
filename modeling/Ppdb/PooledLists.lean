import Ppdb.PooledClients
import Ppdb.RecordFields
import Ppdb.ListDestruction

/-!
The doubly linked list on the pool. Its header is a block of 24 bytes, and so is
each node; whatever else the program keeps in the pool, the bytes of the nodes,
followed from the head or from the tail that the header names, are the list.
-/

namespace Ppdb.PooledLists

open ByteMemory SizeArithmetic ErrorCodes RecordFields ObjectStores PooledClients HeapCells
open LinkedSegments DoublyLinked ListRuns EventualResults
open PoolRuns (PoolLayout smallPool smallConfig smallPool_started)
open PoolHeap (Fits smallPool_secluded)

def nodeFields (n : Node) : List Field := [⟨0, 8, n.next⟩, ⟨8, 8, n.prev⟩, ⟨16, 8, n.value⟩]

theorem nodeFields_inside (n : Node) : ∀ f ∈ nodeFields n, f.offset + f.width ≤ 24 := by
  simp [nodeFields]

theorem nodeFields_apart (n : Node) : (nodeFields n).Pairwise Field.Apart := by
  simp [nodeFields, Field.Apart]

def nodeLayout : RecordLayout Node where
  size := 24
  byte n i := fieldByte (nodeFields n) i
  inside n _ _ h := fieldByte_inside (nodeFields_inside n) h
  small := by norm_num [sizeMax, sizeModulus]

def loadNode (m : Mem) (p : ℕ) : Node where
  value := readLe m (p + 16) 8
  next := readLe m p 8
  prev := readLe m (p + 8) 8

def listFields (list : ListRuns.State) : List Field :=
  [⟨0, 8, list.head⟩, ⟨8, 8, list.tail⟩, ⟨16, 8, list.size⟩]

theorem listFields_inside (list : ListRuns.State) :
    ∀ f ∈ listFields list, f.offset + f.width ≤ 24 := by
  simp [listFields]

theorem listFields_apart (list : ListRuns.State) : (listFields list).Pairwise Field.Apart := by
  simp [listFields, Field.Apart]

def loadList (m : Mem) (hdr : ℕ) : ListRuns.State where
  head := readLe m hdr 8
  tail := readLe m (hdr + 8) 8
  size := readLe m (hdr + 16) 8
  heap p := some (loadNode m p)

/-- A list with its nodes and their values in order -/
abbrev History := List (ℕ × ℕ) × ListRuns.State

def headerLayout : RecordLayout History where
  size := 24
  byte h i := fieldByte (listFields h.2) i
  inside h _ _ hbyte := fieldByte_inside (listFields_inside h.2) hbyte
  small := by norm_num [sizeMax, sizeModulus]

/-- An append, which asks for a node, or a removal of a node in the list -/
inductive Performs : History → Option ℕ → History → Prop
  | append {ref : List (ℕ × ℕ)} {s s' : ListRuns.State} {reply value : ℕ} {e : ErrorCode}
      (hvalue : value < sizeModulus) (hcall : infraListAppend reply s value = .ok (s', e)) :
      Performs (ref, s) (some reply) (if reply = 0 then ref else ref ++ [(reply, value)], s')
  | remove {before after : List (ℕ × ℕ)} {s s' : ListRuns.State} {node value : ℕ} {e : ErrorCode}
      (hcall : infraListRemove s node = .ok (s', e)) :
      Performs (before ++ (node, value) :: after, s) none (before ++ after, s')

def listClient : Client Node History where
  header := headerLayout
  node := nodeLayout
  heap h := h.2.heap
  init := ([], created)
  step := Performs
  empty := rfl

variable {cfg : PoolOperations.Config} {s : PoolOperations.State} {others : Store UInt8}
  {ref : List (ℕ × ℕ)} {list : ListRuns.State} {m : Mem} {p hdr : ℕ} {n : Node}

/-! ### Nodes in memory -/

/-- A node whose bytes are in place is read back. -/
theorem loadNode_of_has (h : Has m p (nodeFields n)) (hnext : n.next < sizeModulus)
    (hprev : n.prev < sizeModulus) (hvalue : n.value < sizeModulus) : loadNode m p = n := by
  have hread : ∀ f ∈ nodeFields n, f.value < 256 ^ f.width →
      readLe m (p + f.offset) f.width = f.value := fun f hf hlt =>
    h.read_of_lt hf (nodeFields_apart n) hlt
  unfold sizeModulus at hnext hprev hvalue
  have h₀ := hread ⟨0, 8, n.next⟩ (by simp [nodeFields]) (by dsimp only; omega)
  have h₁ := hread ⟨8, 8, n.prev⟩ (by simp [nodeFields]) (by dsimp only; omega)
  have h₂ := hread ⟨16, 8, n.value⟩ (by simp [nodeFields]) (by dsimp only; omega)
  dsimp only at h₀ h₁ h₂
  rw [Nat.add_zero] at h₀
  unfold loadNode
  rw [h₀, h₁, h₂]

/-- So is the header. -/
theorem loadList_of_has (h : Has m hdr (listFields list)) (hhead : list.head < sizeModulus)
    (htail : list.tail < sizeModulus) (hsize : list.size < sizeModulus) :
    (loadList m hdr).head = list.head ∧ (loadList m hdr).tail = list.tail ∧
      (loadList m hdr).size = list.size := by
  unfold sizeModulus at hhead htail hsize
  have h₀ := h.read_of_lt (f := ⟨0, 8, list.head⟩) (by simp [listFields]) (listFields_apart list)
    (by dsimp only; omega)
  have h₁ := h.read_of_lt (f := ⟨8, 8, list.tail⟩) (by simp [listFields]) (listFields_apart list)
    (by dsimp only; omega)
  have h₂ := h.read_of_lt (f := ⟨16, 8, list.size⟩) (by simp [listFields]) (listFields_apart list)
    (by dsimp only; omega)
  exact ⟨h₀, h₁, h₂⟩

/-- The links of a node lead to nodes of the list, and its value is that of its place. -/
theorem node_links (h : Represents list ref) (hp : p ∈ ref.map Prod.fst) (hn : list.heap p = some n) :
    (n.next = 0 ∨ n.next ∈ ref.map Prod.fst) ∧ (n.prev = 0 ∨ n.prev ∈ ref.map Prod.fst) ∧
      ∃ x ∈ ref, n.value = x.2 := by
  obtain ⟨⟨q, value⟩, hx, rfl⟩ := List.mem_map.mp hp
  obtain ⟨n', hn', hvalue⟩ := h.stored _ hx
  obtain rfl := Option.some.inj (hn'.symm.trans hn)
  obtain ⟨before, after, rfl⟩ := List.append_of_mem hx
  obtain ⟨_, _, hprev, hnext⟩ := h.neighbours hn
  refine ⟨?_, ?_, _, hx, hvalue⟩
  · by_cases hz : n'.next = 0
    · exact Or.inl hz
    · right
      rw [List.map_append, List.map_cons]
      exact List.mem_append_right _ (List.mem_cons_of_mem _ (hnext hz))
  · by_cases hz : n'.prev = 0
    · exact Or.inl hz
    · right
      rw [List.map_append]
      exact List.mem_append_left _ (hprev hz)

/-! ### Runs -/

/-- The nodes in use are those of the list. -/
theorem exactly_of_run (h : Run list ref) : Exactly list.heap (ref.map Prod.fst) := by
  have hs := represents_of_run h
  exact (ListDestruction.counts_of_run h).exactly hs.linked.nodup (fun _ hi => hs.live hi)
    (by rw [List.length_map])

def Runs (h : History) : Prop := Run h.2 h.1 ∧ ∀ x ∈ h.1, x.2 < sizeModulus

theorem performs_runs {h h' : History} {request : Option ℕ} (hruns : Runs h)
    (hfresh : ∀ reply, request = some reply → reply ≠ 0 →
      h.2.heap reply = none ∧ reply < sizeModulus) (hcall : Performs h request h') :
    (∀ p, (h'.2.heap p).isSome → Place h.2.heap (request.getD 0) p) ∧ Runs h' := by
  obtain ⟨hrun, hvalues⟩ := hruns
  cases hcall with
  | @append ref s s' reply value e hvalue hcall =>
    by_cases hreply : reply = 0
    · subst hreply
      have hrun' := Run.refused hrun hcall
      rw [infraListAppend_refused] at hcall
      cases hcall
      exact ⟨fun p hp => Or.inl hp, hrun', hvalues⟩
    · obtain ⟨hnone, hbound⟩ := hfresh reply rfl hreply
      obtain ⟨t, hdone, _⟩ := (represents_of_run hrun).append hreply hnone hbound value
      cases hdone.symm.trans hcall
      have hgains := ListDestruction.infraListAppend_gains hreply hnone value _ hcall
      refine ⟨fun p hp => ?_, ?_, ?_⟩
      · rcases (hgains.2 p).mp hp with heq | hlive
        · exact Or.inr ⟨heq, hreply⟩
        · exact Or.inl hlive
      · rw [if_neg hreply]
        exact Run.append hrun hreply hnone hbound hcall
      · rw [if_neg hreply]
        intro x hx
        rcases List.mem_append.mp hx with hx | hx
        · exact hvalues x hx
        · rw [List.mem_singleton.mp hx]
          exact hvalue
  | @remove before after s s' node value e hcall =>
    have hnode : node ≠ 0 := (represents_of_run hrun).linked.ne_null node (by simp)
    have hloses := ListDestruction.infraListRemove_loses hnode _ hcall
    refine ⟨fun p hp => Or.inl ((hloses.2 p).mp hp).2, hrun.remove hcall, fun x hx => ?_⟩
    refine hvalues x ?_
    rcases List.mem_append.mp hx with hx | hx
    · exact List.mem_append_left _ hx
    · exact List.mem_append_right _ (List.mem_cons_of_mem _ hx)

/-- The list keeps header and nodes in the pool, and is the list of a run. -/
theorem listClient_inv {x : Option (ℕ × History)} (hrun : ClientRun listClient cfg s others x) :
    Coupled listClient s others x ∧ ∀ y ∈ x, Runs y.2 := by
  refine clientRun_inv (C := listClient) (I := Runs) ⟨Run.create, by simp [listClient]⟩ ?_ hrun
  exact fun _ _ _ hruns hfresh hcall => performs_runs hruns hfresh hcall

theorem link_space (hruns : Runs (ref, list)) (hp : p = 0 ∨ p ∈ ref.map Prod.fst) :
    p < sizeModulus := by
  rcases hp with rfl | hp
  · norm_num [sizeModulus]
  · obtain ⟨y, hy, rfl⟩ := List.mem_map.mp hp
    exact (represents_of_run hruns.1).bounded y hy

/-- What the memory has at a node of the list is the node. -/
theorem loadNode_eq (hlies : LiesInPool listClient s others hdr (ref, list))
    (hruns : Runs (ref, list)) (hp : p ∈ ref.map Prod.fst) :
    some (loadNode s.bytes p) = list.heap p := by
  have hrep := represents_of_run hruns.1
  obtain ⟨n, hn⟩ := Option.isSome_iff_exists.mp (hrep.live hp)
  obtain ⟨hnext, hprev, x, hx, hvalue⟩ := node_links hrep hp hn
  rw [hn, loadNode_of_has (hlies.nodes p n hn) (link_space hruns hnext) (link_space hruns hprev)
    (hvalue ▸ hruns.2 x hx)]

/-- A list is represented by every memory that has its header and its nodes. -/
theorem represents_congr {list' : ListRuns.State} (h : Represents list ref)
    (hhead : list'.head = list.head) (htail : list'.tail = list.tail) (hsize : list'.size = list.size)
    (heq : ∀ p ∈ ref.map Prod.fst, list'.heap p = list.heap p) : Represents list' ref := by
  have hnext : ∀ p ∈ ref.map Prod.fst, nextOf list' p = nextOf list p :=
    fun p hp => congrArg (fun n : Option Node => (n.map Node.next).getD 0) (heq p hp)
  have hprev : ∀ p ∈ (ref.map Prod.fst).reverse, prevOf list' p = prevOf list p := fun p hp =>
    congrArg (fun n : Option Node => (n.map Node.prev).getD 0) (heq p (List.mem_reverse.mp hp))
  refine ⟨⟨?_, ?_⟩, fun x hx => ?_, h.bounded, hsize.trans h.size⟩
  · rw [hhead]
    exact h.linked.forward.congr hnext
  · rw [htail]
    exact h.linked.backward.congr hprev
  · obtain ⟨n, hn, hvalue⟩ := h.stored x hx
    exact ⟨n, (heq x.1 (List.mem_map_of_mem hx)).trans hn, hvalue⟩

/-- The bytes of the pool are the list. -/
theorem loadList_represents (hlies : LiesInPool listClient s others hdr (ref, list))
    (hruns : Runs (ref, list)) : Represents (loadList s.bytes hdr) ref := by
  have hrep := represents_of_run hruns.1
  have hsize : list.size < sizeModulus := by
    rw [hrep.size, ← List.length_map Prod.fst]
    exact hlies.few _ (exactly_of_run hruns.1)
  have htail := hrep.linked.backward.start
  rw [List.mem_reverse] at htail
  have hhas : Has s.bytes hdr (listFields list) := hlies.header
  obtain ⟨hhead, htail, hcount⟩ := loadList_of_has hhas
    (link_space hruns hrep.linked.forward.start) (link_space hruns htail) hsize
  exact represents_congr hrep hhead htail hcount fun p hp => loadNode_eq hlies hruns hp

/-- An append brings the node into use that it was given. -/
theorem append_new_node {reply value : ℕ} (hruns : Runs (ref, list)) (hreply : reply ≠ 0)
    (hfree : list.heap reply = none) (hbound : reply < sizeModulus) (hvalue : value < sizeModulus) :
    ∃ list', Performs (ref, list) (some reply) (ref ++ [(reply, value)], list') ∧
      Runs (ref ++ [(reply, value)], list') ∧ Gains reply list.heap list'.heap := by
  obtain ⟨list', hcall, _⟩ := (represents_of_run hruns.1).append hreply hfree hbound value
  have hstep : Performs (ref, list) (some reply)
      (if reply = 0 then ref else ref ++ [(reply, value)], list') := .append hvalue hcall
  rw [if_neg hreply] at hstep
  refine ⟨list', hstep, ?_, ListDestruction.infraListAppend_gains hreply hfree value _ hcall⟩
  refine (performs_runs hruns (fun q heq _ => ?_) hstep).2
  rw [← Option.some.inj heq]
  exact ⟨hfree, hbound⟩

end Ppdb.PooledLists
