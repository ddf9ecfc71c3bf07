import Ppdb.DoublyLinked
import Ppdb.ErrorCodes
import Ppdb.SizeArithmetic

/-!
The doubly linked list of the data structure module. Over any sequence of
appends, served by the allocator or not, and removals of nodes in the list, it
is the list of values that a reference list of nodes and values says it is.
Reading memory that holds no node is a fault; the list itself is not null.
-/

namespace Ppdb.ListRuns

open SizeArithmetic ErrorCodes LinkedSegments DoublyLinked

structure Node where
  value : ℕ
  next : ℕ
  prev : ℕ
  deriving DecidableEq, Repr

/-- `infra_list_t`, with the nodes in memory, 0 being the null pointer. -/
structure State where
  head : ℕ
  tail : ℕ
  size : ℕ
  heap : ℕ → Option Node

inductive Fault
  /-- an access to memory that holds no node -/
  | wild
  deriving DecidableEq, Repr

namespace State

def node (s : State) (p : ℕ) : Except Fault Node :=
  match s.heap p with
  | none => .error .wild
  | some n => .ok n

def put (s : State) (p : ℕ) (n : Option Node) : State :=
  { s with heap := Function.update s.heap p n }

def setNext (s : State) (p q : ℕ) : Except Fault State := do
  let n ← s.node p
  .ok (s.put p (some { n with next := q }))

def setPrev (s : State) (p q : ℕ) : Except Fault State := do
  let n ← s.node p
  .ok (s.put p (some { n with prev := q }))

/-- `if (p != NULL) p->next = q; else list->head = q;` -/
def leadNext (s : State) (p q : ℕ) : Except Fault State :=
  if p ≠ 0 then s.setNext p q else .ok { s with head := q }

/-- `if (p != NULL) p->prev = q; else list->tail = q;` -/
def leadPrev (s : State) (p q : ℕ) : Except Fault State :=
  if p ≠ 0 then s.setPrev p q else .ok { s with tail := q }

/-- `if (list->tail != NULL) list->tail->next = p;` -/
def linkLast (s : State) (p : ℕ) : Except Fault State :=
  if s.tail ≠ 0 then s.setNext s.tail p else .ok s

def freeNode (s : State) (p : ℕ) : Except Fault State := do
  let _ ← s.node p
  .ok (s.put p none)

end State

/-- What `infra_list_create` makes. -/
def created : State := ⟨0, 0, 0, fun _ => none⟩

def infraListAppend (reply : ℕ) (s : State) (value : ℕ) : Except Fault (State × ErrorCode) :=
  if reply = 0 then .ok (s, .noMemory)
  else do
    let s := s.put reply (some ⟨value, 0, s.tail⟩)
    let s ← s.linkLast reply
    let s := { s with tail := reply }
    let s := if s.head = 0 then { s with head := reply } else s
    .ok ({ s with size := addSize s.size 1 }, .ok)

def infraListRemove (s : State) (node : ℕ) : Except Fault (State × ErrorCode) :=
  if node = 0 then .ok (s, .invalidParam)
  else do
    let n ← s.node node
    let s ← s.leadNext n.prev n.next
    let n ← s.node node
    let s ← s.leadPrev n.next n.prev
    let s ← s.freeNode node
    .ok ({ s with size := subSize s.size 1 }, .ok)

/-- `infra_list_node_next` -/
def nextOf (s : State) (p : ℕ) : ℕ := ((s.heap p).map Node.next).getD 0

def prevOf (s : State) (p : ℕ) : ℕ := ((s.heap p).map Node.prev).getD 0

/-- A list after calls on a new one, with the reference list: the nodes in it
and their values, in order. -/
inductive Run : State → List (ℕ × ℕ) → Prop
  | create : Run created []
  | append {s s' : State} {ref : List (ℕ × ℕ)} {reply value : ℕ} (hrun : Run s ref)
      (hserved : reply ≠ 0) (hfresh : s.heap reply = none) (hreply : reply < sizeModulus)
      (hcall : infraListAppend reply s value = .ok (s', .ok)) : Run s' (ref ++ [(reply, value)])
  | refused {s s' : State} {ref : List (ℕ × ℕ)} {value : ℕ} {e : ErrorCode} (hrun : Run s ref)
      (hcall : infraListAppend 0 s value = .ok (s', e)) : Run s' ref
  | remove {s s' : State} {before after : List (ℕ × ℕ)} {node value : ℕ} {e : ErrorCode}
      (hrun : Run s (before ++ (node, value) :: after))
      (hcall : infraListRemove s node = .ok (s', e)) : Run s' (before ++ after)

/-- The list in memory is the reference list. -/
structure Represents (s : State) (ref : List (ℕ × ℕ)) : Prop where
  linked : Doubly (nextOf s) (prevOf s) 0 s.head s.tail (ref.map Prod.fst)
  stored : ∀ x ∈ ref, ∃ n, s.heap x.1 = some n ∧ n.value = x.2
  bounded : ∀ x ∈ ref, x.1 < sizeModulus
  size : s.size = ref.length

variable {s s' : State} {ref before after : List (ℕ × ℕ)} {p : ℕ}

/-! ### Memory -/

theorem node_some {n : Node} (h : s.heap p = some n) : s.node p = .ok n := by
  simp [State.node, h]

theorem nextOf_some {n : Node} (h : s.heap p = some n) : nextOf s p = n.next := by
  simp [nextOf, h]

theorem prevOf_some {n : Node} (h : s.heap p = some n) : prevOf s p = n.prev := by
  simp [prevOf, h]

theorem setNext_some {n : Node} (h : s.heap p = some n) (q : ℕ) :
    s.setNext p q = .ok (s.put p (some { n with next := q })) := by
  simp [State.setNext, node_some h, bind, Except.bind]

theorem setPrev_some {n : Node} (h : s.heap p = some n) (q : ℕ) :
    s.setPrev p q = .ok (s.put p (some { n with prev := q })) := by
  simp [State.setPrev, node_some h, bind, Except.bind]

theorem freeNode_some {n : Node} (h : s.heap p = some n) : s.freeNode p = .ok (s.put p none) := by
  simp [State.freeNode, node_some h, bind, Except.bind]

@[simp] theorem put_head (n : Option Node) : (s.put p n).head = s.head := rfl

@[simp] theorem put_tail (n : Option Node) : (s.put p n).tail = s.tail := rfl

@[simp] theorem put_size (n : Option Node) : (s.put p n).size = s.size := rfl

/-- A write to one node, seen at any of them. -/
theorem put_heap {m : Node} (h : s.heap p = some m) (f : Node → Node) (c : ℕ) :
    (s.put p (some (f m))).heap c = (s.heap c).map fun m => if c = p then f m else m := by
  by_cases hcp : c = p
  · rw [hcp, h]
    simp [State.put]
  · simp [State.put, hcp]

theorem leadNext_spec (hp : p ≠ 0 → (s.heap p).isSome) (q : ℕ) :
    ∃ s', s.leadNext p q = .ok s' ∧
      s'.head = (if p = 0 then q else s.head) ∧ s'.tail = s.tail ∧ s'.size = s.size ∧
      ∀ c, c ≠ 0 → s'.heap c = (s.heap c).map fun m => if c = p then { m with next := q } else m := by
  by_cases hz : p = 0
  · refine ⟨{ s with head := q }, if_neg (not_not.mpr hz), (if_pos hz).symm, rfl, rfl, ?_⟩
    intro c hc
    have hcp : c ≠ p := fun heq => hc (heq.trans hz)
    simp [hcp]
  · obtain ⟨m, hm⟩ := Option.isSome_iff_exists.mp (hp hz)
    refine ⟨s.put p (some { m with next := q }), ?_, (if_neg hz).symm, rfl, rfl, fun c _ => ?_⟩
    · rw [State.leadNext, if_pos hz, setNext_some hm]
    · exact put_heap hm (fun m => { m with next := q }) c

theorem leadPrev_spec (hp : p ≠ 0 → (s.heap p).isSome) (q : ℕ) :
    ∃ s', s.leadPrev p q = .ok s' ∧
      s'.tail = (if p = 0 then q else s.tail) ∧ s'.head = s.head ∧ s'.size = s.size ∧
      ∀ c, c ≠ 0 → s'.heap c = (s.heap c).map fun m => if c = p then { m with prev := q } else m := by
  by_cases hz : p = 0
  · refine ⟨{ s with tail := q }, if_neg (not_not.mpr hz), (if_pos hz).symm, rfl, rfl, ?_⟩
    intro c hc
    have hcp : c ≠ p := fun heq => hc (heq.trans hz)
    simp [hcp]
  · obtain ⟨m, hm⟩ := Option.isSome_iff_exists.mp (hp hz)
    refine ⟨s.put p (some { m with prev := q }), ?_, (if_neg hz).symm, rfl, rfl, fun c _ => ?_⟩
    · rw [State.leadPrev, if_pos hz, setPrev_some hm]
    · exact put_heap hm (fun m => { m with prev := q }) c

/-! ### The two calls -/

theorem Represents.live (h : Represents s ref) (hp : p ∈ ref.map Prod.fst) :
    (s.heap p).isSome := by
  obtain ⟨x, hx, rfl⟩ := List.mem_map.mp hp
  obtain ⟨n, hn, _⟩ := h.stored x hx
  rw [hn]
  rfl

/-- The number of nodes fits a `size_t`. -/
theorem length_lt {next prev : ℕ → ℕ} {head tail : ℕ}
    (hlinked : Doubly next prev 0 head tail (ref.map Prod.fst))
    (hbounded : ∀ x ∈ ref, x.1 < sizeModulus) : ref.length < sizeModulus := by
  have hlength := length_lt_of_nodup hlinked.nodup fun a ha => by
    obtain ⟨x, hx, rfl⟩ := List.mem_map.mp ha
    exact ⟨Nat.pos_iff_ne_zero.mpr (hlinked.ne_null _ ha), hbounded x hx⟩
  rwa [List.length_map] at hlength

/-- A node whose links change keeps its value. -/
theorem stored_map {x : ℕ × ℕ} (h : ∃ n, s.heap x.1 = some n ∧ n.value = x.2) {f : Node → Node}
    (hmap : s'.heap x.1 = (s.heap x.1).map f) (hvalue : ∀ n, (f n).value = n.value) :
    ∃ n, s'.heap x.1 = some n ∧ n.value = x.2 := by
  obtain ⟨n, hn, hx⟩ := h
  refine ⟨f n, ?_, (hvalue n).trans hx⟩
  rw [hmap, hn]
  rfl

theorem linkLast_spec (htail : s.tail ≠ 0 → (s.heap s.tail).isSome) (p : ℕ) :
    ∃ s', s.linkLast p = .ok s' ∧ s'.head = s.head ∧ s'.size = s.size ∧
      ∀ c, c ≠ 0 → s'.heap c =
        (s.heap c).map fun m => if c = s.tail then { m with next := p } else m := by
  by_cases hz : s.tail = 0
  · refine ⟨s, if_neg (not_not.mpr hz), rfl, rfl, ?_⟩
    intro c hc
    have hct : c ≠ s.tail := fun heq => hc (heq.trans hz)
    simp [hct]
  · obtain ⟨m, hm⟩ := Option.isSome_iff_exists.mp (htail hz)
    refine ⟨s.put s.tail (some { m with next := p }), ?_, rfl, rfl, fun c _ => ?_⟩
    · rw [State.linkLast, if_pos hz, setNext_some hm]
    · exact put_heap hm (fun m => { m with next := p }) c

/-- An append that is served: the new node, and the link to it from the last one. -/
theorem infraListAppend_heap (hp : p ≠ 0) (hfresh : s.heap p = none)
    (htail : s.tail ≠ 0 → (s.heap s.tail).isSome) (value : ℕ) :
    ∃ s', infraListAppend p s value = .ok (s', .ok) ∧
      s'.head = (if s.head = 0 then p else s.head) ∧ s'.tail = p ∧ s'.size = addSize s.size 1 ∧
      s'.heap p = some ⟨value, 0, s.tail⟩ ∧
      ∀ c, c ≠ 0 → c ≠ p → s'.heap c =
        (s.heap c).map fun m => if c = s.tail then { m with next := p } else m := by
  have hother : ∀ c, c ≠ p → (s.put p (some ⟨value, 0, s.tail⟩)).heap c = s.heap c :=
    fun c hc => Function.update_of_ne hc _ _
  have htp : s.tail ≠ 0 → s.tail ≠ p := by
    intro hne heq
    have hlive := htail hne
    rw [heq, hfresh] at hlive
    cases hlive
  have hp' : p ≠ s.tail := by
    intro heq
    exact htp (heq ▸ hp) heq.symm
  obtain ⟨s₁, hlink, hhead, hsize, hheap⟩ :=
    linkLast_spec (s := s.put p (some ⟨value, 0, s.tail⟩)) (fun hne => by
      rw [put_tail, hother _ (htp hne)]
      exact htail hne) p
  have hrun : infraListAppend p s value =
      .ok (⟨if s₁.head = 0 then p else s₁.head, p, addSize s₁.size 1, s₁.heap⟩, .ok) := by
    unfold infraListAppend
    rw [if_neg hp]
    simp only [hlink, bind, Except.bind]
    by_cases hz : s₁.head = 0 <;> simp [hz]
  refine ⟨_, hrun, ?_, rfl, ?_, ?_, ?_⟩
  · rw [hhead, put_head]
  · rw [hsize, put_size]
  · show s₁.heap p = _
    rw [hheap p hp]
    simp [State.put, hp']
  · intro c hc hcp
    show s₁.heap c = _
    rw [hheap c hc, hother c hcp, put_tail]

theorem Represents.append (h : Represents s ref) (hp : p ≠ 0) (hfresh : s.heap p = none)
    (hbound : p < sizeModulus) (value : ℕ) :
    ∃ s', infraListAppend p s value = .ok (s', .ok) ∧ Represents s' (ref ++ [(p, value)]) := by
  have hnot : ∀ c ∈ ref.map Prod.fst, c ≠ p := by
    rintro c hc rfl
    have hlive := h.live hc
    rw [hfresh] at hlive
    cases hlive
  have htail : s.tail ≠ 0 → s.tail ∈ ref.map Prod.fst := fun hne =>
    h.linked.queued.tail_mem fun hnil => hne (h.linked.tail_null_iff.mpr hnil)
  obtain ⟨s', hrun, hhead, htail', hsize, hself, hheap⟩ :=
    infraListAppend_heap hp hfresh (fun hne => h.live (htail hne)) value
  have hnode : ∀ c ∈ ref.map Prod.fst, s'.heap c =
      (s.heap c).map fun m => if c = s.tail then { m with next := p } else m := fun c hc =>
    hheap c (h.linked.ne_null c hc) (hnot c hc)
  have hlinked : Doubly (nextOf s') (prevOf s') 0 s'.head s'.tail
      ((ref ++ [(p, value)]).map Prod.fst) := by
    rw [List.map_append, hhead, htail']
    apply h.linked.append hp
    · simp [nextOf, hself]
    · intro hne
      obtain ⟨m, hm⟩ := Option.isSome_iff_exists.mp (h.live (htail hne))
      simp [nextOf, hnode _ (htail hne), hm]
    · intro c hc hct
      simp [nextOf, hnode c hc, hct]
    · simp [prevOf, hself]
    · intro c hc
      obtain ⟨m, hm⟩ := Option.isSome_iff_exists.mp (h.live hc)
      simp only [prevOf, hnode c hc, hm, Option.map_some]
      split <;> rfl
  have hbounded : ∀ x ∈ ref ++ [(p, value)], x.1 < sizeModulus := by
    intro x hx
    rcases List.mem_append.mp hx with hx | hx
    · exact h.bounded x hx
    · rw [List.mem_singleton.mp hx]
      exact hbound
  refine ⟨s', hrun, hlinked, ?_, hbounded, ?_⟩
  · intro x hx
    rcases List.mem_append.mp hx with hx | hx
    · apply stored_map (h.stored x hx) (hnode _ (List.mem_map_of_mem hx))
      intro n
      split <;> rfl
    · rw [List.mem_singleton.mp hx]
      exact ⟨_, hself, rfl⟩
  · have hlength := length_lt hlinked hbounded
    rw [List.length_append, List.length_singleton] at hlength
    rw [hsize, h.size, addSize_of_lt hlength, List.length_append, List.length_singleton]

/-- A removal: the links on the two sides of the node are led past it. -/
theorem infraListRemove_heap {node : ℕ} {n : Node} (hn : s.heap node = some n) (hne : node ≠ 0)
    (hprev : n.prev ≠ 0 → (s.heap n.prev).isSome) (hnext : n.next ≠ 0 → (s.heap n.next).isSome)
    (hself : n.prev ≠ node ∧ n.next ≠ node) :
    ∃ s', infraListRemove s node = .ok (s', .ok) ∧
      s'.head = (if n.prev = 0 then n.next else s.head) ∧
      s'.tail = (if n.next = 0 then n.prev else s.tail) ∧ s'.size = subSize s.size 1 ∧
      ∀ c, c ≠ 0 → c ≠ node → s'.heap c = (s.heap c).map fun m =>
        { m with
          next := if c = n.prev then n.next else m.next
          prev := if c = n.next then n.prev else m.prev } := by
  obtain ⟨s₁, hrun₁, hhead₁, htail₁, hsize₁, hheap₁⟩ := leadNext_spec hprev n.next
  have hn₁ : s₁.heap node = some n := by
    rw [hheap₁ node hne, hn]
    simp [hself.1.symm]
  obtain ⟨s₂, hrun₂, htail₂, hhead₂, hsize₂, hheap₂⟩ := leadPrev_spec (s := s₁) (p := n.next)
    (fun hz => by
      rw [hheap₁ _ hz, Option.isSome_map]
      exact hnext hz) n.prev
  have hn₂ : s₂.heap node = some n := by
    rw [hheap₂ node hne, hn₁]
    simp [hself.2.symm]
  refine ⟨{ s₂.put node none with size := subSize s₂.size 1 }, ?_, ?_, ?_, ?_, ?_⟩
  · unfold infraListRemove
    rw [if_neg hne]
    simp only [node_some hn, hrun₁, node_some hn₁, hrun₂, freeNode_some hn₂, bind, Except.bind]
    rfl
  · show s₂.head = _
    rw [hhead₂, hhead₁]
  · show s₂.tail = _
    rw [htail₂, htail₁]
  · show subSize s₂.size 1 = _
    rw [hsize₂, hsize₁]
  · intro c hc hcn
    show Function.update s₂.heap node none c = _
    rw [Function.update_of_ne hcn, hheap₂ c hc, hheap₁ c hc, Option.map_map]
    congr 1
    funext m
    simp only [Function.comp_apply]
    split <;> split <;> rfl

/-- An element of the rest of a list is one of the list. -/
private theorem mem_remaining {α : Type} {front back : List α} {x y : α} (h : y ∈ front ++ back) :
    y ∈ front ++ x :: back :=
  ((List.sublist_cons_self x back).append_left front).subset h

/-- A node of the list is not null, and its links lead to other nodes of the
list, on either side of it. -/
theorem Represents.neighbours {node value : ℕ} {n : Node}
    (h : Represents s (before ++ (node, value) :: after)) (hn : s.heap node = some n) :
    node ≠ 0 ∧ node ∉ before.map Prod.fst ++ after.map Prod.fst ∧
      (n.prev ≠ 0 → n.prev ∈ before.map Prod.fst) ∧
      (n.next ≠ 0 → n.next ∈ after.map Prod.fst) := by
  have hlinked := h.linked
  rw [List.map_append, List.map_cons] at hlinked
  refine ⟨hlinked.ne_null node (by simp), ?_, ?_, ?_⟩
  · exact (List.nodup_cons.mp (List.nodup_middle.mp hlinked.nodup)).1
  · intro hz
    rcases hlinked.prev_cases with ⟨_, hnull⟩ | ⟨front, hfront, _⟩
    · exact absurd ((prevOf_some hn).symm.trans hnull) hz
    · rw [hfront, prevOf_some hn]
      exact List.mem_append_right _ List.mem_cons_self
  · intro hz
    rcases hlinked.next_cases with ⟨_, hnull⟩ | ⟨back, hback, _⟩
    · exact absurd ((nextOf_some hn).symm.trans hnull) hz
    · rw [hback, nextOf_some hn]
      exact List.mem_cons_self

theorem Represents.remove {node value : ℕ}
    (h : Represents s (before ++ (node, value) :: after)) :
    ∃ s', infraListRemove s node = .ok (s', .ok) ∧ Represents s' (before ++ after) := by
  have hlinked := h.linked
  rw [List.map_append, List.map_cons] at hlinked
  obtain ⟨n, hn, _⟩ := h.stored (node, value) (by simp)
  change s.heap node = some n at hn
  obtain ⟨hne, hnot, hprev, hnext⟩ := h.neighbours hn
  have hother : ∀ c ∈ before.map Prod.fst ++ after.map Prod.fst,
      c ∈ (before ++ (node, value) :: after).map Prod.fst ∧ c ≠ 0 ∧ c ≠ node := by
    intro c hc
    have hmem : c ∈ (before ++ (node, value) :: after).map Prod.fst := by
      rw [List.map_append, List.map_cons]
      exact mem_remaining hc
    exact ⟨hmem, h.linked.ne_null c hmem, fun heq => hnot (heq ▸ hc)⟩
  have hself : n.prev ≠ node ∧ n.next ≠ node := by
    constructor
    · intro heq
      exact hnot (List.mem_append_left _ (heq ▸ hprev (heq ▸ hne)))
    · intro heq
      exact hnot (List.mem_append_right _ (heq ▸ hnext (heq ▸ hne)))
  obtain ⟨s', hrun, hhead, htail, hsize, hheap⟩ := infraListRemove_heap hn hne
    (fun hz => h.live (hother _ (List.mem_append_left _ (hprev hz))).1)
    (fun hz => h.live (hother _ (List.mem_append_right _ (hnext hz))).1) hself
  have hnode : ∀ c ∈ before.map Prod.fst ++ after.map Prod.fst, ∃ m, s.heap c = some m ∧
      s'.heap c = some { m with
        next := if c = n.prev then n.next else m.next
        prev := if c = n.next then n.prev else m.prev } := by
    intro c hc
    obtain ⟨hmem, hz, hcn⟩ := hother c hc
    obtain ⟨m, hm⟩ := Option.isSome_iff_exists.mp (h.live hmem)
    refine ⟨m, hm, ?_⟩
    rw [hheap c hz hcn, hm]
    rfl
  refine ⟨s', hrun, ?_, ?_, fun x hx => h.bounded x (mem_remaining hx), ?_⟩
  · rw [List.map_append, hhead, htail, ← prevOf_some hn, ← nextOf_some hn]
    apply hlinked.remove
    · intro c hc
      obtain ⟨m, hm, hm'⟩ := hnode c hc
      rw [nextOf_some hm', nextOf_some hm, prevOf_some hn, nextOf_some hn]
    · intro c hc
      obtain ⟨m, hm, hm'⟩ := hnode c hc
      rw [prevOf_some hm', prevOf_some hm, prevOf_some hn, nextOf_some hn]
  · intro x hx
    obtain ⟨m, hm, hvalue⟩ := h.stored x (mem_remaining hx)
    obtain ⟨m', hm', hheap'⟩ := hnode x.1 (by
      rw [← List.map_append]
      exact List.mem_map_of_mem hx)
    rw [hm] at hm'
    injection hm' with hsame
    exact ⟨_, hheap', hsame ▸ hvalue⟩
  · have hlength := length_lt h.linked h.bounded
    have hpos : 1 ≤ (before ++ (node, value) :: after).length := by
      rw [List.length_append, List.length_cons]
      omega
    rw [hsize, h.size, subSize_of_le hlength hpos, List.length_append, List.length_cons,
      List.length_append]
    omega

/-! ### Runs -/

theorem represents_created : Represents created [] :=
  ⟨doubly_nil, by simp, by simp, rfl⟩

theorem infraListAppend_refused (s : State) (value : ℕ) :
    infraListAppend 0 s value = .ok (s, .noMemory) := if_pos rfl

theorem represents_of_run (h : Run s ref) : Represents s ref := by
  induction h with
  | create => exact represents_created
  | append _ hserved hfresh hreply hcall ih =>
    obtain ⟨s', hrun, hs'⟩ := ih.append hserved hfresh hreply _
    rw [hcall] at hrun
    injection hrun with hrun
    rwa [(Prod.mk.inj hrun).1]
  | refused _ hcall ih =>
    rw [infraListAppend_refused] at hcall
    injection hcall with hcall
    rwa [← (Prod.mk.inj hcall).1]
  | remove _ hcall ih =>
    obtain ⟨s', hrun, hs'⟩ := ih.remove
    rw [hcall] at hrun
    injection hrun with hrun
    rwa [(Prod.mk.inj hrun).1]

/-- Every list that calls make is the reference list, in both directions, and
every further call on it returns, a refused append with nothing changed. -/
theorem list_right (h : Run s ref) :
    Segment (nextOf s) 0 s.head (ref.map Prod.fst) ∧
    Segment (prevOf s) 0 s.tail (ref.map Prod.fst).reverse ∧
    s.size = ref.length ∧ (s.head = 0 ↔ s.size = 0) ∧ (s.tail = 0 ↔ s.size = 0) ∧
    (∀ x ∈ ref, ∃ n, s.heap x.1 = some n ∧ n.value = x.2) ∧
    (∀ value, infraListAppend 0 s value = .ok (s, .noMemory)) ∧
    (∀ p value, p ≠ 0 → s.heap p = none → p < sizeModulus →
      ∃ s', infraListAppend p s value = .ok (s', .ok)) ∧
    ∀ x ∈ ref, ∃ s', infraListRemove s x.1 = .ok (s', .ok) := by
  have hs := represents_of_run h
  have hempty : s.size = 0 ↔ ref.map Prod.fst = [] := by
    rw [hs.size, List.length_eq_zero_iff, List.map_eq_nil_iff]
  refine ⟨hs.linked.forward, hs.linked.backward, hs.size, hs.linked.head_null_iff.trans hempty.symm,
    hs.linked.tail_null_iff.trans hempty.symm, hs.stored, infraListAppend_refused s, ?_, ?_⟩
  · intro p value hp hfresh hbound
    obtain ⟨s', hrun, _⟩ := hs.append hp hfresh hbound value
    exact ⟨s', hrun⟩
  · intro x hx
    obtain ⟨before, after, hsplit⟩ := List.append_of_mem hx
    rw [hsplit] at hs
    obtain ⟨s', hrun, _⟩ := hs.remove
    exact ⟨s', hrun⟩

/-- Two nodes with the same value, of which the first is removed. -/
theorem list_right_two : ∃ s, Run s [(16, 7)] ∧ Segment (nextOf s) 0 s.head [16] ∧
    Segment (prevOf s) 0 s.tail [16] ∧ s.size = 1 := by
  obtain ⟨s₁, hcall₁, hs₁⟩ :=
    represents_created.append (Nat.succ_ne_zero 7) rfl (by norm_num [sizeModulus]) 7
  have hrun₁ : Run s₁ [(8, 7)] :=
    Run.append Run.create (Nat.succ_ne_zero 7) rfl (by norm_num [sizeModulus]) hcall₁
  have hfresh : s₁.heap 16 = none := by
    injection hcall₁ with hcall₁
    rw [← (Prod.mk.inj hcall₁).1]
    rfl
  obtain ⟨s₂, hcall₂, _⟩ :=
    hs₁.append (Nat.succ_ne_zero 15) hfresh (by norm_num [sizeModulus]) 7
  have hrun₂ : Run s₂ ([] ++ (8, 7) :: [(16, 7)]) :=
    Run.append hrun₁ (Nat.succ_ne_zero 15) hfresh (by norm_num [sizeModulus]) hcall₂
  obtain ⟨s₃, hcall₃, _⟩ := (represents_of_run hrun₂).remove
  have hrun₃ : Run s₃ [(16, 7)] := hrun₂.remove hcall₃
  obtain ⟨hforward, hbackward, hsize, _⟩ := list_right hrun₃
  exact ⟨s₃, hrun₃, hforward, hbackward, hsize⟩

end Ppdb.ListRuns
