import Ppdb.LinkedQueues

/-!
Lists linked in both directions: the successors lead from the first node to
the last and the predecessors back. A node is linked behind the last one, and
any node can be taken out by leading the links on its two sides past it.
-/

namespace Ppdb.DoublyLinked

open LinkedSegments LinkedQueues

variable {α : Type*}

/-- `next` from `head` and `prev` from `tail` visit the nodes in opposite
orders, and both end in `null`. -/
structure Doubly (next prev : α → α) (null head tail : α) (nodes : List α) : Prop where
  forward : Segment next null head nodes
  backward : Segment prev null tail nodes.reverse

variable {next next' prev prev' : α → α} {null head tail b : α} {nodes as bs : List α}

theorem doubly_nil : Doubly next prev null null null [] := ⟨rfl, rfl⟩

theorem Doubly.symm (h : Doubly next prev null head tail nodes) :
    Doubly prev next null tail head nodes.reverse := by
  refine ⟨h.backward, ?_⟩
  rw [List.reverse_reverse]
  exact h.forward

theorem Doubly.ne_null (h : Doubly next prev null head tail nodes) : ∀ a ∈ nodes, a ≠ null :=
  h.forward.ne_end

theorem Doubly.nodup (h : Doubly next prev null head tail nodes) : nodes.Nodup := h.forward.nodup

/-- In one direction the list is a queue with a pointer to its last node. -/
theorem Doubly.queued (h : Doubly next prev null head tail nodes) :
    Queued next null head tail nodes := by
  refine ⟨h.forward, ?_⟩
  have hback := h.backward
  rw [← List.reverse_reverse nodes]
  generalize nodes.reverse = back at hback
  cases back with
  | nil => exact hback
  | cons a rest => simpa using hback.1

theorem Doubly.head_null_iff (h : Doubly next prev null head tail nodes) :
    head = null ↔ nodes = [] := h.queued.head_null_iff

theorem Doubly.tail_null_iff (h : Doubly next prev null head tail nodes) :
    tail = null ↔ nodes = [] := h.queued.tail_null_iff

/-- The predecessor of a node is the one before it, or there is none. -/
theorem Doubly.prev_cases (h : Doubly next prev null head tail (as ++ b :: bs)) :
    as = [] ∧ prev b = null ∨ ∃ before, as = before ++ [prev b] ∧ prev b ≠ null := by
  have hback := h.backward
  rw [List.reverse_append, List.reverse_cons, List.append_assoc] at hback
  obtain ⟨_, _, hrest⟩ := hback.drop
  cases hrev : as.reverse with
  | nil =>
    rw [hrev] at hrest
    exact Or.inl ⟨List.reverse_eq_nil_iff.mp hrev, hrest⟩
  | cons a rest =>
    rw [hrev] at hrest
    obtain ⟨hprev, hne, _⟩ := hrest
    refine Or.inr ⟨rest.reverse, ?_, hprev ▸ hne⟩
    rw [hprev, ← List.reverse_cons, ← hrev, List.reverse_reverse]

theorem Doubly.next_cases (h : Doubly next prev null head tail (as ++ b :: bs)) :
    bs = [] ∧ next b = null ∨ ∃ after, bs = next b :: after ∧ next b ≠ null := by
  obtain ⟨_, _, hrest⟩ := h.forward.drop
  cases bs with
  | nil => exact Or.inl ⟨rfl, hrest⟩
  | cons a after => exact Or.inr ⟨after, by rw [hrest.1], hrest.1 ▸ hrest.2.1⟩

/-! ### Linking and unlinking -/

/-- A new node is linked behind the last one, or is the only one. -/
theorem Doubly.append [DecidableEq α] (h : Doubly next prev null head tail nodes) (hb : b ≠ null)
    (hnew : next' b = null) (hlink : tail ≠ null → next' tail = b)
    (hnext : ∀ c ∈ nodes, c ≠ tail → next' c = next c) (hback : prev' b = tail)
    (hprev : ∀ c ∈ nodes, prev' c = prev c) :
    Doubly next' prev' null (if head = null then b else head) b (nodes ++ [b]) := by
  constructor
  · have hpush := (h.queued.push hb hnew hlink hnext).segment
    have hsame : head = null ↔ tail = null := h.head_null_iff.trans h.tail_null_iff.symm
    rwa [← if_congr hsame rfl rfl] at hpush
  · rw [List.reverse_append]
    refine ⟨rfl, hb, ?_⟩
    rw [hback]
    exact h.backward.congr fun c hc => hprev c (List.mem_reverse.mp hc)

/-- In one direction a node is taken out by leading the link before it past it. -/
theorem unlink_forward [DecidableEq α] {p : α} (h : Segment next null head (as ++ b :: bs))
    (hp : as = [] ∧ p = null ∨ ∃ before, as = before ++ [p] ∧ p ≠ null)
    (hnext : ∀ c ∈ as ++ bs, next' c = if c = p then next b else next c) :
    Segment next' null (if p = null then next b else head) (as ++ bs) := by
  rcases hp with ⟨hnil, hnull⟩ | ⟨before, hconcat, hne⟩
  · rw [if_pos hnull]
    rw [hnil, List.nil_append] at h hnext ⊢
    obtain ⟨_, _, hrest⟩ := h
    apply hrest.congr
    intro c hc
    rw [hnext c hc, if_neg]
    rw [hnull]
    exact hrest.ne_end c hc
  · rw [if_neg hne]
    rw [hconcat, List.append_assoc] at h hnext ⊢
    have hnodup := h.nodup
    apply h.unlink
    · rw [hnext p (by simp), if_pos rfl]
    · intro c hc
      have hcp : c ≠ p := by
        rintro rfl
        have hlast : c ∉ before ∧ c ∉ b :: bs := by
          have hmiddle := List.nodup_middle.mp hnodup
          rw [List.nodup_cons, List.mem_append, not_or] at hmiddle
          exact hmiddle.1
        rcases List.mem_append.mp hc with hc | hc
        · exact hlast.1 hc
        · exact hlast.2 (List.mem_cons_of_mem b hc)
      rw [hnext c, if_neg hcp]
      rcases List.mem_append.mp hc with hc | hc
      · exact List.mem_append_left _ hc
      · exact List.mem_append_right _ (List.mem_append_right _ hc)

/-- A node is taken out, wherever it is. -/
theorem Doubly.remove [DecidableEq α] (h : Doubly next prev null head tail (as ++ b :: bs))
    (hnext : ∀ c ∈ as ++ bs, next' c = if c = prev b then next b else next c)
    (hprev : ∀ c ∈ as ++ bs, prev' c = if c = next b then prev b else prev c) :
    Doubly next' prev' null (if prev b = null then next b else head)
      (if next b = null then prev b else tail) (as ++ bs) := by
  refine ⟨unlink_forward h.forward h.prev_cases hnext, ?_⟩
  have hback := h.backward
  rw [List.reverse_append, List.reverse_cons, List.append_assoc] at hback
  rw [List.reverse_append]
  apply unlink_forward hback
  · rcases h.next_cases with ⟨hnil, hnull⟩ | ⟨after, hcons, hne⟩
    · exact Or.inl ⟨by rw [hnil]; rfl, hnull⟩
    · exact Or.inr ⟨after.reverse, by rw [hcons, List.reverse_cons], hne⟩
  · intro c hc
    have hmem : c ∈ bs.reverse ++ as.reverse := hc
    rw [← List.reverse_append, List.mem_reverse] at hmem
    exact hprev c hmem

end Ppdb.DoublyLinked
