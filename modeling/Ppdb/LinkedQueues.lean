import Ppdb.LinkedSegments

/-!
A queue as a linked list with a pointer to its last node: both pointers are
null exactly when it is empty, a node is linked behind the last one, and the
first one is taken out.
-/

namespace Ppdb.LinkedQueues

open LinkedSegments

variable {α : Type*}

/-- The nodes from `head` on end in `null`, and `tail` is the last of them. -/
structure Queued (next : α → α) (null head tail : α) (nodes : List α) : Prop where
  segment : Segment next null head nodes
  last : tail = nodes.getLastD null

variable {next next' : α → α} {null head tail : α} {nodes : List α}

theorem queued_nil : Queued next null null null [] := ⟨rfl, rfl⟩

theorem Queued.head_null_iff (h : Queued next null head tail nodes) :
    head = null ↔ nodes = [] := by
  cases nodes with
  | nil => exact iff_of_true h.segment rfl
  | cons a rest =>
    obtain ⟨hhead, hne, _⟩ := h.segment
    exact iff_of_false (fun hnull => hne (hhead.symm.trans hnull)) (List.cons_ne_nil a rest)

theorem Queued.tail_mem (h : Queued next null head tail nodes) (hne : nodes ≠ []) :
    tail ∈ nodes := by
  rw [h.last, List.getLastD_eq_getLast?, List.getLast?_eq_some_getLast hne]
  exact List.getLast_mem hne

theorem Queued.tail_null_iff (h : Queued next null head tail nodes) :
    tail = null ↔ nodes = [] := by
  constructor
  · intro hnull
    by_contra hne
    exact h.segment.ne_end tail (h.tail_mem hne) hnull
  · intro hnil
    rw [h.last, hnil]
    rfl

theorem Queued.congr (h : Queued next null head tail nodes)
    (heq : ∀ a ∈ nodes, next' a = next a) : Queued next' null head tail nodes :=
  ⟨h.segment.congr heq, h.last⟩

/-- A new node is linked behind the last one, or is the only one. -/
theorem Queued.push [DecidableEq α] (h : Queued next null head tail nodes) {b : α}
    (hb : b ≠ null) (hnext : next' b = null) (htail : tail ≠ null → next' tail = b)
    (hsame : ∀ a ∈ nodes, a ≠ tail → next' a = next a) :
    Queued next' null (if tail = null then b else head) b (nodes ++ [b]) := by
  refine ⟨?_, by simp⟩
  rcases List.eq_nil_or_concat nodes with hnil | ⟨before, a, hnodes⟩
  · rw [if_pos (h.tail_null_iff.mpr hnil), hnil]
    exact ⟨rfl, hb, hnext⟩
  · rw [List.concat_eq_append] at hnodes
    have hlast : tail = a := by
      rw [h.last, hnodes]
      simp
    have hnull : tail ≠ null := fun hz => by
      rw [h.tail_null_iff.mp hz] at hnodes
      simp at hnodes
    have hsegment : Segment next null head (before ++ [a]) := hnodes ▸ h.segment
    have hnodup := hsegment.nodup
    obtain ⟨mid, hmid, hjoin⟩ := hsegment.split
    rw [if_neg hnull, hnodes, List.append_assoc]
    refine hjoin next' [a, b] (fun x hx => hsame x ?_ ?_) ⟨hmid.1, hmid.2.1, ?_⟩
    · rw [hnodes]
      exact List.mem_append_left _ hx
    · rw [hlast]
      rintro rfl
      exact (List.nodup_append.mp hnodup).2.2 x hx x List.mem_cons_self rfl
    · exact ⟨hlast ▸ htail hnull, hb, hnext⟩

/-- The first node is taken out; the pointer to the last one is cleared with it. -/
theorem Queued.pop [DecidableEq α] (h : Queued next null head tail nodes) (hne : head ≠ null) :
    ∃ rest, nodes = head :: rest ∧
      Queued next null (next head) (if next head = null then null else tail) rest := by
  cases nodes with
  | nil => exact absurd (h.head_null_iff.mpr rfl) hne
  | cons a rest =>
    obtain ⟨rfl, _, hrest⟩ := h.segment
    refine ⟨rest, rfl, hrest, ?_⟩
    cases rest with
    | nil => exact if_pos hrest
    | cons b more =>
      have hnull : next head ≠ null := fun hz => hrest.2.1 (hrest.1.symm.trans hz)
      rw [if_neg hnull, h.last]
      rfl

end Ppdb.LinkedQueues
