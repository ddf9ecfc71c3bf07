import Mathlib.Data.List.Basic
import Mathlib.Data.List.Nodup

/-!
Singly linked lists seen through their successor function. A segment lists
the nodes met between two pointers; a list that ends in the null pointer is a
segment up to it. A segment is determined by its ends, survives any change of
the successors of other nodes, and can be cut and joined at any node.
-/

namespace Ppdb.LinkedSegments

variable {α : Type*}

/-- Following `next` from `p` visits exactly the nodes listed and arrives at `q`. -/
def Segment (next : α → α) (q : α) : α → List α → Prop
  | p, [] => p = q
  | p, a :: rest => p = a ∧ a ≠ q ∧ Segment next q (next a) rest

instance [DecidableEq α] (next : α → α) (q : α) : (p : α) → (nodes : List α) →
    Decidable (Segment next q p nodes)
  | p, [] => inferInstanceAs (Decidable (p = q))
  | p, a :: rest =>
    have := instDecidableSegmentOfDecidableEq next q (next a) rest
    inferInstanceAs (Decidable (p = a ∧ a ≠ q ∧ Segment next q (next a) rest))

variable {next next' : α → α} {p q r : α}

@[simp] theorem segment_nil : Segment next q p [] ↔ p = q := Iff.rfl

@[simp] theorem segment_cons {a : α} {rest : List α} :
    Segment next q p (a :: rest) ↔ p = a ∧ a ≠ q ∧ Segment next q (next a) rest := Iff.rfl

/-- The nodes of a segment are determined by its start. -/
theorem Segment.unique {as bs : List α} (h : Segment next q p as) (h' : Segment next q p bs) :
    as = bs := by
  induction as generalizing p bs with
  | nil =>
    cases bs with
    | nil => rfl
    | cons b rest => exact absurd (h'.1.symm.trans h) h'.2.1
  | cons a rest ih =>
    cases bs with
    | nil => exact absurd (h.1.symm.trans h') h.2.1
    | cons b rest' =>
      have hab : a = b := h.1.symm.trans h'.1
      subst hab
      rw [ih h.2.2 h'.2.2]

theorem Segment.start {as : List α} (h : Segment next q p as) : p = q ∨ p ∈ as := by
  cases as with
  | nil => exact Or.inl h
  | cons a rest => exact Or.inr (h.1 ▸ List.mem_cons_self)

/-- Only the successors of the listed nodes matter. -/
theorem Segment.congr {as : List α} (h : Segment next q p as) (heq : ∀ a ∈ as, next' a = next a) :
    Segment next' q p as := by
  induction as generalizing p with
  | nil => exact h
  | cons a rest ih =>
    refine ⟨h.1, h.2.1, ?_⟩
    rw [heq a List.mem_cons_self]
    exact ih h.2.2 (fun b hb => heq b (List.mem_cons_of_mem a hb))

/-- A segment can be cut where a node is reached. -/
theorem Segment.split {as bs : List α} (h : Segment next q p (as ++ bs)) :
    ∃ mid, Segment next q mid bs ∧
      ∀ (next' : α → α) (cs : List α), (∀ a ∈ as, next' a = next a) →
        Segment next' q mid cs → Segment next' q p (as ++ cs) := by
  induction as generalizing p with
  | nil => exact ⟨p, h, fun _ _ _ hcs => hcs⟩
  | cons a rest ih =>
    obtain ⟨mid, hbs, hjoin⟩ := ih h.2.2
    refine ⟨mid, hbs, fun next' cs heq hcs => ⟨h.1, h.2.1, ?_⟩⟩
    rw [heq a List.mem_cons_self]
    exact hjoin next' cs (fun b hb => heq b (List.mem_cons_of_mem a hb)) hcs

theorem Segment.ne_end {as : List α} (h : Segment next q p as) : ∀ a ∈ as, a ≠ q := by
  induction as generalizing p with
  | nil => simp
  | cons a rest ih =>
    intro b hb
    rcases List.mem_cons.mp hb with rfl | hb
    · exact h.2.1
    · exact ih h.2.2 b hb

/-- A suffix of a segment is the segment from its first node. -/
theorem Segment.drop {as : List α} {a : α} {bs : List α} (h : Segment next q p (as ++ a :: bs)) :
    Segment next q a (a :: bs) := by
  obtain ⟨mid, hmid, _⟩ := h.split
  have hmid' : mid = a := hmid.1
  rwa [hmid'] at hmid

/-- A node is taken out by leading the link before it past it. -/
theorem Segment.unlink {as bs : List α} {a b : α} (h : Segment next q p (as ++ a :: b :: bs))
    (ha : next' a = next b) (hsame : ∀ c ∈ as ++ bs, next' c = next c) :
    Segment next' q p (as ++ a :: bs) := by
  obtain ⟨mid, ⟨hmid, hne, _, _, hrest⟩, hjoin⟩ := h.split
  apply hjoin next' (a :: bs) fun c hc => hsame c (List.mem_append_left _ hc)
  refine ⟨hmid, hne, ?_⟩
  rw [ha]
  exact hrest.congr fun c hc => hsame c (List.mem_append_right _ hc)

/-- Following the links never meets a node twice. -/
theorem Segment.nodup {as : List α} (h : Segment next q p as) : as.Nodup := by
  induction as generalizing p with
  | nil => exact List.nodup_nil
  | cons a rest ih =>
    refine List.nodup_cons.mpr ⟨fun hmem => ?_, ih h.2.2⟩
    obtain ⟨before, after, hsplit⟩ := List.append_of_mem hmem
    have hshort : Segment next q a (a :: after) := (hsplit ▸ h.2.2 : Segment next q (next a)
      (before ++ a :: after)).drop
    have hlong : Segment next q a (a :: rest) := ⟨rfl, h.2.1, h.2.2⟩
    have hlen := congrArg List.length (hshort.unique hlong)
    rw [hsplit] at hlen
    simp only [List.length_cons, List.length_append] at hlen
    omega

end Ppdb.LinkedSegments
