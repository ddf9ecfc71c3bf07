import Ppdb.TreeRuns
import Ppdb.HeapCells

/-!
The nodes of a red-black tree in memory. Rotations and repairs take no memory
and give none back, whatever the shape of the tree, so that the nodes in use
are those of the tree after every run, and its destruction frees them all.
-/

namespace Ppdb.TreeDestruction

open ColoredTrees ColorTree TreeOperations TreeRepresentation TreeRemoval TreeMaps TreeCalls TreeRuns
  SortedMaps HeapCells EventualResults

/-- `infra_rbtree_destroy`: what is left of the memory for nodes. The tree is
given up itself. -/
def infraRbtreeDestroy (fuel : ℕ) (tree : Option State) : Except Fault (ℕ → Option Node) :=
  match tree with
  | none => .ok fun _ => none
  | some s => do
    let s ← infraRbtreeClear fuel s
    .ok s.heap

/-- The same nodes are in use, and as many are counted. -/
structure Kept (s s' : State) : Prop where
  cells : SameCells s.heap s'.heap
  size : s'.size = s.size

/-- What a call does to the nodes in use, and to their number. -/
inductive Effect (s s' : State) : Prop
  | none (h : Kept s s')
  | enters {p : ℕ} (hcells : Gains p s.heap s'.heap) (hsize : s'.size = s.size + 1)
  | leaves {p : ℕ} (hcells : Loses p s.heap s'.heap) (hsize : s'.size = s.size - 1)

variable {s s' s'' : State} {p : ℕ}

theorem Kept.refl (s : State) : Kept s s := ⟨SameCells.refl _, rfl⟩

theorem Kept.trans (h : Kept s s') (h' : Kept s' s'') : Kept s s'' :=
  ⟨h.cells.trans h'.cells, h'.size.trans h.size⟩

/-- A step that keeps the nodes after others that have -/
theorem Kept.after {r : Except Fault State} (h : Kept s s') (hr : Ensures (Kept s') r) :
    Ensures (Kept s) r := fun _ heq => h.trans (hr _ heq)

theorem Kept.after_fst {α : Type} {r : Except Fault (State × α)} (h : Kept s s')
    (hr : Ensures (fun q => Kept s' q.1) r) : Ensures (fun q => Kept s q.1) r :=
  fun _ heq => h.trans (hr _ heq)

/-! ### Assignments and rotations -/

theorem node_isSome {n : Node} (h : s.node p = .ok n) : (s.heap p).isSome := by
  unfold State.node at h
  split at h
  · cases h
  · cases hp : s.heap p with
    | none =>
      rw [hp] at h
      cases h
    | some m => rfl

theorem modify_kept (s : State) (p : ℕ) (f : Node → Node) : Ensures (Kept s) (s.modify p f) := by
  intro s' h
  cases hn : s.node p with
  | error e =>
    rw [State.modify, hn] at h
    cases h
  | ok n =>
    rw [State.modify, hn] at h
    cases h
    exact ⟨sameCells_update (node_isSome hn) _, rfl⟩

theorem free_loses (s : State) (p : ℕ) :
    Ensures (fun s' => Loses p s.heap s'.heap ∧ s'.size = s.size) (s.free p) := by
  intro s' h
  cases hn : s.node p with
  | error e =>
    rw [State.free, hn] at h
    cases h
  | ok n =>
    rw [State.free, hn] at h
    cases h
    exact ⟨loses_update (node_isSome hn), rfl⟩

theorem adopt_kept (s : State) (child parent : ℕ) : Ensures (Kept s) (adopt s child parent) :=
  Ensures.ite (fun _ => modify_kept s child _) fun _ => ensures_ok (Kept.refl s)

theorem replaceChild_kept (d : Side) (s : State) (node new : ℕ) :
    Ensures (Kept s) (replaceChild d s node new) := by
  refine ensures_bind fun n => ?_
  refine Ensures.ite (fun _ => ensures_ok ⟨SameCells.refl _, rfl⟩) fun _ => ?_
  refine ensures_bind fun q => ?_
  exact Ensures.ite (fun _ => modify_kept s _ _) fun _ => modify_kept s _ _

theorem rotate_kept (d : Side) (s : State) (node : ℕ) : Ensures (Kept s) (rotate d s node) := by
  refine ensures_bind fun n => ?_
  refine ensures_bind fun pivot => ?_
  refine (modify_kept s node _).bind fun s₁ h₁ => h₁.after ?_
  refine (adopt_kept s₁ _ node).bind fun s₂ h₂ => h₂.after ?_
  refine ensures_bind fun m => ?_
  refine (modify_kept s₂ _ _).bind fun s₃ h₃ => h₃.after ?_
  refine (replaceChild_kept d s₃ node _).bind fun s₄ h₄ => h₄.after ?_
  refine (modify_kept s₄ _ _).bind fun s₅ h₅ => h₅.after ?_
  exact modify_kept s₅ node _

/-! ### Insertion -/

theorem turnOut_kept (d : Side) (s : State) (node : ℕ) :
    Ensures (fun r => Kept s r.1) (turnOut d s node) := by
  refine ensures_bind fun n => ?_
  refine ensures_bind fun q => ?_
  refine Ensures.ite (fun _ => ?_) fun _ => ensures_ok (Kept.refl s)
  exact (rotate_kept d s _).bind fun s₁ h₁ => ensures_ok h₁

theorem raiseParent_kept (d : Side) (s : State) (node : ℕ) :
    Ensures (Kept s) (raiseParent d s node) := by
  refine ensures_bind fun n => ?_
  refine (modify_kept s _ _).bind fun s₁ h₁ => h₁.after ?_
  refine ensures_bind fun q => ?_
  refine (modify_kept s₁ _ _).bind fun s₂ h₂ => h₂.after ?_
  exact rotate_kept _ s₂ _

theorem fixInsertSide_kept (d : Side) (s : State) (node : ℕ) :
    Ensures (fun r => Kept s r.1) (fixInsertSide d s node) := by
  refine ensures_bind fun n => ?_
  refine ensures_bind fun q => ?_
  refine ensures_bind fun g => ?_
  refine ensures_bind fun red => ?_
  refine Ensures.ite (fun _ => ?_) fun _ => ?_
  · refine (modify_kept s _ _).bind fun s₁ h₁ => h₁.after_fst ?_
    refine (modify_kept s₁ _ _).bind fun s₂ h₂ => h₂.after_fst ?_
    exact (modify_kept s₂ _ _).bind fun s₃ h₃ => ensures_ok h₃
  · refine (turnOut_kept d s node).bind fun r h₁ => h₁.after_fst ?_
    exact (raiseParent_kept d r.1 r.2).bind fun s₂ h₂ => ensures_ok h₂

theorem fixInsertLoop_kept (fuel : ℕ) (s : State) (node : ℕ) :
    Ensures (Kept s) (fixInsertLoop fuel s node) := by
  induction fuel generalizing s node with
  | zero => exact ensures_error
  | succ fuel ih =>
    refine Ensures.ite (fun _ => ensures_ok (Kept.refl s)) fun _ => ?_
    refine ensures_bind fun n => ?_
    refine ensures_bind fun q => ?_
    refine Ensures.ite (fun _ => ?_) fun _ => ensures_ok (Kept.refl s)
    refine ensures_bind fun g => ?_
    exact (fixInsertSide_kept _ s node).bind fun r h => h.after (ih r.1 r.2)

theorem fixInsert_kept (fuel : ℕ) (s : State) (node : ℕ) :
    Ensures (Kept s) (fixInsert fuel s node) :=
  (fixInsertLoop_kept fuel s node).bind fun s₁ h₁ => h₁.after (modify_kept s₁ _ _)

theorem link_kept (s : State) (parent node : ℕ) (key : ℤ) :
    Ensures (Kept s) (link s parent node key) := by
  refine (modify_kept s node _).bind fun s₁ h₁ => h₁.after ?_
  refine Ensures.ite (fun _ => ensures_ok ⟨SameCells.refl _, rfl⟩) fun _ => ?_
  refine ensures_bind fun q => ?_
  exact Ensures.ite (fun _ => modify_kept s₁ _ _) fun _ => modify_kept s₁ _ _

/-- The node made for a key that is there already is given back. -/
theorem infraRbtreeInsert_effect {reply : ℕ} (hfresh : s.heap reply = none) (fuel : ℕ) (key : ℤ)
    (value : ℕ) : Ensures (fun r => Effect s r.1) (infraRbtreeInsert fuel reply s key value) := by
  have hgains : Gains reply s.heap (createNode reply s key value).heap :=
    gains_update (by simp [hfresh]) _
  refine Ensures.ite (fun _ => ensures_ok (.none (Kept.refl s))) fun _ => ?_
  refine ensures_bind fun found => ?_
  refine Ensures.ite (fun _ => ?_) fun _ => ?_
  · refine (modify_kept _ found.2 _).bind fun s₁ h₁ => ?_
    refine (free_loses s₁ reply).bind fun s₂ ⟨hloses, hsize⟩ => ensures_ok ?_
    exact .none ⟨(hgains.trans h₁.cells).loses hloses, hsize.trans h₁.size⟩
  · refine (link_kept _ found.1 reply key).bind fun s₁ h₁ => ?_
    refine (fixInsert_kept fuel s₁ reply).bind fun s₂ h₂ => ensures_ok ?_
    have hkept := h₁.trans h₂
    exact .enters (hgains.trans hkept.cells) (congrArg (· + 1) hkept.size)

/-! ### Removal -/

theorem blackSibling_kept (d : Side) (s : State) (node : ℕ) :
    Ensures (fun r => Kept s r.1) (blackSibling d s node) := by
  refine ensures_bind fun n => ?_
  refine ensures_bind fun q => ?_
  refine ensures_bind fun m => ?_
  refine Ensures.ite (fun _ => ?_) fun _ => ensures_ok (Kept.refl s)
  refine (modify_kept s _ _).bind fun s₁ h₁ => h₁.after_fst ?_
  refine (modify_kept s₁ _ _).bind fun s₂ h₂ => h₂.after_fst ?_
  refine (rotate_kept d s₂ _).bind fun s₃ h₃ => h₃.after_fst ?_
  refine ensures_bind fun n' => ?_
  exact ensures_bind fun q' => ensures_ok (Kept.refl s₃)

theorem redFar_kept (d : Side) (s : State) (node sibling : ℕ) :
    Ensures (fun r => Kept s r.1) (redFar d s node sibling) := by
  refine ensures_bind fun n => ?_
  refine ensures_bind fun m => ?_
  refine Ensures.ite (fun _ => ?_) fun _ => ensures_ok (Kept.refl s)
  refine (modify_kept s _ _).bind fun s₁ h₁ => h₁.after_fst ?_
  refine (modify_kept s₁ _ _).bind fun s₂ h₂ => h₂.after_fst ?_
  refine (rotate_kept _ s₂ _).bind fun s₃ h₃ => h₃.after_fst ?_
  refine ensures_bind fun n' => ?_
  exact ensures_bind fun q' => ensures_ok (Kept.refl s₃)

theorem fixDeleteSide_kept (d : Side) (s : State) (node : ℕ) :
    Ensures (fun r => Kept s r.1) (fixDeleteSide d s node) := by
  refine (blackSibling_kept d s node).bind fun r h₁ => h₁.after_fst ?_
  refine ensures_bind fun black => ?_
  refine Ensures.ite (fun _ => ?_) fun _ => ?_
  · refine (modify_kept r.1 _ _).bind fun s₂ h₂ => h₂.after_fst ?_
    exact ensures_bind fun n => ensures_ok (Kept.refl s₂)
  · refine (redFar_kept d r.1 node r.2).bind fun q h₂ => h₂.after_fst ?_
    refine ensures_bind fun n => ?_
    refine ensures_bind fun m => ?_
    refine (modify_kept q.1 _ _).bind fun s₃ h₃ => h₃.after_fst ?_
    refine (modify_kept s₃ _ _).bind fun s₄ h₄ => h₄.after_fst ?_
    refine ensures_bind fun k => ?_
    refine (modify_kept s₄ _ _).bind fun s₅ h₅ => h₅.after_fst ?_
    exact (rotate_kept d s₅ _).bind fun s₆ h₆ => ensures_ok h₆

theorem fixDeleteLoop_kept (fuel : ℕ) (s : State) (node : ℕ) :
    Ensures (fun r => Kept s r.1) (fixDeleteLoop fuel s node) := by
  induction fuel generalizing s node with
  | zero => exact ensures_error
  | succ fuel ih =>
    refine Ensures.ite (fun _ => ensures_ok (Kept.refl s)) fun _ => ?_
    refine ensures_bind fun n => ?_
    refine Ensures.ite (fun _ => ?_) fun _ => ensures_ok (Kept.refl s)
    refine ensures_bind fun q => ?_
    exact (fixDeleteSide_kept _ s node).bind fun r h => h.after_fst (ih r.1 r.2)

theorem fixDelete_kept (fuel : ℕ) (s : State) (node : ℕ) :
    Ensures (Kept s) (fixDelete fuel s node) :=
  (fixDeleteLoop_kept fuel s node).bind fun r h => h.after (modify_kept r.1 _ _)

theorem splice_kept (fuel : ℕ) (s : State) (node y : ℕ) :
    Ensures (Kept s) (splice fuel s node y) := by
  refine ensures_bind fun n => ?_
  refine (adopt_kept s _ _).bind fun s₁ h₁ => h₁.after ?_
  refine (replaceChild_kept .left s₁ y _).bind fun s₂ h₂ => h₂.after ?_
  have hrepair : ∀ s₃ x, Ensures (Kept s₃)
      (if n.color = .black ∧ x ≠ 0 then fixDelete fuel s₃ x else .ok s₃) := fun s₃ x =>
    Ensures.ite (fun _ => fixDelete_kept fuel s₃ x) fun _ => ensures_ok (Kept.refl s₃)
  refine Ensures.ite (fun _ => ?_) fun _ => hrepair s₂ _
  exact (modify_kept s₂ node _).bind fun s₃ h₃ => h₃.after (hrepair s₃ _)

/-- The node that is unlinked is given back, wherever the key was. -/
theorem infraRbtreeRemove_effect (fuel : ℕ) (s : State) (key : ℤ) :
    Ensures (fun r => Effect s r.1) (infraRbtreeRemove fuel s key) := by
  refine ensures_bind fun found => ?_
  refine Ensures.ite (fun _ => ensures_ok (.none (Kept.refl s))) fun _ => ?_
  refine ensures_bind fun n => ?_
  have hout : ∀ y, Ensures (fun r => Effect s r.1) (do
      let s ← splice fuel s found.2 y
      let s ← s.free y
      .ok ({ s with size := s.size - 1 }, n.value)) := by
    intro y
    refine (splice_kept fuel s found.2 y).bind fun s₁ h₁ => ?_
    refine (free_loses s₁ y).bind fun s₂ ⟨hloses, hsize⟩ => ensures_ok ?_
    exact .leaves (h₁.cells.loses hloses) (congrArg (· - 1) (hsize.trans h₁.size))
  exact Ensures.ite (fun _ => hout _) fun _ => ensures_bind fun y => hout y

/-! ### Runs -/

/-- The nodes of a tree that is shown are freed. -/
theorem clearNode_frees {t : EntryTree} {p : ℕ} (h : Shows s.heap t p) (hnodup : (ids t).Nodup)
    (hzero : 0 ∉ ids t) (hrun : ∀ fuel, height t < fuel → clearNode fuel s (addr t) = .ok s') :
    ∀ i ∈ ids t, s'.heap i = none := by
  induction t generalizing s s' p with
  | leaf => exact fun i hi => absurd hi List.not_mem_nil
  | node c a l r ihl ihr =>
    obtain ⟨hnode, hl, hr⟩ := h
    obtain ⟨hout, hrest⟩ := List.nodup_cons.mp hnodup
    obtain ⟨hlnodup, hrnodup, hlr⟩ := List.nodup_append.mp hrest
    have hne : a.id ≠ 0 := fun hz => hzero (hz ▸ List.mem_cons_self)
    have hlzero : 0 ∉ ids l := fun hz => hzero (List.mem_cons_of_mem _ (List.mem_append_left _ hz))
    have hrzero : 0 ∉ ids r := fun hz => hzero (List.mem_cons_of_mem _ (List.mem_append_right _ hz))
    obtain ⟨s₁, htouch₁, hrun₁⟩ := clearNode_spec hl hlnodup hlzero
    have hr₁ : Shows s₁.heap r a.id := hr.touch htouch₁ fun i hi hi' => hlr i hi' i hi rfl
    obtain ⟨s₂, htouch₂, hrun₂⟩ := clearNode_spec hr₁ hrnodup hrzero
    have hnode₁ := (htouch₁.heap a.id fun hi => hout (List.mem_append_left _ hi)).trans hnode
    have hnode₂ := (htouch₂.heap a.id fun hi => hout (List.mem_append_right _ hi)).trans hnode₁
    have hlast : s' = s₂.put a.id none := by
      have haddr : addr (node c a l r) = a.id := rfl
      have hfirst := hrun₁ (max (height l) (height r) + 1) (by omega)
      have hsecond := hrun₂ (max (height l) (height r) + 1) (by omega)
      have hdone := hrun (height (node c a l r) + 1) (Nat.lt_succ_self _)
      simp only [height] at hdone
      rw [haddr, clearNode, if_neg hne] at hdone
      simp only [node_eq hnode hne, ok_bind, hfirst, node_eq hnode₁ hne, hsecond,
        free_eq hnode₂ hne] at hdone
      injection hdone with hdone
      exact hdone.symm
    intro i hi
    by_cases hia : i = a.id
    · rw [hlast, hia, put_heap_self]
    rw [hlast, put_heap_of_ne _ _ hia]
    rcases List.mem_append.mp ((List.mem_cons.mp hi).resolve_left hia) with hi | hi
    · rw [htouch₂.heap i fun hi' => hlr i hi i hi' rfl]
      exact ihl hl hlnodup hlzero hrun₁ i hi
    · exact ihr hr₁ hrnodup hrzero hrun₂ i hi

/-- `infra_rbtree_clear` frees the nodes of the tree, and no others are touched. -/
theorem clear_frees {t : EntryTree} (h : Holds s t) :
    ∃ s', Settles (fun fuel => infraRbtreeClear fuel s) (.ok s') ∧ s'.size = 0 ∧
      (∀ i ∈ ids t, s'.heap i = none) ∧ ∀ i, i ∉ ids t → s'.heap i = s.heap i := by
  have hrepresents := h.represents
  have hids := ids_perm t
  have hnodup := hids.nodup_iff.mpr hrepresents.nodup
  have hzero := mt hids.mem_iff.mp hrepresents.nonzero
  obtain ⟨s₁, htouch, hrun⟩ := clearNode_spec hrepresents.shows hnodup hzero
  have hfreed := clearNode_frees hrepresents.shows hnodup hzero hrun
  refine ⟨{ s₁ with root := 0, size := 0 }, ⟨height t + 1, ?_⟩, rfl, hfreed, htouch.heap⟩
  intro fuel hfuel
  show infraRbtreeClear fuel s = _
  rw [infraRbtreeClear, hrepresents.root, hrun fuel hfuel, ok_bind]

/-- The nodes in use are those of the tree. -/
theorem exactly_of_counts {t : EntryTree} (h : Counts s.heap s.size) (hholds : Holds s t) :
    Exactly s.heap (ids t) := by
  have hrepresents := hholds.represents
  have hids := ids_perm t
  refine h.exactly (hids.nodup_iff.mpr hrepresents.nodup) (fun i hi => ?_) ?_
  · by_contra hnone
    exact hrepresents.not_mem_of_none (Option.not_isSome_iff_eq_none.mp hnone) hi
  · rw [hids.length_eq, List.length_map, hholds.size]
    exact (List.length_map _).le

theorem cleared_heap {t : EntryTree} (h : Exactly s.heap (ids t))
    (hfreed : ∀ i ∈ ids t, s'.heap i = none) (hother : ∀ i, i ∉ ids t → s'.heap i = s.heap i) :
    s'.heap = fun _ => none := by
  refine h.freed (fun i => ?_) hfreed
  by_cases hi : i ∈ ids t
  · exact Or.inr (hfreed i hi)
  · exact Or.inl (hother i hi)

theorem counts_effect (h : Counts s.heap s.size) (heffect : Effect s s') :
    Counts s'.heap s'.size := by
  cases heffect with
  | none hkept =>
    rw [hkept.size]
    exact h.same hkept.cells
  | enters hcells hsize =>
    rw [hsize]
    exact h.gain hcells
  | leaves hcells hsize =>
    rw [hsize]
    exact (h.lose hcells).2

theorem perform_effect {call : Call} (hadmissible : Admissible s call) (hclear : call ≠ .clear)
    (fuel : ℕ) : Ensures (fun r => Effect s r.1) (perform fuel s call) := by
  cases call with
  | insert reply key value => exact Ensures.map (infraRbtreeInsert_effect hadmissible fuel key value)
  | remove key => exact Ensures.map (infraRbtreeRemove_effect fuel s key)
  | find key => exact Ensures.map fun _ _ => Effect.none (Kept.refl s)
  | clear => exact absurd rfl hclear

/-- As many nodes are in use as are counted. -/
theorem counts_of_run {allowed : State → Call → Prop} {past : List (Call × Answer)}
    (h : Run allowed past s) : Counts s.heap s.size := by
  induction h with
  | create => exact counts_zero
  | @call past s s' call answer hpast hadmissible _ hrun ih =>
    by_cases hclear : call = .clear
    · subst hclear
      obtain ⟨t, hholds, _⟩ := run_holds hpast
      obtain ⟨u, hcleared, hsize, hfreed, hother⟩ := clear_frees hholds
      have hdone : Settles (fun fuel => perform fuel s .clear) (.ok (u, .nothing)) :=
        hcleared.map (Except.map fun s => (s, Answer.nothing))
      cases hrun.unique hdone
      rw [cleared_heap (exactly_of_counts ih hholds) hfreed hother, hsize]
      exact counts_zero
    · exact counts_effect ih (hrun.ensures (perform_effect hadmissible hclear))

/-- After every run, whatever the colours, the nodes in use are those of the
tree, and destroying it meets each of them once and leaves none in use. -/
theorem tree_released {allowed : State → Call → Prop} {past : List (Call × Answer)}
    (h : Run allowed past s) :
    (∃ t, Represents s t ∧ Exactly s.heap (ids t)) ∧
      Settles (fun fuel => infraRbtreeDestroy fuel (some s)) (.ok fun _ => none) := by
  obtain ⟨t, hholds, _⟩ := run_holds h
  have hexactly := exactly_of_counts (counts_of_run h) hholds
  refine ⟨⟨t, hholds.represents, hexactly⟩, ?_⟩
  obtain ⟨u, hcleared, _, hfreed, hother⟩ := clear_frees hholds
  rw [← cleared_heap hexactly hfreed hother]
  exact hcleared.bind (settles_const _)

/-- A tree from which a key with two children has been removed, and into which
a key has been put again. -/
theorem tree_released_small : ∃ past s, Run (fun _ _ => True) past s ∧
    (∃ t, Represents s t ∧ Exactly s.heap (ids t)) ∧
      Settles (fun fuel => infraRbtreeDestroy fuel (some s)) (.ok fun _ => none) := by
  obtain ⟨past, s, hrun, _⟩ := exists_run 9 [.insert 8 3 50, .remove 2, .insert 4 3 20,
    .insert 6 1 40, .insert 5 2 10] (fun s => s.size == 2) (by decide +kernel) fun _ _ _ => trivial
  exact ⟨past, s, hrun, tree_released hrun⟩

end Ppdb.TreeDestruction
