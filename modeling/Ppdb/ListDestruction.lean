import Ppdb.ListRuns
import Ppdb.HeapCells
import Ppdb.EventualResults

/-!
The nodes of a list in memory. Whatever calls have been made on the list, the
nodes in use are those in the list, and its destruction gives back each of
them.
-/

namespace Ppdb.ListDestruction

open ErrorCodes SizeArithmetic LinkedSegments ListRuns HeapCells EventualResults

/-- The loop of `infra_list_destroy`, from the node `current` on; without an
outcome if it lacks fuel. -/
def freeNodes : (fuel : ℕ) → State → (current : ℕ) → Option (Except Fault State)
  | 0, _, _ => none
  | fuel + 1, s, current =>
    if current = 0 then some (.ok s)
    else match s.node current with
      | .error e => some (.error e)
      | .ok n => match s.freeNode current with
        | .error e => some (.error e)
        | .ok s => freeNodes fuel s n.next

/-- `infra_list_destroy`: what is left of the memory for nodes. The list is
given up itself. -/
def infraListDestroy (fuel : ℕ) (list : Option State) :
    Option (Except Fault (ℕ → Option Node)) :=
  match list with
  | none => some (.ok fun _ => none)
  | some s => (freeNodes fuel s s.head).map fun r => r.map State.heap

def Kept (s s' : State) : Prop := SameCells s.heap s'.heap

variable {s s' : State} {ref : List (ℕ × ℕ)} {p q : ℕ}

/-! ### The two calls -/

theorem node_isSome {n : Node} (h : s.node p = .ok n) : (s.heap p).isSome := by
  unfold State.node at h
  cases hp : s.heap p with
  | none =>
    rw [hp] at h
    cases h
  | some m => rfl

theorem setNext_kept (s : State) (p q : ℕ) : Ensures (Kept s) (s.setNext p q) := by
  intro s' h
  cases hn : s.node p with
  | error e =>
    rw [State.setNext, hn] at h
    cases h
  | ok n =>
    rw [State.setNext, hn] at h
    cases h
    exact sameCells_update (node_isSome hn) _

theorem setPrev_kept (s : State) (p q : ℕ) : Ensures (Kept s) (s.setPrev p q) := by
  intro s' h
  cases hn : s.node p with
  | error e =>
    rw [State.setPrev, hn] at h
    cases h
  | ok n =>
    rw [State.setPrev, hn] at h
    cases h
    exact sameCells_update (node_isSome hn) _

theorem leadNext_kept (s : State) (p q : ℕ) : Ensures (Kept s) (s.leadNext p q) :=
  Ensures.ite (fun _ => setNext_kept s p q) fun _ => ensures_ok (SameCells.refl _)

theorem leadPrev_kept (s : State) (p q : ℕ) : Ensures (Kept s) (s.leadPrev p q) :=
  Ensures.ite (fun _ => setPrev_kept s p q) fun _ => ensures_ok (SameCells.refl _)

theorem linkLast_kept (s : State) (p : ℕ) : Ensures (Kept s) (s.linkLast p) :=
  Ensures.ite (fun _ => setNext_kept s s.tail p) fun _ => ensures_ok (SameCells.refl _)

theorem freeNode_loses (s : State) (p : ℕ) :
    Ensures (fun s' => Loses p s.heap s'.heap) (s.freeNode p) := by
  intro s' h
  cases hn : s.node p with
  | error e =>
    rw [State.freeNode, hn] at h
    cases h
  | ok n =>
    rw [State.freeNode, hn] at h
    cases h
    exact loses_update (node_isSome hn)

/-- A served request brings its node into the list. -/
theorem infraListAppend_gains (hp : p ≠ 0) (hfresh : s.heap p = none) (value : ℕ) :
    Ensures (fun r => Gains p s.heap r.1.heap) (infraListAppend p s value) := by
  have hgains : Gains p s.heap (s.put p (some ⟨value, 0, s.tail⟩)).heap :=
    gains_update (by simp [hfresh]) _
  unfold infraListAppend
  rw [if_neg hp]
  refine (linkLast_kept _ p).bind ?_
  intro s₁ hkept
  refine ensures_ok ?_
  dsimp only
  split_ifs
  · exact hgains.trans hkept
  · exact hgains.trans hkept

theorem loses_resize {heap : ℕ → Option Node} (h : Loses p heap s.heap) (n : ℕ) :
    Loses p heap ({ s with size := n } : State).heap := h

/-- A removal takes back the node it is given. -/
theorem infraListRemove_loses (hp : p ≠ 0) :
    Ensures (fun r => Loses p s.heap r.1.heap) (infraListRemove s p) := by
  unfold infraListRemove
  rw [if_neg hp]
  refine ensures_bind fun n => ?_
  refine (leadNext_kept s n.prev n.next).bind fun s₁ h₁ => ?_
  refine ensures_bind fun m => ?_
  refine (leadPrev_kept s₁ m.next m.prev).bind fun s₂ h₂ => ?_
  refine (freeNode_loses s₂ p).bind fun s₃ hloses => ensures_ok ?_
  exact loses_resize ((h₁.trans h₂).loses hloses) _

/-! ### Runs -/

/-- As many nodes are in use as the list is long. -/
theorem counts_of_run (h : Run s ref) : Counts s.heap ref.length := by
  induction h with
  | create => exact counts_zero
  | append _ hserved hfresh _ hcall ih =>
    have hgains := infraListAppend_gains hserved hfresh _ _ hcall
    rw [List.length_append, List.length_singleton]
    exact ih.gain hgains
  | refused _ hcall ih =>
    rw [infraListAppend_refused] at hcall
    cases hcall
    exact ih
  | @remove s s' before after node value e hrun hcall ih =>
    have hs := represents_of_run hrun
    have hnode : node ≠ 0 := hs.linked.ne_null node (by simp)
    have hloses := infraListRemove_loses hnode _ hcall
    obtain ⟨_, hcounts⟩ := ih.lose hloses
    have hlength : (before ++ (node, value) :: after).length - 1 = (before ++ after).length := by
      rw [List.length_append, List.length_append, List.length_cons]
      omega
    rwa [hlength] at hcounts

/-- The loop gives back a list of nodes, and touches no other node. -/
theorem freeNodes_settles {nodes : List ℕ} (h : Segment (nextOf s) 0 p nodes)
    (hlive : ∀ i ∈ nodes, (s.heap i).isSome) :
    ∃ s', Settles (fun fuel => freeNodes fuel s p) (some (.ok s')) ∧ Frees s.heap s'.heap ∧
      ∀ i ∈ nodes, s'.heap i = none := by
  induction nodes generalizing s p with
  | nil =>
    refine ⟨s, Settles.succ ((settles_const _).of_eq fun fuel => ?_), Frees.refl _, by simp⟩
    exact if_pos h
  | cons a nodes ih =>
    have hnodup := h.nodup
    obtain ⟨rfl, hne, hrest⟩ := h
    obtain ⟨n, hn⟩ := Option.isSome_iff_exists.mp (hlive p List.mem_cons_self)
    have hother : ∀ i ∈ nodes, (s.put p none).heap i = s.heap i := by
      intro i hi
      refine Function.update_of_ne ?_ _ _
      intro heq
      exact (List.nodup_cons.mp hnodup).1 (heq ▸ hi)
    have hsegment : Segment (nextOf (s.put p none)) 0 n.next nodes := by
      rw [← nextOf_some hn]
      apply hrest.congr
      intro i hi
      rw [nextOf, nextOf, hother i hi]
    obtain ⟨s', hrun, hfrees, hnone⟩ := ih hsegment fun i hi => by
      rw [hother i hi]
      exact hlive i (List.mem_cons_of_mem _ hi)
    refine ⟨s', Settles.succ (hrun.of_eq fun fuel => ?_), (frees_update s.heap p).trans hfrees, ?_⟩
    · rw [freeNodes, if_neg hne, node_some hn, freeNode_some hn]
    · intro i hi
      rcases List.mem_cons.mp hi with rfl | hi
      · exact hfrees.none (Function.update_self _ _ _)
      · exact hnone i hi

/-- No node is lost: those in use are those in the list, and destroying the
list meets each of them once, after which no memory for nodes is in use. -/
theorem list_released (h : Run s ref) : Exactly s.heap (ref.map Prod.fst) ∧
    Settles (fun fuel => infraListDestroy fuel (some s)) (some (.ok fun _ => none)) := by
  have hs := represents_of_run h
  have hexactly : Exactly s.heap (ref.map Prod.fst) :=
    (counts_of_run h).exactly hs.linked.nodup (fun _ hi => hs.live hi) (by rw [List.length_map])
  obtain ⟨s', hrun, hfrees, hnone⟩ := freeNodes_settles hs.linked.forward fun _ hi => hs.live hi
  refine ⟨hexactly, ?_⟩
  rw [← hexactly.freed hfrees hnone]
  exact hrun.map (Option.map fun r => r.map State.heap)

/-- The second of two nodes is left when the list is destroyed. -/
theorem list_released_two : ∃ s, Run s [(16, 7)] ∧ Exactly s.heap [16] ∧
    Settles (fun fuel => infraListDestroy fuel (some s)) (some (.ok fun _ => none)) := by
  obtain ⟨s₁, hcall₁, hs₁⟩ :=
    represents_created.append (Nat.succ_ne_zero 7) rfl (by norm_num [sizeModulus]) 5
  have hrun₁ : Run s₁ [(8, 5)] :=
    Run.append Run.create (Nat.succ_ne_zero 7) rfl (by norm_num [sizeModulus]) hcall₁
  have hfresh : s₁.heap 16 = none := by
    injection hcall₁ with hcall₁
    rw [← (Prod.mk.inj hcall₁).1]
    rfl
  obtain ⟨s₂, hcall₂, hs₂⟩ :=
    hs₁.append (Nat.succ_ne_zero 15) hfresh (by norm_num [sizeModulus]) 7
  have hrun₂ : Run s₂ ([] ++ (8, 5) :: [(16, 7)]) :=
    Run.append hrun₁ (Nat.succ_ne_zero 15) hfresh (by norm_num [sizeModulus]) hcall₂
  obtain ⟨s₃, hcall₃, _⟩ := (represents_of_run hrun₂).remove
  have hrun₃ : Run s₃ [(16, 7)] := hrun₂.remove hcall₃
  exact ⟨s₃, hrun₃, list_released hrun₃⟩

end Ppdb.ListDestruction
