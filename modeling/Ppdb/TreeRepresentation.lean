import Ppdb.TreeOperations
import Ppdb.RedBlackTrees
import Mathlib.Tactic.Common
import Mathlib.Data.List.Nodup

/-!
Trees in the heap. A tree whose labels carry addresses is shown by the heap
when every node is stored at its address with the links that its place in the
tree asks for; a context is shown likewise, around a hole. A store at one
address changes one label of the tree, and everything away from it stays.
-/

namespace Ppdb.TreeRepresentation

open ColoredTrees ColorTree TreeOperations EventualResults

/-- What a node holds besides its colour, and where it is stored. -/
structure Entry where
  id : ℕ
  key : ℤ
  value : ℕ
  deriving DecidableEq, Repr

abbrev EntryTree := ColorTree Entry

def addr : EntryTree → ℕ
  | leaf => 0
  | node _ a _ _ => a.id

@[simp] theorem addr_leaf : addr leaf = 0 := rfl

@[simp] theorem addr_branch (d : Side) (c : Color) (a : Entry) (t u : EntryTree) :
    addr (branch d c a t u) = a.id := by
  cases d <;> rfl

def ids : EntryTree → List ℕ
  | leaf => []
  | node _ a l r => a.id :: (ids l ++ ids r)

def contextIds : Context Entry → List ℕ
  | [] => []
  | f :: ctx => f.label.id :: (ids f.sibling ++ contextIds ctx)

theorem mem_ids_branch {d : Side} {c : Color} {a : Entry} {t u : EntryTree} {i : ℕ} :
    i ∈ ids (branch d c a t u) ↔ i = a.id ∨ i ∈ ids t ∨ i ∈ ids u := by
  cases d <;> simp [branch, ids, or_comm]

theorem ids_perm (t : EntryTree) : (ids t).Perm ((inorder t).map Entry.id) := by
  induction t with
  | leaf => exact List.Perm.nil
  | node c a l r ihl ihr =>
    simp only [ids, inorder, List.map_append, List.map_cons]
    exact ((ihl.append ihr).cons a.id).trans List.perm_middle.symm

theorem ids_branch_perm (d : Side) (c : Color) (a : Entry) (t u : EntryTree) :
    (ids (branch d c a t u)).Perm (a.id :: (ids t ++ ids u)) := by
  cases d with
  | left => exact List.Perm.refl _
  | right => exact (List.perm_append_comm).cons a.id

theorem ids_plug_perm (ctx : Context Entry) (t : EntryTree) :
    (ids (plug ctx t)).Perm (ids t ++ contextIds ctx) := by
  induction ctx generalizing t with
  | nil => simp [contextIds]
  | cons f ctx ih =>
    have hbranch := ids_branch_perm f.side f.color f.label t f.sibling
    refine (ih _).trans ((hbranch.append_right _).trans ?_)
    simp only [contextIds, List.cons_append, List.append_assoc]
    exact List.perm_middle.symm

def Shows (heap : ℕ → Option Node) : EntryTree → ℕ → Prop
  | leaf, _ => True
  | node c a l r, p => heap a.id = some ⟨a.key, a.value, c, p, addr l, addr r⟩ ∧
      Shows heap l a.id ∧ Shows heap r a.id

instance (heap : ℕ → Option Node) : (t : EntryTree) → (p : ℕ) → Decidable (Shows heap t p)
  | leaf, _ => inferInstanceAs (Decidable True)
  | node c a l r, p =>
    have := instDecidableShows heap l a.id
    have := instDecidableShows heap r a.id
    inferInstanceAs (Decidable (heap a.id = some ⟨a.key, a.value, c, p, addr l, addr r⟩ ∧
      Shows heap l a.id ∧ Shows heap r a.id))

def cell (d : Side) (c : Color) (a : Entry) (p near far : ℕ) : Node :=
  match d with
  | .left => ⟨a.key, a.value, c, p, near, far⟩
  | .right => ⟨a.key, a.value, c, p, far, near⟩

section Cell
variable (d : Side) (c c' : Color) (a : Entry) (p near far q : ℕ)

theorem cell_flip : cell d.flip c a p near far = cell d c a p far near := by cases d <;> rfl

@[simp] theorem cell_child : (cell d c a p near far).child d = near := by cases d <;> rfl

@[simp] theorem cell_child_flip : (cell d c a p near far).child d.flip = far := by cases d <;> rfl

@[simp] theorem cell_parent : (cell d c a p near far).parent = p := by cases d <;> rfl

@[simp] theorem cell_color : (cell d c a p near far).color = c := by cases d <;> rfl

@[simp] theorem cell_key : (cell d c a p near far).key = a.key := by cases d <;> rfl

@[simp] theorem cell_value : (cell d c a p near far).value = a.value := by cases d <;> rfl

@[simp] theorem cell_setChild :
    (cell d c a p near far).setChild d q = cell d c a p q far := by cases d <;> rfl

@[simp] theorem cell_setChild_flip :
    (cell d c a p near far).setChild d.flip q = cell d c a p near q := by cases d <;> rfl

@[simp] theorem cell_setParent :
    (cell d c a p near far).setParent q = cell d c a q near far := by cases d <;> rfl

@[simp] theorem cell_setColor :
    (cell d c a p near far).setColor c' = cell d c' a p near far := by cases d <;> rfl

/-- The side of a child is found by comparing it with the left link. -/
theorem cell_side (h : near ≠ far) :
    (if near = (cell d c a p near far).left then Side.left else Side.right) = d := by
  cases d with
  | left => exact if_pos rfl
  | right => exact if_neg h

end Cell

theorem shows_branch {heap : ℕ → Option Node} {d : Side} {c : Color} {a : Entry}
    {t u : EntryTree} {p : ℕ} : Shows heap (branch d c a t u) p ↔
      heap a.id = some (cell d c a p (addr t) (addr u)) ∧ Shows heap t a.id ∧ Shows heap u a.id := by
  cases d with
  | left => exact Iff.rfl
  | right => exact and_congr_right fun _ => and_comm

def top : Context Entry → ℕ
  | [] => 0
  | f :: _ => f.label.id

/-- A context is shown around a hole whose root is stored at `hole`. -/
def ShowsContext (s : State) : Context Entry → ℕ → Prop
  | [], hole => s.root = hole
  | f :: ctx, hole =>
    s.heap f.label.id = some (cell f.side f.color f.label (top ctx) hole (addr f.sibling)) ∧
      Shows s.heap f.sibling f.label.id ∧ ShowsContext s ctx f.label.id

/-- The state holds the tree: linked from the root, at distinct addresses. -/
structure Represents (s : State) (t : EntryTree) : Prop where
  root : s.root = addr t
  shows : Shows s.heap t 0
  nodup : ((inorder t).map Entry.id).Nodup
  nonzero : 0 ∉ (inorder t).map Entry.id

theorem Shows.congr {heap heap' : ℕ → Option Node} {t : EntryTree} {p : ℕ} (h : Shows heap t p)
    (hsame : ∀ i ∈ ids t, heap' i = heap i) : Shows heap' t p := by
  induction t generalizing p with
  | leaf => trivial
  | node c a l r ihl ihr =>
    obtain ⟨hnode, hl, hr⟩ := h
    refine ⟨(hsame a.id List.mem_cons_self).trans hnode, ihl hl fun i hi => ?_,
      ihr hr fun i hi => ?_⟩
    · exact hsame i (List.mem_cons_of_mem _ (List.mem_append_left _ hi))
    · exact hsame i (List.mem_cons_of_mem _ (List.mem_append_right _ hi))

theorem ShowsContext.congr {s s' : State} {ctx : Context Entry} {hole : ℕ}
    (h : ShowsContext s ctx hole) (hroot : s'.root = s.root)
    (hsame : ∀ i ∈ contextIds ctx, s'.heap i = s.heap i) : ShowsContext s' ctx hole := by
  induction ctx generalizing hole with
  | nil => exact hroot.trans h
  | cons f ctx ih =>
    obtain ⟨hnode, hsib, hctx⟩ := h
    refine ⟨(hsame _ List.mem_cons_self).trans hnode, hsib.congr fun i hi => ?_,
      ih hctx fun i hi => ?_⟩
    · exact hsame i (List.mem_cons_of_mem _ (List.mem_append_left _ hi))
    · exact hsame i (List.mem_cons_of_mem _ (List.mem_append_right _ hi))

theorem shows_plug {s : State} {ctx : Context Entry} {t : EntryTree} :
    (s.root = addr (plug ctx t) ∧ Shows s.heap (plug ctx t) 0) ↔
      ShowsContext s ctx (addr t) ∧ Shows s.heap t (top ctx) := by
  induction ctx generalizing t with
  | nil => exact Iff.rfl
  | cons f ctx ih =>
    rw [plug_cons, ih, shows_branch, addr_branch]
    simp only [ShowsContext, top]
    tauto

/-- The addresses around a position: all distinct, none of them null. -/
structure Spread (ctx : Context Entry) (t : EntryTree) : Prop where
  nodup : (ids t ++ contextIds ctx).Nodup
  nonzero : 0 ∉ ids t ++ contextIds ctx

theorem represents_plug {s : State} {ctx : Context Entry} {t : EntryTree} :
    Represents s (plug ctx t) ↔
      ShowsContext s ctx (addr t) ∧ Shows s.heap t (top ctx) ∧ Spread ctx t := by
  have hperm : ((inorder (plug ctx t)).map Entry.id).Perm (ids t ++ contextIds ctx) :=
    (ids_perm _).symm.trans (ids_plug_perm ctx t)
  constructor
  · rintro ⟨hroot, hshows, hnodup, hzero⟩
    obtain ⟨hctx, ht⟩ := shows_plug.mp ⟨hroot, hshows⟩
    exact ⟨hctx, ht, hperm.nodup_iff.mp hnodup, fun h => hzero (hperm.mem_iff.mpr h)⟩
  · rintro ⟨hctx, ht, hnodup, hzero⟩
    obtain ⟨hroot, hshows⟩ := shows_plug.mpr ⟨hctx, ht⟩
    exact ⟨hroot, hshows, hperm.nodup_iff.mpr hnodup, fun h => hzero (hperm.mem_iff.mp h)⟩

/-- A tree of the same nodes, however rearranged, is as spread out. -/
theorem Represents.spread {s : State} {t : EntryTree} (h : Represents s t)
    {ctx : Context Entry} {u : EntryTree}
    (hperm : ((inorder (plug ctx u)).map Entry.id).Perm ((inorder t).map Entry.id)) :
    Spread ctx u := by
  have hids : ((inorder t).map Entry.id).Perm (ids u ++ contextIds ctx) :=
    hperm.symm.trans ((ids_perm _).symm.trans (ids_plug_perm ctx u))
  exact ⟨hids.nodup_iff.mp h.nodup, fun hz => h.nonzero (hids.mem_iff.mpr hz)⟩

/-- A state holds one tree at most. -/
theorem Shows.unique {heap : ℕ → Option Node} {t u : EntryTree} {p q : ℕ} (ht : Shows heap t p)
    (hu : Shows heap u q) (htzero : 0 ∉ ids t) (huzero : 0 ∉ ids u) (haddr : addr t = addr u) :
    t = u := by
  induction t generalizing u p q with
  | leaf =>
    cases u with
    | leaf => rfl
    | node c b l r =>
      have hb : 0 = b.id := haddr
      exact absurd (hb ▸ List.mem_cons_self) huzero
  | node c a l r ihl ihr =>
    cases u with
    | leaf =>
      have ha : a.id = 0 := haddr
      exact absurd (ha ▸ List.mem_cons_self) htzero
    | node c' b l' r' =>
      have hid : a.id = b.id := haddr
      obtain ⟨hnode, hl, hr⟩ := ht
      obtain ⟨hnode', hl', hr'⟩ := hu
      rw [hid, hnode'] at hnode
      injection hnode with hnode
      injection hnode with hkey hvalue hcolor _ hleft hright
      have hentry : a = b := by
        cases a
        cases b
        simp_all
      simp only [ids, List.mem_cons, List.mem_append, not_or] at htzero huzero
      rw [hentry, hcolor, ihl hl hl' htzero.2.1 huzero.2.1 hleft.symm,
        ihr hr hr' htzero.2.2 huzero.2.2 hright.symm]

theorem Represents.unique {s : State} {t u : EntryTree} (ht : Represents s t)
    (hu : Represents s u) : t = u :=
  ht.shows.unique hu.shows (mt (ids_perm t).mem_iff.mp ht.nonzero)
    (mt (ids_perm u).mem_iff.mp hu.nonzero) (ht.root.symm.trans hu.root)

/-- The facts about a node, its subtrees and its context that stores rely on. -/
structure Placed (ctx : Context Entry) (a : Entry) (t u : EntryTree) : Prop where
  nonzero : a.id ≠ 0
  near : a.id ∉ ids t
  far : a.id ∉ ids u
  around : a.id ∉ contextIds ctx
  apart : ∀ i ∈ ids t, i ∉ ids u
  near_around : ∀ i ∈ ids t, i ∉ contextIds ctx
  far_around : ∀ i ∈ ids u, i ∉ contextIds ctx

theorem Spread.placed {ctx : Context Entry} {d : Side} {c : Color} {a : Entry} {t u : EntryTree}
    (h : Spread ctx (branch d c a t u)) : Placed ctx a t u := by
  have hperm := (ids_branch_perm d c a t u).append_right (contextIds ctx)
  have hnodup := hperm.nodup_iff.mp h.nodup
  have hzero : a.id ≠ 0 := fun hz => h.nonzero (hperm.mem_iff.mpr (by simp [hz]))
  simp only [List.cons_append, List.append_assoc, List.nodup_cons, List.nodup_append,
    List.mem_append, not_or] at hnodup
  obtain ⟨⟨ht, hu, hctx⟩, _, ⟨_, _, hfar⟩, hnear⟩ := hnodup
  exact ⟨hzero, ht, hu, hctx, fun i hi hi' => hnear i hi i (Or.inl hi') rfl,
    fun i hi hi' => hnear i hi i (Or.inr hi') rfl, fun i hi hi' => hfar i hi i hi' rfl⟩

/-- The same addresses are spread out around a child. -/
theorem Spread.down {ctx : Context Entry} {d : Side} {c : Color} {a : Entry} {t u : EntryTree}
    (h : Spread ctx (branch d c a t u)) : Spread (⟨d, c, a, u⟩ :: ctx) t := by
  have hperm : (ids (branch d c a t u) ++ contextIds ctx).Perm
      (ids t ++ contextIds (⟨d, c, a, u⟩ :: ctx)) := by
    apply ((ids_branch_perm d c a t u).append_right _).trans
    simp only [contextIds, List.cons_append, List.append_assoc]
    exact List.perm_middle.symm
  exact ⟨hperm.nodup_iff.mp h.nodup, fun hz => h.nonzero (hperm.mem_iff.mpr hz)⟩

/-! ### Reading and storing -/

section Store
variable {s : State} {p : ℕ} {n : Node}

theorem node_eq (h : s.heap p = some n) (hp : p ≠ 0) : s.node p = .ok n := by
  simp [State.node, h, hp]

theorem modify_eq (h : s.heap p = some n) (hp : p ≠ 0) (f : Node → Node) :
    s.modify p f = .ok (s.put p (some (f n))) := by
  simp [State.modify, node_eq h hp]

theorem free_eq (h : s.heap p = some n) (hp : p ≠ 0) : s.free p = .ok (s.put p none) := by
  simp [State.free, node_eq h hp]

@[simp] theorem node_null (s : State) : s.node 0 = .error .nullDeref := rfl

@[simp] theorem put_heap_self (s : State) (p : ℕ) (n : Option Node) : (s.put p n).heap p = n := by
  simp [State.put]

theorem put_heap_of_ne (s : State) {p q : ℕ} (n : Option Node) (h : q ≠ p) :
    (s.put p n).heap q = s.heap q := by
  simp [State.put, h]

theorem Shows.put {t : EntryTree} {q : ℕ} (h : Shows s.heap t q) (hp : p ∉ ids t)
    (n : Option Node) : Shows (s.put p n).heap t q :=
  h.congr fun _ hi => put_heap_of_ne s n fun heq => hp (heq ▸ hi)

theorem ShowsContext.put {ctx : Context Entry} {hole : ℕ} (h : ShowsContext s ctx hole)
    (hp : p ∉ contextIds ctx) (n : Option Node) : ShowsContext (s.put p n) ctx hole :=
  h.congr rfl fun _ hi => put_heap_of_ne s n fun heq => hp (heq ▸ hi)

end Store

/-- The second state differs from the first only at addresses satisfying `P`,
and perhaps at the root. -/
structure Touches (P : ℕ → Prop) (s s' : State) : Prop where
  size : s'.size = s.size
  heap : ∀ i, ¬ P i → s'.heap i = s.heap i

theorem Touches.refl (P : ℕ → Prop) (s : State) : Touches P s s := ⟨rfl, fun _ _ => rfl⟩

theorem Touches.trans {P : ℕ → Prop} {s t u : State} (h : Touches P s t) (h' : Touches P t u) :
    Touches P s u :=
  ⟨h'.size.trans h.size, fun i hi => (h'.heap i hi).trans (h.heap i hi)⟩

theorem Touches.mono {P Q : ℕ → Prop} {s t : State} (h : Touches P s t) (hPQ : ∀ i, P i → Q i) :
    Touches Q s t :=
  ⟨h.size, fun i hi => h.heap i fun hp => hi (hPQ i hp)⟩

theorem touches_put {P : ℕ → Prop} (s : State) {p : ℕ} (n : Option Node) (h : P p) :
    Touches P s (s.put p n) :=
  ⟨rfl, fun _ hi => put_heap_of_ne s n fun heq => hi (heq ▸ h)⟩

theorem Shows.touch {s s' : State} {P : ℕ → Prop} {t : EntryTree} {p : ℕ}
    (h : Shows s.heap t p) (htouch : Touches P s s') (haway : ∀ i ∈ ids t, ¬ P i) :
    Shows s'.heap t p :=
  h.congr fun i hi => htouch.heap i (haway i hi)

/-- A subtree given a new parent. -/
theorem adopt_spec {s : State} {t : EntryTree} {p : ℕ} (h : Shows s.heap t p)
    (hnodup : (ids t).Nodup) (hzero : 0 ∉ ids t) (q : ℕ) :
    ∃ s', adopt s (addr t) q = .ok s' ∧ s'.root = s.root ∧ Shows s'.heap t q ∧ Touches (· ∈ ids t) s s' := by
  cases t with
  | leaf => exact ⟨s, rfl, rfl, trivial, Touches.refl _ s⟩
  | node c a l r =>
    obtain ⟨hnode, hl, hr⟩ := h
    have hid : a.id ≠ 0 := fun hz => hzero (hz ▸ List.mem_cons_self)
    obtain ⟨hfresh, _⟩ := List.nodup_cons.mp hnodup
    refine ⟨s.put a.id (some ⟨a.key, a.value, c, q, addr l, addr r⟩), ?_, rfl, ⟨?_, ?_, ?_⟩, ?_⟩
    · exact (if_pos hid).trans (modify_eq hnode hid _)
    · exact put_heap_self _ _ _
    · exact hl.put (fun hi => hfresh (List.mem_append_left _ hi)) _
    · exact hr.put (fun hi => hfresh (List.mem_append_right _ hi)) _
    · exact touches_put s _ List.mem_cons_self

/-- The link of the innermost frame is set. -/
theorem setHole_spec {s : State} {f : Frame Entry} {ctx : Context Entry} {i : ℕ}
    (h : ShowsContext s (f :: ctx) i) (hnodup : (contextIds (f :: ctx)).Nodup)
    (hzero : 0 ∉ contextIds (f :: ctx)) (new : ℕ) :
    ∃ s', s.modify f.label.id (Node.setChild f.side new) = .ok s' ∧
      ShowsContext s' (f :: ctx) new ∧ Touches (· ∈ contextIds (f :: ctx)) s s' := by
  obtain ⟨hframe, hsib, hctx⟩ := h
  have hid : f.label.id ≠ 0 := fun hz => hzero (hz ▸ List.mem_cons_self)
  obtain ⟨hroot, _⟩ := List.nodup_cons.mp hnodup
  refine ⟨_, modify_eq hframe hid _, ⟨?_, ?_, ?_⟩, touches_put s _ List.mem_cons_self⟩
  · rw [put_heap_self, cell_setChild]
  · exact hsib.put (fun hmem => hroot (List.mem_append_left _ hmem)) _
  · exact hctx.put (fun hmem => hroot (List.mem_append_right _ hmem)) _

/-- The link into the hole is redirected. -/
theorem replaceChild_spec {s : State} {ctx : Context Entry} {i : ℕ} {n : Node}
    (hnode : s.heap i = some n) (hi : i ≠ 0) (hparent : n.parent = top ctx)
    (h : ShowsContext s ctx i) (hfresh : i ∉ contextIds ctx) (hnodup : (contextIds ctx).Nodup)
    (hzero : 0 ∉ contextIds ctx) (d : Side) (new : ℕ) :
    ∃ s', replaceChild d s i new = .ok s' ∧ ShowsContext s' ctx new ∧
      Touches (· ∈ contextIds ctx) s s' := by
  cases ctx with
  | nil =>
    refine ⟨{ s with root := new }, ?_, rfl, rfl, fun _ _ => rfl⟩
    have hnull : n.parent = 0 := hparent
    simp [replaceChild, TreeRepresentation.node_eq hnode hi, hnull]
  | cons f ctx =>
    have hframe := h.1
    have hid : f.label.id ≠ 0 := fun hz => hzero (hz ▸ List.mem_cons_self)
    have hne : i ≠ addr f.sibling := by
      intro heq
      cases hu : f.sibling with
      | leaf => exact hi (by rw [heq, hu, addr_leaf])
      | node c a l r =>
        apply hfresh
        simp [contextIds, heq, hu, addr, ids]
    obtain ⟨s', hset, hctx, htouch⟩ := setHole_spec h hnodup hzero new
    refine ⟨s', ?_, hctx, htouch⟩
    have hpar : n.parent = f.label.id := hparent
    rcases Side.eq_or_eq_flip d f.side with hd | hd
    · rw [hd] at hframe hset
      simp [replaceChild, node_eq hnode hi, hpar, hid, node_eq hframe hid, hset]
    · have hd' : d = f.side.flip := by rw [hd, Side.flip_flip]
      rw [hd']
      simp [replaceChild, node_eq hnode hi, hpar, hid, node_eq hframe hid, hset, hne]

/-! ### Edits of the represented tree -/

/-- The second state represents a rearrangement of the tree that the first one
represents, and differs from it only in the nodes of that tree. -/
structure Rearranges (s : State) (t : EntryTree) (s' : State) (t' : EntryTree) : Prop where
  represents : Represents s' t'
  inorder : inorder t' = inorder t
  touches : Touches (· ∈ ids t) s s'

theorem Rearranges.mem_ids {s s' : State} {t t' : EntryTree} (h : Rearranges s t s' t') (i : ℕ) :
    i ∈ ids t' ↔ i ∈ ids t := by
  rw [(ids_perm t').mem_iff, (ids_perm t).mem_iff, h.inorder]

theorem Rearranges.refl {s : State} {t : EntryTree} (h : Represents s t) : Rearranges s t s t :=
  ⟨h, rfl, Touches.refl _ s⟩

theorem Rearranges.trans {s s' s'' : State} {t t' t'' : EntryTree} (h : Rearranges s t s' t')
    (h' : Rearranges s' t' s'' t'') : Rearranges s t s'' t'' :=
  ⟨h'.represents, h'.inorder.trans h.inorder,
    h.touches.trans (h'.touches.mono fun i hi => (h.mem_ids i).mp hi)⟩

theorem mem_ids_plug {ctx : Context Entry} {t : EntryTree} {i : ℕ} :
    i ∈ ids (plug ctx t) ↔ i ∈ ids t ∨ i ∈ contextIds ctx :=
  (ids_plug_perm ctx t).mem_iff.trans List.mem_append

/-- A store away from the tree does not disturb it. -/
theorem Represents.put_fresh {s : State} {t : EntryTree} (h : Represents s t) {p : ℕ}
    (hp : p ∉ ids t) (n : Option Node) : Represents (s.put p n) t :=
  ⟨h.root, h.shows.put hp n, h.nodup, h.nonzero⟩

/-- The counter is not part of the tree. -/
theorem Represents.resize {s : State} {t : EntryTree} (h : Represents s t) (n : ℕ) :
    Represents { s with size := n } t :=
  ⟨h.root, h.shows, h.nodup, h.nonzero⟩

theorem Represents.mem_heap {s : State} {t : EntryTree} (h : Represents s t) {p : ℕ}
    (hp : p ∈ ids t) : ∃ n, s.heap p = some n := by
  have hshows := h.shows
  generalize 0 = q at hshows
  clear h
  induction t generalizing q with
  | leaf => simp [ids] at hp
  | node c a l r ihl ihr =>
    obtain ⟨hnode, hl, hr⟩ := hshows
    rcases List.mem_cons.mp hp with rfl | hp
    · exact ⟨_, hnode⟩
    · rcases List.mem_append.mp hp with hp | hp
      · exact ihl hp _ hl
      · exact ihr hp _ hr

/-- Memory that holds no node belongs to no tree. -/
theorem Represents.not_mem_of_none {s : State} {t : EntryTree} (h : Represents s t) {p : ℕ}
    (hp : s.heap p = none) : p ∉ ids t := by
  intro hmem
  obtain ⟨n, hn⟩ := h.mem_heap hmem
  rw [hp] at hn
  cases hn

section Focus
variable {s : State} {ctx : Context Entry} {d : Side} {c : Color} {a : Entry} {t u : EntryTree}

theorem Represents.heap_eq (h : Represents s (plug ctx (branch d c a t u))) :
    s.heap a.id = some (cell d c a (top ctx) (addr t) (addr u)) :=
  (shows_branch.mp (represents_plug.mp h).2.1).1

theorem Represents.placed (h : Represents s (plug ctx (branch d c a t u))) : Placed ctx a t u :=
  (represents_plug.mp h).2.2.placed

/-- The node in focus is read. -/
theorem Represents.node_eq (h : Represents s (plug ctx (branch d c a t u))) :
    s.node a.id = .ok (cell d c a (top ctx) (addr t) (addr u)) :=
  TreeRepresentation.node_eq h.heap_eq h.placed.nonzero

/-- A node is read through the subtree it is the root of. -/
theorem Represents.root_node (h : Represents s (plug ctx t)) (ht : t ≠ leaf) :
    ∃ n, s.node (addr t) = .ok n ∧ n.color = rootColor t ∧ n.parent = top ctx ∧
      ∀ d, n.child d = addr (child d t) := by
  obtain ⟨c, a, u, v, rfl⟩ := exists_branch .left ht
  refine ⟨_, (addr_branch .left c a u v).symm ▸ h.node_eq, ?_, cell_parent _ _ _ _ _ _, ?_⟩
  · rw [cell_color, rootColor_branch]
  · intro d
    cases d <;> rfl

/-- The root of the subtree in focus is painted. -/
theorem paint_spec (h : Represents s (plug ctx t)) (ht : t ≠ leaf) (c' : Color) :
    ∃ s', s.modify (addr t) (Node.setColor c') = .ok s' ∧ s'.root = s.root ∧
      Rearranges s (plug ctx t) s' (plug ctx (paint c' t)) := by
  obtain ⟨c, a, u, v, rfl⟩ := exists_branch .left ht
  obtain ⟨hctx, hshows, _⟩ := represents_plug.mp h
  obtain ⟨_, hu, hv⟩ := shows_branch.mp hshows
  have hplaced := h.placed
  have horder : inorder (plug ctx (branch .left c' a u v)) =
      inorder (plug ctx (branch .left c a u v)) :=
    inorder_plug_congr ctx (inorder_branch_color .left c' c a u v)
  rw [addr_branch, paint_branch]
  refine ⟨_, modify_eq h.heap_eq hplaced.nonzero _, rfl, represents_plug.mpr ⟨?_, ?_, ?_⟩, horder,
    touches_put s _ ?_⟩
  · rw [addr_branch] at hctx ⊢
    exact hctx.put hplaced.around _
  · refine shows_branch.mpr ⟨?_, hu.put hplaced.near _, hv.put hplaced.far _⟩
    rw [put_heap_self, cell_setColor]
  · exact h.spread (by rw [horder])
  · exact mem_ids_plug.mpr (Or.inl (mem_ids_branch.mpr (Or.inl rfl)))

/-- The data of the node in focus is overwritten. -/
theorem relabel_spec (h : Represents s (plug ctx (branch d c a t u))) (a' : Entry)
    (hid : a'.id = a.id) (f : Node → Node)
    (hf : f (cell d c a (top ctx) (addr t) (addr u)) = cell d c a' (top ctx) (addr t) (addr u)) :
    ∃ s', s.modify a.id f = .ok s' ∧ Represents s' (plug ctx (branch d c a' t u)) ∧
      Touches (· ∈ ids (plug ctx (branch d c a t u))) s s' := by
  obtain ⟨hctx, hshows, _⟩ := represents_plug.mp h
  obtain ⟨_, ht, hu⟩ := shows_branch.mp hshows
  have hplaced := h.placed
  have hsame : ids (branch d c a' t u) = ids (branch d c a t u) := by
    cases d <;> simp [branch, ids, hid]
  have hspread : Spread ctx (branch d c a' t u) := by
    have hspread := (represents_plug.mp h).2.2
    exact ⟨hsame ▸ hspread.nodup, hsame ▸ hspread.nonzero⟩
  refine ⟨_, modify_eq h.heap_eq hplaced.nonzero f, represents_plug.mpr ⟨?_, ?_, hspread⟩,
    touches_put s _ ?_⟩
  · rw [addr_branch] at hctx ⊢
    rw [hid]
    exact hctx.put hplaced.around _
  · rw [shows_branch, hid]
    refine ⟨?_, ht.put hplaced.near _, hu.put hplaced.far _⟩
    rw [put_heap_self, hf]
  · exact mem_ids_plug.mpr (Or.inl (mem_ids_branch.mpr (Or.inl rfl)))

theorem addr_mem_ids (ht : t ≠ leaf) : addr t ∈ ids t := by
  cases t with
  | leaf => exact absurd rfl ht
  | node c a l r => exact List.mem_cons_self

theorem addr_plug_mem (f : Frame Entry) (ctx : Context Entry) (t : EntryTree) :
    addr (plug (f :: ctx) t) ∈ contextIds (f :: ctx) := by
  induction ctx generalizing f t with
  | nil =>
    rw [plug_cons, plug_nil, addr_branch]
    exact List.mem_cons_self
  | cons g ctx ih =>
    refine List.mem_cons_of_mem _ (List.mem_append_right _ ?_)
    exact ih g _

/-- A node is told from its sibling by its address. -/
theorem Represents.ne_sibling {f : Frame Entry} (h : Represents s (plug (f :: ctx) t))
    (ht : t ≠ leaf) : addr t ≠ addr f.sibling := by
  have hspread := (represents_plug.mp h).2.2
  intro heq
  have hmem := addr_mem_ids ht
  by_cases hsib : f.sibling = leaf
  · rw [heq, hsib, addr_leaf] at hmem
    exact hspread.nonzero (List.mem_append_left _ hmem)
  · have hsmem : addr f.sibling ∈ contextIds (f :: ctx) :=
      List.mem_cons_of_mem _ (List.mem_append_left _ (addr_mem_ids hsib))
    exact (List.nodup_append.mp hspread.nodup).2.2 _ hmem _ (heq ▸ hsmem) rfl

/-- A node with a context is not the root, a node without one is. -/
theorem Represents.eq_root_iff (h : Represents s (plug ctx t)) (ht : t ≠ leaf) :
    addr t = s.root ↔ ctx = [] := by
  cases ctx with
  | nil => simp [h.root]
  | cons f ctx =>
    have hspread := (represents_plug.mp h).2.2
    have hroot : s.root ∈ contextIds (f :: ctx) := h.root ▸ addr_plug_mem f ctx t
    have hne : addr t ≠ s.root := fun heq =>
      (List.nodup_append.mp hspread.nodup).2.2 _ (addr_mem_ids ht) _ (heq ▸ hroot) rfl
    simp [hne]

end Focus

/-- The two nodes of a rotation and the three subtrees below them lie apart. -/
theorem Spread.pivot {ctx : Context Entry} {d e : Side} {c c' : Color} {a b : Entry}
    {t u v : EntryTree} (h : Spread ctx (branch d c a t (branch e c' b v u))) :
    a.id ≠ b.id ∧ a.id ∉ ids v ∧ a.id ∉ ids u ∧ b.id ≠ 0 ∧ b.id ∉ ids t ∧ b.id ∉ ids v ∧
      b.id ∉ ids u ∧ b.id ∉ contextIds ctx ∧ ∀ i ∈ ids u, i ∉ ids v := by
  have ha := h.placed
  have hdown : Spread (⟨d.flip, c, a, t⟩ :: ctx) (branch e c' b v u) := by
    rw [← branch_flip] at h
    exact h.down
  have hb := hdown.placed
  have hafar := ha.far
  have hbaround := hb.around
  simp only [mem_ids_branch, contextIds, List.mem_cons, List.mem_append, not_or] at hafar hbaround
  obtain ⟨hab, hav, hau⟩ := hafar
  obtain ⟨_, hbt, hbctx⟩ := hbaround
  exact ⟨hab, hav, hau, hb.nonzero, hbt, hb.near, hb.far, hbctx,
    fun i hi hi' => hb.apart i hi' hi⟩

/-- A rotation brings the far child of the node in focus up. -/
theorem rotate_spec {s : State} {ctx : Context Entry} {d : Side} {c c' : Color} {a b : Entry}
    {t u v : EntryTree}
    (h : Represents s (plug ctx (branch d c a t (branch d.flip c' b v u)))) :
    ∃ s', rotate d s a.id = .ok s' ∧
      Rearranges s (plug ctx (branch d c a t (branch d.flip c' b v u))) s'
        (plug ctx (branch d c' b (branch d c a t u) v)) := by
  obtain ⟨hctx, hshows, hspread⟩ := represents_plug.mp h
  obtain ⟨hanode, ht, hpivot⟩ := shows_branch.mp hshows
  obtain ⟨hbnode, hv, hu⟩ := shows_branch.mp hpivot
  have ha := hspread.placed
  obtain ⟨hab, hav, hau, hb, hbt, hbv, hbu, hbctx, huv⟩ := hspread.pivot
  have htu : ∀ i ∈ ids t, i ∉ ids u := fun i hi hi' =>
    ha.apart i hi (mem_ids_branch.mpr (Or.inr (Or.inr hi')))
  have huctx : ∀ i ∈ ids u, i ∉ contextIds ctx := fun i hi =>
    ha.far_around i (mem_ids_branch.mpr (Or.inr (Or.inr hi)))
  have hvctx : ∀ i ∈ ids v, i ∉ contextIds ctx := fun i hi =>
    ha.far_around i (mem_ids_branch.mpr (Or.inr (Or.inl hi)))
  have hctxNodup : (contextIds ctx).Nodup := hspread.nodup.of_append_right
  have hctxZero : 0 ∉ contextIds ctx := fun hz => hspread.nonzero (List.mem_append_right _ hz)
  have huSpread : (ids u).Nodup ∧ 0 ∉ ids u := by
    have hdown : Spread (⟨d.flip, c, a, t⟩ :: ctx) (branch d.flip c' b v u) := by
      rw [← branch_flip] at hspread
      exact hspread.down
    rw [branch_flip] at hdown
    exact ⟨hdown.down.nodup.of_append_left,
      fun hz => hdown.down.nonzero (List.mem_append_left _ hz)⟩
  rw [cell_flip] at hbnode
  rw [addr_branch] at hanode
  -- the inner subtree goes over to the node in focus
  let s₁ := s.put a.id (some (cell d c a (top ctx) (addr t) (addr u)))
  have hu₁ : Shows s₁.heap u b.id := hu.put hau _
  obtain ⟨s₂, hadopt, hroot₂, hu₂, htouch₂⟩ := adopt_spec hu₁ huSpread.1 huSpread.2 a.id
  have ha₂ : s₂.heap a.id = some (cell d c a (top ctx) (addr t) (addr u)) :=
    (htouch₂.heap _ hau).trans (put_heap_self _ _ _)
  have hb₂ : s₂.heap b.id = some (cell d c' b a.id (addr u) (addr v)) :=
    (htouch₂.heap _ hbu).trans ((put_heap_of_ne _ _ hab.symm).trans hbnode)
  -- the pivot takes its place below the context
  let s₃ := s₂.put b.id (some (cell d c' b (top ctx) (addr u) (addr v)))
  have ha₃ : s₃.heap a.id = some (cell d c a (top ctx) (addr t) (addr u)) :=
    (put_heap_of_ne _ _ hab).trans ha₂
  have hctx₂ : ShowsContext s₂ ctx a.id := by
    rw [addr_branch] at hctx
    exact (hctx.put ha.around _).congr hroot₂ fun i hi => htouch₂.heap i fun hi' => huctx i hi' hi
  obtain ⟨s₄, hreplace, hctx₄, htouch₄⟩ := replaceChild_spec ha₃ ha.nonzero (cell_parent _ _ _ _ _ _)
    (hctx₂.put hbctx _) ha.around hctxNodup hctxZero d b.id
  have ha₄ : s₄.heap a.id = some (cell d c a (top ctx) (addr t) (addr u)) :=
    (htouch₄.heap _ ha.around).trans ha₃
  have hb₄ : s₄.heap b.id = some (cell d c' b (top ctx) (addr u) (addr v)) :=
    (htouch₄.heap _ hbctx).trans (put_heap_self _ _ _)
  -- and the node in focus takes its place below the pivot
  let s₅ := s₄.put b.id (some (cell d c' b (top ctx) a.id (addr v)))
  have ha₅ : s₅.heap a.id = some (cell d c a (top ctx) (addr t) (addr u)) :=
    (put_heap_of_ne _ _ hab).trans ha₄
  let s₆ := s₅.put a.id (some (cell d c a b.id (addr t) (addr u)))
  have hrun : rotate d s a.id = .ok s₆ := by
    have h₀ : s.node a.id = .ok (cell d c a (top ctx) (addr t) b.id) :=
      TreeRepresentation.node_eq hanode ha.nonzero
    have h₀' : s.node b.id = .ok (cell d c' b a.id (addr u) (addr v)) :=
      TreeRepresentation.node_eq hbnode hb
    have h₁ : s.modify a.id (Node.setChild d.flip (addr u)) = .ok s₁ := by
      rw [modify_eq hanode ha.nonzero, cell_setChild_flip]
    have h₂ : s₂.node a.id = .ok (cell d c a (top ctx) (addr t) (addr u)) :=
      TreeRepresentation.node_eq ha₂ ha.nonzero
    have h₃ : s₂.modify b.id (Node.setParent (top ctx)) = .ok s₃ := by
      rw [modify_eq hb₂ hb, cell_setParent]
    have h₅ : s₄.modify b.id (Node.setChild d a.id) = .ok s₅ := by
      rw [modify_eq hb₄ hb, cell_setChild]
    have h₆ : s₅.modify a.id (Node.setParent b.id) = .ok s₆ := by
      rw [modify_eq ha₅ ha.nonzero, cell_setParent]
    simp only [rotate, h₀, ok_bind, cell_child_flip, h₀', cell_child, h₁, hadopt, h₂, cell_parent,
      h₃, hreplace, h₅, h₆]
  have haway : ∀ {w : EntryTree} {q : ℕ}, Shows s₂.heap w q → a.id ∉ ids w → b.id ∉ ids w →
      (∀ i ∈ ids w, i ∉ contextIds ctx) → Shows s₆.heap w q := by
    intro w q hw haw hbw hwctx
    exact (((hw.put hbw _).touch htouch₄ hwctx).put hbw _).put haw _
  have ht₆ : Shows s₆.heap t a.id :=
    haway ((ht.put ha.near _).touch htouch₂ htu) ha.near hbt ha.near_around
  have hu₆ : Shows s₆.heap u a.id := haway hu₂ hau hbu huctx
  have hv₆ : Shows s₆.heap v b.id :=
    haway ((hv.put hav _).touch htouch₂ fun i hi hi' => huv i hi' hi) hav hbv hvctx
  have horder : inorder (plug ctx (branch d c' b (branch d c a t u) v)) =
      inorder (plug ctx (branch d c a t (branch d.flip c' b v u))) := by
    apply inorder_plug_congr
    exact inorder_rotate d c c' a b t u v
  refine ⟨s₆, hrun, represents_plug.mpr ⟨?_, ?_, h.spread (by rw [horder])⟩, horder, ?_⟩
  · rw [addr_branch]
    exact (hctx₄.put hbctx _).put ha.around _
  · refine shows_branch.mpr ⟨?_, shows_branch.mpr ⟨put_heap_self _ _ _, ht₆, hu₆⟩, hv₆⟩
    rw [put_heap_of_ne _ _ hab.symm, put_heap_self, addr_branch]
  · have hmem : ∀ i, i = a.id ∨ i = b.id ∨ i ∈ ids u ∨ i ∈ contextIds ctx →
        i ∈ ids (plug ctx (branch d c a t (branch d.flip c' b v u))) := by
      intro i hi
      simp only [mem_ids_plug, mem_ids_branch]
      tauto
    exact ((((touches_put s _ (hmem _ (Or.inl rfl))).trans
      (htouch₂.mono fun i hi => hmem i (Or.inr (Or.inr (Or.inl hi))))).trans
      (touches_put s₂ _ (hmem _ (Or.inr (Or.inl rfl))))).trans
      (htouch₄.mono fun i hi => hmem i (Or.inr (Or.inr (Or.inr hi))))).trans
      ((touches_put s₄ _ (hmem _ (Or.inr (Or.inl rfl)))).trans
        (touches_put s₅ _ (hmem _ (Or.inl rfl))))

end Ppdb.TreeRepresentation
