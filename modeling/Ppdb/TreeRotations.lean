import Ppdb.TreeRepresentation

/-!
What a rotation does to every node in memory. Both trees are known, before and
after, so the change at each address is read off the two; and as the mirrored
rotation gives the first tree back, it gives the first memory back.
-/

namespace Ppdb.TreeRotations

open ColoredTrees ColorTree TreeOperations TreeRepresentation

def redirect (p q : ℕ) (m : Node) : Node :=
  if m.left = p then m.setChild .left q else m.setChild .right q

/-- The node `n` at `p` has gone down to the side `d`, below its other child
`r`; all fields but the links between the two, the child of `r` that comes
between them and the parent of `n` are as before. -/
structure Turned (d : Side) (s : State) (p : ℕ) (n r : Node) (s' : State) : Prop where
  fallen : s'.heap p = some ((n.setChild d.flip (r.child d)).setParent (n.child d.flip))
  risen : s'.heap (n.child d.flip) = some ((r.setChild d p).setParent n.parent)
  inner : r.child d ≠ 0 → ∃ m, s.heap (r.child d) = some m ∧
    s'.heap (r.child d) = some (m.setParent p)
  above : n.parent ≠ 0 → ∃ m, s.heap n.parent = some m ∧
    s'.heap n.parent = some (redirect p (n.child d.flip) m)
  root : s'.root = if n.parent = 0 then n.child d.flip else s.root
  size : s'.size = s.size
  others : ∀ i, i ≠ p → i ≠ n.child d.flip → (i = r.child d → i = 0) → (i = n.parent → i = 0) →
    s'.heap i = s.heap i

/-- Every node of a tree has a context. -/
theorem exists_focus (d : Side) {t : EntryTree} {p : ℕ} (hp : p ∈ ids t) :
    ∃ ctx c a u v, t = plug ctx (branch d c a u v) ∧ a.id = p := by
  induction t with
  | leaf => cases hp
  | node c a l r ihl ihr =>
    rcases List.mem_cons.mp hp with rfl | hp
    · cases d with
      | left => exact ⟨[], c, a, l, r, rfl, rfl⟩
      | right => exact ⟨[], c, a, r, l, rfl, rfl⟩
    · rcases List.mem_append.mp hp with hp | hp
      · obtain ⟨ctx, c', b, u, v, rfl, hb⟩ := ihl hp
        let f : Frame Entry := ⟨.left, c, a, r⟩
        exact ⟨ctx ++ [f], c', b, u, v, (plug_append ctx [f] _).symm, hb⟩
      · obtain ⟨ctx, c', b, u, v, rfl, hb⟩ := ihr hp
        let f : Frame Entry := ⟨.right, c, a, l⟩
        exact ⟨ctx ++ [f], c', b, u, v, (plug_append ctx [f] _).symm, hb⟩

/-! ### Two states that show the same tree -/

section Same
variable {heap heap' : ℕ → Option Node} {s s' : State}

theorem heap_eq_of_shows {t : EntryTree} {p : ℕ} (h : Shows heap t p) (h' : Shows heap' t p) :
    ∀ i ∈ ids t, heap' i = heap i := by
  induction t generalizing p with
  | leaf => exact fun _ hi => (nomatch hi)
  | node c a l r ihl ihr =>
    obtain ⟨hnode, hl, hr⟩ := h
    obtain ⟨hnode', hl', hr'⟩ := h'
    intro i hi
    rcases List.mem_cons.mp hi with rfl | hi
    · exact hnode'.trans hnode.symm
    · rcases List.mem_append.mp hi with hi | hi
      · exact ihl hl hl' i hi
      · exact ihr hr hr' i hi

/-- A subtree hung below another node differs in the link of its root alone. -/
theorem heap_moved_of_shows {t : EntryTree} {p q : ℕ} (h : Shows heap t p) (h' : Shows heap' t q) :
    (addr t ≠ 0 → ∃ m, heap (addr t) = some m ∧ heap' (addr t) = some (m.setParent q)) ∧
      ∀ i ∈ ids t, i ≠ addr t → heap' i = heap i := by
  cases t with
  | leaf => exact ⟨fun hne => absurd rfl hne, fun _ hi => (nomatch hi)⟩
  | node c a l r =>
    obtain ⟨hnode, hl, hr⟩ := h
    obtain ⟨hnode', hl', hr'⟩ := h'
    refine ⟨fun _ => ⟨_, hnode, hnode'⟩, ?_⟩
    intro i hi hne
    rcases List.mem_append.mp ((List.mem_cons.mp hi).resolve_left hne) with hi | hi
    · exact heap_eq_of_shows hl hl' i hi
    · exact heap_eq_of_shows hr hr' i hi

theorem heap_eq_of_context {ctx : Context Entry} {hole : ℕ} (h : ShowsContext s ctx hole)
    (h' : ShowsContext s' ctx hole) : ∀ i ∈ contextIds ctx, s'.heap i = s.heap i := by
  induction ctx generalizing hole with
  | nil => exact fun _ hi => (nomatch hi)
  | cons f ctx ih =>
    obtain ⟨hnode, hsib, hctx⟩ := h
    obtain ⟨hnode', hsib', hctx'⟩ := h'
    intro i hi
    rcases List.mem_cons.mp hi with rfl | hi
    · exact hnode'.trans hnode.symm
    · rcases List.mem_append.mp hi with hi | hi
      · exact heap_eq_of_shows hsib hsib' i hi
      · exact ih hctx hctx' i hi

theorem root_eq_of_context {ctx : Context Entry} {hole : ℕ} (h : ShowsContext s ctx hole)
    (h' : ShowsContext s' ctx hole) : s'.root = s.root := by
  induction ctx generalizing hole with
  | nil => exact Eq.trans h' (Eq.symm h)
  | cons f ctx ih => exact ih h.2.2 h'.2.2

theorem redirect_cell {d : Side} {c : Color} {a : Entry} {p near far : ℕ} (q : ℕ)
    (h : near ≠ far) : redirect near q (cell d c a p near far) = cell d c a p q far := by
  cases d with
  | left => exact if_pos rfl
  | right => exact if_neg h.symm

/-- Around another subtree a context differs in the one link to it. -/
theorem heap_moved_of_context {ctx : Context Entry} {p q : ℕ} (h : ShowsContext s ctx p)
    (h' : ShowsContext s' ctx q) (hp : p ≠ 0) (haround : p ∉ contextIds ctx) :
    (top ctx ≠ 0 → ∃ m, s.heap (top ctx) = some m ∧ s'.heap (top ctx) = some (redirect p q m)) ∧
      ∀ i ∈ contextIds ctx, i ≠ top ctx → s'.heap i = s.heap i := by
  cases ctx with
  | nil => exact ⟨fun hne => absurd rfl hne, fun _ hi => (nomatch hi)⟩
  | cons f ctx =>
    obtain ⟨hnode, hsib, hctx⟩ := h
    obtain ⟨hnode', hsib', hctx'⟩ := h'
    have hne : p ≠ addr f.sibling := by
      intro heq
      cases hleaf : f.sibling with
      | leaf => exact hp (by rw [heq, hleaf, addr_leaf])
      | node c a l r =>
        apply haround
        have hmem : addr f.sibling ∈ ids f.sibling := addr_mem_ids (by simp [hleaf])
        exact List.mem_cons_of_mem _ (List.mem_append_left _ (heq ▸ hmem))
    refine ⟨fun _ => ⟨_, hnode, hnode'.trans ?_⟩, ?_⟩
    · rw [redirect_cell q hne]
    · intro i hi htop
      rcases List.mem_append.mp ((List.mem_cons.mp hi).resolve_left htop) with hi | hi
      · exact heap_eq_of_shows hsib hsib' i hi
      · exact heap_eq_of_context hctx hctx' i hi

/-- A state is known from the tree it holds and the memory outside. -/
theorem eq_of_represents {t : EntryTree} (h : Represents s t) (h' : Represents s' t)
    (hsize : s'.size = s.size) (houtside : ∀ i, i ∉ ids t → s'.heap i = s.heap i) : s' = s := by
  have hheap : s'.heap = s.heap := by
    funext i
    by_cases hi : i ∈ ids t
    · exact heap_eq_of_shows h.shows h'.shows i hi
    · exact houtside i hi
  have hroot : s'.root = s.root := h'.root.trans h.root.symm
  calc
    s' = ⟨s'.root, s'.size, s'.heap⟩ := rfl
    _ = s := by rw [hroot, hsize, hheap]

end Same

/-! ### One rotation -/

section Rotation
variable {s s' : State} {ctx : Context Entry} {d : Side} {c c' : Color} {a b : Entry}
  {t u v : EntryTree}

/-- The change at every address, read off the trees before and after. -/
theorem turned_of_represents (h : Represents s (plug ctx (branch d c a t (branch d.flip c' b v u))))
    (h' : Represents s' (plug ctx (branch d c' b (branch d c a t u) v)))
    (htouch : Touches (· ∈ ids (plug ctx (branch d c a t (branch d.flip c' b v u)))) s s') :
    Turned d s a.id (cell d c a (top ctx) (addr t) b.id) (cell d c' b a.id (addr u) (addr v))
      s' := by
  obtain ⟨hctx, hshows, hspread⟩ := represents_plug.mp h
  obtain ⟨hctx', hshows', _⟩ := represents_plug.mp h'
  obtain ⟨ha, ht, hpivot⟩ := shows_branch.mp hshows
  obtain ⟨hb, hv, hu⟩ := shows_branch.mp hpivot
  obtain ⟨hb', hdown, hv'⟩ := shows_branch.mp hshows'
  obtain ⟨ha', ht', hu'⟩ := shows_branch.mp hdown
  have hplaced := hspread.placed
  rw [addr_branch] at hctx hctx' hb'
  obtain ⟨hinner, hbelow⟩ := heap_moved_of_shows hu hu'
  obtain ⟨habove, haround⟩ :=
    heap_moved_of_context hctx hctx' hplaced.nonzero hplaced.around
  refine ⟨?_, ?_, ?_, ?_, ?_, htouch.size, ?_⟩
  · simpa using ha'
  · simpa using hb'
  · simpa using hinner
  · simpa using habove
  · rw [cell_parent, cell_child_flip]
    cases ctx with
    | nil => exact hctx'
    | cons f ctx =>
      have hid : f.label.id ≠ 0 := fun hz =>
        hspread.nonzero (List.mem_append_right _ (hz ▸ List.mem_cons_self))
      exact (root_eq_of_context hctx.2.2 hctx'.2.2).trans (if_neg hid).symm
  · intro i hia hib hiu hitop
    simp only [cell_child_flip, cell_child, cell_parent] at hib hiu hitop
    by_cases hi : i ∈ ids (plug ctx (branch d c a t (branch d.flip c' b v u)))
    · have hi0 : i ≠ 0 := fun hz => h.nonzero ((ids_perm _).mem_iff.mp (hz ▸ hi))
      simp only [mem_ids_plug, mem_ids_branch] at hi
      rcases hi with (hi | hi | hi | hi | hi) | hi
      · exact absurd hi hia
      · exact heap_eq_of_shows ht ht' i hi
      · exact absurd hi hib
      · exact heap_eq_of_shows hv hv' i hi
      · exact hbelow i hi fun heq => hi0 (hiu heq)
      · exact haround i hi fun heq => hi0 (hitop heq)
    · exact htouch.heap i hi

end Rotation

/-- A rotation at a node that has the child to be raised succeeds, the order of
the nodes stays, only the links around the two nodes change, and the mirrored
rotation at the raised node gives the same state back. -/
theorem rotate_turns (d : Side) {s : State} {t : EntryTree} (h : Represents s t) {p : ℕ} {n : Node}
    (hp : p ∈ ids t) (hn : s.heap p = some n) (hchild : n.child d.flip ≠ 0) :
    ∃ r s' t', s.heap (n.child d.flip) = some r ∧ rotate d s p = .ok s' ∧ Represents s' t' ∧
      inorder t' = inorder t ∧ Turned d s p n r s' ∧
      rotate d.flip s' (n.child d.flip) = .ok s := by
  obtain ⟨ctx, c, a, u, w, rfl, rfl⟩ := exists_focus d hp
  obtain rfl : cell d c a (top ctx) (addr u) (addr w) = n :=
    Option.some.inj (h.heap_eq.symm.trans hn)
  rw [cell_child_flip] at hchild ⊢
  have hw : w ≠ leaf := fun hleaf => hchild (by rw [hleaf, addr_leaf])
  obtain ⟨c', b, v, x, rfl⟩ := exists_branch d.flip hw
  rw [addr_branch]
  obtain ⟨s', hrun, hrearr⟩ := rotate_spec h
  have h' := hrearr.represents
  have hturned := turned_of_represents h h' hrearr.touches
  have hpivot : s.heap b.id = some (cell d c' b a.id (addr x) (addr v)) := by
    have hshows := (shows_branch.mp (represents_plug.mp h).2.1).2.2
    rw [← cell_flip]
    exact (shows_branch.mp hshows).1
  -- seen from the raised node, the new tree is one to be turned back
  have hback : Represents s' (plug ctx (branch d.flip c' b v (branch d.flip.flip c a u x))) := by
    rw [Side.flip_flip, branch_flip]
    exact h'
  obtain ⟨s'', hrun', hrearr'⟩ := rotate_spec hback
  have hsame : s'' = s := by
    have hrep := hrearr'.represents
    rw [branch_flip] at hrep
    refine eq_of_represents h hrep (hrearr'.touches.size.trans hrearr.touches.size) ?_
    intro i hi
    have hi' : i ∉ ids (plug ctx (branch d.flip c' b v (branch d.flip.flip c a u x))) := by
      rw [Side.flip_flip, branch_flip, hrearr.mem_ids]
      exact hi
    exact (hrearr'.touches.heap i hi').trans (hrearr.touches.heap i hi)
  exact ⟨_, s', _, hpivot, hrun, h', hrearr.inorder, hturned, hsame ▸ hrun'⟩

/-- `rotate_left` at any node with a right child and `rotate_right` at any node
with a left child: the tree keeps its order and stays linked at every node, no
other links change, and the other rotation at the risen node undoes it. -/
theorem rotations_inverse {s : State} {t : EntryTree} (h : Represents s t) {p : ℕ} {n : Node}
    (hp : p ∈ ids t) (hn : s.heap p = some n) :
    (n.right ≠ 0 → ∃ r s' t', s.heap n.right = some r ∧ rotateLeft s p = .ok s' ∧
      Represents s' t' ∧ inorder t' = inorder t ∧ Turned .left s p n r s' ∧
      rotateRight s' n.right = .ok s) ∧
    (n.left ≠ 0 → ∃ r s' t', s.heap n.left = some r ∧ rotateRight s p = .ok s' ∧
      Represents s' t' ∧ inorder t' = inorder t ∧ Turned .right s p n r s' ∧
      rotateLeft s' n.left = .ok s) :=
  ⟨rotate_turns .left h hp hn, rotate_turns .right h hp hn⟩

def fourNodes : State where
  root := 10
  size := 4
  heap p :=
    if p = 10 then some ⟨1, 0, .black, 0, 0, 30⟩
    else if p = 30 then some ⟨3, 0, .red, 10, 20, 40⟩
    else if p = 20 then some ⟨2, 0, .black, 30, 0, 0⟩
    else if p = 40 then some ⟨4, 0, .black, 30, 0, 0⟩
    else none

/-- The root is turned to the left, with node 2 between the two nodes. -/
theorem rotations_inverse_root : ∃ r s' t', fourNodes.heap 30 = some r ∧
    rotateLeft fourNodes 10 = .ok s' ∧ Represents s' t' ∧ s'.root = 30 ∧
    rotateRight s' 30 = .ok fourNodes := by
  have hrep : Represents fourNodes (node .black ⟨10, 1, 0⟩ leaf
      (node .red ⟨30, 3, 0⟩ (node .black ⟨20, 2, 0⟩ leaf leaf)
        (node .black ⟨40, 4, 0⟩ leaf leaf))) :=
    ⟨rfl, by decide, by decide, by decide⟩
  have hn : fourNodes.heap 10 = some ⟨1, 0, .black, 0, 0, 30⟩ := by decide
  obtain ⟨r, s', t', hr, hrun, h', _, hturned, hback⟩ :=
    (rotations_inverse hrep (by decide) hn).1 (by decide)
  exact ⟨r, s', t', hr, hrun, h', hturned.root, hback⟩

end Ppdb.TreeRotations
