import Ppdb.TreeRepresentation
import Mathlib.Data.Int.Order.Basic

/-!
Insertion in the heap. The loop of `fix_insert` is followed step by step
through the tree it works on: it computes the repair of that tree, or follows
a null pointer where the repair is stuck. The search, the new leaf and the
repair then make up `infra_rbtree_insert`.
-/

namespace Ppdb.TreeInsertion

open ColoredTrees ColorTree RedBlackTrees TreeOperations TreeRepresentation EventualResults

section Side
variable {s : State} {f g : Frame Entry} {ctx : Context Entry} {t : EntryTree}

/-- The uncle is tested for null before its colour is read. -/
theorem isRed_spec {d : Side} {c : Color} {a : Entry} {u : EntryTree}
    (h : Represents s (plug (⟨d, c, a, u⟩ :: ctx) t)) :
    isRed s (addr u) = .ok (decide (rootColor u = .red)) := by
  rw [plug_sibling] at h
  by_cases hu : u = leaf
  · simp [hu, isRed, rootColor]
  · obtain ⟨n, hnode, hcolor, _⟩ := h.root_node hu
    have hne : addr u ≠ 0 := by
      intro hz
      rw [hz, node_null] at hnode
      cases hnode
    simp [isRed, hne, hnode, hcolor]

/-- Below a red uncle the parent and the uncle are painted black, the
grandparent red. -/
theorem fixInsertSide_recolor (h : Represents s (plug (f :: g :: ctx) t)) (ht : t ≠ leaf)
    (huncle : rootColor g.sibling = .red) :
    ∃ s', fixInsertSide g.side s (addr t) = .ok (s', g.label.id) ∧
      Rearranges s (plug (f :: g :: ctx) t) s'
        (plug ctx (branch g.side .red g.label (branch f.side .black f.label t f.sibling)
          (paint .black g.sibling))) := by
  have hparent : Represents s (plug (g :: ctx) (branch f.side f.color f.label t f.sibling)) := h
  have hgrand : Represents s (plug ctx (branch g.side g.color g.label
    (branch f.side f.color f.label t f.sibling) g.sibling)) := h
  have hune : g.sibling ≠ leaf := fun hz => by simp [hz, rootColor] at huncle
  obtain ⟨n, hnode, _, hpar, _⟩ := h.root_node ht
  obtain ⟨s₁, h₁, _, hr₁⟩ := paint_spec hparent (branch_ne_leaf _ _ _ _ _) .black
  rw [paint_branch] at hr₁
  have hsib := hr₁.represents
  rw [plug_sibling] at hsib
  obtain ⟨s₂, h₂, _, hr₂⟩ := paint_spec hsib hune .black
  rw [← plug_sibling, ← plug_sibling] at hr₂
  have hgrand₂ : Represents s₂ (plug ctx (branch g.side g.color g.label
    (branch f.side .black f.label t f.sibling) (paint .black g.sibling))) := hr₂.represents
  obtain ⟨s₃, h₃, _, hr₃⟩ := paint_spec hgrand₂ (branch_ne_leaf _ _ _ _ _) .red
  rw [paint_branch] at hr₃
  rw [addr_branch] at h₁ h₃
  have hred := isRed_spec hgrand
  refine ⟨s₃, ?_, hr₁.trans (hr₂.trans hr₃)⟩
  have hp : n.parent = f.label.id := hpar
  have hg := hgrand.node_eq
  have hf := hparent.node_eq
  have hgp : top (g :: ctx) = g.label.id := rfl
  simp only [fixInsertSide, hnode, hp, hf, hg, ok_bind, cell_parent, hgp, cell_child_flip, hred,
    huncle, h₁, h₂, h₃]
  rfl

theorem raiseParent_spec {d : Side} {gc pc : Color} {a p : Entry} {x y u : EntryTree}
    (h : Represents s (plug ctx (branch d gc a (branch d pc p x y) u))) (hx : x ≠ leaf) :
    ∃ s', raiseParent d s (addr x) = .ok s' ∧
      Rearranges s (plug ctx (branch d gc a (branch d pc p x y) u)) s'
        (plug ctx (branch d .black p x (branch d .red a y u))) := by
  have hnode : Represents s (plug (⟨d, pc, p, y⟩ :: ⟨d, gc, a, u⟩ :: ctx) x) := h
  have hparent : Represents s (plug (⟨d, gc, a, u⟩ :: ctx) (branch d pc p x y)) := h
  obtain ⟨n, hn, _, hpar, _⟩ := hnode.root_node hx
  obtain ⟨s₁, h₁, _, hr₁⟩ := paint_spec hparent (branch_ne_leaf _ _ _ _ _) .black
  rw [paint_branch] at hr₁
  have hparent₁ := hr₁.represents.node_eq
  have hgrand₁ : Represents s₁ (plug ctx (branch d gc a (branch d .black p x y) u)) :=
    hr₁.represents
  obtain ⟨s₂, h₂, _, hr₂⟩ := paint_spec hgrand₁ (branch_ne_leaf _ _ _ _ _) .red
  rw [paint_branch] at hr₂
  -- seen from the other side, the parent is the pivot of the rotation
  have hturn : branch d .red a (branch d .black p x y) u =
      branch d.flip .red a u (branch d.flip.flip .black p x y) := by
    rw [branch_flip, Side.flip_flip]
  have hrep := hr₂.represents
  rw [hturn] at hrep hr₂
  obtain ⟨s₃, h₃, hr₃⟩ := rotate_spec hrep
  have hback : branch d.flip .black p (branch d.flip .red a u y) x =
      branch d .black p x (branch d .red a y u) := by
    rw [branch_flip, branch_flip]
  rw [hback] at hr₃
  refine ⟨s₃, ?_, hr₁.trans (hr₂.trans hr₃)⟩
  have hp : n.parent = p.id := hpar
  have hg : top (⟨d, gc, a, u⟩ :: ctx) = a.id := rfl
  rw [addr_branch] at h₁ h₂
  simp only [raiseParent, hn, ok_bind, hp, h₁, hparent₁, cell_parent, hg, h₂, h₃]

/-- Otherwise the tree is lifted; the loop goes on below a black parent. -/
theorem fixInsertSide_lift (h : Represents s (plug (f :: g :: ctx) t)) (ht : t ≠ leaf)
    (hf : f.color = .red) (huncle : rootColor g.sibling ≠ .red) :
    ∃ s' f' t', fixInsertSide g.side s (addr t) = .ok (s', addr t') ∧ t' ≠ leaf ∧
      f'.color = .black ∧ plug (f' :: ctx) t' = plug ctx (lift g f t) ∧
      Rearranges s (plug (f :: g :: ctx) t) s' (plug ctx (lift g f t)) := by
  obtain ⟨d, gc, a, u⟩ := g
  obtain ⟨e, fc, p, y⟩ := f
  have hc : fc = .red := hf
  have hparent : Represents s (plug (⟨d, gc, a, u⟩ :: ctx) (branch e fc p t y)) := h
  have hgrand : Represents s (plug ctx (branch d gc a (branch e fc p t y) u)) := h
  obtain ⟨n, hn, _, hpar, _⟩ := h.root_node ht
  have hne := h.ne_sibling ht
  have hblack := isRed_spec hgrand
  have hp : n.parent = p.id := hpar
  have hg : top (⟨d, gc, a, u⟩ :: ctx) = a.id := rfl
  have hcond : decide (rootColor u = .red) = false := decide_eq_false huncle
  rcases Side.eq_or_eq_flip d e with rfl | rfl
  · obtain ⟨s', hraise, hr⟩ := raiseParent_spec hgrand ht
    rw [lift_outer (g := ⟨e, gc, a, u⟩) (f := ⟨e, fc, p, y⟩) rfl t]
    refine ⟨s', ⟨e, .black, p, branch e .red a y u⟩, t, ?_, ht, rfl, rfl, hr⟩
    · have hturn : turnOut e s (addr t) = .ok (s, addr t) := by
        have hneq : ¬ addr t = (cell e fc p a.id (addr t) (addr y)).child e.flip := by
          rwa [cell_child_flip]
        simp only [turnOut, hn, ok_bind, hp, hparent.node_eq, hg, if_neg hneq]
      simp only [fixInsertSide, hn, ok_bind, hp, hparent.node_eq, cell_parent, hg, hgrand.node_eq,
        cell_child_flip, hblack, hcond, hturn, hraise]
      rfl
  · obtain ⟨zc, z, x, v, rfl⟩ := exists_branch d ht
    have hshape : branch d.flip fc p (branch d zc z x v) y =
        branch d fc p y (branch d.flip zc z v x) := by
      rw [branch_flip, branch_flip]
    have hinner : Represents s (plug (⟨d, gc, a, u⟩ :: ctx)
        (branch d fc p y (branch d.flip zc z v x))) := hshape ▸ hparent
    obtain ⟨s₁, hrot, hr₁⟩ := rotate_spec hinner
    rw [← hshape] at hr₁
    have hrep₁ : Represents s₁ (plug ctx (branch d gc a (branch d zc z (branch d fc p y x) v) u)) :=
      hr₁.represents
    obtain ⟨s₂, hraise, hr₂⟩ := raiseParent_spec hrep₁ (branch_ne_leaf _ _ _ _ _)
    rw [addr_branch] at hraise hn
    rw [lift_inner (g := ⟨d, gc, a, u⟩) (f := ⟨d.flip, fc, p, y⟩) rfl d rfl zc z x v]
    rw [hc] at hr₂
    refine ⟨s₂, ⟨d, .black, z, branch d .red a v u⟩, branch d .red p y x, ?_,
      branch_ne_leaf _ _ _ _ _, rfl, rfl, ?_⟩
    · have hturn : turnOut d s z.id = .ok (s₁, p.id) := by
        have heq : z.id = (cell d.flip fc p a.id z.id (addr y)).child d.flip := by rw [cell_child]
        have hnode := hparent.node_eq
        rw [hg, addr_branch] at hnode
        simp only [turnOut, hn, ok_bind, hp, hnode, if_pos heq, hrot]
      rw [addr_branch, addr_branch]
      simp only [fixInsertSide, hn, ok_bind, hp, hparent.node_eq, cell_parent, hg, hgrand.node_eq,
        cell_child_flip, hblack, hcond, hturn, hraise]
      rfl
    · rw [hc] at hr₁ ⊢
      exact hr₁.trans hr₂

end Side

/-! ### The loop -/

section Loop
variable {s : State} {ctx : Context Entry} {t : EntryTree}

/-- The loop stops at the root and below a black parent. -/
theorem fixInsertLoop_exit (h : Represents s (plug ctx t)) (ht : t ≠ leaf)
    (hstop : ∀ f ∈ ctx.head?, f.color ≠ .red) (fuel : ℕ) :
    fixInsertLoop (fuel + 1) s (addr t) = .ok s := by
  have hroot := h.eq_root_iff ht
  cases ctx with
  | nil => rw [fixInsertLoop, if_pos (hroot.mpr rfl)]
  | cons f ctx =>
    have hne : ¬ addr t = s.root := mt hroot.mp (List.cons_ne_nil f ctx)
    have hparent : Represents s (plug ctx (branch f.side f.color f.label t f.sibling)) := h
    obtain ⟨n, hn, _, hpar, _⟩ := h.root_node ht
    have hp : n.parent = f.label.id := hpar
    have hblack : f.color ≠ .red := hstop f rfl
    simp only [fixInsertLoop, if_neg hne, hn, ok_bind, hp, hparent.node_eq, cell_color,
      if_neg hblack]

/-- Where the loop stops at once nothing is changed. -/
theorem fixInsertLoop_done (h : Represents s (plug ctx t)) (ht : t ≠ leaf)
    (hstop : ∀ f ∈ ctx.head?, f.color ≠ .red) {u : EntryTree} (hu : plug ctx t = u) :
    ∃ s', (∀ fuel, ctx.length < fuel → fixInsertLoop fuel s (addr t) = .ok s') ∧
      Rearranges s (plug ctx t) s' u := by
  refine ⟨s, fun fuel hfuel => ?_, ?_⟩
  · obtain ⟨k, rfl⟩ := Nat.exists_eq_succ_of_ne_zero (Nat.ne_of_gt (Nat.zero_lt_of_lt hfuel))
    exact fixInsertLoop_exit h ht hstop k
  · rw [← hu]
    exact Rearranges.refl h

/-- A red parent that is the root has no parent to compare with. -/
theorem fixInsertLoop_stuck {f : Frame Entry} (h : Represents s (plug [f] t)) (ht : t ≠ leaf)
    (hf : f.color = .red) (fuel : ℕ) :
    fixInsertLoop (fuel + 1) s (addr t) = .error .nullDeref := by
  have hne : ¬ addr t = s.root := mt (h.eq_root_iff ht).mp (List.cons_ne_nil f [])
  have hparent : Represents s (plug [] (branch f.side f.color f.label t f.sibling)) := h
  obtain ⟨n, hn, _, hpar, _⟩ := h.root_node ht
  have hp : n.parent = f.label.id := hpar
  simp only [fixInsertLoop, if_neg hne, hn, ok_bind, hp, hparent.node_eq, cell_color, if_pos hf,
    cell_parent, top, node_null, error_bind]

/-- One iteration below a red parent, on the side the parent is on. -/
theorem fixInsertLoop_step {f g : Frame Entry} (h : Represents s (plug (f :: g :: ctx) t))
    (ht : t ≠ leaf) (hf : f.color = .red) (fuel : ℕ) :
    fixInsertLoop (fuel + 1) s (addr t) =
      (fixInsertSide g.side s (addr t) >>= fun r => fixInsertLoop fuel r.1 r.2) := by
  have hne : ¬ addr t = s.root := mt (h.eq_root_iff ht).mp (List.cons_ne_nil f (g :: ctx))
  have hparent : Represents s (plug (g :: ctx) (branch f.side f.color f.label t f.sibling)) := h
  have hgrand : Represents s (plug ctx (branch g.side g.color g.label
    (branch f.side f.color f.label t f.sibling) g.sibling)) := h
  obtain ⟨n, hn, _, hpar, _⟩ := h.root_node ht
  have hp : n.parent = f.label.id := hpar
  have hg : top (g :: ctx) = g.label.id := rfl
  have hside := hparent.ne_sibling (branch_ne_leaf _ _ _ _ _)
  rw [addr_branch] at hside
  have hgnode := hgrand.node_eq
  rw [addr_branch] at hgnode
  simp only [fixInsertLoop, if_neg hne, hn, ok_bind, hp, hparent.node_eq, cell_color, if_pos hf,
    cell_parent, hg, hgnode, cell_side _ _ _ _ _ _ hside]

/-- The loop computes the repair, in at most one iteration a level. -/
theorem fixInsertLoop_spec (h : Represents s (plug ctx t)) (ht : t ≠ leaf) :
    (repair ctx t = none → ∀ fuel, ctx.length < fuel →
      fixInsertLoop fuel s (addr t) = .error .nullDeref) ∧
    ∀ u, repair ctx t = some u → ∃ s', (∀ fuel, ctx.length < fuel →
      fixInsertLoop fuel s (addr t) = .ok s') ∧ Rearranges s (plug ctx t) s' u := by
  have hdec : ∀ {n fuel : ℕ}, n < fuel → ∃ k, fuel = k + 1 ∧ n ≤ k :=
    fun {n fuel} hlt => ⟨fuel - 1, by omega, by omega⟩
  induction ctx, t using repair.induct generalizing s with
  | case1 t =>
    refine ⟨fun hnone => absurd hnone (by simp [repair]), fun u hu => ?_⟩
    exact fixInsertLoop_done h ht (by simp) (Option.some.inj hu)
  | case2 f t hf =>
    refine ⟨fun _ fuel hfuel => ?_, fun u hu => absurd hu (by simp [repair, hf])⟩
    obtain ⟨k, rfl, _⟩ := hdec hfuel
    exact fixInsertLoop_stuck h ht hf k
  | case3 f t hf =>
    rw [repair, if_neg hf]
    refine ⟨fun hnone => absurd hnone (by simp), fun u hu => ?_⟩
    exact fixInsertLoop_done h ht (by simpa using hf) (Option.some.inj hu)
  | case4 f g ctx t hf hg ih =>
    rw [repair, if_pos hf, if_pos hg]
    obtain ⟨s₁, hstep, hr⟩ := fixInsertSide_recolor h ht hg
    have hloop : ∀ fuel, fixInsertLoop (fuel + 1) s (addr t) =
        fixInsertLoop fuel s₁ (addr (branch g.side .red g.label
          (branch f.side .black f.label t f.sibling) (paint .black g.sibling))) := by
      intro fuel
      rw [fixInsertLoop_step h ht hf, hstep, addr_branch]
      rfl
    obtain ⟨hstuck, hdone⟩ := ih hr.represents (branch_ne_leaf _ _ _ _ _)
    constructor
    · intro hnone fuel hfuel
      obtain ⟨k, rfl, hk⟩ := hdec hfuel
      rw [hloop]
      exact hstuck hnone k (by simp at hk; omega)
    · intro u hu
      obtain ⟨s', hrun, hr'⟩ := hdone u hu
      refine ⟨s', ?_, hr.trans hr'⟩
      intro fuel hfuel
      obtain ⟨k, rfl, hk⟩ := hdec hfuel
      rw [hloop]
      exact hrun k (by simp at hk; omega)
  | case5 f g ctx t hf hg =>
    rw [repair, if_pos hf, if_neg hg]
    obtain ⟨s₁, f', t', hstep, ht', hf', heq, hr⟩ := fixInsertSide_lift h ht hf hg
    refine ⟨fun hnone => absurd hnone (by simp), fun u hu => ⟨s₁, fun fuel hfuel => ?_, ?_⟩⟩
    · obtain ⟨k, rfl, hk⟩ := hdec hfuel
      obtain ⟨k, rfl, _⟩ := hdec (show 0 < k by simp at hk; omega)
      have hrep : Represents s₁ (plug (f' :: ctx) t') := heq ▸ hr.represents
      rw [fixInsertLoop_step h ht hf, hstep]
      exact fixInsertLoop_exit hrep ht' (by simp [hf']) k
    · rw [← Option.some.inj hu]
      exact hr
  | case6 f g ctx t hf =>
    rw [repair, if_neg hf]
    refine ⟨fun hnone => absurd hnone (by simp), fun u hu => ?_⟩
    exact fixInsertLoop_done h ht (by simpa using hf) (Option.some.inj hu)

end Loop

theorem repair_ne_leaf {ctx : Context Entry} {t u : EntryTree} (ht : t ≠ leaf)
    (h : repair ctx t = some u) : u ≠ leaf := by
  rintro rfl
  have horder := inorder_repair ht h
  rw [inorder_plug] at horder
  obtain ⟨c, a, l, r, rfl⟩ := exists_branch .left ht
  simp [inorder, branch] at horder

/-- `fix_insert` computes the repair and paints the root. -/
theorem fixInsert_spec {s : State} {ctx : Context Entry} {t : EntryTree}
    (h : Represents s (plug ctx t)) (ht : t ≠ leaf) :
    (repair ctx t = none → ∀ fuel, ctx.length < fuel →
      fixInsert fuel s (addr t) = .error .nullDeref) ∧
    ∀ u, repair ctx t = some u → ∃ s', (∀ fuel, ctx.length < fuel →
      fixInsert fuel s (addr t) = .ok s') ∧ Rearranges s (plug ctx t) s' (paint .black u) := by
  obtain ⟨hstuck, hdone⟩ := fixInsertLoop_spec h ht
  constructor
  · intro hnone fuel hfuel
    rw [fixInsert, hstuck hnone fuel hfuel, error_bind]
  · intro u hu
    obtain ⟨s₁, hloop, hr⟩ := hdone u hu
    have hroot : Represents s₁ (plug [] u) := hr.represents
    obtain ⟨s₂, hpaint, _, hr₂⟩ := paint_spec hroot (repair_ne_leaf ht hu) .black
    refine ⟨s₂, ?_, hr.trans hr₂⟩
    intro fuel hfuel
    rw [fixInsert, hloop fuel hfuel, ok_bind, hr.represents.root, hpaint]

/-! ### The search -/

/-- The search stops where the tree's own search does. -/
theorem search_spec {s : State} {ctx : Context Entry} {t : EntryTree}
    (h : Represents s (plug ctx t)) (key : ℤ) (fuel : ℕ) (hfuel : height t < fuel) :
    search key fuel s (top ctx) (addr t) =
      .ok (top (seek Entry.key key ctx t).1, addr (seek Entry.key key ctx t).2) := by
  induction t generalizing ctx fuel with
  | leaf =>
    obtain ⟨k, rfl⟩ : ∃ k, fuel = k + 1 := ⟨fuel - 1, by omega⟩
    simp [search, seek]
  | node c a l r ihl ihr =>
    obtain ⟨k, rfl⟩ : ∃ k, fuel = k + 1 := ⟨fuel - 1, by omega⟩
    have hnode : Represents s (plug ctx (branch .left c a l r)) := h
    have hleft : Represents s (plug (⟨.left, c, a, r⟩ :: ctx) l) := h
    have hright : Represents s (plug (⟨.right, c, a, l⟩ :: ctx) r) := h
    have hne : ¬ addr (node c a l r) = 0 := hnode.placed.nonzero
    have hread : s.node (addr (node c a l r)) = .ok (cell .left c a (top ctx) (addr l) (addr r)) :=
      hnode.node_eq
    simp only [height] at hfuel
    have hl := ihl hleft k (by omega)
    have hr := ihr hright k (by omega)
    rw [search, if_neg hne, hread, ok_bind, cell_key, seek]
    split
    · exact hl
    · split
      · exact hr
      · rfl

theorem length_seek_le (key : ℤ) (ctx : Context Entry) (t : EntryTree) :
    (seek Entry.key key ctx t).1.length ≤ ctx.length + height t := by
  induction t generalizing ctx with
  | leaf => simp [seek, height]
  | node c a l r ihl ihr =>
    unfold seek
    simp only [height]
    split
    · have := ihl (⟨.left, c, a, r⟩ :: ctx)
      simp only [List.length_cons] at this
      omega
    · split
      · have := ihr (⟨.right, c, a, l⟩ :: ctx)
        simp only [List.length_cons] at this
        omega
      · simp only
        omega

/-! ### The new leaf -/

/-- The side on which the key belongs is the side of the hole. -/
theorem link_side {key : ℤ} {f : Frame Entry} {ctx : Context Entry}
    (h : Around Entry.key key (f :: ctx)) :
    (key < f.label.key ∧ f.side = .left) ∨ (¬ key < f.label.key ∧ f.side = .right) := by
  obtain ⟨d, c, a, u⟩ := f
  cases d with
  | left => exact Or.inl ⟨h.2 a (by simp [after]), rfl⟩
  | right => exact Or.inr ⟨not_lt.mpr (le_of_lt (h.1 a (by simp [before]))), rfl⟩

/-- The new node is linked into the hole where its key belongs. -/
theorem link_spec {s : State} {ctx : Context Entry} {e : Entry} {n : Node}
    (h : Represents s (plug ctx leaf)) (haround : Around Entry.key e.key ctx)
    (hid : e.id ≠ 0) (hfresh : e.id ∉ ids (plug ctx leaf))
    (hnode : s.heap e.id = some n) (hn : n = ⟨e.key, e.value, .red, 0, 0, 0⟩) :
    ∃ s', link s (top ctx) e.id e.key = .ok s' ∧
      Represents s' (plug ctx (branch .left .red e leaf leaf)) ∧
      Touches (fun i => i = e.id ∨ i ∈ ids (plug ctx leaf)) s s' := by
  obtain ⟨hctx, _, hspread⟩ := represents_plug.mp h
  have hout : e.id ∉ contextIds ctx := fun hmem => hfresh (mem_ids_plug.mpr (Or.inr hmem))
  have hnodup : (contextIds ctx).Nodup := hspread.nodup.of_append_right
  have hzero : 0 ∉ contextIds ctx := fun hz => hspread.nonzero (List.mem_append_right _ hz)
  let s₁ := s.put e.id (some (cell .left .red e (top ctx) 0 0))
  have h₁ : s.modify e.id (Node.setParent (top ctx)) = .ok s₁ := by
    rw [modify_eq hnode hid, hn]
    rfl
  have hctx₁ : ShowsContext s₁ ctx 0 := hctx.put hout _
  have hspread' : Spread ctx (branch .left .red e leaf leaf) := by
    constructor
    · simpa [branch, ids] using ⟨hout, hnodup⟩
    · simpa [branch, ids] using ⟨hid.symm, hzero⟩
  have hrep : ∀ {s' : State}, ShowsContext s' ctx e.id → Touches (· ∈ contextIds ctx) s₁ s' →
      Represents s' (plug ctx (branch .left .red e leaf leaf)) := by
    intro s' hctx' htouch
    refine represents_plug.mpr ⟨hctx', shows_branch.mpr ⟨?_, trivial, trivial⟩, hspread'⟩
    rw [htouch.heap _ hout, put_heap_self]
    rfl
  have htouch₁ : Touches (fun i => i = e.id ∨ i ∈ ids (plug ctx leaf)) s s₁ :=
    touches_put s _ (Or.inl rfl)
  cases ctx with
  | nil =>
    refine ⟨{ s₁ with root := e.id }, ?_, hrep rfl ⟨rfl, fun _ _ => rfl⟩, htouch₁.size,
      htouch₁.heap⟩
    have hlink : s.modify e.id (Node.setParent 0) = .ok s₁ := h₁
    simp only [link, hlink, ok_bind, top, if_true]
  | cons f ctx =>
    obtain ⟨s', hset, hctx', htouch⟩ := setHole_spec hctx₁ hnodup hzero e.id
    have hfid : f.label.id ≠ 0 := fun hz => hzero (hz ▸ List.mem_cons_self)
    refine ⟨s', ?_, hrep hctx' htouch, htouch₁.trans (htouch.mono fun i hi => ?_)⟩
    · have hlink : s.modify e.id (Node.setParent f.label.id) = .ok s₁ := h₁
      have hread := node_eq hctx₁.1 hfid
      rcases link_side haround with ⟨hlt, hside⟩ | ⟨hlt, hside⟩ <;> rw [hside] at hset <;>
        simp only [link, hlink, ok_bind, top, if_neg hfid, hread, cell_key, hlt, if_true, if_false,
          hset]
    · exact Or.inr (mem_ids_plug.mpr (Or.inr hi))

/-! ### `infra_rbtree_insert` -/

section Insert
variable {s : State} {t : EntryTree} {ctx : Context Entry} {key : ℤ} {value reply : ℕ}

/-- The search from the root. -/
theorem search_root {u : EntryTree} (h : Represents s t) (hseek : seek Entry.key key [] t = (ctx, u)) (fuel : ℕ)
    (hfuel : height t < fuel) : search key fuel s 0 s.root = .ok (top ctx, addr u) := by
  have hplug : Represents s (plug [] t) := h
  have hsearch := search_spec hplug key fuel hfuel
  rw [hseek] at hsearch
  rw [h.root]
  exact hsearch

/-- A key that is present gets the new value; the new node is given back. -/
theorem insert_present (h : Represents s t) (hreply : reply ≠ 0) (hfree : s.heap reply = none)
    {c : Color} {a : Entry} {l r : EntryTree}
    (hseek : seek Entry.key key [] t = (ctx, branch .left c a l r)) :
    ∃ s', Settles (fun fuel => infraRbtreeInsert fuel reply s key value) (.ok (s', .ok)) ∧
      Represents s' (plug ctx (branch .left c { a with value := value } l r)) ∧
      s'.size = s.size ∧ Touches (· ∈ ids t) s s' := by
  have hfresh := h.not_mem_of_none hfree
  have hplug := plug_of_seek _ hseek
  rw [← hplug] at h hfresh hseek ⊢
  have h₁ : Represents (createNode reply s key value) (plug ctx (branch .left c a l r)) :=
    h.put_fresh hfresh _
  obtain ⟨s₂, hmod, h₂, htouch⟩ :=
    relabel_spec h₁ { a with value := value } rfl (fun n => { n with value := value }) rfl
  have hread : s₂.heap reply = some ⟨key, value, .red, 0, 0, 0⟩ :=
    (htouch.heap reply hfresh).trans (put_heap_self _ _ _)
  have hfresh₂ : reply ∉ ids (plug ctx (branch .left c { a with value := value } l r)) := by
    simpa [mem_ids_plug, mem_ids_branch] using hfresh
  refine ⟨s₂.put reply none, ?_, h₂.put_fresh hfresh₂ _, htouch.size, htouch.size, ?_⟩
  · refine ⟨height (plug ctx (branch .left c a l r)) + 1, ?_⟩
    intro fuel hfuel
    have hsearch := search_root h₁ hseek fuel hfuel
    have hne : a.id ≠ 0 := h₁.placed.nonzero
    rw [addr_branch] at hsearch
    simp only [infraRbtreeInsert, if_neg hreply, hsearch, ok_bind, if_pos hne, hmod,
      free_eq hread hreply]
  · intro i hi
    by_cases hir : i = reply
    · rw [hir, put_heap_self, hfree]
    · rw [put_heap_of_ne _ _ hir, htouch.heap i hi]
      exact put_heap_of_ne _ _ hir

/-- A new key becomes a red leaf where it belongs, and the tree is repaired. -/
theorem insert_new (h : Represents s t) (hreply : reply ≠ 0) (hfree : s.heap reply = none)
    (hsorted : Sorted Entry.key (inorder t)) (hseek : seek Entry.key key [] t = (ctx, leaf)) :
    (repair ctx (branch .left .red ⟨reply, key, value⟩ leaf leaf) = none →
      Settles (fun fuel => infraRbtreeInsert fuel reply s key value) (.error .nullDeref)) ∧
    ∀ u, repair ctx (branch .left .red ⟨reply, key, value⟩ leaf leaf) = some u →
      ∃ s', Settles (fun fuel => infraRbtreeInsert fuel reply s key value) (.ok (s', .ok)) ∧
        Represents s' (paint .black u) ∧ s'.size = s.size + 1 ∧
        ∀ i, i ≠ reply → i ∉ ids t → s'.heap i = s.heap i := by
  have hfresh := h.not_mem_of_none hfree
  have hplug := plug_of_seek _ hseek
  have haround := around_of_seek _ hsorted hseek
  rw [← hplug] at h hfresh hseek ⊢
  have h₁ : Represents (createNode reply s key value) (plug ctx leaf) := h.put_fresh hfresh _
  obtain ⟨s₂, hlink, h₂, htouch⟩ := link_spec (e := ⟨reply, key, value⟩) h₁ haround hreply hfresh
    (put_heap_self _ _ _) rfl
  obtain ⟨hstuck, hdone⟩ := fixInsert_spec h₂ (branch_ne_leaf _ _ _ _ _)
  have hlength : ctx.length ≤ height (plug ctx leaf) := by
    have := length_seek_le key [] (plug ctx leaf)
    rwa [hseek, List.length_nil, Nat.zero_add] at this
  have hrun : ∀ fuel, height (plug ctx leaf) < fuel →
      infraRbtreeInsert fuel reply s key value = (fixInsert fuel s₂ reply >>= fun s' =>
        .ok ({ s' with size := s'.size + 1 }, .ok)) := by
    intro fuel hfuel
    have hsearch := search_root h₁ hseek fuel hfuel
    rw [addr_leaf] at hsearch
    simp only [infraRbtreeInsert, if_neg hreply, hsearch, ok_bind, hlink]
    rfl
  rw [addr_branch] at hstuck hdone
  constructor
  · intro hnone
    refine ⟨height (plug ctx leaf) + 1, ?_⟩
    intro fuel hfuel
    show infraRbtreeInsert fuel reply s key value = _
    rw [hrun fuel hfuel, hstuck hnone fuel (by omega), error_bind]
  · intro u hu
    obtain ⟨s₃, hfix, hr⟩ := hdone u hu
    refine ⟨{ s₃ with size := s₃.size + 1 }, ⟨height (plug ctx leaf) + 1, fun fuel hfuel => ?_⟩,
      hr.represents.resize _, ?_, ?_⟩
    · show infraRbtreeInsert fuel reply s key value = _
      rw [hrun fuel hfuel, hfix fuel (by omega), ok_bind]
    · show s₃.size + 1 = s.size + 1
      rw [hr.touches.size, htouch.size]
      rfl
    · intro i hi hmem
      show s₃.heap i = s.heap i
      have hout : i ∉ ids (plug ctx (branch .left .red (⟨reply, key, value⟩ : Entry) leaf leaf)) := by
        rw [mem_ids_plug, mem_ids_branch]
        rw [mem_ids_plug] at hmem
        simp only [ids, List.not_mem_nil, false_or, or_false, not_or] at hmem ⊢
        exact ⟨hi, hmem⟩
      rw [hr.touches.heap i hout, htouch.heap i (not_or.mpr ⟨hi, hmem⟩)]
      exact put_heap_of_ne _ _ hi

end Insert

end Ppdb.TreeInsertion
