import Ppdb.TreeInsertion

/-!
Removal in the heap, on trees of any colours. The loop of `fix_delete` only
rearranges the tree, or follows a null pointer where a sibling or a child of
it is missing. Taking a node out of the tree is the same on every tree, and on
a red-black tree the loop has nothing to do.
-/

namespace Ppdb.TreeRemoval

open ColoredTrees ColorTree RedBlackTrees TreeOperations TreeRepresentation TreeInsertion
  EventualResults

/-- A value whose computation may end at a null pointer instead. -/
def Reaches {α : Type} (r : Except Fault α) (P : α → Prop) : Prop :=
  r = .error .nullDeref ∨ ∃ a, r = .ok a ∧ P a

section Side
variable {s : State} {f : Frame Entry} {ctx : Context Entry} {t : EntryTree}

theorem Represents.parent_node (h : Represents s (plug (f :: ctx) t)) : s.node f.label.id =
    .ok (cell f.side f.color f.label (top ctx) (addr t) (addr f.sibling)) :=
  Represents.node_eq h

/-- After it the sibling is black, below a red parent if the sibling was red. -/
theorem blackSibling_spec (h : Represents s (plug (f :: ctx) t)) (ht : t ≠ leaf) :
    Reaches (blackSibling f.side s (addr t)) fun r => ∃ f' ctx', r.2 = addr f'.sibling ∧
      f'.side = f.side ∧ Rearranges s (plug (f :: ctx) t) r.1 (plug (f' :: ctx') t) ∧
      (ctx' = ctx ∨ f'.color = .red) := by
  obtain ⟨n, hn, _, hpar, _⟩ := h.root_node ht
  have hp : n.parent = f.label.id := hpar
  have hparent := Represents.parent_node h
  by_cases hsib : f.sibling = leaf
  · left
    rw [hsib, addr_leaf] at hparent
    simp only [blackSibling, hn, ok_bind, hp, hparent, cell_child_flip, node_null, error_bind]
  right
  obtain ⟨d, pc, a, u⟩ := f
  obtain ⟨sc, b, v, w, rfl⟩ := exists_branch d.flip hsib
  have hsibrep := h
  rw [plug_sibling] at hsibrep
  have hsnode := hsibrep.node_eq
  cases sc with
  | black =>
    refine ⟨(s, b.id), ?_, ⟨d, pc, a, branch d.flip .black b v w⟩, ctx, (addr_branch _ _ _ _ _).symm,
      rfl, Rearranges.refl h, Or.inl rfl⟩
    simp only [blackSibling, hn, ok_bind, hp, hparent, cell_child_flip, addr_branch, hsnode,
      cell_color, reduceCtorEq, if_false]
  | red =>
    obtain ⟨s₁, h₁, _, hr₁⟩ := paint_spec hsibrep (branch_ne_leaf _ _ _ _ _) .black
    rw [paint_branch, ← plug_sibling, ← plug_sibling, plug_cons, plug_cons] at hr₁
    obtain ⟨s₂, h₂, _, hr₂⟩ := paint_spec hr₁.represents (branch_ne_leaf _ _ _ _ _) .red
    rw [paint_branch] at hr₂
    obtain ⟨s₃, h₃, hr₃⟩ := rotate_spec hr₂.represents
    rw [addr_branch] at h₁ h₂
    have hback : Represents s₃ (plug (⟨d, .red, a, w⟩ :: ⟨d, .black, b, v⟩ :: ctx) t) :=
      hr₃.represents
    obtain ⟨n₃, hn₃, _, hpar₃, _⟩ := hback.root_node ht
    have hp₃ : n₃.parent = a.id := hpar₃
    have hparent₃ := Represents.parent_node hback
    refine ⟨(s₃, addr w), ?_, ⟨d, .red, a, w⟩, ⟨d, .black, b, v⟩ :: ctx, rfl, rfl,
      hr₁.trans (hr₂.trans hr₃), Or.inr rfl⟩
    simp only [blackSibling, hn, ok_bind, hp, hparent, cell_child_flip, addr_branch, hsnode,
      cell_color, if_true, h₁, h₂, h₃, hn₃, hp₃, hparent₃]

/-- The test reads the sibling and the child on the near side, so both exist. -/
theorem bothBlack_spec (h : Represents s (plug (f :: ctx) t)) :
    Reaches (bothBlack f.side s (addr f.sibling)) fun _ =>
      f.sibling ≠ leaf ∧ child f.side f.sibling ≠ leaf := by
  obtain ⟨d, pc, a, u⟩ := f
  by_cases hsib : u = leaf
  · left
    simp only [bothBlack, hsib, addr_leaf, node_null, error_bind]
  obtain ⟨sc, b, v, w, rfl⟩ := exists_branch d hsib
  have hsibrep := h
  rw [plug_sibling] at hsibrep
  have hsnode := hsibrep.node_eq
  by_cases hnear : v = leaf
  · left
    simp only [bothBlack, addr_branch, hsnode, ok_bind, cell_child, hnear, addr_leaf, node_null,
      error_bind]
  have hnearrep : Represents s (plug (⟨d, sc, b, w⟩ :: ⟨d.flip, pc, a, t⟩ :: ctx) v) := hsibrep
  obtain ⟨m, hm, _⟩ := hnearrep.root_node hnear
  have hfacts : branch d sc b v w ≠ leaf ∧ child d (branch d sc b v w) ≠ leaf :=
    ⟨branch_ne_leaf _ _ _ _ _, by rwa [child_branch]⟩
  by_cases hblack : m.color = .black
  · by_cases hfar : w = leaf
    · left
      simp only [bothBlack, addr_branch, hsnode, ok_bind, cell_child, hm, hblack, if_true,
        cell_child_flip, hfar, addr_leaf, node_null, error_bind]
    · have hfarrep : Represents s (plug (⟨d.flip, sc, b, v⟩ :: ⟨d.flip, pc, a, t⟩ :: ctx) w) := by
        rw [plug_sibling, Side.flip_flip]
        exact hnearrep
      obtain ⟨m', hm', _⟩ := hfarrep.root_node hfar
      refine Or.inr ⟨decide (m'.color = .black), ?_, hfacts⟩
      simp only [bothBlack, addr_branch, hsnode, ok_bind, cell_child, hm, hblack, if_true,
        cell_child_flip, hm']
  · refine Or.inr ⟨false, ?_, hfacts⟩
    simp only [bothBlack, addr_branch, hsnode, ok_bind, cell_child, hm, hblack, if_false]

/-- After it the far child of the sibling exists. -/
theorem redFar_spec (h : Represents s (plug (f :: ctx) t)) (ht : t ≠ leaf)
    (hsib : f.sibling ≠ leaf) (hnear : child f.side f.sibling ≠ leaf) :
    Reaches (redFar f.side s (addr t) (addr f.sibling)) fun r => ∃ u, r.2 = addr u ∧
      child f.side.flip u ≠ leaf ∧
      Rearranges s (plug (f :: ctx) t) r.1 (plug (⟨f.side, f.color, f.label, u⟩ :: ctx) t) := by
  obtain ⟨d, pc, a, u⟩ := f
  obtain ⟨sc, b, v, w, rfl⟩ := exists_branch d hsib
  have hsibrep := h
  rw [plug_sibling] at hsibrep
  have hsnode := hsibrep.node_eq
  by_cases hfar : w = leaf
  · left
    simp only [redFar, addr_branch, hsnode, ok_bind, cell_child_flip, hfar, addr_leaf, node_null,
      error_bind]
  have hfarrep : Represents s (plug (⟨d.flip, sc, b, v⟩ :: ⟨d.flip, pc, a, t⟩ :: ctx) w) := by
    rw [plug_cons, branch_flip]
    exact hsibrep
  obtain ⟨m, hm, _⟩ := hfarrep.root_node hfar
  by_cases hblack : m.color = .black
  · rw [child_branch] at hnear
    obtain ⟨nc, z, x, y, rfl⟩ := exists_branch d hnear
    have hnearrep : Represents s
        (plug (⟨d, sc, b, w⟩ :: ⟨d.flip, pc, a, t⟩ :: ctx) (branch d nc z x y)) := hsibrep
    obtain ⟨s₁, h₁, _, hr₁⟩ := paint_spec hnearrep (branch_ne_leaf _ _ _ _ _) .black
    rw [paint_branch] at hr₁
    have hrep₁ : Represents s₁ (plug (⟨d.flip, pc, a, t⟩ :: ctx)
        (branch d sc b (branch d .black z x y) w)) := hr₁.represents
    obtain ⟨s₂, h₂, _, hr₂⟩ := paint_spec hrep₁ (branch_ne_leaf _ _ _ _ _) .red
    -- seen from the other side, the near child is the pivot of the rotation
    have hturn : branch d .red b (branch d .black z x y) w =
        branch d.flip .red b w (branch d.flip.flip .black z x y) := by
      rw [branch_flip, Side.flip_flip]
    rw [paint_branch, hturn] at hr₂
    obtain ⟨s₃, h₃, hr₃⟩ := rotate_spec hr₂.represents
    have hr : Rearranges s (plug (⟨d, pc, a, branch d sc b (branch d nc z x y) w⟩ :: ctx) t) s₃
        (plug (⟨d, pc, a, branch d.flip .black z (branch d.flip .red b w y) x⟩ :: ctx) t) := by
      rw [plug_sibling d pc a t, plug_sibling d pc a t]
      exact hr₁.trans (hr₂.trans hr₃)
    rw [addr_branch] at h₁ h₂
    obtain ⟨n₃, hn₃, _, hpar₃, _⟩ := hr.represents.root_node ht
    have hp₃ : n₃.parent = a.id := hpar₃
    have hparent₃ := Represents.parent_node hr.represents
    refine Or.inr ⟨(s₃, z.id), ?_, _, (addr_branch _ _ _ _ _).symm, ?_, hr⟩
    · simp only [redFar, addr_branch, hsnode, ok_bind, cell_child_flip, hm, hblack, if_true,
        cell_child, h₁, h₂, h₃, hn₃, hp₃, hparent₃]
    · rw [child_branch]
      exact branch_ne_leaf _ _ _ _ _
  · refine Or.inr ⟨(s, b.id), ?_, _, (addr_branch _ _ _ _ _).symm, ?_, Rearranges.refl h⟩
    · simp only [redFar, addr_branch, hsnode, ok_bind, cell_child_flip, hm, hblack, if_false]
    · rwa [child_flip_branch]

/-- The last rotation brings the sibling up in the colour of the parent. -/
theorem raiseSibling_spec {d : Side} {pc : Color} {a : Entry} {u : EntryTree}
    (h : Represents s (plug (⟨d, pc, a, u⟩ :: ctx) t)) (hfar : child d.flip u ≠ leaf) :
    ∃ s₁ s₂ s₃ s₄ n b, s.modify (addr u) (Node.setColor pc) = .ok s₁ ∧
      s₁.modify a.id (Node.setColor .black) = .ok s₂ ∧ s₂.node (addr u) = .ok n ∧
      s₂.modify (n.child d.flip) (Node.setColor .black) = .ok s₃ ∧ rotate d s₃ a.id = .ok s₄ ∧
      b ≠ leaf ∧ Rearranges s (plug (⟨d, pc, a, u⟩ :: ctx) t) s₄ (plug ctx b) := by
  have hu : u ≠ leaf := by
    rintro rfl
    exact hfar rfl
  obtain ⟨sc, b, v, w, rfl⟩ := exists_branch d.flip hu
  rw [child_branch] at hfar
  have hsibrep := h
  rw [plug_sibling] at hsibrep
  obtain ⟨s₁, h₁, _, hr₁⟩ := paint_spec hsibrep (branch_ne_leaf _ _ _ _ _) pc
  rw [paint_branch, ← plug_sibling, ← plug_sibling] at hr₁
  have hrep₁ : Represents s₁ (plug ctx (branch d pc a t (branch d.flip pc b v w))) :=
    hr₁.represents
  obtain ⟨s₂, h₂, _, hr₂⟩ := paint_spec hrep₁ (branch_ne_leaf _ _ _ _ _) .black
  rw [paint_branch] at hr₂
  have hsib₂ : Represents s₂ (plug (⟨d, .black, a, branch d.flip pc b v w⟩ :: ctx) t) :=
    hr₂.represents
  rw [plug_sibling] at hsib₂
  have hfarrep : Represents s₂ (plug (⟨d.flip, pc, b, w⟩ :: ⟨d.flip, .black, a, t⟩ :: ctx) v) :=
    hsib₂
  obtain ⟨s₃, h₃, _, hr₃⟩ := paint_spec hfarrep hfar .black
  have hr₃' : Rearranges s₂ (plug ctx (branch d .black a t (branch d.flip pc b v w))) s₃
      (plug ctx (branch d .black a t (branch d.flip pc b (paint .black v) w))) := by
    rw [← plug_cons ⟨d, .black, a, _⟩ ctx t, ← plug_cons ⟨d, .black, a, _⟩ ctx t,
      plug_sibling d .black a t, plug_sibling d .black a t]
    exact hr₃
  obtain ⟨s₄, h₄, hr₄⟩ := rotate_spec hr₃'.represents
  simp only [addr_branch] at h₁ h₂ ⊢
  refine ⟨s₁, s₂, s₃, s₄, _, _, h₁, h₂, hsib₂.node_eq, ?_, h₄, branch_ne_leaf _ _ _ _ _,
    hr₁.trans (hr₂.trans (hr₃'.trans hr₄))⟩
  rw [cell_child]
  exact h₃

/-- One iteration: the loop goes on at the parent, or has come to its end. -/
theorem fixDeleteSide_spec (h : Represents s (plug (f :: ctx) t)) (ht : t ≠ leaf) :
    Reaches (fixDeleteSide f.side s (addr t)) fun r => ∃ ctx' t', r.2 = addr t' ∧ t' ≠ leaf ∧
      Rearranges s (plug (f :: ctx) t) r.1 (plug ctx' t') ∧
      (ctx' = ctx ∨ ctx' = [] ∨ rootColor t' = .red) := by
  rcases blackSibling_spec h ht with hfault | ⟨⟨s₁, p⟩, h₁, g, ctx₁, hp, hside, hr₁, hctx⟩
  · left
    rw [fixDeleteSide, hfault, error_bind]
  have hsaddr : p = addr g.sibling := hp
  rw [hsaddr] at h₁
  rw [← hside] at h₁ ⊢
  have hrep₁ : Represents s₁ (plug (g :: ctx₁) t) := hr₁.represents
  rcases bothBlack_spec hrep₁ with hfault | ⟨both, hboth, hsib, hnear⟩
  · left
    simp only [fixDeleteSide, h₁, ok_bind, hfault, error_bind]
  have hparent₁ := Represents.parent_node hrep₁
  cases both with
  | true =>
    have hsibrep := hrep₁
    rw [plug_sibling] at hsibrep
    obtain ⟨s₂, h₂, _, hr₂⟩ := paint_spec hsibrep hsib .red
    rw [← plug_sibling, ← plug_sibling] at hr₂
    obtain ⟨n₂, hn₂, _, hpar₂, _⟩ := hr₂.represents.root_node ht
    have hp₂ : n₂.parent = g.label.id := hpar₂
    refine Or.inr ⟨(s₂, g.label.id), ?_, ctx₁,
      branch g.side g.color g.label t (paint .red g.sibling), (addr_branch _ _ _ _ _).symm,
      branch_ne_leaf _ _ _ _ _, hr₁.trans hr₂, ?_⟩
    · simp only [fixDeleteSide, h₁, ok_bind, hboth, if_true, h₂, hn₂, hp₂]
    · rcases hctx with hctx | hred
      · exact Or.inl hctx
      · exact Or.inr (Or.inr (by rwa [rootColor_branch]))
  | false =>
    rcases redFar_spec hrep₁ ht hsib hnear with hfault | ⟨⟨s₂, q⟩, h₂, u, hq, hfar, hr₂⟩
    · left
      simp only [fixDeleteSide, h₁, ok_bind, hboth, Bool.false_eq_true, if_false, hfault, error_bind]
    have hqaddr : q = addr u := hq
    rw [hqaddr] at h₂
    have hrep₂ : Represents s₂ (plug (⟨g.side, g.color, g.label, u⟩ :: ctx₁) t) := hr₂.represents
    obtain ⟨n₂, hn₂, _, hpar₂, _⟩ := hrep₂.root_node ht
    have hp₂ : n₂.parent = g.label.id := hpar₂
    have hparent₂ := Represents.parent_node hrep₂
    obtain ⟨s₃, s₄, s₅, s₆, n, b, h₃, h₄, hn, h₅, h₆, hb, hr₃⟩ := raiseSibling_spec hrep₂ hfar
    have hr := hr₁.trans (hr₂.trans hr₃)
    refine Or.inr ⟨(s₆, s₆.root), ?_, [], plug ctx₁ b, hr.represents.root, ?_, hr, Or.inr (Or.inl rfl)⟩
    · simp only [fixDeleteSide, h₁, ok_bind, hboth, Bool.false_eq_true, if_false, h₂, hn₂, hp₂,
        hparent₂, cell_color, h₃, h₄, hn, h₅, h₆]
    · exact plug_ne_leaf ctx₁ hb

end Side

/-! ### The loop -/

section Loop
variable {s : State} {ctx : Context Entry} {t : EntryTree}

/-- The loop stops at the root and at a red node. -/
theorem fixDeleteLoop_exit (h : Represents s (plug ctx t)) (ht : t ≠ leaf)
    (hstop : ctx = [] ∨ rootColor t = .red) (fuel : ℕ) :
    fixDeleteLoop (fuel + 1) s (addr t) = .ok (s, addr t) := by
  obtain ⟨n, hn, hcolor, _⟩ := h.root_node ht
  by_cases hroot : addr t = s.root
  · rw [fixDeleteLoop, if_pos hroot]
  · have hred : rootColor t = .red := by
      rcases hstop with hctx | hred
      · exact absurd ((h.eq_root_iff ht).mpr hctx) hroot
      · exact hred
    have hne : n.color ≠ .black := by simp [hcolor, hred]
    simp only [fixDeleteLoop, if_neg hroot, hn, ok_bind, if_neg hne]

theorem fixDeleteLoop_step {f : Frame Entry} (h : Represents s (plug (f :: ctx) t)) (ht : t ≠ leaf)
    (hblack : rootColor t = .black) (fuel : ℕ) : fixDeleteLoop (fuel + 1) s (addr t) =
      (fixDeleteSide f.side s (addr t) >>= fun r => fixDeleteLoop fuel r.1 r.2) := by
  obtain ⟨n, hn, hcolor, hpar, _⟩ := h.root_node ht
  have hne : ¬ addr t = s.root := mt (h.eq_root_iff ht).mp (List.cons_ne_nil f ctx)
  have hp : n.parent = f.label.id := hpar
  have hc : n.color = .black := hcolor.trans hblack
  simp only [fixDeleteLoop, if_neg hne, hn, ok_bind, if_pos hc, hp, Represents.parent_node h,
    cell_side _ _ _ _ _ _ (h.ne_sibling ht)]

/-- The loop ends, and all it has done is to rearrange the tree. -/
theorem fixDeleteLoop_spec (h : Represents s (plug ctx t)) (ht : t ≠ leaf) :
    Settles (fun fuel => fixDeleteLoop fuel s (addr t)) (.error .nullDeref) ∨
    ∃ s' ctx' t', Settles (fun fuel => fixDeleteLoop fuel s (addr t)) (.ok (s', addr t')) ∧
      t' ≠ leaf ∧ Rearranges s (plug ctx t) s' (plug ctx' t') := by
  have hexit : ∀ {s' : State} {ctx' : Context Entry} {t' : EntryTree},
      Represents s' (plug ctx' t') → t' ≠ leaf → ctx' = [] ∨ rootColor t' = .red →
      Settles (fun fuel => fixDeleteLoop fuel s' (addr t')) (.ok (s', addr t')) :=
    fun h' ht' hstop => settles_of_ge 1 (fixDeleteLoop_exit h' ht' hstop)
  induction ctx generalizing s t with
  | nil => exact Or.inr ⟨s, [], t, hexit h ht (Or.inl rfl), ht, Rearranges.refl h⟩
  | cons f ctx ih =>
    by_cases hred : rootColor t = .red
    · exact Or.inr ⟨s, f :: ctx, t, hexit h ht (Or.inr hred), ht, Rearranges.refl h⟩
    have hstep := fixDeleteLoop_step h ht (Color.ne_red.mp hred)
    rcases fixDeleteSide_spec h ht with hfault | ⟨⟨s₁, p⟩, h₁, ctx₁, t₁, hp, ht₁, hr₁, hwhere⟩
    · left
      apply settles_of_ge 1
      intro fuel
      rw [hstep, hfault, error_bind]
    have hpaddr : p = addr t₁ := hp
    rw [hpaddr] at h₁
    have hloop : ∀ {r : Except Fault (State × ℕ)},
        Settles (fun fuel => fixDeleteLoop fuel s₁ (addr t₁)) r →
        Settles (fun fuel => fixDeleteLoop fuel s (addr t)) r := by
      intro r hr
      refine Settles.succ (hr.of_eq ?_)
      intro fuel
      rw [hstep, h₁]
      rfl
    rcases hwhere with rfl | hstop
    · rcases ih hr₁.represents ht₁ with hfault | ⟨s', ctx', t', hrun, ht', hr'⟩
      · exact Or.inl (hloop hfault)
      · exact Or.inr ⟨s', ctx', t', hloop hrun, ht', hr₁.trans hr'⟩
    · exact Or.inr ⟨s₁, ctx₁, t₁, hloop (hexit hr₁.represents ht₁ hstop), ht₁, hr₁⟩

theorem fixDelete_spec (h : Represents s (plug ctx t)) (ht : t ≠ leaf) :
    Settles (fun fuel => fixDelete fuel s (addr t)) (.error .nullDeref) ∨
    ∃ s' u, Settles (fun fuel => fixDelete fuel s (addr t)) (.ok s') ∧
      Rearranges s (plug ctx t) s' u := by
  rcases fixDeleteLoop_spec h ht with hloop | ⟨s₁, ctx₁, t₁, hloop, ht₁, hr₁⟩
  · exact Or.inl (hloop.map fun r => r >>= fun r => r.1.modify r.2 (Node.setColor .black))
  · obtain ⟨s₂, h₂, _, hr₂⟩ := paint_spec hr₁.represents ht₁ .black
    refine Or.inr ⟨s₂, _, ?_, hr₁.trans hr₂⟩
    rw [← h₂]
    exact hloop.map fun r => r >>= fun r => r.1.modify r.2 (Node.setColor .black)

/-- At a red node all that is done is to paint it. -/
theorem fixDelete_red (h : Represents s (plug ctx t)) (hred : rootColor t = .red) :
    ∃ s', Settles (fun fuel => fixDelete fuel s (addr t)) (.ok s') ∧
      Rearranges s (plug ctx t) s' (plug ctx (paint .black t)) := by
  have ht : t ≠ leaf := fun hz => by simp [hz, rootColor] at hred
  obtain ⟨s₁, h₁, _, hr₁⟩ := paint_spec h ht .black
  refine ⟨s₁, settles_of_ge 1 ?_, hr₁⟩
  intro fuel
  rw [fixDelete, fixDeleteLoop_exit h ht (Or.inr hred)]
  exact h₁

end Loop

/-! ### Taking a node out -/

section Splice
variable {s : State} {ctx : Context Entry} {c : Color} {a : Entry} {l r : EntryTree}

def moved (a b : Entry) : Entry := ⟨a.id, b.key, b.value⟩

/-- The loop down the left links ends at the leftmost node. -/
theorem leftmost_spec (h : Represents s (plug ctx (node c a l r))) :
    Settles (fun fuel => leftmost fuel s a.id) (.ok (slide ctx c a l r).label.id) := by
  induction l generalizing ctx c a r with
  | leaf =>
    have hread : s.node a.id = .ok (cell .left c a (top ctx) 0 (addr r)) :=
      Represents.node_eq (d := .left) h
    apply settles_of_ge 1
    intro fuel
    simp only [leftmost, hread, ok_bind, cell, ne_eq, not_true, if_false]
    rfl
  | node c' a' l' r' ihl _ =>
    have hread : s.node a.id = .ok (cell .left c a (top ctx) a'.id (addr r)) :=
      Represents.node_eq (d := .left) h
    have hdown : Represents s (plug (⟨.left, c, a, r⟩ :: ctx) (node c' a' l' r')) := h
    have hne : a'.id ≠ 0 := (Represents.placed (d := .left) hdown).nonzero
    refine Settles.succ ((ihl hdown).of_eq ?_)
    intro fuel
    simp only [leftmost, hread, ok_bind, cell, ne_eq, hne, not_false_eq_true, if_true]

/-- The link to a node with at most one child is set to that child. -/
theorem unlink_spec {d : Side} {x : EntryTree} (h : Represents s (plug ctx (branch d c a x leaf))) :
    ∃ s₁ s₂, adopt s (addr x) (top ctx) = .ok s₁ ∧
      replaceChild .left s₁ a.id (addr x) = .ok s₂ ∧ Represents s₂ (plug ctx x) ∧
      Touches (· ∈ ids (plug ctx (branch d c a x leaf))) s s₂ ∧ s₂.heap a.id = s.heap a.id ∧
      a.id ∉ ids (plug ctx x) := by
  obtain ⟨hctx, hshows, hspread⟩ := represents_plug.mp h
  obtain ⟨hnode, hx, _⟩ := shows_branch.mp hshows
  have hplaced := hspread.placed
  rw [addr_branch] at hctx
  have hperm : (ids (branch d c a x leaf) ++ contextIds ctx).Perm
      (a.id :: (ids x ++ contextIds ctx)) := by
    apply ((ids_branch_perm d c a x leaf).append_right _).trans
    simp [ids]
  obtain ⟨_, hnodup⟩ := List.nodup_cons.mp (hperm.nodup_iff.mp hspread.nodup)
  have hzero : 0 ∉ ids x ++ contextIds ctx := fun hz =>
    hspread.nonzero (hperm.mem_iff.mpr (List.mem_cons_of_mem _ hz))
  obtain ⟨s₁, hadopt, hroot₁, hx₁, htouch₁⟩ := adopt_spec hx hnodup.of_append_left
    (fun hz => hzero (List.mem_append_left _ hz)) (top ctx)
  have hnode₁ := (htouch₁.heap _ hplaced.near).trans hnode
  have hctx₁ : ShowsContext s₁ ctx a.id :=
    hctx.congr hroot₁ fun i hi => htouch₁.heap i fun hi' => hplaced.near_around i hi' hi
  obtain ⟨s₂, hreplace, hctx₂, htouch₂⟩ := replaceChild_spec hnode₁ hplaced.nonzero
    (cell_parent _ _ _ _ _ _) hctx₁ hplaced.around hnodup.of_append_right
    (fun hz => hzero (List.mem_append_right _ hz)) .left (addr x)
  refine ⟨s₁, s₂, hadopt, hreplace, represents_plug.mpr ⟨hctx₂, ?_, hnodup, hzero⟩, ?_, ?_, ?_⟩
  · exact hx₁.touch htouch₂ hplaced.near_around
  · refine (htouch₁.mono fun i hi => ?_).trans (htouch₂.mono fun i hi => ?_)
    · exact mem_ids_plug.mpr (Or.inl (mem_ids_branch.mpr (Or.inr (Or.inl hi))))
    · exact mem_ids_plug.mpr (Or.inr hi)
  · rw [htouch₂.heap _ hplaced.around, htouch₁.heap _ hplaced.near]
  · rw [mem_ids_plug, not_or]
    exact ⟨hplaced.near, hplaced.around⟩

/-- The source finds the only child by testing the left link. -/
theorem cell_only_child (d : Side) (p x : ℕ) :
    (if (cell d c a p x 0).left ≠ 0 then (cell d c a p x 0).left else (cell d c a p x 0).right) =
      x := by
  cases d with
  | left => by_cases hx : x = 0 <;> simp [cell, hx]
  | right => simp [cell]

/-- The state once the node of `cut` is out of the tree `t` and its label moved. -/
structure Spliced (s s' : State) (t : EntryTree) (cut : Cut Entry) : Prop where
  represents : Represents s' (plug cut.context cut.rest)
  touches : Touches (· ∈ ids t) s s'
  mem : cut.label.id ∈ ids t
  sub : ∀ i ∈ ids (plug cut.context cut.rest), i ∈ ids t
  out : cut.label.id ∉ ids (plug cut.context cut.rest)
  nonzero : cut.label.id ≠ 0
  node : ∃ n, s'.heap cut.label.id = some n

/-- The node itself is taken out if it has at most one child. -/
theorem splice_self {d : Side} {x : EntryTree} (h : Represents s (plug ctx (branch d c a x leaf))) :
    ∃ s', Spliced s s' (plug ctx (branch d c a x leaf)) ⟨ctx, c, a, x⟩ ∧
      ∀ fuel, splice fuel s a.id a.id =
        if c = .black ∧ addr x ≠ 0 then fixDelete fuel s' (addr x) else .ok s' := by
  obtain ⟨s₁, s₂, hadopt, hreplace, hrep, htouch, hheap, hout⟩ := unlink_spec h
  refine ⟨s₂, ⟨hrep, htouch, ?_, fun i hi => ?_, hout, h.placed.nonzero, _,
    hheap.trans h.heap_eq⟩, fun fuel => ?_⟩
  · exact mem_ids_plug.mpr (Or.inl (mem_ids_branch.mpr (Or.inl rfl)))
  · rw [mem_ids_plug] at hi ⊢
    exact hi.imp_left fun hi => mem_ids_branch.mpr (Or.inr (Or.inl hi))
  · have hread := h.node_eq
    rw [addr_leaf] at hread
    simp only [splice, hread, ok_bind, cell_only_child, cell_parent, hadopt, hreplace, ne_eq,
      not_true, if_false, cell_color]

/-- Otherwise the leftmost node on its right is taken out, and its label moved. -/
theorem splice_next {c' : Color} {a' : Entry} {l' r' : EntryTree}
    (h : Represents s (plug ctx (node c a l (node c' a' l' r')))) (cut : Cut Entry)
    (hcut : slide [] c' a' l' r' = cut) :
    ∃ s', Spliced s s' (plug ctx (node c a l (node c' a' l' r')))
        ⟨cut.context ++ ⟨.right, c, moved a cut.label, l⟩ :: ctx, cut.color, cut.label, cut.rest⟩ ∧
      ∀ fuel, splice fuel s a.id cut.label.id =
        if cut.color = .black ∧ addr cut.rest ≠ 0 then fixDelete fuel s' (addr cut.rest)
        else .ok s' := by
  have htree : plug ctx (node c a l (node c' a' l' r')) =
      plug (cut.context ++ ⟨.right, c, a, l⟩ :: ctx)
        (branch .right cut.color cut.label cut.rest leaf) := by
    have hslide := plug_slide [] c' a' l' r'
    rw [hcut, plug_nil] at hslide
    rw [plug_append, hslide]
    rfl
  have hnode := h
  rw [htree] at hnode ⊢
  obtain ⟨s₁, s₂, hadopt, hreplace, hrep, htouch, hheap, hout⟩ := unlink_spec hnode
  have hrep₂ : Represents s₂ (plug ctx (branch .right c a (plug cut.context cut.rest) l)) := by
    rw [plug_append] at hrep
    exact hrep
  have hread := hnode.node_eq
  have hne : cut.label.id ≠ a.id := by
    intro heq
    rw [heq, plug_append] at hout
    exact hout (mem_ids_plug.mpr (Or.inr List.mem_cons_self))
  obtain ⟨s₃, hmove, hrep₃, htouch₃⟩ := relabel_spec hrep₂ (moved a cut.label) rfl
    (fun m => { m with key := cut.label.key, value := cut.label.value }) rfl
  have hsame : plug ctx (branch .right c a (plug cut.context cut.rest) l) =
      plug (cut.context ++ ⟨.right, c, a, l⟩ :: ctx) cut.rest := by
    rw [plug_append]
    rfl
  rw [hsame] at htouch₃
  have hback : plug ctx (branch .right c (moved a cut.label) (plug cut.context cut.rest) l) =
      plug (cut.context ++ ⟨.right, c, moved a cut.label, l⟩ :: ctx) cut.rest := by
    rw [plug_append]
    rfl
  have hids : ∀ i, i ∈ ids (plug (cut.context ++ ⟨.right, c, moved a cut.label, l⟩ :: ctx) cut.rest) ↔
      i ∈ ids (plug (cut.context ++ ⟨.right, c, a, l⟩ :: ctx) cut.rest) := by
    intro i
    rw [← hback, ← hsame, mem_ids_plug, mem_ids_plug, mem_ids_branch, mem_ids_branch]
    rfl
  have hsub : ∀ i, i ∈ ids (plug (cut.context ++ ⟨.right, c, a, l⟩ :: ctx) cut.rest) →
      i ∈ ids (plug (cut.context ++ ⟨.right, c, a, l⟩ :: ctx)
        (branch .right cut.color cut.label cut.rest leaf)) := by
    intro i hi
    rw [mem_ids_plug] at hi ⊢
    exact hi.imp_left fun hi => mem_ids_branch.mpr (Or.inr (Or.inl hi))
  refine ⟨s₃, ⟨hback ▸ hrep₃, htouch.trans (htouch₃.mono hsub), ?_,
    fun i hi => hsub i ((hids i).mp hi), mt (hids _).mp hout, hnode.placed.nonzero, ?_⟩,
    fun fuel => ?_⟩
  · exact mem_ids_plug.mpr (Or.inl (mem_ids_branch.mpr (Or.inl rfl)))
  · exact ⟨_, (htouch₃.heap _ hout).trans (hheap.trans hnode.heap_eq)⟩
  · rw [addr_leaf] at hread
    simp only [splice, hread, ok_bind, cell_only_child, cell_parent, hadopt, hreplace, ne_eq, hne,
      not_false_eq_true, if_true, cell_key, cell_value, hmove, cell_color]

/-- Both at once: the node that `excise` takes out. -/
theorem splice_spec (h : Represents s (plug ctx (node c a l r))) (cut : Cut Entry)
    (hcut : excise moved ctx c a l r = cut) :
    ∃ s', Spliced s s' (plug ctx (node c a l r)) cut ∧ ∀ fuel, splice fuel s a.id cut.label.id =
        if cut.color = .black ∧ addr cut.rest ≠ 0 then fixDelete fuel s' (addr cut.rest)
        else .ok s' := by
  rcases excise_cases moved ctx c a l r with ⟨d, x, hnode, hself⟩ | ⟨c', a', l', r', _, hr, hnext⟩
  · rw [← hcut, hself, hnode]
    rw [hnode] at h
    exact splice_self h
  · rw [← hcut, hnext, hr]
    rw [hr] at h
    exact splice_next h _ rfl

end Splice

/-! ### `infra_rbtree_remove` and `infra_rbtree_clear` -/

section Remove
variable {s : State} {t : EntryTree} {ctx : Context Entry} {key : ℤ}

theorem remove_absent (h : Represents s t) (hseek : seek Entry.key key [] t = (ctx, leaf)) :
    Settles (fun fuel => infraRbtreeRemove fuel s key) (.ok (s, 0)) := by
  refine ⟨height t + 1, ?_⟩
  intro fuel hfuel
  simp only [infraRbtreeRemove, search_root h hseek fuel hfuel, ok_bind, addr_leaf, if_true]

variable {c : Color} {a : Entry} {l r : EntryTree}

/-- The loop down the left links is run when there are two children. -/
theorem remove_eq (h : Represents s t) (hseek : seek Entry.key key [] t = (ctx, node c a l r)) :
    ∃ n, ∀ fuel, n ≤ fuel → infraRbtreeRemove fuel s key =
      (splice fuel s a.id (excise moved ctx c a l r).label.id >>= fun s' =>
        s'.free (excise moved ctx c a l r).label.id >>= fun s' =>
          .ok ({ s' with size := s'.size - 1 }, a.value)) := by
  have hplug := plug_of_seek _ hseek
  have hrep : Represents s (plug ctx (branch .left c a l r)) := hplug ▸ h
  have hread := hrep.node_eq
  have hne : a.id ≠ 0 := hrep.placed.nonzero
  have haddr : addr (node c a l r) = a.id := rfl
  rcases excise_cases moved ctx c a l r with ⟨d, x, hnode, hself⟩ | ⟨c', a', l', r', hl, hr, hnext⟩
  · refine ⟨height t + 1, ?_⟩
    intro fuel hfuel
    have hone : addr l = 0 ∨ addr r = 0 := by
      cases d with
      | left =>
        injection hnode with _ _ _ hr
        exact Or.inr (by rw [hr, addr_leaf])
      | right =>
        injection hnode with _ _ hl
        exact Or.inl (by rw [hl, addr_leaf])
    rw [hself]
    simp only [infraRbtreeRemove, search_root h hseek fuel hfuel, ok_bind, haddr, if_neg hne, hread,
      cell, if_pos hone]
  · have hright : Represents s (plug (⟨.right, c, a, l⟩ :: ctx) (node c' a' l' r')) := by
      rw [hr] at hplug
      exact hplug ▸ h
    obtain ⟨n, hn⟩ := leftmost_spec hright
    have hlabel : (slide (⟨.right, c, a, l⟩ :: ctx) c' a' l' r').label =
        (slide [] c' a' l' r').label := by
      have happend := slide_append [] (⟨.right, c, a, l⟩ :: ctx) c' a' l' r'
      rw [List.nil_append] at happend
      rw [happend]
    have htwo : ¬ (addr l = 0 ∨ addr r = 0) := by
      rw [not_or]
      constructor
      · obtain ⟨lc, la, ll, lr, rfl⟩ := exists_branch .left hl
        rw [plug_sibling] at hright
        rw [addr_branch]
        exact hright.placed.nonzero
      · rw [hr]
        exact (Represents.placed (d := .left) hright).nonzero
    refine ⟨max (height t + 1) n, ?_⟩
    intro fuel hfuel
    have hleft : leftmost fuel s (addr r) = .ok (slide [] c' a' l' r').label.id := by
      rw [← hlabel, hr]
      exact hn fuel (le_trans (le_max_right _ _) hfuel)
    rw [hnext]
    simp only [infraRbtreeRemove, search_root h hseek fuel (le_trans (le_max_left _ _) hfuel),
      ok_bind, haddr, if_neg hne, hread, cell, if_neg htwo, hleft]

/-- What a removal leaves behind when the tree has become `u`. -/
structure Removed (s s' : State) (t u : EntryTree) : Prop where
  represents : Represents s' u
  size : s'.size = s.size - 1
  heap : ∀ i, i ∉ ids t → s'.heap i = s.heap i

/-- The node that was taken out is given back to the allocator. -/
theorem remove_tail (h : Represents s t) (hseek : seek Entry.key key [] t = (ctx, node c a l r))
    (cut : Cut Entry) (hcut : excise moved ctx c a l r = cut) {s₁ s₂ : State} {u : EntryTree}
    (hspliced : Spliced s s₁ t cut) (hr : Rearranges s₁ (plug cut.context cut.rest) s₂ u)
    (hrun : Settles (fun fuel => splice fuel s a.id cut.label.id) (.ok s₂)) :
    ∃ s', Settles (fun fuel => infraRbtreeRemove fuel s key) (.ok (s', a.value)) ∧
      Removed s s' t u := by
  obtain ⟨n, hn⟩ := hspliced.node
  have hnode : s₂.heap cut.label.id = some n := (hr.touches.heap _ hspliced.out).trans hn
  have hfree := free_eq hnode hspliced.nonzero
  have hsize : s₂.size = s.size := hr.touches.size.trans hspliced.touches.size
  refine ⟨{ s₂.put cut.label.id none with size := s₂.size - 1 }, ?_, ?_, ?_, fun i hi => ?_⟩
  · obtain ⟨m, hm⟩ := remove_eq h hseek
    obtain ⟨k, hk⟩ := hrun
    refine ⟨max m k, ?_⟩
    intro fuel hfuel
    have hsplice : splice fuel s a.id cut.label.id = .ok s₂ :=
      hk fuel (le_trans (le_max_right _ _) hfuel)
    show infraRbtreeRemove fuel s key = _
    rw [hm fuel (le_trans (le_max_left _ _) hfuel), hcut, hsplice, ok_bind, hfree, ok_bind]
    rfl
  · exact (hr.represents.put_fresh (mt (hr.mem_ids _).mp hspliced.out) _).resize _
  · exact congrArg (· - 1) hsize
  · have hout : i ∉ ids (plug cut.context cut.rest) := fun hmem => hi (hspliced.sub i hmem)
    have hne : i ≠ cut.label.id := fun heq => hi (heq ▸ hspliced.mem)
    calc (s₂.put cut.label.id none).heap i = s₂.heap i := put_heap_of_ne _ _ hne
      _ = s₁.heap i := hr.touches.heap i hout
      _ = s.heap i := hspliced.touches.heap i hi

/-- On a tree of any colours: a null pointer, or the entry is removed. -/
theorem remove_present (h : Represents s t)
    (hseek : seek Entry.key key [] t = (ctx, node c a l r)) (cut : Cut Entry)
    (hcut : excise moved ctx c a l r = cut) :
    Settles (fun fuel => infraRbtreeRemove fuel s key) (.error .nullDeref) ∨
    ∃ s' u, Settles (fun fuel => infraRbtreeRemove fuel s key) (.ok (s', a.value)) ∧
      Removed s s' t u ∧ inorder u = inorder (plug cut.context cut.rest) := by
  obtain ⟨s₁, hspliced, hsplice⟩ := splice_spec ((plug_of_seek _ hseek).symm ▸ h) cut hcut
  rw [plug_of_seek _ hseek] at hspliced
  by_cases hfix : cut.color = .black ∧ addr cut.rest ≠ 0
  · have hrest : cut.rest ≠ leaf := fun hz => hfix.2 (by rw [hz, addr_leaf])
    have hrun : ∀ fuel, splice fuel s a.id cut.label.id = fixDelete fuel s₁ (addr cut.rest) :=
      fun fuel => (hsplice fuel).trans (if_pos hfix)
    rcases fixDelete_spec hspliced.represents hrest with ⟨n, hn⟩ | ⟨s₂, u, hok, hr⟩
    · left
      obtain ⟨m, hm⟩ := remove_eq h hseek
      refine ⟨max m n, ?_⟩
      intro fuel hfuel
      have hfault : fixDelete fuel s₁ (addr cut.rest) = .error .nullDeref :=
        hn fuel (le_trans (le_max_right _ _) hfuel)
      show infraRbtreeRemove fuel s key = _
      rw [hm fuel (le_trans (le_max_left _ _) hfuel), hcut, hrun, hfault, error_bind]
    · obtain ⟨s', hrem, hremoved⟩ := remove_tail h hseek cut hcut hspliced hr (hok.of_eq hrun)
      exact Or.inr ⟨s', u, hrem, hremoved, hr.inorder⟩
  · have hrun : ∀ fuel, splice fuel s a.id cut.label.id = .ok s₁ :=
      fun fuel => (hsplice fuel).trans (if_neg hfix)
    obtain ⟨s', hrem, hremoved⟩ := remove_tail h hseek cut hcut hspliced
      (Rearranges.refl hspliced.represents) ((settles_const _).of_eq hrun)
    exact Or.inr ⟨s', _, hrem, hremoved, rfl⟩

/-- On a red-black tree the only child is painted black, and that is all. -/
theorem remove_redBlack (h : Represents s t) (hred : RedBlack t)
    (hseek : seek Entry.key key [] t = (ctx, node c a l r)) (cut : Cut Entry)
    (hcut : excise moved ctx c a l r = cut) :
    ∃ s', Settles (fun fuel => infraRbtreeRemove fuel s key) (.ok (s', a.value)) ∧
      Removed s s' t (plug cut.context (paint .black cut.rest)) := by
  obtain ⟨s₁, hspliced, hsplice⟩ := splice_spec ((plug_of_seek _ hseek).symm ▸ h) cut hcut
  rw [plug_of_seek _ hseek] at hspliced
  by_cases hrest : cut.rest = leaf
  · have hrun : ∀ fuel, splice fuel s a.id cut.label.id = .ok s₁ :=
      fun fuel => (hsplice fuel).trans (if_neg fun hfix => hfix.2 (by rw [hrest, addr_leaf]))
    have hsame : paint .black cut.rest = cut.rest := by rw [hrest]; rfl
    rw [hsame]
    exact remove_tail h hseek cut hcut hspliced (Rearranges.refl hspliced.represents)
      ((settles_const _).of_eq hrun)
  · have hchild := excise_rest moved ((plug_of_seek _ hseek).symm ▸ hred) (hcut ▸ hrest)
    rw [hcut] at hchild
    have hfix : cut.color = .black ∧ addr cut.rest ≠ 0 := by
      obtain ⟨c', a', u, v, hbranch⟩ := exists_branch .left hrest
      have hrep := hspliced.represents
      rw [hbranch] at hrep ⊢
      exact ⟨hchild.2, (addr_branch .left c' a' u v).symm ▸ hrep.placed.nonzero⟩
    obtain ⟨s₂, hok, hr⟩ := fixDelete_red hspliced.represents hchild.1
    exact remove_tail h hseek cut hcut hspliced hr
      (hok.of_eq fun fuel => (hsplice fuel).trans (if_pos hfix))

end Remove

/-- The nodes are freed below each node before it is. -/
theorem clearNode_spec {s : State} {t : EntryTree} {p : ℕ} (h : Shows s.heap t p)
    (hnodup : (ids t).Nodup) (hzero : 0 ∉ ids t) :
    ∃ s', Touches (· ∈ ids t) s s' ∧
      ∀ fuel, height t < fuel → clearNode fuel s (addr t) = .ok s' := by
  induction t generalizing s p with
  | leaf =>
    refine ⟨s, Touches.refl _ s, ?_⟩
    intro fuel hfuel
    obtain ⟨k, rfl⟩ : ∃ k, fuel = k + 1 := ⟨fuel - 1, by omega⟩
    rw [addr_leaf, clearNode, if_pos rfl]
  | node c a l r ihl ihr =>
    obtain ⟨hnode, hl, hr⟩ := h
    obtain ⟨hout, hrest⟩ := List.nodup_cons.mp hnodup
    obtain ⟨hlnodup, hrnodup, hlr⟩ := List.nodup_append.mp hrest
    have hne : a.id ≠ 0 := fun hz => hzero (hz ▸ List.mem_cons_self)
    obtain ⟨s₁, htouch₁, hrun₁⟩ := ihl hl hlnodup
      fun hz => hzero (List.mem_cons_of_mem _ (List.mem_append_left _ hz))
    have hr₁ : Shows s₁.heap r a.id :=
      hr.touch htouch₁ fun i hi hi' => hlr i hi' i hi rfl
    obtain ⟨s₂, htouch₂, hrun₂⟩ := ihr hr₁ hrnodup
      fun hz => hzero (List.mem_cons_of_mem _ (List.mem_append_right _ hz))
    have hnode₁ := (htouch₁.heap a.id fun hi => hout (List.mem_append_left _ hi)).trans hnode
    have hnode₂ := (htouch₂.heap a.id fun hi => hout (List.mem_append_right _ hi)).trans hnode₁
    refine ⟨s₂.put a.id none, ?_, fun fuel hfuel => ?_⟩
    · exact ((htouch₁.mono fun i hi => List.mem_cons_of_mem _ (List.mem_append_left _ hi)).trans
        (htouch₂.mono fun i hi => List.mem_cons_of_mem _ (List.mem_append_right _ hi))).trans
        (touches_put s₂ none List.mem_cons_self)
    · simp only [height] at hfuel
      obtain ⟨k, rfl⟩ : ∃ k, fuel = k + 1 := ⟨fuel - 1, by omega⟩
      have haddr : addr (node c a l r) = a.id := rfl
      simp only [clearNode, haddr, if_neg hne, node_eq hnode hne, ok_bind, hrun₁ k (by omega),
        node_eq hnode₁ hne, hrun₂ k (by omega), free_eq hnode₂ hne]

/-- `infra_rbtree_clear` leaves the empty tree. -/
theorem clear_spec {s : State} {t : EntryTree} (h : Represents s t) :
    ∃ s', Settles (fun fuel => infraRbtreeClear fuel s) (.ok s') ∧ Represents s' leaf ∧
      s'.size = 0 ∧ ∀ i, i ∉ ids t → s'.heap i = s.heap i := by
  have hids := ids_perm t
  obtain ⟨s₁, htouch, hrun⟩ := clearNode_spec h.shows (hids.nodup_iff.mpr h.nodup)
    (mt hids.mem_iff.mp h.nonzero)
  refine ⟨{ s₁ with root := 0, size := 0 }, ⟨height t + 1, ?_⟩,
    ⟨rfl, trivial, List.nodup_nil, List.not_mem_nil⟩, rfl, htouch.heap⟩
  intro fuel hfuel
  show infraRbtreeClear fuel s = _
  rw [infraRbtreeClear, h.root, hrun fuel hfuel, ok_bind]

end Ppdb.TreeRemoval
