import Ppdb.ColoredTrees
import Mathlib.Algebra.Group.Nat.Defs
import Mathlib.Tactic.Common

/-!
The red-black condition and the repair after an insertion. The condition is
split along a context: what the hole asks of a subtree put there is its black
height and, below a red node, a black root. The outside of the tree counts as
red, which makes the root black.
-/

namespace Ppdb.RedBlackTrees

open ColoredTrees ColorTree

variable {β : Type}

/-- Every way down from the root to an absent child meets `n` black nodes. -/
def Balanced : ColorTree β → ℕ → Prop
  | leaf, n => n = 0
  | node .red _ l r, n => Balanced l n ∧ Balanced r n
  | node .black _ l r, n => ∃ m, n = m + 1 ∧ Balanced l m ∧ Balanced r m

def NoRedRed : ColorTree β → Prop
  | leaf => True
  | node c _ l r =>
    (c = .red → rootColor l = .black ∧ rootColor r = .black) ∧ NoRedRed l ∧ NoRedRed r

structure RedBlack (t : ColorTree β) : Prop where
  root : rootColor t = .black
  noRedRed : NoRedRed t
  balanced : ∃ n, Balanced t n

def above (c : Color) (n : ℕ) : ℕ :=
  match c with
  | .red => n
  | .black => n + 1

theorem balanced_branch {d : Side} {c : Color} {a : β} {t u : ColorTree β} {n : ℕ} :
    Balanced (branch d c a t u) n ↔ ∃ m, n = above c m ∧ Balanced t m ∧ Balanced u m := by
  cases d <;> cases c <;> simp [branch, Balanced, above, and_comm]

theorem noRedRed_branch {d : Side} {c : Color} {a : β} {t u : ColorTree β} :
    NoRedRed (branch d c a t u) ↔
      (c = .red → rootColor t = .black ∧ rootColor u = .black) ∧ NoRedRed t ∧ NoRedRed u := by
  cases d <;> simp [branch, NoRedRed, and_comm]

theorem Balanced.unique {t : ColorTree β} {m n : ℕ} (h : Balanced t m) (h' : Balanced t n) :
    m = n := by
  induction t generalizing m n with
  | leaf => exact Eq.trans h (Eq.symm h')
  | node c a l r ihl _ =>
    obtain ⟨m', rfl, hl, _⟩ := (balanced_branch (d := .left)).mp h
    obtain ⟨n', rfl, hl', _⟩ := (balanced_branch (d := .left)).mp h'
    rw [ihl hl hl']

def topColor : Context β → Color
  | [] => .red
  | f :: _ => f.color

/-- The siblings along the way have the heights that a hole of height `n` asks for. -/
def HoleBalanced : Context β → ℕ → Prop
  | [], _ => True
  | f :: ctx, n => Balanced f.sibling n ∧ HoleBalanced ctx (above f.color n)

def HoleNoRedRed : Context β → Prop
  | [] => True
  | f :: ctx => (f.color = .red → rootColor f.sibling = .black ∧ topColor ctx = .black) ∧
      NoRedRed f.sibling ∧ HoleNoRedRed ctx

theorem balanced_plug {ctx : Context β} {t : ColorTree β} :
    (∃ n, Balanced (plug ctx t) n) ↔ ∃ n, Balanced t n ∧ HoleBalanced ctx n := by
  induction ctx generalizing t with
  | nil => simp [HoleBalanced]
  | cons f ctx ih =>
    rw [plug_cons, ih]
    constructor
    · rintro ⟨_, hbranch, hctx⟩
      obtain ⟨n, rfl, ht, hsib⟩ := balanced_branch.mp hbranch
      exact ⟨n, ht, hsib, hctx⟩
    · rintro ⟨n, ht, hsib, hctx⟩
      exact ⟨above f.color n, balanced_branch.mpr ⟨n, rfl, ht, hsib⟩, hctx⟩

theorem noRedRed_plug {ctx : Context β} {t : ColorTree β} :
    NoRedRed (plug ctx t) ∧ rootColor (plug ctx t) = .black ↔
      NoRedRed t ∧ HoleNoRedRed ctx ∧ (rootColor t = .red → topColor ctx = .black) := by
  induction ctx generalizing t with
  | nil =>
    cases hroot : rootColor t <;> simp [HoleNoRedRed, topColor, hroot]
  | cons f ctx ih =>
    rw [plug_cons, ih, noRedRed_branch, rootColor_branch]
    cases hroot : rootColor t <;> cases hf : f.color <;>
      simp [HoleNoRedRed, topColor, hf] <;> tauto

/-- A tree is red-black when the subtree and its context are, and fit. -/
theorem redBlack_plug {ctx : Context β} {t : ColorTree β} :
    RedBlack (plug ctx t) ↔ NoRedRed t ∧ HoleNoRedRed ctx ∧
      (rootColor t = .red → topColor ctx = .black) ∧ ∃ n, Balanced t n ∧ HoleBalanced ctx n := by
  constructor
  · rintro ⟨hroot, hred, hbal⟩
    obtain ⟨ht, hctx, htop⟩ := noRedRed_plug.mp ⟨hred, hroot⟩
    exact ⟨ht, hctx, htop, balanced_plug.mp hbal⟩
  · rintro ⟨ht, hctx, htop, hbal⟩
    obtain ⟨hred, hroot⟩ := noRedRed_plug.mpr ⟨ht, hctx, htop⟩
    exact ⟨hroot, hred, balanced_plug.mpr hbal⟩

/-- Labels do not matter. -/
theorem redBlack_relabel {ctx : Context β} {d : Side} {c : Color} (a b : β) {t u : ColorTree β} :
    RedBlack (plug ctx (branch d c a t u)) ↔ RedBlack (plug ctx (branch d c b t u)) := by
  simp only [redBlack_plug, balanced_branch, noRedRed_branch, rootColor_branch]

/-! ### The repair after an insertion -/

/-- The rotations of the repair, for a node `t` below a red parent `f` below
`g`: an outer node is lifted with its parent, an inner one over its parent. -/
def lift (g f : Frame β) (t : ColorTree β) : ColorTree β :=
  if f.side = g.side then
    branch g.side .black f.label t (branch g.side .red g.label f.sibling g.sibling)
  else
    match t with
    | leaf => leaf
    | node _ z l r =>
      branch g.side .black z
        (branch g.side .red f.label f.sibling (child g.side (node .red z l r)))
        (branch g.side .red g.label (child g.side.flip (node .red z l r)) g.sibling)

theorem lift_outer {g f : Frame β} (h : f.side = g.side) (t : ColorTree β) :
    lift g f t =
      branch g.side .black f.label t (branch g.side .red g.label f.sibling g.sibling) := if_pos h

theorem lift_inner {g f : Frame β} (h : f.side = g.side.flip) (d : Side) (hd : g.side = d)
    (c : Color) (z : β) (x y : ColorTree β) :
    lift g f (branch d c z x y) =
      branch d .black z (branch d .red f.label f.sibling x) (branch d .red g.label y g.sibling) := by
  have hne : f.side ≠ g.side := h ▸ Side.flip_ne g.side
  unfold lift
  rw [if_neg hne, hd]
  cases d <;> rfl

/-- Working upwards from a red node: nothing below a black parent, recolouring
below a red uncle, a lift otherwise. A red parent without a parent of its own
is not expected. -/
def repair : Context β → ColorTree β → Option (ColorTree β)
  | [], t => some t
  | [f], t => if f.color = .red then none else some (plug [f] t)
  | f :: g :: ctx, t =>
    if f.color = .red then
      if rootColor g.sibling = .red then
        repair ctx (branch g.side .red g.label (branch f.side .black f.label t f.sibling)
          (paint .black g.sibling))
      else some (plug ctx (lift g f t))
    else some (plug (f :: g :: ctx) t)

/-- A lift keeps the order of the labels. -/
theorem inorder_lift (g f : Frame β) {t : ColorTree β} (ht : t ≠ leaf) :
    inorder (lift g f t) = inorder (branch g.side g.color g.label
      (branch f.side f.color f.label t f.sibling) g.sibling) := by
  cases t with
  | leaf => exact absurd rfl ht
  | node c z l r =>
    obtain ⟨d, gc, ga, u⟩ := g
    obtain ⟨e, fc, fa, v⟩ := f
    cases d <;> cases e <;> simp [lift, branch, child, inorder, Side.flip]

theorem inorder_repair {ctx : Context β} {t u : ColorTree β} (ht : t ≠ leaf)
    (h : repair ctx t = some u) : inorder u = inorder (plug ctx t) := by
  induction ctx, t using repair.induct with
  | case1 t => rw [← Option.some.inj h, plug_nil]
  | case2 f t hred => simp [repair, hred] at h
  | case3 f t hblack =>
    rw [repair, if_neg hblack] at h
    rw [← Option.some.inj h]
  | case4 f g ctx t hf hg ih =>
    rw [repair, if_pos hf, if_pos hg] at h
    rw [ih (branch_ne_leaf _ _ _ _ _) h, plug_cons, plug_cons]
    apply inorder_plug_congr
    cases g.side <;> cases f.side <;> simp [branch, inorder]
  | case5 f g ctx t hf hg =>
    rw [repair, if_pos hf, if_neg hg] at h
    rw [← Option.some.inj h, plug_cons, plug_cons]
    exact inorder_plug_congr ctx (inorder_lift g f ht)
  | case6 f g ctx t hf =>
    rw [repair, if_neg hf] at h
    rw [← Option.some.inj h]

theorem paint_of_rootColor {t : ColorTree β} {c : Color} (h : rootColor t = c) :
    paint c t = t ∨ t = leaf := by
  cases t with
  | leaf => exact Or.inr rfl
  | node c' a l r => exact Or.inl (by rw [← h]; rfl)

theorem RedBlack.paint_eq {t : ColorTree β} (h : RedBlack t) : paint .black t = t := by
  rcases paint_of_rootColor h.root with heq | rfl
  · exact heq
  · rfl

theorem NoRedRed.paint_black {t : ColorTree β} (h : NoRedRed t) : NoRedRed (paint .black t) := by
  cases t with
  | leaf => exact h
  | node c a l r => exact ⟨fun hc => absurd hc (by simp), h.2⟩

theorem rootColor_paint_black (t : ColorTree β) : rootColor (paint .black t) = .black := by
  cases t <;> rfl

/-- Painting a red root black adds one to the black height. -/
theorem Balanced.paint_black {t : ColorTree β} {n : ℕ} (h : Balanced t n)
    (hroot : rootColor t = .red) : Balanced (paint .black t) (n + 1) := by
  cases t with
  | leaf => simp [rootColor] at hroot
  | node c a l r =>
    cases c with
    | red => exact ⟨n, rfl, h⟩
    | black => simp [rootColor] at hroot

theorem lift_spec {g f : Frame β} {t : ColorTree β} {n : ℕ} (hroot : rootColor t = .red)
    (ht : NoRedRed t) (hbal : Balanced t n) (hf : NoRedRed f.sibling) (hfbal : Balanced f.sibling n)
    (hfroot : rootColor f.sibling = .black) (hg : NoRedRed g.sibling)
    (hgbal : Balanced g.sibling n) (hgroot : rootColor g.sibling = .black) :
    NoRedRed (lift g f t) ∧ rootColor (lift g f t) = .black ∧ Balanced (lift g f t) (n + 1) := by
  have htop : ∀ {d : Side} {b : β} {u v : ColorTree β}, NoRedRed u → NoRedRed v →
      NoRedRed (branch d .black b u v) := fun hu hv =>
    noRedRed_branch.mpr ⟨fun hc => absurd hc (by simp), hu, hv⟩
  rcases Side.eq_or_eq_flip g.side f.side with hside | hside
  · rw [lift_outer hside]
    refine ⟨htop ht (noRedRed_branch.mpr ⟨fun _ => ⟨hfroot, hgroot⟩, hf, hg⟩),
      rootColor_branch _ _ _ _ _, ?_⟩
    exact balanced_branch.mpr ⟨n, rfl, hbal, balanced_branch.mpr ⟨n, rfl, hfbal, hgbal⟩⟩
  · obtain ⟨c, z, x, y, rfl⟩ :=
      exists_branch g.side (t := t) (fun h => by simp [h, rootColor] at hroot)
    have hc : c = .red := by simpa using hroot
    obtain ⟨hkids, hx, hy⟩ := noRedRed_branch.mp ht
    obtain ⟨hxroot, hyroot⟩ := hkids hc
    obtain ⟨m, hm, hxbal, hybal⟩ := balanced_branch.mp hbal
    have hn : n = m := by rwa [hc] at hm
    rw [← hn] at hxbal hybal
    rw [lift_inner hside _ rfl]
    refine ⟨htop (noRedRed_branch.mpr ⟨fun _ => ⟨hfroot, hxroot⟩, hf, hx⟩)
      (noRedRed_branch.mpr ⟨fun _ => ⟨hyroot, hgroot⟩, hy, hg⟩), rootColor_branch _ _ _ _ _, ?_⟩
    exact balanced_branch.mpr ⟨n, rfl, balanced_branch.mpr ⟨n, rfl, hfbal, hxbal⟩,
      balanced_branch.mpr ⟨n, rfl, hybal, hgbal⟩⟩

/-- A red subtree whose only fault may be a red parent is repaired: the tree
is red-black once its root is painted. -/
theorem repair_redBlack {ctx : Context β} {t : ColorTree β} {n : ℕ} (hroot : rootColor t = .red)
    (ht : NoRedRed t) (hbal : Balanced t n) (hctx : HoleNoRedRed ctx) (hctxbal : HoleBalanced ctx n) :
    ∃ u, repair ctx t = some u ∧ RedBlack (paint .black u) := by
  induction ctx, t using repair.induct generalizing n with
  | case1 t =>
    exact ⟨t, rfl, rootColor_paint_black t, ht.paint_black, n + 1, hbal.paint_black hroot⟩
  | case2 f t hred => exact absurd (hctx.1 hred).2 (by simp [topColor])
  | case3 f t hblack =>
    have hfit : RedBlack (plug [f] t) := redBlack_plug.mpr
      ⟨ht, hctx, fun _ => Color.ne_red.mp hblack, n, hbal, hctxbal⟩
    exact ⟨_, if_neg hblack, hfit.paint_eq.symm ▸ hfit⟩
  | case4 f g ctx t hf hg ih =>
    obtain ⟨hfsib, hfred, hgctx⟩ := hctx
    obtain ⟨_, hgred, hctx⟩ := hgctx
    obtain ⟨hfbal, hgbal, hctxbal⟩ := hctxbal
    have hgblack : g.color = .black := (hfsib hf).2
    rw [hf] at hgbal hctxbal
    rw [hgblack] at hctxbal
    rw [repair, if_pos hf, if_pos hg]
    apply ih (rootColor_branch _ _ _ _ _)
    · exact noRedRed_branch.mpr ⟨fun _ => ⟨rootColor_branch _ _ _ _ _, rootColor_paint_black _⟩,
        noRedRed_branch.mpr ⟨fun hc => absurd hc (by simp), ht, hfred⟩, hgred.paint_black⟩
    · exact balanced_branch.mpr ⟨n + 1, rfl, balanced_branch.mpr ⟨n, rfl, hbal, hfbal⟩,
        hgbal.paint_black hg⟩
    · exact hctx
    · exact hctxbal
  | case5 f g ctx t hf hg =>
    obtain ⟨hfsib, hfred, hgctx⟩ := hctx
    obtain ⟨_, hgred, hctx⟩ := hgctx
    obtain ⟨hfbal, hgbal, hctxbal⟩ := hctxbal
    have hgblack : g.color = .black := (hfsib hf).2
    rw [hf] at hgbal hctxbal
    rw [hgblack] at hctxbal
    obtain ⟨hlift, hlroot, hlbal⟩ := lift_spec hroot ht hbal hfred hfbal (hfsib hf).1 hgred hgbal
      (Color.ne_red.mp hg)
    have hfit : RedBlack (plug ctx (lift g f t)) := redBlack_plug.mpr
      ⟨hlift, hctx, fun hc => absurd (hlroot.symm.trans hc) (by simp), n + 1, hlbal, hctxbal⟩
    refine ⟨_, ?_, hfit.paint_eq.symm ▸ hfit⟩
    rw [repair, if_pos hf, if_neg hg]
  | case6 f g ctx t hf =>
    have hfit : RedBlack (plug (f :: g :: ctx) t) := redBlack_plug.mpr
      ⟨ht, hctx, fun _ => Color.ne_red.mp hf, n, hbal, hctxbal⟩
    refine ⟨_, ?_, hfit.paint_eq.symm ▸ hfit⟩
    rw [repair, if_neg hf]

/-! ### Taking a node out -/

theorem Balanced.of_leaf {n : ℕ} (h : Balanced (leaf : ColorTree β) n) : n = 0 := h

/-- A black root counts. -/
theorem Balanced.pos {t : ColorTree β} {n : ℕ} (h : Balanced t n) (ht : t ≠ leaf)
    (hroot : rootColor t = .black) : 0 < n := by
  obtain ⟨c, a, u, v, rfl⟩ := exists_branch .left ht
  obtain ⟨m, hm, _⟩ := balanced_branch.mp h
  rw [rootColor_branch] at hroot
  rw [hm, hroot]
  exact Nat.succ_pos m

/-- The only child of a black node is red. -/
theorem rootColor_only_child {ctx : Context β} {d : Side} {c : Color} {a : β} {x : ColorTree β}
    (h : RedBlack (plug ctx (branch d c a x leaf))) (hx : x ≠ leaf) : rootColor x = .red := by
  obtain ⟨_, _, _, n, hbal, _⟩ := redBlack_plug.mp h
  obtain ⟨m, _, hxbal, hleaf⟩ := balanced_branch.mp hbal
  rw [hleaf.of_leaf] at hxbal
  by_contra hblack
  exact absurd (hxbal.pos hx (Color.ne_red.mp hblack)) (Nat.lt_irrefl 0)

/-- The only child takes the place of its parent, in black: the tree stays
red-black exactly when the parent was red, had that child or was the root. -/
theorem redBlack_cut {ctx : Context β} {d : Side} {c : Color} {a : β} {x : ColorTree β}
    (h : RedBlack (plug ctx (branch d c a x leaf))) :
    RedBlack (plug ctx (paint .black x)) ↔ c = .red ∨ x ≠ leaf ∨ ctx = [] := by
  obtain ⟨hred, hctx, htop, n, hbal, hctxbal⟩ := redBlack_plug.mp h
  obtain ⟨hkids, hxred, _⟩ := noRedRed_branch.mp hred
  obtain ⟨m, rfl, hxbal, hleaf⟩ := balanced_branch.mp hbal
  rw [hleaf.of_leaf] at hxbal hctxbal
  rw [redBlack_plug, rootColor_paint_black]
  constructor
  · rintro ⟨_, _, _, k, hk, hctxk⟩
    by_contra hnone
    simp only [not_or, not_not] at hnone
    obtain ⟨hc, hx, hctxne⟩ := hnone
    obtain ⟨f, ctx', rfl⟩ := List.exists_cons_of_ne_nil hctxne
    have hk0 : k = 0 := by
      rw [hx] at hk
      exact hk.of_leaf
    rw [hk0] at hctxk
    rw [Color.ne_red.mp hc] at hctxbal
    exact absurd (hctxk.1.unique hctxbal.1) (by simp [above])
  · intro hcond
    refine ⟨hxred.paint_black, hctx, by simp, ?_⟩
    by_cases hx : x = leaf
    · rw [hx]
      rcases hcond with hc | hne | rfl
      · rw [hc] at hctxbal
        exact ⟨0, rfl, hctxbal⟩
      · exact absurd hx hne
      · exact ⟨0, rfl, trivial⟩
    · have hxroot := rootColor_only_child h hx
      have hc : c = .black := by
        by_contra hc
        exact absurd ((hkids (Color.ne_black.mp hc)).1.symm.trans hxroot) (by simp)
      rw [hc] at hctxbal
      exact ⟨1, hxbal.paint_black hxroot, hctxbal⟩

/-- Seen from the node taken out, the tree was red-black before. -/
theorem redBlack_uncut (move : β → β → β) {ctx : Context β} {c : Color} {a : β} {l r : ColorTree β}
    (h : RedBlack (plug ctx (node c a l r))) : ∃ d b, RedBlack
      (plug (excise move ctx c a l r).context
        (branch d (excise move ctx c a l r).color b (excise move ctx c a l r).rest leaf)) := by
  rcases excise_cases move ctx c a l r with ⟨d, x, hnode, hcut⟩ | ⟨c', a', l', r', _, hr, hcut⟩
  · rw [hcut]
    exact ⟨d, a, hnode ▸ h⟩
  · rw [hcut]
    refine ⟨.right, (slide [] c' a' l' r').label, ?_⟩
    rw [plug_append, plug_cons, redBlack_relabel _ a, plug_slide, plug_nil, ← hr]
    exact h

/-- Taking a node out of a red-black tree: exactly a childless black node that
is not the root leaves a tree that is not red-black. -/
theorem redBlack_excise (move : β → β → β) {ctx : Context β} {c : Color} {a : β}
    {l r : ColorTree β} (h : RedBlack (plug ctx (node c a l r))) :
    RedBlack (plug (excise move ctx c a l r).context (paint .black (excise move ctx c a l r).rest)) ↔
      (excise move ctx c a l r).color = .red ∨ (excise move ctx c a l r).rest ≠ leaf ∨
        (excise move ctx c a l r).context = [] := by
  obtain ⟨d, b, huncut⟩ := redBlack_uncut move h
  exact redBlack_cut huncut

/-- The only child is red, so its parent is black. -/
theorem excise_rest (move : β → β → β) {ctx : Context β} {c : Color} {a : β} {l r : ColorTree β}
    (h : RedBlack (plug ctx (node c a l r))) (hrest : (excise move ctx c a l r).rest ≠ leaf) :
    rootColor (excise move ctx c a l r).rest = .red ∧ (excise move ctx c a l r).color = .black := by
  obtain ⟨d, b, huncut⟩ := redBlack_uncut move h
  have hroot := rootColor_only_child huncut hrest
  refine ⟨hroot, ?_⟩
  obtain ⟨hkids, _⟩ := noRedRed_branch.mp (redBlack_plug.mp huncut).1
  by_contra hc
  exact absurd ((hkids (Color.ne_black.mp hc)).1.symm.trans hroot) (by simp)

/-! ### Height -/

/-- At most every other node on a way down is red. -/
theorem height_le_two_mul {t : ColorTree β} {n : ℕ} (h : Balanced t n) (hred : NoRedRed t) :
    height t ≤ 2 * n + 1 ∧ (rootColor t = .black → height t ≤ 2 * n) := by
  induction t generalizing n with
  | leaf => exact ⟨Nat.zero_le _, fun _ => Nat.zero_le _⟩
  | node c a l r ihl ihr =>
    obtain ⟨hkids, hl, hr⟩ := hred
    cases c with
    | red =>
      obtain ⟨hbl, hbr⟩ := h
      obtain ⟨hkl, hkr⟩ := hkids rfl
      have hlow := (ihl hbl hl).2 hkl
      have hhigh := (ihr hbr hr).2 hkr
      refine ⟨?_, fun hblack => by cases hblack⟩
      simp only [height]
      omega
    | black =>
      obtain ⟨m, rfl, hbl, hbr⟩ := h
      have hlow := (ihl hbl hl).1
      have hhigh := (ihr hbr hr).1
      simp only [height]
      exact ⟨by omega, fun _ => by omega⟩

/-- The black nodes alone make a full tree. -/
theorem two_pow_le_length {t : ColorTree β} {n : ℕ} (h : Balanced t n) :
    2 ^ n ≤ (inorder t).length + 1 := by
  induction t generalizing n with
  | leaf =>
    cases h
    exact le_refl _
  | node c a l r ihl ihr =>
    cases c with
    | red =>
      obtain ⟨hl, hr⟩ := h
      have hlow := ihl hl
      have hhigh := ihr hr
      simp only [inorder, List.length_append, List.length_cons]
      omega
    | black =>
      obtain ⟨m, rfl, hl, hr⟩ := h
      have hlow := ihl hl
      have hhigh := ihr hr
      simp only [inorder, List.length_append, List.length_cons, Nat.pow_succ]
      omega

theorem RedBlack.height_le {t : ColorTree β} (h : RedBlack t) :
    height t ≤ 2 * Nat.log2 ((inorder t).length + 1) := by
  obtain ⟨n, hn⟩ := h.balanced
  have hheight := (height_le_two_mul hn h.noRedRed).2 h.root
  have hlog : n ≤ Nat.log2 ((inorder t).length + 1) :=
    (Nat.le_log2 (Nat.succ_ne_zero _)).mpr (two_pow_le_length hn)
  omega

end Ppdb.RedBlackTrees
