import Mathlib.Data.List.Basic
import Mathlib.Order.Lattice

/-!
Binary trees with a colour and a label at each node, and their contexts: the
path from a position back to the root, with the subtrees passed by. Both come
in a form that is symmetric in left and right, so that an algorithm written
twice, once for each side, is reasoned about once.
-/

namespace Ppdb.ColoredTrees

inductive Side
  | left
  | right
  deriving DecidableEq, Repr

def Side.flip : Side → Side
  | left => right
  | right => left

@[simp] theorem Side.flip_flip (d : Side) : d.flip.flip = d := by cases d <;> rfl

theorem Side.flip_ne (d : Side) : d.flip ≠ d := by cases d <;> simp [Side.flip]

theorem Side.eq_or_eq_flip (d e : Side) : e = d ∨ e = d.flip := by
  cases d <;> cases e <;> simp [Side.flip]

inductive Color
  | red
  | black
  deriving DecidableEq, Repr

theorem Color.ne_black {c : Color} : c ≠ .black ↔ c = .red := by cases c <;> simp

theorem Color.ne_red {c : Color} : c ≠ .red ↔ c = .black := by cases c <;> simp

inductive ColorTree (β : Type)
  | leaf
  | node (color : Color) (label : β) (left right : ColorTree β)
  deriving DecidableEq, Repr

variable {β : Type}

namespace ColorTree

def branch (d : Side) (c : Color) (a : β) (t u : ColorTree β) : ColorTree β :=
  match d with
  | .left => node c a t u
  | .right => node c a u t

theorem branch_flip (d : Side) (c : Color) (a : β) (t u : ColorTree β) :
    branch d.flip c a t u = branch d c a u t := by
  cases d <;> rfl

theorem branch_ne_leaf (d : Side) (c : Color) (a : β) (t u : ColorTree β) :
    branch d c a t u ≠ leaf := by
  cases d <;> simp [branch]

theorem exists_branch (d : Side) {t : ColorTree β} (h : t ≠ leaf) :
    ∃ c a u v, t = branch d c a u v := by
  cases t with
  | leaf => exact absurd rfl h
  | node c a l r =>
    cases d with
    | left => exact ⟨c, a, l, r, rfl⟩
    | right => exact ⟨c, a, r, l, rfl⟩

/-- An absent node counts as black. -/
def rootColor : ColorTree β → Color
  | leaf => .black
  | node c _ _ _ => c

def paint (c : Color) : ColorTree β → ColorTree β
  | leaf => leaf
  | node _ a l r => node c a l r

@[simp] theorem rootColor_branch (d : Side) (c : Color) (a : β) (t u : ColorTree β) :
    rootColor (branch d c a t u) = c := by
  cases d <;> rfl

@[simp] theorem paint_branch (d : Side) (c c' : Color) (a : β) (t u : ColorTree β) :
    paint c' (branch d c a t u) = branch d c' a t u := by
  cases d <;> rfl

def inorder : ColorTree β → List β
  | leaf => []
  | node _ a l r => inorder l ++ a :: inorder r

@[simp] theorem inorder_paint (c : Color) (t : ColorTree β) : inorder (paint c t) = inorder t := by
  cases t <;> rfl

/-- The order does not see the colour of a node. -/
theorem inorder_branch_color (d : Side) (c c' : Color) (a : β) (t u : ColorTree β) :
    inorder (branch d c a t u) = inorder (branch d c' a t u) := by
  cases d <;> rfl

def child (d : Side) : ColorTree β → ColorTree β
  | leaf => leaf
  | node _ _ l r => match d with
    | .left => l
    | .right => r

@[simp] theorem child_branch (d : Side) (c : Color) (a : β) (t u : ColorTree β) :
    child d (branch d c a t u) = t := by
  cases d <;> rfl

@[simp] theorem child_flip_branch (d : Side) (c : Color) (a : β) (t u : ColorTree β) :
    child d.flip (branch d c a t u) = u := by
  cases d <;> rfl

def height : ColorTree β → ℕ
  | leaf => 0
  | node _ _ l r => max (height l) (height r) + 1

end ColorTree

open ColorTree

/-- One step up: the side from which the node is reached, the node, and its
other child. -/
structure Frame (β : Type) where
  side : Side
  color : Color
  label : β
  sibling : ColorTree β
  deriving DecidableEq, Repr

/-- The way from a position up to the root. -/
abbrev Context (β : Type) := List (Frame β)

def plug : Context β → ColorTree β → ColorTree β
  | [], t => t
  | f :: ctx, t => plug ctx (branch f.side f.color f.label t f.sibling)

@[simp] theorem plug_nil (t : ColorTree β) : plug [] t = t := rfl

theorem plug_cons (f : Frame β) (ctx : Context β) (t : ColorTree β) :
    plug (f :: ctx) t = plug ctx (branch f.side f.color f.label t f.sibling) := rfl

theorem plug_append (ctx ctx' : Context β) (t : ColorTree β) :
    plug (ctx ++ ctx') t = plug ctx' (plug ctx t) := by
  induction ctx generalizing t with
  | nil => rfl
  | cons f ctx ih => exact ih _

theorem plug_ne_leaf (ctx : Context β) {t : ColorTree β} (ht : t ≠ leaf) : plug ctx t ≠ leaf := by
  induction ctx generalizing t with
  | nil => exact ht
  | cons f ctx ih => exact ih (branch_ne_leaf _ _ _ _ _)

/-- Moving the attention from a child to its sibling. -/
theorem plug_sibling (d : Side) (c : Color) (a : β) (t u : ColorTree β) (ctx : Context β) :
    plug (⟨d, c, a, u⟩ :: ctx) t = plug (⟨d.flip, c, a, t⟩ :: ctx) u := by
  rw [plug_cons, plug_cons, branch_flip]

def before : Context β → List β
  | [] => []
  | f :: ctx => before ctx ++ match f.side with
    | .left => []
    | .right => inorder f.sibling ++ [f.label]

def after : Context β → List β
  | [] => []
  | f :: ctx => (match f.side with
    | .left => f.label :: inorder f.sibling
    | .right => []) ++ after ctx

theorem inorder_plug (ctx : Context β) (t : ColorTree β) :
    inorder (plug ctx t) = before ctx ++ (inorder t ++ after ctx) := by
  induction ctx generalizing t with
  | nil => simp [before, after]
  | cons f ctx ih =>
    obtain ⟨d, c, a, u⟩ := f
    rw [plug_cons, ih]
    cases d <;> simp [branch, inorder, before, after]

/-- Subtrees with the same labels in the same order are exchangeable. -/
theorem inorder_plug_congr (ctx : Context β) {t u : ColorTree β} (h : inorder t = inorder u) :
    inorder (plug ctx t) = inorder (plug ctx u) := by
  rw [inorder_plug, inorder_plug, h]

/-- A rotation: the child of `a` on the far side comes up. -/
theorem inorder_rotate (d : Side) (c c' : Color) (a b : β) (t u v : ColorTree β) :
    inorder (branch d c' b (branch d c a t u) v) =
      inorder (branch d c a t (branch d.flip c' b v u)) := by
  cases d <;> simp [branch, inorder, Side.flip]

/-! ### Search -/

section Search
variable {κ : Type} [LinearOrder κ] (key : β → κ)

/-- The position at which the search for `k` stops: the node that has it, or
the place where it would go. -/
def seek (k : κ) : Context β → ColorTree β → Context β × ColorTree β
  | ctx, leaf => (ctx, leaf)
  | ctx, node c a l r =>
    if k < key a then seek k (⟨.left, c, a, r⟩ :: ctx) l
    else if key a < k then seek k (⟨.right, c, a, l⟩ :: ctx) r
    else (ctx, node c a l r)

theorem plug_seek (k : κ) (ctx : Context β) (t : ColorTree β) :
    plug (seek key k ctx t).1 (seek key k ctx t).2 = plug ctx t := by
  induction t generalizing ctx with
  | leaf => rfl
  | node c a l r ihl ihr =>
    unfold seek
    split
    · exact ihl _
    · split
      · exact ihr _
      · rfl

def Sorted (as : List β) : Prop := as.Pairwise fun a b => key a < key b

/-- The hole is where `k` belongs: what comes before is smaller, what comes
after is greater. -/
def Around (k : κ) (ctx : Context β) : Prop :=
  (∀ a ∈ before ctx, key a < k) ∧ ∀ a ∈ after ctx, k < key a

theorem around_left {k : κ} {ctx : Context β} {c : Color} {a : β} {l r : ColorTree β}
    (hsorted : Sorted key (inorder (plug ctx (node c a l r)))) (h : Around key k ctx)
    (hlt : k < key a) : Around key k (⟨.left, c, a, r⟩ :: ctx) := by
  refine ⟨?_, ?_⟩
  · simpa [before] using h.1
  · rw [inorder_plug] at hsorted
    obtain ⟨_, hmid, _⟩ := List.pairwise_append.mp hsorted
    obtain ⟨hnode, _, _⟩ := List.pairwise_append.mp hmid
    obtain ⟨_, hright, _⟩ := List.pairwise_append.mp hnode
    intro b hb
    have hb' : b = a ∨ b ∈ inorder r ∨ b ∈ after ctx := by simpa [after, or_assoc] using hb
    rcases hb' with rfl | hb | hb
    · exact hlt
    · exact lt_trans hlt ((List.pairwise_cons.mp hright).1 b hb)
    · exact h.2 b hb

theorem around_right {k : κ} {ctx : Context β} {c : Color} {a : β} {l r : ColorTree β}
    (hsorted : Sorted key (inorder (plug ctx (node c a l r)))) (h : Around key k ctx)
    (hlt : key a < k) : Around key k (⟨.right, c, a, l⟩ :: ctx) := by
  refine ⟨?_, ?_⟩
  · rw [inorder_plug] at hsorted
    obtain ⟨_, hmid, _⟩ := List.pairwise_append.mp hsorted
    obtain ⟨hnode, _, _⟩ := List.pairwise_append.mp hmid
    obtain ⟨_, _, hleft⟩ := List.pairwise_append.mp hnode
    intro b hb
    have hb' : b ∈ before ctx ∨ b ∈ inorder l ∨ b = a := by simpa [before] using hb
    rcases hb' with hb | hb | rfl
    · exact h.1 b hb
    · exact lt_trans (hleft b hb a List.mem_cons_self) hlt
    · exact hlt
  · simpa [after] using h.2

/-- In a sorted tree the search stops where the key belongs. -/
theorem around_seek (k : κ) {ctx : Context β} {t : ColorTree β}
    (hsorted : Sorted key (inorder (plug ctx t))) (h : Around key k ctx) :
    Around key k (seek key k ctx t).1 := by
  induction t generalizing ctx with
  | leaf => exact h
  | node c a l r ihl ihr =>
    unfold seek
    split
    · exact ihl hsorted (around_left key hsorted h ‹_›)
    · split
      · exact ihr hsorted (around_right key hsorted h ‹_›)
      · exact h

section Root
variable {k : κ} {ctx : Context β} {t u : ColorTree β}

theorem plug_of_seek (h : seek key k [] t = (ctx, u)) : plug ctx u = t := by
  have hback := plug_seek key k [] t
  rwa [h] at hback

theorem around_of_seek (hsorted : Sorted key (inorder t)) (h : seek key k [] t = (ctx, u)) :
    Around key k ctx := by
  have haround : Around key k (seek key k [] t).1 :=
    around_seek key k hsorted ⟨by simp [before], by simp [after]⟩
  rwa [h] at haround

end Root

/-- If the search stops at a node, that node has the key. -/
theorem key_of_seek (k : κ) {ctx ctx' : Context β} {t l r : ColorTree β} {c : Color} {a : β}
    (h : seek key k ctx t = (ctx', node c a l r)) : key a = k := by
  induction t generalizing ctx with
  | leaf => simp [seek] at h
  | node c' a' l' r' ihl ihr =>
    unfold seek at h
    split at h
    · exact ihl h
    · split at h
      · exact ihr h
      · obtain ⟨_, hnode⟩ := Prod.mk.inj h
        injection hnode with _ ha
        rw [← ha]
        exact le_antisymm (not_lt.mp ‹_›) (not_lt.mp ‹_›)

end Search

/-! ### Taking a node out -/

/-- A node with at most one child: where it is, and that child. -/
structure Cut (β : Type) where
  context : Context β
  color : Color
  label : β
  rest : ColorTree β
  deriving DecidableEq, Repr

/-- The way down the left links to the leftmost node. -/
def slide : Context β → Color → β → ColorTree β → ColorTree β → Cut β
  | ctx, c, a, leaf, r => ⟨ctx, c, a, r⟩
  | ctx, c, a, node c' a' l r', r => slide (⟨.left, c, a, r⟩ :: ctx) c' a' l r'

/-- The node to take out in order to remove `a`: that of `a` itself, or the
next one in order, whose label then goes where `a` was. -/
def excise (move : β → β → β) (ctx : Context β) (c : Color) (a : β) :
    ColorTree β → ColorTree β → Cut β
  | leaf, r => ⟨ctx, c, a, r⟩
  | node lc la ll lr, leaf => ⟨ctx, c, a, node lc la ll lr⟩
  | node lc la ll lr, node c' a' l' r' =>
    let cut := slide [] c' a' l' r'
    ⟨cut.context ++ ⟨.right, c, move a cut.label, node lc la ll lr⟩ :: ctx, cut.color, cut.label,
      cut.rest⟩

theorem slide_append (ctx ctx' : Context β) (c : Color) (a : β) (l r : ColorTree β) :
    slide (ctx ++ ctx') c a l r =
      { slide ctx c a l r with context := (slide ctx c a l r).context ++ ctx' } := by
  induction l generalizing ctx c a r with
  | leaf => rfl
  | node c' a' l' r' ihl _ => exact ihl (⟨.left, c, a, r⟩ :: ctx) c' a' r'

theorem plug_slide (ctx : Context β) (c : Color) (a : β) (l r : ColorTree β) :
    plug (slide ctx c a l r).context
      (branch .right (slide ctx c a l r).color (slide ctx c a l r).label (slide ctx c a l r).rest leaf)
        = plug ctx (node c a l r) := by
  induction l generalizing ctx c a r with
  | leaf => rfl
  | node c' a' l' r' ihl _ => exact ihl (⟨.left, c, a, r⟩ :: ctx) c' a' r'

theorem before_slide (ctx : Context β) (c : Color) (a : β) (l r : ColorTree β) :
    before (slide ctx c a l r).context = before ctx := by
  induction l generalizing ctx c a r with
  | leaf => rfl
  | node c' a' l' r' ihl _ =>
    refine (ihl (⟨.left, c, a, r⟩ :: ctx) c' a' r').trans ?_
    simp [before]

/-- The leftmost node comes first in the order. -/
theorem inorder_slide (c : Color) (a : β) (l r : ColorTree β) :
    inorder (node c a l r) = (slide [] c a l r).label ::
      inorder (plug (slide [] c a l r).context (slide [] c a l r).rest) := by
  have hplug := congrArg inorder (plug_slide [] c a l r)
  rw [plug_nil] at hplug
  rw [← hplug, inorder_plug, inorder_plug, before_slide]
  simp [before, branch, inorder]

/-- The node taken out is that of the label, or the leftmost on its right. -/
theorem excise_cases (move : β → β → β) (ctx : Context β) (c : Color) (a : β) (l r : ColorTree β) :
    (∃ d x, node c a l r = branch d c a x leaf ∧ excise move ctx c a l r = ⟨ctx, c, a, x⟩) ∨
    ∃ c' a' l' r', l ≠ leaf ∧ r = node c' a' l' r' ∧
      excise move ctx c a l r = ⟨(slide [] c' a' l' r').context ++
        ⟨.right, c, move a (slide [] c' a' l' r').label, l⟩ :: ctx, (slide [] c' a' l' r').color,
        (slide [] c' a' l' r').label, (slide [] c' a' l' r').rest⟩ := by
  cases l with
  | leaf => exact Or.inl ⟨.right, r, rfl, rfl⟩
  | node lc la ll lr =>
    cases r with
    | leaf => exact Or.inl ⟨.left, node lc la ll lr, rfl, rfl⟩
    | node c' a' l' r' => exact Or.inr ⟨c', a', l', r', by simp, rfl, rfl⟩

/-- In what the labels carry over when they move, one entry is gone. -/
theorem map_inorder_excise {γ : Type} (π : β → γ) {move : β → β → β}
    (hmove : ∀ a b, π (move a b) = π b) (ctx : Context β) (c : Color) (a : β) (l r : ColorTree β) :
    (inorder (plug (excise move ctx c a l r).context (excise move ctx c a l r).rest)).map π =
      (before ctx ++ inorder l).map π ++ (inorder r ++ after ctx).map π := by
  rcases excise_cases move ctx c a l r with ⟨d, x, hnode, hcut⟩ | ⟨c', a', l', r', _, hr, hcut⟩
  · have horder : inorder l ++ inorder r = inorder x := by
      cases d <;> obtain ⟨rfl, rfl⟩ : _ ∧ _ := by simpa [branch] using hnode
      · simp [inorder]
      · simp [inorder]
    rw [hcut, inorder_plug, ← horder]
    simp
  · rw [hcut, hr, inorder_slide, plug_append, plug_cons, inorder_plug]
    simp [branch, inorder, hmove]

end Ppdb.ColoredTrees
