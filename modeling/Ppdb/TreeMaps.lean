import Ppdb.TreeRemoval
import Ppdb.SortedMaps

/-!
The tree as a finite map. Read in order, a search tree is an ascending list of
keys and values. On every such tree, whatever its colours, the operations do
to the map what they are for, or follow a null pointer; on a red-black tree
they do not fault, and insertion leaves a red-black tree.
-/

namespace Ppdb.TreeMaps

open ColoredTrees ColorTree RedBlackTrees TreeOperations TreeRepresentation TreeInsertion
  TreeRemoval EventualResults SortedMaps

def binding (a : Entry) : ℤ × ℕ := (a.key, a.value)

def contents (t : EntryTree) : List (ℤ × ℕ) := (inorder t).map binding

/-- The state holds a search tree, with the number of its nodes. -/
structure Holds (s : State) (t : EntryTree) : Prop where
  represents : Represents s t
  ascending : Ascending (contents t)
  size : s.size = (contents t).length

theorem create_holds : Holds infraRbtreeCreate leaf :=
  ⟨⟨rfl, trivial, List.nodup_nil, List.not_mem_nil⟩, List.Pairwise.nil, rfl⟩

theorem redBlack_leaf : RedBlack (leaf : EntryTree) := ⟨rfl, trivial, 0, rfl⟩

theorem sorted_iff (t : EntryTree) : Sorted Entry.key (inorder t) ↔ Ascending (contents t) := by
  simp [Sorted, Ascending, contents, binding, List.pairwise_map]

theorem Holds.sorted {s : State} {t : EntryTree} (h : Holds s t) : Sorted Entry.key (inorder t) :=
  (sorted_iff t).mpr h.ascending

section Position
variable {t : EntryTree} {ctx : Context Entry} {c : Color} {a : Entry} {l r : EntryTree} {key : ℤ}

theorem contents_plug (ctx : Context Entry) (t : EntryTree) : contents (plug ctx t) =
    (before ctx).map binding ++ (contents t ++ (after ctx).map binding) := by
  simp [contents, inorder_plug]

theorem contents_node (ctx : Context Entry) (c : Color) (a : Entry) (l r : EntryTree) :
    contents (plug ctx (node c a l r)) = (before ctx ++ inorder l).map binding ++
      binding a :: (inorder r ++ after ctx).map binding := by
  rw [contents_plug]
  simp [contents, inorder]

/-- Where the search ends at a node, the list has the key with its value. -/
theorem contents_of_seek (hseek : seek Entry.key key [] t = (ctx, node c a l r)) :
    contents t = ((before ctx ++ inorder l).map binding) ++
      (key, a.value) :: ((inorder r ++ after ctx).map binding) := by
  rw [← plug_of_seek _ hseek, ← key_of_seek _ _ hseek, contents_node]
  rfl

/-- Where it ends at no node, the list has a gap for the key. -/
theorem gap_of_seek (hasc : Ascending (contents t)) (hseek : seek Entry.key key [] t = (ctx, leaf)) :
    contents t = (before ctx).map binding ++ (after ctx).map binding ∧
      (∀ b ∈ (before ctx).map binding, b.1 < key) ∧ ∀ b ∈ (after ctx).map binding, key < b.1 := by
  obtain ⟨hbefore, hafter⟩ := around_of_seek _ ((sorted_iff t).mpr hasc) hseek
  refine ⟨?_, ?_, ?_⟩
  · rw [← plug_of_seek _ hseek, contents_plug]
    rfl
  · intro b hb
    obtain ⟨a, ha, rfl⟩ := List.mem_map.mp hb
    exact hbefore a ha
  · intro b hb
    obtain ⟨a, ha, rfl⟩ := List.mem_map.mp hb
    exact hafter a ha

theorem not_mem_of_gap {B A : List (ℤ × ℕ)} {m : ℤ → Option ℕ} (hm : Denotes (B ++ A) m)
    (hB : ∀ b ∈ B, b.1 < key) (hA : ∀ b ∈ A, key < b.1) : m key = none := by
  apply hm.none_iff.mpr
  intro v hmem
  rcases List.mem_append.mp hmem with hb | ha
  · exact lt_irrefl key (hB _ hb)
  · exact lt_irrefl key (hA _ ha)

end Position

/-! ### Insertion -/

section Insert
variable {s : State} {t : EntryTree} {ctx : Context Entry} {key : ℤ} {value reply : ℕ}

theorem insert_overwrites (h : Holds s t) (hreply : reply ≠ 0) (hfree : s.heap reply = none)
    {c : Color} {a : Entry} {l r : EntryTree}
    (hseek : seek Entry.key key [] t = (ctx, node c a l r)) :
    ∃ s', Settles (fun fuel => infraRbtreeInsert fuel reply s key value) (.ok (s', .ok)) ∧
      Holds s' (plug ctx (node c { a with value := value } l r)) ∧ s'.size = s.size ∧
      ∀ m, Denotes (contents t) m →
        Denotes (contents (plug ctx (node c { a with value := value } l r)))
          (Function.update m key (some value)) := by
  obtain ⟨s', hrun, hrep, hsize, _⟩ := insert_present h.represents hreply hfree hseek
  have hold := contents_of_seek hseek
  have hnew : contents (plug ctx (node c { a with value := value } l r)) =
      (before ctx ++ inorder l).map binding ++ (key, value) :: (inorder r ++ after ctx).map binding := by
    rw [contents_node, ← key_of_seek _ _ hseek]
    rfl
  have hasc := h.ascending
  rw [hold] at hasc
  refine ⟨s', hrun, ⟨hrep, ?_, ?_⟩, hsize, fun m hm => ?_⟩
  · rw [hnew]
    exact hasc.overwrite value
  · rw [hsize, h.size, hold, hnew]
    simp
  · rw [hold] at hm
    rw [hnew]
    exact hm.overwrite hasc value

/-- A tree with the new entry in the gap for its key. -/
theorem holds_added (h : Holds s t) (hseek : seek Entry.key key [] t = (ctx, leaf)) {s' : State}
    {u : EntryTree} (hrep : Represents s' u) (hsize : s'.size = s.size + 1)
    (horder : inorder u = before ctx ++ ⟨reply, key, value⟩ :: after ctx) :
    Holds s' u ∧ ∀ m, Denotes (contents t) m →
      Denotes (contents u) (Function.update m key (some value)) := by
  obtain ⟨hold, hbefore, hafter⟩ := gap_of_seek h.ascending hseek
  have hnew : contents u = (before ctx).map binding ++ (key, value) :: (after ctx).map binding := by
    rw [contents, horder, List.map_append, List.map_cons]
    rfl
  have hasc := h.ascending
  rw [hold] at hasc
  refine ⟨⟨hrep, ?_, ?_⟩, fun m hm => ?_⟩
  · rw [hnew]
    exact hasc.insert hbefore hafter value
  · rw [hsize, h.size, hold, hnew]
    simp [Nat.add_assoc]
  · rw [hold] at hm
    rw [hnew]
    exact hm.insert (not_mem_of_gap hm hbefore hafter) value

theorem inorder_new (ctx : Context Entry) (e : Entry) :
    inorder (plug ctx (branch .left .red e leaf leaf)) = before ctx ++ e :: after ctx := by
  rw [inorder_plug]
  rfl

/-- Whatever the colours, insertion enters the pair, unless the repair follows
a null pointer. -/
theorem insert_holds (h : Holds s t) (hreply : reply ≠ 0) (hfree : s.heap reply = none)
    {m : ℤ → Option ℕ} (hm : Denotes (contents t) m) :
    Settles (fun fuel => infraRbtreeInsert fuel reply s key value) (.error .nullDeref) ∨
    ∃ s' t', Settles (fun fuel => infraRbtreeInsert fuel reply s key value) (.ok (s', .ok)) ∧
      Holds s' t' ∧ Denotes (contents t') (Function.update m key (some value)) := by
  rcases hseek : seek Entry.key key [] t with ⟨ctx, u⟩
  cases u with
  | node c a l r =>
    obtain ⟨s', hrun, hholds, _, hmap⟩ := insert_overwrites h hreply hfree hseek
    exact Or.inr ⟨s', _, hrun, hholds, hmap m hm⟩
  | leaf =>
    obtain ⟨hstuck, hdone⟩ := insert_new h.represents hreply hfree h.sorted hseek
    cases hrepair : repair ctx (branch .left .red ⟨reply, key, value⟩ leaf leaf) with
    | none => exact Or.inl (hstuck hrepair)
    | some u =>
      obtain ⟨s', hrun, hrep, hsize, _⟩ := hdone u hrepair
      have horder : inorder (paint .black u) = before ctx ++ ⟨reply, key, value⟩ :: after ctx := by
        rw [inorder_paint, inorder_repair (branch_ne_leaf _ _ _ _ _) hrepair, inorder_new]
      obtain ⟨hholds, hmap⟩ := holds_added h hseek hrep hsize horder
      exact Or.inr ⟨s', _, hrun, hholds, hmap m hm⟩

/-- On a red-black tree the repair comes to its end, and the result is
red-black again. -/
theorem insert_adds (h : Holds s t) (hred : RedBlack t) (hreply : reply ≠ 0)
    (hfree : s.heap reply = none) (hseek : seek Entry.key key [] t = (ctx, leaf)) :
    ∃ s' t', Settles (fun fuel => infraRbtreeInsert fuel reply s key value) (.ok (s', .ok)) ∧
      Holds s' t' ∧ RedBlack t' ∧ s'.size = s.size + 1 ∧
      inorder t' = before ctx ++ ⟨reply, key, value⟩ :: after ctx := by
  have hplug := plug_of_seek _ hseek
  rw [← hplug] at hred
  obtain ⟨_, hctx, _, n, hn, hctxbal⟩ := redBlack_plug.mp hred
  rw [hn.of_leaf] at hctxbal
  have hnode : NoRedRed (branch .left .red (⟨reply, key, value⟩ : Entry) leaf leaf) :=
    noRedRed_branch.mpr ⟨fun _ => ⟨rfl, rfl⟩, trivial, trivial⟩
  have hbal : Balanced (branch .left .red (⟨reply, key, value⟩ : Entry) leaf leaf) 0 :=
    balanced_branch.mpr ⟨0, rfl, rfl, rfl⟩
  obtain ⟨u, hrepair, hgood⟩ :=
    repair_redBlack (rootColor_branch _ _ _ _ _) hnode hbal hctx hctxbal
  obtain ⟨_, hdone⟩ := insert_new h.represents hreply hfree h.sorted hseek
  obtain ⟨s', hrun, hrep, hsize, _⟩ := hdone u hrepair
  have horder : inorder (paint .black u) = before ctx ++ ⟨reply, key, value⟩ :: after ctx := by
    rw [inorder_paint, inorder_repair (branch_ne_leaf _ _ _ _ _) hrepair, inorder_new]
  exact ⟨s', _, hrun, (holds_added h hseek hrep hsize horder).1, hgood, hsize, horder⟩

/-- `infra_rbtree_insert` on a red-black tree: without memory nothing changes,
a key that is present gets the value where it is, and a new key adds one node
to a tree that is red-black again. -/
theorem insert_redBlack (h : Holds s t) (hred : RedBlack t) (hfree : s.heap reply = none)
    (key : ℤ) (value : ℕ) :
    (reply = 0 ∧ Settles (fun fuel => infraRbtreeInsert fuel reply s key value)
      (.ok (s, .noMemory))) ∨
    (∃ s' ctx c a l r, t = plug ctx (node c a l r) ∧ a.key = key ∧
      Settles (fun fuel => infraRbtreeInsert fuel reply s key value) (.ok (s', .ok)) ∧
      Holds s' (plug ctx (node c { a with value := value } l r)) ∧
      RedBlack (plug ctx (node c { a with value := value } l r)) ∧ s'.size = s.size) ∨
    ∃ s' t' B A, Settles (fun fuel => infraRbtreeInsert fuel reply s key value) (.ok (s', .ok)) ∧
      Holds s' t' ∧ RedBlack t' ∧ s'.size = s.size + 1 ∧ inorder t = B ++ A ∧
      inorder t' = B ++ ⟨reply, key, value⟩ :: A := by
  by_cases hreply : reply = 0
  · refine Or.inl ⟨hreply, (settles_const _).of_eq ?_⟩
    intro fuel
    rw [infraRbtreeInsert, if_pos hreply]
  right
  rcases hseek : seek Entry.key key [] t with ⟨ctx, u⟩
  have hplug := plug_of_seek _ hseek
  cases u with
  | node c a l r =>
    obtain ⟨s', hrun, hholds, hsize, _⟩ := insert_overwrites h hreply hfree hseek
    rw [← hplug] at hred
    exact Or.inl ⟨s', ctx, c, a, l, r, hplug.symm, key_of_seek _ _ hseek, hrun, hholds,
      (redBlack_relabel (d := .left) a _).mp hred, hsize⟩
  | leaf =>
    obtain ⟨s', t', hrun, hholds, hred', hsize, horder⟩ := insert_adds h hred hreply hfree hseek
    refine Or.inr ⟨s', t', before ctx, after ctx, hrun, hholds, hred', hsize, ?_, horder⟩
    rw [← hplug, inorder_plug]
    rfl

def eightKeys : State where
  root := 1
  size := 8
  heap
    | 1 => some ⟨11, 0, .black, 0, 2, 3⟩
    | 2 => some ⟨2, 0, .red, 1, 4, 5⟩
    | 3 => some ⟨14, 0, .black, 1, 0, 6⟩
    | 4 => some ⟨1, 0, .black, 2, 0, 0⟩
    | 5 => some ⟨7, 0, .black, 2, 7, 8⟩
    | 6 => some ⟨15, 0, .red, 3, 0, 0⟩
    | 7 => some ⟨5, 0, .red, 5, 0, 0⟩
    | 8 => some ⟨8, 0, .red, 5, 0, 0⟩
    | _ => none

def eightTree : EntryTree :=
  node .black ⟨1, 11, 0⟩
    (node .red ⟨2, 2, 0⟩ (node .black ⟨4, 1, 0⟩ leaf leaf)
      (node .black ⟨5, 7, 0⟩ (node .red ⟨7, 5, 0⟩ leaf leaf) (node .red ⟨8, 8, 0⟩ leaf leaf)))
    (node .black ⟨3, 14, 0⟩ leaf (node .red ⟨6, 15, 0⟩ leaf leaf))

def nineTree : EntryTree :=
  node .black ⟨5, 7, 0⟩
    (node .red ⟨2, 2, 0⟩ (node .black ⟨4, 1, 0⟩ leaf leaf)
      (node .black ⟨7, 5, 0⟩ (node .red ⟨9, 4, 40⟩ leaf leaf) leaf))
    (node .red ⟨1, 11, 0⟩ (node .black ⟨8, 8, 0⟩ leaf leaf)
      (node .black ⟨3, 14, 0⟩ leaf (node .red ⟨6, 15, 0⟩ leaf leaf)))

/-- The key 4 comes below a red node with a red sibling: these are repainted,
and the red node above them is brought up by two rotations. -/
theorem insert_redBlack_eight : Holds eightKeys eightTree ∧ RedBlack eightTree ∧
    ∃ s', Settles (fun fuel => infraRbtreeInsert fuel 9 eightKeys 4 40) (.ok (s', .ok)) ∧
      Holds s' nineTree ∧ RedBlack nineTree ∧ s'.size = 9 := by
  have hasc : Ascending (contents eightTree) := by
    unfold Ascending
    decide
  have hholds : Holds eightKeys eightTree :=
    ⟨⟨rfl, by decide, by decide, by decide⟩, hasc, rfl⟩
  have hred : RedBlack eightTree := by
    refine ⟨rfl, ?_, 2, ?_⟩
    · simp [eightTree, NoRedRed, rootColor]
    · simp [eightTree, RedBlackTrees.Balanced]
  have hfree : eightKeys.heap 9 = none := rfl
  refine ⟨hholds, hred, ?_⟩
  rcases insert_redBlack hholds hred hfree 4 40 with ⟨hnull, _⟩ | ⟨_, ctx, c, a, l, r, heq, hkey, _⟩ |
    ⟨s', t', _, _, hrun, hholds', hred', hsize, _⟩
  · cases hnull
  · have habsent : ∀ b ∈ inorder eightTree, b.key ≠ 4 := by decide
    have hmem : a ∈ inorder eightTree := by
      rw [heq, inorder_plug]
      simp [inorder]
    exact absurd hkey (habsent a hmem)
  · have hseek : seek Entry.key 4 [] eightTree = ((seek Entry.key 4 [] eightTree).1, leaf) := by decide
    obtain ⟨u, hrepair, hpaint⟩ : ∃ u, repair (seek Entry.key 4 [] eightTree).1
        (branch .left .red ⟨9, 4, 40⟩ leaf leaf) = some u ∧ paint .black u = nineTree := ⟨_, rfl, rfl⟩
    obtain ⟨s'', hrun', hrep, _⟩ := (insert_new hholds.represents (Nat.succ_ne_zero 8) hfree
      hholds.sorted hseek).2 u hrepair
    have hsame : s'' = s' := by
      have hanswer := hrun'.unique hrun
      injection hanswer with hanswer
      exact congrArg Prod.fst hanswer
    have hturned : nineTree = t' := by
      rw [hsame, hpaint] at hrep
      exact hrep.unique hholds'.represents
    rw [hturned]
    exact ⟨s', hrun, hholds', hred', hsize⟩

end Insert

/-! ### Search, removal and clearing -/

section Remove
variable {s : State} {t : EntryTree} {key : ℤ} {m : ℤ → Option ℕ}

theorem find_holds (h : Holds s t) (hm : Denotes (contents t) m) :
    Settles (fun fuel => infraRbtreeFind fuel s key) (.ok ((m key).getD 0)) := by
  rcases hseek : seek Entry.key key [] t with ⟨ctx, u⟩
  refine ⟨height t + 1, ?_⟩
  intro fuel hfuel
  have hsearch := search_root h.represents hseek fuel hfuel
  cases u with
  | leaf =>
    obtain ⟨hold, hbefore, hafter⟩ := gap_of_seek h.ascending hseek
    rw [hold] at hm
    rw [not_mem_of_gap hm hbefore hafter]
    simp only [infraRbtreeFind, hsearch, ok_bind, addr_leaf, if_true, Option.getD_none]
  | node c a l r =>
    have hrep : Represents s (plug ctx (branch .left c a l r)) :=
      (plug_of_seek _ hseek).symm ▸ h.represents
    have haddr : addr (node c a l r) = a.id := rfl
    have hne : a.id ≠ 0 := hrep.placed.nonzero
    rw [contents_of_seek hseek] at hm
    rw [hm.at_key]
    simp only [infraRbtreeFind, hsearch, ok_bind, haddr, if_neg hne, hrep.node_eq, cell_value,
      Option.getD_some]

/-- The list of the tree once the node of `excise` is out of it. -/
theorem contents_excise {ctx : Context Entry} {c : Color} {a : Entry} {l r : EntryTree} :
    contents (plug (excise moved ctx c a l r).context (excise moved ctx c a l r).rest) =
      (before ctx ++ inorder l).map binding ++ (inorder r ++ after ctx).map binding := by
  have hmove : ∀ a b, binding (moved a b) = binding b := fun _ _ => rfl
  exact map_inorder_excise binding hmove ctx c a l r

theorem holds_removed (h : Holds s t) {ctx : Context Entry} {c : Color} {a : Entry}
    {l r : EntryTree} (hseek : seek Entry.key key [] t = (ctx, node c a l r)) {s' : State}
    {u : EntryTree} (hremoved : Removed s s' t u) (horder : inorder u =
      inorder (plug (excise moved ctx c a l r).context (excise moved ctx c a l r).rest)) :
    Holds s' u ∧ ∀ m, Denotes (contents t) m → Denotes (contents u) (Function.update m key none) := by
  have hold := contents_of_seek hseek
  have hnew : contents u =
      (before ctx ++ inorder l).map binding ++ (inorder r ++ after ctx).map binding :=
    (congrArg (List.map binding) horder).trans contents_excise
  have hasc := h.ascending
  rw [hold] at hasc
  refine ⟨⟨hremoved.represents, ?_, ?_⟩, fun m hm => ?_⟩
  · rw [hnew]
    exact hasc.erase
  · rw [hremoved.size, h.size, hold, hnew]
    simp only [List.length_append, List.length_cons]
    omega
  · rw [hold] at hm
    rw [hnew]
    exact hm.erase hasc

/-- A key that is absent leaves no entry behind either. -/
theorem update_absent (h : Holds s t) (hm : Denotes (contents t) m) {ctx : Context Entry}
    (hseek : seek Entry.key key [] t = (ctx, leaf)) :
    m key = none ∧ Function.update m key none = m := by
  obtain ⟨hold, hbefore, hafter⟩ := gap_of_seek h.ascending hseek
  rw [hold] at hm
  have hnone := not_mem_of_gap hm hbefore hafter
  refine ⟨hnone, ?_⟩
  rw [← hnone, Function.update_eq_self]

/-- Whatever the colours, removal returns the value and takes the pair out,
unless the repair follows a null pointer. -/
theorem remove_holds (h : Holds s t) (hm : Denotes (contents t) m) :
    Settles (fun fuel => infraRbtreeRemove fuel s key) (.error .nullDeref) ∨
    ∃ s' t', Settles (fun fuel => infraRbtreeRemove fuel s key) (.ok (s', (m key).getD 0)) ∧
      Holds s' t' ∧ Denotes (contents t') (Function.update m key none) := by
  rcases hseek : seek Entry.key key [] t with ⟨ctx, u⟩
  cases u with
  | leaf =>
    obtain ⟨hnone, hsame⟩ := update_absent h hm hseek
    rw [hnone, hsame]
    exact Or.inr ⟨s, t, remove_absent h.represents hseek, h, hm⟩
  | node c a l r =>
    have hvalue : m key = some a.value := by
      rw [contents_of_seek hseek] at hm
      exact hm.at_key
    rw [hvalue]
    rcases remove_present h.represents hseek _ rfl with hfault | ⟨s', u, hrun, hremoved, horder⟩
    · exact Or.inl hfault
    · obtain ⟨hholds, hmap⟩ := holds_removed h hseek hremoved horder
      exact Or.inr ⟨s', u, hrun, hholds, hmap m hm⟩

theorem clear_holds (h : Holds s t) :
    ∃ s', Settles (fun fuel => infraRbtreeClear fuel s) (.ok s') ∧ Holds s' leaf := by
  obtain ⟨s', hrun, hrep, hsize, _⟩ := clear_spec h.represents
  exact ⟨s', hrun, hrep, List.Pairwise.nil, hsize⟩

def target (key : ℤ) (t : EntryTree) : Option (Cut Entry) :=
  match seek Entry.key key [] t with
  | (_, leaf) => none
  | (ctx, node c a l r) => some (excise moved ctx c a l r)

/-- The removal of the key takes out no childless black node but the root. -/
def Spares (key : ℤ) (t : EntryTree) : Prop :=
  ∀ cut ∈ target key t, cut.color = .red ∨ cut.rest ≠ leaf ∨ cut.context = []

instance (key : ℤ) (t : EntryTree) : Decidable (Spares key t) :=
  inferInstanceAs (Decidable (∀ cut ∈ target key t, _))

/-- From a red-black tree a removal never faults, and leaves a red-black tree
exactly when it takes out no childless black node but the root. -/
theorem remove_redBlack_iff (h : Holds s t) (hred : RedBlack t) (key : ℤ) :
    ∃ s' v t', Settles (fun fuel => infraRbtreeRemove fuel s key) (.ok (s', v)) ∧ Holds s' t' ∧
      (RedBlack t' ↔ Spares key t) := by
  rcases hseek : seek Entry.key key [] t with ⟨ctx, u⟩
  cases u with
  | leaf =>
    refine ⟨s, 0, t, remove_absent h.represents hseek, h, ?_⟩
    simp [Spares, target, hseek, hred]
  | node c a l r =>
    obtain ⟨s', hrun, hremoved⟩ := remove_redBlack h.represents hred hseek _ rfl
    obtain ⟨hholds, _⟩ := holds_removed h hseek hremoved
      (inorder_plug_congr _ (inorder_paint _ _))
    refine ⟨s', a.value, _, hrun, hholds, ?_⟩
    rw [redBlack_excise moved ((plug_of_seek _ hseek).symm ▸ hred)]
    simp [Spares, target, hseek]

end Remove

end Ppdb.TreeMaps
