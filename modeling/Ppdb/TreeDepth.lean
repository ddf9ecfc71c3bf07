import Ppdb.TreeRuns

/-!
How long the calls take. Every loop of a call on a red-black tree follows one
way down or up, whose length is at most twice the logarithm of the number of
nodes; so a bound of that size is never used up.
-/

namespace Ppdb.TreeDepth

open ColoredTrees ColorTree RedBlackTrees TreeOperations TreeRepresentation TreeInsertion
  TreeRemoval TreeMaps TreeCalls TreeRuns EventualResults

def Enough {α : Type} (r : Except Fault α) : Prop := r ≠ .error .outOfFuel

/-- The iterations of each loop of a call on a tree of `n` nodes. -/
def iterations (n : ℕ) : ℕ := 2 * Nat.log2 (n + 1) + 1

def FollowsWay : Call → Prop
  | .clear => False
  | _ => True

section Parts
variable {α γ : Type} {s : State} {ctx : Context Entry} {t : EntryTree} {key : ℤ} {fuel : ℕ}

theorem enough_ok (a : α) : Enough (.ok a : Except Fault α) := by simp [Enough]

theorem enough_nullDeref : Enough (.error .nullDeref : Except Fault α) := by simp [Enough]

theorem Enough.bind {r : Except Fault α} {f : α → Except Fault γ} (h : Enough r)
    (hf : ∀ a, Enough (f a)) : Enough (r >>= f) := by
  cases r with
  | error e => exact fun heq => h (by rw [error_bind] at heq; cases heq; rfl)
  | ok a => exact hf a

theorem Enough.map {r : Except Fault α} (h : Enough r) (f : α → γ) : Enough (r.map f) := by
  cases r with
  | error e => exact fun heq => h (by cases heq; rfl)
  | ok a => exact enough_ok (f a)

theorem enough_node (s : State) (p : ℕ) : Enough (s.node p) := by
  unfold State.node Enough
  split
  · simp
  · split <;> simp

theorem enough_modify (s : State) (p : ℕ) (f : Node → Node) : Enough (s.modify p f) :=
  (enough_node s p).bind fun _ => enough_ok _

theorem enough_free (s : State) (p : ℕ) : Enough (s.free p) :=
  (enough_node s p).bind fun _ => enough_ok _

/-- The loop down the left links passes no more nodes than there are levels. -/
theorem leftmost_enough {c : Color} {a : Entry} {l r : EntryTree}
    (h : Represents s (plug ctx (node c a l r))) (hfuel : height (node c a l r) ≤ fuel) :
    Enough (leftmost fuel s a.id) := by
  induction l generalizing ctx c a r fuel with
  | leaf =>
    have hread : s.node a.id = .ok (cell .left c a (top ctx) 0 (addr r)) :=
      Represents.node_eq (d := .left) h
    obtain ⟨k, rfl⟩ : ∃ k, fuel = k + 1 := ⟨fuel - 1, by simp only [height] at hfuel; omega⟩
    simp only [leftmost, hread, ok_bind, cell, ne_eq, not_true, if_false]
    exact enough_ok _
  | node c' a' l' r' ihl _ =>
    have hread : s.node a.id = .ok (cell .left c a (top ctx) a'.id (addr r)) :=
      Represents.node_eq (d := .left) h
    have hdown : Represents s (plug (⟨.left, c, a, r⟩ :: ctx) (node c' a' l' r')) := h
    have hne : a'.id ≠ 0 := (Represents.placed (d := .left) hdown).nonzero
    obtain ⟨k, rfl⟩ : ∃ k, fuel = k + 1 := ⟨fuel - 1, by simp only [height] at hfuel; omega⟩
    simp only [leftmost, hread, ok_bind, cell, ne_eq, hne, not_false_eq_true, if_true]
    refine ihl hdown ?_
    simp only [height] at hfuel ⊢
    omega

theorem leftmost_eq {c : Color} {a : Entry} {l r : EntryTree}
    (h : Represents s (plug ctx (node c a l r))) (hfuel : height (node c a l r) ≤ fuel) :
    leftmost fuel s a.id = .ok (slide ctx c a l r).label.id :=
  eq_of_extends (leftmost_extends s a.id) (leftmost_enough h le_rfl) (leftmost_spec h) hfuel

theorem height_le_plug (ctx : Context Entry) (t : EntryTree) : height t ≤ height (plug ctx t) := by
  induction ctx generalizing t with
  | nil => exact le_rfl
  | cons f ctx ih =>
    refine le_trans ?_ (ih (branch f.side f.color f.label t f.sibling))
    cases f.side <;> simp only [branch, height] <;> omega

theorem fixDelete_enough (h : Represents s (plug ctx t)) (hred : rootColor t = .red)
    (hfuel : 0 < fuel) : Enough (fixDelete fuel s (addr t)) := by
  have ht : t ≠ leaf := fun hz => by simp [hz, rootColor] at hred
  obtain ⟨k, rfl⟩ : ∃ k, fuel = k + 1 := ⟨fuel - 1, by omega⟩
  rw [fixDelete, fixDeleteLoop_exit h ht (Or.inr hred)]
  exact enough_modify _ _ _

end Parts

/-! ### Calls -/

section Calls
variable {s : State} {t : EntryTree} {key : ℤ} {value reply fuel : ℕ}

theorem find_enough (h : Represents s t) (hfuel : height t < fuel) :
    Enough (infraRbtreeFind fuel s key) := by
  rcases hseek : seek Entry.key key [] t with ⟨ctx, u⟩
  simp only [infraRbtreeFind, search_root h hseek fuel hfuel, ok_bind]
  split
  · exact enough_ok _
  · exact (enough_node s _).bind fun n => enough_ok _

/-- The search goes down, and the repair not further up. -/
theorem insert_enough (h : Holds s t) (hfree : s.heap reply = none) (hfuel : height t < fuel) :
    Enough (infraRbtreeInsert fuel reply s key value) := by
  by_cases hreply : reply = 0
  · rw [infraRbtreeInsert, if_pos hreply]
    exact enough_ok _
  have hfresh := h.represents.not_mem_of_none hfree
  have hcreated : Represents (createNode reply s key value) t := h.represents.put_fresh hfresh _
  rcases hseek : seek Entry.key key [] t with ⟨ctx, u⟩
  have hplug := plug_of_seek _ hseek
  have hsearch := search_root hcreated hseek fuel hfuel
  simp only [infraRbtreeInsert, if_neg hreply, hsearch, ok_bind]
  cases u with
  | node c a l r =>
    have hplaced : Represents s (plug ctx (branch .left c a l r)) := hplug ▸ h.represents
    have hne : addr (node c a l r) ≠ 0 := hplaced.placed.nonzero
    rw [if_pos hne]
    exact (enough_modify _ _ _).bind fun s => (enough_free s _).bind fun s => enough_ok _
  | leaf =>
    have haround := around_of_seek _ h.sorted hseek
    have hlength : ctx.length ≤ height t := by
      have hle := length_seek_le key [] t
      rwa [hseek, List.length_nil, Nat.zero_add] at hle
    rw [← hplug] at hcreated hfresh
    obtain ⟨s₂, hlink, hnew, _⟩ := link_spec (e := ⟨reply, key, value⟩) hcreated haround hreply
      hfresh (put_heap_self _ _ _) rfl
    obtain ⟨hstuck, hdone⟩ := fixInsert_spec hnew (branch_ne_leaf _ _ _ _ _)
    rw [addr_branch] at hstuck hdone
    have hlink' : link (createNode reply s key value) (top ctx) reply key = .ok s₂ := hlink
    simp only [addr_leaf, ne_eq, not_true, if_false, hlink', ok_bind]
    refine Enough.bind ?_ fun s => enough_ok _
    cases hrepair : repair ctx (branch .left .red ⟨reply, key, value⟩ leaf leaf) with
    | none =>
      rw [hstuck hrepair fuel (by omega)]
      exact enough_nullDeref
    | some u =>
      obtain ⟨s₃, hfix, _⟩ := hdone u hrepair
      rw [hfix fuel (by omega)]
      exact enough_ok _

variable {ctx : Context Entry} {c : Color} {a : Entry} {l r : EntryTree}

/-- The way down to the node that is taken out. -/
theorem remove_descends (h : Represents s t)
    (hseek : seek Entry.key key [] t = (ctx, node c a l r)) (hfuel : height t < fuel) :
    infraRbtreeRemove fuel s key =
      (splice fuel s a.id (excise moved ctx c a l r).label.id >>= fun s' =>
        s'.free (excise moved ctx c a l r).label.id >>= fun s' =>
          .ok ({ s' with size := s'.size - 1 }, a.value)) := by
  have hplug := plug_of_seek _ hseek
  have hrep : Represents s (plug ctx (branch .left c a l r)) := hplug ▸ h
  have hread := hrep.node_eq
  have hne : a.id ≠ 0 := hrep.placed.nonzero
  have haddr : addr (node c a l r) = a.id := rfl
  rcases excise_cases moved ctx c a l r with ⟨d, x, hnode, hself⟩ | ⟨c', a', l', r', hl, hr, hnext⟩
  · have hone : addr l = 0 ∨ addr r = 0 := by
      cases d with
      | left =>
        injection hnode with _ _ _ hr
        exact Or.inr (by rw [hr, addr_leaf])
      | right =>
        injection hnode with _ _ hl
        exact Or.inl (by rw [hl, addr_leaf])
    rw [hself]
    simp only [infraRbtreeRemove, search_root h hseek fuel hfuel, ok_bind, haddr, if_neg hne, hread,
      cell, if_pos hone]
  · have hright : Represents s (plug (⟨.right, c, a, l⟩ :: ctx) (node c' a' l' r')) := by
      rw [hr] at hplug
      exact hplug ▸ h
    have htwo : ¬ (addr l = 0 ∨ addr r = 0) := by
      rw [not_or]
      constructor
      · obtain ⟨lc, la, ll, lr, rfl⟩ := exists_branch .left hl
        rw [plug_sibling] at hright
        rw [addr_branch]
        exact hright.placed.nonzero
      · rw [hr]
        exact (Represents.placed (d := .left) hright).nonzero
    have hheight : height (node c' a' l' r') ≤ fuel := by
      have hle := height_le_plug (⟨.right, c, a, l⟩ :: ctx) (node c' a' l' r')
      have heq : plug (⟨.right, c, a, l⟩ :: ctx) (node c' a' l' r') = t := hr ▸ hplug
      rw [heq] at hle
      omega
    have hleft : leftmost fuel s (addr r) = .ok (slide [] c' a' l' r').label.id := by
      have happend := slide_append [] (⟨.right, c, a, l⟩ :: ctx) c' a' l' r'
      rw [List.nil_append] at happend
      rw [hr]
      refine (leftmost_eq hright hheight).trans ?_
      rw [happend]
    rw [hnext]
    simp only [infraRbtreeRemove, search_root h hseek fuel hfuel, ok_bind, haddr, if_neg hne, hread,
      cell, if_neg htwo, hleft]

/-- A removal from a red-black tree goes down once; what is repaired is the red
child of the node that is taken out. -/
theorem remove_enough (h : Represents s t) (hred : RedBlack t) (hfuel : height t < fuel) :
    Enough (infraRbtreeRemove fuel s key) := by
  rcases hseek : seek Entry.key key [] t with ⟨ctx, u⟩
  have hplug := plug_of_seek _ hseek
  cases u with
  | leaf =>
    simp only [infraRbtreeRemove, search_root h hseek fuel hfuel, ok_bind, addr_leaf, if_true]
    exact enough_ok _
  | node c a l r =>
    rw [remove_descends h hseek hfuel]
    obtain ⟨s₁, hspliced, hsplice⟩ := splice_spec (hplug.symm ▸ h) _ rfl
    refine Enough.bind ?_ fun s => (enough_free s _).bind fun _ => enough_ok _
    rw [hsplice]
    split
    · next hfix =>
      have hrest : (excise moved ctx c a l r).rest ≠ leaf := fun hz => hfix.2 (by rw [hz, addr_leaf])
      have hchild := excise_rest moved (hplug.symm ▸ hred) hrest
      exact fixDelete_enough hspliced.represents hchild.1 (Nat.zero_lt_of_lt hfuel)
    · exact enough_ok _

end Calls

/-! ### Runs -/

theorem height_lt_iterations {s : State} {t : EntryTree} (h : Holds s t) (hred : RedBlack t) :
    height t < iterations s.size := by
  have hheight := hred.height_le
  have hsize : s.size = (inorder t).length := h.size.trans (List.length_map _)
  rw [← hsize] at hheight
  exact Nat.lt_succ_of_le hheight

/-- In a run whose removals keep the tree red-black, every search, insertion
and removal gives its result within `2 log₂ (n + 1) + 1` iterations of each of
its loops, where `n` is the number of nodes. -/
theorem calls_logarithmic {past : List (Call × Answer)} {s : State} (h : Run Gentle past s)
    {call : Call} (hadmissible : Admissible s call) (hway : FollowsWay call) :
    ∃ s' answer, ∀ fuel, iterations s.size ≤ fuel → perform fuel s call = .ok (s', answer) := by
  obtain ⟨t, hholds, hred⟩ := run_redBlack h
  obtain ⟨u, hholds', hmap, _⟩ := run_holds h
  rw [hholds'.represents.unique hholds.represents] at hmap
  obtain ⟨s', answer, _, hsettles, _⟩ := perform_redBlack hholds hmap hred hadmissible
  have hheight := height_lt_iterations hholds hred
  have henough : Enough (perform (iterations s.size) s call) := by
    cases call with
    | insert reply key value => exact (insert_enough hholds hadmissible hheight).map _
    | remove key => exact (remove_enough hholds.represents hred hheight).map _
    | find key => exact (find_enough hholds.represents hheight).map _
    | clear => exact hway.elim
  exact ⟨s', answer, fun fuel hfuel => eq_of_extends (perform_extends s call) henough hsettles hfuel⟩

/-- Four nodes are reached in at most five iterations. -/
theorem calls_logarithmic_four : ∃ past s, Run Gentle past s ∧ s.size = 4 ∧
    ∃ s' answer, ∀ fuel, 5 ≤ fuel → perform fuel s (.remove 3) = .ok (s', answer) := by
  have hallowed : ∀ s, ∀ call ∈ fourKeys, InsertsOnly s call := by
    intro s
    simp [fourKeys, InsertsOnly]
  obtain ⟨past, s, hrun, _, htest⟩ := exists_run 9 fourKeys (fun s => s.size == 4)
    (by decide +kernel) hallowed
  have hsize : s.size = 4 := by simpa using htest
  have hadmissible : Admissible s (.remove 3) := trivial
  obtain ⟨s', answer, hcall⟩ :=
    calls_logarithmic (Run.mono hrun gentle_of_insertsOnly) hadmissible trivial
  rw [hsize] at hcall
  exact ⟨past, s, Run.mono hrun gentle_of_insertsOnly, hsize, s', answer, hcall⟩

end Ppdb.TreeDepth
