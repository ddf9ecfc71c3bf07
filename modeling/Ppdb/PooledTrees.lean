import Ppdb.PooledClients
import Ppdb.RecordFields
import Ppdb.TreeDestruction

/-!
The red-black tree on the pool. Its header is a block of 16 bytes and each node
one of 48 bytes that `infra_malloc` has handed out; what the model of the tree
assumes of its allocator is what the pool does, and the tree frees the nodes it
is done with and nothing else. In between the rest of the program uses the pool
as it likes.
-/

namespace Ppdb.PooledTrees

open ByteMemory RecordFields PoolOperations ObjectStores PooledClients HeapCells
open PoolRuns (PoolLayout smallPool smallConfig smallPool_started)
open PoolHeap (Fits smallPool_secluded)
open ColoredTrees ColorTree TreeRepresentation TreeMaps TreeCalls TreeRuns SortedMaps EventualResults

def colorCode : Color → ℕ
  | .red => 0
  | .black => 1

def colorOf (n : ℕ) : Color := if n = 0 then .red else .black

/-- The fields of `infra_rbtree_node_t`; the padding is behind `key` and `color`. -/
def nodeFields (n : TreeOperations.Node) : List Field :=
  [⟨0, 4, (n.key % 2 ^ 32).toNat⟩, ⟨8, 8, n.value⟩, ⟨16, 4, colorCode n.color⟩, ⟨24, 8, n.parent⟩,
    ⟨32, 8, n.left⟩, ⟨40, 8, n.right⟩]

theorem nodeFields_inside (n : TreeOperations.Node) : ∀ f ∈ nodeFields n, f.offset + f.width ≤ 48 := by
  simp [nodeFields]

theorem nodeFields_apart (n : TreeOperations.Node) : (nodeFields n).Pairwise Field.Apart := by
  simp [nodeFields, Field.Apart]

def nodeLayout : RecordLayout TreeOperations.Node where
  size := 48
  byte n i := fieldByte (nodeFields n) i
  inside n _ _ h := fieldByte_inside (nodeFields_inside n) h
  small := by norm_num [SizeArithmetic.sizeMax, SizeArithmetic.sizeModulus]

def intOf (n : ℕ) : ℤ := if n < 2 ^ 31 then n else (n : ℤ) - 2 ^ 32

def loadNode (m : Mem) (p : ℕ) : TreeOperations.Node where
  key := intOf (readLe m p 4)
  value := readLe m (p + 8) 8
  color := colorOf (readLe m (p + 16) 4)
  parent := readLe m (p + 24) 8
  left := readLe m (p + 32) 8
  right := readLe m (p + 40) 8

def treeFields (tree : TreeOperations.State) : List Field :=
  [⟨0, 8, tree.root⟩, ⟨8, 8, tree.size⟩]

theorem treeFields_inside (tree : TreeOperations.State) :
    ∀ f ∈ treeFields tree, f.offset + f.width ≤ 16 := by
  simp [treeFields]

theorem treeFields_apart (tree : TreeOperations.State) : (treeFields tree).Pairwise Field.Apart := by
  simp [treeFields, Field.Apart]

def loadTree (m : Mem) (hdr : ℕ) : TreeOperations.State where
  root := readLe m hdr 8
  size := readLe m (hdr + 8) 8
  heap p := some (loadNode m p)

/-- The fields are within their types. -/
structure Ranged (n : TreeOperations.Node) : Prop where
  key : -2 ^ 31 ≤ n.key ∧ n.key < 2 ^ 31
  value : n.value < 2 ^ 64
  parent : n.parent < 2 ^ 64
  left : n.left < 2 ^ 64
  right : n.right < 2 ^ 64

def InRange : Call → Prop
  | .insert _ key value => (-2 ^ 31 ≤ key ∧ key < 2 ^ 31) ∧ value < 2 ^ 64
  | _ => True

/-- `infra_rbtree_insert` asks for a node, the other calls for nothing. -/
def asked : Call → Option ℕ
  | .insert reply _ _ => some reply
  | _ => none

def answered (reply : ℕ) : Call → Call
  | .insert _ key value => .insert reply key value
  | call => call

/-- A tree with the calls made so far and their answers, latest first -/
abbrev History := List (Call × Answer) × TreeOperations.State

def headerLayout : RecordLayout History where
  size := 16
  byte h i := fieldByte (treeFields h.2) i
  inside h _ _ hbyte := fieldByte_inside (treeFields_inside h.2) hbyte
  small := by norm_num [SizeArithmetic.sizeMax, SizeArithmetic.sizeModulus]

def Performs (h : History) (request : Option ℕ) (h' : History) : Prop :=
  ∃ call answer, InRange call ∧ asked call = request ∧
    Settles (fun fuel => perform fuel h.2 call) (.ok (h'.2, answer)) ∧ h'.1 = (call, answer) :: h.1

def treeClient : Client TreeOperations.Node History where
  header := headerLayout
  node := nodeLayout
  heap h := h.2.heap
  init := ([], TreeOperations.infraRbtreeCreate)
  step := Performs
  empty := rfl

variable {cfg : Config} {s : State} {others : Store UInt8} {past : List (Call × Answer)}
  {tree tree' : TreeOperations.State} {call : Call} {answer : Answer} {p : ℕ} {m : Mem}
  {n : TreeOperations.Node} {hdr : ℕ}

/-! ### Nodes in memory -/

theorem colorOf_code (c : Color) : colorOf (colorCode c) = c := by cases c <;> rfl

theorem intOf_mod {k : ℤ} (h : -2 ^ 31 ≤ k ∧ k < 2 ^ 31) : intOf (k % 2 ^ 32).toNat = k := by
  unfold intOf
  split_ifs <;> omega

/-- A node whose bytes are in place is read back. -/
theorem loadNode_of_has (h : Has m p (nodeFields n)) (hranged : Ranged n) : loadNode m p = n := by
  obtain ⟨hkey, hvalue, hparent, hleft, hright⟩ := hranged
  have hread : ∀ f ∈ nodeFields n, f.value < 256 ^ f.width →
      readLe m (p + f.offset) f.width = f.value := fun f hf hlt =>
    h.read_of_lt hf (nodeFields_apart n) hlt
  have h₀ := hread ⟨0, 4, (n.key % 2 ^ 32).toNat⟩ (by simp [nodeFields])
    (by dsimp only; omega)
  have h₁ := hread ⟨8, 8, n.value⟩ (by simp [nodeFields]) (by dsimp only; omega)
  have h₂ := hread ⟨16, 4, colorCode n.color⟩ (by simp [nodeFields])
    (by dsimp only; cases n.color <;> decide)
  have h₃ := hread ⟨24, 8, n.parent⟩ (by simp [nodeFields]) (by dsimp only; omega)
  have h₄ := hread ⟨32, 8, n.left⟩ (by simp [nodeFields]) (by dsimp only; omega)
  have h₅ := hread ⟨40, 8, n.right⟩ (by simp [nodeFields]) (by dsimp only; omega)
  dsimp only at h₀ h₁ h₂ h₃ h₄ h₅
  rw [Nat.add_zero] at h₀
  unfold loadNode
  rw [h₀, h₁, h₂, h₃, h₄, h₅, intOf_mod hkey, colorOf_code]

/-- So is the header. -/
theorem loadTree_of_has (h : Has m hdr (treeFields tree)) (hroot : tree.root < 2 ^ 64)
    (hsize : tree.size < 2 ^ 64) : (loadTree m hdr).root = tree.root ∧ (loadTree m hdr).size = tree.size := by
  have h₀ := h.read_of_lt (f := ⟨0, 8, tree.root⟩) (by simp [treeFields]) (treeFields_apart tree)
    (by dsimp only; omega)
  have h₁ := h.read_of_lt (f := ⟨8, 8, tree.size⟩) (by simp [treeFields]) (treeFields_apart tree)
    (by dsimp only; omega)
  exact ⟨h₀, h₁⟩

/-- The links of a node lead to nodes of the tree, and its key and value are those of an entry. -/
theorem shows_node {heap : ℕ → Option TreeOperations.Node} {t : EntryTree} {q : ℕ}
    (h : Shows heap t q) (hp : p ∈ ids t) (hn : heap p = some n) :
    (∃ a ∈ inorder t, a.key = n.key ∧ a.value = n.value) ∧ (n.parent = q ∨ n.parent ∈ ids t) ∧
      (n.left = 0 ∨ n.left ∈ ids t) ∧ (n.right = 0 ∨ n.right ∈ ids t) := by
  induction t generalizing q with
  | leaf => cases hp
  | node c a l r ihl ihr =>
    obtain ⟨hnode, hl, hr⟩ := h
    have hroot : ∀ u : EntryTree, (∀ i ∈ ids u, i ∈ ids (node c a l r)) →
        addr u = 0 ∨ addr u ∈ ids (node c a l r) := by
      intro u hsub
      cases u with
      | leaf => exact Or.inl rfl
      | node _ b _ _ => exact Or.inr (hsub b.id List.mem_cons_self)
    have hleft : ∀ i ∈ ids l, i ∈ ids (node c a l r) := fun i hi =>
      List.mem_cons_of_mem _ (List.mem_append_left _ hi)
    have hright : ∀ i ∈ ids r, i ∈ ids (node c a l r) := fun i hi =>
      List.mem_cons_of_mem _ (List.mem_append_right _ hi)
    have hself : a.id ∈ ids (node c a l r) := List.mem_cons_self
    rcases List.mem_cons.mp hp with rfl | hp
    · rw [hnode] at hn
      cases hn
      exact ⟨⟨a, by simp [inorder], rfl, rfl⟩, Or.inl rfl, hroot l hleft, hroot r hright⟩
    rcases List.mem_append.mp hp with hp | hp
    · obtain ⟨⟨b, hb, hentry⟩, hpar, hlow, hhigh⟩ := ihl hl hp
      refine ⟨⟨b, by simp [inorder, hb], hentry⟩, ?_, hlow.imp_right (hleft _),
        hhigh.imp_right (hleft _)⟩
      rcases hpar with hpar | hpar
      · exact Or.inr (hpar ▸ hself)
      · exact Or.inr (hleft _ hpar)
    · obtain ⟨⟨b, hb, hentry⟩, hpar, hlow, hhigh⟩ := ihr hr hp
      refine ⟨⟨b, by simp [inorder, hb], hentry⟩, ?_, hlow.imp_right (hright _),
        hhigh.imp_right (hright _)⟩
      rcases hpar with hpar | hpar
      · exact Or.inr (hpar ▸ hself)
      · exact Or.inr (hright _ hpar)

/-- In a run of calls within range so are the keys and values of the map. -/
theorem latest_ranged (h : ∀ x ∈ past, InRange x.1) {k : ℤ} {v : ℕ} (hv : latest past k = some v) :
    (-2 ^ 31 ≤ k ∧ k < 2 ^ 31) ∧ v < 2 ^ 64 := by
  induction past generalizing k v with
  | nil => cases hv
  | cons x past ih =>
    obtain ⟨call, answer⟩ := x
    have hrest : ∀ {k : ℤ} {v : ℕ}, latest past k = some v →
        (-2 ^ 31 ≤ k ∧ k < 2 ^ 31) ∧ v < 2 ^ 64 := fun hv =>
      ih (fun y hy => h y (List.mem_cons_of_mem _ hy)) hv
    have hcall : InRange call := h _ List.mem_cons_self
    cases call with
    | insert reply key value =>
      simp only [latest, TreeRuns.effect] at hv
      split_ifs at hv
      · exact hrest hv
      · by_cases hk : k = key
        · rw [hk, Function.update_self] at hv
          cases hv
          rw [hk]
          exact hcall
        · rw [Function.update_of_ne hk] at hv
          exact hrest hv
    | remove key =>
      simp only [latest, TreeRuns.effect] at hv
      by_cases hk : k = key
      · rw [hk, Function.update_self] at hv
        cases hv
      · rw [Function.update_of_ne hk] at hv
        exact hrest hv
    | find key => exact hrest hv
    | clear => cases hv

/-! ### Calls of the tree -/

/-- An insertion brings no node into use but the one it was given. -/
theorem insert_places {reply : ℕ} (hfresh : tree.heap reply = none) (fuel : ℕ) (key : ℤ)
    (value : ℕ) : Ensures (fun r => ∀ p, (r.1.heap p).isSome → Place tree.heap reply p)
      (TreeOperations.infraRbtreeInsert fuel reply tree key value) := by
  have hgains : Gains reply tree.heap (TreeOperations.createNode reply tree key value).heap :=
    gains_update (by simp [hfresh]) _
  refine Ensures.ite (fun _ => ensures_ok fun p hp => Or.inl hp) fun hreply => ?_
  refine ensures_bind fun found => ?_
  refine Ensures.ite (fun _ => ?_) fun _ => ?_
  · refine (TreeDestruction.modify_kept _ found.2 _).bind fun s₁ h₁ => ?_
    refine (TreeDestruction.free_loses s₁ reply).bind fun s₂ ⟨hloses, _⟩ => ensures_ok ?_
    exact fun p hp => Or.inl (((hgains.trans h₁.cells).loses hloses p).mp hp)
  · refine (TreeDestruction.link_kept _ found.1 reply key).bind fun s₁ h₁ => ?_
    refine (TreeDestruction.fixInsert_kept fuel s₁ reply).bind fun s₂ h₂ => ensures_ok ?_
    intro p hp
    rcases ((hgains.trans (h₁.trans h₂).cells).2 p).mp hp with heq | hlive
    · exact Or.inr ⟨heq, hreply⟩
    · exact Or.inl hlive

/-- A removal brings none into use. -/
theorem remove_places (fuel : ℕ) (tree : TreeOperations.State) (key : ℤ) :
    Ensures (fun r => ∀ p, (r.1.heap p).isSome → (tree.heap p).isSome)
      (TreeOperations.infraRbtreeRemove fuel tree key) := by
  refine ensures_bind fun found => ?_
  refine Ensures.ite (fun _ => ensures_ok fun p hp => hp) fun _ => ?_
  refine ensures_bind fun n => ?_
  have hout : ∀ y, Ensures (fun r => ∀ p, (r.1.heap p).isSome → (tree.heap p).isSome) (do
      let s ← TreeOperations.splice fuel tree found.2 y
      let s ← s.free y
      .ok (({ s with size := s.size - 1 } : TreeOperations.State), n.value)) := by
    intro y
    refine (TreeDestruction.splice_kept fuel tree found.2 y).bind fun s₁ h₁ => ?_
    refine (TreeDestruction.free_loses s₁ y).bind fun s₂ ⟨hloses, _⟩ => ensures_ok fun p hp => ?_
    exact (((h₁.cells.loses hloses).2 p).mp hp).2
  exact Ensures.ite (fun _ => hout _) fun _ => ensures_bind fun y => hout y

/-- What a call brings into use is what it was given. -/
theorem call_places {t : EntryTree} (h : Holds tree t) (hadmissible : Admissible tree call)
    (hrun : Settles (fun fuel => TreeCalls.perform fuel tree call) (.ok (tree', answer))) :
    ∀ p, (tree'.heap p).isSome → Place tree.heap ((asked call).getD 0) p := by
  cases call with
  | insert reply key value =>
    exact hrun.ensures (Q := fun r => ∀ p, (r.1.heap p).isSome → Place tree.heap reply p) fun fuel =>
      Ensures.map (insert_places hadmissible fuel key value)
  | remove key =>
    have hkept : ∀ p, (tree'.heap p).isSome → (tree.heap p).isSome :=
      hrun.ensures (Q := fun r => ∀ p, (r.1.heap p).isSome → (tree.heap p).isSome) fun fuel =>
        Ensures.map (remove_places fuel tree key)
    exact fun p hp => Or.inl (hkept p hp)
  | find key =>
    have hsame : tree' = tree := hrun.ensures (Q := fun r => r.1 = tree) fun fuel =>
      Ensures.map fun _ _ => rfl
    rw [hsame]
    exact fun p hp => Or.inl hp
  | clear =>
    obtain ⟨u, hcleared, _, hfreed, hother⟩ := TreeDestruction.clear_frees h
    have hdone : Settles (fun fuel => TreeCalls.perform fuel tree .clear) (.ok (u, .nothing)) :=
      hcleared.map (Except.map fun s => (s, Answer.nothing))
    cases hrun.unique hdone
    intro p hp
    left
    by_cases hmem : p ∈ ids t
    · rw [hfreed p hmem] at hp
      cases hp
    · rwa [hother p hmem] at hp

/-! ### Runs -/

/-- After a run the nodes in use are those of a search tree. -/
theorem nodes_of_run {allowed : TreeOperations.State → Call → Prop} (h : Run allowed past tree) :
    ∃ t, Holds tree t ∧ Denotes (contents t) (latest past) ∧ Truthful past ∧
      Exactly tree.heap (ids t) ∧ tree.heap 0 = none := by
  obtain ⟨t, hholds, hmap, htruth⟩ := run_holds h
  have hexactly := TreeDestruction.exactly_of_counts (TreeDestruction.counts_of_run h) hholds
  refine ⟨t, hholds, hmap, htruth, hexactly, ?_⟩
  by_contra hsome
  have hmem : 0 ∈ ids t := (hexactly.live 0).mp (Option.isSome_iff_ne_none.mpr hsome)
  exact hholds.represents.nonzero ((ids_perm t).mem_iff.mp hmem)

/-- What the pool answers is what the tree assumes of its allocator. -/
theorem admissible_of_fresh (hzero : tree.heap 0 = none)
    (hfresh : ∀ reply, asked call = some reply → reply ≠ 0 →
      tree.heap reply = none ∧ reply < SizeArithmetic.sizeModulus) : Admissible tree call := by
  cases call with
  | insert reply key value =>
    by_cases hreply : reply = 0
    · rw [hreply]
      exact hzero
    · exact (hfresh reply rfl hreply).1
  | remove key => trivial
  | find key => trivial
  | clear => trivial

/-- The tree keeps header and nodes in the pool, and is the tree of a run. -/
theorem treeClient_inv {x : Option (ℕ × History)} (hrun : ClientRun treeClient cfg s others x) :
    Coupled treeClient s others x ∧ ∀ y ∈ x, Run (fun _ c => InRange c) y.2.1 y.2.2 := by
  refine clientRun_inv (C := treeClient) (I := fun h => Run (fun _ c => InRange c) h.1 h.2)
    Run.create ?_ hrun
  intro h request h' hpast hfresh ⟨call, answer, hrange, hasked, hcall, hhistory⟩
  obtain ⟨t, hholds, _, _, _, hzero⟩ := nodes_of_run hpast
  have hadmissible := admissible_of_fresh hzero (hasked ▸ hfresh)
  refine ⟨?_, ?_⟩
  · rw [← hasked]
    exact call_places hholds hadmissible hcall
  · rw [hhistory]
    exact Run.call hpast hadmissible hrange hcall

theorem ranged_of_run (h : Run (fun _ c => InRange c) past tree) : ∀ x ∈ past, InRange x.1 := by
  induction h with
  | create => exact fun x hx => nomatch hx
  | call _ _ hrange _ ih =>
    intro x hx
    rcases List.mem_cons.mp hx with rfl | hx
    · exact hrange
    · exact ih x hx

/-- The root is null or a node of the tree, and so are the links. -/
theorem link_space (hlies : LiesInPool treeClient s others hdr (past, tree)) {t : EntryTree}
    (hexactly : Exactly tree.heap (ids t)) (hp : p = 0 ∨ p ∈ ids t) : p < 2 ^ 64 := by
  rcases hp with rfl | hp
  · norm_num
  · exact hlies.space p ((hexactly.live p).mpr hp)

/-- The bytes at a node of the tree are those of the node. -/
theorem loadNode_eq (hlies : LiesInPool treeClient s others hdr (past, tree)) {t : EntryTree}
    (hholds : Holds tree t) (hexactly : Exactly tree.heap (ids t))
    (hentries : ∀ k v, (k, v) ∈ contents t → (-2 ^ 31 ≤ k ∧ k < 2 ^ 31) ∧ v < 2 ^ 64)
    (hp : p ∈ ids t) : some (loadNode s.bytes p) = tree.heap p := by
  obtain ⟨n, hn⟩ := Option.isSome_iff_exists.mp ((hexactly.live p).mpr hp)
  obtain ⟨⟨a, ha, hkey, hvalue⟩, hparent, hleft, hright⟩ := shows_node hholds.represents.shows hp hn
  have hentry : (n.key, n.value) ∈ contents t := by
    rw [← hkey, ← hvalue]
    exact List.mem_map_of_mem (f := binding) ha
  have hlink : ∀ q, q = 0 ∨ q ∈ ids t → q < 2 ^ 64 := fun q hq => link_space hlies hexactly hq
  obtain ⟨hkeys, hvalues⟩ := hentries _ _ hentry
  have hhas : Has s.bytes p (nodeFields n) := hlies.nodes p n hn
  rw [hn, loadNode_of_has hhas ⟨hkeys, hvalues, hlink _ hparent, hlink _ hleft, hlink _ hright⟩]

/-- The bytes of the pool are the tree. -/
theorem loadTree_holds (hlies : LiesInPool treeClient s others hdr (past, tree)) {t : EntryTree}
    (hholds : Holds tree t) (hexactly : Exactly tree.heap (ids t))
    (hentries : ∀ k v, (k, v) ∈ contents t → (-2 ^ 31 ≤ k ∧ k < 2 ^ 31) ∧ v < 2 ^ 64) :
    Holds (loadTree s.bytes hdr) t := by
  have hrep := hholds.represents
  have hroot : tree.root = 0 ∨ tree.root ∈ ids t := by
    rw [hrep.root]
    cases t with
    | leaf => exact Or.inl rfl
    | node _ a _ _ => exact Or.inr List.mem_cons_self
  have hlength : (contents t).length = (ids t).length := by
    rw [contents, List.length_map, (ids_perm t).length_eq, List.length_map]
  have hsize : tree.size < 2 ^ 64 := by
    rw [hholds.size, hlength]
    exact hlies.few (ids t) hexactly
  have hhas : Has s.bytes hdr (treeFields tree) := hlies.header
  obtain ⟨hloadRoot, hloadSize⟩ := loadTree_of_has hhas (link_space hlies hexactly hroot) hsize
  exact ⟨⟨hloadRoot.trans hrep.root, hrep.shows.congr fun i hi =>
      loadNode_eq hlies hholds hexactly hentries hi, hrep.nodup, hrep.nonzero⟩,
    hholds.ascending, hloadSize.trans hholds.size⟩

/-- What a call of the tree comes to on the pool: it follows a null pointer, or is carried out. -/
def GoesOn (s : State) (hdr : ℕ) (h : History) (call : Call) : Prop :=
  ∃ s₁, Obtains nodeLayout s (asked call) s₁ ∧
    (Settles (fun fuel => perform fuel h.2 call) (.error .nullDeref) ∨
    ∃ answer tree' s', Settles (fun fuel => perform fuel h.2 call) (.ok (tree', answer)) ∧
      Uses treeClient s₁ hdr h ((call, answer) :: h.1, tree') ((asked call).getD 0) s')

theorem call_goesOn (hcoupled : Coupled treeClient s others (some (hdr, past, tree)))
    (hpast : Run (fun _ c => InRange c) past tree) (call : Call) :
    ∃ reply, GoesOn s hdr (past, tree) (answered reply call) := by
  obtain ⟨t, hholds, hmap, _, _, hzero⟩ := nodes_of_run hpast
  have hobtained : ∃ reply s₁, Obtains nodeLayout s (asked (answered reply call)) s₁ := by
    cases call with
    | insert _ key value => exact obtains_exists hcoupled
    | remove key => exact ⟨0, s, .unasked⟩
    | find key => exact ⟨0, s, .unasked⟩
    | clear => exact ⟨0, s, .unasked⟩
  obtain ⟨reply, s₁, hmemory⟩ := hobtained
  refine ⟨reply, s₁, hmemory, ?_⟩
  obtain ⟨⟨places, hserved⟩, hfresh⟩ := served_of_obtains hcoupled hmemory
  have hadmissible := admissible_of_fresh hzero hfresh
  rcases perform_holds hholds hmap hadmissible with hfault | ⟨tree', t', hrun, _, _⟩
  · exact Or.inl hfault
  · obtain ⟨s', huses⟩ := uses_exists hserved _
    exact Or.inr ⟨_, tree', s', hrun, huses⟩

/-- A key that is not in a red-black tree brings the node into use that the call was given. -/
theorem insert_new_node {t : EntryTree} {ctx : Context Entry} {reply value : ℕ} {key : ℤ}
    (hpast : Run (fun _ c => InRange c) past tree) (hholds : Holds tree t) (hred : RedBlackTrees.RedBlack t)
    (hreply : reply ≠ 0) (hfree : tree.heap reply = none)
    (hseek : seek Entry.key key [] t = (ctx, leaf)) (hrange : InRange (.insert reply key value)) :
    ∃ tree' t', Performs (past, tree) (some reply)
        ((.insert reply key value, .code .ok) :: past, tree') ∧
      Run (fun _ c => InRange c) ((.insert reply key value, .code .ok) :: past) tree' ∧
      Holds tree' t' ∧ RedBlackTrees.RedBlack t' ∧
      inorder t' = before ctx ++ ⟨reply, key, value⟩ :: after ctx ∧
      Gains reply tree.heap tree'.heap := by
  obtain ⟨tree', t', hinsert, hholds', hred', _, hinorder⟩ :=
    insert_adds hholds hred hreply hfree hseek
  have hcall : Settles (fun fuel => perform fuel tree (.insert reply key value))
      (.ok (tree', .code .ok)) := hinsert.map (Except.map fun r => (r.1, Answer.code r.2))
  have hadmissible : Admissible tree (.insert reply key value) := hfree
  have hrun := Run.call hpast hadmissible hrange hcall
  refine ⟨tree', t', ⟨_, _, hrange, rfl, hcall, rfl⟩, hrun, hholds', hred', hinorder, ?_⟩
  have hold := TreeDestruction.exactly_of_counts (TreeDestruction.counts_of_run hpast) hholds
  have hnew := TreeDestruction.exactly_of_counts (TreeDestruction.counts_of_run hrun) hholds'
  refine ⟨by rw [hfree]; exact Bool.false_ne_true, fun i => ?_⟩
  have hplug : plug ctx leaf = t := plug_of_seek _ hseek
  rw [hnew.live, hold.live, (ids_perm t').mem_iff, (ids_perm t).mem_iff, hinorder, ← hplug,
    inorder_plug]
  simp [inorder, or_left_comm]

theorem node_of_inorder {t : EntryTree} {a : Entry} (h : inorder t = [a]) :
    ∃ c, t = node c a leaf leaf := by
  cases t with
  | leaf => cases h
  | node c b l r =>
    cases l with
    | node _ _ _ _ =>
      have hlength := congrArg List.length h
      simp [inorder] at hlength
      omega
    | leaf =>
      obtain ⟨hb, hr⟩ := List.cons.inj h
      cases r with
      | node _ _ _ _ => simp [inorder] at hr
      | leaf => exact ⟨c, by rw [hb]⟩

end Ppdb.PooledTrees
