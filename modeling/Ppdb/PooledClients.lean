import Ppdb.PoolHeap
import Ppdb.HeapCells

/-!
Structures that lie in the pool: a header, which the structure takes from the
pool when it is created, and nodes, which its calls take from it one at a time.
A structure is described over a memory of nodes; here its header and each of its
nodes are live objects of the pool that hold the bytes of their fields. A call
writes the header and the nodes and gives back the nodes it is done with.
Whatever else the program keeps in the pool is left alone by the calls of the
structure, and header and nodes by whatever else the program does.
-/

namespace Ppdb.PooledClients

open ByteMemory SizeArithmetic BlockHeaders PoolOperations TiledIntervals EventualResults
open PoolLayout PoolAllocation PoolRuns PoolMoves ObjectStores PoolHeap HeapCells

variable {α σ : Type}

/-- The layout of a record: its size, and the bytes that its fields put into it.
What is in the padding is not known. -/
structure RecordLayout (α : Type) where
  size : ℕ
  byte : α → ℕ → Option UInt8
  inside : ∀ a i v, byte a i = some v → i < size
  small : size + 30 ≤ sizeMax

def object (L : RecordLayout α) (n : Option α) : Object UInt8 :=
  ⟨L.size, fun i => n.bind fun a => L.byte a i⟩

def objects (L : RecordLayout α) (heap : ℕ → Option α) (ids : List ℕ) : Store UInt8 :=
  ids.map fun p => (p, object L (heap p))

/-- A structure with its nodes: at first it has none, and each step makes at
most one request for a node, which has been answered when the step is made. -/
structure Client (α σ : Type) where
  header : RecordLayout σ
  node : RecordLayout α
  heap : σ → ℕ → Option α
  init : σ
  step : σ → Option ℕ → σ → Prop
  empty : heap init = fun _ => none

def Client.store (C : Client α σ) (hdr : ℕ) (st : σ) (places : List ℕ) : Store UInt8 :=
  (hdr, object C.header (some st)) :: objects C.node (C.heap st) places

/-- The objects have been written, and nothing else. -/
structure Written (st : Store UInt8) (m m' : Mem) : Prop where
  fields : Shows m' st
  frame : ∀ a, (∀ x ∈ sizes st, a < x.1 ∨ x.1 + x.2 ≤ a) → m' a = m a

/-- The pointers of a list are given back in turn. -/
inductive FreesAll : State → List ℕ → State → Prop
  | nil (s : State) : FreesAll s [] s
  | cons {s s' t : State} {p : ℕ} {ps : List ℕ}
      (hfree : Settles (fun fuel => infraFree fuel s p) (.ok s')) (h : FreesAll s' ps t) :
      FreesAll s (p :: ps) t

def Place (heap : ℕ → Option α) (reply p : ℕ) : Prop := (heap p).isSome ∨ p = reply ∧ reply ≠ 0

/-- What a call does in the pool once it has its memory: it writes its header
and its nodes, and frees the nodes that are no longer in use. Freeing leaves
what has been written in place, so that a store that the call makes into its
header after it has freed a node is counted with the others. -/
structure Uses (C : Client α σ) (s : State) (hdr : ℕ) (st st' : σ) (reply : ℕ) (s' : State) :
    Prop where
  run : ∃ places m gone, (places.Nodup ∧ ∀ p, p ∈ places ↔ Place (C.heap st) reply p) ∧
    Written (C.store hdr st' places) s.bytes m ∧ gone.Nodup ∧
    (∀ p, p ∈ gone ↔ p ∈ places ∧ C.heap st' p = none) ∧ FreesAll { s with bytes := m } gone s'

/-- What the structure has in the pool: nothing before it has been created. -/
def Client.Owns (C : Client α σ) : Option (ℕ × σ) → Store UInt8 → Prop
  | none, own => own = []
  | some (hdr, st), own => ∃ places, Exactly (C.heap st) places ∧ own = C.store hdr st places

/-- It lies in the pool beside the other objects. -/
def Coupled (C : Client α σ) (s : State) (others : Store UInt8) (x : Option (ℕ × σ)) : Prop :=
  ∃ own, C.Owns x own ∧ HeapInv s (others ++ own)

variable {C : Client α σ} {L : RecordLayout α} {s s' : State} {others old new st st' : Store UInt8}
  {heap : ℕ → Option α} {ids places : List ℕ} {bs : List Block} {p hdr reply : ℕ} {m : Mem}
  {a a' : σ} {x : Option (ℕ × σ)}

theorem sizes_objects (L : RecordLayout α) (heap : ℕ → Option α) (ids : List ℕ) :
    sizes (objects L heap ids) = ids.map fun p => (p, L.size) := by
  unfold sizes objects
  rw [List.map_map]
  rfl

theorem sizes_append (st st' : Store UInt8) : sizes (st ++ st') = sizes st ++ sizes st' :=
  List.map_append

theorem sizes_store (C : Client α σ) (hdr : ℕ) (a : σ) (places : List ℕ) :
    sizes (C.store hdr a places) = (hdr, C.header.size) :: places.map fun p => (p, C.node.size) :=
  congrArg (List.cons _) (sizes_objects C.node (C.heap a) places)

theorem pointers_store (C : Client α σ) (hdr : ℕ) (a : σ) (places : List ℕ) :
    (sizes (C.store hdr a places)).map Prod.fst = hdr :: places := by
  rw [sizes_store, List.map_cons, List.map_map]
  exact congrArg (List.cons hdr) (List.map_id places)

theorem mem_store {y : ℕ × Object UInt8} : y ∈ C.store hdr a places ↔
    y = (hdr, object C.header (some a)) ∨ y.1 ∈ places ∧ y.2 = object C.node (C.heap a y.1) := by
  unfold Client.store objects
  rw [List.mem_cons, List.mem_map]
  refine or_congr_right ⟨fun ⟨p, hp, heq⟩ => ?_, fun ⟨hp, heq⟩ => ⟨y.1, hp, Prod.ext rfl heq.symm⟩⟩
  rw [← heq]
  exact ⟨hp, rfl⟩

/-! ### The heap as a whole -/

theorem heapInv_perm (h : HeapInv s st) (hperm : st.Perm st') : HeapInv s st' := by
  obtain ⟨⟨bs, hown⟩, hshows, hwithin, hlibc⟩ := h
  refine ⟨⟨bs, hown.serving, hown.nonempty, ?_, ?_⟩, fun x hx => hshows x (hperm.mem_iff.mpr hx),
    fun x hx => hwithin x (hperm.mem_iff.mpr hx), hlibc⟩
  · exact (((hperm.map _).map _).symm).trans hown.owned.owners
  · exact fun x hx => hown.owned.room x ((hperm.map _).mem_iff.mpr hx)

/-- The pointers of the objects differ, and those of admitted sizes are apart. -/
theorem heapInv_apart (h : HeapInv s st) :
    ((sizes st).map Prod.fst).Nodup ∧ (sizes st).Pairwise fun x y =>
      Unwrapped s x.2 → Unwrapped s y.2 → x.1 + x.2 ≤ y.1 ∨ y.1 + y.2 ≤ x.1 := by
  obtain ⟨bs, hown⟩ := h.owning
  obtain ⟨_, hlayout⟩ := hown.inv.layout
  exact ⟨hlayout.nodup, hlayout.apart⟩

theorem unwrapped_layout (L : RecordLayout α) (h : HeapInv s st) : Unwrapped s L.size := by
  obtain ⟨bs, hown⟩ := h.owning
  have hsmall := L.small
  unfold Unwrapped
  rcases hown.serving.alignment with halign | halign <;> rw [halign] <;> omega

/-- Stores into payloads leave the list of blocks as it is. -/
theorem tiled_writePayloads (h : Tiled s bs)
    (hchange : ∀ a, m a ≠ s.bytes a → ∃ b ∈ bs, b.payload ≤ a ∧ a < b.stop) :
    Tiled { s with bytes := m } bs := by
  refine ⟨h.listed.frame fun c hc a hlo hhi => ?_, h.tiles, h.count⟩
  by_contra hne
  obtain ⟨b, hb, hpay, hstop⟩ := hchange a hne
  -- the byte is in the header of one block and in the payload of another
  obtain ⟨pre, post, rfl⟩ := List.append_of_mem hb
  obtain ⟨hpre, hpost⟩ := h.tiles.apart
  unfold Block.payload at hpay
  rcases List.mem_append.mp hc with hc | hc
  · have hbelow := hpre c hc
    unfold Block.stop at hbelow
    omega
  · rcases List.mem_cons.mp hc with rfl | hc
    · omega
    · have habove := hpost c hc
      omega

/-- What is written into the objects is written into payloads. -/
theorem written_blocks (h : HeapInv s (others ++ new)) (hserv : InService s bs)
    (hfit : ∀ x ∈ sizes new, Unwrapped s x.2)
    (hframe : ∀ a, (∀ x ∈ sizes new, a < x.1 ∨ x.1 + x.2 ≤ a) → m a = s.bytes a) :
    ∀ a, m a ≠ s.bytes a → ∃ b ∈ bs, b.payload ≤ a ∧ a < b.stop := by
  obtain ⟨blocks, hown⟩ := h.owning
  obtain rfl := hserv.tiled.unique hown.serving.tiled
  intro a hne
  have hin : ∃ x ∈ sizes new, x.1 ≤ a ∧ a < x.1 + x.2 := by
    by_contra hnone
    push Not at hnone
    refine hne (hframe a fun x hx => ?_)
    have hout := hnone x hx
    omega
  obtain ⟨x, hx, hlo, hhi⟩ := hin
  have hmem : x ∈ sizes (others ++ new) := by
    rw [sizes_append]
    exact List.mem_append_right _ hx
  obtain ⟨b, hb, hused, hpay⟩ := hown.owned.owner (List.mem_map_of_mem (f := Prod.fst) hmem)
  have hroom := hown.owned.room x hmem (hfit x hx) b hb hused hpay
  refine ⟨b, hb, hpay ▸ hlo, ?_⟩
  unfold Block.payload at hpay
  unfold Block.stop
  omega

theorem inService_written (h : HeapInv s (others ++ new)) (hserv : InService s bs)
    (hfit : ∀ x ∈ sizes new, Unwrapped s x.2)
    (hframe : ∀ a, (∀ x ∈ sizes new, a < x.1 ∨ x.1 + x.2 ≤ a) → m a = s.bytes a) :
    InService { s with bytes := m } bs :=
  ⟨hserv.initialized, hserv.pooled, hserv.alignment,
    ⟨hserv.region.start_pos, hserv.region.in_space, hserv.region.small⟩,
    tiled_writePayloads hserv.tiled (written_blocks h hserv hfit hframe), hserv.aligned⟩

/-- Some of the objects are written anew. -/
theorem heapInv_written (h : HeapInv s (others ++ old)) (hsizes : sizes new = sizes old)
    (hfit : ∀ x ∈ sizes old, Unwrapped s x.2) (hwithin : Within (Unwrapped s) new)
    (hwritten : Written new s.bytes m) : HeapInv { s with bytes := m } (others ++ new) := by
  obtain ⟨bs, hown⟩ := h.owning
  have hframe : ∀ a, (∀ x ∈ sizes old, a < x.1 ∨ x.1 + x.2 ≤ a) → m a = s.bytes a :=
    fun a hout => hwritten.frame a (hsizes.symm ▸ hout)
  have hsame : sizes (others ++ new) = sizes (others ++ old) := by
    rw [sizes_append, sizes_append, hsizes]
  refine ⟨⟨bs, inService_written h hown.serving hfit hframe, hown.nonempty, ?_⟩, ?_, ?_, h.secluded⟩
  · rw [hsame]
    exact hown.owned
  · intro x hx i v hknown
    rcases List.mem_append.mp hx with hx | hx
    · -- the byte of another object is in none of those that are written
      obtain ⟨hi, hok⟩ := h.within x (List.mem_append_left _ hx) i v hknown
      refine (hframe (x.1 + i) fun y hy => ?_).trans
        (h.shows x (List.mem_append_left _ hx) i v hknown)
      obtain ⟨_, hapart⟩ := heapInv_apart h
      rw [sizes_append, List.pairwise_append] at hapart
      have hcross := hapart.2.2 _ (mem_sizes hx) y hy hok (hfit y hy)
      dsimp only at hcross
      omega
    · exact hwritten.fields x hx i v hknown
  · intro x hx
    rcases List.mem_append.mp hx with hx | hx
    · exact h.within x (List.mem_append_left _ hx)
    · exact hwithin x hx

/-- Objects that lie apart can all be written. -/
theorem written_exists (hapart : (sizes st).Pairwise fun x y => x.1 + x.2 ≤ y.1 ∨ y.1 + y.2 ≤ x.1)
    (hinside : ∀ x ∈ st, ∀ i v, x.2.cell i = some v → i < x.2.size) (m : Mem) :
    ∃ m', Written st m m' := by
  induction st with
  | nil => exact ⟨m, ⟨by simp [Shows], fun _ _ => rfl⟩⟩
  | cons x st ih =>
    obtain ⟨hx, hrest⟩ := List.pairwise_cons.mp hapart
    obtain ⟨m', hfields, hframe⟩ := ih hrest fun y hy => hinside y (List.mem_cons_of_mem _ hy)
    refine ⟨fun a => if x.1 ≤ a ∧ a < x.1 + x.2.size then (x.2.cell (a - x.1)).getD (m a) else m' a,
      ?_, fun a hout => ?_⟩
    · intro y hy i v hcell
      have hi := hinside y hy i v hcell
      rcases List.mem_cons.mp hy with rfl | hy
      · have hin : y.1 ≤ y.1 + i ∧ y.1 + i < y.1 + y.2.size := by omega
        dsimp only
        rw [if_pos hin, Nat.add_sub_cancel_left, hcell, Option.getD_some]
      · have hyx := hx _ (mem_sizes hy)
        dsimp only at hyx
        have hout : ¬ (x.1 ≤ y.1 + i ∧ y.1 + i < x.1 + x.2.size) := by omega
        dsimp only
        rw [if_neg hout]
        exact hfields y hy i v hcell
    · have hself := hout (x.1, x.2.size) List.mem_cons_self
      dsimp only at hself
      have hnot : ¬ (x.1 ≤ a ∧ a < x.1 + x.2.size) := by omega
      rw [if_neg hnot]
      exact hframe a fun y hy => hout y (List.mem_cons_of_mem _ hy)

/-- A pointer that is not given back stays live. -/
theorem live_drop {q : ℕ} (h : q ∈ (sizes st).map Prod.fst) (hne : q ≠ p) :
    q ∈ (sizes (drop st p)).map Prod.fst := by
  obtain ⟨x, hx, rfl⟩ := List.mem_map.mp h
  rw [sizes_drop]
  exact List.mem_map_of_mem (List.mem_filter.mpr ⟨hx, by simpa using hne⟩)

/-- The pointers given back are no longer live, and the rest is in place. -/
theorem FreesAll.carries {gone : List ℕ} (hfrees : FreesAll s gone s') (h : HeapInv s st)
    (hlive : ∀ p ∈ gone, p ∈ (sizes st).map Prod.fst) (hnodup : gone.Nodup) :
    HeapInv s' (st.filter fun x => x.1 ∉ gone) := by
  induction hfrees generalizing st with
  | nil => simpa using h
  | @cons s s₁ t p ps hfree _ ih =>
    obtain ⟨hout, hrest⟩ := List.nodup_cons.mp hnodup
    obtain ⟨s₂, hret, hinv⟩ := release_carries h (hlive p List.mem_cons_self)
    obtain rfl := Except.ok.inj (hret.unique hfree)
    have hdone := ih hinv (fun q hq => live_drop (hlive q (List.mem_cons_of_mem _ hq))
      fun heq => hout (heq ▸ hq)) hrest
    have hfilter : (drop st p).filter (fun x => x.1 ∉ ps) =
        st.filter fun x => x.1 ∉ p :: ps := by
      unfold drop
      rw [List.filter_filter]
      apply List.filter_congr
      intro x _
      simp [not_or, Bool.and_comm]
    rwa [hfilter] at hdone

theorem FreesAll.exists {gone : List ℕ} (h : HeapInv s st)
    (hlive : ∀ p ∈ gone, p ∈ (sizes st).map Prod.fst) (hnodup : gone.Nodup) :
    ∃ s', FreesAll s gone s' := by
  induction gone generalizing s st with
  | nil => exact ⟨s, FreesAll.nil s⟩
  | cons p ps ih =>
    obtain ⟨hout, hrest⟩ := List.nodup_cons.mp hnodup
    obtain ⟨s₁, hret, hinv⟩ := release_carries h (hlive p List.mem_cons_self)
    obtain ⟨t, ht⟩ := ih hinv (fun q hq => live_drop (hlive q (List.mem_cons_of_mem _ hq))
      fun heq => hout (heq ▸ hq)) hrest
    exact ⟨t, FreesAll.cons hret ht⟩

/-! ### Calls of the structure -/

theorem inside_store (C : Client α σ) (hdr : ℕ) (a : σ) (places : List ℕ) :
    ∀ y ∈ C.store hdr a places, ∀ i v, y.2.cell i = some v → i < y.2.size := by
  intro y hy i v hcell
  rcases mem_store.mp hy with rfl | ⟨_, hobj⟩
  · exact C.header.inside a i v hcell
  · rw [hobj] at hcell ⊢
    obtain ⟨n, _, hbyte⟩ := Option.bind_eq_some_iff.mp hcell
    exact C.node.inside n i v hbyte

theorem unwrapped_store (h : HeapInv s st) (C : Client α σ) (hdr : ℕ) (a : σ) (places : List ℕ) :
    ∀ y ∈ sizes (C.store hdr a places), Unwrapped s y.2 := by
  intro y hy
  rw [sizes_store] at hy
  rcases List.mem_cons.mp hy with rfl | hy
  · exact unwrapped_layout C.header h
  · obtain ⟨p, _, rfl⟩ := List.mem_map.mp hy
    exact unwrapped_layout C.node h

theorem within_store (h : HeapInv s st) (C : Client α σ) (hdr : ℕ) (a : σ) (places : List ℕ) :
    Within (Unwrapped s) (C.store hdr a places) := fun y hy i v hcell =>
  ⟨inside_store C hdr a places y hy i v hcell,
    unwrapped_store h C hdr a places _ (mem_sizes hy)⟩

/-- Header and nodes are written, whatever is to be in them. -/
theorem store_written (h : HeapInv s (others ++ C.store hdr a places)) (a' : σ) :
    ∃ m, Written (C.store hdr a' places) s.bytes m := by
  have hsizes : sizes (C.store hdr a' places) = sizes (C.store hdr a places) := by
    rw [sizes_store, sizes_store]
  obtain ⟨_, hapart⟩ := heapInv_apart h
  rw [sizes_append, List.pairwise_append] at hapart
  refine written_exists ?_ (inside_store C hdr a' places) s.bytes
  rw [hsizes]
  exact hapart.2.1.imp_of_mem fun hx hy hxy =>
    hxy (unwrapped_store h C hdr a places _ hx) (unwrapped_store h C hdr a places _ hy)

theorem store_inv (h : HeapInv s (others ++ C.store hdr a places))
    (hwritten : Written (C.store hdr a' places) s.bytes m) :
    HeapInv { s with bytes := m } (others ++ C.store hdr a' places) :=
  heapInv_written h (by rw [sizes_store, sizes_store]) (unwrapped_store h C hdr a places)
    (within_store h C hdr a' places) hwritten

def Served (C : Client α σ) (s : State) (others : Store UInt8) (hdr : ℕ) (a : σ) (reply : ℕ)
    (places : List ℕ) : Prop :=
  (places.Nodup ∧ ∀ p, p ∈ places ↔ Place (C.heap a) reply p) ∧
    HeapInv s (others ++ C.store hdr a places)

theorem size_lt (L : RecordLayout α) : L.size < sizeModulus := by
  have hsmall := L.small
  unfold sizeMax at hsmall
  omega

/-- What the pool hands out for a node is none of the objects in it. -/
theorem malloc_served {rep : ℕ} (hexactly : Exactly (C.heap a) ids)
    (hinv : HeapInv s (others ++ C.store hdr a ids))
    (hret : Settles (fun fuel => infraMalloc fuel rep s C.node.size) (.ok (s', reply))) :
    (∃ places, Served C s' others hdr a reply places) ∧ (reply ≠ 0 → C.heap a reply = none) := by
  obtain ⟨t, q, hret', hinv'⟩ := malloc_carries hinv rep (size_lt C.node)
  obtain ⟨rfl, rfl⟩ := Prod.mk.inj (Except.ok.inj (hret'.unique hret))
  by_cases hreply : q = 0
  · subst hreply
    exact ⟨⟨ids, ⟨hexactly.nodup, fun p => by simp [Place, hexactly.live]⟩,
      by simpa [effect, enter] using hinv'⟩, fun hne => absurd rfl hne⟩
  have heffect : effect (others ++ C.store hdr a ids) q (.malloc C.node.size) =
      (q, fresh C.node.size) :: (others ++ C.store hdr a ids) := if_neg hreply
  rw [heffect] at hinv'
  have hout : q ∉ ids := by
    intro hmem
    refine (List.nodup_cons.mp (heapInv_apart hinv').1).1 ?_
    change q ∈ (sizes (others ++ C.store hdr a ids)).map Prod.fst
    rw [sizes_append, List.map_append, pointers_store]
    exact List.mem_append_right _ (List.mem_cons_of_mem _ hmem)
  have hnone : C.heap a q = none :=
    Option.not_isSome_iff_eq_none.mp fun hsome => hout ((hexactly.live q).mp hsome)
  refine ⟨⟨q :: ids, ⟨List.nodup_cons.mpr ⟨hout, hexactly.nodup⟩, fun p => ?_⟩, ?_⟩, fun _ => hnone⟩
  · simp only [Place, List.mem_cons, hexactly.live]
    tauto
  · have hobject : (q, fresh C.node.size) = (q, object C.node (C.heap a q)) := by
      rw [hnone]
      rfl
    rw [hobject] at hinv'
    refine heapInv_perm hinv' (List.perm_middle.symm.trans (List.Perm.append_left others ?_))
    exact List.Perm.swap _ _ _

/-- After the call header and nodes are again what the structure has in the pool. -/
theorem uses_coupled (h : Served C s others hdr a reply places) (huses : Uses C s hdr a a' reply s')
    (hgrow : ∀ p, (C.heap a' p).isSome → Place (C.heap a) reply p) :
    Coupled C s' others (some (hdr, a')) := by
  obtain ⟨places', m, gone, ⟨hnodup', hplaces'⟩, hwritten, hnodup, hgone, hfrees⟩ := huses.run
  obtain ⟨⟨hplacesNodup, hplaces⟩, hinv⟩ := h
  have hperm : places.Perm places' := (List.perm_ext_iff_of_nodup hplacesNodup hnodup').mpr
    fun p => (hplaces p).trans (hplaces' p).symm
  have hstored := heapInv_perm hinv (((hperm.map _).cons _).append_left others)
  have hdone := store_inv hstored hwritten
  have hpointers := (heapInv_apart hdone).1
  rw [sizes_append, List.map_append, pointers_store, List.nodup_append] at hpointers
  obtain ⟨_, hown, hcross⟩ := hpointers
  have hlive : ∀ p ∈ gone, p ∈ (sizes (others ++ C.store hdr a' places')).map Prod.fst := by
    intro p hp
    rw [sizes_append, List.map_append, pointers_store]
    exact List.mem_append_right _ (List.mem_cons_of_mem _ ((hgone p).mp hp).1)
  have hfreed := hfrees.carries hdone hlive hnodup
  refine ⟨_, ⟨places'.filter fun p => p ∉ gone, ⟨hnodup'.filter _, fun p => ?_⟩, rfl⟩, ?_⟩
  · rw [List.mem_filter, decide_eq_true_eq, hgone, not_and, ← ne_eq, ← Option.isSome_iff_ne_none]
    exact ⟨fun hsome => ⟨(hplaces' p).mpr (hgrow p hsome), fun _ => hsome⟩, fun hin => hin.2 hin.1⟩
  · have hothers : others.filter (fun y => y.1 ∉ gone) = others := by
      refine List.filter_eq_self.mpr fun y hy => ?_
      rw [decide_eq_true_eq]
      intro hmem
      exact hcross y.1 (List.mem_map_of_mem (f := Prod.fst) (mem_sizes hy)) y.1
        (List.mem_cons_of_mem _ ((hgone y.1).mp hmem).1) rfl
    have hheader : hdr ∉ gone := fun hmem =>
      (List.nodup_cons.mp hown).1 ((hgone hdr).mp hmem).1
    have hnodes : (C.store hdr a' places').filter (fun y => y.1 ∉ gone) =
        C.store hdr a' (places'.filter fun p => p ∉ gone) := by
      unfold Client.store objects
      rw [List.filter_cons_of_pos (by simpa using hheader), List.filter_map]
      rfl
    rwa [List.filter_append, hothers, hnodes] at hfreed

/-- Whatever the call makes of the structure, the pool lets it. -/
theorem uses_exists (h : Served C s others hdr a reply places) (a' : σ) :
    ∃ s', Uses C s hdr a a' reply s' := by
  obtain ⟨hplaces, hinv⟩ := h
  obtain ⟨m, hwritten⟩ := store_written hinv a'
  have hdone := store_inv hinv hwritten
  have hgone : ∀ p, p ∈ places.filter (fun p => (C.heap a' p).isNone) ↔
      p ∈ places ∧ C.heap a' p = none := by
    intro p
    rw [List.mem_filter, Option.isNone_iff_eq_none]
  have hlive : ∀ p ∈ places.filter (fun p => (C.heap a' p).isNone),
      p ∈ (sizes (others ++ C.store hdr a' places)).map Prod.fst := by
    intro p hp
    rw [sizes_append, List.map_append, pointers_store]
    exact List.mem_append_right _ (List.mem_cons_of_mem _ (List.mem_filter.mp hp).1)
  obtain ⟨s', hfrees⟩ := FreesAll.exists hdone hlive (hplaces.1.filter _)
  exact ⟨s', places, m, _, hplaces, hwritten, hplaces.1.filter _, hgone, hfrees⟩

/-! ### The rest of the program -/

/-- The pointers of the other objects are not those of the structure. -/
theorem pointers_apart (h : HeapInv s (others ++ st)) (hp : p ∈ (sizes others).map Prod.fst) :
    ∀ y ∈ st, y.1 ≠ p := by
  have hnodup := (heapInv_apart h).1
  rw [sizes_append, List.map_append, List.nodup_append] at hnodup
  exact fun y hy heq => hnodup.2.2 p hp y.1 (List.mem_map_of_mem (f := Prod.fst) (mem_sizes hy)) heq.symm

theorem admissible_beside {c : Call} (hadm : Admissible (sizes others) c) (st : Store UInt8) :
    Admissible (sizes (others ++ st)) c := by
  have hleft : ∀ {q}, q ∈ (sizes others).map Prod.fst → q ∈ (sizes (others ++ st)).map Prod.fst := by
    intro q hq
    rw [sizes_append, List.map_append]
    exact List.mem_append_left _ hq
  cases c with
  | malloc size => exact hadm
  | calloc nmemb size => exact hadm
  | realloc old size => exact ⟨hadm.1, hleft hadm.2⟩
  | free old => exact hleft hadm

/-- What a call does to the other objects it does beside the nodes. -/
theorem effect_beside {c : Call} {ptr : ℕ} (hadm : Admissible (sizes others) c)
    (hout : ∀ q ∈ (sizes others).map Prod.fst, ∀ x ∈ st, x.1 ≠ q) :
    effect (others ++ st) ptr c = effect others ptr c ++ st := by
  have henter : ∀ o, enter (others ++ st) ptr o = enter others ptr o ++ st := by
    intro o
    unfold enter
    split_ifs
    · rfl
    · rfl
  have hdrop : ∀ q ∈ (sizes others).map Prod.fst, drop (others ++ st) q = drop others q ++ st := by
    intro q hq
    unfold drop
    rw [List.filter_append]
    refine congrArg (List.append _) (List.filter_eq_self.mpr fun x hx => ?_)
    simpa using hout q hq x hx
  cases c with
  | malloc size => exact henter _
  | calloc nmemb size => exact henter _
  | realloc old size =>
    have hfind : find (others ++ st) old = find others old := by
      have hsome : (others.find? fun x => x.1 = old).isSome := by
        rw [List.find?_isSome]
        exact ⟨_, find_mem hadm.2, by simp⟩
      unfold find
      rw [List.find?_append, Option.or_of_isSome hsome]
    simp only [effect, hfind, hdrop old hadm.2]
    split_ifs
    · rfl
    · rfl
    · rfl
  | free old => exact hdrop old hadm

theorem write_beside {off : ℕ} {v : UInt8} (hout : ∀ x ∈ st, x.1 ≠ p) :
    write (others ++ st) p off v = write others p off v ++ st := by
  unfold write
  rw [List.map_append]
  refine congrArg (List.append _) ?_
  conv_rhs => rw [← List.map_id st]
  exact List.map_congr_left fun x hx => if_neg (hout x hx)

/-- Calls of the rest of the program leave header and nodes where they are. -/
theorem other_coupled {c : Call} {ptr rep : ℕ} (h : Coupled C s others x)
    (hadm : Admissible (sizes others) c) (hfits : Fits s c)
    (hret : Settles (fun fuel => perform fuel rep s c) (.ok (s', ptr))) :
    Coupled C s' (effect others ptr c) x := by
  obtain ⟨own, howns, hinv⟩ := h
  obtain ⟨t, q, hret', hinv'⟩ := call_carries hinv rep (admissible_beside hadm _) hfits
  obtain ⟨rfl, rfl⟩ := Prod.mk.inj (Except.ok.inj (hret'.unique hret))
  rw [effect_beside hadm fun q hq => pointers_apart hinv hq] at hinv'
  exact ⟨own, howns, hinv'⟩

theorem other_returns {c : Call} (h : Coupled C s others x)
    (hadm : Admissible (sizes others) c) (hfits : Fits s c) (rep : ℕ) :
    ∃ s' ptr, Settles (fun fuel => perform fuel rep s c) (.ok (s', ptr)) := by
  obtain ⟨own, _, hinv⟩ := h
  obtain ⟨s', ptr, hret, _⟩ := call_carries hinv rep (admissible_beside hadm _) hfits
  exact ⟨s', ptr, hret⟩

/-- So do its stores. -/
theorem store_coupled {off : ℕ} {o : Object UInt8} (h : Coupled C s others x)
    (hmem : (p, o) ∈ others) (hsize : Unwrapped s o.size) (hoff : off < o.size) (v : UInt8) :
    Coupled C { s with bytes := writeByte s.bytes (p + off) v } (write others p off v) x := by
  obtain ⟨own, howns, hinv⟩ := h
  have hinv' := store_carries hinv (List.mem_append_left _ hmem) hsize hoff v
  have hp : p ∈ (sizes others).map Prod.fst := List.mem_map_of_mem (f := Prod.fst) (mem_sizes hmem)
  rw [write_beside (pointers_apart hinv hp)] at hinv'
  exact ⟨own, howns, hinv'⟩

/-! ### Runs -/

/-- The pool when the request, if there is one, has got its answer. -/
inductive Obtains (L : RecordLayout α) (s : State) : Option ℕ → State → Prop
  | asked {s₁ : State} {reply rep : ℕ}
      (hret : Settles (fun fuel => infraMalloc fuel rep s L.size) (.ok (s₁, reply))) :
      Obtains L s (some reply) s₁
  | unasked : Obtains L s none s

/-- Calls of the structure and of the rest of the program in any order, on a
pool that has just been initialised: the pool, the objects of the rest of the
program, and the structure with its header, once it has been created. -/
inductive ClientRun (C : Client α σ) (cfg : Config) :
    State → Store UInt8 → Option (ℕ × σ) → Prop
  | start {s : State} (h : Started cfg s) (hlibc : Secluded s) : ClientRun C cfg s [] none
  | other {s s' : State} {others : Store UInt8} {c : Call} {ptr rep : ℕ} {x : Option (ℕ × σ)}
      (h : ClientRun C cfg s others x) (hadm : Admissible (sizes others) c) (hfits : Fits s c)
      (hret : Settles (fun fuel => perform fuel rep s c) (.ok (s', ptr))) :
      ClientRun C cfg s' (effect others ptr c) x
  | store {s : State} {others : Store UInt8} {ptr off : ℕ} {o : Object UInt8} {x : Option (ℕ × σ)}
      (h : ClientRun C cfg s others x) (hmem : (ptr, o) ∈ others) (hsize : Unwrapped s o.size)
      (hoff : off < o.size) (v : UInt8) :
      ClientRun C cfg { s with bytes := writeByte s.bytes (ptr + off) v } (write others ptr off v) x
  | refused {s s' : State} {others : Store UInt8} (h : ClientRun C cfg s others none)
      (hmemory : Obtains C.header s (some 0) s') : ClientRun C cfg s' others none
  | create {s s₁ : State} {others : Store UInt8} {hdr : ℕ} {m : Mem}
      (h : ClientRun C cfg s others none) (hmemory : Obtains C.header s (some hdr) s₁)
      (hhdr : hdr ≠ 0) (hwritten : Written (C.store hdr C.init []) s₁.bytes m) :
      ClientRun C cfg { s₁ with bytes := m } others (some (hdr, C.init))
  | step {s s₁ s' : State} {others : Store UInt8} {hdr : ℕ} {a a' : σ} {request : Option ℕ}
      (h : ClientRun C cfg s others (some (hdr, a))) (hmemory : Obtains C.node s request s₁)
      (hstep : C.step a request a') (huses : Uses C s₁ hdr a a' (request.getD 0) s') :
      ClientRun C cfg s' others (some (hdr, a'))

section Runs
variable {cfg : Config} {s₁ : State} {request : Option ℕ}

/-- The memory of a header is an object of its own. -/
theorem header_inv (h : Coupled C s others none) (hmemory : Obtains C.header s (some hdr) s₁) :
    HeapInv s₁ (enter others hdr (fresh C.header.size)) := by
  obtain ⟨_, rfl, hinv⟩ := h
  rw [List.append_nil] at hinv
  cases hmemory with
  | asked hret =>
    obtain ⟨t, q, hret', hinv'⟩ := malloc_carries hinv _ (size_lt C.header)
    obtain ⟨rfl, rfl⟩ := Prod.mk.inj (Except.ok.inj (hret'.unique hret))
    exact hinv'

theorem refused_coupled (h : Coupled C s others none) (hmemory : Obtains C.header s (some 0) s₁) :
    Coupled C s₁ others none :=
  ⟨[], rfl, by simpa [enter] using header_inv h hmemory⟩

/-- The structure is created, without nodes. -/
theorem created_coupled (h : Coupled C s others none) (hmemory : Obtains C.header s (some hdr) s₁)
    (hhdr : hdr ≠ 0) (hwritten : Written (C.store hdr C.init []) s₁.bytes m) :
    Coupled C { s₁ with bytes := m } others (some (hdr, C.init)) := by
  have hinv := header_inv h hmemory
  rw [enter, if_neg hhdr] at hinv
  have hmiddle := heapInv_perm hinv (List.perm_append_singleton _ others).symm
  refine ⟨_, ⟨[], ⟨List.nodup_nil, fun p => ?_⟩, rfl⟩, heapInv_written hmiddle rfl
    (fun y hy => ?_) (within_store hinv C hdr C.init []) hwritten⟩
  · rw [C.empty]
    exact iff_of_false Bool.false_ne_true List.not_mem_nil
  · rw [List.mem_singleton.mp hy]
    exact unwrapped_layout C.header hinv

theorem places_space (h : HeapInv s (others ++ C.store hdr a places)) (hp : p ∈ hdr :: places) :
    p < sizeModulus := by
  obtain ⟨bs, hown⟩ := h.owning
  obtain ⟨_, hlayout⟩ := hown.inv.layout
  have hmem : ∃ y ∈ sizes (C.store hdr a places), y.1 = p := by
    rw [← pointers_store C hdr a places] at hp
    exact List.mem_map.mp hp
  obtain ⟨y, hy, rfl⟩ := hmem
  have hin : y ∈ sizes (others ++ C.store hdr a places) := by
    rw [sizes_append]
    exact List.mem_append_right _ hy
  have hinside := hlayout.inside y hin (unwrapped_store h C hdr a places y hy)
  have hspace := hown.serving.region.in_space
  omega

/-- What the pool answers is what a structure assumes of its allocator. -/
theorem served_of_obtains (h : Coupled C s others (some (hdr, a)))
    (hmemory : Obtains C.node s request s₁) :
    (∃ places, Served C s₁ others hdr a (request.getD 0) places) ∧
      ∀ reply, request = some reply → reply ≠ 0 → C.heap a reply = none ∧ reply < sizeModulus := by
  obtain ⟨_, ⟨ids, hexactly, rfl⟩, hinv⟩ := h
  cases hmemory with
  | unasked =>
    refine ⟨⟨ids, ⟨hexactly.nodup, fun p => ?_⟩, hinv⟩, fun _ heq => nomatch heq⟩
    simp [Place, hexactly.live]
  | @asked _ q _ hret =>
    obtain ⟨⟨places, hserved⟩, hfresh⟩ := malloc_served hexactly hinv hret
    refine ⟨⟨places, hserved⟩, fun reply heq hreply => ?_⟩
    obtain rfl : q = reply := Option.some.inj heq
    have hmem : q ∈ places := (hserved.1.2 q).mpr (Or.inr ⟨rfl, hreply⟩)
    exact ⟨hfresh hreply, places_space hserved.2 (List.mem_cons_of_mem _ hmem)⟩

/-- The pool answers a request for a node. -/
theorem obtains_exists (h : Coupled C s others x) :
    ∃ reply s₁, Obtains C.node s (some reply) s₁ := by
  obtain ⟨own, _, hinv⟩ := h
  obtain ⟨s₁, reply, hret, _⟩ := malloc_carries hinv 0 (size_lt C.node)
  exact ⟨reply, s₁, .asked hret⟩

/-- What holds of the structure on every allocator holds of it on the pool, and
header and nodes stay in the pool: an invariant that is kept by the steps whose
request has been answered with a null pointer or a node not in use. -/
theorem clientRun_inv {I : σ → Prop} (hinit : I C.init)
    (hstep : ∀ a request a', I a →
      (∀ reply, request = some reply → reply ≠ 0 → C.heap a reply = none ∧ reply < sizeModulus) →
      C.step a request a' →
      (∀ p, (C.heap a' p).isSome → Place (C.heap a) (request.getD 0) p) ∧ I a')
    (h : ClientRun C cfg s others x) : Coupled C s others x ∧ ∀ y ∈ x, I y.2 := by
  induction h with
  | start h hlibc => exact ⟨⟨[], rfl, heapRun_inv (HeapRun.start h hlibc)⟩, fun _ hy => nomatch hy⟩
  | other _ hadm hfits hret ih => exact ⟨other_coupled ih.1 hadm hfits hret, ih.2⟩
  | store _ hmem hsize hoff v ih => exact ⟨store_coupled ih.1 hmem hsize hoff v, ih.2⟩
  | refused _ hmemory ih => exact ⟨refused_coupled ih.1 hmemory, ih.2⟩
  | create _ hmemory hhdr hwritten ih =>
    refine ⟨created_coupled ih.1 hmemory hhdr hwritten, fun y hy => ?_⟩
    rw [← Option.mem_some.mp hy]
    exact hinit
  | step _ hmemory hcall huses ih =>
    obtain ⟨⟨places, hserved⟩, hfresh⟩ := served_of_obtains ih.1 hmemory
    obtain ⟨hgrow, hkept⟩ := hstep _ _ _ (ih.2 _ rfl) hfresh hcall
    refine ⟨uses_coupled hserved huses hgrow, fun y hy => ?_⟩
    rw [← Option.mem_some.mp hy]
    exact hkept

end Runs

/-- What the coupling says of the memory. -/
structure LiesInPool (C : Client α σ) (s : State) (others : Store UInt8) (hdr : ℕ) (a : σ) :
    Prop where
  beside : Shows s.bytes others
  header : ∀ i v, C.header.byte a i = some v → s.bytes (hdr + i) = v
  nodes : ∀ p n, C.heap a p = some n → ∀ i v, C.node.byte n i = some v → s.bytes (p + i) = v
  space : ∀ p, (C.heap a p).isSome → p < sizeModulus
  few : ∀ ids, Exactly (C.heap a) ids → ids.length < sizeModulus
  live : ∀ ids, Exactly (C.heap a) ids → ∃ bs, PoolLayout s
    (sizes others ++ (hdr, C.header.size) :: ids.map fun p => (p, C.node.size)) bs

theorem Coupled.lies (h : Coupled C s others (some (hdr, a))) : LiesInPool C s others hdr a := by
  obtain ⟨_, ⟨ids, hexactly, rfl⟩, hinv⟩ := h
  have hperm : ∀ {ids'}, Exactly (C.heap a) ids' → ids.Perm ids' := fun hexactly' =>
    (List.perm_ext_iff_of_nodup hexactly.nodup hexactly'.nodup).mpr
      fun p => (hexactly.live p).symm.trans (hexactly'.live p)
  refine ⟨fun y hy => hinv.shows y (List.mem_append_left _ hy), fun i v hbyte => ?_,
    fun p n hn i v hbyte => ?_, fun p hp => ?_, fun ids' hexactly' => ?_, fun ids' hexactly' => ?_⟩
  · exact hinv.shows (hdr, object C.header (some a))
      (List.mem_append_right _ (mem_store.mpr (Or.inl rfl))) i v hbyte
  · have hp : p ∈ ids := (hexactly.live p).mp (by rw [hn]; rfl)
    refine hinv.shows (p, object C.node (C.heap a p))
      (List.mem_append_right _ (mem_store.mpr (Or.inr ⟨hp, rfl⟩))) i v ?_
    rw [hn]
    exact hbyte
  · exact places_space hinv (List.mem_cons_of_mem _ ((hexactly.live p).mp hp))
  · -- header and nodes have different addresses
    rw [← (hperm hexactly').length_eq]
    have hnodup := (heapInv_apart hinv).1
    rw [sizes_append, List.map_append, pointers_store, List.nodup_append] at hnodup
    have hsubset : hdr :: ids ⊆ List.range sizeModulus := fun p hp =>
      List.mem_range.mpr (places_space hinv hp)
    have hlength := (List.subperm_of_subset hnodup.2.1 hsubset).length_le
    rw [List.length_cons, List.length_range] at hlength
    exact hlength
  · obtain ⟨bs, hown⟩ :=
      (heapInv_perm hinv ((((hperm hexactly').map _).cons _).append_left others)).owning
    obtain ⟨blocks, hlayout⟩ := hown.inv.layout
    refine ⟨blocks, ?_⟩
    rw [sizes_append] at hlayout
    rw [← sizes_store C hdr a]
    exact hlayout

/-! ### Pools with room -/

/-- All blocks are in use but the last one, at `addr`, whose `size` bytes are free. -/
structure Room (s : State) (addr size : ℕ) : Prop where
  align : s.config.poolAlignment = 8
  blocks : ∃ pre garbage, InService s (pre ++ [⟨addr, size, garbage, false⟩]) ∧
    ∀ c ∈ pre, c.isUsed = true

section Room
variable {cfg : Config} {s₁ : State} {addr addr' size size' n : ℕ}

/-- The bytes that a request takes from the free block, and what it leaves. -/
structure Cuts (n addr size addr' size' : ℕ) : Prop where
  fits : n < sizeModulus
  room : requestSize (counted n) 8 + 2 * headerSize < size
  addr : addr' = addr + headerSize + requestSize (counted n) 8
  size : size' = size - requestSize (counted n) 8 - headerSize

theorem payload_ne_zero (addr : ℕ) : addr + headerSize ≠ 0 := Nat.succ_ne_zero _

theorem Room.malloc (h : Room s addr size) (hcut : Cuts n addr size addr' size') :
    ∃ s', Settles (fun fuel => infraMalloc fuel 0 s n) (.ok (s', addr + headerSize)) ∧
      Room s' addr' size' := by
  obtain ⟨halign, pre, garbage, hserv, hused⟩ := h
  obtain ⟨s', garbage', hret, hserv', hsame, _⟩ :=
    serves_last hserv hused rfl hcut.fits (halign.symm ▸ hcut.room)
  refine ⟨s', ⟨_, hret⟩, ⟨hsame.config ▸ halign, pre ++ [⟨addr, requestSize (counted n) 8, counted n, true⟩],
    garbage', ?_, fun c hc => ?_⟩⟩
  · rw [halign] at hserv'
    rw [hcut.addr, hcut.size, List.append_assoc]
    exact hserv'
  · rcases List.mem_append.mp hc with hc | hc
    · exact hused c hc
    · rw [List.mem_singleton.mp hc]

theorem Room.written (h : Room s addr size) (hinv : HeapInv s (others ++ old))
    (hsizes : sizes new = sizes old) (hfit : ∀ x ∈ sizes old, Unwrapped s x.2)
    (hwritten : Written new s.bytes m) : Room { s with bytes := m } addr size := by
  obtain ⟨halign, pre, garbage, hserv, hused⟩ := h
  exact ⟨halign, pre, garbage, inService_written hinv hserv hfit fun b hout =>
    hwritten.frame b (hsizes.symm ▸ hout), hused⟩

/-- While there is room, the structure can be created. -/
theorem Room.create (h : Room s addr size) (hrun : ClientRun C cfg s others none)
    (hcoupled : Coupled C s others none) (hcut : Cuts C.header.size addr size addr' size') :
    ∃ s', ClientRun C cfg s' others (some (addr + headerSize, C.init)) ∧ Room s' addr' size' := by
  obtain ⟨s₁, hret, hroom⟩ := h.malloc hcut
  have hmemory : Obtains C.header s (some (addr + headerSize)) s₁ := .asked hret
  have hinv := header_inv hcoupled hmemory
  rw [enter, if_neg (payload_ne_zero addr)] at hinv
  have hmiddle := heapInv_perm hinv (List.perm_append_singleton _ others).symm
  obtain ⟨m, hwritten⟩ := written_exists (List.pairwise_singleton _ _)
    (inside_store C (addr + headerSize) C.init []) s₁.bytes
  have hsizes : sizes (C.store (addr + headerSize) C.init []) =
      sizes [(addr + headerSize, fresh C.header.size)] := rfl
  refine ⟨_, .create hrun hmemory (payload_ne_zero addr) hwritten,
    hroom.written hmiddle hsizes (fun y hy => ?_) hwritten⟩
  rw [List.mem_singleton.mp hy]
  exact unwrapped_layout C.header hinv

/-- The rest of the program is served. -/
theorem Room.other (h : Room s addr size) (hrun : ClientRun C cfg s others x)
    (hcut : Cuts n addr size addr' size') :
    ∃ s', ClientRun C cfg s' ((addr + headerSize, fresh n) :: others) x ∧ Room s' addr' size' := by
  obtain ⟨s', hret, hroom⟩ := h.malloc hcut
  have hnext := ClientRun.other (c := .malloc n) hrun hcut.fits trivial hret
  rw [effect, enter, if_neg (payload_ne_zero addr)] at hnext
  exact ⟨s', hnext, hroom⟩

/-- A call of the structure that takes a node into use is served. -/
theorem Room.step (h : Room s addr size) (hrun : ClientRun C cfg s others (some (hdr, a)))
    (hcoupled : Coupled C s others (some (hdr, a))) (hcut : Cuts C.node.size addr size addr' size')
    (hstep : C.step a (some (addr + headerSize)) a')
    (hgains : Gains (addr + headerSize) (C.heap a) (C.heap a')) :
    ∃ s', ClientRun C cfg s' others (some (hdr, a')) ∧ Room s' addr' size' := by
  obtain ⟨s₁, hret, hroom⟩ := h.malloc hcut
  have hmemory : Obtains C.node s (some (addr + headerSize)) s₁ := .asked hret
  obtain ⟨⟨places, hplaces, hinv⟩, _⟩ := served_of_obtains hcoupled hmemory
  obtain ⟨m, hwritten⟩ := store_written hinv a'
  have hkept : ∀ p, p ∈ places ↔ (C.heap a' p).isSome := by
    intro p
    rw [hplaces.2, hgains.2, Option.getD_some, Place, or_comm, and_iff_left (payload_ne_zero addr)]
  have huses : Uses C s₁ hdr a a' (addr + headerSize) { s₁ with bytes := m } := by
    refine ⟨places, m, [], hplaces, hwritten, List.nodup_nil, fun p => ?_, .nil _⟩
    refine iff_of_false List.not_mem_nil fun ⟨hp, hnone⟩ => ?_
    have hsome := (hkept p).mp hp
    rw [hnone] at hsome
    cases hsome
  exact ⟨_, .step hrun hmemory hstep huses, hroom.written hinv (by rw [sizes_store, sizes_store])
    (unwrapped_store hinv C hdr a places) hwritten⟩

end Room

end Ppdb.PooledClients
