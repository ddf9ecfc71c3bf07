import Ppdb.PoolMoves
import Ppdb.ObjectStores

/-!
The pool as a heap of byte arrays. What the program has stored in an object
stays there until the program overwrites it or gives the object up, whatever is
allocated, moved and released in between; zeroed objects read as zero, and an
object that is resized keeps what fits.
-/

namespace Ppdb.PoolHeap

open ByteMemory SizeArithmetic BlockHeaders PoolOperations TiledIntervals EventualResults
open PoolLayout BlockMerging BlockChoice PoolAllocation PoolRuns PoolGrowth PoolReallocation
open ReallocFrames PoolMoves ObjectStores

def effect (st : Store UInt8) (ptr : ℕ) : Call → Store UInt8
  | .malloc size => enter st ptr (fresh size)
  | .calloc nmemb size => enter st ptr (filled (mulSize nmemb size) 0)
  | .realloc old size =>
    if size = 0 then drop st old
    else if ptr = 0 then st
    else (ptr, (find st old).resize size) :: drop st old
  | .free old => drop st old

/-- The calls for which the pool is tiled again afterwards. A block that is
shrunk has to keep a surplus of one header and less than two. -/
def Fits (s : State) : Call → Prop
  | .malloc _ => True
  | .calloc nmemb size => CallocRounds s nmemb size
  | .realloc ptr size => size ≠ 0 → Unwrapped s size ∧
      ∀ bs, Tiled s bs → ∀ b ∈ bs, b.payload = ptr → Recognised s b ∧
        (alignSize size s.config.poolAlignment ≤ b.size →
          headerSize ≤ b.size - alignSize size s.config.poolAlignment ∧
            b.size - alignSize size s.config.poolAlignment < 2 * headerSize)
  | .free _ => True

/-- No other block of the C library starts inside the pool. -/
def Secluded (s : State) : Prop :=
  ∀ blk ∈ s.libc, ¬ (s.pool.poolStart < blk.1 ∧ blk.1 < s.pool.poolStart + s.pool.poolSize)

/-- Calls of the module and stores into live objects, with the objects that the
program may count on. -/
inductive HeapRun (cfg : Config) : State → Store UInt8 → Prop
  | start {s : State} (h : Started cfg s) (hlibc : Secluded s) : HeapRun cfg s []
  | call {s s' : State} {st : Store UInt8} {c : Call} {ptr reply : ℕ} (h : HeapRun cfg s st)
      (hadm : Admissible (sizes st) c) (hfits : Fits s c)
      (hret : Settles (fun fuel => perform fuel reply s c) (.ok (s', ptr))) :
      HeapRun cfg s' (effect st ptr c)
  | store {s : State} {st : Store UInt8} {ptr off : ℕ} {o : Object UInt8} (h : HeapRun cfg s st)
      (hmem : (ptr, o) ∈ st) (hsize : Unwrapped s o.size) (hoff : off < o.size) (v : UInt8) :
      HeapRun cfg { s with bytes := writeByte s.bytes (ptr + off) v } (write st ptr off v)

def Spares (s s' : State) (bs : List Block) (p : ℕ) : Prop :=
  ∀ b ∈ bs, b.isUsed = true → b.payload ≠ p → AgreeOn s.bytes s'.bytes b.payload b.stop

variable {cfg : Config} {s s' : State} {st st' : Store UInt8} {bs bs' : List Block} {b : Block}
  {live : Live} {size p : ℕ}

theorem sizes_effect (st : Store UInt8) (ptr : ℕ) (c : Call) :
    sizes (effect st ptr c) = account (sizes st) ptr c := by
  cases c with
  | malloc size => exact sizes_enter st ptr (fresh size)
  | calloc nmemb size => exact sizes_enter st ptr (filled (mulSize nmemb size) 0)
  | realloc old size =>
    simp only [effect, account]
    split_ifs with hsize hptr
    · exact sizes_drop st old
    · rfl
    · rw [record_of_ne hptr]
      exact congrArg (List.cons (ptr, size)) (sizes_drop st old)
  | free old => exact sizes_drop st old

/-! ### Single calls -/

/-- A write into a free block -/
theorem spares_of_free (h : Tiled s bs) (hb : b ∈ bs) (hfree : b.isUsed = false)
    (hdiff : DiffersWithin s.bytes s'.bytes b.addr b.stop) (p : ℕ) : Spares s s' bs p := by
  intro c hc hused _
  obtain ⟨pre, post, rfl⟩ := List.append_of_mem hb
  obtain ⟨hpre, hpost⟩ := h.tiles.apart
  apply hdiff.agreeOn
  rcases List.mem_append.mp hc with hc | hc
  · exact Or.inl (hpre c hc)
  · rcases List.mem_cons.mp hc with rfl | hc
    · simp [hfree] at hused
    · refine Or.inr ((hpost c hc).trans ?_)
      unfold Block.payload
      omega

theorem spares_refl (s : State) (bs : List Block) (p : ℕ) : Spares s s bs p :=
  fun _ _ _ _ _ _ _ => rfl

theorem malloc_spares (h : InService s bs) (reply : ℕ) (hsize : size < sizeModulus) :
    ∃ s' ptr, (∀ fuel, bs.length < fuel → infraMalloc fuel reply s size = .ok (s', ptr)) ∧
      (ptr = 0 ∧ s' = s ∨ ∃ b ∈ bs, b.isUsed = false ∧ ptr = b.payload ∧
        requestSize (counted size) s.config.poolAlignment ≤ b.size ∧
        DiffersWithin s.bytes s'.bytes b.addr b.stop) := by
  obtain ⟨s', ptr, hrun, hcases⟩ := infraMalloc_serves h reply hsize
  refine ⟨s', ptr, hrun, ?_⟩
  rcases hcases with ⟨hptr, hs, _⟩ | ⟨pre, b, post, _, rfl, hbest, hptr, _, _, hdiff, _⟩
  · exact Or.inl ⟨hptr, hs⟩
  · obtain ⟨hmem, hfree, hroom⟩ := bestFit_mem hbest
    exact Or.inr ⟨b, hmem, hfree, hptr, hroom, hdiff⟩

/-- A zeroed object reads as zero, and the others are left alone. -/
theorem calloc_spares (h : InService s bs) (reply : ℕ) {nmemb : ℕ}
    (hok : CallocRounds s nmemb size) :
    ∃ s' ptr, Settles (fun fuel => infraCalloc fuel reply s nmemb size) (.ok (s', ptr)) ∧
      Spares s s' bs 0 ∧ (ptr ≠ 0 → Unwrapped s (mulSize nmemb size) ∧
        ∀ i < mulSize nmemb size, s'.bytes (ptr + i) = 0) := by
  by_cases hzero : nmemb = 0 ∨ size = 0
  · exact ⟨s, 0, ⟨0, fun _ _ => infraCalloc_zero hzero⟩, spares_refl s bs 0,
      fun hne => absurd rfl hne⟩
  obtain ⟨s₁, ptr, hrun, hcases⟩ := malloc_spares h reply (mulSize_lt nmemb size)
  rcases hcases with ⟨rfl, rfl⟩ | ⟨b, hb, hfree, rfl, hroom, hdiff⟩
  · exact ⟨s₁, 0, ⟨_, fun fuel hfuel => infraCalloc_null h.initialized hzero (hrun fuel hfuel)⟩,
      spares_refl s₁ bs 0, fun hne => absurd rfl hne⟩
  have hptr : b.payload ≠ 0 := by
    unfold Block.payload headerSize
    omega
  have hfit : Unwrapped s (mulSize nmemb size) := by
    rcases hok with h0 | h0 | hfit | hnone
    · exact absurd (Or.inl h0) hzero
    · exact absurd (Or.inr h0) hzero
    · exact hfit
    · exact absurd hroom (Nat.not_le_of_lt (hnone bs h.tiled.listed b hb hfree))
  have hcovers := covers h hfit
  have hstop : b.stop ≤ s.pool.poolStart + s.pool.poolSize := (h.tiled.bounds hb).2
  have hspace := h.region.in_space
  have hinside : b.payload + mulSize nmemb size ≤ b.stop := by
    unfold Block.payload Block.stop
    omega
  obtain ⟨m, hclear, hset, hzeroed⟩ := infraMemset_inside s₁.bytes 0
    (by omega : b.payload + mulSize nmemb size < sizeModulus)
  have hwrite : DiffersWithin s₁.bytes m b.addr b.stop :=
    hset.mono (by unfold Block.payload; omega) hinside
  exact ⟨_, b.payload, ⟨_, fun fuel hfuel => infraCalloc_cleared h.initialized hzero
    (hrun fuel hfuel) hptr hclear⟩, spares_of_free h.tiled hb hfree (hdiff.trans hwrite) 0,
    fun _ => ⟨hfit, hzeroed hptr⟩⟩

theorem free_spares {pre post : List Block} (h : InService s (pre ++ b :: post))
    (hused : b.isUsed = true) :
    ∃ s', Settles (fun fuel => infraFree fuel s b.payload) (.ok s') ∧
      Spares s s' (pre ++ b :: post) b.payload := by
  obtain ⟨s', hrun, _, _, hkeeps⟩ := infraFree_spec h hused
  refine ⟨s', ⟨_, hrun⟩, ?_⟩
  intro c hc hcused hne
  have hc' : c ∈ pre ++ post := by
    have hcb : c ≠ b := fun heq => hne (congrArg Block.payload heq)
    have hor : c ∈ pre ∨ c ∈ post := by simpa [hcb] using hc
    rcases hor with hc | hc <;> simp [hc]
  apply (hkeeps c hc' hcused).mono
  · unfold Block.payload
    omega
  · exact Nat.le_refl _

/-- The owners when the size of one of them changes. -/
theorem owned_resized (h : Owning s bs live) (hb : b ∈ bs)
    (hmem : b.payload ∈ live.map Prod.fst) (hroom : size ≤ b.size) :
    Owned s.config.poolAlignment bs ((b.payload, size) :: forget live b.payload) := by
  have hnodup := nodup_payload h.serving.tiled.tiles
  refine ⟨?_, ?_⟩
  · refine List.Perm.trans ?_ h.owned.owners
    obtain ⟨x, hx, hpay⟩ := List.mem_map.mp hmem
    obtain ⟨front, back, rfl⟩ := List.append_of_mem hx
    have hperm := perm_filter_ne Prod.fst (List.Perm.refl (front ++ x :: back))
      (h.owned.owners.nodup_iff.mpr hnodup)
    rw [hpay] at hperm
    have hmiddle : ((front ++ x :: back).map Prod.fst).Perm
        (x.1 :: (front ++ back).map Prod.fst) := List.perm_middle.map Prod.fst
    rw [List.map_cons]
    rw [hpay] at hmiddle
    exact ((hperm.map Prod.fst).cons b.payload).trans hmiddle.symm
  · intro x hx hfit c hc hcused hcpay
    rcases List.mem_cons.mp hx with rfl | hx
    · rw [payload_inj h.serving.tiled.tiles hc hb hcpay]
      exact hroom
    · exact h.owned.room x (List.mem_filter.mp hx).1 hfit c hc hcused hcpay

/-- The objects are where the pool says, what is known of them is in place, and
nothing else is in the way. -/
structure HeapInv (s : State) (st : Store UInt8) : Prop where
  owning : ∃ bs, Owning s bs (sizes st)
  shows : Shows s.bytes st
  within : Within (Unwrapped s) st
  secluded : Secluded s

theorem inPool (h : InService s bs) (hlibc : Secluded s) : InPool s bs :=
  ⟨h.initialized, h.pooled, h.alignment, h.region, h.tiled, hlibc⟩

/-- A call that keeps the region keeps what is demanded of sizes and of the
C library. -/
theorem unwrapped_same (h : SameRegion s s') : Unwrapped s' = Unwrapped s := by
  funext n
  unfold Unwrapped
  rw [h.config]

theorem secluded_same (h : SameRegion s s') (hlibc : Secluded s) : Secluded s' := by
  unfold Secluded
  rw [h.libc, h.poolStart, h.poolSize]
  exact hlibc

/-- Every known cell lies in the payload of the owner of its object. -/
theorem known_owner (h : Owning s bs (sizes st)) (hwithin : Within (Unwrapped s) st)
    {x : ℕ × Object UInt8} (hx : x ∈ st) {i : ℕ} {v : UInt8} (hknown : x.2.cell i = some v) :
    ∃ b ∈ bs, b.isUsed = true ∧ b.payload = x.1 ∧ x.1 + i < b.stop := by
  obtain ⟨b, hb, hused, hpay⟩ := h.owned.owner (List.mem_map_of_mem (f := Prod.fst) (mem_sizes hx))
  obtain ⟨hi, hfit⟩ := hwithin x hx i v hknown
  have hroom : x.2.size ≤ b.size := h.owned.room _ (mem_sizes hx) hfit b hb hused hpay
  refine ⟨b, hb, hused, hpay, ?_⟩
  dsimp only at hpay
  unfold Block.payload at hpay
  unfold Block.stop
  omega

/-- What is known of the other objects stays in its place. -/
theorem shows_spared (h : Owning s bs (sizes st)) (hwithin : Within (Unwrapped s) st)
    (hshows : Shows s.bytes st) (hspares : Spares s s' bs p) : Shows s'.bytes (drop st p) := by
  intro x hx i v hknown
  obtain ⟨hmem, hne⟩ := mem_drop.mp hx
  obtain ⟨b, hb, hused, hpay, hstop⟩ := known_owner h hwithin hmem hknown
  rw [hspares b hb hused (hpay ▸ hne) (x.1 + i) (by omega) hstop]
  exact hshows x hmem i v hknown

theorem drop_zero (h : Owning s bs (sizes st)) : drop st 0 = st := by
  refine List.filter_eq_self.mpr fun x hx => ?_
  obtain ⟨b, _, _, hpay⟩ := h.owned.owner (List.mem_map_of_mem (f := Prod.fst) (mem_sizes hx))
  dsimp only at hpay
  have hne : x.1 ≠ 0 := by
    rw [← hpay]
    unfold Block.payload headerSize
    omega
  simpa using hne

theorem Owning.kept (h : Owning s bs live) :
    Kept s ⟨bs, s.pool.usedSize, s.stats.currentUsage, live⟩ :=
  ⟨h.serving, h.nonempty, h.owned, rfl, rfl⟩

theorem owning_of_kept {k : Books} (h : Kept s k) : Owning s k.blocks k.live :=
  ⟨h.serving, h.nonempty, h.owned⟩

/-! ### What a call leaves behind -/

/-- The call returns, and its effect on the objects is the one described. -/
def Carries (s : State) (st : Store UInt8) (reply : ℕ) (c : Call) : Prop :=
  ∃ s' ptr, Settles (fun fuel => perform fuel reply s c) (.ok (s', ptr)) ∧
    HeapInv s' (effect st ptr c)

theorem malloc_carries (h : HeapInv s st) (reply : ℕ) (hsize : size < sizeModulus) :
    Carries s st reply (.malloc size) := by
  obtain ⟨bs, hown⟩ := h.owning
  obtain ⟨s', ptr, k', hrun, hkept, hsame, hlive, _⟩ :=
    malloc_edits (Owning.kept hown) reply hsize (c := .malloc size) rfl
  obtain ⟨t, q, hrun', hcases⟩ := malloc_spares hown.serving reply hsize
  obtain ⟨rfl, rfl⟩ := Prod.mk.inj (Except.ok.inj
    ((hrun (bs.length + 1) (Nat.lt_succ_self _)).symm.trans (hrun' _ (Nat.lt_succ_self _))))
  have hspares : Spares s s' bs 0 := by
    rcases hcases with ⟨_, rfl⟩ | ⟨b, hb, hfree, _, _, hdiff⟩
    · exact spares_refl s' bs 0
    · exact spares_of_free hown.serving.tiled hb hfree hdiff 0
  have hshows := shows_spared hown h.within h.shows hspares
  rw [drop_zero hown] at hshows
  refine ⟨s', ptr, ⟨_, fun fuel hfuel => hrun fuel hfuel⟩, ⟨k'.blocks, ?_⟩, ?_, ?_,
    secluded_same hsame h.secluded⟩
  · have hown' := owning_of_kept hkept
    rw [hlive] at hown'
    rwa [sizes_effect]
  · exact hshows.enter fun _ i v hknown => nomatch hknown
  · rw [unwrapped_same hsame]
    exact h.within.enter fun _ i v hknown => nomatch hknown

theorem calloc_carries (h : HeapInv s st) (reply : ℕ) {nmemb : ℕ}
    (hok : CallocRounds s nmemb size) : Carries s st reply (.calloc nmemb size) := by
  obtain ⟨bs, hown⟩ := h.owning
  obtain ⟨s', ptr, k', hret, hkept, hsame, hlive, _⟩ := calloc_edits (Owning.kept hown) reply hok
  obtain ⟨t, q, hret', hspares, hzero⟩ := calloc_spares hown.serving reply hok
  obtain ⟨rfl, rfl⟩ := Prod.mk.inj (Except.ok.inj (hret.unique hret'))
  have hshows := shows_spared hown h.within h.shows hspares
  rw [drop_zero hown] at hshows
  refine ⟨s', ptr, hret, ⟨k'.blocks, ?_⟩, ?_, ?_, secluded_same hsame h.secluded⟩
  · have hown' := owning_of_kept hkept
    rw [hlive] at hown'
    rwa [sizes_effect]
  · refine hshows.enter fun hptr i v hknown => ?_
    obtain ⟨hi, rfl⟩ := known_filled hknown
    exact (hzero hptr).2 i hi
  · rw [unwrapped_same hsame]
    refine h.within.enter fun hptr i v hknown => ?_
    exact ⟨(known_filled hknown).1, (hzero hptr).1⟩

/-- `infra_free` of a live pointer, also as a request for no bytes. -/
theorem release_carries (h : HeapInv s st) (hptr : p ∈ (sizes st).map Prod.fst) :
    ∃ s', Settles (fun fuel => infraFree fuel s p) (.ok s') ∧ HeapInv s' (drop st p) := by
  obtain ⟨bs, hown⟩ := h.owning
  obtain ⟨b, hb, hused, rfl⟩ := hown.owned.owner hptr
  obtain ⟨s', k', hret, hkept, hsame, hlive, _⟩ :=
    free_edits (Owning.kept hown) hptr (c := .free b.payload) rfl
  obtain ⟨pre, post, rfl⟩ := List.append_of_mem hb
  obtain ⟨t, hret', hspares⟩ := free_spares hown.serving hused
  obtain rfl := Except.ok.inj (hret.unique hret')
  refine ⟨s', hret, ⟨k'.blocks, ?_⟩, shows_spared hown h.within h.shows hspares, ?_,
    secluded_same hsame h.secluded⟩
  · have hown' := owning_of_kept hkept
    rw [hlive] at hown'
    rwa [sizes_drop]
  · rw [unwrapped_same hsame]
    exact h.within.drop _

/-- A block whose size is changed in the books only. -/
theorem owning_resized (h : Owning s bs live) (hb : b ∈ bs)
    (hmem : b.payload ∈ live.map Prod.fst) (hroom : size ≤ b.size) (used current : ℕ) :
    Owning (withUsage s s.bytes used current) bs ((b.payload, size) :: forget live b.payload) := by
  have hsame := withUsage_same s s.bytes used current
  have htiled : Tiled (withUsage s s.bytes used current) bs :=
    ⟨h.serving.tiled.listed, h.serving.tiled.tiles, h.serving.tiled.count⟩
  refine ⟨h.serving.ofSame hsame htiled h.serving.aligned, h.nonempty, ?_⟩
  rw [hsame.config]
  exact owned_resized h hb hmem hroom

/-- A block that is resized, in its place or in another, belongs to the pointer
returned. -/
theorem realloc_owning (h : Owning s bs live) (hlibc : Secluded s) (hb : b ∈ bs)
    (hused : b.isUsed = true) (hmem : b.payload ∈ live.map Prod.fst) (hpos : 0 < size)
    (hlt : size < sizeModulus) (hround : size ≤ alignSize size s.config.poolAlignment)
    (hrec : Recognised s b)
    (hfits : alignSize size s.config.poolAlignment ≤ b.size →
      headerSize ≤ b.size - alignSize size s.config.poolAlignment ∧
        b.size - alignSize size s.config.poolAlignment < 2 * headerSize) (reply : ℕ) :
    ∃ s' ptr, Settles (fun fuel => infraRealloc fuel reply s b.payload size) (.ok (s', ptr)) ∧
      SameRegion s s' ∧
      ((ptr = 0 ∧ s' = s) ∨ ptr ≠ 0 ∧
        ∃ bs', Owning s' bs' ((ptr, size) :: forget live b.payload)) := by
  have hpool := inPool h.serving hlibc
  rcases Nat.lt_or_ge b.size (alignSize size s.config.poolAlignment) with hgrow | hkept
  · obtain ⟨s', ptr, hrun, hcases⟩ := reallocMove_owning h hb hused hlt hround hgrow
    have hret : Settles (fun fuel => infraRealloc fuel reply s b.payload size) (.ok (s', ptr)) := by
      refine ⟨bs.length + 3, fun fuel hfuel => ?_⟩
      dsimp only
      rw [infraRealloc_recognised hpool hb hused hpos hrec, if_neg (Nat.not_le_of_lt hgrow)]
      exact hrun fuel hfuel
    rcases hcases with ⟨rfl, rfl⟩ | ⟨hptr, hsame, hown⟩
    · exact ⟨s', 0, hret, SameRegion.refl s', Or.inl ⟨rfl, rfl⟩⟩
    · exact ⟨s', ptr, hret, hsame, Or.inr ⟨hptr, hown⟩⟩
  · obtain ⟨used, hrun⟩ := infraRealloc_whole hpool hb hused hpos hrec hkept (hfits hkept)
    have hptr : b.payload ≠ 0 := by
      unfold Block.payload headerSize
      omega
    generalize resizedUsage s b.size size = current at hrun
    exact ⟨_, b.payload, ⟨0, fun fuel _ => hrun fuel reply⟩, withUsage_same _ _ _ _,
      Or.inr ⟨hptr, bs, owning_resized h hb hmem (hround.trans hkept) used current⟩⟩

theorem realloc_carries (h : HeapInv s st) (reply : ℕ) {old : ℕ} (hsize : size < sizeModulus)
    (hold : old ∈ (sizes st).map Prod.fst) (hfits : Fits s (.realloc old size)) :
    Carries s st reply (.realloc old size) := by
  by_cases hzero : size = 0
  · obtain ⟨s', hret, hinv⟩ := release_carries h hold
    obtain ⟨bs, hown⟩ := h.owning
    have hcall : ∀ fuel, infraRealloc fuel reply s old size = (infraFree fuel s old).bind
        fun s => .ok (s, 0) := by
      intro fuel
      simp only [infraRealloc, hown.serving.initialized, if_pos hzero]
      rfl
    refine ⟨s', 0, ?_, ?_⟩
    · exact (hret.bind (settles_const (Except.ok (s', 0)))).of_eq fun fuel => hcall fuel
    · simpa only [effect, if_pos hzero] using hinv
  obtain ⟨bs, hown⟩ := h.owning
  obtain ⟨b, hb, hused, rfl⟩ := hown.owned.owner hold
  obtain ⟨hunwrapped, hblocks⟩ := hfits hzero
  obtain ⟨hrec, hwhole⟩ := hblocks bs hown.serving.tiled b hb rfl
  have hpos : 0 < size := Nat.pos_of_ne_zero hzero
  have hpool := inPool hown.serving h.secluded
  have hwrap : size + (s.config.poolAlignment - 1) < sizeModulus := by
    unfold Unwrapped at hunwrapped
    unfold sizeMax at hunwrapped
    unfold sizeModulus at hunwrapped ⊢
    omega
  have hround := le_alignSize hpool hwrap
  obtain ⟨s', ptr, hret, hsame, hcases⟩ :=
    realloc_owning hown h.secluded hb hused hold hpos hsize hround hrec hwhole reply
  obtain ⟨t, q, hret', hright, _⟩ := right_recognised hpool hown.serving.aligned hb hused
    (find st b.payload).size hpos hrec hwrap reply
  obtain ⟨rfl, rfl⟩ := Prod.mk.inj (Except.ok.inj (hret.unique hret'))
  refine ⟨s', ptr, hret, ?_⟩
  rcases hcases with ⟨rfl, rfl⟩ | ⟨hptr, bs', hown'⟩
  · simpa only [effect, if_neg hzero, if_true] using h
  obtain ⟨hmoved, hkept⟩ := hright hptr
  have hspares : Spares s s' bs b.payload := fun c hc hcused hne =>
    hkept c hc hcused fun heq => hne (congrArg Block.payload heq)
  have hfound := find_mem hold
  simp only [effect, if_neg hzero, if_neg hptr]
  refine ⟨⟨bs', ?_⟩, shows_cons.mpr ⟨?_, shows_spared hown h.within h.shows hspares⟩, ?_,
    secluded_same hsame h.secluded⟩
  · have hsizes : sizes ((ptr, (find st b.payload).resize size) :: drop st b.payload) =
        (ptr, size) :: forget (sizes st) b.payload := congrArg (List.cons (ptr, size)) (sizes_drop st _)
    rw [hsizes]
    exact hown'
  · intro i v hknown
    obtain ⟨hi, hknown⟩ := known_resize hknown
    obtain ⟨hlt, hfit⟩ := h.within _ hfound i v hknown
    have hroom : (find st b.payload).size ≤ b.size :=
      hown.owned.room _ (mem_sizes hfound) hfit b hb hused rfl
    rw [hmoved.content i (lt_min hlt hi) (lt_of_lt_of_le hlt hroom)]
    exact h.shows _ hfound i v hknown
  · rw [unwrapped_same hsame]
    refine within_cons.mpr ⟨fun i v hknown => ?_, h.within.drop _⟩
    exact ⟨(known_resize hknown).1, hunwrapped⟩

/-! ### Runs -/

theorem call_carries (h : HeapInv s st) (reply : ℕ) {c : Call}
    (hadm : Admissible (sizes st) c) (hfits : Fits s c) : Carries s st reply c := by
  cases c with
  | malloc size => exact malloc_carries h reply hadm
  | calloc nmemb size => exact calloc_carries h reply hfits
  | realloc old size => exact realloc_carries h reply hadm.1 hadm.2 hfits
  | free old =>
    obtain ⟨s', hret, hinv⟩ := release_carries h hadm
    exact ⟨s', 0, hret.bind (settles_const (Except.ok (s', 0))), hinv⟩

/-- A store changes the cell it is meant for and no other known one. -/
theorem store_carries (h : HeapInv s st) {off : ℕ} {o : Object UInt8} (hmem : (p, o) ∈ st)
    (hsize : Unwrapped s o.size) (hoff : off < o.size) (v : UInt8) :
    HeapInv { s with bytes := writeByte s.bytes (p + off) v } (write st p off v) := by
  obtain ⟨bs, hown⟩ := h.owning
  obtain ⟨b, hb, hused, hpay⟩ :=
    hown.owned.owner (List.mem_map_of_mem (f := Prod.fst) (mem_sizes hmem))
  have hroom : o.size ≤ b.size := hown.owned.room _ (mem_sizes hmem) hsize b hb hused hpay
  dsimp only at hpay
  have hinside : b.payload ≤ p + off ∧ p + off + 1 ≤ b.stop := by
    unfold Block.payload at *
    unfold Block.stop
    omega
  have hwrite : DiffersWithin s.bytes (writeByte s.bytes (p + off) v) b.payload b.stop :=
    (writeByte_differs s.bytes (p + off) v).mono hinside.1 hinside.2
  have hother : ∀ a, a ≠ p + off → writeByte s.bytes (p + off) v a = s.bytes a :=
    fun a ha => if_neg ha
  refine ⟨⟨bs, ?_⟩, ?_, ?_, h.secluded⟩
  · rw [sizes_write]
    exact hown.filled hb hwrite
  · refine h.shows.write (writeByte_self _ _ _) hother fun x hx hne j w hknown => ?_
    obtain ⟨c, hc, hcused, hcpay, hcstop⟩ := known_owner hown h.within hx hknown
    have hcb : c ≠ b := fun heq => hne (by rw [← hcpay, heq, hpay])
    -- the payloads of two blocks of a tiling are apart
    obtain ⟨pre, post, rfl⟩ := List.append_of_mem hb
    obtain ⟨hpre, hpost⟩ := hown.serving.tiled.tiles.apart
    have hor : c ∈ pre ∨ c ∈ post := by simpa [hcb] using hc
    unfold Block.payload at *
    rcases hor with hc | hc
    · have := hpre c hc
      omega
    · have := hpost c hc
      omega
  · refine h.within.write fun x hx hxp => ?_
    obtain ⟨q, o'⟩ := x
    dsimp only at hxp
    subst hxp
    have hnodup : ((sizes st).map Prod.fst).Nodup :=
      hown.owned.owners.nodup_iff.mpr (nodup_payload hown.serving.tiled.tiles)
    rw [object_unique hnodup hx hmem]
    exact ⟨hoff, hsize⟩

theorem heapRun_inv (h : HeapRun cfg s st) : HeapInv s st := by
  induction h with
  | start hs hlibc =>
    obtain ⟨_, _, hkept⟩ := started_kept hs
    exact ⟨⟨_, owning_of_kept hkept⟩, by simp [Shows], by simp [Within], hlibc⟩
  | @call s s' st c ptr reply _ hadm hfits hret ih =>
    obtain ⟨t, q, hret', hinv⟩ := call_carries ih reply hadm hfits
    obtain ⟨rfl, rfl⟩ := Prod.mk.inj (Except.ok.inj (hret.unique hret'))
    exact hinv
  | store _ hmem hsize hoff v ih => exact store_carries ih hmem hsize hoff v

/-- In every run the memory shows what the program has stored in its live
objects, the objects lie in the pool and apart, and every call returns. -/
theorem pool_shows_objects (h : HeapRun cfg s st) :
    Shows s.bytes st ∧ (∃ bs, PoolLayout s (sizes st) bs) ∧
      ∀ c reply, Admissible (sizes st) c → Fits s c →
        ∃ s' ptr, Settles (fun fuel => perform fuel reply s c) (.ok (s', ptr)) := by
  have hinv := heapRun_inv h
  obtain ⟨bs, hown⟩ := hinv.owning
  refine ⟨hinv.shows, hown.inv.layout, ?_⟩
  intro c reply hadm hfits
  obtain ⟨s', ptr, hret, _⟩ := call_carries hinv reply hadm hfits
  exact ⟨s', ptr, hret⟩

theorem smallPool_secluded : Secluded smallPool := by
  intro blk hblk
  obtain rfl := List.mem_singleton.mp hblk
  decide

/-- A byte stored in a fresh object of 100 bytes. -/
theorem pool_shows_objects_small : ∃ s, HeapRun smallConfig s (write [(4128, fresh 100)] 4128 3 7) ∧
    Shows s.bytes (write [(4128, fresh 100)] 4128 3 7) := by
  obtain ⟨s, _, hret, _, hsame, _⟩ := smallPool_serves 100 (by decide) (by decide)
  have hrun : HeapRun smallConfig s [(4128, fresh 100)] :=
    HeapRun.call (c := .malloc 100) (HeapRun.start smallPool_started smallPool_secluded)
      (by decide : (100 : ℕ) < sizeModulus) trivial ⟨2, hret⟩
  have hsize : Unwrapped s 100 := by
    unfold Unwrapped
    rw [hsame.config]
    decide
  have hstored := HeapRun.store hrun List.mem_cons_self hsize (by decide : 3 < 100) 7
  exact ⟨_, hstored, (pool_shows_objects hstored).1⟩

end Ppdb.PoolHeap
