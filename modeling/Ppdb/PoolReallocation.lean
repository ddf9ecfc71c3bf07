import Ppdb.PoolGrowth
import Ppdb.PoolRuns

/-!
`infra_realloc` in pool mode. A block that is large enough is split in place by
`split_block`, which takes a header off the block's size twice; below the size
of a header the subtraction wraps. The list therefore stays tiled only when the
surplus is at least one header and less than two, so that nothing is split off.
-/

namespace Ppdb.PoolReallocation

open ByteMemory SizeArithmetic BlockHeaders PoolOperations TiledIntervals EventualResults
open PoolLayout BlockMerging BlockChoice PoolAllocation PoolRuns PoolGrowth

/-! ### The split in place -/

def splitMemory (m : Mem) (b nb newSize keptSize : ℕ) : Mem :=
  setNext (setSize (newHeader m b nb newSize) b keptSize) b nb

def withSplit (s : State) (m : Mem) : State :=
  { s with bytes := m, pool := { s.pool with blockCount := addSize s.pool.blockCount 1 } }

def resizedUsage (s : State) (oldSize size : ℕ) : ℕ :=
  addSize (subSize s.stats.currentUsage (alignSize oldSize s.config.poolAlignment))
    (alignSize size s.config.poolAlignment)

theorem reallocInPlace_eq (s : State) (block size : ℕ) :
    ∃ used current, reallocInPlace s block size =
      withUsage (splitBlock s block (alignSize size s.config.poolAlignment))
        (splitBlock s block (alignSize size s.config.poolAlignment)).bytes used current :=
  ⟨_, _, rfl⟩

theorem reallocInPlace_whole {s : State} {block size : ℕ}
    (h : splitBlock s block (alignSize size s.config.poolAlignment) = s) :
    ∃ used, reallocInPlace s block size =
      withUsage s s.bytes used (resizedUsage s (getSize s.bytes block) size) := by
  unfold reallocInPlace resizedUsage
  dsimp only
  rw [h]
  exact ⟨_, rfl⟩

section Split
variable {s : State} {b : Block} {kept : ℕ}

def remaining (b : Block) (kept : ℕ) : ℕ := subSize b.size (headerSize + kept)

theorem splitBlock_eq (ha : s.config.poolAlignment = 8 ∨ s.config.poolAlignment = 16)
    (hdvd : s.config.poolAlignment ∣ kept) (hkept : kept ≤ b.size) (hsmall : b.size < 2 ^ 63)
    (hsize : getSize s.bytes b.addr = b.size) :
    splitBlock s b.addr kept =
      if minBlockSize ≤ remaining b kept then
        withSplit s (splitMemory s.bytes b.addr (b.addr + (headerSize + kept))
          (subSize (remaining b kept) headerSize) kept)
      else s := by
  have halign : alignSize kept s.config.poolAlignment = kept :=
    align_of_dvd ha (by unfold sizeModulus; omega) hdvd
  have htotal : addSize headerSize kept = headerSize + kept :=
    addSize_of_lt (by unfold headerSize sizeModulus; omega)
  unfold splitBlock
  simp only [halign, htotal, hsize]
  rfl

/-- A surplus of one header is not split off. -/
theorem remaining_of_fit (hlo : kept + headerSize ≤ b.size) (hsmall : b.size < 2 ^ 63) :
    remaining b kept = b.size - kept - headerSize := by
  unfold remaining
  rw [subSize_of_le (by unfold sizeModulus; omega) (by omega)]
  omega

/-- Below the size of a header the subtraction wraps. -/
theorem remaining_of_tight (hhi : b.size < kept + headerSize) (hkept : kept ≤ b.size)
    (hsmall : b.size < 2 ^ 63) : remaining b kept = sizeModulus + b.size - (headerSize + kept) :=
  subSize_of_gt (by unfold headerSize sizeModulus; omega) (by omega)

/-- A surplus of at least one header and less than two leaves the block whole. -/
theorem not_split_iff (hkept : kept ≤ b.size) (hsmall : b.size < 2 ^ 63) :
    ¬ minBlockSize ≤ remaining b kept ↔
      headerSize ≤ b.size - kept ∧ b.size - kept < 2 * headerSize := by
  rcases Nat.lt_or_ge b.size (kept + headerSize) with htight | hfit
  · rw [remaining_of_tight htight hkept hsmall]
    unfold minBlockSize headerSize sizeModulus at *
    omega
  · rw [remaining_of_fit hfit hsmall]
    unfold minBlockSize
    omega

theorem splitMemory_spec (m : Mem) (b nb newSize keptSize : ℕ) (hnb : nb < sizeModulus)
    (hnew : newSize < sizeModulus) (hsep : b + headerSize ≤ nb) :
    DiffersWithin m (splitMemory m b nb newSize keptSize) b (nb + headerSize) ∧
      getNext (splitMemory m b nb newSize keptSize) b = nb ∧
      blockAt (splitMemory m b nb newSize keptSize) nb =
        ⟨nb, newSize, getOriginalSize m nb, false⟩ ∧
      getNext (splitMemory m b nb newSize keptSize) nb = getNext m b := by
  obtain ⟨hheader, hnext⟩ := newHeader_spec (m := m) hsep hnew
  have hdiff : DiffersWithin (newHeader m b nb newSize) (splitMemory m b nb newSize keptSize) b
      (b + headerSize) := (setSize_differs _ b keptSize).trans (setNext_differs _ b nb)
  have hsame : AgreeOn (newHeader m b nb newSize) (splitMemory m b nb newSize keptSize) nb
      (nb + headerSize) := hdiff.agreeOn (Or.inr hsep)
  refine ⟨?_, ?_, ?_, ?_⟩
  · exact ((newHeader_differs m b nb newSize).mono (by omega) (Nat.le_refl _)).trans
      (hdiff.mono (Nat.le_refl _) (by omega))
  · simp [splitMemory, Nat.mod_eq_of_lt hnb]
  · rw [blockAt_congr hsame, hheader]
  · rw [getNext_congr hsame, hnext]

end Split

/-- Once a header has been split off in place, the list tiles the pool no
longer: either its last part ends a header too early, or its size is wrapped. -/
theorem not_tiled_of_split {s s' : State} {pre post bs : List Block} {b : Block} {kept : ℕ}
    (h : Tiled s (pre ++ b :: post)) (hr : Region s) (hsame : SameRegion s s')
    (hkept : kept ≤ b.size) (hsplit : minBlockSize ≤ remaining b kept)
    (hbytes : s'.bytes = splitMemory s.bytes b.addr (b.addr + (headerSize + kept))
      (subSize (remaining b kept) headerSize) kept) : ¬ Tiled s' bs := by
  intro h'
  have hmem : b ∈ pre ++ b :: post := by simp
  have hbounds := h.bounds hmem
  have hspace := hr.in_space
  have hsmall := h.size_lt hr hmem
  have hstart : b.addr ≠ 0 := h.addr_ne_zero hmem
  obtain ⟨hpre, _⟩ := h.tiles.apart
  obtain ⟨hdiff, hnext, hnew, hnewNext⟩ := splitMemory_spec s.bytes b.addr
    (b.addr + (headerSize + kept)) (subSize (remaining b kept) headerSize) kept (by omega)
    (subSize_lt _ _) (by omega)
  rw [← hbytes] at hdiff hnext hnew hnewNext
  have hlist' : Listed s'.bytes s.pool.freeList bs := hsame.freeList ▸ h'.listed
  obtain ⟨tail, rfl, htail⟩ := h.listed.follow (fun c hc => hdiff.agreeOn (Or.inl (by
    have := hpre c hc
    unfold Block.stop at this
    omega))) hlist'
  -- the list goes on with the block itself and the header split off
  obtain ⟨u, tail, rfl, hu⟩ : ∃ u tail', tail = u :: tail' ∧ u.addr = b.addr := by
    rcases tail with _ | ⟨u, tail⟩
    · exact absurd (listed_nil.mp htail) hstart
    · exact ⟨u, tail, rfl, (listed_cons.mp htail).1.symm⟩
  obtain ⟨_, _, _, htail⟩ := listed_cons.mp htail
  rw [hu, hnext] at htail
  obtain ⟨n, tail, rfl⟩ : ∃ n tail', tail = n :: tail' := by
    rcases tail with _ | ⟨n, tail⟩
    · have := listed_nil.mp htail
      omega
    · exact ⟨n, tail, rfl⟩
  obtain ⟨hn, _, hread, hrest⟩ := listed_cons.mp htail
  rw [← hn] at hread hrest
  rw [hnewNext] at hrest
  have hnsize : n.size = subSize (remaining b kept) headerSize := by
    rw [← hread, hnew]
  have hnmem : n ∈ pre ++ u :: n :: tail := by simp
  have hnbounds := h'.bounds hnmem
  rw [hsame.poolStart, hsame.poolSize, hnsize, ← hn] at hnbounds
  rcases Nat.lt_or_ge b.size (kept + headerSize) with htight | hfit
  · have hrem := remaining_of_tight htight hkept hsmall
    have hsub : subSize (remaining b kept) headerSize =
        sizeModulus + b.size - (headerSize + kept) - headerSize := by
      rw [hrem, subSize_of_le (by omega) (by unfold headerSize sizeModulus at *; omega)]
    rw [hsub] at hnbounds
    unfold headerSize sizeModulus at *
    omega
  · have hrem := remaining_of_fit hfit hsmall
    have hsub : subSize (remaining b kept) headerSize =
        b.size - kept - headerSize - headerSize := by
      rw [hrem] at hsplit ⊢
      exact subSize_of_le (by unfold sizeModulus; omega) hsplit
    -- the part split off has the block's old link, but stops a header earlier
    have hnstop : n.stop + headerSize = b.stop := by
      rw [hrem] at hsplit
      unfold Block.stop minBlockSize at *
      rw [hnsize, hsub, ← hn]
      omega
    have hnlink : getNext s'.bytes n.addr = getNext s.bytes b.addr := by rw [← hn, hnewNext]
    have hb := h.next_cases hmem
    have hn' := h'.next_cases hnmem
    rw [hnlink, hsame.poolStart, hsame.poolSize] at hn'
    unfold headerSize at hnstop
    omega

/-! ### `infra_realloc` -/

/-- Every later scan of the block list ends. -/
def ScansEnd (s : State) : Prop :=
  (∀ size, ∃ r, Settles (fun fuel => findFreeBlock fuel s size) (.ok r)) ∧
    ∃ t, Settles (fun fuel => tryMergeBlocks fuel s) (.ok t)

theorem scansEnd_of_tiled {s : State} {bs : List Block} (h : Tiled s bs) (hr : Region s) :
    ScansEnd s := by
  have hsmall : ∀ b ∈ bs, b.size < sizeMax := fun b hb => by
    have := h.size_lt hr hb
    unfold sizeMax sizeModulus
    omega
  obtain ⟨m, hmerge, _⟩ := tryMergeBlocks_spec h hr
  exact ⟨fun size => ⟨_, bs.length + 1, fun fuel hfuel =>
    findFreeBlock_spec h.listed hsmall size fuel hfuel⟩, _, bs.length + 2, hmerge⟩

/-- What `infra_realloc` of the block `b` is to leave behind: it returns with
the pool tiled again, the headers of the other used blocks as they were, the
writes of an in-place split inside the old block, and no cycle in the list. -/
def ReallocKeeps (s : State) (bs : List Block) (b : Block) (reply size : ℕ) : Prop :=
  ∃ s' ptr bs', Settles (fun fuel => infraRealloc fuel reply s b.payload size) (.ok (s', ptr)) ∧
    Tiled s' bs' ∧
    (∀ c ∈ bs, c.isUsed = true → c ≠ b →
      blockAt s'.bytes c.addr = c ∧ getNext s'.bytes c.addr = getNext s.bytes c.addr) ∧
    (alignSize size s.config.poolAlignment ≤ b.size →
      DiffersWithin s.bytes s'.bytes b.addr b.stop) ∧
    ScansEnd s'

/-- The pool in pool mode, as the C library places it: no block of the library
starts inside it. -/
structure InPool (s : State) (bs : List Block) : Prop where
  initialized : s.initialized = true
  pooled : s.config.useMemoryPool = true
  alignment : s.config.poolAlignment = 8 ∨ s.config.poolAlignment = 16
  region : Region s
  tiled : Tiled s bs
  libc : ∀ blk ∈ s.libc, ¬ (s.pool.poolStart < blk.1 ∧
    blk.1 < s.pool.poolStart + s.pool.poolSize)

def Recognised (s : State) (b : Block) : Prop :=
  b.payload < s.pool.poolStart + s.pool.poolSize

/-- When `infra_realloc` keeps the pool. In place, the surplus holds one header
but not two. A move leaves room for the copy. The pointer at the end of the
pool, behind a last block of size 0, is taken for one of the C library, and
refused only if a size there does not pass the overflow checks. -/
def ReallocFits (s : State) (bs : List Block) (b : Block) (size : ℕ) : Prop :=
  (Recognised s b → alignSize size s.config.poolAlignment ≤ b.size →
    headerSize ≤ b.size - alignSize size s.config.poolAlignment ∧
      b.size - alignSize size s.config.poolAlignment < 2 * headerSize) ∧
  (Recognised s b → b.size < alignSize size s.config.poolAlignment → CopyFits s bs b size) ∧
  (¬ Recognised s b → sizeMax - 8 < readWord s.bytes (b.payload - 8) ∨ sizeMax - 8 < size)

/-- The overflow checks of `infra_realloc` turn away a pointer that is not of
the pool. -/
theorem reallocSystem_refused (s : State) {ptr size reply : ℕ} (hlt : size < sizeModulus)
    (hrefuse : sizeMax - 8 < readWord s.bytes (ptr - 8) ∨ sizeMax - 8 < size) :
    reallocSystem reply s ptr size = .ok (s, 0) := by
  unfold reallocSystem
  dsimp only
  by_cases hsize : size ≤ sizeMax - 8
  · have hword : ¬ readWord s.bytes (ptr - 8) ≤ sizeMax - 8 := by
      rcases hrefuse with hbig | hbig <;> omega
    rw [if_neg fun hpass => hword hpass.2.2]
  · have htotal : ¬ size < addSize 8 size := by
      rw [addSize_of_ge (by decide) hlt (by unfold sizeMax sizeModulus at *; omega)]
      unfold sizeMax sizeModulus at *
      omega
    rw [if_neg htotal, ite_self]

section Realloc
variable {s : State} {bs : List Block} {b : Block} {size : ℕ}

theorem infraRealloc_recognised (h : InPool s bs) (hb : b ∈ bs) (hused : b.isUsed = true)
    (hsize : 0 < size) (hrec : Recognised s b) (fuel reply : ℕ) :
    infraRealloc fuel reply s b.payload size =
      if alignSize size s.config.poolAlignment ≤ b.size then
        .ok (reallocInPlace s b.addr size, b.payload)
      else reallocMove fuel s b.payload b.addr size := by
  have hbounds := h.tiled.bounds hb
  have hspace := h.region.in_space
  have hready : ¬ ((!s.initialized) = true) := by simp [h.initialized]
  have hpayload : b.payload ≠ 0 := by
    unfold Block.payload headerSize
    omega
  have hin : s.config.useMemoryPool = true ∧ s.pool.poolStart ≤ b.payload ∧
      b.payload < s.pool.poolStart + s.pool.poolSize := by
    refine ⟨h.pooled, ?_, hrec⟩
    unfold Block.payload
    omega
  have hheader : getBlockHeader b.payload = b.addr := by
    unfold getBlockHeader Block.payload
    rw [subSize_of_le (by omega) (by omega)]
    omega
  have hflag : getIsUsed s.bytes b.addr = true := (h.tiled.listed.getIsUsed_eq hb).trans hused
  rw [infraRealloc, if_neg hready, if_neg (by omega), if_neg hpayload, if_pos hin, reallocPooled]
  simp only [hheader, hflag, if_true, h.tiled.listed.getSize_eq hb]

theorem infraRealloc_foreign (h : InPool s bs) (hsize : 0 < size)
    (hrec : ¬ Recognised s b) (fuel reply : ℕ) :
    infraRealloc fuel reply s b.payload size = reallocSystem reply s b.payload size := by
  have hready : ¬ ((!s.initialized) = true) := by simp [h.initialized]
  have hpayload : 8 < b.payload := by
    unfold Block.payload headerSize
    omega
  have hout : ¬ (s.config.useMemoryPool = true ∧ s.pool.poolStart ≤ b.payload ∧
      b.payload < s.pool.poolStart + s.pool.poolSize) := fun hin => hrec hin.2.2
  rw [infraRealloc, if_neg hready, if_neg (by omega), if_neg (by omega), if_neg hout,
    if_pos hpayload]

/-- Keeping the state as it is keeps the pool. -/
theorem reallocKeeps_of_same {reply ptr used current : ℕ} (h : InPool s bs)
    (hret : Settles (fun fuel => infraRealloc fuel reply s b.payload size)
      (.ok (withUsage s s.bytes used current, ptr))) : ReallocKeeps s bs b reply size := by
  have htiled : Tiled (withUsage s s.bytes used current) bs :=
    ⟨h.tiled.listed, h.tiled.tiles, h.tiled.count⟩
  exact ⟨_, ptr, bs, hret, htiled, fun c hc _ _ => ⟨h.tiled.listed.2 c hc, rfl⟩,
    fun _ => DiffersWithin.refl _ _ _, scansEnd_of_tiled htiled ((withUsage_same _ _ _ _).region
      h.region)⟩

theorem InPool.length_lt (h : InPool s bs) : bs.length + 1 < sizeModulus := by
  have hle := tiles_length_le h.tiled.tiles
  have hend := h.region.in_space
  have hstart := h.region.start_pos
  omega

/-- The split made by `infra_realloc` in place, if it makes one. -/
theorem splitBlock_realloc (h : InPool s bs) (hb : b ∈ bs)
    (hkept : alignSize size s.config.poolAlignment ≤ b.size) :
    splitBlock s b.addr (alignSize size s.config.poolAlignment) =
      if minBlockSize ≤ remaining b (alignSize size s.config.poolAlignment) then
        withSplit s (splitMemory s.bytes b.addr
          (b.addr + (headerSize + alignSize size s.config.poolAlignment))
          (subSize (remaining b (alignSize size s.config.poolAlignment)) headerSize)
          (alignSize size s.config.poolAlignment))
      else s :=
  splitBlock_eq h.alignment (dvd_align h.alignment) hkept (h.tiled.size_lt h.region hb)
    (h.tiled.listed.getSize_eq hb)

/-- A block that is not split stays as it is; only the counters change. -/
theorem infraRealloc_whole (h : InPool s bs) (hb : b ∈ bs) (hused : b.isUsed = true)
    (hsize : 0 < size) (hrec : Recognised s b)
    (hkept : alignSize size s.config.poolAlignment ≤ b.size)
    (hwhole : headerSize ≤ b.size - alignSize size s.config.poolAlignment ∧
      b.size - alignSize size s.config.poolAlignment < 2 * headerSize) :
    ∃ used, ∀ fuel reply, infraRealloc fuel reply s b.payload size =
      .ok (withUsage s s.bytes used (resizedUsage s b.size size), b.payload) := by
  have hsplit := splitBlock_realloc h hb hkept
  rw [if_neg ((not_split_iff hkept (h.tiled.size_lt h.region hb)).mpr hwhole)] at hsplit
  obtain ⟨used, hplace⟩ := reallocInPlace_whole hsplit
  rw [h.tiled.listed.getSize_eq hb] at hplace
  refine ⟨used, fun fuel reply => ?_⟩
  rw [infraRealloc_recognised h hb hused hsize hrec, if_pos hkept, hplace]

theorem keeps_in_place (h : InPool s bs) (hb : b ∈ bs) (hused : b.isUsed = true)
    (hsize : 0 < size) (hrec : Recognised s b)
    (hkept : alignSize size s.config.poolAlignment ≤ b.size) (reply : ℕ) :
    ReallocKeeps s bs b reply size ↔
      headerSize ≤ b.size - alignSize size s.config.poolAlignment ∧
        b.size - alignSize size s.config.poolAlignment < 2 * headerSize := by
  have hret : Settles (fun fuel => infraRealloc fuel reply s b.payload size)
      (.ok (reallocInPlace s b.addr size, b.payload)) :=
    ⟨0, fun fuel _ => (infraRealloc_recognised h hb hused hsize hrec fuel reply).trans
      (if_pos hkept)⟩
  constructor
  · rintro ⟨s', ptr, bs', hret', htiled, _⟩
    rw [← not_split_iff hkept (h.tiled.size_lt h.region hb)]
    intro hcut
    have hsplit := splitBlock_realloc h hb hkept
    obtain ⟨used, current, hplace⟩ := reallocInPlace_eq s b.addr size
    obtain ⟨rfl, _⟩ := Prod.mk.inj (Except.ok.inj (hret'.unique hret))
    obtain ⟨pre, post, rfl⟩ := List.append_of_mem hb
    rw [if_pos hcut] at hsplit
    rw [hplace, hsplit] at htiled
    refine not_tiled_of_split h.tiled h.region ?_ hkept hcut ?_ htiled
    · exact ⟨rfl, rfl, rfl, rfl, rfl, rfl⟩
    · rfl
  · intro hwhole
    obtain ⟨used, hplace⟩ := infraRealloc_whole h hb hused hsize hrec hkept hwhole
    exact reallocKeeps_of_same h ⟨0, fun fuel _ => hplace fuel reply⟩

theorem keeps_moved (h : InPool s bs) (hb : b ∈ bs) (hused : b.isUsed = true)
    (hsize : 0 < size) (hlt : size < sizeModulus) (hrec : Recognised s b)
    (hgrow : b.size < alignSize size s.config.poolAlignment) (hfits : CopyFits s bs b size)
    (reply : ℕ) : ReallocKeeps s bs b reply size := by
  obtain ⟨s', ptr, bs', hrun, hsame, htiled, hkeep⟩ :=
    reallocMove_spec h.tiled h.region h.alignment h.length_lt hb hused hlt hfits
  refine ⟨s', ptr, bs', ⟨bs.length + 3, fun fuel hfuel => ?_⟩, htiled, fun c hc hcused hcb => ?_,
    fun hle => absurd hle (by omega), scansEnd_of_tiled htiled (hsame.region h.region)⟩
  · exact (infraRealloc_recognised h hb hused hsize hrec fuel reply).trans
      ((if_neg (by omega)).trans (hrun fuel hfuel))
  · have hheader : AgreeOn s.bytes s'.bytes c.addr (c.addr + headerSize) :=
      (hkeep c hc hcused hcb).mono (Nat.le_refl _) (by unfold Block.stop; omega)
    exact ⟨(blockAt_congr hheader).trans (h.tiled.listed.2 c hc), getNext_congr hheader⟩

/-- A pointer behind the end of the pool is turned away by the overflow checks,
or handed to the C library, which never gave it out. -/
theorem infraRealloc_foreign_cases (h : InPool s bs) (hb : b ∈ bs) (hused : b.isUsed = true)
    (hsize : 0 < size) (hlt : size < sizeModulus) (hrec : ¬ Recognised s b) (fuel reply : ℕ) :
    infraRealloc fuel reply s b.payload size =
      if sizeMax - 8 < readWord s.bytes (b.payload - 8) ∨ sizeMax - 8 < size then .ok (s, 0)
      else .error .invalidFree := by
  rw [infraRealloc_foreign h hsize hrec fuel reply]
  by_cases hrefuse : sizeMax - 8 < readWord s.bytes (b.payload - 8) ∨ sizeMax - 8 < size
  · rw [if_pos hrefuse]
    exact reallocSystem_refused s hlt hrefuse
  have hsizePtr : b.payload - 8 = b.addr + 24 := by
    unfold Block.payload headerSize
    omega
  -- the word read as a size starts with the `is_used` byte
  have hword : 0 < readWord s.bytes (b.payload - 8) := by
    rw [hsizePtr]
    apply readWord_pos
    intro hzero
    have hflag := (h.tiled.listed.getIsUsed_eq hb).trans hused
    simp [getIsUsed, hzero] at hflag
  have htotal : addSize 8 size = 8 + size :=
    addSize_of_lt (by unfold sizeMax sizeModulus at *; omega)
  have hnone : s.libc.find? (fun blk => blk.1 = b.payload - 8) = none := by
    refine List.find?_eq_none.mpr fun blk hblk => ?_
    have hbounds := h.tiled.bounds hb
    have hout := h.libc blk hblk
    unfold Recognised at hrec
    unfold Block.payload headerSize at *
    simp only [decide_eq_true_eq]
    omega
  rw [if_neg hrefuse, reallocSystem]
  simp only [hnone, htotal]
  rw [if_pos ⟨by omega, hword, by omega⟩, if_pos (by omega)]

theorem keeps_foreign (h : InPool s bs) (hb : b ∈ bs) (hused : b.isUsed = true)
    (hsize : 0 < size) (hlt : size < sizeModulus) (hrec : ¬ Recognised s b) (reply : ℕ) :
    ReallocKeeps s bs b reply size ↔
      sizeMax - 8 < readWord s.bytes (b.payload - 8) ∨ sizeMax - 8 < size := by
  have hforeign := fun fuel => infraRealloc_foreign_cases h hb hused hsize hlt hrec fuel reply
  constructor
  · rintro ⟨s', ptr, bs', ⟨n, hn⟩, _⟩
    by_contra hpass
    have herror := (hn n (Nat.le_refl n)).symm.trans ((hforeign n).trans (if_neg hpass))
    exact absurd herror (by simp)
  · intro hrefuse
    have hnull : ∀ fuel, infraRealloc fuel reply s b.payload size =
        .ok (withUsage s s.bytes s.pool.usedSize s.stats.currentUsage, 0) := by
      intro fuel
      rw [hforeign fuel, if_pos hrefuse]
      rfl
    exact reallocKeeps_of_same h ⟨0, fun fuel _ => hnull fuel⟩

def Growing (s : State) (b : Block) (size : ℕ) : Prop :=
  Recognised s b ∧ b.size < alignSize size s.config.poolAlignment

/-- `infra_realloc` keeps the pool exactly when the request fits; a block that
moves is to have the aligned headers that every pool in service has. -/
theorem infraRealloc_keeps_iff (h : InPool s bs) (hb : b ∈ bs) (hused : b.isUsed = true)
    (hsize : 0 < size) (hlt : size < sizeModulus) (reply : ℕ) :
    (ReallocFits s bs b size → ReallocKeeps s bs b reply size) ∧
      ((Growing s b size → Aligned s bs) → ReallocKeeps s bs b reply size →
        ReallocFits s bs b size) := by
  by_cases hrec : Recognised s b
  · rcases Nat.lt_or_ge b.size (alignSize size s.config.poolAlignment) with hgrow | hkept
    · refine ⟨fun hfits => keeps_moved h hb hused hsize hlt hrec hgrow (hfits.2.1 hrec hgrow) reply,
        fun haligned _ => ⟨fun _ hle => absurd hle (by omega), ?_, fun hno => absurd hrec hno⟩⟩
      intro _ _
      exact copyFits_of_aligned h.alignment hlt (haligned ⟨hrec, hgrow⟩) hgrow
    · have hiff := keeps_in_place h hb hused hsize hrec hkept reply
      exact ⟨fun hfits => hiff.mpr (hfits.1 hrec hkept), fun _ hkeep =>
        ⟨fun _ _ => hiff.mp hkeep, fun _ hlt => absurd hlt (by omega), fun hno => absurd hrec hno⟩⟩
  · have hiff := keeps_foreign h hb hused hsize hlt hrec reply
    exact ⟨fun hfits => hiff.mpr (hfits.2.2 hrec), fun _ hkeep =>
      ⟨fun hyes => absurd hyes hrec, fun hyes => absurd hyes hrec, fun _ => hiff.mp hkeep⟩⟩

end Realloc

/-- The small pool after a request for 100 bytes: a used block of 112. -/
theorem smallPool_inPool :
    ∃ s garbage, Settles (fun fuel => infraMalloc fuel 0 smallPool 100) (.ok (s, 4128)) ∧
      InPool s [⟨4096, 112, 100, true⟩, ⟨4240, 848, garbage, false⟩] ∧
      s.config.poolAlignment = 8 ∧ s.pool.poolStart + s.pool.poolSize = 5120 := by
  obtain ⟨s, garbage, hret, hserv, hsame, _⟩ :=
    smallPool_serves 100 (by decide) (by decide)
  have hreq : requestSize (counted 100) 8 = 112 := by decide
  rw [hreq] at hserv
  refine ⟨s, garbage, ⟨2, hret⟩, ⟨hserv.initialized, hserv.pooled, hserv.alignment, hserv.region,
    hserv.tiled, ?_⟩, by rw [hsame.config]; rfl, by rw [hsame.poolStart, hsame.poolSize]; rfl⟩
  rw [hsame.libc, hsame.poolStart]
  simp [smallPool]

/-- Shrinking 112 bytes to 80 leaves the block whole. -/
theorem infraRealloc_keeps_small :
    ∃ s bs b, b.payload = 4128 ∧ ReallocKeeps s bs b 0 80 := by
  obtain ⟨s, garbage, _, hpool, halign, hend⟩ := smallPool_inPool
  refine ⟨s, _, ⟨4096, 112, 100, true⟩, rfl,
    (infraRealloc_keeps_iff hpool List.mem_cons_self rfl (by decide) (by decide) 0).1 ?_⟩
  have hkept : alignSize 80 s.config.poolAlignment = 80 := by
    rw [halign]
    decide
  unfold ReallocFits Recognised
  rw [hkept, hend]
  exact ⟨fun _ _ => by decide, fun _ hgrow => absurd hgrow (by decide),
    fun hno => absurd (by decide) hno⟩

/-- Shrinking 112 bytes to 16 splits off a header of 32 bytes too few. -/
theorem infraRealloc_shrink_untiles :
    ∃ s bs b, Settles (fun fuel => infraMalloc fuel 0 smallPool 100) (.ok (s, 4128)) ∧
      InPool s bs ∧ b ∈ bs ∧ b.isUsed = true ∧ b.payload = 4128 ∧ ¬ ReallocKeeps s bs b 0 16 := by
  obtain ⟨s, garbage, hret, hpool, halign, hend⟩ := smallPool_inPool
  refine ⟨s, _, ⟨4096, 112, 100, true⟩, hret, hpool, List.mem_cons_self, rfl, rfl, ?_⟩
  have hkept : alignSize 16 s.config.poolAlignment = 16 := by
    rw [halign]
    decide
  have hrec : Recognised s ⟨4096, 112, 100, true⟩ := by
    unfold Recognised
    rw [hend]
    decide
  rw [keeps_in_place hpool List.mem_cons_self rfl (by decide) hrec (by rw [hkept]; decide) 0, hkept]
  decide

end Ppdb.PoolReallocation
