import Ppdb.PoolAllocation

/-!
Growing a block: `allocate_from_pool` cuts a first-fit block whose size has to
cover a header as well as the request, the payload is copied, and the old
block is released. The copy starts at the payload rounded up to the alignment,
so behind a header that is not aligned it may need more room than the block
was cut to.
-/

namespace Ppdb.PoolGrowth

open ByteMemory SizeArithmetic BlockHeaders PoolOperations TiledIntervals
open PoolLayout BlockMerging BlockChoice PoolAllocation

/-- The size `allocate_from_pool` looks for, header included. -/
def grossSize (size align : ℕ) : ℕ := alignSize (addSize headerSize size) align

/-- The blocks a free block is turned into by `allocate_from_pool`. -/
def carved (b : Block) (gross garbage : ℕ) : List Block :=
  if gross + headerSize ≤ b.size then
    [⟨b.addr, gross - headerSize, b.originalSize, true⟩,
      ⟨b.addr + gross, b.size - gross, garbage, false⟩]
  else [{ b with isUsed := true }]

def capacity (b : Block) (gross : ℕ) : ℕ :=
  if gross + headerSize ≤ b.size then gross - headerSize else b.size

/-- The pointer returned: the payload, rounded up to the alignment. -/
def paddedPayload (b : Block) (align : ℕ) : ℕ :=
  let mask := b.payload &&& subSize align 1
  if mask ≠ 0 then b.payload + subSize align mask else b.payload

theorem payload_le_padded (b : Block) (align : ℕ) : b.payload ≤ paddedPayload b align := by
  simp only [paddedPayload]
  split <;> omega

/-- Behind an aligned header nothing is rounded. -/
theorem paddedPayload_of_dvd {b : Block} {a : ℕ} (ha : a = 8 ∨ a = 16) (h : a ∣ b.addr) :
    paddedPayload b a = b.payload := by
  have hmask : b.payload &&& subSize a 1 = 0 := by
    have hmod : b.payload % a = 0 := by
      unfold Block.payload headerSize
      rcases ha with rfl | rfl <;> omega
    rcases ha with rfl | rfl
    · exact (Nat.and_two_pow_sub_one_eq_mod b.payload 3).trans hmod
    · exact (Nat.and_two_pow_sub_one_eq_mod b.payload 4).trans hmod
  simp [paddedPayload, hmask]

def handedOut (b : Block) (gross : ℕ) : Block :=
  ⟨b.addr, capacity b gross, b.originalSize, true⟩

theorem carved_cases (b : Block) (gross garbage : ℕ) :
    ∃ rest, carved b gross garbage = handedOut b gross :: rest := by
  unfold carved handedOut capacity
  split
  · exact ⟨_, rfl⟩
  · exact ⟨[], rfl⟩

theorem handedOut_addr (b : Block) (gross : ℕ) : (handedOut b gross).addr = b.addr := by
  rw [handedOut]

theorem handedOut_size (b : Block) (gross : ℕ) : (handedOut b gross).size = capacity b gross := by
  rw [handedOut]

theorem handedOut_payload (b : Block) (gross : ℕ) : (handedOut b gross).payload = b.payload := by
  unfold Block.payload
  rw [handedOut_addr]

theorem handedOut_stop (b : Block) (gross : ℕ) :
    (handedOut b gross).stop = b.payload + capacity b gross := by
  unfold Block.stop Block.payload
  rw [handedOut_addr, handedOut]

theorem capacity_le (b : Block) (gross : ℕ) : capacity b gross ≤ b.size := by
  unfold capacity
  split <;> omega

theorem carved_length (b : Block) (gross garbage : ℕ) :
    (carved b gross garbage).length ≤ 2 := by
  unfold carved
  split <;> simp

theorem tiles_carved {lo hi gross garbage : ℕ} {pre post : List Block} {b : Block}
    (h : BlockTiles lo hi (pre ++ b :: post)) (hgross : headerSize ≤ gross) :
    BlockTiles lo hi (pre ++ carved b gross garbage ++ post) := by
  have h' : BlockTiles lo hi (pre ++ [b] ++ post) := by simpa using h
  apply Tiles.exchange h'
  intro x y hxy
  obtain ⟨hb, hend⟩ := hxy
  unfold carved
  split
  · refine ⟨hb, ?_, ?_⟩
    · simp only [Block.stop]
      omega
    · simp only [tiles_nil, Block.stop] at hend ⊢
      omega
  · exact ⟨hb, by simpa only [tiles_nil, Block.stop] using hend⟩

def carveMemory (m : Mem) (b nb newSize keptSize : ℕ) : Mem :=
  setIsUsed (setNext (setSize (newHeader m b nb newSize) b keptSize) b nb) b true

theorem carveMemory_spec (m : Mem) (b nb newSize keptSize : ℕ) (hnb : nb < sizeModulus)
    (hkept : keptSize < sizeModulus) (hsep : b + headerSize ≤ nb) :
    DiffersWithin (newHeader m b nb newSize) (carveMemory m b nb newSize keptSize) b
        (b + headerSize) ∧
      blockAt (carveMemory m b nb newSize keptSize) b = ⟨b, keptSize, getOriginalSize m b, true⟩ ∧
      getNext (carveMemory m b nb newSize keptSize) b = nb := by
  have hold : getOriginalSize (newHeader m b nb newSize) b = getOriginalSize m b :=
    getOriginalSize_congr ((newHeader_differs m b nb newSize).agreeOn (Or.inl hsep))
  refine ⟨?_, ?_, ?_⟩
  · exact ((setSize_differs _ b keptSize).trans (setNext_differs _ b nb)).trans
      (setIsUsed_differs _ b true)
  · simp [carveMemory, blockAt, Nat.mod_eq_of_lt hkept, hold]
  · simp [carveMemory, Nat.mod_eq_of_lt hnb]

section Carve
variable {s : State} {pre post : List Block} {b : Block} {gross : ℕ}

/-- Whether a header is written or not, the module stays as it is and the whole
part looked for is booked. -/
theorem takeFirstFit_state (s : State) (current gross size : ℕ) :
    (takeFirstFit s current gross size).1.initialized = s.initialized ∧
      (takeFirstFit s current gross size).1.pool.usedSize = addSize s.pool.usedSize gross := by
  unfold takeFirstFit
  extract_lets _ _ _ _ _ _ _ cut _ _ taken addr mask
  have hcut : cut.initialized = s.initialized ∧ cut.pool.usedSize = s.pool.usedSize := by
    unfold cut
    split
    · exact ⟨rfl, rfl⟩
    · exact ⟨rfl, rfl⟩
  have htaken : taken.initialized = s.initialized ∧
      taken.pool.usedSize = addSize s.pool.usedSize gross :=
    ⟨hcut.1, congrArg (fun used => addSize used gross) hcut.2⟩
  clear_value taken
  split
  · exact htaken
  · exact htaken

/-- Serving a request by `allocate_from_pool` edits the list at `b` only. -/
theorem takeFirstFit_spec (h : Tiled s (pre ++ b :: post)) (hr : Region s)
    (hgross : headerSize ≤ gross) (hroom : gross ≤ b.size)
    (hcount : (pre ++ b :: post).length + 1 < sizeModulus) (size : ℕ) :
    ∃ s' garbage,
      takeFirstFit s b.addr gross size = (s', paddedPayload b s.config.poolAlignment) ∧
      SameRegion s s' ∧ Tiled s' (pre ++ carved b gross garbage ++ post) ∧
      DiffersWithin s.bytes s'.bytes b.addr b.stop := by
  have hmem : b ∈ pre ++ b :: post := by simp
  have hsize := h.listed.getSize_eq hmem
  have horig := h.listed.getOriginalSize_eq hmem
  have hsmall := h.size_lt hr hmem
  have hbounds := h.bounds hmem
  have hspace := hr.in_space
  have hpad : ∀ t : State, (if (b.addr + headerSize) &&& subSize s.config.poolAlignment 1 ≠ 0 then
      (t, b.addr + headerSize + subSize s.config.poolAlignment
        ((b.addr + headerSize) &&& subSize s.config.poolAlignment 1))
      else (t, b.addr + headerSize)) = (t, paddedPayload b s.config.poolAlignment) := by
    intro t
    by_cases hmask : (b.addr + headerSize) &&& subSize s.config.poolAlignment 1 = 0 <;>
      simp [paddedPayload, Block.payload, hmask]
  have htest : addSize gross minBlockSize ≤ b.size ↔ gross + headerSize ≤ b.size := by
    rw [addSize_of_lt (by unfold minBlockSize headerSize sizeModulus; omega)]
    rfl
  by_cases hsplit : gross + headerSize ≤ b.size
  · -- a new header is written behind the part handed out
    have hnew : subSize b.size gross = b.size - gross :=
      subSize_of_le (by unfold sizeModulus; omega) hroom
    have hkept : subSize gross headerSize = gross - headerSize :=
      subSize_of_le (by unfold sizeModulus; omega) hgross
    have hinc : addSize s.pool.blockCount 1 = (pre ++ b :: post).length + 1 := by
      rw [h.count, addSize_of_lt hcount]
    obtain ⟨hdiff, hu, hnext⟩ := carveMemory_spec s.bytes b.addr (b.addr + gross)
      (b.size - gross) (gross - headerSize) (by omega)
      (by unfold sizeModulus; omega) (by omega)
    obtain ⟨hlist, hwhole⟩ := listed_cut h.listed h.tiles (by omega)
      (by unfold Block.stop; omega) (by unfold sizeModulus; omega) hdiff hu hnext
    refine ⟨{ s with
        bytes := carveMemory s.bytes b.addr (b.addr + gross) (b.size - gross) (gross - headerSize)
        pool :=
          { s.pool with
            blockCount := addSize s.pool.blockCount 1
            usedSize := addSize s.pool.usedSize gross }
        stats := notePeak
          { s.stats with
            currentUsage := addSize s.stats.currentUsage size
            totalAllocations := addSize s.stats.totalAllocations 1 } },
      getOriginalSize s.bytes (b.addr + gross), ?_, ⟨rfl, rfl, rfl, rfl, rfl, rfl⟩,
      ⟨?_, tiles_carved h.tiles hgross, ?_⟩, hwhole⟩
    · simp only [takeFirstFit, hsize, if_pos (htest.mpr hsplit), hnew, hkept]
      exact hpad _
    · rw [carved, if_pos hsplit, ← horig]
      exact hlist
    · rw [carved, if_pos hsplit]
      simp only [List.length_append, List.length_cons, List.length_nil] at hinc ⊢
      omega
  · obtain ⟨hlist, hwhole⟩ := listed_rewrite (u := { b with isUsed := true }) h.listed h.tiles
      (setIsUsed_differs s.bytes b.addr true) (by simp [blockAt, hsize, horig]) (by simp)
    refine ⟨{ s with
        bytes := setIsUsed s.bytes b.addr true
        pool := { s.pool with usedSize := addSize s.pool.usedSize gross }
        stats := notePeak
          { s.stats with
            currentUsage := addSize s.stats.currentUsage size
            totalAllocations := addSize s.stats.totalAllocations 1 } },
      0, ?_, ⟨rfl, rfl, rfl, rfl, rfl, rfl⟩, ⟨?_, tiles_carved h.tiles hgross, ?_⟩, hwhole⟩
    · simp only [takeFirstFit, hsize, if_neg (mt htest.mp hsplit)]
      exact hpad _
    · rw [carved, if_neg hsplit]
      exact hlist
    · have hcnt := h.count
      rw [carved, if_neg hsplit]
      simp only [List.length_append, List.length_cons, List.length_nil] at hcnt ⊢
      omega

end Carve

/-- The requests `allocate_from_pool` refuses before it looks for a block. -/
def Refused (s : State) (size : ℕ) : Prop :=
  size = 0 ∨ addSize headerSize size < size ∨
    grossSize size s.config.poolAlignment < addSize headerSize size ∨
    s.pool.poolSize < grossSize size s.config.poolAlignment

theorem allocateFromPool_of_refused {s : State} {size : ℕ} (h : Refused s size) (fuel : ℕ) :
    allocateFromPool fuel s size = .ok (s, 0) := by
  unfold Refused grossSize at h
  unfold allocateFromPool
  dsimp only
  split_ifs <;> first | rfl | omega

theorem allocateFromPool_of_admitted {s : State} {size : ℕ} (h : ¬ Refused s size) (fuel : ℕ) :
    allocateFromPool fuel s size =
      firstFitLoop s (grossSize size s.config.poolAlignment) size fuel s.pool.freeList := by
  unfold Refused grossSize at h
  unfold allocateFromPool grossSize
  dsimp only
  split_ifs <;> first | rfl | omega

/-- An admitted request does not wrap, and its gross size covers the header
and the rounded request. -/
theorem grossSize_spec {s : State} {size : ℕ}
    (ha : s.config.poolAlignment = 8 ∨ s.config.poolAlignment = 16) (hsize : size < sizeModulus)
    (h : ¬ Refused s size) :
    headerSize + size + (s.config.poolAlignment - 1) < sizeModulus ∧
      headerSize + alignSize size s.config.poolAlignment ≤
        grossSize size s.config.poolAlignment := by
  have hsum : headerSize + size < sizeModulus := by
    by_contra hwrap
    have := addSize_of_ge (a := headerSize) (by decide) hsize (by omega)
    refine h (Or.inr (Or.inl ?_))
    unfold headerSize at *
    unfold sizeModulus at *
    omega
  have htotal := addSize_of_lt hsum
  have hfit : headerSize + size + (s.config.poolAlignment - 1) < sizeModulus := by
    by_contra hwrap
    refine h (Or.inr (Or.inr (Or.inl ?_)))
    unfold grossSize
    rw [htotal]
    exact align_lt_self ha hsum (by omega)
  have hgross := align_spec ha hfit
  have halign := align_spec (x := size) ha (by omega)
  refine ⟨hfit, ?_⟩
  unfold grossSize
  rw [htotal]
  obtain ⟨hlo, _, hdvd⟩ := hgross
  obtain ⟨_, hhi, hdvd'⟩ := halign
  generalize s.config.poolAlignment = a at *
  unfold headerSize at *
  rcases ha with rfl | rfl <;> omega

/-- `allocate_from_pool` returns null, or serves the request from the first
block that fits its gross size. -/
theorem allocateFromPool_spec {s : State} {bs : List Block} (h : Tiled s bs) (hr : Region s)
    (ha : s.config.poolAlignment = 8 ∨ s.config.poolAlignment = 16)
    (hcount : bs.length + 1 < sizeModulus) {size : ℕ} (hsize : size < sizeModulus) :
    ∃ s' ptr, (∀ fuel, bs.length < fuel → allocateFromPool fuel s size = .ok (s', ptr)) ∧
      ((ptr = 0 ∧ s' = s) ∨
        ∃ pre b post garbage, bs = pre ++ b :: post ∧ ¬ Refused s size ∧
          firstFit (grossSize size s.config.poolAlignment) bs = some b ∧
          ptr = paddedPayload b s.config.poolAlignment ∧ SameRegion s s' ∧
          Tiled s' (pre ++ carved b (grossSize size s.config.poolAlignment) garbage ++ post) ∧
          DiffersWithin s.bytes s'.bytes b.addr b.stop) := by
  by_cases hadm : Refused s size
  · exact ⟨s, 0, fun fuel _ => allocateFromPool_of_refused hadm fuel, Or.inl ⟨rfl, rfl⟩⟩
  cases hfirst : firstFit (grossSize size s.config.poolAlignment) bs with
  | none =>
    refine ⟨s, 0, ?_, Or.inl ⟨rfl, rfl⟩⟩
    intro fuel hfuel
    rw [allocateFromPool_of_admitted hadm, firstFitLoop_spec h.listed fuel hfuel, hfirst]
  | some b =>
    obtain ⟨hmem, _, hroom⟩ := firstFit_mem hfirst
    obtain ⟨pre, post, rfl⟩ := List.append_of_mem hmem
    have hgross := (grossSize_spec ha hsize hadm).2
    obtain ⟨s', garbage, htake, hsame, htiled, hdiff⟩ :=
      takeFirstFit_spec h hr (by omega) hroom hcount size
    refine ⟨s', paddedPayload b s.config.poolAlignment, ?_,
      Or.inr ⟨pre, b, post, garbage, rfl, hadm, rfl, rfl, hsame, htiled, hdiff⟩⟩
    intro fuel hfuel
    rw [allocateFromPool_of_admitted hadm, firstFitLoop_spec h.listed fuel hfuel, hfirst]
    exact congrArg Except.ok htake

/-- The old payload fits behind the pointer that a growing `infra_realloc`
of the block `b` would return. -/
def CopyFits (s : State) (bs : List Block) (b : Block) (size : ℕ) : Prop :=
  ¬ Refused s size → ∀ c, firstFit (grossSize size s.config.poolAlignment) bs = some c →
    paddedPayload c s.config.poolAlignment + b.size ≤
      c.payload + capacity c (grossSize size s.config.poolAlignment)

/-- It always does when the headers are aligned. -/
theorem copyFits_of_aligned {s : State} {bs : List Block} {b : Block} {size : ℕ}
    (ha : s.config.poolAlignment = 8 ∨ s.config.poolAlignment = 16) (hsize : size < sizeModulus)
    (haligned : Aligned s bs) (hgrow : b.size < alignSize size s.config.poolAlignment) :
    CopyFits s bs b size := by
  intro hadm c hfirst
  obtain ⟨hmem, _, hroom⟩ := firstFit_mem hfirst
  have hgross := (grossSize_spec ha hsize hadm).2
  rw [paddedPayload_of_dvd ha (haligned c hmem)]
  unfold capacity
  split <;> omega

def KeepsOthers (m m' : Mem) (bs : List Block) (b : Block) : Prop :=
  ∀ c ∈ bs, c.isUsed = true → c ≠ b → AgreeOn m m' c.addr c.stop

theorem KeepsOthers.refl (m : Mem) (bs : List Block) (b : Block) : KeepsOthers m m bs b :=
  fun _ _ _ _ _ _ _ => rfl

/-- Copying the old payload into the block carved for it changes that block only. -/
theorem tiled_copied {s : State} {pre post : List Block} {c : Block}
    {gross garbage dest n : ℕ} (src : ℕ) (h : Tiled s (pre ++ carved c gross garbage ++ post))
    (hlo : c.payload ≤ dest) (hhi : dest + n ≤ c.payload + capacity c gross) :
    Tiled { s with bytes := infraMemcpy s.bytes dest src n }
        (pre ++ carved c gross garbage ++ post) ∧
      DiffersWithin s.bytes (infraMemcpy s.bytes dest src n) c.addr c.stop := by
  obtain ⟨rest, heq⟩ := carved_cases c gross garbage
  have hpay := handedOut_payload c gross
  have hustop := handedOut_stop c gross
  have hwrite : DiffersWithin s.bytes (infraMemcpy s.bytes dest src n)
      (handedOut c gross).payload (handedOut c gross).stop := by
    unfold infraMemcpy
    split
    · exact DiffersWithin.refl _ _ _
    · exact (copy_differs s.bytes dest src n).mono (by omega) (by omega)
  have hcap := capacity_le c gross
  refine ⟨h.writePayload (b := handedOut c gross) (by simp [heq]) hwrite, hwrite.mono ?_ ?_⟩
  · rw [hpay]
    unfold Block.payload
    omega
  · rw [hustop]
    unfold Block.payload Block.stop
    omega

/-- The copy reads the source as it was. -/
theorem infraMemcpy_copied (m : Mem) {dest src n i : ℕ} (hdest : dest ≠ 0) (hsrc : src ≠ 0)
    (hi : i < n) : infraMemcpy m dest src n (dest + i) = m (src + i) := by
  have hgo : ¬ (dest = 0 ∨ src = 0 ∨ n = 0) := by omega
  have hin : dest ≤ dest + i ∧ dest + i < dest + n := by omega
  have hoff : src + (dest + i - dest) = src + i := by omega
  simp only [infraMemcpy, if_neg hgo, copy, if_pos hin, hoff]

theorem reallocMove_eq {s s₁ : State} {fuel newPtr ptr block size : ℕ}
    (halloc : allocateFromPool fuel s size = .ok (s₁, newPtr)) (hptr : newPtr ≠ 0) :
    reallocMove fuel s ptr block size =
      (tryMergeBlocks fuel (withUsage s₁
        (setIsUsed (infraMemcpy s₁.bytes newPtr ptr (getSize s.bytes block)) block false)
        (subSize s₁.pool.usedSize (alignSize (getSize s.bytes block) s.config.poolAlignment))
        (subSize s₁.stats.currentUsage
          (alignSize (getSize s.bytes block) s.config.poolAlignment))) >>= fun t =>
        .ok (t, newPtr)) := by
  unfold reallocMove withUsage
  rw [halloc]
  exact if_pos hptr

/-- The block `b` has moved into the free block `c`: the list tiles the pool
again, the block handed out holds the old payload, and nothing of the other used
blocks is changed. -/
structure Moved (s s' : State) (bs : List Block) (b c : Block) (gross : ℕ) : Prop where
  same : SameRegion s s'
  tiled : ∃ bs', Tiled s' bs'
  header : blockAt s'.bytes c.addr = handedOut c gross
  copied : ∀ i < b.size, s'.bytes (paddedPayload c s.config.poolAlignment + i) =
    s.bytes (b.payload + i)
  others : KeepsOthers s.bytes s'.bytes bs b

/-- A move is refused and changes nothing, or takes the block to the first free
one that fits the gross size, as long as the copy stays in the block cut there. -/
theorem reallocMove_cases {s : State} {bs : List Block} {b : Block} (h : Tiled s bs)
    (hr : Region s) (ha : s.config.poolAlignment = 8 ∨ s.config.poolAlignment = 16)
    (hcount : bs.length + 1 < sizeModulus) (hb : b ∈ bs) (hused : b.isUsed = true) {size : ℕ}
    (hsize : size < sizeModulus) (hfits : CopyFits s bs b size) :
    ∃ s' ptr, (∀ fuel, bs.length + 3 ≤ fuel →
        reallocMove fuel s b.payload b.addr size = .ok (s', ptr)) ∧
      ((ptr = 0 ∧ s' = s) ∨
        ∃ c, ¬ Refused s size ∧
          firstFit (grossSize size s.config.poolAlignment) bs = some c ∧
          ptr = paddedPayload c s.config.poolAlignment ∧
          Moved s s' bs b c (grossSize size s.config.poolAlignment)) := by
  obtain ⟨s₁, ptr, halloc, hcases⟩ := allocateFromPool_spec h hr ha hcount hsize
  have holdSize := h.listed.getSize_eq hb
  rcases hcases with ⟨rfl, rfl⟩ |
    ⟨pre, c, post, garbage, rfl, hadm, hfirst, rfl, hsame, htiled, hdiff⟩
  · refine ⟨s₁, 0, ?_, Or.inl ⟨rfl, rfl⟩⟩
    intro fuel hfuel
    simp [reallocMove, halloc fuel (by omega)]
  obtain ⟨_, hcfree, _⟩ := firstFit_mem hfirst
  have hpad := payload_le_padded c s.config.poolAlignment
  obtain ⟨hcopied, hcopy⟩ := tiled_copied b.payload htiled hpad
    (hfits hadm c hfirst)
  have hcb : b ≠ c := fun heq => by simp [heq, hcfree] at hused
  have hothers : ∀ d ∈ pre ++ c :: post, d ≠ c → d ∈ pre ∨ d ∈ post := by
    intro d hd hdc
    simpa [hdc] using hd
  obtain ⟨hpre, hpost⟩ := h.tiles.apart
  have hsep : ∀ d ∈ pre ++ c :: post, d ≠ c → d.stop ≤ c.addr ∨ c.stop ≤ d.addr :=
    fun d hd hdc => (hothers d hd hdc).imp (hpre d) (hpost d)
  have hbmem : b ∈ pre ++ carved c (grossSize size s.config.poolAlignment) garbage ++ post := by
    rcases hothers b hb hcb with hb | hb <;> simp [hb]
  obtain ⟨rest, hcarved⟩ := carved_cases c (grossSize size s.config.poolAlignment) garbage
  obtain ⟨pre', post', heq⟩ := List.append_of_mem hbmem
  have hptr : paddedPayload c s.config.poolAlignment ≠ 0 := by
    unfold Block.payload headerSize at hpad
    omega
  have hsrc : b.payload ≠ 0 := by
    unfold Block.payload headerSize
    omega
  -- the old block is released in the memory after the copy
  rw [heq] at hcopied
  obtain ⟨s', hrun, hsame', hmerged, hkeep⟩ := release_spec (s := s₁) hcopied.listed hcopied.tiles
    hcopied.count (hsame.region hr)
    (subSize s₁.pool.usedSize (alignSize b.size s.config.poolAlignment))
    (subSize s₁.stats.currentUsage (alignSize b.size s.config.poolAlignment))
  have hlen : (pre' ++ b :: post').length ≤ (pre ++ c :: post).length + 1 := by
    have hcarved := carved_length c (grossSize size s.config.poolAlignment) garbage
    rw [← heq]
    simp only [List.length_append, List.length_cons]
    omega
  have hmem' : ∀ d, d ≠ b →
      d ∈ pre ++ carved c (grossSize size s.config.poolAlignment) garbage ++ post →
      d ∈ pre' ++ post' := by
    intro d hdb hd
    rw [heq] at hd
    simpa [hdb] using hd
  -- the block handed out is used, so that the merge leaves it alone
  have hu : handedOut c (grossSize size s.config.poolAlignment) ∈ pre' ++ post' := by
    refine hmem' _ (fun hub => ?_) (by simp [hcarved])
    apply hcb
    apply h.tiles.eq_of_addr hb (by simp)
    rw [← hub, handedOut]
  have hkept := hkeep _ hu rfl
  refine ⟨s', paddedPayload c s.config.poolAlignment, fun fuel hfuel => ?_,
    Or.inr ⟨c, hadm, hfirst, rfl, hsame.trans hsame', ⟨_, hmerged⟩, ?_, ?_, ?_⟩⟩
  · rw [reallocMove_eq (halloc fuel (by omega)) hptr, holdSize, hrun fuel (by omega)]
    rfl
  · have hread := hcopied.listed.2 (handedOut c (grossSize size s.config.poolAlignment)) (by
      rw [← heq]
      simp [hcarved])
    refine (blockAt_congr (hkept.mono (Nat.le_refl _) ?_)).trans hread
    unfold handedOut Block.stop
    omega
  · intro i hi
    have hroom := hfits hadm c hfirst
    have hbsep := hsep b hb hcb
    calc s'.bytes (paddedPayload c s.config.poolAlignment + i)
        = infraMemcpy s₁.bytes (paddedPayload c s.config.poolAlignment) b.payload b.size
            (paddedPayload c s.config.poolAlignment + i) := by
          apply hkept
          · change c.addr ≤ _
            unfold Block.payload at hpad
            omega
          · rw [handedOut_stop]
            omega
      _ = s₁.bytes (b.payload + i) := infraMemcpy_copied s₁.bytes hptr hsrc hi
      _ = s.bytes (b.payload + i) := by
          apply hdiff.agreeOn hbsep
          · unfold Block.payload
            omega
          · unfold Block.payload Block.stop
            omega
  · intro d hd hdused hdb i h1 h2
    have hdc : d ≠ c := fun heq => by simp [heq, hcfree] at hdused
    have hdmem : d ∈ pre' ++ post' := by
      apply hmem' d hdb
      rcases hothers d hd hdc with hd | hd <;> simp [hd]
    calc s'.bytes i
        = infraMemcpy s₁.bytes (paddedPayload c s.config.poolAlignment) b.payload b.size i :=
          hkeep d hdmem hdused i h1 h2
      _ = s₁.bytes i := hcopy.agreeOn (hsep d hd hdc) i h1 h2
      _ = s.bytes i := hdiff.agreeOn (hsep d hd hdc) i h1 h2

/-- Moving a block keeps the pool tiled, as long as the copy stays in the
block allocated for it. -/
theorem reallocMove_spec {s : State} {bs : List Block} {b : Block} (h : Tiled s bs)
    (hr : Region s) (ha : s.config.poolAlignment = 8 ∨ s.config.poolAlignment = 16)
    (hcount : bs.length + 1 < sizeModulus) (hb : b ∈ bs) (hused : b.isUsed = true) {size : ℕ}
    (hsize : size < sizeModulus) (hfits : CopyFits s bs b size) :
    ∃ s' ptr bs', (∀ fuel, bs.length + 3 ≤ fuel →
        reallocMove fuel s b.payload b.addr size = .ok (s', ptr)) ∧
      SameRegion s s' ∧ Tiled s' bs' ∧ KeepsOthers s.bytes s'.bytes bs b := by
  obtain ⟨s', ptr, hrun, hcases⟩ := reallocMove_cases h hr ha hcount hb hused hsize hfits
  rcases hcases with ⟨_, rfl⟩ | ⟨c, _, _, _, hmoved⟩
  · exact ⟨s', ptr, bs, hrun, SameRegion.refl s', h, KeepsOthers.refl _ _ _⟩
  · obtain ⟨bs', htiled⟩ := hmoved.tiled
    exact ⟨s', ptr, bs', hrun, hmoved.same, htiled, hmoved.others⟩

end Ppdb.PoolGrowth
