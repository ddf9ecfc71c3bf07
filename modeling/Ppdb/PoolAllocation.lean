import Ppdb.BlockChoice
import Ppdb.BlockMerging

/-!
Allocation and release as edits of the block list, for the alignments 8 and
16 that divide the header size. A served block is cut in two or handed out
whole; a released block becomes free and its free neighbours are absorbed.
Each operation writes only inside the free block it serves from, or to the
headers of free blocks.
-/

namespace Ppdb.PoolAllocation

open ByteMemory SizeArithmetic BlockHeaders PoolOperations TiledIntervals
open PoolLayout BlockMerging BlockChoice EventualResults

section Alignment
variable {a x : ℕ}

theorem powerOfTwo_of_alignment (ha : a = 8 ∨ a = 16) : PowerOfTwo a := by
  rcases ha with rfl | rfl
  · exact ⟨3, by omega, rfl⟩
  · exact ⟨4, by omega, rfl⟩

theorem align_spec (ha : a = 8 ∨ a = 16) (h : x + (a - 1) < sizeModulus) :
    x ≤ alignSize x a ∧ alignSize x a < x + a ∧ a ∣ alignSize x a :=
  (powerOfTwo_of_alignment ha).alignSize_spec h

theorem dvd_align (ha : a = 8 ∨ a = 16) : a ∣ alignSize x a :=
  (powerOfTwo_of_alignment ha).dvd_alignSize x

theorem align_of_dvd (ha : a = 8 ∨ a = 16) (hx : x < sizeModulus) (h : a ∣ x) :
    alignSize x a = x :=
  (powerOfTwo_of_alignment ha).alignSize_of_dvd hx h

theorem align_lt_self (ha : a = 8 ∨ a = 16) (hx : x < sizeModulus)
    (h : sizeModulus ≤ x + (a - 1)) : alignSize x a < x :=
  (powerOfTwo_of_alignment ha).alignSize_lt_self hx h

end Alignment

/-- The size `allocate_memory` looks for: the request rounded up, with room
to align the payload. -/
def requestSize (size align : ℕ) : ℕ := alignSize (subSize (addSize size align) 1) align

theorem dvd_requestSize (size : ℕ) {a : ℕ} (ha : a = 8 ∨ a = 16) : a ∣ requestSize size a := dvd_align ha

/-- A request that does not wrap is covered by the size looked for. -/
theorem le_requestSize {size a : ℕ} (ha : PowerOfTwo a) (h : size + 2 * (a - 1) ≤ sizeMax) :
    size ≤ requestSize size a := by
  have hpos := ha.pos
  have hmax : sizeMax + 1 = sizeModulus := by decide
  have hsub : subSize (addSize size a) 1 = size + a - 1 := subSize_addSize_one hpos (by omega)
  have hspec := ha.alignSize_spec (x := size + a - 1) (by omega)
  unfold requestSize
  rw [hsub]
  omega

/-- What no operation after the start of the pool changes. -/
structure SameRegion (s s' : State) : Prop where
  initialized : s'.initialized = s.initialized
  config : s'.config = s.config
  poolStart : s'.pool.poolStart = s.pool.poolStart
  poolSize : s'.pool.poolSize = s.pool.poolSize
  freeList : s'.pool.freeList = s.pool.freeList
  libc : s'.libc = s.libc

theorem SameRegion.refl (s : State) : SameRegion s s := ⟨rfl, rfl, rfl, rfl, rfl, rfl⟩

theorem SameRegion.trans {s t u : State} (h : SameRegion s t) (h' : SameRegion t u) :
    SameRegion s u :=
  ⟨h'.initialized.trans h.initialized, h'.config.trans h.config,
    h'.poolStart.trans h.poolStart, h'.poolSize.trans h.poolSize, h'.freeList.trans h.freeList,
    h'.libc.trans h.libc⟩

theorem SameRegion.region {s s' : State} (h : SameRegion s s') (hr : Region s) : Region s' :=
  ⟨h.poolStart ▸ hr.start_pos, by rw [h.poolStart, h.poolSize]; exact hr.in_space,
    h.poolSize ▸ hr.small⟩

/-- The blocks a free block is turned into when it serves a request. The
header split off keeps whatever its `original_size` word contained. -/
def served (b : Block) (alignedSize size garbage : ℕ) : List Block :=
  if alignedSize + 2 * headerSize < b.size then
    [⟨b.addr, alignedSize, size, true⟩,
      ⟨b.addr + headerSize + alignedSize, b.size - alignedSize - headerSize, garbage, false⟩]
  else [⟨b.addr, b.size, size, true⟩]

/-- The served block comes first, is used, and has the size looked for. -/
theorem served_cases (b : Block) (alignedSize size garbage : ℕ) (hle : alignedSize ≤ b.size) :
    ∃ u rest, served b alignedSize size garbage = u :: rest ∧ u.addr = b.addr ∧
      u.isUsed = true ∧ u.originalSize = size ∧ alignedSize ≤ u.size ∧
      ∀ c ∈ rest, c.isUsed = false ∧ c.addr = b.addr + headerSize + alignedSize := by
  unfold served
  split
  · exact ⟨_, _, rfl, rfl, rfl, rfl, Nat.le_refl _, by simp⟩
  · exact ⟨_, [], rfl, rfl, rfl, rfl, hle, by simp⟩

theorem tiles_served {lo hi alignedSize size garbage : ℕ} {pre post : List Block} {b : Block}
    (h : BlockTiles lo hi (pre ++ b :: post)) :
    BlockTiles lo hi (pre ++ served b alignedSize size garbage ++ post) := by
  have h' : BlockTiles lo hi (pre ++ [b] ++ post) := by simpa using h
  apply Tiles.exchange h'
  intro x y hxy
  obtain ⟨hb, hend⟩ := hxy
  unfold served
  split
  · refine ⟨hb, ?_, ?_⟩
    · simp only [Block.stop]
    · simp only [tiles_nil, Block.stop] at hend ⊢
      unfold headerSize at *
      omega
  · exact ⟨hb, by simpa only [tiles_nil, Block.stop] using hend⟩

/-- The three writes that make a free header at `nb` in front of what follows
the block at `b`. -/
def newHeader (m : Mem) (b nb size : ℕ) : Mem :=
  let m := setIsUsed (setSize m nb size) nb false
  setNext m nb (getNext m b)

theorem newHeader_differs (m : Mem) (b nb size : ℕ) :
    DiffersWithin m (newHeader m b nb size) nb (nb + headerSize) :=
  ((setSize_differs m nb size).trans (setIsUsed_differs _ nb false)).trans
    (setNext_differs _ nb _)

/-- A new header is free, has the size given, and leads on to the old successor. -/
theorem newHeader_spec {m : Mem} {b nb size : ℕ} (hsep : b + headerSize ≤ nb)
    (hsize : size < sizeModulus) :
    blockAt (newHeader m b nb size) nb = ⟨nb, size, getOriginalSize m nb, false⟩ ∧
      getNext (newHeader m b nb size) nb = getNext m b := by
  have hnext : getNext (setIsUsed (setSize m nb size) nb false) b = getNext m b :=
    getNext_congr (((setSize_differs m nb size).trans
      (setIsUsed_differs _ nb false)).agreeOn (Or.inl hsep))
  constructor
  · simp [newHeader, blockAt, Nat.mod_eq_of_lt hsize]
  · simp [newHeader, hnext, Nat.mod_eq_of_lt (getNext_lt m b)]

/-- Cutting a block: a new header inside it, then a rewrite of its own header
that leads to the new one. -/
theorem listed_cut {m m' : Mem} {p lo hi nb size : ℕ} {pre post : List Block} {b u : Block}
    (hlist : Listed m p (pre ++ b :: post)) (ht : BlockTiles lo hi (pre ++ b :: post))
    (hsep : b.addr + headerSize ≤ nb) (hin : nb + headerSize ≤ b.stop)
    (hsize : size < sizeModulus)
    (hdiff : DiffersWithin (newHeader m b.addr nb size) m' b.addr (b.addr + headerSize))
    (hu : blockAt m' b.addr = u) (hnext : getNext m' b.addr = nb) :
    Listed m' p (pre ++ [u, ⟨nb, size, getOriginalSize m nb, false⟩] ++ post) ∧
      DiffersWithin m m' b.addr b.stop := by
  have hwhole : DiffersWithin m m' b.addr b.stop :=
    ((newHeader_differs m b.addr nb size).mono (by omega) hin).trans
      (hdiff.mono (Nat.le_refl _) (by omega))
  obtain ⟨hnew, hnewNext⟩ := newHeader_spec (m := m) hsep hsize
  have hsame : AgreeOn (newHeader m b.addr nb size) m' nb (nb + headerSize) :=
    hdiff.agreeOn (Or.inr hsep)
  have hne : b.addr ≠ 0 := (listed_cons.mp hlist.suffix).2.1
  have hnb : nb ≠ 0 := by
    unfold headerSize at hsep
    omega
  have hnewBlock : blockAt m' nb = ⟨nb, size, getOriginalSize m nb, false⟩ := by
    rw [blockAt_congr hsame, hnew]
  have hnewTail : getNext m' nb = getNext m b.addr := by
    rw [getNext_congr hsame, hnewNext]
  have hadr : u.addr = b.addr := by rw [← hu, blockAt_addr]
  refine ⟨hlist.exchange ht hwhole ?_, hwhole⟩
  intro htail
  rw [List.cons_append, List.cons_append, List.nil_append, listed_cons, hadr, hnext, listed_cons]
  rw [← hnewTail] at htail
  exact ⟨rfl, hne, hu, rfl, hnb, hnewBlock, htail⟩

/-- Rewriting a block's header in place. -/
theorem listed_rewrite {m m' : Mem} {p lo hi : ℕ} {pre post : List Block} {b u : Block}
    (hlist : Listed m p (pre ++ b :: post)) (ht : BlockTiles lo hi (pre ++ b :: post))
    (hdiff : DiffersWithin m m' b.addr (b.addr + headerSize))
    (hu : blockAt m' b.addr = u) (hnext : getNext m' b.addr = getNext m b.addr) :
    Listed m' p (pre ++ [u] ++ post) ∧ DiffersWithin m m' b.addr b.stop := by
  have hwhole : DiffersWithin m m' b.addr b.stop :=
    hdiff.mono (Nat.le_refl _) (by unfold Block.stop; omega)
  have hne : b.addr ≠ 0 := (listed_cons.mp hlist.suffix).2.1
  have hadr : u.addr = b.addr := by rw [← hu, blockAt_addr]
  refine ⟨hlist.exchange ht hwhole ?_, hwhole⟩
  intro htail
  rw [List.cons_append, List.nil_append, listed_cons, hadr, hnext]
  exact ⟨rfl, hne, hu, htail⟩

/-- What the edit of a free block rests on, whatever the alignment: rounding
moves neither its payload nor the header split off, and nothing wraps. -/
structure Exact (s : State) (b : Block) (alignedSize size : ℕ) : Prop where
  payload_eq : alignSize (b.addr + headerSize) s.config.poolAlignment = b.addr + headerSize
  newBlock_eq : alignSize (b.addr + headerSize + alignedSize) s.config.poolAlignment =
    b.addr + headerSize + alignedSize
  room : alignedSize ≤ b.size
  small : b.size < 2 ^ 63
  stop_lt : b.addr + headerSize + b.size < sizeModulus
  request : size < sizeModulus

/-- The numeric facts about a free block that is about to serve a request. -/
structure Serving (s : State) (b : Block) (alignedSize size : ℕ) : Prop where
  alignment : s.config.poolAlignment = 8 ∨ s.config.poolAlignment = 16
  addr_dvd : s.config.poolAlignment ∣ b.addr
  size_dvd : s.config.poolAlignment ∣ alignedSize
  room : alignedSize ≤ b.size
  small : b.size < 2 ^ 63
  stop_lt : b.addr + headerSize + b.size < sizeModulus
  request : size < sizeModulus

section Serve
variable {s : State} {pre post : List Block} {b : Block} {alignedSize size : ℕ}

/-- The payload of an aligned header needs no further rounding. -/
theorem Serving.payload_eq (h : Serving s b alignedSize size) :
    alignSize (b.addr + headerSize) s.config.poolAlignment = b.addr + headerSize := by
  have hstop := h.stop_lt
  have hdvd := h.addr_dvd
  apply align_of_dvd h.alignment (by omega)
  unfold headerSize
  rcases h.alignment with ha | ha <;> rw [ha] at hdvd ⊢ <;> omega

/-- Neither does the header split off behind it. -/
theorem Serving.newBlock_eq (h : Serving s b alignedSize size) :
    alignSize (b.addr + headerSize + alignedSize) s.config.poolAlignment =
      b.addr + headerSize + alignedSize := by
  have hstop := h.stop_lt
  have hroom := h.room
  have hdvd := h.addr_dvd
  have hdvd' := h.size_dvd
  apply align_of_dvd h.alignment (by omega)
  unfold headerSize
  rcases h.alignment with ha | ha <;> rw [ha] at hdvd hdvd' ⊢ <;> omega

theorem Serving.exact (h : Serving s b alignedSize size) : Exact s b alignedSize size :=
  ⟨h.payload_eq, h.newBlock_eq, h.room, h.small, h.stop_lt, h.request⟩

/-- The test for a split, without its modulus. -/
theorem cuts_iff (hroom : alignedSize ≤ b.size) (hsmall : b.size < 2 ^ 63) :
    addSize (addSize alignedSize headerSize) minBlockSize < b.size ↔
      alignedSize + 2 * headerSize < b.size := by
  rw [addSize_of_lt (a := alignedSize) (by unfold headerSize sizeModulus; omega),
    addSize_of_lt (by unfold minBlockSize headerSize sizeModulus; omega)]
  unfold minBlockSize headerSize
  omega

theorem Exact.split_iff (h : Exact s b alignedSize size) :
    addSize (addSize alignedSize headerSize) minBlockSize < b.size ↔
      alignedSize + 2 * headerSize < b.size := cuts_iff h.room h.small

def cutMemory (m : Mem) (b nb newSize alignedSize size : ℕ) : Mem :=
  setIsUsed
    (setOriginalSize (setSize (setNext (newHeader m b nb newSize) b nb) b alignedSize) b size)
    b true

theorem cutMemory_spec (m : Mem) (b nb newSize : ℕ) {alignedSize size : ℕ} (hnb : nb < sizeModulus)
    (haligned : alignedSize < sizeModulus) (hsize : size < sizeModulus) :
    DiffersWithin (newHeader m b nb newSize) (cutMemory m b nb newSize alignedSize size) b
        (b + headerSize) ∧
      blockAt (cutMemory m b nb newSize alignedSize size) b = ⟨b, alignedSize, size, true⟩ ∧
      getNext (cutMemory m b nb newSize alignedSize size) b = nb := by
  refine ⟨?_, ?_, ?_⟩
  · exact (((setNext_differs _ b nb).trans (setSize_differs _ b alignedSize)).trans
      (setOriginalSize_differs _ b size)).trans (setIsUsed_differs _ b true)
  · simp [cutMemory, blockAt, Nat.mod_eq_of_lt haligned, Nat.mod_eq_of_lt hsize]
  · simp [cutMemory, Nat.mod_eq_of_lt hnb]

/-- Serving a request from the free block `b` edits the list at `b` only. -/
theorem takeBestFit_spec (h : Tiled s (pre ++ b :: post)) (hserve : Exact s b alignedSize size)
    (hcount : (pre ++ b :: post).length + 1 < sizeModulus) :
    ∃ s' garbage, takeBestFit s b.addr alignedSize size = (s', b.payload) ∧ SameRegion s s' ∧
      Tiled s' (pre ++ served b alignedSize size garbage ++ post) ∧
      DiffersWithin s.bytes s'.bytes b.addr b.stop := by
  have hmem : b ∈ pre ++ b :: post := by simp
  have hsize := h.listed.getSize_eq hmem
  have hroom := hserve.room
  have hsmall := hserve.small
  have hstop := hserve.stop_lt
  have hreq := hserve.request
  by_cases hsplit : alignedSize + 2 * headerSize < b.size
  · -- the block is cut: a new header is written behind the request
    have hsub : subSize (subSize b.size alignedSize) headerSize =
        b.size - alignedSize - headerSize := by
      rw [subSize_of_le (a := b.size) (by omega) hroom, subSize_of_le (by omega) (by omega)]
    have hinc : addSize s.pool.blockCount 1 = (pre ++ b :: post).length + 1 := by
      rw [h.count, addSize_of_lt hcount]
    obtain ⟨hdiff, hu, hnext⟩ := cutMemory_spec s.bytes b.addr (b.addr + headerSize + alignedSize)
      (b.size - alignedSize - headerSize) (by omega) (by omega : alignedSize < sizeModulus) hreq
    obtain ⟨hlist, hwhole⟩ := listed_cut h.listed h.tiles (by omega)
      (by unfold Block.stop; omega) (by omega) hdiff hu hnext
    refine ⟨{ s with
        bytes := cutMemory s.bytes b.addr (b.addr + headerSize + alignedSize)
          (b.size - alignedSize - headerSize) alignedSize size
        pool :=
          { s.pool with
            blockCount := addSize s.pool.blockCount 1
            usedSize := addSize s.pool.usedSize alignedSize }
        stats := { s.stats with currentUsage := addSize s.stats.currentUsage size } },
      getOriginalSize s.bytes (b.addr + headerSize + alignedSize), ?_,
      ⟨rfl, rfl, rfl, rfl, rfl, rfl⟩, ⟨?_, tiles_served h.tiles, ?_⟩, hwhole⟩
    · simp only [takeBestFit, hsize, if_pos (hserve.split_iff.mpr hsplit), hserve.payload_eq,
        hserve.newBlock_eq, hsub]
      rfl
    · rw [served, if_pos hsplit]
      exact hlist
    · rw [served, if_pos hsplit]
      simp only [List.length_append, List.length_cons, List.length_nil] at hinc ⊢
      omega
  · obtain ⟨hlist, hwhole⟩ := listed_rewrite (u := ⟨b.addr, b.size, size, true⟩)
      h.listed h.tiles
      ((setOriginalSize_differs s.bytes b.addr size).trans (setIsUsed_differs _ b.addr true))
      (by simp [blockAt, hsize, Nat.mod_eq_of_lt hreq]) (by simp)
    refine ⟨{ s with
        bytes := setIsUsed (setOriginalSize s.bytes b.addr size) b.addr true
        pool := { s.pool with usedSize := addSize s.pool.usedSize alignedSize }
        stats := { s.stats with currentUsage := addSize s.stats.currentUsage size } },
      0, ?_, ⟨rfl, rfl, rfl, rfl, rfl, rfl⟩, ⟨?_, tiles_served h.tiles, ?_⟩, hwhole⟩
    · simp only [takeBestFit, hsize, if_neg (mt hserve.split_iff.mp hsplit), hserve.payload_eq]
      rfl
    · rw [served, if_neg hsplit]
      exact hlist
    · have hcnt := h.count
      rw [served, if_neg hsplit]
      simp only [List.length_append, List.length_cons, List.length_nil] at hcnt ⊢
      omega

end Serve

/-- A pool at work: initialised in pool mode, its blocks tiling the region. -/
structure Working (s : State) (bs : List Block) : Prop where
  initialized : s.initialized = true
  pooled : s.config.useMemoryPool = true
  region : Region s
  tiled : Tiled s bs

theorem Working.length_lt {s : State} {bs : List Block} (h : Working s bs) :
    bs.length + 1 < sizeModulus := by
  have hle := tiles_length_le h.tiled.tiles
  have hend := h.region.in_space
  have hstart := h.region.start_pos
  omega

/-- A pool in service: initialised in pool mode with an admitted alignment,
its blocks tiling the region at aligned addresses. -/
structure InService (s : State) (bs : List Block) : Prop where
  initialized : s.initialized = true
  pooled : s.config.useMemoryPool = true
  alignment : s.config.poolAlignment = 8 ∨ s.config.poolAlignment = 16
  region : Region s
  tiled : Tiled s bs
  aligned : Aligned s bs

theorem InService.working {s : State} {bs : List Block} (h : InService s bs) : Working s bs :=
  ⟨h.initialized, h.pooled, h.region, h.tiled⟩

theorem InService.serving {s : State} {bs : List Block} (h : InService s bs) {b : Block}
    (hb : b ∈ bs) {size alignedSize : ℕ} (hdvd : s.config.poolAlignment ∣ alignedSize)
    (hroom : alignedSize ≤ b.size) (hsize : size < sizeModulus) :
    Serving s b alignedSize size where
  alignment := h.alignment
  addr_dvd := h.aligned b hb
  size_dvd := hdvd
  room := hroom
  small := h.tiled.size_lt h.region hb
  stop_lt := by
    have hbounds := h.tiled.bounds hb
    have hend := h.region.in_space
    omega
  request := hsize

/-- Aligned addresses stay aligned when a block is served. -/
theorem aligned_served {s s' : State} {pre post : List Block} {b : Block}
    {alignedSize size garbage : ℕ} (h : InService s (pre ++ b :: post)) (hsame : SameRegion s s')
    (hdvd : s.config.poolAlignment ∣ alignedSize) (hroom : alignedSize ≤ b.size) :
    Aligned s' (pre ++ served b alignedSize size garbage ++ post) := by
  intro c hc
  rw [hsame.config]
  have hb := h.aligned b (by simp)
  obtain ⟨u, rest, heq, haddr, _, _, _, hrest⟩ :=
    served_cases b alignedSize size garbage hroom
  rw [heq] at hc
  simp only [List.mem_append, List.mem_cons] at hc
  rcases hc with (hc | rfl | hc) | hc
  · exact h.aligned c (by simp [hc])
  · rwa [haddr]
  · rw [(hrest c hc).2]
    unfold headerSize
    rcases h.alignment with ha | ha <;> rw [ha] at hb hdvd ⊢ <;> omega
  · exact h.aligned c (by simp [hc])

/-- What `infra_malloc` may do to the blocks: nothing when it returns null,
otherwise serve the request from a free block that fits. -/
def Allocates (s : State) (bs : List Block) (size : ℕ) (s' : State) (ptr : ℕ) : Prop :=
  (ptr = 0 ∧ s' = s ∧ ∀ b ∈ bs, b.isUsed = false →
      b.size < requestSize size s.config.poolAlignment) ∨
    ∃ pre b post garbage, bs = pre ++ b :: post ∧ b.isUsed = false ∧ ptr = b.payload ∧
      requestSize size s.config.poolAlignment ≤ b.size ∧ SameRegion s s' ∧
      InService s'
        (pre ++ served b (requestSize size s.config.poolAlignment) size garbage ++ post) ∧
      DiffersWithin s.bytes s'.bytes b.addr b.stop

def counted (size : ℕ) : ℕ := if size = 0 then 1 else size

def noteAllocation (st : Stats) : Stats :=
  { notePeak st with totalAllocations := addSize (notePeak st).totalAllocations 1 }

theorem Working.withStats {s : State} {bs : List Block} (h : Working s bs) (st : Stats) :
    Working { s with stats := st } bs :=
  ⟨h.initialized, h.pooled, ⟨h.region.start_pos, h.region.in_space, h.region.small⟩,
    ⟨h.tiled.listed, h.tiled.tiles, h.tiled.count⟩⟩

theorem Working.ofSame {s s' : State} {bs bs' : List Block} (h : Working s bs)
    (hsame : SameRegion s s') (ht : Tiled s' bs') : Working s' bs' :=
  ⟨hsame.initialized ▸ h.initialized, hsame.config ▸ h.pooled, hsame.region h.region, ht⟩

theorem InService.ofSame {s s' : State} {bs bs' : List Block} (h : InService s bs)
    (hsame : SameRegion s s') (ht : Tiled s' bs') (ha : Aligned s' bs') : InService s' bs' :=
  ⟨hsame.initialized ▸ h.initialized, hsame.config ▸ h.pooled, hsame.config ▸ h.alignment,
    hsame.region h.region, ht, ha⟩

theorem Working.writePayload {s : State} {bs : List Block} (h : Working s bs) {b : Block}
    (hb : b ∈ bs) {m : Mem} (hdiff : DiffersWithin s.bytes m b.payload b.stop) :
    Working { s with bytes := m } bs :=
  ⟨h.initialized, h.pooled, ⟨h.region.start_pos, h.region.in_space, h.region.small⟩,
    h.tiled.writePayload hb hdiff⟩

theorem InService.writePayload {s : State} {bs : List Block} (h : InService s bs) {b : Block}
    (hb : b ∈ bs) {m : Mem} (hdiff : DiffersWithin s.bytes m b.payload b.stop) :
    InService { s with bytes := m } bs :=
  have hworking := h.working.writePayload hb hdiff
  ⟨h.initialized, h.pooled, h.alignment, hworking.region, hworking.tiled, h.aligned⟩

theorem infraMalloc_eq {s : State} {bs : List Block} (h : Working s bs)
    (fuel reply size : ℕ) :
    infraMalloc fuel reply s size =
      (allocatePooled fuel s (counted size) >>= fun r =>
        if r.2 ≠ 0 then .ok ({ r.1 with stats := noteAllocation r.1.stats }, r.2) else .ok r) := by
  simp only [infraMalloc, allocateMemory, h.initialized, h.pooled]
  change (allocatePooled fuel s (counted size) >>= _) >>= _ = _
  cases allocatePooled fuel s (counted size) with
  | error e => rfl
  | ok r =>
    by_cases hr : r.2 = 0
    · simp [hr]
    · simp [hr, noteAllocation]

/-- The search of `allocate_memory` finds the best fit. -/
theorem Working.findFreeBlock {s : State} {bs : List Block} (h : Working s bs) (size fuel : ℕ)
    (hfuel : bs.length < fuel) :
    findFreeBlock fuel s size = .ok (addrOf (bestFit size bs)) := by
  refine findFreeBlock_spec h.tiled.listed (fun b hb => ?_) size fuel hfuel
  have := h.tiled.size_lt h.region hb
  unfold sizeMax sizeModulus
  omega

theorem allocatePooled_eq (fuel : ℕ) (s : State) (size : ℕ) :
    allocatePooled fuel s size =
      (PoolOperations.findFreeBlock fuel s (requestSize size s.config.poolAlignment) >>= fun block =>
        if block = 0 then .ok (s, 0) else .ok (takeBestFit s block
          (requestSize size s.config.poolAlignment) size)) := rfl

/-- What a successful `infra_malloc` books: the size looked for as used, the
request as current usage. -/
structure Booked (s s' : State) (size : ℕ) : Prop where
  used : s'.pool.usedSize = addSize s.pool.usedSize (requestSize size s.config.poolAlignment)
  current : s'.stats.currentUsage = addSize s.stats.currentUsage size

theorem takeBestFit_booked {s s' : State} {block size ptr : ℕ}
    (h : takeBestFit s block (requestSize size s.config.poolAlignment) size = (s', ptr)) :
    Booked s s' size := by
  have hs : s' = (takeBestFit s block (requestSize size s.config.poolAlignment) size).1 := by rw [h]
  subst hs
  unfold takeBestFit
  split <;> exact ⟨rfl, rfl⟩

theorem noteAllocation_currentUsage (st : Stats) :
    (noteAllocation st).currentUsage = st.currentUsage := by
  unfold noteAllocation notePeak
  split <;> rfl

/-- `infra_malloc` on a pool at work returns, and serves the request from the
best fit, if there is one. -/
theorem Working.infraMalloc_serves {s : State} {bs : List Block} (h : Working s bs)
    (reply size : ℕ) (hexact : ∀ b, bestFit (requestSize (counted size) s.config.poolAlignment) bs =
      some b → Exact s b (requestSize (counted size) s.config.poolAlignment) (counted size)) :
    ∃ s' ptr, (∀ fuel, bs.length < fuel → infraMalloc fuel reply s size = .ok (s', ptr)) ∧
      ((ptr = 0 ∧ s' = s ∧
          bestFit (requestSize (counted size) s.config.poolAlignment) bs = none) ∨
        ∃ pre b post garbage, bs = pre ++ b :: post ∧
          bestFit (requestSize (counted size) s.config.poolAlignment) bs = some b ∧
          ptr = b.payload ∧ SameRegion s s' ∧
          Working s' (pre ++ served b (requestSize (counted size) s.config.poolAlignment)
            (counted size) garbage ++ post) ∧
          DiffersWithin s.bytes s'.bytes b.addr b.stop ∧ Booked s s' (counted size)) := by
  have hfind := h.findFreeBlock (requestSize (counted size) s.config.poolAlignment)
  cases hbest : bestFit (requestSize (counted size) s.config.poolAlignment) bs with
  | none =>
    refine ⟨s, 0, ?_, Or.inl ⟨rfl, rfl, rfl⟩⟩
    intro fuel hfuel
    rw [infraMalloc_eq h, allocatePooled_eq, hfind fuel hfuel, hbest]
    rfl
  | some b =>
    obtain ⟨hmem, _, hroom⟩ := bestFit_mem hbest
    have hserve := hexact b hbest
    obtain ⟨pre, post, rfl⟩ := List.append_of_mem hmem
    obtain ⟨s', garbage, htake, hsame, htiled, hdiff⟩ :=
      takeBestFit_spec h.tiled hserve h.length_lt
    have hbooked := takeBestFit_booked htake
    have hne : b.addr ≠ 0 := h.tiled.addr_ne_zero hmem
    have hpayload : b.payload ≠ 0 := by
      unfold Block.payload
      omega
    refine ⟨{ s' with stats := noteAllocation s'.stats }, b.payload, ?_,
      Or.inr ⟨pre, b, post, garbage, rfl, rfl, rfl,
        ⟨hsame.initialized, hsame.config, hsame.poolStart, hsame.poolSize, hsame.freeList, hsame.libc⟩,
        (h.ofSame hsame htiled).withStats _, hdiff, hbooked.used, ?_⟩⟩
    · intro fuel hfuel
      rw [infraMalloc_eq h, allocatePooled_eq, hfind fuel hfuel, hbest]
      simp [addrOf, hne, htake, hpayload]
    · exact (noteAllocation_currentUsage s'.stats).trans hbooked.current

theorem counted_lt {size : ℕ} (hsize : size < sizeModulus) : counted size < sizeModulus := by
  unfold counted sizeModulus at *
  split <;> omega

/-- On a pool in service the best fit is edited exactly, and every address
stays aligned. -/
theorem infraMalloc_serves {s : State} {bs : List Block} (h : InService s bs) (reply : ℕ)
    {size : ℕ} (hsize : size < sizeModulus) :
    ∃ s' ptr, (∀ fuel, bs.length < fuel → infraMalloc fuel reply s size = .ok (s', ptr)) ∧
      ((ptr = 0 ∧ s' = s ∧
          bestFit (requestSize (counted size) s.config.poolAlignment) bs = none) ∨
        ∃ pre b post garbage, bs = pre ++ b :: post ∧
          bestFit (requestSize (counted size) s.config.poolAlignment) bs = some b ∧
          ptr = b.payload ∧ SameRegion s s' ∧
          InService s' (pre ++ served b (requestSize (counted size) s.config.poolAlignment)
            (counted size) garbage ++ post) ∧
          DiffersWithin s.bytes s'.bytes b.addr b.stop ∧ Booked s s' (counted size)) := by
  have hdvd := dvd_requestSize (counted size) h.alignment
  obtain ⟨s', ptr, hrun, hserves⟩ := h.working.infraMalloc_serves reply size
    fun b hbest => (h.serving (bestFit_mem hbest).1 hdvd (bestFit_mem hbest).2.2
      (counted_lt hsize)).exact
  refine ⟨s', ptr, hrun, ?_⟩
  rcases hserves with hnone |
    ⟨pre, b, post, garbage, rfl, hbest, hptr, hsame, hworking, hdiff, hbooked⟩
  · exact Or.inl hnone
  · have haligned : Aligned s' (pre ++ served b (requestSize (counted size) s.config.poolAlignment)
        (counted size) garbage ++ post) := aligned_served h hsame hdvd (bestFit_mem hbest).2.2
    exact Or.inr ⟨pre, b, post, garbage, rfl, hbest, hptr, hsame,
      h.ofSame hsame hworking.tiled haligned, hdiff, hbooked⟩

/-- `infra_malloc` on a pool in service returns, and allocates. -/
theorem infraMalloc_spec {s : State} {bs : List Block} (h : InService s bs) (reply : ℕ)
    {size : ℕ} (hsize : size < sizeModulus) :
    ∃ s' ptr, (∀ fuel, bs.length < fuel → infraMalloc fuel reply s size = .ok (s', ptr)) ∧
      Allocates s bs (counted size) s' ptr := by
  obtain ⟨s', ptr, hrun, hserves⟩ := infraMalloc_serves h reply hsize
  refine ⟨s', ptr, hrun, ?_⟩
  rcases hserves with ⟨hptr, hs, hnone⟩ |
    ⟨pre, b, post, garbage, hbs, hbest, hptr, hsame, hserv, hdiff, _⟩
  · exact Or.inl ⟨hptr, hs, bestFit_eq_none hnone⟩
  · obtain ⟨_, hfree, hroom⟩ := bestFit_mem hbest
    exact Or.inr ⟨pre, b, post, garbage, hbs, hfree, hptr, hroom, hsame, hserv, hdiff⟩

def freed (pre : List Block) (b : Block) (post : List Block) : List Block :=
  coalesce (pre ++ { b with isUsed := false } :: post)

def withUsage (s : State) (m : Mem) (used current : ℕ) : State :=
  { s with
    bytes := m
    pool := { s.pool with usedSize := used }
    stats := { s.stats with currentUsage := current } }

theorem withUsage_same (s : State) (m : Mem) (used current : ℕ) :
    SameRegion s (withUsage s m used current) := ⟨rfl, rfl, rfl, rfl, rfl, rfl⟩

theorem withUsage_usedSize (s : State) (m : Mem) (used current : ℕ) :
    (withUsage s m used current).pool.usedSize = used := rfl

theorem withUsage_currentUsage (s : State) (m : Mem) (used current : ℕ) :
    (withUsage s m used current).stats.currentUsage = current := rfl

theorem withUsage_bytes (s : State) (m : Mem) (used current : ℕ) :
    (withUsage s m used current).bytes = m := rfl

theorem merged_same (s : State) (m : Mem) (bs : List Block) : SameRegion s (merged s m bs) :=
  ⟨rfl, rfl, rfl, rfl, rfl, rfl⟩

/-- The header found below a payload is the header of its block. -/
theorem Working.getBlockHeader_payload {s : State} {bs : List Block} (h : Working s bs)
    {b : Block} (hb : b ∈ bs) : getBlockHeader b.payload = b.addr := by
  have hbounds := h.tiled.bounds hb
  have hend := h.region.in_space
  unfold getBlockHeader Block.payload
  rw [subSize_of_le (by omega) (by omega)]
  omega

/-- Merging leaves the counters alone. -/
theorem tryMergeBlocks_counts {s s' : State} {fuel : ℕ} (h : tryMergeBlocks fuel s = .ok s') :
    s'.pool.usedSize = s.pool.usedSize ∧ s'.stats = s.stats := by
  unfold tryMergeBlocks at h
  cases hmerge : mergeRounds fuel s.pool.freeList fuel s.bytes s.pool.blockCount with
  | error e =>
    rw [hmerge] at h
    cases h
  | ok r =>
    rw [hmerge] at h
    injection h with h
    rw [← h]
    exact ⟨rfl, rfl⟩

/-- `infra_free` of a pointer whose header is in the pool and marked as used. -/
theorem infraFree_found {s : State} (ptr : ℕ) {a : ℕ} (hinit : s.initialized = true)
    (hpooled : s.config.useMemoryPool = true) (hptr : ptr ≠ 0) (hheader : getBlockHeader ptr = a)
    (ha : a ≠ 0) (hused : getIsUsed s.bytes a = true) (hlo : s.pool.poolStart ≤ a)
    (hhi : a < s.pool.poolStart + s.pool.poolSize) (fuel : ℕ) :
    infraFree fuel s ptr = tryMergeBlocks fuel
      (withUsage s (setIsUsed s.bytes a false) (subSize s.pool.usedSize (getSize s.bytes a))
        (subSize s.stats.currentUsage (getOriginalSize s.bytes a))) := by
  have hready : ¬ ((!s.initialized) = true ∨ ptr = 0) := by simp [hinit, hptr]
  rw [infraFree, if_neg hready, freeMemory, if_neg hptr, if_pos hpooled, freePooled, hheader]
  exact if_pos ⟨ha, hused, hlo, hhi⟩

theorem infraFree_eq {s : State} {bs : List Block} (h : Working s bs) {b : Block}
    (hb : b ∈ bs) (hused : b.isUsed = true) (fuel : ℕ) :
    infraFree fuel s b.payload = tryMergeBlocks fuel
      (withUsage s (setIsUsed s.bytes b.addr false) (subSize s.pool.usedSize b.size)
        (subSize s.stats.currentUsage b.originalSize)) := by
  have hbounds := h.tiled.bounds hb
  have hpayload : b.payload ≠ 0 := by
    have := h.tiled.addr_ne_zero hb
    unfold Block.payload
    omega
  have hflag : getIsUsed s.bytes b.addr = true := (h.tiled.listed.getIsUsed_eq hb).trans hused
  rw [infraFree_found _ h.initialized h.pooled hpayload (h.getBlockHeader_payload hb)
    (h.tiled.addr_ne_zero hb) hflag hbounds.1 (by unfold headerSize at hbounds; omega)]
  simp only [h.tiled.listed.getSize_eq hb, h.tiled.listed.getOriginalSize_eq hb]

theorem listed_released {m : Mem} {p lo hi : ℕ} (pre post : List Block) {b : Block}
    (h : Listed m p (pre ++ b :: post)) (ht : BlockTiles lo hi (pre ++ b :: post)) :
    Listed (setIsUsed m b.addr false) p (pre ++ { b with isUsed := false } :: post) ∧
      DiffersWithin m (setIsUsed m b.addr false) b.addr b.stop := by
  have hmem : b ∈ pre ++ b :: post := by simp
  have hread : blockAt (setIsUsed m b.addr false) b.addr = { b with isUsed := false } := by
    simp [blockAt, h.getSize_eq hmem, h.getOriginalSize_eq hmem]
  have hset := listed_rewrite h ht (setIsUsed_differs m b.addr false) hread
    (getNext_setIsUsed _ _ _)
  simpa only [List.append_assoc, List.cons_append, List.nil_append] using hset

/-- Clearing a block's flag and merging coalesces the list, whatever is booked
as used. -/
theorem release_spec {s : State} {m : Mem} {pre post : List Block} {b : Block}
    (hlist : Listed m s.pool.freeList (pre ++ b :: post))
    (htiles : BlockTiles s.pool.poolStart (s.pool.poolStart + s.pool.poolSize) (pre ++ b :: post))
    (hcount : s.pool.blockCount = (pre ++ b :: post).length) (hr : Region s)
    (used current : ℕ) :
    ∃ s', (∀ fuel, (pre ++ b :: post).length + 2 ≤ fuel → tryMergeBlocks fuel
        (withUsage s (setIsUsed m b.addr false) used current) = .ok s') ∧
      SameRegion s s' ∧ Tiled s' (freed pre b post) ∧ KeepsUsed m s'.bytes (pre ++ post) := by
  obtain ⟨hfree, hdiff⟩ := listed_released pre post hlist htiles
  have htiled : Tiled (withUsage s (setIsUsed m b.addr false) used current)
      (pre ++ { b with isUsed := false } :: post) := by
    obtain ⟨mid, hpre, hb, hpost⟩ := tiles_append.mp htiles
    have hcount' : s.pool.blockCount = (pre ++ { b with isUsed := false } :: post).length := by
      simpa only [List.length_append, List.length_cons] using hcount
    exact ⟨hfree, tiles_append.mpr ⟨mid, hpre, hb, hpost⟩, hcount'⟩
  have hsame := withUsage_same s (setIsUsed m b.addr false) used current
  obtain ⟨m', hrun, hmerged, hkeep⟩ := tryMergeBlocks_spec htiled (hsame.region hr)
  have hlen : (pre ++ { b with isUsed := false } :: post).length = (pre ++ b :: post).length := by
    simp
  refine ⟨_, fun fuel hfuel => hrun fuel (hlen ▸ hfuel), hsame.trans (merged_same _ _ _), hmerged,
    ?_⟩
  intro c hc hcused i h1 h2
  obtain ⟨hpre, hpost⟩ := htiles.apart
  have hsep : c.stop ≤ b.addr ∨ b.stop ≤ c.addr :=
    (List.mem_append.mp hc).imp (hpre c) (hpost c)
  have hmem : c ∈ pre ++ { b with isUsed := false } :: post := by
    rcases List.mem_append.mp hc with hc | hc <;> simp [hc]
  exact (hkeep c hmem hcused i h1 h2).trans (hdiff.agreeOn hsep i h1 h2)

/-- Changing a block's flag and merging leaves every address aligned. -/
theorem aligned_freed {s : State} {pre post : List Block} {b : Block}
    (h : Aligned s (pre ++ b :: post)) : Aligned s (freed pre b post) := by
  intro c hc
  obtain ⟨d, hd, haddr⟩ := coalesce_addr_mem _ hc
  rw [haddr]
  rcases List.mem_append.mp hd with hd | hd
  · exact h d (List.mem_append_left _ hd)
  · rcases List.mem_cons.mp hd with rfl | hd
    · exact h b (by simp)
    · exact h d (by simp [hd])

/-- `infra_free` of a used block's payload returns, having released that block
and merged what became adjacent. -/
theorem Working.infraFree_spec {s : State} {pre post : List Block} {b : Block}
    (h : Working s (pre ++ b :: post)) (hused : b.isUsed = true) :
    ∃ s', (∀ fuel, (pre ++ b :: post).length + 2 ≤ fuel →
        infraFree fuel s b.payload = .ok s') ∧ SameRegion s s' ∧
      Working s' (freed pre b post) ∧ KeepsUsed s.bytes s'.bytes (pre ++ post) := by
  have hmem : b ∈ pre ++ b :: post := by simp
  obtain ⟨s', hrun, hsame, hmerged, hkeep⟩ :=
    release_spec h.tiled.listed h.tiled.tiles h.tiled.count h.region
      (subSize s.pool.usedSize b.size) (subSize s.stats.currentUsage b.originalSize)
  exact ⟨s', fun fuel hfuel => (infraFree_eq h hmem hused fuel).trans (hrun fuel hfuel), hsame,
    h.ofSame hsame hmerged, hkeep⟩

/-- In a pool in service the addresses stay aligned. -/
theorem infraFree_spec {s : State} {pre post : List Block} {b : Block}
    (h : InService s (pre ++ b :: post)) (hused : b.isUsed = true) :
    ∃ s', (∀ fuel, (pre ++ b :: post).length + 2 ≤ fuel →
        infraFree fuel s b.payload = .ok s') ∧ SameRegion s s' ∧
      InService s' (freed pre b post) ∧ KeepsUsed s.bytes s'.bytes (pre ++ post) := by
  obtain ⟨s', hrun, hsame, hworking, hkeep⟩ := h.working.infraFree_spec hused
  have haligned : Aligned s' (freed pre b post) := by
    unfold Aligned
    rw [hsame.config]
    exact aligned_freed h.aligned
  exact ⟨s', hrun, hsame, h.ofSame hsame hworking.tiled haligned, hkeep⟩

end Ppdb.PoolAllocation
