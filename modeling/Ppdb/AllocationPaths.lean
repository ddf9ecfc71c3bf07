import Ppdb.PoolGrowth
import Ppdb.PoolRuns

/-!
The two ways to a block of the pool, side by side: the best fit of
`allocate_memory` and the first fit with which `infra_realloc` grows a block.
They look for different sizes and book the block that they hand out in
different ways; only `allocate_memory` notes the size requested.
-/

namespace Ppdb.AllocationPaths

open ByteMemory SizeArithmetic BlockHeaders PoolOperations EventualResults
open PoolLayout BlockMerging BlockChoice PoolAllocation PoolGrowth PoolRuns

def HandsOut (bs : List Block) (s' : State) (b : Block) : Prop :=
  b ∈ bs ∧ b.isUsed = false ∧ getIsUsed s'.bytes b.addr = true

def Books (s s' : State) (b : Block) : Prop :=
  s'.pool.usedSize = addSize s.pool.usedSize (getSize s'.bytes b.addr)

/-- Both calls refuse the request, or both serve it, book the block that they
hand out and record the same size in it. -/
def PathsAgree (s : State) (bs : List Block) (size : ℕ) : Prop :=
  ∀ reply, ∃ s₁ p₁ s₂ p₂,
    Settles (fun fuel => allocateMemory fuel reply s size) (.ok (s₁, p₁)) ∧
    Settles (fun fuel => allocateFromPool fuel s size) (.ok (s₂, p₂)) ∧
    (p₁ = 0 ↔ p₂ = 0) ∧ (p₁ ≠ 0 → p₂ ≠ 0 → ∃ b₁ b₂, HandsOut bs s₁ b₁ ∧ HandsOut bs s₂ b₂ ∧
      Books s s₁ b₁ ∧ Books s s₂ b₂ ∧
      getOriginalSize s₁.bytes b₁.addr = getOriginalSize s₂.bytes b₂.addr)

/-- No free block is large enough for either call; or the smallest one for
`allocate_memory` is met exactly or cut, and the first one for
`allocate_from_pool` is met exactly and by chance holds the size requested. -/
def Alike (s : State) (bs : List Block) (size : ℕ) : Prop :=
  match bestFit (requestSize size s.config.poolAlignment) bs,
    firstFit (grossSize size s.config.poolAlignment) bs with
  | none, none => True
  | some b, some c =>
    (b.size = requestSize size s.config.poolAlignment ∨
      requestSize size s.config.poolAlignment + 2 * headerSize < b.size) ∧
    c.size = grossSize size s.config.poolAlignment ∧ c.originalSize = size
  | _, _ => False

/-- A pool whose blocks tile it, and a request that it could hold. -/
structure Asked (s : State) (bs : List Block) (size : ℕ) : Prop where
  pooled : s.config.useMemoryPool = true
  alignment : s.config.poolAlignment = 8 ∨ s.config.poolAlignment = 16
  region : Region s
  tiled : Tiled s bs
  pos : 1 ≤ size
  fits : size ≤ s.pool.poolSize

/-- What a call that hands out the block `b` leaves of it. -/
structure Serves (s s' : State) (b : Block) (capacity original used : ℕ) : Prop where
  whole : DiffersWithin s.bytes s'.bytes b.addr b.stop
  block : blockAt s'.bytes b.addr = ⟨b.addr, capacity, original, true⟩
  used : s'.pool.usedSize = addSize s.pool.usedSize used

variable {s s' : State} {bs : List Block} {b c : Block} {size alignedSize used original : ℕ}

theorem addSize_left_cancel_iff (u : ℕ) {m n : ℕ} (hm : m < sizeModulus) (hn : n < sizeModulus) :
    addSize u m = addSize u n ↔ m = n := by
  unfold addSize
  constructor
  · intro heq
    have hmod : m % sizeModulus = n % sizeModulus := Nat.ModEq.add_left_cancel' u heq
    rwa [Nat.mod_eq_of_lt hm, Nat.mod_eq_of_lt hn] at hmod
  · rintro rfl
    rfl

section Asked
variable (h : Asked s bs size)
include h

theorem Asked.size_lt : size + 2 * s.config.poolAlignment + headerSize < sizeModulus := by
  have hfits := h.fits
  have hsmall := h.region.small
  unfold headerSize sizeModulus
  rcases h.alignment with ha | ha <;> omega

/-- The size looked for is a multiple of the alignment, and not 0. -/
theorem Asked.alignment_le : s.config.poolAlignment ≤ requestSize size s.config.poolAlignment := by
  have hsize := h.size_lt
  have hpos := h.pos
  have hle : size ≤ requestSize size s.config.poolAlignment := by
    apply le_requestSize (powerOfTwo_of_alignment h.alignment)
    unfold sizeMax
    omega
  exact Nat.le_of_dvd (by omega) (dvd_requestSize size h.alignment)

theorem Asked.bounds (hb : b ∈ bs) : b.addr + headerSize + b.size < sizeModulus ∧
    b.size < 2 ^ 63 := by
  have hbounds := h.tiled.bounds hb
  have hspace := h.region.in_space
  exact ⟨by omega, h.tiled.size_lt h.region hb⟩

/-! ### Serving a request -/

/-- The header behind the part handed out is within the block. -/
theorem Asked.header_within (hb : b ∈ bs) {req : ℕ} (hsplit : req + 2 * headerSize < b.size) :
    b.addr + headerSize + req ≤
        alignSize (b.addr + headerSize + req) s.config.poolAlignment ∧
      alignSize (b.addr + headerSize + req) s.config.poolAlignment + headerSize ≤ b.stop := by
  obtain ⟨hspace, hsmall⟩ := h.bounds hb
  have hroomy : b.addr + headerSize + req + (s.config.poolAlignment - 1) < sizeModulus := by
    unfold headerSize at hsplit hspace ⊢
    rcases h.alignment with ha | ha
    all_goals
      rw [ha]
      omega
  obtain ⟨hlo, hhi, _⟩ := align_spec h.alignment hroomy
  refine ⟨hlo, ?_⟩
  unfold Block.stop
  unfold headerSize at *
  rcases h.alignment with ha | ha
  all_goals
    rw [ha] at hhi ⊢
    omega

/-- The best fit, wherever its header is. -/
theorem Asked.serves_bestFit (hb : b ∈ bs)
    (hroom : requestSize size s.config.poolAlignment ≤ b.size) :
    ∃ s', takeBestFit s b.addr (requestSize size s.config.poolAlignment) size =
        (s', alignSize (b.addr + headerSize) s.config.poolAlignment) ∧
      Serves s s' b (if requestSize size s.config.poolAlignment + 2 * headerSize < b.size then
        requestSize size s.config.poolAlignment else b.size) size
        (requestSize size s.config.poolAlignment) := by
  have hasked := h.size_lt
  have hlt : size < sizeModulus := by omega
  have hsize := h.tiled.listed.getSize_eq hb
  obtain ⟨hspace, hsmall⟩ := h.bounds hb
  generalize requestSize size s.config.poolAlignment = req at hroom ⊢
  have htest := cuts_iff hroom hsmall
  by_cases hsplit : req + 2 * headerSize < b.size
  · obtain ⟨hlo, hnb⟩ := h.header_within hb hsplit
    generalize hnew : alignSize (b.addr + headerSize + req) s.config.poolAlignment = nb at hlo hnb
    have hstop : b.stop < sizeModulus := hspace
    have hnext : nb < sizeModulus := by omega
    have hreq : req < sizeModulus := by omega
    obtain ⟨hdiff, hu, _⟩ := cutMemory_spec s.bytes b.addr nb
      (subSize (subSize b.size req) headerSize) hnext hreq hlt
    have hheader := newHeader_differs s.bytes b.addr nb (subSize (subSize b.size req) headerSize)
    have htake : takeBestFit s b.addr req size = ({ s with
        bytes := cutMemory s.bytes b.addr nb (subSize (subSize b.size req) headerSize) req size
        pool :=
          { s.pool with
            blockCount := addSize s.pool.blockCount 1
            usedSize := addSize s.pool.usedSize req }
        stats := { s.stats with currentUsage := addSize s.stats.currentUsage size } },
        alignSize (b.addr + headerSize) s.config.poolAlignment) := by
      unfold takeBestFit
      rw [hsize, if_pos (htest.mpr hsplit), hnew]
      rfl
    rw [if_pos hsplit]
    refine ⟨_, htake, ?_, hu, rfl⟩
    exact (hheader.mono (by omega) hnb).trans (hdiff.mono (Nat.le_refl _) (by omega))
  · have htake : takeBestFit s b.addr req size = ({ s with
        bytes := setIsUsed (setOriginalSize s.bytes b.addr size) b.addr true
        pool := { s.pool with usedSize := addSize s.pool.usedSize req }
        stats := { s.stats with currentUsage := addSize s.stats.currentUsage size } },
        alignSize (b.addr + headerSize) s.config.poolAlignment) := by
      unfold takeBestFit
      rw [hsize, if_neg (mt htest.mp hsplit)]
    rw [if_neg hsplit]
    refine ⟨_, htake, ?_, ?_, rfl⟩
    · refine ((setOriginalSize_differs s.bytes b.addr size).trans
        (setIsUsed_differs _ b.addr true)).mono (Nat.le_refl _) ?_
      unfold Block.stop
      omega
    · simp [blockAt, hsize, Nat.mod_eq_of_lt hlt]

/-- The pointer returned is not null. -/
theorem Asked.alignedPtr_ne_zero (hb : b ∈ bs)
    (hroom : requestSize size s.config.poolAlignment ≤ b.size) :
    alignSize (b.addr + headerSize) s.config.poolAlignment ≠ 0 := by
  have hreq := h.alignment_le
  obtain ⟨hspace, _⟩ := h.bounds hb
  have hpos : 0 < headerSize := by decide
  obtain ⟨hle, _⟩ := align_spec (x := b.addr + headerSize) h.alignment (by
    rcases h.alignment with ha | ha <;> omega)
  omega

theorem allocateMemory_pooled (fuel reply : ℕ) : allocateMemory fuel reply s size =
    (allocatePooled fuel s size >>= fun r =>
      if r.2 ≠ 0 then .ok ({ r.1 with stats := notePeak r.1.stats }, r.2) else .ok r) := by
  have hpos := Nat.pos_iff_ne_zero.mp h.pos
  unfold allocateMemory
  simp only [if_neg hpos, h.pooled, if_true]

/-- `allocate_memory` serves the request from the best fit. -/
theorem Asked.allocateMemory (reply : ℕ) :
    (bestFit (requestSize size s.config.poolAlignment) bs = none ∧
      Settles (fun fuel => PoolOperations.allocateMemory fuel reply s size) (.ok (s, 0))) ∨
    ∃ b s' p, bestFit (requestSize size s.config.poolAlignment) bs = some b ∧ p ≠ 0 ∧
      Settles (fun fuel => PoolOperations.allocateMemory fuel reply s size) (.ok (s', p)) ∧
      Serves s s' b (if requestSize size s.config.poolAlignment + 2 * headerSize < b.size then
        requestSize size s.config.poolAlignment else b.size) size
        (requestSize size s.config.poolAlignment) := by
  have hsmall : ∀ b ∈ bs, b.size < sizeMax := by
    intro b hb
    have hlt := (h.bounds hb).2
    unfold sizeMax sizeModulus
    omega
  have hfind : ∀ fuel, bs.length < fuel → findFreeBlock fuel s _ = _ := fun fuel hfuel =>
    findFreeBlock_spec h.tiled.listed hsmall (requestSize size s.config.poolAlignment) fuel hfuel
  cases hbest : bestFit (requestSize size s.config.poolAlignment) bs with
  | none =>
    refine Or.inl ⟨rfl, bs.length + 1, ?_⟩
    intro fuel hfuel
    show PoolOperations.allocateMemory fuel reply s size = _
    rw [allocateMemory_pooled h, allocatePooled_eq, hfind fuel hfuel, hbest, addrOf, ok_bind,
      if_pos rfl, ok_bind]
    exact if_neg (fun hne => hne rfl)
  | some b =>
    obtain ⟨hmem, _, hroom⟩ := bestFit_mem hbest
    obtain ⟨s', htake, hserves⟩ := h.serves_bestFit hmem hroom
    have hne := h.tiled.addr_ne_zero hmem
    have hptr := h.alignedPtr_ne_zero hmem hroom
    refine Or.inr ⟨b, { s' with stats := notePeak s'.stats }, _, rfl, hptr,
      ⟨bs.length + 1, ?_⟩, ⟨hserves.whole, hserves.block, hserves.used⟩⟩
    intro fuel hfuel
    show PoolOperations.allocateMemory fuel reply s size = _
    rw [allocateMemory_pooled h, allocatePooled_eq, hfind fuel hfuel, hbest, addrOf, ok_bind,
      if_neg hne, ok_bind, htake]
    exact if_pos hptr

theorem Asked.length_lt : bs.length + 1 < sizeModulus := by
  have hle := tiles_length_le h.tiled.tiles
  have hend := h.region.in_space
  have hstart := h.region.start_pos
  omega

/-- A request for which there is a block is not refused beforehand. -/
theorem Asked.admitted (hb : b ∈ bs) (hroom : grossSize size s.config.poolAlignment ≤ b.size) :
    ¬ Refused s size := by
  have hasked := h.size_lt
  have hpos := h.pos
  have hbounds := h.tiled.bounds hb
  have htotal : addSize headerSize size = headerSize + size := addSize_of_lt (by omega)
  have hle : headerSize + size ≤ grossSize size s.config.poolAlignment := by
    rw [grossSize, htotal]
    exact (align_spec h.alignment (by omega)).1
  rintro (hzero | hwraps | hwraps | hlarge)
  · omega
  · omega
  · omega
  · omega

/-- The first fit, cut or handed out whole. -/
theorem Asked.serves_firstFit (hb : b ∈ bs)
    (hroom : grossSize size s.config.poolAlignment ≤ b.size) :
    ∃ s', takeFirstFit s b.addr (grossSize size s.config.poolAlignment) size =
        (s', paddedPayload b s.config.poolAlignment) ∧
      Serves s s' b (capacity b (grossSize size s.config.poolAlignment)) b.originalSize
        (grossSize size s.config.poolAlignment) := by
  have hasked := h.size_lt
  have hgross := (grossSize_spec h.alignment (by omega) (h.admitted hb hroom)).2
  obtain ⟨_, hused⟩ := takeFirstFit_state s b.addr (grossSize size s.config.poolAlignment) size
  have hlength := h.length_lt
  obtain ⟨pre, post, rfl⟩ := List.append_of_mem hb
  obtain ⟨s', garbage, htake, _, htiled, hdiff⟩ :=
    takeFirstFit_spec h.tiled h.region (by omega) hroom hlength size
  obtain ⟨rest, hcarved⟩ := carved_cases b (grossSize size s.config.poolAlignment) garbage
  rw [htake] at hused
  have hmem : handedOut b (grossSize size s.config.poolAlignment) ∈
      pre ++ carved b (grossSize size s.config.poolAlignment) garbage ++ post := by
    rw [hcarved]
    simp
  have hread := htiled.listed.2 _ hmem
  rw [handedOut_addr, handedOut] at hread
  exact ⟨s', htake, hdiff, hread, hused⟩

/-- `allocate_from_pool` serves the request from the first fit. -/
theorem Asked.allocateFromPool :
    (firstFit (grossSize size s.config.poolAlignment) bs = none ∧
      Settles (fun fuel => PoolOperations.allocateFromPool fuel s size) (.ok (s, 0))) ∨
    ∃ b s' p, firstFit (grossSize size s.config.poolAlignment) bs = some b ∧ p ≠ 0 ∧
      Settles (fun fuel => PoolOperations.allocateFromPool fuel s size) (.ok (s', p)) ∧
      Serves s s' b (capacity b (grossSize size s.config.poolAlignment)) b.originalSize
        (grossSize size s.config.poolAlignment) := by
  cases hfirst : firstFit (grossSize size s.config.poolAlignment) bs with
  | none =>
    refine Or.inl ⟨rfl, bs.length + 1, ?_⟩
    intro fuel hfuel
    show PoolOperations.allocateFromPool fuel s size = _
    by_cases hrefused : Refused s size
    · exact allocateFromPool_of_refused hrefused fuel
    · rw [allocateFromPool_of_admitted hrefused, firstFitLoop_spec h.tiled.listed fuel hfuel,
        hfirst]
  | some b =>
    obtain ⟨hmem, _, hroom⟩ := firstFit_mem hfirst
    obtain ⟨s', htake, hserves⟩ := h.serves_firstFit hmem hroom
    have hptr : paddedPayload b s.config.poolAlignment ≠ 0 := by
      have hle := payload_le_padded b s.config.poolAlignment
      have hne := h.tiled.addr_ne_zero hmem
      unfold Block.payload at hle
      omega
    refine Or.inr ⟨b, s', _, rfl, hptr, ⟨bs.length + 1, ?_⟩, hserves⟩
    intro fuel hfuel
    show PoolOperations.allocateFromPool fuel s size = _
    rw [allocateFromPool_of_admitted (h.admitted hmem hroom),
      firstFitLoop_spec h.tiled.listed fuel hfuel, hfirst]
    exact congrArg Except.ok htake

end Asked

/-! ### The block handed out -/

section Serves
variable {capacity : ℕ}

/-- It is the only one that has become a used block. -/
theorem Serves.handsOut_iff (hs : Serves s s' b capacity original used) (ht : Tiled s bs)
    (hb : b ∈ bs) (hfree : b.isUsed = false) : HandsOut bs s' c ↔ c = b := by
  constructor
  · rintro ⟨hc, hcfree, hcused⟩
    by_contra hne
    have hsame : AgreeOn s.bytes s'.bytes c.addr (c.addr + headerSize) := by
      obtain ⟨pre, post, rfl⟩ := List.append_of_mem hb
      obtain ⟨hpre, hpost⟩ := ht.tiles.apart
      apply hs.whole.agreeOn
      rcases List.mem_append.mp hc with hc | hc
      · left
        have hstop := hpre c hc
        unfold Block.stop at hstop
        omega
      · rcases List.mem_cons.mp hc with rfl | hc
        · exact absurd rfl hne
        · exact Or.inr (hpost c hc)
    have hkept := getIsUsed_congr hsame
    rw [hcused, ht.listed.getIsUsed_eq hc, hcfree] at hkept
    cases hkept
  · rintro rfl
    exact ⟨hb, hfree, getIsUsed_of_blockAt hs.block⟩

theorem Serves.books_iff (hs : Serves s s' b capacity original used)
    (hcapacity : capacity < sizeModulus) (hused : used < sizeModulus) :
    Books s s' b ↔ used = capacity := by
  have hsize : getSize s'.bytes b.addr = capacity := getSize_of_blockAt hs.block
  rw [Books, hs.used, hsize, addSize_left_cancel_iff _ hused hcapacity]

end Serves

section Asked
variable (h : Asked s bs size)
include h

/-- The block of `allocate_memory` is booked with the payload that it has. -/
theorem Asked.books_bestFit (hb : b ∈ bs) (hroom : requestSize size s.config.poolAlignment ≤ b.size)
    (hs : Serves s s' b (if requestSize size s.config.poolAlignment + 2 * headerSize < b.size then
      requestSize size s.config.poolAlignment else b.size) size
      (requestSize size s.config.poolAlignment)) :
    Books s s' b ↔ b.size = requestSize size s.config.poolAlignment ∨
      requestSize size s.config.poolAlignment + 2 * headerSize < b.size := by
  have hlt := (h.bounds hb).1
  generalize requestSize size s.config.poolAlignment = req at hroom hs ⊢
  by_cases hsplit : req + 2 * headerSize < b.size
  · rw [if_pos hsplit] at hs
    rw [hs.books_iff (by omega) (by omega)]
    exact ⟨fun _ => Or.inr hsplit, fun _ => rfl⟩
  · rw [if_neg hsplit] at hs
    rw [hs.books_iff (by omega) (by omega)]
    omega

/-- The block of `allocate_from_pool` is booked with its header, unless it was
met exactly. -/
theorem Asked.books_firstFit (hb : b ∈ bs) (hroom : grossSize size s.config.poolAlignment ≤ b.size)
    (hs : Serves s s' b (capacity b (grossSize size s.config.poolAlignment)) b.originalSize
      (grossSize size s.config.poolAlignment)) :
    Books s s' b ↔ b.size = grossSize size s.config.poolAlignment := by
  have hlt := (h.bounds hb).1
  have hasked := h.size_lt
  have hgross := (grossSize_spec h.alignment (by omega) (h.admitted hb hroom)).2
  generalize grossSize size s.config.poolAlignment = gross at hroom hs hgross ⊢
  have hcap := capacity_le b gross
  rw [hs.books_iff (by omega) (by omega), capacity]
  have hpos : 0 < headerSize := by decide
  split
  · omega
  · omega

theorem Asked.alike (hagree : PathsAgree s bs size) : Alike s bs size := by
  obtain ⟨s₁, p₁, s₂, p₂, hmemory, hpool, hnull, hboth⟩ := hagree 0
  unfold Alike
  rcases h.allocateMemory 0 with ⟨hbest, hran₁⟩ | ⟨b, t₁, q₁, hbest, hq₁, hran₁, hs₁⟩
  · cases hmemory.unique hran₁
    rcases h.allocateFromPool with ⟨hfirst, hran₂⟩ | ⟨c, t₂, q₂, hfirst, hq₂, hran₂, hs₂⟩
    · rw [hbest, hfirst]
      trivial
    · cases hpool.unique hran₂
      exact absurd (hnull.mp rfl) hq₂
  · cases hmemory.unique hran₁
    rcases h.allocateFromPool with ⟨hfirst, hran₂⟩ | ⟨c, t₂, q₂, hfirst, hq₂, hran₂, hs₂⟩
    · cases hpool.unique hran₂
      exact absurd (hnull.mpr rfl) hq₁
    · cases hpool.unique hran₂
      rw [hbest, hfirst]
      obtain ⟨hb, hbfree, hbroom⟩ := bestFit_mem hbest
      obtain ⟨hc, hcfree, hcroom⟩ := firstFit_mem hfirst
      obtain ⟨b', c', hout₁, hout₂, hbooks₁, hbooks₂, horig⟩ := hboth hq₁ hq₂
      obtain rfl := (hs₁.handsOut_iff h.tiled hb hbfree).mp hout₁
      obtain rfl := (hs₂.handsOut_iff h.tiled hc hcfree).mp hout₂
      rw [getOriginalSize_of_blockAt hs₁.block, getOriginalSize_of_blockAt hs₂.block] at horig
      exact ⟨(h.books_bestFit hb hbroom hs₁).mp hbooks₁,
        (h.books_firstFit hc hcroom hs₂).mp hbooks₂, horig.symm⟩

theorem Asked.agree (halike : Alike s bs size) : PathsAgree s bs size := by
  intro reply
  unfold Alike at halike
  rcases h.allocateMemory reply with ⟨hbest, hran₁⟩ | ⟨b, t₁, q₁, hbest, hq₁, hran₁, hs₁⟩
  · rcases h.allocateFromPool with ⟨hfirst, hran₂⟩ | ⟨c, t₂, q₂, hfirst, hq₂, hran₂, hs₂⟩
    · exact ⟨s, 0, s, 0, hran₁, hran₂, Iff.rfl, fun hne => absurd rfl hne⟩
    · rw [hbest, hfirst] at halike
      exact halike.elim
  · rcases h.allocateFromPool with ⟨hfirst, hran₂⟩ | ⟨c, t₂, q₂, hfirst, hq₂, hran₂, hs₂⟩
    · rw [hbest, hfirst] at halike
      exact halike.elim
    · rw [hbest, hfirst] at halike
      obtain ⟨hexact, hgross, horig⟩ := halike
      obtain ⟨hb, hbfree, hbroom⟩ := bestFit_mem hbest
      obtain ⟨hc, hcfree, hcroom⟩ := firstFit_mem hfirst
      refine ⟨t₁, q₁, t₂, q₂, hran₁, hran₂, iff_of_false hq₁ hq₂, fun _ _ => ⟨b, c,
        (hs₁.handsOut_iff h.tiled hb hbfree).mpr rfl,
        (hs₂.handsOut_iff h.tiled hc hcfree).mpr rfl,
        (h.books_bestFit hb hbroom hs₁).mpr hexact,
        (h.books_firstFit hc hcroom hs₂).mpr hgross, ?_⟩⟩
      rw [getOriginalSize_of_blockAt hs₁.block, getOriginalSize_of_blockAt hs₂.block, horig]

/-- The two paths agree on a request exactly when they find the pool alike. -/
theorem pathsAgree_iff : PathsAgree s bs size ↔ Alike s bs size :=
  ⟨h.alike, h.agree⟩

end Asked

/-- The small pool is one free block of 992 bytes. -/
theorem smallPool_asked : ∃ original, ∀ size, 1 ≤ size → size ≤ 1024 →
    Asked smallPool [⟨4096, 992, original, false⟩] size := by
  obtain ⟨original, hserv⟩ := started_inService smallPool_started
  exact ⟨original, fun _ hpos hfits =>
    ⟨hserv.pooled, hserv.alignment, hserv.region, hserv.tiled, hpos, hfits⟩⟩

def threeBlocks : List Block :=
  [⟨4096, 112, 0, false⟩, ⟨4240, 136, 100, false⟩, ⟨4408, 680, 0, false⟩]

def threeFree : State :=
  { smallPool with
    pool := ⟨4096, 1024, 4096, 0, 3⟩
    bytes :=
      let m := setNext (setSize (fun _ => 0) 4096 112) 4096 4240
      let m := setNext (setOriginalSize (setSize m 4240 136) 4240 100) 4240 4408
      setSize m 4408 680 }

theorem threeFree_asked {size : ℕ} (hpos : 1 ≤ size) (hle : size ≤ 1024) :
    Asked threeFree threeBlocks size := by
  have hlisted : Listed threeFree.bytes 4096 threeBlocks := by
    unfold threeBlocks
    simp only [listed_cons, listed_nil]
    decide
  exact ⟨rfl, Or.inl rfl, ⟨by decide, by decide, by decide⟩, ⟨hlisted, ⟨rfl, rfl, rfl, rfl⟩, rfl⟩,
    hpos, hle⟩

/-- Both serve 100 bytes, one from the first block and one from the second;
both refuse 1000. -/
theorem pathsAgree_iff_three :
    (PathsAgree threeFree threeBlocks 100 ∧ ∃ s p,
      Settles (fun fuel => allocateFromPool fuel threeFree 100) (.ok (s, p)) ∧ p ≠ 0) ∧
    PathsAgree threeFree threeBlocks 1000 := by
  have hserved := threeFree_asked (by decide : 1 ≤ 100) (by decide)
  have hbest : bestFit (requestSize 100 threeFree.config.poolAlignment) threeBlocks =
      some ⟨4096, 112, 0, false⟩ := by decide
  have hfirst : firstFit (grossSize 100 threeFree.config.poolAlignment) threeBlocks =
      some ⟨4240, 136, 100, false⟩ := by decide
  refine ⟨⟨(pathsAgree_iff hserved).mpr ?_, ?_⟩, (pathsAgree_iff (threeFree_asked (by decide)
    (by decide))).mpr ?_⟩
  · unfold Alike
    rw [hbest, hfirst]
    decide
  · rcases hserved.allocateFromPool with ⟨hnone, _⟩ | ⟨_, s, p, _, hp, hret, _⟩
    · rw [hfirst] at hnone
      cases hnone
    · exact ⟨s, p, hret, hp⟩
  · have hnone : bestFit (requestSize 1000 threeFree.config.poolAlignment) threeBlocks = none := by decide
    have hnone' : firstFit (grossSize 1000 threeFree.config.poolAlignment) threeBlocks = none := by decide
    unfold Alike
    rw [hnone, hnone']
    trivial

/-- For 100 bytes `allocate_from_pool` books 136 and hands out 104; for 968 it
finds no block where `allocate_memory` does. -/
theorem paths_disagree : ∃ bs,
    Asked smallPool bs 100 ∧ ¬ PathsAgree smallPool bs 100 ∧
    Asked smallPool bs 968 ∧ ¬ PathsAgree smallPool bs 968 := by
  obtain ⟨original, hasked⟩ := smallPool_asked
  have h₁ := hasked 100 (by decide) (by decide)
  have h₂ := hasked 968 (by decide) (by decide)
  have hreq : requestSize 968 smallPool.config.poolAlignment = 976 := by decide
  have hgross₁ : grossSize 100 smallPool.config.poolAlignment = 136 := by decide
  have hgross₂ : grossSize 968 smallPool.config.poolAlignment = 1000 := by decide
  have hreq₁ : requestSize 100 smallPool.config.poolAlignment = 112 := by decide
  refine ⟨_, h₁, fun hagree => ?_, h₂, fun hagree => ?_⟩
  · have halike := h₁.alike hagree
    unfold Alike at halike
    rw [hreq₁, hgross₁] at halike
    exact absurd halike.2.1 (by decide : ¬ (992 : ℕ) = 136)
  · have halike := h₂.alike hagree
    unfold Alike at halike
    rw [hreq, hgross₂] at halike
    exact halike

end Ppdb.AllocationPaths
