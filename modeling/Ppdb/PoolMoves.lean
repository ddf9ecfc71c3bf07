import Ppdb.ReallocFrames

/-!
A pool in which a block has moved. Growing a block hands out another one, fills
it and releases the old one, and each of the three steps keeps the blocks, the
live pointers and the alignment of the headers.
-/

namespace Ppdb.PoolMoves

open ByteMemory SizeArithmetic BlockHeaders PoolOperations TiledIntervals EventualResults
open PoolLayout BlockMerging BlockChoice PoolAllocation PoolRuns PoolGrowth PoolReallocation

variable {s s' : State} {bs pre post rest : List Block} {b c u : Block} {live : Live}
  {lo hi align size gross garbage : ℕ}

/-- The owners after a free block has been turned into a used one, and free ones. -/
theorem owners_handed (hfree : b.isUsed = false) (haddr : u.addr = b.addr)
    (hused : u.isUsed = true) (hrest : ∀ d ∈ rest, d.isUsed = false) :
    (((pre ++ u :: rest ++ post).filter Block.isUsed).map Block.payload).Perm
      (b.payload :: ((pre ++ b :: post).filter Block.isUsed).map Block.payload) := by
  have hnone : rest.filter Block.isUsed = [] :=
    List.filter_eq_nil_iff.mpr fun d hd => by simp [hrest d hd]
  have hpay : u.payload = b.payload := by
    unfold Block.payload
    rw [haddr]
  simp only [List.filter_append, List.filter_cons, hused, if_true, hnone, hfree, List.map_append,
    List.map_cons, hpay, List.append_assoc, List.cons_append, List.nil_append, if_false,
    Bool.false_eq_true]
  exact List.perm_middle

theorem owned_handed (hlive : Owned align (pre ++ b :: post) live) (hfree : b.isUsed = false)
    (haddr : u.addr = b.addr) (hused : u.isUsed = true) (hrest : ∀ d ∈ rest, d.isUsed = false)
    (hsize : size ≤ u.size) (htiles : BlockTiles lo hi (pre ++ u :: rest ++ post)) :
    Owned align (pre ++ u :: rest ++ post) ((b.payload, size) :: live) := by
  have hpay : u.payload = b.payload := by
    unfold Block.payload
    rw [haddr]
  refine ⟨(hlive.owners.cons b.payload).trans (owners_handed hfree haddr hused hrest).symm, ?_⟩
  intro x hx hfit d hd hdused hdpay
  rcases List.mem_cons.mp hx with rfl | hx
  · rw [payload_inj htiles hd (by simp) (hdpay.trans hpay.symm)]
    exact hsize
  · -- the owner of an earlier pointer is not the block just handed out
    obtain ⟨e, he, heused, hepay⟩ := hlive.owner (List.mem_map_of_mem (f := Prod.fst) hx)
    have heb : e ≠ b := fun heq => by simp [heq, hfree] at heused
    have hemem : e ∈ pre ++ u :: rest ++ post := by
      have he' : e ∈ pre ∨ e ∈ post := by simpa [heb] using he
      rcases he' with he' | he' <;> simp [he']
    rw [payload_inj htiles hd hemem (hdpay.trans hepay.symm)]
    exact hlive.room x hx hfit e he heused hepay

theorem carved_rest (c : Block) (gross garbage : ℕ) : ∃ rest,
    carved c gross garbage = handedOut c gross :: rest ∧
      ∀ d ∈ rest, d.isUsed = false ∧ d.addr = c.addr + gross := by
  unfold carved handedOut capacity
  split
  · exact ⟨_, rfl, by simp⟩
  · exact ⟨[], rfl, by simp⟩

theorem dvd_grossSize (ha : align = 8 ∨ align = 16) (size : ℕ) : align ∣ grossSize size align :=
  dvd_align ha

/-- The parts of an aligned block are aligned. -/
theorem aligned_carved (h : Aligned s (pre ++ c :: post)) (hdvd : s.config.poolAlignment ∣ gross) :
    Aligned s (pre ++ carved c gross garbage ++ post) := by
  obtain ⟨rest, hcarved, hrest⟩ := carved_rest c gross garbage
  have hc := h c (by simp)
  intro d hd
  rw [hcarved] at hd
  simp only [List.mem_append, List.mem_cons] at hd
  rcases hd with (hd | rfl | hd) | hd
  · exact h d (by simp [hd])
  · exact hc
  · rw [(hrest d hd).2]
    exact Nat.dvd_add hc hdvd
  · exact h d (by simp [hd])

/-- A pool in service, whose used blocks belong to the live pointers. -/
structure Owning (s : State) (bs : List Block) (live : Live) : Prop where
  serving : InService s bs
  nonempty : bs ≠ []
  owned : Owned s.config.poolAlignment bs live

theorem Owning.inv (h : Owning s bs live) : PoolInv s live :=
  ⟨bs, h.serving, h.nonempty, h.owned⟩

/-- The block handed out, filled within its payload. -/
theorem Owning.filled {m : Mem} (h : Owning s bs live) (hb : b ∈ bs)
    (hdiff : DiffersWithin s.bytes m b.payload b.stop) : Owning { s with bytes := m } bs live :=
  ⟨h.serving.writePayload hb hdiff, h.nonempty, h.owned⟩

/-- `allocate_from_pool` hands out the first block that fits. -/
theorem allocateFromPool_owning (h : Owning s bs live) (hlt : size < sizeModulus) :
    ∃ s' ptr, (∀ fuel, bs.length < fuel → allocateFromPool fuel s size = .ok (s', ptr)) ∧
      ((ptr = 0 ∧ s' = s) ∨ ∃ pre c post garbage, bs = pre ++ c :: post ∧ c.isUsed = false ∧
        ptr = c.payload ∧ SameRegion s s' ∧
        headerSize + alignSize size s.config.poolAlignment ≤
          grossSize size s.config.poolAlignment ∧
        grossSize size s.config.poolAlignment ≤ c.size ∧
        (size ≤ alignSize size s.config.poolAlignment → Owning s'
          (pre ++ carved c (grossSize size s.config.poolAlignment) garbage ++ post)
          ((c.payload, size) :: live))) := by
  have hserving := h.serving
  obtain ⟨s', ptr, hrun, hcases⟩ := allocateFromPool_spec hserving.tiled hserving.region
    hserving.alignment hserving.working.length_lt hlt
  refine ⟨s', ptr, hrun, hcases.imp_right ?_⟩
  intro ⟨pre, c, post, garbage, hbs, hadm, hfirst, hptr, hsame, htiled, _⟩
  subst hbs
  obtain ⟨hmem, hfree, hroom⟩ := firstFit_mem hfirst
  have hgross := (grossSize_spec hserving.alignment hlt hadm).2
  rw [paddedPayload_of_dvd hserving.alignment (hserving.aligned c hmem)] at hptr
  refine ⟨pre, c, post, garbage, rfl, hfree, hptr, hsame, hgross, hroom, fun hround => ?_⟩
  have hdvd := dvd_grossSize hserving.alignment size
  have haligned : Aligned s' (pre ++ carved c (grossSize size s.config.poolAlignment) garbage ++
      post) := by
    unfold Aligned
    rw [hsame.config]
    exact aligned_carved hserving.aligned hdvd
  have hservice := hserving.ofSame hsame htiled haligned
  obtain ⟨rest, hcarved, hrest⟩ := carved_rest c (grossSize size s.config.poolAlignment) garbage
  have htiles := htiled.tiles
  rw [hcarved] at htiles hservice ⊢
  refine ⟨hservice, by simp, ?_⟩
  rw [hsame.config]
  have hroom' : size ≤ (handedOut c (grossSize size s.config.poolAlignment)).size := by
    rw [handedOut_size]
    generalize grossSize size s.config.poolAlignment = gross at hgross hroom
    unfold capacity
    split <;> omega
  exact owned_handed h.owned hfree (handedOut_addr c _) rfl (fun d hd => (hrest d hd).1) hroom' htiles

/-- The old block is released when the payload has been copied. -/
theorem release_owning {m : Mem} (h : Owning s (pre ++ b :: post) live) (hused : b.isUsed = true)
    (hm : m = s.bytes) (used current : ℕ) :
    ∃ s', (∀ fuel, (pre ++ b :: post).length + 2 ≤ fuel → tryMergeBlocks fuel
        (withUsage s (setIsUsed m b.addr false) used current) = .ok s') ∧
      SameRegion s s' ∧ Owning s' (freed pre b post) (forget live b.payload) := by
  subst hm
  have hserving := h.serving
  have htiled := hserving.tiled
  obtain ⟨s', hrun, hsame, htiled', _⟩ :=
    release_spec htiled.listed htiled.tiles htiled.count hserving.region used current
  have haligned : Aligned s' (freed pre b post) := by
    unfold Aligned
    rw [hsame.config]
    exact aligned_freed hserving.aligned
  refine ⟨s', hrun, hsame, hserving.ofSame hsame htiled' haligned, coalesce_ne_nil (by simp), ?_⟩
  rw [hsame.config]
  exact h.owned.freed htiled.tiles hused

theorem forget_cons_of_ne {ptr p : ℕ} (h : ptr ≠ p) :
    forget ((ptr, size) :: live) p = (ptr, size) :: forget live p := by
  simp [forget, h]

theorem withUsage_filled (s : State) (m m' : Mem) (used current : ℕ) :
    withUsage { s with bytes := m' } m used current = withUsage s m used current := rfl

/-- The copy of the old payload stays in the block handed out. -/
theorem infraMemcpy_differs (m : Mem) (src n : ℕ) {dest stop : ℕ} (hfit : dest + n ≤ stop) :
    DiffersWithin m (infraMemcpy m dest src n) dest stop := by
  unfold infraMemcpy
  split
  · exact DiffersWithin.refl _ _ _
  · exact (copy_differs m dest src n).mono (Nat.le_refl _) hfit

/-- A block that is moved leaves its pointer to the block that takes its place. -/
theorem reallocMove_owning (h : Owning s bs live) (hb : b ∈ bs) (hused : b.isUsed = true)
    (hlt : size < sizeModulus) (hround : size ≤ alignSize size s.config.poolAlignment)
    (hgrow : b.size < alignSize size s.config.poolAlignment) :
    ∃ s' ptr, (∀ fuel, bs.length + 3 ≤ fuel →
        reallocMove fuel s b.payload b.addr size = .ok (s', ptr)) ∧
      ((ptr = 0 ∧ s' = s) ∨ ptr ≠ 0 ∧ SameRegion s s' ∧
        ∃ bs', Owning s' bs' ((ptr, size) :: forget live b.payload)) := by
  have hserving := h.serving
  have holdSize := hserving.tiled.listed.getSize_eq hb
  obtain ⟨s₁, ptr, halloc, hcases⟩ := allocateFromPool_owning h hlt
  rcases hcases with ⟨rfl, rfl⟩ | ⟨pre, c, post, garbage, rfl, hfree, rfl, hsame, hgross, hroom, hown⟩
  · refine ⟨s₁, 0, fun fuel hfuel => ?_, Or.inl ⟨rfl, rfl⟩⟩
    simp [reallocMove, halloc fuel (by omega)]
  have hptr : c.payload ≠ 0 := by
    unfold Block.payload headerSize
    omega
  have hcopy : DiffersWithin s₁.bytes (infraMemcpy s₁.bytes c.payload b.payload b.size)
      (handedOut c (grossSize size s.config.poolAlignment)).payload
      (handedOut c (grossSize size s.config.poolAlignment)).stop := by
    rw [handedOut_payload, handedOut_stop]
    apply infraMemcpy_differs
    generalize grossSize size s.config.poolAlignment = gross at hgross hroom
    unfold capacity
    split <;> omega
  obtain ⟨rest, hcarved, _⟩ := carved_rest c (grossSize size s.config.poolAlignment) garbage
  have hfilled := (hown hround).filled (by simp [hcarved]) hcopy
  have hbc : b ≠ c := fun heq => by simp [heq, hfree] at hused
  have hbmem : b ∈ pre ++ carved c (grossSize size s.config.poolAlignment) garbage ++ post := by
    have hor : b ∈ pre ∨ b ∈ post := by simpa [hbc] using hb
    rcases hor with hb | hb <;> simp [hb]
  have hlength : (pre ++ carved c (grossSize size s.config.poolAlignment) garbage ++ post).length ≤
      (pre ++ c :: post).length + 1 := by
    have htwo := carved_length c (grossSize size s.config.poolAlignment) garbage
    simp only [List.length_append, List.length_cons]
    omega
  obtain ⟨pre', post', heq⟩ := List.append_of_mem hbmem
  rw [heq] at hfilled hlength
  obtain ⟨s', hrun, hsame', hdone⟩ := release_owning hfilled hused rfl
    (subSize s₁.pool.usedSize (alignSize b.size s.config.poolAlignment))
    (subSize s₁.stats.currentUsage (alignSize b.size s.config.poolAlignment))
  have hne : c.payload ≠ b.payload := by
    intro hpay
    exact hbc (payload_inj hserving.tiled.tiles hb (by simp) hpay.symm)
  rw [forget_cons_of_ne hne] at hdone
  refine ⟨s', c.payload, fun fuel hfuel => ?_, Or.inr ⟨hptr, hsame.trans ?_, _, hdone⟩⟩
  · rw [reallocMove_eq (halloc fuel (by omega)) hptr, holdSize, ← withUsage_filled,
      hrun fuel (by omega)]
    rfl
  · exact ⟨hsame'.initialized, hsame'.config, hsame'.poolStart, hsame'.poolSize, hsame'.freeList,
      hsame'.libc⟩

end Ppdb.PoolMoves
