import Ppdb.LinkedSegments
import Ppdb.TiledIntervals
import Ppdb.PoolOperations

/-!
The block list as a value. `Listed` ties a list of blocks to the headers found
by following `next`; `Tiled` adds that the blocks tile the pool. A change of
memory confined to one block leaves the list before it and behind it in place,
which reduces every operation of the allocator to an edit of the list.
-/

namespace Ppdb.PoolLayout

open ByteMemory SizeArithmetic BlockHeaders PoolOperations LinkedSegments TiledIntervals

/-- Following `next` from `p` meets exactly the blocks listed. -/
def Listed (m : Mem) (p : ℕ) (bs : List Block) : Prop :=
  Segment (getNext m) 0 p (bs.map Block.addr) ∧ ∀ b ∈ bs, blockAt m b.addr = b

theorem listed_nil {m : Mem} {p : ℕ} : Listed m p [] ↔ p = 0 := by
  simp [Listed]

theorem listed_cons {m : Mem} {p : ℕ} {b : Block} {bs : List Block} :
    Listed m p (b :: bs) ↔
      p = b.addr ∧ b.addr ≠ 0 ∧ blockAt m b.addr = b ∧ Listed m (getNext m b.addr) bs := by
  simp only [Listed, List.map_cons, segment_cons, List.forall_mem_cons]
  tauto

/-- Headers that are all unchanged list the same blocks. -/
theorem Listed.frame {m m' : Mem} {p : ℕ} {bs : List Block} (h : Listed m p bs)
    (hsame : ∀ b ∈ bs, AgreeOn m m' b.addr (b.addr + headerSize)) : Listed m' p bs := by
  refine ⟨h.1.congr fun a ha => ?_, fun b hb => ?_⟩
  · obtain ⟨b, hb, rfl⟩ := List.mem_map.mp ha
    exact getNext_congr (hsame b hb)
  · rw [blockAt_congr (hsame b hb)]
    exact h.2 b hb

theorem Listed.suffix {m : Mem} {p : ℕ} {pre post : List Block} {b : Block}
    (h : Listed m p (pre ++ b :: post)) : Listed m b.addr (b :: post) := by
  refine ⟨?_, fun c hc => h.2 c (List.mem_append_right pre hc)⟩
  have hseg := h.1
  simp only [List.map_append, List.map_cons] at hseg
  exact hseg.drop

/-- A suffix that starts at the same block may be replaced, as long as the
headers before it are untouched. -/
theorem Listed.rejoin {m m' : Mem} {p : ℕ} {pre old new : List Block} {b : Block}
    (h : Listed m p (pre ++ b :: old))
    (hsame : ∀ c ∈ pre, AgreeOn m m' c.addr (c.addr + headerSize))
    (hnew : Listed m' b.addr new) : Listed m' p (pre ++ new) := by
  have hseg := h.1
  simp only [List.map_append, List.map_cons] at hseg
  obtain ⟨mid, hmid, hjoin⟩ := hseg.split
  have hstart : mid = b.addr := hmid.1
  subst hstart
  refine ⟨?_, fun c hc => ?_⟩
  · rw [List.map_append]
    refine hjoin (getNext m') _ ?_ hnew.1
    intro a ha
    obtain ⟨c, hc, rfl⟩ := List.mem_map.mp ha
    exact getNext_congr (hsame c hc)
  · rcases List.mem_append.mp hc with hpre | hc
    · rw [blockAt_congr (hsame c hpre)]
      exact h.2 c (List.mem_append_left _ hpre)
    · exact hnew.2 c hc

theorem Listed.unique {m : Mem} {p : ℕ} {as bs : List Block} (h : Listed m p as)
    (h' : Listed m p bs) : as = bs := by
  have hmap := h.1.unique h'.1
  have hread : ∀ {cs : List Block}, Listed m p cs → cs = (cs.map Block.addr).map (blockAt m) := by
    intro cs hcs
    rw [List.map_map]
    exact (List.map_id'' (fun c => rfl) cs).symm.trans
      (List.map_congr_left fun c hc => (hcs.2 c hc).symm)
  rw [hread h, hread h', hmap]

/-- A list read after a change goes through the headers left untouched. -/
theorem Listed.follow {m m' : Mem} {p : ℕ} {pre post bs : List Block} {b : Block}
    (h : Listed m p (pre ++ b :: post))
    (hsame : ∀ c ∈ pre, AgreeOn m m' c.addr (c.addr + headerSize)) (h' : Listed m' p bs) :
    ∃ tail, bs = pre ++ tail ∧ Listed m' b.addr tail := by
  induction pre generalizing p bs with
  | nil =>
    have hp : p = b.addr := (listed_cons.mp h).1
    exact ⟨bs, rfl, hp ▸ h'⟩
  | cons c pre ih =>
    obtain ⟨hp, hne, hread, hrest⟩ := listed_cons.mp h
    have hc := hsame c List.mem_cons_self
    rcases bs with _ | ⟨d, bs⟩
    · exact absurd (hp.symm.trans (listed_nil.mp h')) hne
    · obtain ⟨hd, _, hread', hrest'⟩ := listed_cons.mp h'
      have hdc : d.addr = c.addr := hd.symm.trans hp
      rw [hdc, getNext_congr hc] at hrest'
      rw [hdc, blockAt_congr hc, hread] at hread'
      obtain ⟨tail, rfl, htail⟩ := ih hrest (fun e he => hsame e (List.mem_cons_of_mem c he)) hrest'
      exact ⟨tail, by rw [hread', List.cons_append], htail⟩

/-- The blocks listed tile the interval from `lo` to `hi`. -/
abbrev BlockTiles (lo hi : ℕ) (bs : List Block) : Prop := Tiles Block.addr Block.stop hi lo bs

theorem BlockTiles.bounds {lo hi : ℕ} {bs : List Block} (h : BlockTiles lo hi bs) {b : Block}
    (hb : b ∈ bs) : lo ≤ b.addr ∧ b.stop ≤ hi :=
  h.mem_bounds (fun c _ => c.addr_le_stop) hb

/-- The blocks before and behind a given one lie below and above it. -/
theorem BlockTiles.apart {lo hi : ℕ} {pre post : List Block} {b : Block}
    (h : BlockTiles lo hi (pre ++ b :: post)) :
    (∀ c ∈ pre, c.stop ≤ b.addr) ∧ ∀ c ∈ post, b.stop ≤ c.addr := by
  have hpair := h.pairwise (fun c _ => c.addr_le_stop)
  obtain ⟨_, hcons, hcross⟩ := List.pairwise_append.mp hpair
  exact ⟨fun c hc => hcross c hc b List.mem_cons_self, (List.pairwise_cons.mp hcons).1⟩

/-- Addresses of distinct blocks are at least a header apart. -/
theorem BlockTiles.headers_apart {lo hi : ℕ} {pre post : List Block} {b : Block}
    (h : BlockTiles lo hi (pre ++ b :: post)) :
    (∀ c ∈ pre, c.addr + headerSize ≤ b.addr) ∧ ∀ c ∈ post, b.addr + headerSize ≤ c.addr := by
  obtain ⟨hpre, hpost⟩ := h.apart
  refine ⟨fun c hc => ?_, fun c hc => ?_⟩
  · have := hpre c hc
    unfold Block.stop at this
    omega
  · have := hpost c hc
    unfold Block.stop at this
    omega

/-- A tiled list is determined at an address by the block there. -/
theorem BlockTiles.eq_of_addr {lo hi : ℕ} {bs : List Block} (h : BlockTiles lo hi bs)
    {b c : Block} (hb : b ∈ bs) (hc : c ∈ bs) (haddr : b.addr = c.addr) : b = c := by
  obtain ⟨pre, post, rfl⟩ := List.append_of_mem hb
  have hsep := h.headers_apart
  unfold headerSize at hsep
  rcases List.mem_append.mp hc with hc | hc
  · have := hsep.1 c hc
    omega
  · rcases List.mem_cons.mp hc with hc | hc
    · exact hc.symm
    · have := hsep.2 c hc
      omega

theorem BlockTiles.nodup_addr {lo hi : ℕ} {bs : List Block} (h : BlockTiles lo hi bs) :
    (bs.map Block.addr).Nodup := by
  have hpair := h.pairwise (fun c _ => c.addr_le_stop)
  refine List.pairwise_map.mpr (hpair.imp ?_)
  intro b c hbc
  unfold Block.stop headerSize at hbc
  omega

/-- What the C library promises of the pool's memory: a non-null block whose
end is still an address, smaller than 2^63 bytes. -/
structure Region (s : State) : Prop where
  start_pos : 0 < s.pool.poolStart
  in_space : s.pool.poolStart + s.pool.poolSize < sizeModulus
  small : s.pool.poolSize < 2 ^ 63

/-- The block list headed by `free_list` tiles the pool exactly. -/
structure Tiled (s : State) (bs : List Block) : Prop where
  listed : Listed s.bytes s.pool.freeList bs
  tiles : BlockTiles s.pool.poolStart (s.pool.poolStart + s.pool.poolSize) bs
  count : s.pool.blockCount = bs.length

def Aligned (s : State) (bs : List Block) : Prop := ∀ b ∈ bs, s.config.poolAlignment ∣ b.addr

theorem Tiled.unique {s : State} {as bs : List Block} (h : Tiled s as) (h' : Tiled s bs) :
    as = bs := h.listed.unique h'.listed

theorem Tiled.addr_ne_zero {s : State} {bs : List Block} (h : Tiled s bs) {b : Block}
    (hb : b ∈ bs) : b.addr ≠ 0 :=
  h.listed.1.ne_end b.addr (List.mem_map_of_mem hb)

theorem Tiled.bounds {s : State} {bs : List Block} (h : Tiled s bs) {b : Block} (hb : b ∈ bs) :
    s.pool.poolStart ≤ b.addr ∧
      b.addr + headerSize + b.size ≤ s.pool.poolStart + s.pool.poolSize :=
  h.tiles.bounds hb

theorem Tiled.size_lt {s : State} {bs : List Block} (h : Tiled s bs) (hr : Region s) {b : Block}
    (hb : b ∈ bs) : b.size < 2 ^ 63 := by
  have hbounds := h.bounds hb
  have hsmall := hr.small
  omega

/-- A block's link leads to where the block stops, and the last one stops at
the end of the pool. -/
theorem Tiled.next_cases {s : State} {bs : List Block} (h : Tiled s bs) {b : Block}
    (hb : b ∈ bs) :
    (getNext s.bytes b.addr = 0 ∧ b.stop = s.pool.poolStart + s.pool.poolSize) ∨
      (getNext s.bytes b.addr = b.stop ∧ getNext s.bytes b.addr ≠ 0) := by
  obtain ⟨pre, post, rfl⟩ := List.append_of_mem hb
  obtain ⟨_, _, _, hrest⟩ := listed_cons.mp h.listed.suffix
  obtain ⟨_, _, htiles⟩ := tiles_append.mp h.tiles
  rcases post with _ | ⟨c, post⟩
  · exact Or.inl ⟨listed_nil.mp hrest, htiles.2⟩
  · obtain ⟨hnext, hne, _⟩ := listed_cons.mp hrest
    have hc : c.addr = b.stop := htiles.2.1
    exact Or.inr ⟨hnext.trans hc, hnext ▸ hne⟩

/-- A write into a block's payload leaves every header alone. -/
theorem Tiled.writePayload {s : State} {bs : List Block} (h : Tiled s bs) {b : Block}
    (hb : b ∈ bs) {m : Mem} (hdiff : DiffersWithin s.bytes m b.payload b.stop) :
    Tiled { s with bytes := m } bs := by
  obtain ⟨pre, post, rfl⟩ := List.append_of_mem hb
  obtain ⟨hpre, hpost⟩ := h.tiles.apart
  refine ⟨h.listed.frame fun c hc => hdiff.agreeOn ?_, h.tiles, h.count⟩
  rcases List.mem_append.mp hc with hc | hc
  · have := hpre c hc
    unfold Block.stop Block.payload at *
    omega
  · rcases List.mem_cons.mp hc with rfl | hc
    · exact Or.inl (Nat.le_refl _)
    · exact Or.inr (hpost c hc)

section Reads
variable {m : Mem} {p : ℕ} {bs : List Block} {b : Block}

theorem Listed.getSize_eq (h : Listed m p bs) (hb : b ∈ bs) : getSize m b.addr = b.size :=
  getSize_of_blockAt (h.2 b hb)

theorem Listed.getOriginalSize_eq (h : Listed m p bs) (hb : b ∈ bs) :
    getOriginalSize m b.addr = b.originalSize :=
  getOriginalSize_of_blockAt (h.2 b hb)

theorem Listed.getIsUsed_eq (h : Listed m p bs) (hb : b ∈ bs) : getIsUsed m b.addr = b.isUsed :=
  getIsUsed_of_blockAt (h.2 b hb)

end Reads

/-- A change confined to one block, which keeps its header's place in the
list, replaces the block in the list. -/
theorem Listed.exchange {m m' : Mem} {p lo hi : ℕ} {pre post new : List Block} {b : Block}
    (h : Listed m p (pre ++ b :: post)) (ht : BlockTiles lo hi (pre ++ b :: post))
    (hdiff : DiffersWithin m m' b.addr b.stop)
    (hnew : Listed m' (getNext m b.addr) post → Listed m' b.addr (new ++ post)) :
    Listed m' p (pre ++ new ++ post) := by
  obtain ⟨hpre, hpost⟩ := ht.apart
  have htail : Listed m (getNext m b.addr) post := (listed_cons.mp h.suffix).2.2.2
  have htail' : Listed m' (getNext m b.addr) post := by
    refine htail.frame fun c hc => hdiff.agreeOn (Or.inr ?_)
    exact hpost c hc
  rw [List.append_assoc]
  refine h.rejoin (fun c hc => hdiff.agreeOn (Or.inl ?_)) (hnew htail')
  have := hpre c hc
  unfold Block.stop at this
  omega

end Ppdb.PoolLayout
