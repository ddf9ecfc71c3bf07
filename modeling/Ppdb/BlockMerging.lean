import Ppdb.PoolLayout

/-!
`try_merge_blocks` as an edit of the block list: every maximal run of free
blocks becomes one free block, headers of used blocks and their payloads are
not written, and a second pass finds nothing left to merge. The loop thus ends
on every tiled list.
-/

namespace Ppdb.BlockMerging

open ByteMemory SizeArithmetic BlockHeaders PoolOperations LinkedSegments TiledIntervals
open PoolLayout

/-- A free block swallows the free block behind it, header included. -/
def absorb (b c : Block) : Block := { b with size := b.size + (c.size + headerSize) }

def coalesceInto : Block → List Block → List Block
  | b, [] => [b]
  | b, c :: rest =>
    if !b.isUsed && !c.isUsed then coalesceInto (absorb b c) rest else b :: coalesceInto c rest

def coalesce : List Block → List Block
  | [] => []
  | b :: rest => coalesceInto b rest

/-- No two neighbours are both free. -/
def Separated (bs : List Block) : Prop :=
  bs.IsChain (fun b c => b.isUsed = true ∨ c.isUsed = true)

/-- No byte of a used block, header or payload, is changed. -/
def KeepsUsed (m m' : Mem) (bs : List Block) : Prop :=
  ∀ b ∈ bs, b.isUsed = true → AgreeOn m m' b.addr b.stop

@[simp] theorem absorb_addr (b c : Block) : (absorb b c).addr = b.addr := rfl

@[simp] theorem absorb_isUsed (b c : Block) : (absorb b c).isUsed = b.isUsed := rfl

/-- The merged block is never empty, whatever follows it. -/
theorem coalesceInto_cons (b : Block) (rest : List Block) :
    ∃ b' rest', coalesceInto b rest = b' :: rest' ∧ b'.addr = b.addr ∧ b'.isUsed = b.isUsed := by
  induction rest generalizing b with
  | nil => exact ⟨b, [], rfl, rfl, rfl⟩
  | cons c rest ih =>
    by_cases hfree : (!b.isUsed && !c.isUsed) = true
    · obtain ⟨b', rest', heq, haddr, hused⟩ := ih (absorb b c)
      exact ⟨b', rest', by rw [coalesceInto, if_pos hfree, heq], haddr, hused⟩
    · exact ⟨b, coalesceInto c rest, by rw [coalesceInto, if_neg hfree], rfl, rfl⟩

theorem coalesce_ne_nil {bs : List Block} (h : bs ≠ []) : coalesce bs ≠ [] := by
  obtain ⟨b, rest, rfl⟩ := List.exists_cons_of_ne_nil h
  obtain ⟨b', rest', heq, _⟩ := coalesceInto_cons b rest
  rw [coalesce, heq]
  exact List.cons_ne_nil b' rest'

theorem coalesceInto_separated (b : Block) (rest : List Block) :
    Separated (coalesceInto b rest) := by
  induction rest generalizing b with
  | nil => exact List.IsChain.singleton b
  | cons c rest ih =>
    by_cases hfree : (!b.isUsed && !c.isUsed) = true
    · rw [coalesceInto, if_pos hfree]
      exact ih (absorb b c)
    · rw [coalesceInto, if_neg hfree]
      obtain ⟨c', rest', heq, _, hused⟩ := coalesceInto_cons c rest
      have htail := ih c
      rw [heq] at htail ⊢
      refine List.IsChain.cons_cons ?_ htail
      rw [hused]
      revert hfree
      cases b.isUsed <;> cases c.isUsed <;> simp

theorem coalesce_separated (bs : List Block) : Separated (coalesce bs) := by
  cases bs with
  | nil => exact List.IsChain.nil
  | cons b rest => exact coalesceInto_separated b rest

/-- Merging touches no used block. -/
theorem coalesceInto_filter_used (b : Block) (rest : List Block) :
    (coalesceInto b rest).filter Block.isUsed = (b :: rest).filter Block.isUsed := by
  induction rest generalizing b with
  | nil => rfl
  | cons c rest ih =>
    by_cases hfree : (!b.isUsed && !c.isUsed) = true
    · rw [coalesceInto, if_pos hfree, ih]
      have hb : b.isUsed = false := by simp_all
      have hc : c.isUsed = false := by simp_all
      simp [hb, hc]
    · rw [coalesceInto, if_neg hfree, List.filter_cons, ih c, ← List.filter_cons]

theorem coalesce_filter_used (bs : List Block) :
    (coalesce bs).filter Block.isUsed = bs.filter Block.isUsed := by
  cases bs with
  | nil => rfl
  | cons b rest => exact coalesceInto_filter_used b rest

theorem coalesceInto_length_le (b : Block) (rest : List Block) :
    (coalesceInto b rest).length ≤ (b :: rest).length := by
  induction rest generalizing b with
  | nil => exact Nat.le_refl _
  | cons c rest ih =>
    by_cases hfree : (!b.isUsed && !c.isUsed) = true
    · have h := ih (absorb b c)
      rw [coalesceInto, if_pos hfree]
      simp only [List.length_cons] at h ⊢
      omega
    · have h := ih c
      rw [coalesceInto, if_neg hfree]
      simp only [List.length_cons] at h ⊢
      omega

/-- Every address of the merged list was an address before. -/
theorem coalesceInto_addr_mem (b : Block) (rest : List Block) {d : Block}
    (hd : d ∈ coalesceInto b rest) : ∃ c ∈ b :: rest, d.addr = c.addr := by
  induction rest generalizing b with
  | nil => exact ⟨d, hd, rfl⟩
  | cons c rest ih =>
    by_cases hfree : (!b.isUsed && !c.isUsed) = true
    · rw [coalesceInto, if_pos hfree] at hd
      obtain ⟨e, he, haddr⟩ := ih (absorb b c) hd
      rcases List.mem_cons.mp he with rfl | he
      · exact ⟨b, List.mem_cons_self, haddr⟩
      · exact ⟨e, by simp [he], haddr⟩
    · rw [coalesceInto, if_neg hfree] at hd
      rcases List.mem_cons.mp hd with rfl | hd
      · exact ⟨d, List.mem_cons_self, rfl⟩
      · obtain ⟨e, he, haddr⟩ := ih c hd
        exact ⟨e, List.mem_cons_of_mem b he, haddr⟩

theorem coalesce_addr_mem (bs : List Block) {d : Block} (hd : d ∈ coalesce bs) :
    ∃ c ∈ bs, d.addr = c.addr := by
  cases bs with
  | nil => exact absurd hd List.not_mem_nil
  | cons b rest => exact coalesceInto_addr_mem b rest hd

/-- Two neighbours tile the same stretch as the block that absorbed one of them. -/
theorem tiles_absorb {lo hi : ℕ} {pre rest : List Block} {b c : Block}
    (h : BlockTiles lo hi (pre ++ b :: c :: rest)) :
    BlockTiles lo hi (pre ++ absorb b c :: rest) := by
  have h' : BlockTiles lo hi (pre ++ [b, c] ++ rest) := by simpa using h
  have hex : BlockTiles lo hi (pre ++ [absorb b c] ++ rest) := by
    apply Tiles.exchange h'
    intro x y hxy
    obtain ⟨hb, hc, hend⟩ := hxy
    refine ⟨hb, ?_⟩
    simp only [tiles_nil, Block.stop, absorb] at hc hend ⊢
    omega
  simpa using hex

/-- A pool of fewer than 2^64 bytes has fewer than 2^64 blocks. -/
theorem tiles_length_le {lo hi : ℕ} {bs : List Block} (h : BlockTiles lo hi bs) :
    lo + bs.length ≤ hi := by
  induction bs generalizing lo with
  | nil => exact Nat.le_of_eq h
  | cons b rest ih =>
    have hrest := ih h.2
    have hstart : b.addr = lo := h.1
    simp only [List.length_cons, Block.stop, headerSize] at hrest ⊢
    omega

/-- A pass over a separated list changes nothing and reports so. -/
theorem mergePass_separated {m : Mem} {p : ℕ} {b : Block} {rest : List Block}
    (hlist : Listed m p (b :: rest)) (hsep : Separated (b :: rest)) (fuel count : ℕ)
    (merged : Bool) (hfuel : rest.length < fuel) :
    mergePass fuel m count b.addr merged = .ok (m, count, merged) := by
  induction rest generalizing p b fuel with
  | nil =>
    obtain ⟨k, rfl⟩ : ∃ k, fuel = k + 1 := ⟨fuel - 1, by simp at hfuel; omega⟩
    have hnext : getNext m b.addr = 0 := listed_nil.mp (listed_cons.mp hlist).2.2.2
    simp [mergePass, hnext]
  | cons c rest ih =>
    obtain ⟨k, rfl⟩ : ∃ k, fuel = k + 1 := ⟨fuel - 1, by simp at hfuel; omega⟩
    obtain ⟨_, hb, hread, htail⟩ := listed_cons.mp hlist
    obtain ⟨hnext, hc, hreadc, _⟩ := listed_cons.mp htail
    have hub : getIsUsed m b.addr = b.isUsed := getIsUsed_of_blockAt hread
    have huc : getIsUsed m c.addr = c.isUsed := getIsUsed_of_blockAt hreadc
    obtain ⟨hor, hsep'⟩ := List.isChain_cons_cons.mp hsep
    have hnot : ¬ (!b.isUsed && !c.isUsed) = true := by
      rcases hor with h | h <;> simp [h]
    rw [mergePass, hnext, if_neg (by simp [hb, hc]), hub, huc, if_neg hnot]
    exact ih htail hsep' k (by simp at hfuel; omega)

/-- One merge: the header of the first block is rewritten, nothing else. -/
theorem listed_absorb {m : Mem} {p lo hi : ℕ} {pre rest : List Block} {b c : Block}
    (hlist : Listed m p (pre ++ b :: c :: rest)) (ht : BlockTiles lo hi (pre ++ b :: c :: rest))
    (hhi : hi ≤ sizeModulus) :
    let m₁ := setSize m b.addr (addSize b.size (addSize c.size headerSize))
    let m' := setNext m₁ b.addr (getNext m₁ c.addr)
    Listed m' p (pre ++ absorb b c :: rest) ∧
      DiffersWithin m m' b.addr (b.addr + headerSize) := by
  intro m₁ m'
  have hdiff : DiffersWithin m m' b.addr (b.addr + headerSize) :=
    (setSize_differs m b.addr _).trans (setNext_differs _ b.addr _)
  obtain ⟨hpre, hpost⟩ := ht.headers_apart
  have hbc : b.stop = c.addr := by
    obtain ⟨_, _, hmid⟩ := tiles_append.mp ht
    exact hmid.2.1.symm
  have hbound := ht.bounds (b := c) (by simp)
  have hsum : addSize b.size (addSize c.size headerSize) = b.size + (c.size + headerSize) := by
    unfold Block.stop at hbc hbound
    rw [addSize_of_lt (a := c.size) (by unfold sizeModulus headerSize at *; omega),
      addSize_of_lt (by unfold sizeModulus headerSize at *; omega)]
  obtain ⟨_, hb, hread, htail⟩ := listed_cons.mp hlist.suffix
  obtain ⟨_, hc, _, hrest⟩ := listed_cons.mp htail
  have hrest' : Listed m' (getNext m c.addr) rest :=
    hrest.frame fun d hd => hdiff.agreeOn (Or.inr (hpost d (List.mem_cons_of_mem c hd)))
  refine ⟨hlist.rejoin (fun d hd => hdiff.agreeOn (Or.inl (hpre d hd))) ?_, hdiff⟩
  refine listed_cons.mpr ⟨rfl, hb, ?_, ?_⟩
  · have horig := getOriginalSize_of_blockAt hread
    have hused := getIsUsed_of_blockAt hread
    have hlt : b.size + (c.size + headerSize) < sizeModulus := by
      rw [← hsum]
      exact addSize_lt _ _
    simp [m', m₁, blockAt, absorb, hsum, Nat.mod_eq_of_lt hlt, horig, hused]
  · have hsame : getNext m₁ c.addr = getNext m c.addr :=
      getNext_congr ((setSize_differs m b.addr _).agreeOn (Or.inr (hpost c List.mem_cons_self)))
    have hnext : getNext m' b.addr = getNext m c.addr := by
      simp [m', hsame, Nat.mod_eq_of_lt (getNext_lt m c.addr)]
    rw [absorb_addr, hnext]
    exact hrest'

/-- One pass from the block `b` on merges every run of free blocks. -/
theorem mergePass_spec {m : Mem} {p lo hi : ℕ} {pre rest : List Block} {b : Block}
    (hlist : Listed m p (pre ++ b :: rest)) (ht : BlockTiles lo hi (pre ++ b :: rest))
    (hhi : hi ≤ sizeModulus) (hlo : 0 < lo) (merged : Bool) :
    ∃ m' merged', (∀ fuel, rest.length < fuel →
        mergePass fuel m (pre ++ b :: rest).length b.addr merged =
          .ok (m', (pre ++ coalesceInto b rest).length, merged')) ∧
      Listed m' p (pre ++ coalesceInto b rest) ∧ BlockTiles lo hi (pre ++ coalesceInto b rest) ∧
      KeepsUsed m m' (pre ++ b :: rest) := by
  induction rest generalizing m pre b merged with
  | nil =>
    have hnext : getNext m b.addr = 0 := listed_nil.mp (listed_cons.mp hlist.suffix).2.2.2
    refine ⟨m, merged, ?_, hlist, ht, fun d _ _ i _ _ => rfl⟩
    intro fuel hfuel
    obtain ⟨k, rfl⟩ : ∃ k, fuel = k + 1 := ⟨fuel - 1, by simp at hfuel; omega⟩
    simp [mergePass, hnext, coalesceInto]
  | cons c rest ih =>
    have hdec : ∀ fuel, (c :: rest).length < fuel → ∃ k, fuel = k + 1 ∧ rest.length < k :=
      fun fuel hfuel => ⟨fuel - 1, by simp at hfuel; omega, by simp at hfuel; omega⟩
    obtain ⟨_, hb, hread, htail⟩ := listed_cons.mp hlist.suffix
    obtain ⟨hnext, hc, hreadc, _⟩ := listed_cons.mp htail
    have hub : getIsUsed m b.addr = b.isUsed := getIsUsed_of_blockAt hread
    have huc : getIsUsed m c.addr = c.isUsed := getIsUsed_of_blockAt hreadc
    have hsb : getSize m b.addr = b.size := getSize_of_blockAt hread
    have hsc : getSize m c.addr = c.size := getSize_of_blockAt hreadc
    by_cases hfree : (!b.isUsed && !c.isUsed) = true
    · obtain ⟨hlist', hdiff⟩ := listed_absorb hlist ht hhi
      have ht' := tiles_absorb ht
      obtain ⟨m', merged', hrun, hL, hT, hkeep⟩ := ih hlist' ht' true
      have hlen : subSize (pre ++ b :: c :: rest).length 1 = (pre ++ absorb b c :: rest).length := by
        have hle := tiles_length_le ht
        simp only [List.length_append, List.length_cons] at hle ⊢
        rw [subSize_of_le (by omega) (by omega)]
        omega
      refine ⟨m', merged', fun fuel hfuel => ?_, ?_, ?_, ?_⟩
      · obtain ⟨k, rfl, hk⟩ := hdec fuel hfuel
        rw [mergePass, hnext, if_neg (by simp [hb, hc]), hub, huc, if_pos hfree]
        simpa only [coalesceInto, if_pos hfree, absorb_addr, hsb, hsc, hlen] using hrun k hk
      · simpa only [coalesceInto, if_pos hfree] using hL
      · simpa only [coalesceInto, if_pos hfree] using hT
      · intro d hd hused
        obtain ⟨hpre, hpost⟩ := ht.apart
        have hfreeb : b.isUsed = false := by simp_all
        have hfreec : c.isUsed = false := by simp_all
        have hdb : d ≠ b := fun h => by simp [h, hfreeb] at hused
        have hdc : d ≠ c := fun h => by simp [h, hfreec] at hused
        have hmem : d ∈ pre ∨ d ∈ rest := by simpa [hdb, hdc] using hd
        have hfirst : AgreeOn m _ d.addr d.stop := hdiff.agreeOn (by
          rcases hmem with hd | hd
          · exact Or.inl (hpre d hd)
          · have := hpost d (List.mem_cons_of_mem c hd)
            unfold Block.stop at this
            exact Or.inr (by omega))
        have hlater := hkeep d (by simpa using hmem.imp_right Or.inr) hused
        exact fun i h1 h2 => (hlater i h1 h2).trans (hfirst i h1 h2)
    · have hassoc : pre ++ b :: c :: rest = (pre ++ [b]) ++ c :: rest := by simp
      have hlist' : Listed m p ((pre ++ [b]) ++ c :: rest) := hassoc ▸ hlist
      obtain ⟨m', merged', hrun, hL, hT, hkeep⟩ := ih hlist' (hassoc ▸ ht) merged
      refine ⟨m', merged', fun fuel hfuel => ?_, ?_, ?_, hassoc ▸ hkeep⟩
      · obtain ⟨k, rfl, hk⟩ := hdec fuel hfuel
        rw [mergePass, hnext, if_neg (by simp [hb, hc]), hub, huc, if_neg hfree, hassoc]
        simpa only [coalesceInto, if_neg hfree, List.append_assoc, List.singleton_append]
          using hrun k hk
      · simpa only [coalesceInto, if_neg hfree, List.append_assoc, List.singleton_append]
          using hL
      · simpa only [coalesceInto, if_neg hfree, List.append_assoc, List.singleton_append]
          using hT

/-- The rounds end after at most two passes. -/
theorem mergeRounds_spec {m : Mem} {p lo hi : ℕ} {bs : List Block} (hlist : Listed m p bs)
    (ht : BlockTiles lo hi bs) (hhi : hi ≤ sizeModulus) (hlo : 0 < lo) :
    ∃ m', (∀ fuel, bs.length + 2 ≤ fuel →
        mergeRounds fuel p fuel m bs.length = .ok (m', (coalesce bs).length)) ∧
      Listed m' p (coalesce bs) ∧ BlockTiles lo hi (coalesce bs) ∧ KeepsUsed m m' bs := by
  have hdec : ∀ fuel, bs.length + 2 ≤ fuel → ∃ k, fuel = k + 2 ∧ bs.length ≤ k :=
    fun fuel hfuel => ⟨fuel - 2, by omega, by omega⟩
  cases bs with
  | nil =>
    have hhead : p = 0 := listed_nil.mp hlist
    refine ⟨m, ?_, hlist, ht, fun d _ _ i _ _ => rfl⟩
    intro fuel hfuel
    obtain ⟨k, rfl, _⟩ := hdec fuel hfuel
    simp [mergeRounds, mergePass, hhead, coalesce]
  | cons b rest =>
    have hhead : p = b.addr := hlist.1.1
    have hlist' : Listed m p ([] ++ b :: rest) := hlist
    obtain ⟨m', flag, hpass, hL, hT, hkeep⟩ := mergePass_spec hlist' ht hhi hlo false
    simp only [List.nil_append] at hpass hL hT hkeep
    refine ⟨m', ?_, hL, hT, hkeep⟩
    intro fuel hfuel
    obtain ⟨k, rfl, hk⟩ := hdec fuel hfuel
    have hlen : rest.length < k + 2 := by simp at hk; omega
    cases flag with
    | false =>
      rw [mergeRounds, hhead, hpass (k + 2) hlen]
      rfl
    | true =>
      -- the first pass has left no free neighbours for the second
      obtain ⟨b', rest', heq, haddr, _⟩ := coalesceInto_cons b rest
      have hL' : Listed m' p (b' :: rest') := heq ▸ hL
      have hsep : Separated (b' :: rest') := heq ▸ coalesceInto_separated b rest
      have hlen' : rest'.length < k + 2 := by
        have hle := coalesceInto_length_le b rest
        rw [heq] at hle
        simp at hle hk
        omega
      have hsecond := mergePass_separated hL' hsep (k + 2) (coalesceInto b rest).length false hlen'
      rw [haddr] at hsecond
      rw [mergeRounds, hhead, hpass (k + 2) hlen]
      change mergeRounds (k + 2) b.addr (k + 1) m' (coalesceInto b rest).length = _
      rw [mergeRounds, hsecond]
      rfl

def merged (s : State) (m : Mem) (bs : List Block) : State :=
  { s with bytes := m, pool := { s.pool with blockCount := (coalesce bs).length } }

/-- On a list of blocks that tile some stretch `try_merge_blocks` ends, and
coalesces. -/
theorem tryMergeBlocks_listed {s : State} {bs : List Block} {lo hi : ℕ}
    (hlist : Listed s.bytes s.pool.freeList bs) (ht : BlockTiles lo hi bs)
    (hcount : s.pool.blockCount = bs.length) (hhi : hi ≤ sizeModulus) (hlo : 0 < lo) :
    ∃ m, (∀ fuel, bs.length + 2 ≤ fuel → tryMergeBlocks fuel s = .ok (merged s m bs)) ∧
      Listed m s.pool.freeList (coalesce bs) ∧ BlockTiles lo hi (coalesce bs) ∧
      KeepsUsed s.bytes m bs := by
  obtain ⟨m, hrun, hmerged, htiles, hkeep⟩ := mergeRounds_spec hlist ht hhi hlo
  refine ⟨m, ?_, hmerged, htiles, hkeep⟩
  intro fuel hfuel
  rw [tryMergeBlocks, hcount, hrun fuel hfuel]
  rfl

theorem tryMergeBlocks_spec {s : State} {bs : List Block} (h : Tiled s bs) (hr : Region s) :
    ∃ m, (∀ fuel, bs.length + 2 ≤ fuel → tryMergeBlocks fuel s = .ok (merged s m bs)) ∧
      Tiled (merged s m bs) (coalesce bs) ∧ KeepsUsed s.bytes m bs := by
  obtain ⟨m, hrun, hlist, htiles, hkeep⟩ :=
    tryMergeBlocks_listed h.listed h.tiles h.count hr.in_space.le hr.start_pos
  exact ⟨m, hrun, ⟨hlist, htiles, rfl⟩, hkeep⟩

end Ppdb.BlockMerging
