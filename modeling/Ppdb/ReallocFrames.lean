import Ppdb.AllocationPaths
import Ppdb.PoolReallocation

/-!
What `infra_realloc` does to the payloads of a pool. Shrinking in place writes
a header behind the part kept, which may run over the header of the next block
but not into its payload. Growing copies as many bytes as the old block has
before the merge that follows. A refusal changes nothing.
-/

namespace Ppdb.ReallocFrames

open ByteMemory SizeArithmetic BlockHeaders PoolOperations TiledIntervals EventualResults
open PoolLayout BlockMerging BlockChoice PoolAllocation PoolRuns PoolGrowth PoolReallocation

def PayloadsKept (m m' : Mem) (bs : List Block) (b : Block) : Prop :=
  ∀ c ∈ bs, c.isUsed = true → c ≠ b → AgreeOn m m' c.payload c.stop

theorem payloadsKept_of_keepsOthers {m m' : Mem} {bs : List Block} {b : Block}
    (h : KeepsOthers m m' bs b) : PayloadsKept m m' bs b := by
  intro c hc hused hcb
  apply (h c hc hused hcb).mono
  · unfold Block.payload
    omega
  · exact Nat.le_refl _

/-- The pointer is the payload of a used block of the pool with at least so
many bytes. -/
structure Room (s : State) (u : Block) (ptr size : ℕ) : Prop where
  payload : u.payload = ptr
  header : blockAt s.bytes u.addr = u
  used : u.isUsed = true
  inside : s.pool.poolStart ≤ u.addr ∧ u.stop ≤ s.pool.poolStart + s.pool.poolSize
  bytes : size ≤ u.size

/-- A pointer returned by `infra_realloc` for the block `b`: it starts a used
block with room for the request, which begins with the payload bytes of `b`. -/
structure Reallocated (s s' : State) (b : Block) (old size ptr : ℕ) : Prop where
  room : ∃ u, Room s' u ptr size
  content : ∀ i < min old size, i < b.size → s'.bytes (ptr + i) = s.bytes (b.payload + i)

/-- The result of `infra_realloc` for the block `b`, for which `old` bytes were
last requested: the content and the other payloads are kept, or all is as before. -/
def ReallocRight (s : State) (bs : List Block) (b : Block) (old size : ℕ) (s' : State)
    (ptr : ℕ) : Prop :=
  (ptr ≠ 0 → Reallocated s s' b old size ptr ∧ PayloadsKept s.bytes s'.bytes bs b) ∧
    (ptr = 0 → s' = s)

/-- The split leaves the part kept alone, and the block stays in use. -/
theorem splitMemory_kept (m : Mem) (b nb newSize keptSize : ℕ) (hkept : keptSize < sizeModulus)
    (hsep : b + headerSize ≤ nb) :
    AgreeOn m (splitMemory m b nb newSize keptSize) (b + headerSize) nb ∧
      blockAt (splitMemory m b nb newSize keptSize) b =
        ⟨b, keptSize, getOriginalSize m b, getIsUsed m b⟩ := by
  have hnew : DiffersWithin m (newHeader m b nb newSize) nb (nb + headerSize) :=
    newHeader_differs m b nb newSize
  have hdiff : DiffersWithin (newHeader m b nb newSize) (splitMemory m b nb newSize keptSize) b
      (b + headerSize) := (setSize_differs _ b keptSize).trans (setNext_differs _ b nb)
  have hold : AgreeOn m (newHeader m b nb newSize) b (b + headerSize) :=
    hnew.agreeOn (Or.inl hsep)
  constructor
  · intro i h1 h2
    rw [hdiff i (Or.inr h1), hnew i (Or.inl h2)]
  · simp [splitMemory, blockAt, Nat.mod_eq_of_lt hkept, getOriginalSize_congr hold,
      getIsUsed_congr hold]

theorem withSplit_same (s : State) (m : Mem) : SameRegion s (withSplit s m) :=
  ⟨rfl, rfl, rfl, rfl, rfl, rfl⟩

section Frames
variable {s : State} {bs : List Block} {b : Block} {size : ℕ}

/-- A write from the block's header up to the end of the next header leaves
the payloads of the other blocks alone. -/
theorem payloadsKept_of_header {m' : Mem} (h : Tiled s bs) (hb : b ∈ bs)
    (hdiff : DiffersWithin s.bytes m' b.addr (b.stop + headerSize)) :
    PayloadsKept s.bytes m' bs b := by
  intro c hc _ hcb
  obtain ⟨pre, post, rfl⟩ := List.append_of_mem hb
  obtain ⟨hpre, hpost⟩ := h.tiles.apart
  apply hdiff.agreeOn
  rcases List.mem_append.mp hc with hc | hc
  · exact Or.inl (hpre c hc)
  · rcases List.mem_cons.mp hc with hc | hc
    · exact absurd hc hcb
    · right
      exact Nat.add_le_add_right (hpost c hc) headerSize

/-- Whether or not a header is split off, the block keeps its payload up to the
size asked for, and what is written ends with the header behind it. -/
theorem splitBlock_frame (h : InPool s bs) (hb : b ∈ bs)
    (hkept : alignSize size s.config.poolAlignment ≤ b.size) :
    ∃ n, alignSize size s.config.poolAlignment ≤ n ∧ n ≤ b.size ∧
      blockAt (splitBlock s b.addr (alignSize size s.config.poolAlignment)).bytes b.addr =
        { b with size := n } ∧
      AgreeOn s.bytes (splitBlock s b.addr (alignSize size s.config.poolAlignment)).bytes
        b.payload (b.payload + alignSize size s.config.poolAlignment) ∧
      DiffersWithin s.bytes (splitBlock s b.addr (alignSize size s.config.poolAlignment)).bytes
        b.addr (b.stop + headerSize) := by
  have hsmall := h.tiled.size_lt h.region hb
  have hbounds := h.tiled.bounds hb
  have hspace := h.region.in_space
  have hread := h.tiled.listed.2 b hb
  rw [splitBlock_realloc h hb hkept]
  generalize alignSize size s.config.poolAlignment = kept at hkept ⊢
  by_cases hcut : minBlockSize ≤ remaining b kept
  · rw [if_pos hcut]
    obtain ⟨hdiff, _⟩ := splitMemory_spec s.bytes b.addr (b.addr + (headerSize + kept))
      (subSize (remaining b kept) headerSize) kept (by omega) (subSize_lt _ _) (by omega)
    obtain ⟨hagree, hheader⟩ := splitMemory_kept s.bytes b.addr (b.addr + (headerSize + kept))
      (subSize (remaining b kept) headerSize) kept (by unfold sizeModulus; omega) (by omega)
    refine ⟨kept, Nat.le_refl _, hkept, ?_, ?_, ?_⟩
    · refine hheader.trans ?_
      rw [getOriginalSize_of_blockAt hread, getIsUsed_of_blockAt hread]
    · apply hagree.mono
      · exact Nat.le_refl _
      · unfold Block.payload
        omega
    · apply hdiff.mono
      · exact Nat.le_refl _
      · unfold Block.stop
        omega
  · rw [if_neg hcut]
    exact ⟨b.size, hkept, Nat.le_refl _, hread, fun _ _ _ => rfl, DiffersWithin.refl _ _ _⟩

/-- A size up to that of the pool is rounded up without a wrap. -/
theorem le_alignSize (h : InPool s bs) (hsize : size + (s.config.poolAlignment - 1) < sizeModulus) :
    size ≤ alignSize size s.config.poolAlignment := (align_spec h.alignment hsize).1

theorem reallocInPlace_same (h : InPool s bs) (hb : b ∈ bs)
    (hkept : alignSize size s.config.poolAlignment ≤ b.size) :
    SameRegion s (reallocInPlace s b.addr size) := by
  obtain ⟨used, current, hplace⟩ := reallocInPlace_eq s b.addr size
  rw [hplace, splitBlock_realloc h hb hkept]
  split
  · exact (withSplit_same s _).trans (withUsage_same _ _ _ _)
  · exact withUsage_same _ _ _ _

theorem right_in_place (h : InPool s bs) (hb : b ∈ bs) (hused : b.isUsed = true) (old : ℕ)
    (hround : size ≤ alignSize size s.config.poolAlignment)
    (hkept : alignSize size s.config.poolAlignment ≤ b.size) :
    ReallocRight s bs b old size (reallocInPlace s b.addr size) b.payload := by
  obtain ⟨n, hn, hfit, hheader, hagree, hdiff⟩ := splitBlock_frame h hb hkept
  obtain ⟨used, current, hplace⟩ := reallocInPlace_eq s b.addr size
  have hbounds := h.tiled.bounds hb
  have hbytes : (reallocInPlace s b.addr size).bytes =
      (splitBlock s b.addr (alignSize size s.config.poolAlignment)).bytes := by
    rw [hplace, withUsage_bytes]
  have hsame := reallocInPlace_same h hb hkept
  rw [← hbytes] at hheader hagree hdiff
  constructor
  · intro _
    refine ⟨⟨⟨{ b with size := n }, rfl, hheader, hused, ?_, Nat.le_trans hround hn⟩, ?_⟩,
      payloadsKept_of_header h.tiled hb hdiff⟩
    · rw [hsame.poolStart, hsame.poolSize]
      unfold Block.stop
      simp only
      omega
    · intro i hi _
      apply hagree <;> omega
  · intro hzero
    have hpos : b.payload ≠ 0 := by
      unfold Block.payload headerSize
      omega
    exact absurd hzero hpos

/-- Behind aligned headers the block handed out starts at the pointer. -/
theorem right_of_moved {s' : State} {c : Block} (h : InPool s bs) (haligned : Aligned s bs)
    (old : ℕ) (hlt : size < sizeModulus) (hadm : ¬ Refused s size)
    (hround : size ≤ alignSize size s.config.poolAlignment)
    (hfirst : firstFit (grossSize size s.config.poolAlignment) bs = some c)
    (hmoved : Moved s s' bs b c (grossSize size s.config.poolAlignment)) :
    ReallocRight s bs b old size s' (paddedPayload c s.config.poolAlignment) := by
  have hgross := (grossSize_spec h.alignment hlt hadm).2
  obtain ⟨hmem, _, hroom⟩ := firstFit_mem hfirst
  have hpad := paddedPayload_of_dvd h.alignment (haligned c hmem)
  have hbounds := h.tiled.bounds hmem
  generalize grossSize size s.config.poolAlignment = gross at hgross hroom hmoved
  have hcapacity : size ≤ (handedOut c gross).size := by
    rw [handedOut_size]
    unfold capacity
    split <;> omega
  have hwithin := capacity_le c gross
  constructor
  · intro _
    refine ⟨⟨⟨handedOut c gross, ?_, ?_, rfl, ?_, hcapacity⟩, ?_⟩,
      payloadsKept_of_keepsOthers hmoved.others⟩
    · rw [handedOut_payload, hpad]
    · rw [handedOut_addr]
      exact hmoved.header
    · rw [handedOut_addr, handedOut_stop, hmoved.same.poolStart, hmoved.same.poolSize]
      unfold Block.payload
      omega
    · intro i _ hi
      exact hmoved.copied i hi
  · intro hzero
    have hpos := payload_le_padded c s.config.poolAlignment
    unfold Block.payload headerSize at hpos
    omega

theorem right_moved (h : InPool s bs) (haligned : Aligned s bs) (hb : b ∈ bs)
    (hused : b.isUsed = true) (old : ℕ) (hlt : size < sizeModulus)
    (hround : size ≤ alignSize size s.config.poolAlignment)
    (hgrow : b.size < alignSize size s.config.poolAlignment) :
    ∃ s' ptr, Settles (fun fuel => reallocMove fuel s b.payload b.addr size) (.ok (s', ptr)) ∧
      ReallocRight s bs b old size s' ptr := by
  obtain ⟨s', ptr, hrun, hcases⟩ := reallocMove_cases h.tiled h.region h.alignment h.length_lt hb
    hused hlt (copyFits_of_aligned h.alignment hlt haligned hgrow)
  refine ⟨s', ptr, ⟨_, hrun⟩, ?_⟩
  rcases hcases with ⟨rfl, rfl⟩ | ⟨c, hadm, hfirst, rfl, hmoved⟩
  · exact ⟨fun hne => absurd rfl hne, fun _ => rfl⟩
  · exact right_of_moved h haligned old hlt hadm hround hfirst hmoved

/-- In the pool `infra_realloc` returns, and rightly if the size does not wrap
when it is rounded up. -/
theorem right_recognised (h : InPool s bs) (haligned : Aligned s bs) (hb : b ∈ bs)
    (hused : b.isUsed = true) (old : ℕ) (hpos : 0 < size) (hrec : Recognised s b)
    (hwrap : size + (s.config.poolAlignment - 1) < sizeModulus) (reply : ℕ) :
    ∃ s' ptr, Settles (fun fuel => infraRealloc fuel reply s b.payload size) (.ok (s', ptr)) ∧
      ReallocRight s bs b old size s' ptr := by
  have hround := le_alignSize h hwrap
  have hbranch := infraRealloc_recognised h hb hused hpos hrec
  rcases Nat.lt_or_ge b.size (alignSize size s.config.poolAlignment) with hgrow | hkept
  · obtain ⟨s', ptr, hmove, hright⟩ :=
      right_moved h haligned hb hused old (by omega) hround hgrow
    refine ⟨s', ptr, hmove.of_eq fun fuel => ?_, hright⟩
    rw [hbranch, if_neg (by omega)]
  · refine ⟨_, _, ⟨0, fun fuel _ => ?_⟩, right_in_place h hb hused old hround hkept⟩
    exact (hbranch fuel reply).trans (if_pos hkept)

/-- A pointer behind the end of the pool is refused, or not one that the
C library can take. -/
theorem right_foreign (h : InPool s bs) (hb : b ∈ bs) (hused : b.isUsed = true) (old : ℕ)
    (hpos : 0 < size) (hlt : size < sizeModulus) (hrec : ¬ Recognised s b) (reply : ℕ)
    {s' : State} {ptr : ℕ}
    (hret : Settles (fun fuel => infraRealloc fuel reply s b.payload size) (.ok (s', ptr))) :
    ReallocRight s bs b old size s' ptr := by
  obtain ⟨n, hn⟩ := hret
  have hrun := (hn n (Nat.le_refl n)).symm.trans
    (infraRealloc_foreign_cases h hb hused hpos hlt hrec n reply)
  split at hrun
  · obtain ⟨rfl, rfl⟩ := Prod.mk.inj (Except.ok.inj hrun)
    exact ⟨fun hne => absurd rfl hne, fun _ => rfl⟩
  · exact absurd hrun (by simp)

/-- `infra_realloc` of a live pool pointer returns, and whatever it returns is
right. A pointer that is not in the pool may be none that the C library takes. -/
theorem infraRealloc_right (h : InPool s bs) (haligned : Aligned s bs) (hb : b ∈ bs)
    (hused : b.isUsed = true) (old : ℕ) (hpos : 0 < size) (hle : size ≤ s.pool.poolSize)
    (reply : ℕ) :
    (Recognised s b → ∃ s' ptr,
      Settles (fun fuel => infraRealloc fuel reply s b.payload size) (.ok (s', ptr))) ∧
    ∀ s' ptr, Settles (fun fuel => infraRealloc fuel reply s b.payload size) (.ok (s', ptr)) →
      ReallocRight s bs b old size s' ptr := by
  have hsmall := h.region.small
  have hwrap : size + (s.config.poolAlignment - 1) < sizeModulus := by
    have halign := h.alignment
    unfold sizeModulus
    omega
  by_cases hrec : Recognised s b
  · obtain ⟨s', ptr, hret, hright⟩ :=
      right_recognised h haligned hb hused old hpos hrec hwrap reply
    constructor
    · intro _
      exact ⟨s', ptr, hret⟩
    · intro t p hret'
      obtain ⟨rfl, rfl⟩ := Prod.mk.inj (Except.ok.inj (hret'.unique hret))
      exact hright
  · constructor
    · intro hyes
      exact absurd hyes hrec
    · intro s' ptr hret
      exact right_foreign h hb hused old hpos (by omega) hrec reply hret

end Frames

/-- A block that must move gets the pointer of `allocate_from_pool`. -/
theorem infraRealloc_moved {s s₁ s' : State} {bs : List Block} {b : Block} {reply size p ptr : ℕ}
    (h : InPool s bs) (hb : b ∈ bs) (hused : b.isUsed = true) (hpos : 0 < size)
    (hrec : Recognised s b) (hgrow : b.size < alignSize size s.config.poolAlignment)
    (halloc : Settles (fun fuel => allocateFromPool fuel s size) (.ok (s₁, p))) (hp : p ≠ 0)
    (hret : Settles (fun fuel => infraRealloc fuel reply s b.payload size) (.ok (s', ptr))) :
    ptr = p := by
  obtain ⟨n, hn⟩ := halloc
  obtain ⟨n', hn'⟩ := hret
  have hrun := hn' (max n n') (Nat.le_max_right n n')
  simp only [infraRealloc_recognised h hb hused hpos hrec, if_neg (Nat.not_le_of_lt hgrow),
    reallocMove_eq (hn (max n n') (Nat.le_max_left n n')) hp] at hrun
  cases hmerge : tryMergeBlocks (max n n') _ with
  | error e =>
    rw [hmerge] at hrun
    cases hrun
  | ok t =>
    rw [hmerge] at hrun
    exact (Prod.mk.inj (Except.ok.inj hrun)).2.symm

/-- The block of 112 bytes grows to 200, which the small pool has room for. -/
theorem infraRealloc_right_grown :
    ∃ s bs b s' ptr, Settles (fun fuel => infraMalloc fuel 0 smallPool 100) (.ok (s, 4128)) ∧
      b.payload = 4128 ∧
      Settles (fun fuel => infraRealloc fuel 0 s b.payload 200) (.ok (s', ptr)) ∧ ptr ≠ 0 ∧
      ReallocRight s bs b 100 200 s' ptr := by
  obtain ⟨s, garbage, hmalloc, hpool, halign, hend⟩ := smallPool_inPool
  have haligned : Aligned s [⟨4096, 112, 100, true⟩, ⟨4240, 848, garbage, false⟩] := by
    unfold Aligned
    rw [halign]
    simp only [List.forall_mem_cons, List.not_mem_nil, false_implies, implies_true, and_true]
    constructor <;> decide
  have hsize : 200 ≤ s.pool.poolSize := by
    have hbounds := hpool.tiled.bounds List.mem_cons_self
    have hstart := hpool.tiled.tiles.1
    simp only at hstart
    omega
  have hrec : Recognised s ⟨4096, 112, 100, true⟩ := by
    unfold Recognised
    rw [hend]
    decide
  have hasked : AllocationPaths.Asked s
      [⟨4096, 112, 100, true⟩, ⟨4240, 848, garbage, false⟩] 200 :=
    ⟨hpool.pooled, hpool.alignment, hpool.region, hpool.tiled, by decide, hsize⟩
  have hfirst : firstFit (grossSize 200 8) [⟨4096, 112, 100, true⟩, ⟨4240, 848, garbage, false⟩] =
      some ⟨4240, 848, garbage, false⟩ := rfl
  obtain ⟨hreturns, hright⟩ := infraRealloc_right hpool haligned List.mem_cons_self rfl 100
    (by decide) hsize 0
  obtain ⟨s', ptr, hret⟩ := hreturns hrec
  have hne : ptr ≠ 0 := by
    rcases hasked.allocateFromPool with ⟨hnone, _⟩ | ⟨_, _, p, _, hp, halloc, _⟩
    · rw [halign, hfirst] at hnone
      cases hnone
    · have hgrow : 112 < alignSize 200 s.config.poolAlignment := by
        rw [halign]
        decide
      rwa [infraRealloc_moved hpool List.mem_cons_self rfl (by decide) hrec hgrow halloc hp hret]
  exact ⟨s, _, ⟨4096, 112, 100, true⟩, s', ptr, hmalloc, rfl, hret, hne, hright s' ptr hret⟩

end Ppdb.ReallocFrames
