import Ppdb.HashRuns
import Ppdb.ReallocFrames
import Ppdb.SystemBlocks

/-!
Sizes that wrap. A request is rounded up, padded and multiplied modulo 2^64,
and not every path checks for an overflow. For each call it is settled when the
memory behind a result has the bytes asked for. The hash table is created here
in the memory of the allocator, where the stores of a loop that runs on behind
its array are made all the same, until one has no memory to go to.
-/

namespace Ppdb.SizeChecks

open ByteMemory SizeArithmetic BlockHeaders ErrorCodes PoolOperations TiledIntervals EventualResults
open PoolLayout BlockChoice PoolAllocation PoolRuns PoolReallocation ReallocFrames SystemBlocks

/-! ### The creation of a hash table -/

def tableSize : ℕ := 24

/-- `for (i = 0; i < capacity; i++) (*hash)->buckets[i] = NULL`, with `count`
iterations left from `i` on. A store through a null pointer does not return,
nor does one up to the end of the address space. -/
def initBuckets (hash : ℕ) : (count i : ℕ) → Mem → Except Stop Mem
  | 0, _, m => .ok m
  | count + 1, i, m =>
    let buckets := readWord m hash
    if buckets = 0 ∨ sizeModulus ≤ buckets + 8 * (i + 1) then .error .segfault
    else initBuckets hash count (i + 1) (writeWord m (buckets + 8 * i) 0)

/-- `infra_hash_create`, with the replies of the C library to the requests for
the table and for the array. The second component is `*hash`. -/
def infraHashCreate (fuel tableReply bucketsReply : ℕ) (s : State) (capacity : ℕ) :
    Except Stop (State × ℕ × ErrorCode) :=
  if capacity = 0 then .ok (s, 0, .invalidParam)
  else do
    let (s, hash) ← infraMalloc fuel tableReply s tableSize
    if hash = 0 then .ok (s, 0, .noMemory)
    else do
      let (s, buckets) ← infraMalloc fuel bucketsReply s (mulSize 8 capacity)
      let s := { s with bytes := writeWord s.bytes hash buckets }
      if buckets = 0 then do
        let s ← infraFree fuel s hash
        .ok (s, 0, .noMemory)
      else do
        let m ← initBuckets hash capacity 0 s.bytes
        let m := writeWord m (hash + 16) capacity
        let m := writeWord m (hash + 8) 0
        .ok ({ s with bytes := m }, hash, .ok)

/-! ### What is asked for and what there is -/

inductive Request
  | malloc (size : ℕ)
  | realloc (ptr size : ℕ)
  | calloc (nmemb size : ℕ)
  | hashCreate (capacity : ℕ)
  deriving DecidableEq, Repr

/-- Arguments are of type `size_t`; only live pointers are given back. -/
def Valid (bs : List Block) : Request → Prop
  | .malloc size => size < sizeModulus
  | .realloc ptr size =>
    size < sizeModulus ∧ (ptr = 0 ∨ ∃ b ∈ bs, b.isUsed = true ∧ b.payload = ptr)
  | .calloc nmemb size => nmemb < sizeModulus ∧ size < sizeModulus
  | .hashCreate capacity => capacity < sizeModulus

/-- The memory behind a pointer has so many bytes after a call in the state `s`:
in pool mode those of a used block, in system mode what is left of a block of
the C library. -/
def HasRoom (s s' : State) (ptr size : ℕ) : Prop :=
  if s.config.useMemoryPool then ∃ u, Room s' u ptr size
  else ∃ blk ∈ s'.libc, blk.1 ≤ ptr ∧ ptr + size ≤ blk.1 + blk.2

/-- Whenever the call succeeds, the memory behind its result has the bytes that
it was asked for. -/
def SizesRight (s : State) (tableReply reply : ℕ) : Request → Prop
  | .malloc size => s.config.useMemoryPool = true → ∀ s' ptr,
      Settles (fun fuel => infraMalloc fuel reply s size) (.ok (s', ptr)) → ptr ≠ 0 →
        HasRoom s s' ptr size
  | .realloc old size => s.config.useMemoryPool = true → ∀ s' ptr,
      Settles (fun fuel => infraRealloc fuel reply s old size) (.ok (s', ptr)) → ptr ≠ 0 →
        HasRoom s s' ptr size
  | .calloc nmemb size => ∀ s' ptr,
      Settles (fun fuel => infraCalloc fuel reply s nmemb size) (.ok (s', ptr)) → ptr ≠ 0 →
        HasRoom s s' ptr (nmemb * size)
  | .hashCreate capacity => ∀ s' hash,
      Settles (fun fuel => infraHashCreate fuel tableReply reply s capacity)
        (.ok (s', hash, .ok)) → HasRoom s s' (readWord s'.bytes hash) (8 * capacity)

/-- No free block is as large as the request, rounded up as the code does it. -/
def NoneFits (s : State) (bs : List Block) (size : ℕ) : Prop :=
  ∀ b ∈ bs, b.isUsed = false → b.size < requestSize (counted size) s.config.poolAlignment

/-- The C library refuses, or the padded size wraps and it is not asked. -/
def Unserved (s : State) (reply size : ℕ) : Prop :=
  reply = 0 ∨ totalSize s.config.poolAlignment (counted size) ≤ counted size

/-- When the sizes are right: nothing wraps, or the wrapped request fails. A
product that is only rounded past the address space is not cleared to its end,
and neither is an array whose size wraps. -/
def SizesFit (s : State) (bs : List Block) (reply : ℕ) : Request → Prop
  | .malloc size => s.config.useMemoryPool = true → Unwrapped s size ∨ NoneFits s bs size
  | .realloc ptr size => s.config.useMemoryPool = true →
      if ptr = 0 then Unwrapped s size ∨ NoneFits s bs size
      else size + (s.config.poolAlignment - 1) ≤ sizeMax ∨
        s.pool.poolStart + s.pool.poolSize ≤ ptr
  | .calloc nmemb size =>
      if s.config.useMemoryPool then
        nmemb * size ≤ sizeMax ∨ ¬ Unwrapped s (mulSize nmemb size) ∨
          NoneFits s bs (mulSize nmemb size)
      else nmemb * size ≤ sizeMax ∨ Unserved s reply (mulSize nmemb size)
  | .hashCreate _ => True

/-! ### Pool mode -/

/-- A pool in service, with no block of the C library inside. -/
structure AtWork (s : State) (bs : List Block) : Prop where
  pool : InPool s bs
  aligned : Aligned s bs

theorem AtWork.inService {s : State} {bs : List Block} (h : AtWork s bs) : InService s bs :=
  ⟨h.pool.initialized, h.pool.pooled, h.pool.alignment, h.pool.region, h.pool.tiled, h.aligned⟩

/-- A block of the pool is smaller than 2^63 bytes. -/
theorem room_lt {s : State} (hr : Region s) {u : Block} {ptr size : ℕ} (h : Room s u ptr size) :
    size < 2 ^ 63 := by
  have hsmall := hr.small
  have hinside := h.inside
  have hbytes := h.bytes
  unfold Block.stop at hinside
  omega

theorem room_of_mem {s : State} {bs : List Block} (h : Tiled s bs) {u : Block} (hu : u ∈ bs)
    (hused : u.isUsed = true) {size : ℕ} (hle : size ≤ u.size) : Room s u u.payload size :=
  ⟨rfl, h.listed.2 u hu, hused, h.bounds hu, hle⟩

/-- A request that leaves room below 2^63 bytes does not wrap. -/
theorem unwrapped_of_lt {s : State}
    (ha : s.config.poolAlignment = 8 ∨ s.config.poolAlignment = 16) {size : ℕ}
    (h : size < 2 ^ 63) : Unwrapped s size := by
  unfold Unwrapped sizeMax sizeModulus
  omega

/-- A request served in pool mode: the block chosen, the blocks that are left,
and the one among them that starts at the pointer. -/
structure Served (s s' : State) (bs bs' : List Block) (b u : Block) (size ptr : ℕ) : Prop where
  best : bestFit (requestSize (counted size) s.config.poolAlignment) bs = some b
  blocks : ∃ pre post garbage, bs = pre ++ b :: post ∧
    bs' = pre ++ served b (requestSize (counted size) s.config.poolAlignment) (counted size)
      garbage ++ post
  same : SameRegion s s'
  serving : InService s' bs'
  mem : u ∈ bs'
  addr : u.addr = b.addr
  payload : u.payload = ptr
  used : u.isUsed = true
  room : requestSize (counted size) s.config.poolAlignment ≤ u.size

section Pool
variable {s : State} {bs : List Block}

/-- `infra_malloc` in pool mode returns null and changes nothing, or serves. -/
theorem malloc_cases (h : InService s bs) (reply : ℕ) {size : ℕ} (hsize : size < sizeModulus) :
    ∃ s' ptr, Settles (fun fuel => infraMalloc fuel reply s size) (.ok (s', ptr)) ∧
      ((ptr = 0 ∧ s' = s ∧ NoneFits s bs size) ∨
        ∃ bs' b u, ptr ≠ 0 ∧ Served s s' bs bs' b u size ptr) := by
  obtain ⟨s', ptr, hrun, hserves⟩ := infraMalloc_serves h reply hsize
  refine ⟨s', ptr, ⟨_, hrun⟩, ?_⟩
  rcases hserves with ⟨hptr, hs, hnone⟩ |
    ⟨pre, b, post, garbage, hbs, hbest, hptr, hsame, hserv, _, _⟩
  · exact Or.inl ⟨hptr, hs, bestFit_eq_none hnone⟩
  · obtain ⟨_, _, hroom⟩ := bestFit_mem hbest
    obtain ⟨u, rest, heq, haddr, hused, _, hle, _⟩ := served_cases b
      (requestSize (counted size) s.config.poolAlignment) (counted size) garbage hroom
    have hpayload : u.payload = b.payload := by
      unfold Block.payload
      rw [haddr]
    refine Or.inr ⟨_, b, u, ?_, hbest, ⟨pre, post, garbage, hbs, rfl⟩, hsame, hserv, ?_,
      haddr, hpayload.trans hptr.symm, hused, hle⟩
    · rw [hptr]
      unfold Block.payload headerSize
      omega
    · rw [heq]
      simp

/-- A request that is served is not one for which no block fits. -/
theorem Served.not_noneFits {s' : State} {bs' : List Block} {b u : Block} {size ptr : ℕ}
    (h : Served s s' bs bs' b u size ptr) : ¬ NoneFits s bs size := by
  intro hnone
  obtain ⟨hb, hfree, hroom⟩ := bestFit_mem h.best
  exact absurd hroom (Nat.not_le_of_lt (hnone b hb hfree))

theorem Served.hasRoom {s' : State} {bs' : List Block} {b u : Block} {size ptr : ℕ}
    (h : Served s s' bs bs' b u size ptr) (hserv : InService s bs) (hfit : Unwrapped s size) :
    Room s' u ptr size := by
  rw [← h.payload]
  exact room_of_mem h.serving.tiled h.mem h.used (Nat.le_trans (covers hserv hfit) h.room)

/-- Writes into the payload leave the block behind a pointer as it is. -/
theorem room_write {u : Block} {ptr size : ℕ} (h : Room s u ptr size) {m : Mem}
    (hdiff : DiffersWithin s.bytes m u.payload u.stop) : Room { s with bytes := m } u ptr size := by
  refine ⟨h.payload, ?_, h.used, h.inside, h.bytes⟩
  refine (blockAt_congr (hdiff.agreeOn (Or.inl ?_))).trans h.header
  unfold Block.payload
  omega

/-- The requests of `infra_malloc` that get what they ask for. -/
theorem malloc_fits (h : InService s bs) (reply : ℕ) {size : ℕ} (hsize : size < sizeModulus) :
    (∀ s' ptr, Settles (fun fuel => infraMalloc fuel reply s size) (.ok (s', ptr)) → ptr ≠ 0 →
        ∃ u, Room s' u ptr size) ↔ Unwrapped s size ∨ NoneFits s bs size := by
  obtain ⟨s', ptr, hret, hcases⟩ := malloc_cases h reply hsize
  constructor
  · intro hright
    rcases hcases with ⟨_, _, hnone⟩ | ⟨bs', b, u, hne, hserved⟩
    · exact Or.inr hnone
    · obtain ⟨v, hroom⟩ := hright s' ptr hret hne
      exact Or.inl (unwrapped_of_lt h.alignment (room_lt hserved.serving.region hroom))
  · intro hfit t p hret' hne
    obtain ⟨rfl, rfl⟩ := Prod.mk.inj (Except.ok.inj (hret'.unique hret))
    rcases hcases with ⟨hptr, _, _⟩ | ⟨bs', b, u, _, hserved⟩
    · exact absurd hptr hne
    · exact ⟨u, hserved.hasRoom h (hfit.resolve_right hserved.not_noneFits)⟩

theorem calloc_zero {reply nmemb size : ℕ} (hzero : nmemb = 0 ∨ size = 0) {s' : State} {ptr : ℕ}
    (hret : Settles (fun fuel => infraCalloc fuel reply s nmemb size) (.ok (s', ptr))) : ptr = 0 := by
  have hnull : Settles (fun fuel => infraCalloc fuel reply s nmemb size) (.ok (s, 0)) :=
    ⟨0, fun _ _ => infraCalloc_zero hzero⟩
  exact (Prod.mk.inj (Except.ok.inj (hret.unique hnull))).2

/-- A calloc that returns is null because its request was refused, or cleared
all that it was asked for. -/
theorem calloc_cases {reply nmemb size : ℕ} (hinit : s.initialized = true)
    (hzero : ¬ (nmemb = 0 ∨ size = 0)) {t : State} {p : ℕ}
    (hmalloc : Settles (fun fuel => infraMalloc fuel reply s (mulSize nmemb size)) (.ok (t, p)))
    {s' : State} {ptr : ℕ}
    (hret : Settles (fun fuel => infraCalloc fuel reply s nmemb size) (.ok (s', ptr))) :
    ptr = p ∧ (p ≠ 0 → ∃ m, infraMemset t.bytes p 0 (mulSize nmemb size) = .ok m ∧
      s' = { t with bytes := m }) := by
  obtain ⟨n, hn⟩ := hmalloc
  by_cases hp : p = 0
  · subst hp
    have hnull : Settles (fun fuel => infraCalloc fuel reply s nmemb size) (.ok (t, 0)) :=
      ⟨n, fun fuel hfuel => infraCalloc_null hinit hzero (hn fuel hfuel)⟩
    exact ⟨(Prod.mk.inj (Except.ok.inj (hret.unique hnull))).2, fun hne => absurd rfl hne⟩
  cases hclear : infraMemset t.bytes p 0 (mulSize nmemb size) with
  | ok m =>
    have hdone : Settles (fun fuel => infraCalloc fuel reply s nmemb size)
        (.ok ({ t with bytes := m }, p)) :=
      ⟨n, fun fuel hfuel => infraCalloc_cleared hinit hzero (hn fuel hfuel) hp hclear⟩
    obtain ⟨rfl, rfl⟩ := Prod.mk.inj (Except.ok.inj (hret.unique hdone))
    exact ⟨rfl, fun _ => ⟨m, rfl, rfl⟩⟩
  | error e =>
    have hdies : Settles (fun fuel => infraCalloc fuel reply s nmemb size) (.error e) :=
      ⟨n, fun fuel hfuel => infraCalloc_faults hinit hzero (hn fuel hfuel) hp hclear⟩
    cases hret.unique hdies

/-- A product that is covered when rounded is cleared inside its block. -/
theorem calloc_serves {reply nmemb size : ℕ} (h : InService s bs)
    (hzero : ¬ (nmemb = 0 ∨ size = 0)) {s' : State} {bs' : List Block} {b u : Block} {ptr : ℕ}
    (hmalloc : Settles (fun fuel => infraMalloc fuel reply s (mulSize nmemb size)) (.ok (s', ptr)))
    (hptr : ptr ≠ 0) (hserved : Served s s' bs bs' b u (mulSize nmemb size) ptr)
    (hfit : Unwrapped s (mulSize nmemb size)) :
    ∃ m, Settles (fun fuel => infraCalloc fuel reply s nmemb size)
        (.ok ({ s' with bytes := m }, ptr)) ∧
      Room { s' with bytes := m } u ptr (mulSize nmemb size) := by
  have hroom := hserved.hasRoom h hfit
  have hbytes := hroom.bytes
  have hpayload := hroom.payload
  have hinside := hroom.inside.2
  have hspace := hserved.serving.region.in_space
  have hstop : ptr + mulSize nmemb size ≤ u.stop := by
    unfold Block.payload at hpayload
    unfold Block.stop
    omega
  obtain ⟨m, hclear, hdiff, _⟩ := infraMemset_inside s'.bytes 0
    (by omega : ptr + mulSize nmemb size < sizeModulus)
  obtain ⟨n, hn⟩ := hmalloc
  exact ⟨m, ⟨n, fun fuel hfuel => infraCalloc_cleared h.initialized hzero (hn fuel hfuel) hptr
    hclear⟩, room_write hroom (hdiff.mono (Nat.le_of_eq hpayload) hstop)⟩

theorem mulSize_of_le {m n : ℕ} (h : m * n ≤ sizeMax) : mulSize m n = m * n := by
  apply Nat.mod_eq_of_lt
  have hpos := sizeModulus_pos
  unfold sizeMax at h
  omega

/-- A calloc that returns a pointer was not rounded past the address space. -/
theorem calloc_unwrapped {reply nmemb size : ℕ} (h : InService s bs)
    (hzero : ¬ (nmemb = 0 ∨ size = 0)) {s' : State} {ptr : ℕ}
    (hret : Settles (fun fuel => infraCalloc fuel reply s nmemb size) (.ok (s', ptr)))
    (hptr : ptr ≠ 0) : Unwrapped s (mulSize nmemb size) := by
  rcases callocRounds_of_returned h hret with h0 | h0 | hfit | hnone
  · exact absurd (Or.inl h0) hzero
  · exact absurd (Or.inr h0) hzero
  · exact hfit
  · obtain ⟨t, p, hmalloc, hcases⟩ := malloc_cases h reply (mulSize_lt nmemb size)
    obtain ⟨rfl, _⟩ := calloc_cases h.initialized hzero hmalloc hret
    rcases hcases with ⟨hnull, _, _⟩ | ⟨_, _, _, _, hserved⟩
    · exact absurd hnull hptr
    · exact absurd (hnone bs h.tiled.listed) hserved.not_noneFits

/-- The products of `infra_calloc` that get what they ask for. -/
theorem calloc_fits (h : InService s bs) (reply nmemb size : ℕ) :
    (∀ s' ptr, Settles (fun fuel => infraCalloc fuel reply s nmemb size) (.ok (s', ptr)) →
        ptr ≠ 0 → ∃ u, Room s' u ptr (nmemb * size)) ↔
      nmemb * size ≤ sizeMax ∨ ¬ Unwrapped s (mulSize nmemb size) ∨
        NoneFits s bs (mulSize nmemb size) := by
  by_cases hzero : nmemb = 0 ∨ size = 0
  · have hproduct : nmemb * size = 0 := Nat.mul_eq_zero.mpr hzero
    refine iff_of_true (fun s' ptr hret hne => absurd (calloc_zero hzero hret) hne) (Or.inl ?_)
    omega
  obtain ⟨t, p, hmalloc, hcases⟩ := malloc_cases h reply (mulSize_lt nmemb size)
  rcases hcases with ⟨rfl, _, hnone⟩ | ⟨bs', b, u, hp, hserved⟩
  · refine iff_of_true (fun s' ptr hret hne => ?_) (Or.inr (Or.inr hnone))
    exact absurd (calloc_cases h.initialized hzero hmalloc hret).1 hne
  constructor
  · intro hright
    by_cases hfit : Unwrapped s (mulSize nmemb size)
    · obtain ⟨m, hret, hroom⟩ := calloc_serves h hzero hmalloc hp hserved hfit
      obtain ⟨v, hgot⟩ := hright _ p hret hp
      have hregion := hserved.serving.region
      have hregion' : Region { t with bytes := m } :=
        ⟨hregion.start_pos, hregion.in_space, hregion.small⟩
      have hlt := room_lt hregion' hgot
      left
      unfold sizeMax sizeModulus
      omega
    · exact Or.inr (Or.inl hfit)
  · rintro hfit s' ptr hret hne
    have hunwrapped := calloc_unwrapped h hzero hret hne
    have hle : nmemb * size ≤ sizeMax := by
      rcases hfit with hle | hwrapped | hnone
      · exact hle
      · exact absurd hunwrapped hwrapped
      · exact absurd hnone hserved.not_noneFits
    obtain ⟨m, hret', hroom⟩ := calloc_serves h hzero hmalloc hp hserved hunwrapped
    obtain ⟨rfl, rfl⟩ := Prod.mk.inj (Except.ok.inj (hret.unique hret'))
    exact ⟨u, mulSize_of_le hle ▸ hroom⟩

/-- Without a pointer `infra_realloc` is `infra_malloc`, but for the size 0. -/
theorem realloc_null_fits (h : InService s bs) (reply : ℕ) {size : ℕ}
    (hsize : size < sizeModulus) :
    (∀ s' ptr, Settles (fun fuel => infraRealloc fuel reply s 0 size) (.ok (s', ptr)) → ptr ≠ 0 →
        ∃ u, Room s' u ptr size) ↔ Unwrapped s size ∨ NoneFits s bs size := by
  have hready : ¬ (!s.initialized) = true := by simp [h.initialized]
  rcases Nat.eq_zero_or_pos size with rfl | hpos
  · have hnull : ∀ fuel, infraRealloc fuel reply s 0 0 = .ok (s, 0) := by
      intro fuel
      rw [infraRealloc, if_neg hready, if_pos rfl, infraFree, if_pos (Or.inr rfl)]
      rfl
    constructor
    · intro _
      exact Or.inl (unwrapped_of_lt h.alignment (by decide))
    · intro _ s' ptr hret hne
      obtain ⟨_, rfl⟩ := Prod.mk.inj
        (Except.ok.inj (hret.unique ⟨0, fun fuel _ => hnull fuel⟩))
      exact absurd rfl hne
  · have hmalloc : ∀ fuel, infraRealloc fuel reply s 0 size = infraMalloc fuel reply s size := by
      intro fuel
      rw [infraRealloc, if_neg hready, if_neg (Nat.ne_of_gt hpos), if_pos rfl]
    simp only [hmalloc]
    exact malloc_fits h reply hsize

/-- The sizes that `infra_realloc` of a live pointer gets right. -/
theorem realloc_fits (h : AtWork s bs) {b : Block} (hb : b ∈ bs) (hused : b.isUsed = true)
    (reply : ℕ) {size : ℕ} (hsize : size < sizeModulus) :
    (∀ s' ptr, Settles (fun fuel => infraRealloc fuel reply s b.payload size) (.ok (s', ptr)) →
        ptr ≠ 0 → ∃ u, Room s' u ptr size) ↔
      size + (s.config.poolAlignment - 1) ≤ sizeMax ∨ ¬ Recognised s b := by
  have halign := h.pool.alignment
  have hmax : sizeMax + 1 = sizeModulus := by decide
  rcases Nat.eq_zero_or_pos size with rfl | hpos
  · constructor
    · intro _
      left
      unfold sizeModulus at hmax
      omega
    · rintro _ s' ptr ⟨n, hn⟩ hne
      have hready : ¬ (!s.initialized) = true := by simp [h.pool.initialized]
      have hrun : infraRealloc n reply s b.payload 0 = .ok (s', ptr) := hn n (Nat.le_refl n)
      rw [infraRealloc, if_neg hready, if_pos rfl] at hrun
      cases hfree : infraFree n s b.payload with
      | error e =>
        rw [hfree] at hrun
        cases hrun
      | ok t =>
        rw [hfree] at hrun
        exact absurd (Prod.mk.inj (Except.ok.inj hrun)).2.symm hne
  by_cases hrec : Recognised s b
  · by_cases hwrap : size + (s.config.poolAlignment - 1) ≤ sizeMax
    · obtain ⟨s', ptr, hret, hright⟩ := right_recognised h.pool h.aligned hb hused 0 hpos hrec
        (by omega) reply
      refine ⟨fun _ => Or.inl hwrap, fun _ t p hret' hne => ?_⟩
      obtain ⟨rfl, rfl⟩ := Prod.mk.inj (Except.ok.inj (hret'.unique hret))
      exact (hright.1 hne).1.room
    · -- the size wraps to 0, and the block is kept whatever it holds
      have hzero : alignSize size s.config.poolAlignment = 0 :=
        (powerOfTwo_of_alignment halign).alignSize_wrapped hsize (by omega)
      have hkept : alignSize size s.config.poolAlignment ≤ b.size := by omega
      have hret : Settles (fun fuel => infraRealloc fuel reply s b.payload size)
          (.ok (reallocInPlace s b.addr size, b.payload)) :=
        ⟨0, fun fuel _ => (infraRealloc_recognised h.pool hb hused hpos hrec fuel reply).trans
          (if_pos hkept)⟩
      constructor
      · intro hright
        obtain ⟨u, hroom⟩ := hright _ _ hret (by unfold Block.payload headerSize; omega)
        have hlt := room_lt ((reallocInPlace_same h.pool hb hkept).region h.pool.region) hroom
        unfold sizeModulus at hmax
        omega
      · intro hfit
        exact absurd (hfit.resolve_left hwrap) (not_not_intro hrec)
  · refine ⟨fun _ => Or.inr hrec, fun _ s' ptr hret hne => ?_⟩
    obtain ⟨n, hn⟩ := hret
    have hrun := (hn n (Nat.le_refl n)).symm.trans
      (infraRealloc_foreign_cases h.pool hb hused hpos hsize hrec n reply)
    split at hrun
    · exact absurd (Prod.mk.inj (Except.ok.inj hrun)).2 hne
    · cases hrun

end Pool

/-! ### The table and its array -/

def filledIn (m : Mem) (hash capacity : ℕ) : Mem :=
  writeWord (writeWord m (hash + 16) capacity) (hash + 8) 0

/-- The loop clears the array and reads its address in the table. -/
theorem initBuckets_spec {hash buckets : ℕ} (count i : ℕ) {m : Mem} (hpos : buckets ≠ 0)
    (hread : readWord m hash = buckets) (hspace : buckets + 8 * (i + count) < sizeModulus)
    (hsep : hash + 8 ≤ buckets ∨ buckets + 8 * (i + count) ≤ hash)
    (hdone : ∀ j < i, readWord m (buckets + 8 * j) = 0) :
    ∃ m', initBuckets hash count i m = .ok m' ∧
      DiffersWithin m m' buckets (buckets + 8 * (i + count)) ∧ readWord m' hash = buckets ∧
      ∀ j < i + count, readWord m' (buckets + 8 * j) = 0 := by
  induction count generalizing i m with
  | zero => exact ⟨m, rfl, DiffersWithin.refl _ _ _, hread, hdone⟩
  | succ count ih =>
    have hstore : DiffersWithin m (writeWord m (buckets + 8 * i) 0) buckets
        (buckets + 8 * (i + (count + 1))) := (writeWord_differs m _ 0).mono (by omega) (by omega)
    have hread' : readWord (writeWord m (buckets + 8 * i) 0) hash = buckets := by
      rw [readWord_congr (hstore.agreeOn (by omega)), hread]
    have hdone' : ∀ j < i + 1, readWord (writeWord m (buckets + 8 * i) 0) (buckets + 8 * j) = 0 := by
      intro j hj
      by_cases hji : j = i
      · rw [hji, readWord_writeWord]
        rfl
      · rw [readWord_writeWord_of_ne _ _ (by omega)]
        exact hdone j (by omega)
    obtain ⟨m', hrun, hdiff, hsame, hzero⟩ := ih (i + 1) hread' (by omega) (by omega) hdone'
    refine ⟨m', ?_, hstore.trans (hdiff.mono (Nat.le_refl _) (by omega)), hsame,
      fun j hj => hzero j (by omega)⟩
    simp only [initBuckets, hread]
    rw [if_neg (by omega)]
    exact hrun

/-- A loop over more than the address space ends in a fault, be it that it has
overwritten the address of its array. -/
theorem initBuckets_faults {hash buckets : ℕ} (count i : ℕ) {m : Mem} (hcount : 0 < count)
    (hread : readWord m hash = buckets ∨ readWord m hash = 0) (hhash : 8 ∣ hash)
    (hbuckets : 8 ∣ buckets) (hspace : sizeModulus ≤ buckets + 8 * (i + count)) :
    initBuckets hash count i m = .error .segfault := by
  induction count generalizing i m with
  | zero => omega
  | succ count ih =>
    simp only [initBuckets]
    split
    · rfl
    · rename_i hin
      rw [not_or] at hin
      have hkept := hread.resolve_right hin.1
      rw [hkept] at hin ⊢
      refine ih (i + 1) (by omega) ?_ (by omega)
      by_cases hself : buckets + 8 * i = hash
      · right
        rw [hself, readWord_writeWord]
        rfl
      · left
        rw [readWord_writeWord_of_ne _ _ (by omega), hkept]

/-- The words of a table in memory: a null pointer in each bucket, no entry, and
the number of buckets. -/
structure Cleared (m : Mem) (hash buckets capacity : ℕ) : Prop where
  array : readWord m hash = buckets
  heads : ∀ i < capacity, readWord m (buckets + 8 * i) = 0
  size : readWord m (hash + 8) = 0
  capacity : readWord m (hash + 16) = capacity

/-- The table is cleared, and nothing is written outside it and its array. -/
theorem filledIn_spec (m : Mem) (hash buckets capacity : ℕ) (hpos : buckets ≠ 0)
    (hspace : buckets + 8 * capacity < sizeModulus)
    (hsep : hash + tableSize ≤ buckets ∨ buckets + 8 * capacity ≤ hash) :
    ∃ m', initBuckets hash capacity 0 (writeWord m hash buckets) = .ok m' ∧
      Cleared (filledIn m' hash capacity) hash buckets capacity ∧
      ∀ lo hi, (hi ≤ hash ∨ hash + tableSize ≤ lo) →
        (hi ≤ buckets ∨ buckets + 8 * capacity ≤ lo) →
        AgreeOn m (filledIn m' hash capacity) lo hi := by
  unfold tableSize at *
  have hlt : buckets < sizeModulus := by omega
  have hlt' : capacity < sizeModulus := by omega
  have hfirst : readWord (writeWord m hash buckets) hash = buckets :=
    (readWord_writeWord m hash buckets).trans (Nat.mod_eq_of_lt hlt)
  obtain ⟨m', hrun, hloop, hread, hzero⟩ := initBuckets_spec capacity 0 hpos hfirst (by omega)
    (by omega) (by omega)
  refine ⟨m', hrun, ⟨?_, ?_, ?_, ?_⟩, ?_⟩
  · unfold filledIn
    rw [readWord_writeWord_of_ne _ _ (by omega), readWord_writeWord_of_ne _ _ (by omega), hread]
  · intro i hi
    unfold filledIn
    rw [readWord_writeWord_of_ne _ _ (by omega), readWord_writeWord_of_ne _ _ (by omega)]
    exact hzero i (by omega)
  · unfold filledIn
    rw [readWord_writeWord]
    rfl
  · unfold filledIn
    rw [readWord_writeWord_of_ne _ _ (by omega), readWord_writeWord]
    exact Nat.mod_eq_of_lt hlt'
  · intro lo hi htable harray i h1 h2
    unfold filledIn
    rw [writeWord_differs _ _ _ i (by omega), writeWord_differs _ _ _ i (by omega),
      hloop i (by omega), writeWord_differs _ _ _ i (by omega)]

section Table
variable {s s₁ s₂ : State} {fuel tableReply reply capacity hash buckets : ℕ}

theorem hashCreate_zero {s' : State} :
    ¬ Settles (fun fuel => infraHashCreate fuel tableReply reply s 0) (.ok (s', hash, .ok)) := by
  rintro ⟨n, hn⟩
  have hrun := hn n (Nat.le_refl n)
  cases hrun

theorem hashCreate_refused (hpos : capacity ≠ 0)
    (htable : infraMalloc fuel tableReply s tableSize = .ok (s₁, 0)) :
    infraHashCreate fuel tableReply reply s capacity = .ok (s₁, 0, .noMemory) := by
  unfold infraHashCreate
  rw [if_neg hpos, htable]
  rfl

/-- Without an array the table is given back. -/
theorem hashCreate_undone (hpos : capacity ≠ 0) (hhash : hash ≠ 0)
    (htable : infraMalloc fuel tableReply s tableSize = .ok (s₁, hash))
    (harray : infraMalloc fuel reply s₁ (mulSize 8 capacity) = .ok (s₂, 0)) {s' : State} {p : ℕ} :
    infraHashCreate fuel tableReply reply s capacity ≠ .ok (s', p, .ok) := by
  unfold infraHashCreate
  rw [if_neg hpos, htable]
  simp only [ok_bind, if_neg hhash, harray, if_true]
  intro hrun
  cases hfree : infraFree fuel { s₂ with bytes := writeWord s₂.bytes hash 0 } hash with
  | error e =>
    rw [hfree] at hrun
    cases hrun
  | ok t =>
    rw [hfree] at hrun
    cases hrun

/-- With both, the outcome is that of the loop. -/
theorem hashCreate_served (hpos : capacity ≠ 0) (hhash : hash ≠ 0) (hbuckets : buckets ≠ 0)
    (htable : infraMalloc fuel tableReply s tableSize = .ok (s₁, hash))
    (harray : infraMalloc fuel reply s₁ (mulSize 8 capacity) = .ok (s₂, buckets)) :
    infraHashCreate fuel tableReply reply s capacity =
      (initBuckets hash capacity 0 (writeWord s₂.bytes hash buckets)).map fun m =>
        ({ s₂ with bytes := filledIn m hash capacity }, hash, .ok) := by
  unfold infraHashCreate
  rw [if_neg hpos, htable]
  simp only [ok_bind, if_neg hhash, harray, if_neg hbuckets]
  cases initBuckets hash capacity 0 (writeWord s₂.bytes hash buckets) <;> rfl

/-- An array that ends in the address space is cleared, and so is the table. -/
theorem hashCreate_cleared (hpos : 0 < capacity) (hhash : hash ≠ 0) (hbuckets : buckets ≠ 0)
    (htable : infraMalloc fuel tableReply s tableSize = .ok (s₁, hash))
    (harray : infraMalloc fuel reply s₁ (mulSize 8 capacity) = .ok (s₂, buckets))
    (hspace : buckets + 8 * capacity < sizeModulus)
    (hsep : hash + tableSize ≤ buckets ∨ buckets + 8 * capacity ≤ hash) :
    ∃ m, infraHashCreate fuel tableReply reply s capacity =
        .ok ({ s₂ with bytes := m }, hash, .ok) ∧ Cleared m hash buckets capacity ∧
      ∀ lo hi, (hi ≤ hash ∨ hash + tableSize ≤ lo) →
        (hi ≤ buckets ∨ buckets + 8 * capacity ≤ lo) → AgreeOn s₂.bytes m lo hi := by
  obtain ⟨m, hrun, hcleared, hframe⟩ := filledIn_spec s₂.bytes hash buckets capacity hbuckets hspace
    hsep
  refine ⟨_, ?_, hcleared, hframe⟩
  rw [hashCreate_served (Nat.ne_of_gt hpos) hhash hbuckets htable harray, hrun]
  rfl

/-- The loop does not get to the end of an array that does not. -/
theorem hashCreate_faults (hpos : 0 < capacity) (hhash : hash ≠ 0) (hbuckets : buckets ≠ 0)
    (htable : infraMalloc fuel tableReply s tableSize = .ok (s₁, hash))
    (harray : infraMalloc fuel reply s₁ (mulSize 8 capacity) = .ok (s₂, buckets))
    (hdvd : 8 ∣ hash) (hdvd' : 8 ∣ buckets) (hlt : buckets < sizeModulus)
    (hlarge : sizeModulus ≤ buckets + 8 * capacity) :
    infraHashCreate fuel tableReply reply s capacity = .error .segfault := by
  have hfirst : readWord (writeWord s₂.bytes hash buckets) hash = buckets :=
    (readWord_writeWord s₂.bytes hash buckets).trans (Nat.mod_eq_of_lt hlt)
  rw [hashCreate_served (Nat.ne_of_gt hpos) hhash hbuckets htable harray,
    initBuckets_faults capacity 0 hpos (Or.inl hfirst) hdvd hdvd' (by rwa [Nat.zero_add])]
  rfl

end Table

section Pool
variable {s s₁ : State} {bs bs₁ : List Block} {b u : Block} {hash : ℕ}

/-- Different blocks of a tiled list lie apart. -/
theorem stop_le_of_ne {lo hi : ℕ} {cs : List Block} (h : BlockTiles lo hi cs) {c d : Block}
    (hc : c ∈ cs) (hd : d ∈ cs) (hne : c ≠ d) : c.stop ≤ d.addr ∨ d.stop ≤ c.addr := by
  obtain ⟨pre, post, rfl⟩ := List.append_of_mem hc
  obtain ⟨hpre, hpost⟩ := h.apart
  rcases List.mem_append.mp hd with hd | hd
  · exact Or.inr (hpre d hd)
  · rcases List.mem_cons.mp hd with hd | hd
    · exact absurd hd.symm hne
    · exact Or.inl (hpost d hd)

/-- A used block is still there after a later request, apart from the new one. -/
theorem Served.kept {s' : State} {bs' : List Block} {v : Block} {size ptr : ℕ}
    (h : InService s bs) (hserved : Served s s' bs bs' b u size ptr) (hv : v ∈ bs)
    (hused : v.isUsed = true) : v ∈ bs' ∧ v ≠ u := by
  obtain ⟨hb, hfree, _⟩ := bestFit_mem hserved.best
  have hvb : v ≠ b := by
    rintro rfl
    rw [hused] at hfree
    cases hfree
  constructor
  · obtain ⟨pre, post, garbage, rfl, rfl⟩ := hserved.blocks
    simp only [List.mem_append, List.mem_cons, hvb, false_or] at hv ⊢
    tauto
  · rintro rfl
    exact hvb (h.tiled.tiles.eq_of_addr hv hb hserved.addr)

/-- The array holds what was asked for, apart from the table. -/
theorem array_room {s₂ : State} {bs₂ : List Block} {c v : Block} {buckets capacity : ℕ}
    (h : InService s bs) (hserved : Served s s₁ bs bs₁ b u tableSize hash)
    (hserved' : Served s₁ s₂ bs₁ bs₂ c v (mulSize 8 capacity) buckets)
    (hfit : Unwrapped s (8 * capacity)) :
    Room s₂ v buckets (8 * capacity) ∧ (hash + tableSize ≤ v.addr ∨ v.stop ≤ hash) := by
  have hproduct : mulSize 8 capacity = 8 * capacity := by
    apply mulSize_of_le
    unfold Unwrapped at hfit
    omega
  rw [hproduct] at hserved'
  have htable : Room s₁ u hash tableSize :=
    hserved.hasRoom h (unwrapped_of_lt h.alignment (by decide))
  have harray : Room s₂ v buckets (8 * capacity) := by
    apply hserved'.hasRoom hserved.serving
    unfold Unwrapped
    rw [hserved.same.config]
    exact hfit
  obtain ⟨hkept, hne⟩ := hserved'.kept hserved.serving hserved.mem hserved.used
  have hapart := stop_le_of_ne hserved'.serving.tiled.tiles hkept hserved'.mem hne
  have hpayload := htable.payload
  have hbytes := htable.bytes
  refine ⟨harray, ?_⟩
  unfold Block.stop Block.payload at *
  omega

theorem Served.dvd {s' : State} {bs' : List Block} {size ptr : ℕ}
    (h : Served s s' bs bs' b u size ptr) : 8 ∣ ptr ∧ headerSize < ptr := by
  have haligned := h.serving.aligned u h.mem
  have hlower := (h.serving.tiled.bounds h.mem).1
  have hstart := h.serving.region.start_pos
  have hpayload := h.payload
  unfold Block.payload headerSize at *
  rcases h.serving.alignment with ha | ha <;> rw [ha] at haligned <;> omega

/-- A table that is created is cleared, and its array has what it was asked for. -/
theorem hashCreate_made (h : InService s bs) {tableReply reply capacity : ℕ} {s' : State} {p : ℕ}
    (hret : Settles (fun fuel => infraHashCreate fuel tableReply reply s capacity)
      (.ok (s', p, .ok))) :
    ∃ u buckets, 0 < capacity ∧ p ≠ 0 ∧ buckets ≠ 0 ∧ Unwrapped s (8 * capacity) ∧
      Cleared s'.bytes p buckets capacity ∧ Room s' u buckets (8 * capacity) := by
  rcases Nat.eq_zero_or_pos capacity with rfl | hpos
  · exact absurd hret hashCreate_zero
  have hne := Nat.ne_of_gt hpos
  obtain ⟨n, hn⟩ := hret
  obtain ⟨s₁, hash, ⟨n₁, htable⟩, hcases⟩ :=
    malloc_cases h tableReply (by decide : tableSize < sizeModulus)
  rcases hcases with ⟨rfl, _, _⟩ | ⟨bs₁, b, u, hhash, hserved⟩
  · have hrun := (hashCreate_refused hne (htable (max n n₁) (by omega))).symm.trans
      (hn (max n n₁) (by omega))
    cases hrun
  obtain ⟨s₂, buckets, ⟨n₂, harray⟩, hcases⟩ :=
    malloc_cases hserved.serving reply (mulSize_lt 8 capacity)
  have hcreated := hn (max n (max n₁ n₂)) (by omega)
  have htable := htable (max n (max n₁ n₂)) (by omega)
  have harray := harray (max n (max n₁ n₂)) (by omega)
  rcases hcases with ⟨rfl, _, _⟩ | ⟨bs₂, c, v, hbuckets, hserved'⟩
  · exact absurd hcreated (hashCreate_undone hne hhash htable harray)
  have hinside := hserved'.serving.tiled.bounds hserved'.mem
  have hspace := hserved'.serving.region.in_space
  have hpayload := hserved'.payload
  unfold Block.stop Block.payload at *
  by_cases hfit : Unwrapped s (8 * capacity)
  · obtain ⟨hroom, hsep⟩ := array_room h hserved hserved' hfit
    have hbytes := hroom.bytes
    unfold Block.stop at hsep
    obtain ⟨m, hrun, hcleared, hframe⟩ := hashCreate_cleared hpos hhash hbuckets htable harray
      (by omega) (by omega)
    obtain ⟨rfl, hrest⟩ := Prod.mk.inj (Except.ok.inj (hcreated.symm.trans hrun))
    obtain ⟨rfl, _⟩ := Prod.mk.inj hrest
    refine ⟨v, buckets, hpos, hhash, hbuckets, hfit, hcleared, hroom.payload, ?_, hroom.used,
      hroom.inside, hroom.bytes⟩
    exact (blockAt_congr (hframe _ _ (by omega) (by omega))).trans hroom.header
  · have hlarge : sizeModulus ≤ buckets + 8 * capacity := by
      have halign := h.alignment
      have hlower := hserved'.dvd.2
      unfold Unwrapped sizeMax sizeModulus headerSize at *
      omega
    have hrun := (hashCreate_faults hpos hhash hbuckets htable harray hserved.dvd.1
      hserved'.dvd.1 (by omega) hlarge).symm.trans hcreated
    cases hrun

theorem hashCreate_fits (h : InService s bs) {tableReply reply capacity : ℕ} {s' : State} {p : ℕ}
    (hret : Settles (fun fuel => infraHashCreate fuel tableReply reply s capacity)
      (.ok (s', p, .ok))) : ∃ u, Room s' u (readWord s'.bytes p) (8 * capacity) := by
  obtain ⟨u, buckets, _, _, _, _, hcleared, hroom⟩ := hashCreate_made h hret
  exact ⟨u, hcleared.array ▸ hroom⟩

/-- The words of the table and of its array are those of the table whose calls
`HashOperations` follows, whatever the array held before. -/
structure Shows (m : Mem) (hash : ℕ) (t : HashOperations.State) : Prop where
  size : readWord m (hash + 8) = t.size
  capacity : readWord m (hash + 16) = t.capacity
  heads : ∀ i < t.capacity, readWord m (readWord m hash + 8 * i) = t.buckets.getD i 0

/-- A creation in the pool is the creation there, with the addresses it got. -/
theorem hashCreate_shows (h : InService s bs) {tableReply reply capacity : ℕ} {s' : State} {p : ℕ}
    (hret : Settles (fun fuel => infraHashCreate fuel tableReply reply s capacity)
      (.ok (s', p, .ok))) (garbage : ℕ → ℕ) :
    ∃ t, HashOperations.infraHashCreate p (readWord s'.bytes p) garbage capacity =
        .ok (some t, .ok) ∧ Shows s'.bytes p t := by
  obtain ⟨u, buckets, hpos, hp, hbuckets, hfit, hcleared, _⟩ := hashCreate_made h hret
  have hcapacity : 8 * capacity < sizeModulus := by
    unfold Unwrapped sizeMax sizeModulus at *
    omega
  rw [hcleared.array]
  obtain ⟨filled, hrun, _, hzero⟩ := HashRuns.create_cleared garbage hpos hcapacity hp hbuckets
  refine ⟨_, hrun, hcleared.size, hcleared.capacity, fun i hi => ?_⟩
  rw [hcleared.array, hzero]
  exact hcleared.heads i hi

end Pool

/-! ### System mode -/

/-- System mode with one of the two alignments in use; what the C library has
handed out lies in the address space. -/
structure SystemAtWork (s : State) : Prop where
  ready : Ready s
  alignment : s.config.poolAlignment = 8 ∨ s.config.poolAlignment = 16
  libc : ∀ blk ∈ s.libc, blk.1 + blk.2 < sizeModulus

/-- A request served in system mode: the pointer lies in the new block of the
C library, with the bytes looked for behind it. -/
structure ServedBySystem (s s' : State) (reply size ptr : ℕ) : Prop where
  work : SystemAtWork s'
  config : s'.config = s.config
  libc : s'.libc = (reply, totalSize s.config.poolAlignment (counted size)) :: s.libc
  dvd : 8 ∣ ptr
  lower : reply + 8 ≤ ptr
  upper : ptr + counted size ≤ reply + totalSize s.config.poolAlignment (counted size)
  in_space : reply + totalSize s.config.poolAlignment (counted size) < sizeModulus

section System
variable {s : State}

/-- `infra_malloc` in system mode returns null and changes nothing, or serves. -/
theorem system_cases (h : SystemAtWork s) {reply : ℕ} (size : ℕ)
    (hlibc : reply = 0 ∨ LibcBlock reply (totalSize s.config.poolAlignment (counted size))) :
    ∃ s' ptr, (∀ fuel, infraMalloc fuel reply s size = .ok (s', ptr)) ∧
      ((ptr = 0 ∧ s' = s ∧ Unserved s reply size) ∨
        (ptr ≠ 0 ∧ ¬ Unserved s reply size ∧ ServedBySystem s s' reply size ptr)) := by
  by_cases hserves : counted size < totalSize s.config.poolAlignment (counted size) ∧ reply ≠ 0
  · obtain ⟨hsize, hreply⟩ := hserves
    have hblock := hlibc.resolve_left hreply
    have hin := inBlock_of_powerOfTwo (powerOfTwo_of_alignment h.alignment) hsize hblock
    have hlower := hin.lower
    have hdvd : 8 ∣ alignSize (reply + 8) s.config.poolAlignment := by
      have halign := hin.dvd
      rcases h.alignment with ha | ha <;> rw [ha] at halign ⊢ <;> omega
    obtain ⟨m, st, hrun⟩ := infraMalloc_served h.ready hreply hsize
    refine ⟨_, _, hrun, Or.inr ⟨by omega, ?_, ?_⟩⟩
    · rintro (hzero | hwrap)
      · exact hreply hzero
      · omega
    · refine ⟨⟨⟨h.ready.initialized, h.ready.system⟩, h.alignment, ?_⟩, rfl, rfl, hdvd,
        hlower, hin.upper, hblock.in_space⟩
      intro blk hblk
      rcases List.mem_cons.mp hblk with rfl | hblk
      · exact hblock.in_space
      · exact h.libc blk hblk
  · refine ⟨s, 0, infraMalloc_unserved h.ready hserves, Or.inl ⟨rfl, rfl, ?_⟩⟩
    unfold Unserved
    omega

/-- So many bytes in a block of the C library fit in the address space. -/
theorem le_of_inside (h : SystemAtWork s) {ptr size : ℕ}
    (hroom : ∃ blk ∈ s.libc, blk.1 ≤ ptr ∧ ptr + size ≤ blk.1 + blk.2) : size ≤ sizeMax := by
  obtain ⟨blk, hblk, _, hupper⟩ := hroom
  have hspace := h.libc blk hblk
  unfold sizeMax
  omega

theorem le_counted_mul {m n : ℕ} (h : m * n ≤ sizeMax) : m * n ≤ counted (mulSize m n) := by
  rw [mulSize_of_le h]
  exact le_counted (m * n)

/-- The products of `infra_calloc` that get what they ask for in system mode. -/
theorem calloc_fits_system (h : SystemAtWork s) {reply nmemb size : ℕ}
    (hlibc : reply = 0 ∨
      LibcBlock reply (totalSize s.config.poolAlignment (counted (mulSize nmemb size)))) :
    (∀ s' ptr, Settles (fun fuel => infraCalloc fuel reply s nmemb size) (.ok (s', ptr)) →
        ptr ≠ 0 → ∃ blk ∈ s'.libc, blk.1 ≤ ptr ∧ ptr + nmemb * size ≤ blk.1 + blk.2) ↔
      nmemb * size ≤ sizeMax ∨ Unserved s reply (mulSize nmemb size) := by
  by_cases hzero : nmemb = 0 ∨ size = 0
  · have hproduct : nmemb * size = 0 := Nat.mul_eq_zero.mpr hzero
    refine iff_of_true (fun s' ptr hret hne => absurd (calloc_zero hzero hret) hne) (Or.inl ?_)
    omega
  obtain ⟨t, p, hrun, hcases⟩ := system_cases h (mulSize nmemb size) hlibc
  rcases hcases with ⟨rfl, _, hnone⟩ | ⟨hp, hserves, hserved⟩
  · refine iff_of_true (fun s' ptr hret hne => ?_) (Or.inr hnone)
    exact absurd (calloc_cases h.ready.initialized hzero ⟨0, fun fuel _ => hrun fuel⟩ hret).1 hne
  have hlower := hserved.lower
  have hupper := hserved.upper
  have hspace := hserved.in_space
  have hcounted := le_counted (mulSize nmemb size)
  obtain ⟨m, hclear, _⟩ := infraMemset_inside t.bytes 0
    (by omega : p + mulSize nmemb size < sizeModulus)
  have hcalloc : Settles (fun fuel => infraCalloc fuel reply s nmemb size)
      (.ok ({ t with bytes := m }, p)) :=
    ⟨0, fun fuel _ => infraCalloc_cleared h.ready.initialized hzero (hrun fuel) hp hclear⟩
  constructor
  · intro hright
    have hroom := hright _ p hcalloc hp
    exact Or.inl (le_of_inside hserved.work hroom)
  · intro hfit s' ptr hret _
    obtain ⟨rfl, rfl⟩ := Prod.mk.inj (Except.ok.inj (hret.unique hcalloc))
    have hle := le_counted_mul (hfit.resolve_right hserves)
    have hlibc' := hserved.libc
    refine ⟨(reply, totalSize s.config.poolAlignment (counted (mulSize nmemb size))), ?_, ?_, ?_⟩
    · simp [hlibc']
    · simp only
      omega
    · simp only
      omega

def Apart (s : State) (tableReply reply size : ℕ) : Prop :=
  tableReply + totalSize s.config.poolAlignment tableSize ≤ reply ∨
    reply + totalSize s.config.poolAlignment (counted size) ≤ tableReply

/-- The array of a table created in system mode has what it was asked for. -/
theorem hashCreate_fits_system (h : SystemAtWork s) {tableReply reply capacity : ℕ}
    (htableLibc : tableReply = 0 ∨
      LibcBlock tableReply (totalSize s.config.poolAlignment tableSize))
    (hlibc : reply = 0 ∨
      LibcBlock reply (totalSize s.config.poolAlignment (counted (mulSize 8 capacity))))
    (hapart : tableReply ≠ 0 → reply ≠ 0 → Apart s tableReply reply (mulSize 8 capacity))
    {s' : State} {p : ℕ}
    (hret : Settles (fun fuel => infraHashCreate fuel tableReply reply s capacity)
      (.ok (s', p, .ok))) :
    ∃ blk ∈ s'.libc, blk.1 ≤ readWord s'.bytes p ∧
      readWord s'.bytes p + 8 * capacity ≤ blk.1 + blk.2 := by
  rcases Nat.eq_zero_or_pos capacity with rfl | hpos
  · exact absurd hret hashCreate_zero
  have hne := Nat.ne_of_gt hpos
  obtain ⟨n, hn⟩ := hret
  have hcreated := hn n (Nat.le_refl n)
  obtain ⟨s₁, hash, htable, hcases⟩ := system_cases h tableSize htableLibc
  rcases hcases with ⟨rfl, _, _⟩ | ⟨hhash, hserves, hserved⟩
  · have hrun := (hashCreate_refused hne (htable n)).symm.trans hcreated
    cases hrun
  have halign : s₁.config.poolAlignment = s.config.poolAlignment := by rw [hserved.config]
  obtain ⟨s₂, buckets, harray, hcases⟩ := system_cases hserved.work (mulSize 8 capacity)
    (halign.symm ▸ hlibc)
  rcases hcases with ⟨rfl, _, _⟩ | ⟨hbuckets, hserves', hserved'⟩
  · exact absurd hcreated (hashCreate_undone hne hhash (htable n) (harray n))
  have hlower := hserved.lower
  have hupper := hserved.upper
  have hlower' := hserved'.lower
  have hupper' := hserved'.upper
  have hspace := hserved'.in_space
  by_cases hfit : 8 * capacity ≤ sizeMax
  · have hsep := hapart (fun hzero => hserves (Or.inl hzero)) fun hzero => hserves' (Or.inl hzero)
    have hle := le_counted_mul hfit
    have hblocks := hserved'.libc
    have hcounted : counted tableSize = tableSize := rfl
    rw [hcounted] at hupper
    rw [halign] at hupper' hspace hblocks
    unfold Apart at hsep
    obtain ⟨m, hrun, hcleared, _⟩ := hashCreate_cleared hpos hhash hbuckets (htable n) (harray n)
      (by omega) (by omega)
    obtain ⟨rfl, hrest⟩ := Prod.mk.inj (Except.ok.inj (hcreated.symm.trans hrun))
    obtain ⟨rfl, _⟩ := Prod.mk.inj hrest
    refine ⟨(reply, totalSize s.config.poolAlignment (counted (mulSize 8 capacity))), ?_, ?_, ?_⟩
    · simp [hblocks]
    · simp only [hcleared.array]
      omega
    · simp only [hcleared.array]
      omega
  · have hlarge : sizeModulus ≤ buckets + 8 * capacity := by
      unfold sizeMax at hfit
      omega
    have hrun := (hashCreate_faults hpos hhash hbuckets (htable n) (harray n) hserved.dvd
      hserved'.dvd (by omega) hlarge).symm.trans hcreated
    cases hrun

end System

/-! ### Every call -/

def InUse (s : State) (bs : List Block) : Prop := AtWork s bs ∨ SystemAtWork s

/-- What the C library promises of its replies in system mode. -/
def Replies (s : State) (tableReply reply : ℕ) : Request → Prop
  | .malloc _ => True
  | .realloc _ _ => True
  | .calloc nmemb size => s.config.useMemoryPool = false → reply = 0 ∨
      LibcBlock reply (totalSize s.config.poolAlignment (counted (mulSize nmemb size)))
  | .hashCreate capacity => s.config.useMemoryPool = false →
      (tableReply = 0 ∨ LibcBlock tableReply (totalSize s.config.poolAlignment tableSize)) ∧
      (reply = 0 ∨
        LibcBlock reply (totalSize s.config.poolAlignment (counted (mulSize 8 capacity)))) ∧
      (tableReply ≠ 0 → reply ≠ 0 → Apart s tableReply reply (mulSize 8 capacity))

section Every
variable {s : State} {bs : List Block} {tableReply reply : ℕ} {q : Request}

theorem sizesRight_pool (h : AtWork s bs) (hvalid : Valid bs q) :
    SizesRight s tableReply reply q ↔ SizesFit s bs reply q := by
  have hserv := h.inService
  have hmode := h.pool.pooled
  cases q with
  | malloc size =>
    simp only [SizesRight, SizesFit, HasRoom, hmode, if_true, true_implies]
    exact malloc_fits hserv reply hvalid
  | realloc ptr size =>
    obtain ⟨hsize, rfl | ⟨b, hb, hused, rfl⟩⟩ := hvalid
    · simp only [SizesRight, SizesFit, HasRoom, hmode, if_true, true_implies]
      exact realloc_null_fits hserv reply hsize
    · have hptr : b.payload ≠ 0 := by
        unfold Block.payload headerSize
        omega
      simp only [SizesRight, SizesFit, HasRoom, hmode, if_true, true_implies, if_neg hptr]
      rw [realloc_fits h hb hused reply hsize]
      unfold Recognised
      rw [Nat.not_lt]
  | calloc nmemb size =>
    simp only [SizesRight, SizesFit, HasRoom, hmode, if_true]
    exact calloc_fits hserv reply nmemb size
  | hashCreate capacity =>
    simp only [SizesRight, SizesFit, HasRoom, hmode, if_true, iff_true]
    intro s' hash hret
    exact hashCreate_fits hserv hret

theorem sizesRight_system (h : SystemAtWork s) (hreplies : Replies s tableReply reply q) :
    SizesRight s tableReply reply q ↔ SizesFit s bs reply q := by
  have hmode := h.ready.system
  cases q with
  | malloc size => simp [SizesRight, SizesFit, hmode]
  | realloc ptr size => simp [SizesRight, SizesFit, hmode]
  | calloc nmemb size =>
    simp only [SizesRight, SizesFit, HasRoom, hmode, Bool.false_eq_true, if_false]
    exact calloc_fits_system h (hreplies hmode)
  | hashCreate capacity =>
    obtain ⟨htable, harray, hapart⟩ := hreplies hmode
    simp only [SizesRight, SizesFit, HasRoom, hmode, Bool.false_eq_true, if_false, iff_true]
    intro s' hash hret
    exact hashCreate_fits_system h htable harray hapart hret

end Every

/-! ### The small pool -/

theorem smallPool_atWork : ∃ original, AtWork smallPool [⟨4096, 992, original, false⟩] := by
  obtain ⟨original, hserv⟩ := started_inService smallPool_started
  have hwhole : smallConfig.poolInitialSize - headerSize = 992 := by decide
  have hstart : smallPool.pool.poolStart = 4096 := rfl
  rw [hwhole, hstart] at hserv
  refine ⟨original, ⟨hserv.initialized, hserv.pooled, hserv.alignment, hserv.region, hserv.tiled,
    ?_⟩, hserv.aligned⟩
  intro blk hblk
  obtain rfl := List.mem_singleton.mp hblk
  intro hinside
  exact absurd hinside.1 (Nat.lt_irrefl _)

end Ppdb.SizeChecks
