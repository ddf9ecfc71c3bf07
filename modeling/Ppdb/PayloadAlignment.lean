import Ppdb.PoolRuns

/-!
Pointers under every alignment that `infra_memory_init` accepts. The payload
of the block chosen is rounded up to the alignment, while `infra_free` looks
for the header a fixed distance below the pointer. The two agree as long as
the block chosen starts one header below a multiple of the alignment.
-/

namespace Ppdb.PayloadAlignment

open ByteMemory SizeArithmetic BlockHeaders ErrorCodes PoolOperations TiledIntervals EventualResults
open PoolLayout BlockMerging BlockChoice PoolAllocation PoolRuns

/-- The pool that `infra_memory_init` has set up with a configuration that it
accepts. -/
structure Accepted (cfg : Config) (s : State) : Prop where
  pooled : cfg.useMemoryPool = true
  alignment_lt : cfg.poolAlignment < sizeModulus
  init : ∃ before reply, LibcBlock reply cfg.poolInitialSize ∧
    infraMemoryInit .ok reply before (some cfg) = (s, .ok)

/-- What the checks of `infra_memory_init` let through. -/
theorem not_poolRejected {cfg : Config} (hlt : cfg.poolAlignment < sizeModulus)
    (h : poolRejected cfg = false) :
    PowerOfTwo cfg.poolAlignment ∧ 8 ≤ cfg.poolAlignment ∧ minBlockSize ≤ cfg.poolInitialSize := by
  simp only [poolRejected, Bool.or_eq_false_iff, decide_eq_false_iff_not] at h
  obtain ⟨⟨⟨⟨_, hzero⟩, height⟩, hmask⟩, hsize⟩ := h
  exact ⟨powerOfTwo_of_mask hzero hlt (not_not.mp hmask), by omega, by omega⟩

/-- A successful `infra_memory_init` in pool mode has passed its checks and
initialised the pool. -/
theorem infraMemoryInit_pooled {before s : State} {cfg : Config} {reply : ℕ}
    (hpooled : cfg.useMemoryPool = true)
    (h : infraMemoryInit .ok reply before (some cfg) = (s, .ok)) :
    poolRejected cfg = false ∧ ∃ t, s = { t with initialized := true } ∧
      initializePool reply { resetMemoryState before with config := cfg } = some t := by
  unfold infraMemoryInit at h
  simp only [hpooled, Bool.true_and, if_true] at h
  by_cases hinit : before.initialized = true
  · simp [hinit] at h
  by_cases hreject : poolRejected cfg = true
  · simp [hinit, hreject] at h
  · simp only [hinit, hreject, Bool.false_eq_true, if_false, ne_eq, not_true_eq_false] at h
    refine ⟨by simpa using hreject, ?_⟩
    cases hpool : initializePool reply { resetMemoryState before with config := cfg } with
    | none => simp [hpool] at h
    | some t =>
      simp only [hpool, Prod.mk.injEq, and_true] at h
      exact ⟨t, h.symm, rfl⟩

theorem Accepted.working {cfg : Config} {s : State} (h : Accepted cfg s) :
    s.config = cfg ∧ PowerOfTwo cfg.poolAlignment ∧ ∃ original,
      Working s [⟨s.pool.poolStart, cfg.poolInitialSize - headerSize, original, false⟩] := by
  obtain ⟨before, reply, hlibc, hinit⟩ := h.init
  obtain ⟨hpassed, t, rfl, hpool⟩ := infraMemoryInit_pooled h.pooled hinit
  obtain ⟨hpower, _, hsize⟩ := not_poolRejected h.alignment_lt hpassed
  obtain ⟨hconfig, hstart, original, hworking⟩ := initializePool_working h.pooled hsize hlibc hpool
  exact ⟨hconfig, hpower, original, hstart ▸ hworking⟩

/-- A configuration accepted with one of the two alignments in use starts the
pool as the runs on such pools have it. -/
theorem Accepted.started {cfg : Config} {s : State} (h : Accepted cfg s)
    (ha : cfg.poolAlignment = 8 ∨ cfg.poolAlignment = 16) : Started cfg s := by
  obtain ⟨before, reply, hlibc, hinit⟩ := h.init
  obtain ⟨hpassed, t, hs, hpool⟩ := infraMemoryInit_pooled h.pooled hinit
  exact ⟨h.pooled, ha, (not_poolRejected h.alignment_lt hpassed).2.2, _, reply, t, rfl, hlibc,
    hpool, hs⟩

/-! ### The pointers -/

/-- The header found below an aligned pointer starts one header below a
multiple of the alignment. -/
theorem dvd_getBlockHeader {a ptr : ℕ} (ha : PowerOfTwo a) (h : a ∣ ptr) :
    a ∣ getBlockHeader ptr + headerSize := by
  have hmod := Nat.div_add_mod (ptr + (sizeModulus - headerSize)) sizeModulus
  have hle : headerSize ≤ sizeModulus := by decide
  have hsum : getBlockHeader ptr + headerSize +
      sizeModulus * ((ptr + (sizeModulus - headerSize)) / sizeModulus) = ptr + sizeModulus := by
    unfold getBlockHeader subSize
    omega
  have hdvd : a ∣ ptr + sizeModulus := Nat.dvd_add h ha.dvd_sizeModulus
  rw [← hsum] at hdvd
  exact (Nat.dvd_add_left (ha.dvd_sizeModulus.mul_right _)).mp hdvd

def lookedFor (s : State) (size : ℕ) : ℕ := requestSize (counted size) s.config.poolAlignment

/-- A block that `find_free_block` chooses for the request starts one header
below a multiple of the alignment. -/
def ChoosesAligned (s : State) (size : ℕ) : Prop :=
  ∀ block, Settles (fun fuel => findFreeBlock fuel s (lookedFor s size)) (.ok block) → block ≠ 0 →
    s.config.poolAlignment ∣ block + headerSize

/-- Requests for which an aligned block is chosen, and releases. -/
def ChosenAligned (s : State) : Call → Prop
  | .malloc size => ChoosesAligned s size
  | .free _ => True
  | .calloc _ _ => False
  | .realloc _ _ => False

/-- The pointer is aligned, the header below it is that of the block chosen,
and a request that does not wrap ends before that block does. -/
structure HandedOut (s s' : State) (size ptr : ℕ) : Prop where
  aligned : s.config.poolAlignment ∣ ptr
  chosen : Settles (fun fuel => findFreeBlock fuel s (lookedFor s size)) (.ok (getBlockHeader ptr))
  room : Unwrapped s size →
    ptr + size ≤ getBlockHeader ptr + headerSize + getSize s'.bytes (getBlockHeader ptr)

/-- The block below the pointer is no longer used; the other used blocks are,
with their headers and payloads as they were. -/
structure ReleasesOnly (s s' : State) (ptr : ℕ) (pre post after : List Block) (b : Block) : Prop where
  tiled : Tiled s (pre ++ b :: post)
  tiled_after : Tiled s' after
  header : getBlockHeader ptr = b.addr
  used : b.isUsed = true
  others : after.filter Block.isUsed = (pre ++ post).filter Block.isUsed
  kept : KeepsUsed s.bytes s'.bytes (pre ++ post)

/-- The invariant: the live pointers are the aligned payloads of the used
blocks. -/
structure Placed (s : State) (live : Live) (bs : List Block) : Prop where
  working : Working s bs
  power : PowerOfTwo s.config.poolAlignment
  owned : Owned s.config.poolAlignment bs live
  aligned : ∀ x ∈ live, s.config.poolAlignment ∣ x.1

section Step
variable {s : State} {live : Live} {bs : List Block}

theorem Working.settles (h : Working s bs) (size : ℕ) :
    Settles (fun fuel => findFreeBlock fuel s size) (.ok (addrOf (bestFit size bs))) :=
  ⟨bs.length + 1, fun fuel hfuel => h.findFreeBlock size fuel hfuel⟩

/-- A block with an aligned payload is edited exactly. -/
theorem exact_of_dvd (h : Working s bs) (hpower : PowerOfTwo s.config.poolAlignment) {b : Block}
    (hb : b ∈ bs) (hdvd : s.config.poolAlignment ∣ b.payload) {size : ℕ} (hsize : size < sizeModulus)
    (hroom : lookedFor s size ≤ b.size) : Exact s b (lookedFor s size) (counted size) := by
  have hbounds := h.tiled.bounds hb
  have hend := h.region.in_space
  have hdvd' : s.config.poolAlignment ∣ b.addr + headerSize + lookedFor s size :=
    Nat.dvd_add hdvd (hpower.dvd_alignSize _)
  exact ⟨hpower.alignSize_of_dvd (by unfold Block.payload at hdvd; omega) hdvd,
    hpower.alignSize_of_dvd (by omega) hdvd', hroom, h.tiled.size_lt h.region hb, by omega,
    counted_lt hsize⟩

/-- The best fit of an aligned choice is edited exactly. -/
theorem Placed.exact (h : Placed s live bs) {size : ℕ} (hsize : size < sizeModulus)
    (hchoice : ChoosesAligned s size) {b : Block} (hbest : bestFit (lookedFor s size) bs = some b) :
    s.config.poolAlignment ∣ b.payload ∧ Exact s b (lookedFor s size) (counted size) := by
  obtain ⟨hmem, _, hroom⟩ := bestFit_mem hbest
  have hfind := Working.settles h.working (lookedFor s size)
  rw [hbest] at hfind
  have hdvd := hchoice b.addr hfind (h.working.tiled.addr_ne_zero hmem)
  exact ⟨hdvd, exact_of_dvd h.working h.power hmem hdvd hsize hroom⟩

theorem Placed.covers (h : Placed s live bs) {size : ℕ} (hfit : Unwrapped s size) :
    size ≤ lookedFor s size := by
  by_cases hzero : size = 0
  · omega
  · have hcount : counted size = size := if_neg hzero
    unfold lookedFor
    rw [hcount]
    exact le_requestSize h.power hfit

theorem Placed.getBlockHeader (h : Placed s live bs) {b : Block} (hb : b ∈ bs) :
    getBlockHeader b.payload = b.addr := h.working.getBlockHeader_payload hb

/-- `infra_malloc` with an aligned choice. -/
theorem Placed.malloc (h : Placed s live bs) (reply : ℕ) {size : ℕ} (hsize : size < sizeModulus)
    (hchoice : ChoosesAligned s size) :
    ∃ s' ptr bs', Settles (fun fuel => infraMalloc fuel reply s size) (.ok (s', ptr)) ∧
      Placed s' (record live ptr size) bs' ∧ (ptr ≠ 0 → HandedOut s s' size ptr) := by
  obtain ⟨s', ptr, hrun, hserves⟩ := h.working.infraMalloc_serves reply size
    fun b hbest => (h.exact hsize hchoice hbest).2
  rcases hserves with ⟨rfl, rfl, _⟩ |
    ⟨pre, b, post, garbage, rfl, hbest, rfl, hsame, hworking, _, _⟩
  · exact ⟨s', 0, bs, ⟨bs.length + 1, fun fuel hfuel => hrun fuel hfuel⟩, h, fun hne => absurd rfl hne⟩
  obtain ⟨hmem, hfree, hroom⟩ := bestFit_mem hbest
  obtain ⟨hdvd, _⟩ := h.exact hsize hchoice hbest
  have hheader := h.getBlockHeader hmem
  have hne : b.payload ≠ 0 := by
    unfold Block.payload headerSize
    omega
  have hfind := Working.settles h.working (lookedFor s size)
  have hbest' : bestFit (lookedFor s size) (pre ++ b :: post) = some b := hbest
  rw [hbest'] at hfind
  have hown := h.owned.served hfree hroom h.covers hworking.tiled.tiles
  refine ⟨s', b.payload, pre ++ served b (lookedFor s size) (counted size) garbage ++ post,
    ⟨_, fun fuel hfuel => hrun fuel hfuel⟩, ?_, fun _ => ⟨hdvd, ?_, ?_⟩⟩
  · rw [record_of_ne hne]
    refine ⟨hworking, hsame.config ▸ h.power, hsame.config ▸ hown, ?_⟩
    intro x hx
    rw [hsame.config]
    rcases List.mem_cons.mp hx with rfl | hx
    · exact hdvd
    · exact h.aligned x hx
  · rw [hheader]
    exact hfind
  · intro hfit
    obtain ⟨u, rest, heq, haddr, _, _, huroom, _⟩ := served_cases b
      (requestSize (counted size) s.config.poolAlignment) (counted size) garbage hroom
    have hsizes : getSize s'.bytes b.addr = u.size := by
      rw [← haddr]
      exact hworking.tiled.listed.getSize_eq (by simp [heq])
    have hcovers := h.covers hfit
    unfold lookedFor at hcovers
    rw [hheader, hsizes]
    unfold Block.payload
    omega

/-- `infra_free` of a live pointer. -/
theorem Placed.free (h : Placed s live bs) {ptr : ℕ} (hptr : ptr ∈ live.map Prod.fst) :
    ∃ s' pre b post after, Settles (fun fuel => infraFree fuel s ptr) (.ok s') ∧
      Placed s' (forget live ptr) after ∧ ReleasesOnly s s' ptr pre post after b := by
  obtain ⟨b, hb, hused, rfl⟩ := h.owned.owner hptr
  have hheader := h.getBlockHeader hb
  obtain ⟨pre, post, rfl⟩ := List.append_of_mem hb
  obtain ⟨s', hrun, hsame, hworking, hkeep⟩ := h.working.infraFree_spec hused
  refine ⟨s', pre, b, post, _, ⟨_, hrun⟩, ⟨hworking, hsame.config ▸ h.power,
    hsame.config ▸ h.owned.freed h.working.tiled.tiles hused, ?_⟩,
    h.working.tiled, hworking.tiled, hheader, hused, filter_used_freed pre b post, hkeep⟩
  intro x hx
  rw [hsame.config]
  exact h.aligned x (List.mem_filter.mp hx).1

/-- A store into a live payload. -/
theorem Placed.store (h : Placed s live bs) {ptr size off : ℕ} (hlive : (ptr, size) ∈ live)
    (hfit : Unwrapped s size) (hoff : off < size) (v : UInt8) :
    Placed { s with bytes := writeByte s.bytes (ptr + off) v } live bs := by
  obtain ⟨b, hb, hused, hpay⟩ := h.owned.owner (List.mem_map_of_mem (f := Prod.fst) hlive)
  have hroom := h.owned.room _ hlive hfit b hb hused hpay
  have hdiff : DiffersWithin s.bytes (writeByte s.bytes (ptr + off) v) b.payload b.stop := by
    refine (writeByte_differs s.bytes (ptr + off) v).mono ?_ ?_
    · simp only [hpay]
      omega
    · unfold Block.stop
      unfold Block.payload at hpay
      simp only at hpay hroom
      omega
  exact ⟨h.working.writePayload hb hdiff, h.power, h.owned, h.aligned⟩

end Step

/-! ### Runs -/

theorem run_placed {cfg : Config} {s : State} {live : Live}
    (h : Run (Accepted cfg) ChosenAligned s live) : ∃ bs, Placed s live bs := by
  induction h with
  | start hs =>
    obtain ⟨hconfig, hpower, original, hworking⟩ := hs.working
    exact ⟨_, hworking, hconfig ▸ hpower, ⟨by simp, by simp⟩, by simp⟩
  | @call s s' live c ptr reply _ hadm hok hret ih =>
    obtain ⟨bs, hplaced⟩ := ih
    cases c with
    | malloc size =>
      obtain ⟨t, ptr', bs', hret', hplaced', _⟩ := hplaced.malloc reply hadm hok
      obtain ⟨rfl, rfl⟩ := Prod.mk.inj (Except.ok.inj (hret.unique hret'))
      exact ⟨bs', hplaced'⟩
    | calloc _ _ => exact hok.elim
    | realloc _ _ => exact hok.elim
    | free old =>
      obtain ⟨t, _, _, _, after, hret', hplaced', _⟩ := hplaced.free hadm
      have hcall : Settles (fun fuel => perform fuel reply s (.free old)) (.ok (t, 0)) :=
        hret'.bind (settles_const (Except.ok (t, 0)))
      obtain ⟨rfl, _⟩ := Prod.mk.inj (Except.ok.inj (hret.unique hcall))
      exact ⟨after, hplaced'⟩
  | store _ hlive hfit hoff v ih =>
    obtain ⟨bs, hplaced⟩ := ih
    exact ⟨bs, hplaced.store hlive hfit hoff v⟩

/-- What holds of the pointers in a state: the live ones are aligned payloads
of used blocks that hold the bytes asked for; a request is served rightly when
the choice is aligned, and only then; a live pointer releases its block. -/
structure PointersRight (s : State) (live : Live) : Prop where
  placed : ∃ bs, Tiled s bs ∧ ∀ x ∈ live, s.config.poolAlignment ∣ x.1 ∧
    ∃ b ∈ bs, b.isUsed = true ∧ getBlockHeader x.1 = b.addr ∧
      (Unwrapped s x.2 → x.1 + x.2 ≤ b.stop)
  served : ∀ reply size, size < sizeModulus → ChoosesAligned s size →
    ∃ s' ptr, Settles (fun fuel => infraMalloc fuel reply s size) (.ok (s', ptr)) ∧
      (ptr ≠ 0 → HandedOut s s' size ptr)
  only : ∀ s' size ptr, HandedOut s s' size ptr → ChoosesAligned s size
  released : ∀ ptr ∈ live.map Prod.fst, ∃ s' pre b post after,
    Settles (fun fuel => infraFree fuel s ptr) (.ok s') ∧ ReleasesOnly s s' ptr pre post after b

/-- In every run of `infra_malloc` and `infra_free` on live pointers whose
requests find an aligned block, every pointer is right. -/
theorem pointers_right {cfg : Config} {s : State} {live : Live}
    (h : Run (Accepted cfg) ChosenAligned s live) : PointersRight s live := by
  obtain ⟨bs, hplaced⟩ := run_placed h
  constructor
  · refine ⟨bs, hplaced.working.tiled, ?_⟩
    intro x hx
    obtain ⟨b, hb, hused, hpay⟩ := hplaced.owned.owner (List.mem_map_of_mem (f := Prod.fst) hx)
    refine ⟨hplaced.aligned x hx, b, hb, hused, ?_, ?_⟩
    · rw [← hpay]
      exact hplaced.getBlockHeader hb
    · intro hfit
      have hroom := hplaced.owned.room x hx hfit b hb hused hpay
      unfold Block.payload at hpay
      unfold Block.stop
      omega
  · intro reply size hsize hchoice
    obtain ⟨s', ptr, _, hret, _, hhanded⟩ := hplaced.malloc reply hsize hchoice
    exact ⟨s', ptr, hret, hhanded⟩
  · intro s' size ptr hhanded block hfind _
    have hblock : block = getBlockHeader ptr := Except.ok.inj (hfind.unique hhanded.chosen)
    rw [hblock]
    exact dvd_getBlockHeader hplaced.power hhanded.aligned
  · intro ptr hptr
    obtain ⟨s', pre, b, post, after, hret, _, hreleases⟩ := hplaced.free hptr
    exact ⟨s', pre, b, post, after, hret, hreleases⟩

/-- Among blocks that all start one header below a multiple of the alignment
every choice is aligned. -/
theorem choosesAligned_of_headers {s : State} {bs : List Block} (h : Working s bs)
    (hheaders : ∀ b ∈ bs, s.config.poolAlignment ∣ b.addr + headerSize) (size : ℕ) :
    ChoosesAligned s size := by
  intro block hfind hne
  have haddr : block = addrOf (bestFit (lookedFor s size) bs) :=
    Except.ok.inj (hfind.unique (Working.settles h (lookedFor s size)))
  cases hbest : bestFit (lookedFor s size) bs with
  | none =>
    rw [hbest] at haddr
    exact absurd haddr hne
  | some b =>
    rw [haddr, hbest]
    exact hheaders b (bestFit_mem hbest).1

theorem choosesAligned_of_inService {s : State} {bs : List Block} (h : InService s bs) (size : ℕ) :
    ChoosesAligned s size := by
  refine choosesAligned_of_headers h.working (fun b hb => ?_) size
  have hdvd := h.aligned b hb
  unfold headerSize
  rcases h.alignment with ha | ha <;> rw [ha] at hdvd ⊢ <;> omega

def MallocOrFree (_ : State) : Call → Prop
  | .malloc _ => True
  | .free _ => True
  | .calloc _ _ => False
  | .realloc _ _ => False

/-- With the alignments 8 and 16 every run of the two meets the condition. -/
theorem run_chosenAligned {cfg : Config} (ha : cfg.poolAlignment = 8 ∨ cfg.poolAlignment = 16)
    {s : State} {live : Live} (h : Run (Accepted cfg) MallocOrFree s live) :
    Run (Accepted cfg) ChosenAligned s live := by
  induction h with
  | start hs => exact .start hs
  | @call s s' live c ptr reply hrun hadm hok hret ih =>
    refine .call ih hadm ?_ hret
    have hrounds : Run (Started cfg) Rounds s live := by
      refine hrun.mono (fun _ hs => hs.started ha) fun _ c hc => ?_
      cases c with
      | malloc | free => trivial
      | calloc | realloc => exact hc.elim
    obtain ⟨k, hkept, _⟩ := run_books hrounds
    cases c with
    | malloc size => exact choosesAligned_of_inService hkept.serving size
    | free => trivial
    | calloc | realloc => exact hok.elim
  | store _ hlive hsize hoff v ih => exact .store ih hlive hsize hoff v

/-! ### A pool of 1024 bytes at address 4096 -/

def blank : State := ⟨false, ⟨false, 0, 0⟩, Stats.zero, ⟨0, 0, 0, 0, 0⟩, fun _ => 0, []⟩

def poolAt (align : ℕ) : State := (infraMemoryInit .ok 4096 blank (some ⟨true, 1024, align⟩)).1

theorem poolAt_accepted {align : ℕ} (hlt : align < sizeModulus)
    (hok : (infraMemoryInit .ok 4096 blank (some ⟨true, 1024, align⟩)).2 = .ok) :
    Accepted ⟨true, 1024, align⟩ (poolAt align) := by
  have hlibc : LibcBlock 4096 1024 := ⟨by decide, by decide, by decide, by decide⟩
  have hpair : ∀ {r : State × ErrorCode}, r.2 = .ok → r = (r.1, .ok) := fun h => Prod.ext rfl h
  exact ⟨rfl, hlt, blank, 4096, hlibc, hpair hok⟩

theorem takeBestFit_pointer (s : State) (block alignedSize size : ℕ) :
    (takeBestFit s block alignedSize size).2 =
      alignSize (block + headerSize) s.config.poolAlignment := by
  by_cases hsplit : addSize (addSize alignedSize headerSize) minBlockSize < getSize s.bytes block
  · simp only [takeBestFit, if_pos hsplit]
  · simp only [takeBestFit, if_neg hsplit]

/-- The pointer is the payload of the best fit, rounded up. -/
theorem infraMalloc_pointer {s : State} {bs : List Block} (h : Working s bs) (reply : ℕ) {size : ℕ}
    {b : Block} (hbest : bestFit (lookedFor s size) bs = some b)
    (hne : alignSize b.payload s.config.poolAlignment ≠ 0) :
    ∃ s', Settles (fun fuel => infraMalloc fuel reply s size)
      (.ok (s', alignSize b.payload s.config.poolAlignment)) := by
  have hbest' : bestFit (requestSize (counted size) s.config.poolAlignment) bs = some b := hbest
  have haddr : b.addr ≠ 0 := h.tiled.addr_ne_zero (bestFit_mem hbest).1
  obtain ⟨taken, htaken⟩ : ∃ taken, taken = takeBestFit s b.addr
    (requestSize (counted size) s.config.poolAlignment) (counted size) := ⟨_, rfl⟩
  have hpointer : taken.2 = alignSize b.payload s.config.poolAlignment := by
    rw [htaken, takeBestFit_pointer]
    rfl
  have hrun : ∀ fuel, bs.length < fuel → infraMalloc fuel reply s size =
      .ok ({ taken.1 with stats := noteAllocation taken.1.stats },
        alignSize b.payload s.config.poolAlignment) := by
    intro fuel hfuel
    rw [infraMalloc_eq h, allocatePooled_eq, h.findFreeBlock _ fuel hfuel, hbest']
    simp only [addrOf, ok_bind, if_neg haddr, ← htaken, hpointer, ne_eq, hne, not_false_eq_true,
      if_true]
  exact ⟨_, bs.length + 1, hrun⟩

/-- In the pool just set up every request that fits is served from the whole. -/
theorem fresh_best {cfg : Config} {s : State} (h : Accepted cfg s) {size : ℕ}
    (hroom : requestSize (counted size) cfg.poolAlignment ≤ cfg.poolInitialSize - headerSize) :
    ∃ b, Working s [b] ∧ b.addr = s.pool.poolStart ∧
      bestFit (lookedFor s size) [b] = some b := by
  obtain ⟨hconfig, _, original, hworking⟩ := h.working
  refine ⟨_, hworking, rfl, bestFit_singleton rfl ?_⟩
  unfold lookedFor
  rwa [hconfig]

/-- Two requests in a pool with alignment 32, the first one given back. -/
theorem pointers_right_32 : ∃ s,
    Leads (poolAt 32) [(.malloc 100, 4128), (.malloc 40, 4320), (.free 4128, 0)] s ∧
    Run (Accepted ⟨true, 1024, 32⟩) ChosenAligned s [(4320, 40)] ∧
    PointersRight s [(4320, 40)] := by
  have haccepted : Accepted ⟨true, 1024, 32⟩ (poolAt 32) := poolAt_accepted (by decide) (by decide)
  have halign : (poolAt 32).config.poolAlignment = 32 := by decide
  have hstart : (poolAt 32).pool.poolStart = 4096 := by decide
  have hpower : PowerOfTwo 32 := ⟨5, by omega, rfl⟩
  have hreq : requestSize (counted 100) 32 = 160 := by decide
  have hreq' : requestSize (counted 40) 32 = 96 := by decide
  obtain ⟨_, _, original, hwhole⟩ := haccepted.working
  rw [hstart] at hwhole
  have hworking : Working (poolAt 32) ([] ++ [⟨4096, 992, original, false⟩]) := hwhole
  have hexact := exact_of_dvd hworking (halign ▸ hpower) List.mem_cons_self
    (by rw [halign]; exact (by decide : 32 ∣ 4128)) (by decide : 100 < sizeModulus)
    (by rw [lookedFor, halign, hreq]; exact (by decide : 160 ≤ 992))
  obtain ⟨s, garbage, hret, hworking', hsame, _⟩ := serves_last_of_exact hworking (by simp) rfl
    hexact (by rw [halign, hreq]; exact (by decide : 160 + 2 * headerSize < 992))
  have hblocks : cutLast [] ⟨4096, 992, original, false⟩ 160 (counted 100) garbage =
      [⟨4096, 160, 100, true⟩, ⟨4288, 800, garbage, false⟩] := by
    simp [cutLast, counted, headerSize]
  rw [halign, hreq, hblocks] at hworking'
  have halign' : s.config.poolAlignment = 32 :=
    (congrArg Config.poolAlignment hsame.config).trans halign
  have hworking₁ : Working s ([⟨4096, 160, 100, true⟩] ++ [⟨4288, 800, garbage, false⟩]) := hworking'
  have hexact' := exact_of_dvd hworking₁ (halign'.symm ▸ hpower) (List.mem_cons_of_mem _ List.mem_cons_self)
    (by rw [halign']; exact (by decide : 32 ∣ 4320)) (by decide : 40 < sizeModulus)
    (by rw [lookedFor, halign', hreq']; exact (by decide : 96 ≤ 800))
  obtain ⟨t, _, hret', _⟩ := serves_last_of_exact hworking₁ (by simp) rfl
    hexact' (by rw [halign', hreq']; exact (by decide : 96 + 2 * headerSize < 800))
  have hfirst : Settles (fun fuel => perform fuel 0 (poolAt 32) (.malloc 100)) (.ok (s, 4128)) :=
    ⟨2, fun fuel hfuel => hret fuel hfuel⟩
  have hsecond : Settles (fun fuel => perform fuel 0 s (.malloc 40)) (.ok (t, 4320)) := ⟨3, hret'⟩
  have hrun : Run (Accepted ⟨true, 1024, 32⟩) ChosenAligned t [(4320, 40), (4128, 100)] := by
    refine Run.call (c := .malloc 40) (Run.call (c := .malloc 100) (Run.start haccepted)
      (by decide : 100 < sizeModulus) ?_ hfirst) (by decide : 40 < sizeModulus) ?_ hsecond
    · refine choosesAligned_of_headers hworking (fun b hb => ?_) 100
      rw [List.mem_singleton.mp hb, halign]
      exact (by decide : 32 ∣ 4096 + headerSize)
    · refine choosesAligned_of_headers hworking₁ (fun b hb => ?_) 40
      rw [halign']
      rcases List.mem_cons.mp hb with rfl | hb
      · exact (by decide : 32 ∣ 4096 + headerSize)
      · rw [List.mem_singleton.mp hb]
        exact (by decide : 32 ∣ 4288 + headerSize)
  obtain ⟨_, hplaced⟩ := run_placed hrun
  obtain ⟨u, _, _, _, _, hfree, _⟩ := hplaced.free (by decide : 4128 ∈ [4320, 4128])
  have hthird : Settles (fun fuel => perform fuel 0 t (.free 4128)) (.ok (u, 0)) :=
    hfree.bind (settles_const (Except.ok (u, 0)))
  have hfreed : Run (Accepted ⟨true, 1024, 32⟩) ChosenAligned u [(4320, 40)] :=
    Run.call (c := .free 4128) hrun (by decide : 4128 ∈ [4320, 4128]) trivial hthird
  exact ⟨u, ⟨s, hfirst, t, hsecond, u, hthird, rfl⟩, hfreed, pointers_right hfreed⟩

/-- With alignment 64 the first pointer is 32 bytes further than the payload of
the block chosen, and the header below it is not that of the block. -/
theorem header_missed : ∃ s, Accepted ⟨true, 1024, 64⟩ (poolAt 64) ∧
    Settles (fun fuel => infraMalloc fuel 0 (poolAt 64) 100) (.ok (s, 4160)) ∧
    Settles (fun fuel => findFreeBlock fuel (poolAt 64) (lookedFor (poolAt 64) 100)) (.ok 4096) ∧
    getBlockHeader 4160 = 4128 ∧ ¬ HandedOut (poolAt 64) s 100 4160 := by
  have haccepted : Accepted ⟨true, 1024, 64⟩ (poolAt 64) := poolAt_accepted (by decide) (by decide)
  have hstart : (poolAt 64).pool.poolStart = 4096 := by decide
  have halign : (poolAt 64).config.poolAlignment = 64 := by decide
  have hheader : getBlockHeader 4160 = 4128 := by decide
  obtain ⟨b, hworking, haddr, hbest⟩ := fresh_best haccepted (by decide : requestSize (counted 100) 64 ≤ 992)
  rw [hstart] at haddr
  have hpayload : b.payload = 4128 := by
    unfold Block.payload
    rw [haddr]
    rfl
  have hrounded : alignSize b.payload (poolAt 64).config.poolAlignment = 4160 := by
    rw [hpayload, halign]
    decide
  obtain ⟨s, hret⟩ := infraMalloc_pointer hworking 0 hbest (by omega)
  rw [hrounded] at hret
  have hfind := Working.settles hworking (lookedFor (poolAt 64) 100)
  rw [hbest, addrOf, haddr] at hfind
  refine ⟨s, haccepted, hret, hfind, hheader, fun hhanded => ?_⟩
  have hchosen := Except.ok.inj (hfind.unique hhanded.chosen)
  rw [hheader] at hchosen
  omega

end Ppdb.PayloadAlignment
