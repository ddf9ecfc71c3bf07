import Ppdb.PoolRuns
import Ppdb.PoolGrowth
import Ppdb.PoolReallocation

/-!
The two counters of the pool against what they count. `used_size` follows the
sizes of the used blocks as long as no block is handed out whole with room to
spare; `current_usage` follows the sizes last requested as long as no request
is resized and their sum fits a `size_t`.
-/

namespace Ppdb.PoolUsage

open ByteMemory SizeArithmetic BlockHeaders PoolOperations TiledIntervals EventualResults
open PoolLayout BlockMerging BlockChoice PoolAllocation PoolRuns PoolGrowth PoolReallocation

/-! ### Sums over the used blocks -/

def usedSum (f : Block → ℕ) (bs : List Block) : ℕ := ((bs.filter Block.isUsed).map f).sum

def servedBlock (b : Block) (req size : ℕ) : Block :=
  ⟨b.addr, if req + 2 * headerSize < b.size then req else b.size, size, true⟩

@[simp] theorem servedBlock_originalSize (b : Block) (req size : ℕ) :
    (servedBlock b req size).originalSize = size := rfl

@[simp] theorem servedBlock_payload (b : Block) (req size : ℕ) :
    (servedBlock b req size).payload = b.payload := rfl

section Sums
variable (f : Block → ℕ) (pre post : List Block) {bs : List Block} {b : Block}

theorem filter_used_served (req size garbage : ℕ) :
    (pre ++ served b req size garbage ++ post).filter Block.isUsed =
      pre.filter Block.isUsed ++ servedBlock b req size :: post.filter Block.isUsed := by
  unfold served servedBlock
  split <;> simp [List.filter_append]

theorem usedSum_served (hfree : b.isUsed = false) (req size garbage : ℕ) :
    usedSum f (pre ++ served b req size garbage ++ post) =
      usedSum f (pre ++ b :: post) + f (servedBlock b req size) := by
  unfold usedSum
  rw [filter_used_served pre post]
  simp only [List.filter_append, List.filter_cons, hfree, List.map_append, List.map_cons,
    List.sum_append, List.sum_cons, Bool.false_eq_true, if_false]
  omega

theorem usedSum_freed (hused : b.isUsed = true) :
    usedSum f (freed pre b post) + f b = usedSum f (pre ++ b :: post) := by
  unfold usedSum
  rw [filter_used_freed]
  simp only [List.filter_append, List.filter_cons, hused, if_true, List.map_append, List.map_cons,
    List.sum_append, List.sum_cons]
  omega

/-- The used blocks of a tiling fit the stretch it tiles. -/
theorem usedSum_size_le {lo hi : ℕ} (h : BlockTiles lo hi bs) :
    lo + usedSum Block.size bs ≤ hi := by
  induction bs generalizing lo with
  | nil => exact Nat.le_of_eq h
  | cons b bs ih =>
    obtain ⟨hstart, hrest⟩ := h
    have hle := ih hrest
    unfold Block.stop at hle
    have hsum : usedSum Block.size (b :: bs) ≤ b.size + usedSum Block.size bs := by
      unfold usedSum
      cases hused : b.isUsed <;> simp [hused]
    omega

end Sums

/-! ### The used size -/

/-- The best fit for the request is as large as the request looks for, or is
cut. -/
def CutsOrFits (s : State) (size : ℕ) : Prop :=
  ∀ bs b, Listed s.bytes s.pool.freeList bs →
    bestFit (requestSize (counted size) s.config.poolAlignment) bs = some b →
    b.size = requestSize (counted size) s.config.poolAlignment ∨
      requestSize (counted size) s.config.poolAlignment + 2 * headerSize < b.size

/-- Calls whose products do not wrap when rounded, and whose requests are
served without a surplus. -/
def Charged (s : State) (c : Call) : Prop := Rounds s c ∧ ∀ size, Requests c size → CutsOrFits s size

/-- Edits of the books keep the used size exact. -/
theorem edit_used {s s' : State} {k k' : Books} {c : Call} (hok : Charged s c) (h : Kept s k)
    (h' : Kept s' k') (hedit : Edit s.config.poolAlignment c k k')
    (hused : k.used = usedSum Block.size k.blocks) : k'.used = usedSum Block.size k'.blocks := by
  cases hedit with
  | idle => exact hused
  | @serve pre post b garbage size used current live hrequest hbest =>
    obtain ⟨_, hfree, _⟩ := bestFit_mem hbest
    have hsize : (servedBlock b (requestSize (counted size) s.config.poolAlignment)
        (counted size)).size = requestSize (counted size) s.config.poolAlignment := by
      rcases hok.2 size hrequest _ b h.serving.tiled.listed hbest with hfits | hcut
      · unfold servedBlock
        rw [hfits, ite_self]
      · exact if_pos hcut
    have hsum := usedSum_served Block.size pre post hfree
      (requestSize (counted size) s.config.poolAlignment) (counted size) garbage
    have hle := usedSum_size_le h'.serving.tiled.tiles
    have hend := h'.serving.region.in_space
    simp only at hused hle ⊢
    rw [hsum, hsize] at hle ⊢
    rw [hused, addSize_of_lt (by omega)]
  | @release pre post b used current live _ hb =>
    have hsum := usedSum_freed Block.size pre post hb
    have hle := usedSum_size_le h.serving.tiled.tiles
    have hend := h.serving.region.in_space
    simp only at hused hle ⊢
    rw [hused, subSize_of_le (by omega) (by omega)]
    omega

/-- The utilization reported is the share of `used_size`, in percent. -/
theorem stats_utilization {s : State} (hinit : s.initialized = true)
    (hpooled : s.config.useMemoryPool = true) (hpos : 0 < s.pool.poolSize) :
    ∃ st, infraMemoryGetStats s = some st ∧
      st.poolUtilization = mulSize s.pool.usedSize 100 / s.pool.poolSize := by
  refine ⟨_, (if_neg ?_).trans (if_pos ?_), rfl⟩
  · simp [hinit]
  · simp [hpooled, hpos]

/-- In every run without `infra_realloc` whose requests are served without a
surplus, `used_size` is the sum of the sizes of the used blocks. -/
theorem used_size_exact {cfg : Config} {s : State} {live : Live}
    (h : Run (Started cfg) Charged s live) :
    (∃ bs, PoolLayout s live bs ∧ s.pool.usedSize = usedSum Block.size bs) ∧
      s.pool.usedSize ≤ s.pool.poolSize ∧
      (∃ st, infraMemoryGetStats s = some st ∧ st.poolUtilization ≤ 100) ∧
      (live = [] → s.pool.usedSize = 0) := by
  obtain ⟨_, k, _, _, hkept, rfl, hused⟩ := run_kept (I := fun k => k.used = usedSum Block.size k.blocks)
    (fun _ _ _ reply hkept hadm hok => rounds_edits hkept reply hadm hok.1)
    (fun b hfree => by simp [usedSum, hfree])
    (fun _ _ _ _ _ hok hkept hkept' _ hedit => edit_used hok hkept hkept' hedit) h
  obtain ⟨bs, hlayout⟩ := hkept.inv.layout
  have hbs : bs = k.blocks := hlayout.tiled.unique hkept.serving.tiled
  have hexact : s.pool.usedSize = usedSum Block.size k.blocks := hkept.used.trans hused
  have htiles := usedSum_size_le hkept.serving.tiled.tiles
  have hle : s.pool.usedSize ≤ s.pool.poolSize := by omega
  refine ⟨⟨bs, hlayout, hbs ▸ hexact⟩, hle, ?_, ?_⟩
  · have hpos : 0 < s.pool.poolSize := by
      obtain ⟨b, hb⟩ := List.exists_mem_of_ne_nil _ hkept.nonempty
      have hbounds := hkept.serving.tiled.bounds hb
      unfold headerSize at hbounds
      omega
    obtain ⟨st, hstats, hutilization⟩ :=
      stats_utilization hkept.serving.initialized hkept.serving.pooled hpos
    have hmod : mulSize s.pool.usedSize 100 ≤ s.pool.usedSize * 100 := Nat.mod_le _ _
    refine ⟨st, hstats, ?_⟩
    rw [hutilization]
    exact Nat.div_le_of_le_mul (by omega)
  · intro hlive
    have howners := hkept.owned.owners
    rw [hlive, List.map_nil] at howners
    rw [hexact, usedSum, List.map_eq_nil_iff.mp howners.nil_eq.symm]
    rfl

/-- Requests that leave room behind them in the one free block are served
without a surplus. -/
theorem cutsOrFits_last {s : State} {pre : List Block} {b : Block} (h : InService s (pre ++ [b]))
    (hpre : ∀ c ∈ pre, c.isUsed = true) {size : ℕ}
    (hcut : requestSize (counted size) s.config.poolAlignment + 2 * headerSize < b.size) :
    CutsOrFits s size := by
  intro bs c hlist hbest
  obtain ⟨hmem, hfree, _⟩ := bestFit_mem hbest
  rw [hlist.unique h.tiled.listed] at hmem
  rcases List.mem_append.mp hmem with hc | hc
  · rw [hpre c hc] at hfree
    cases hfree
  · rw [List.mem_singleton.mp hc]
    exact Or.inr hcut

theorem twice_charged {s t : State} (h : ServedTwice s t) :
    Charged smallPool (.malloc 100) ∧ Charged s (.calloc 2 20) := by
  constructor
  · refine ⟨trivial, ?_⟩
    rintro size rfl
    obtain ⟨original, hserv⟩ := started_inService smallPool_started
    have hlast : InService smallPool ([] ++ [⟨4096, 992, original, false⟩]) := hserv
    exact cutsOrFits_last hlast (by simp)
      (by decide : requestSize (counted 100) 8 + 2 * headerSize < 992)
  · refine ⟨h.rounds, ?_⟩
    rintro size ⟨_, _, rfl⟩
    obtain ⟨garbage, hserv⟩ := h.blocks
    have halign : s.config.poolAlignment = 8 := congrArg Config.poolAlignment h.same.config
    have hserv' : InService s ([⟨4096, 112, 100, true⟩] ++ [⟨4240, 848, garbage, false⟩]) := hserv
    have hcut : requestSize (counted (mulSize 2 20)) s.config.poolAlignment + 2 * headerSize < 848 := by
      rw [halign]
      decide
    exact cutsOrFits_last hserv' (by simp) hcut

/-- The counter after two requests, the first one given back. -/
theorem used_size_exact_small : ∃ s bs,
    Leads smallPool [(.malloc 100, 4128), (.calloc 2 20, 4272), (.free 4128, 0)] s ∧
    Run (Started smallConfig) Charged s [(4272, 40)] ∧
    PoolLayout s [(4272, 40)] bs ∧ s.pool.usedSize = usedSum Block.size bs := by
  obtain ⟨s, t, h⟩ := smallPool_twice
  have hrun : Run (Started smallConfig) Charged t [(4272, 40), (4128, 100)] :=
    h.run (twice_charged h).1 (twice_charged h).2
  obtain ⟨k, hkept, hlive⟩ := run_books (h.run trivial h.rounds)
  obtain ⟨u, hfree⟩ := free_returns hkept 0 (by rw [hlive]; decide : 4128 ∈ k.live.map Prod.fst)
  have hfreed : Run (Started smallConfig) Charged u [(4272, 40)] :=
    Run.call (c := .free 4128) hrun (by decide : 4128 ∈ [4272, 4128])
      ⟨trivial, fun _ hrequest => hrequest.elim⟩ hfree
  obtain ⟨⟨bs, hlayout, hused⟩, _⟩ := used_size_exact hfreed
  exact ⟨u, bs, h.leads ⟨u, hfree, rfl⟩, hfreed, hlayout, hused⟩

/-- A request for 928 bytes gets the whole pool of 992, and gives back 56 bytes
more than were booked. -/
theorem used_size_wraps : ∃ s, Run (Started smallConfig) NoRealloc s [] ∧
    s.pool.usedSize = sizeModulus - 56 ∧ s.pool.poolSize = 1024 ∧
    ∃ st, infraMemoryGetStats s = some st ∧ 100 < st.poolUtilization := by
  obtain ⟨t, original, garbage, hret, hserv, hsame, hbooked⟩ :=
    smallPool_takes 928 (by decide) (by decide)
  have hserved : served ⟨4096, 992, original, false⟩ (requestSize (counted 928) 8) (counted 928)
      garbage = [⟨4096, 992, 928, true⟩] :=
    if_neg (by decide : ¬ requestSize (counted 928) 8 + 2 * headerSize < 992)
  have hused : t.pool.usedSize = 936 := hbooked.used.trans (by decide)
  rw [hserved] at hserv
  have hservice : InService t ([] ++ ⟨4096, 992, 928, true⟩ :: []) := hserv
  have hmalloc : Run (Started smallConfig) NoRealloc t [(4128, 928)] :=
    Run.call (c := .malloc 928) (Run.start smallPool_started)
      (by decide : (928 : ℕ) < sizeModulus) trivial ⟨2, hret⟩
  obtain ⟨s, hfree, hsame', hserv', _⟩ := infraFree_spec hservice rfl
  have hcounts := tryMergeBlocks_counts
    ((infraFree_eq hserv.working List.mem_cons_self rfl _).symm.trans (hfree _ le_rfl))
  have hsize : s.pool.poolSize = 1024 := hsame'.poolSize.trans hsame.poolSize
  have hwrap : s.pool.usedSize = sizeModulus - 56 := by
    rw [hcounts.1, withUsage_usedSize, hused]
    decide
  have hfreed : Settles (fun fuel => infraFree fuel t 4128) (.ok s) := ⟨_, hfree⟩
  have hreturn : Settles (fun fuel => perform fuel 0 t (.free 4128)) (.ok (s, 0)) :=
    hfreed.bind (settles_const (Except.ok (s, 0)))
  obtain ⟨st, hstats, hutilization⟩ := stats_utilization hserv'.initialized hserv'.pooled
    (by omega : 0 < s.pool.poolSize)
  refine ⟨s, Run.call (c := .free 4128) hmalloc List.mem_cons_self trivial hreturn, hwrap, hsize, st,
    hstats, ?_⟩
  rw [hutilization, hwrap, hsize]
  decide

/-! ### The current usage -/

/-- There is no block for the request, or `current_usage` can take it. -/
def Affordable (s : State) (size : ℕ) : Prop :=
  NoFreeRoom s (requestSize (counted size) s.config.poolAlignment) ∨
    s.stats.currentUsage + counted size < sizeModulus

/-- The block of the pointer is too small for the request, and no other block
is to be had for it. -/
structure Unresizable (s : State) (ptr size : ℕ) : Prop where
  lower : s.pool.poolStart ≤ ptr
  upper : ptr < s.pool.poolStart + s.pool.poolSize
  small : getSize s.bytes (getBlockHeader ptr) < alignSize size s.config.poolAlignment
  refused : Refused s size ∨ NoFreeRoom s (grossSize size s.config.poolAlignment)

/-- The pointer lies at the end of the pool, behind a block of size 0, and the
overflow checks for memory of the C library turn it away. -/
structure TurnedAway (s : State) (ptr size : ℕ) : Prop where
  beyond : s.pool.poolStart + s.pool.poolSize ≤ ptr
  checks : sizeMax - 8 < readWord s.bytes (ptr - 8) ∨ sizeMax - 8 < size

/-- Calls whose products do not wrap when rounded, whose requests keep the sum
below 2^64, and no `infra_realloc` but those that release or fail. -/
def Steady (s : State) : Call → Prop
  | .malloc size => Affordable s size
  | .calloc nmemb size => CallocRounds s nmemb size ∧ Affordable s (mulSize nmemb size)
  | .realloc ptr size => size = 0 ∨ Unresizable s ptr size ∨ TurnedAway s ptr size
  | .free _ => True

theorem allocateFromPool_null {s : State} {k : Books} (h : Kept s k) {size : ℕ}
    (hrefused : Refused s size ∨ NoFreeRoom s (grossSize size s.config.poolAlignment)) (fuel : ℕ)
    (hfuel : k.blocks.length < fuel) : allocateFromPool fuel s size = .ok (s, 0) := by
  by_cases hno : Refused s size
  · exact allocateFromPool_of_refused hno fuel
  have hlist := h.serving.tiled.listed
  have hroom := hrefused.resolve_left hno k.blocks hlist
  have hnone : firstFit (grossSize size s.config.poolAlignment) k.blocks = none := by
    cases hfirst : firstFit (grossSize size s.config.poolAlignment) k.blocks with
    | none => rfl
    | some b =>
      obtain ⟨hb, hfree, hle⟩ := firstFit_mem hfirst
      have hlt := hroom b hb hfree
      omega
  rw [allocateFromPool_of_admitted hno, firstFitLoop_spec hlist fuel hfuel, hnone]

/-- An `infra_realloc` that can neither keep the block nor find another one
returns null and changes nothing. -/
theorem unresizable_returns {s : State} {k : Books} (h : Kept s k) (reply : ℕ) {ptr size : ℕ}
    (hptr : ptr ∈ k.live.map Prod.fst) (hsize : size ≠ 0) (hstuck : Unresizable s ptr size) :
    Settles (fun fuel => perform fuel reply s (.realloc ptr size)) (.ok (s, 0)) := by
  obtain ⟨b, hb, hused, rfl⟩ := h.owned.owner hptr
  have hheader := h.serving.working.getBlockHeader_payload hb
  have hflag : getIsUsed s.bytes b.addr = true :=
    (h.serving.tiled.listed.getIsUsed_eq hb).trans hused
  have hpayload : b.payload ≠ 0 := by
    unfold Block.payload headerSize
    omega
  have hsmall := hstuck.small
  rw [hheader] at hsmall
  refine ⟨k.blocks.length + 1, fun fuel hfuel => ?_⟩
  have hnull := allocateFromPool_null h hstuck.refused fuel (by omega)
  have hin : s.config.useMemoryPool = true ∧ s.pool.poolStart ≤ b.payload ∧
      b.payload < s.pool.poolStart + s.pool.poolSize :=
    ⟨h.serving.pooled, hstuck.lower, hstuck.upper⟩
  simp only [perform, infraRealloc, h.serving.initialized, hsize, hpayload, if_pos hin,
    reallocPooled, hheader, hflag, Nat.not_le.mpr hsmall, reallocMove, hnull]
  rfl

theorem unresizable_idle {s : State} {k : Books} (h : Kept s k) (reply : ℕ) {ptr size : ℕ}
    (hptr : ptr ∈ k.live.map Prod.fst) (hsize : size ≠ 0) (hstuck : Unresizable s ptr size) :
    CallEdits s k reply (.realloc ptr size) :=
  ⟨s, 0, k, unresizable_returns h reply hptr hsize hstuck, h, SameRegion.refl s,
    by simp [account, hsize], Edit.idle k⟩

/-- So does one of a pointer that is turned away. -/
theorem turnedAway_idle {s : State} {k : Books} (h : Kept s k) (reply : ℕ) {ptr size : ℕ}
    (hptr : ptr ∈ k.live.map Prod.fst) (hsize : size ≠ 0) (hlt : size < sizeModulus)
    (haway : TurnedAway s ptr size) : CallEdits s k reply (.realloc ptr size) := by
  obtain ⟨b, hb, hused, rfl⟩ := h.owned.owner hptr
  have hpayload : 8 < b.payload := by
    unfold Block.payload headerSize
    omega
  have hout : ¬ (s.config.useMemoryPool = true ∧ s.pool.poolStart ≤ b.payload ∧
      b.payload < s.pool.poolStart + s.pool.poolSize) := by
    intro hin
    have hbeyond := haway.beyond
    omega
  have hready : ¬ ((!s.initialized) = true) := by simp [h.serving.initialized]
  refine ⟨s, 0, k, ⟨0, fun fuel _ => ?_⟩, h, SameRegion.refl s, ?_, Edit.idle k⟩
  · have hrealloc : infraRealloc fuel reply s b.payload size = .ok (s, 0) := by
      rw [infraRealloc, if_neg hready, if_neg hsize, if_neg (by omega), if_neg hout,
        if_pos hpayload]
      exact reallocSystem_refused s hlt haway.checks
    exact hrealloc
  · simp [account, hsize]

theorem steady_edits {s : State} {k : Books} (h : Kept s k) (reply : ℕ) {c : Call}
    (hadm : Admissible k.live c) (hok : Steady s c) : CallEdits s k reply c := by
  cases c with
  | malloc size => exact rounds_edits h reply hadm trivial
  | calloc nmemb size => exact rounds_edits h reply hadm hok.1
  | realloc ptr size =>
    by_cases hzero : size = 0
    · subst hzero
      obtain ⟨s', k', hrun, hkept, hsame, hlive, hedit⟩ :=
        free_edits h hadm.2 (c := .realloc ptr 0) ⟨rfl, rfl⟩
      refine ⟨s', 0, k', ?_, hkept, hsame, hlive, hedit⟩
      have hrealloc : ∀ fuel, perform fuel reply s (.realloc ptr 0) =
          (infraFree fuel s ptr >>= fun s => Except.ok (s, 0)) := by
        intro fuel
        simp only [perform, infraRealloc, h.serving.initialized]
        rfl
      simp only [hrealloc]
      exact hrun.bind (settles_const (Except.ok (s', 0)))
    · rcases hok.resolve_left hzero with hstuck | haway
      · exact unresizable_idle h reply hadm.2 hzero hstuck
      · exact turnedAway_idle h reply hadm.2 hzero hadm.1 haway
  | free ptr => exact rounds_edits h reply hadm trivial

/-- The counter fits a `size_t` and is the sum of the sizes remembered in the
used blocks, which are those last requested for the live pointers. -/
structure CurrentExact (k : Books) : Prop where
  lt : k.current < sizeModulus
  sum : k.current = usedSum Block.originalSize k.blocks
  remembered : (k.live.map fun x => (x.1, counted x.2)).Perm
    ((k.blocks.filter Block.isUsed).map fun b => (b.payload, b.originalSize))

theorem current_serve {s : State} {pre post : List Block} {b : Block}
    {garbage size used current : ℕ} {live : Live}
    (h : Kept s ⟨pre ++ b :: post, used, current, live⟩) (hafford : Affordable s size)
    (hbest : bestFit (requestSize (counted size) s.config.poolAlignment) (pre ++ b :: post) = some b)
    (hinv : CurrentExact ⟨pre ++ b :: post, used, current, live⟩) (used' : ℕ) :
    CurrentExact ⟨pre ++ served b (requestSize (counted size) s.config.poolAlignment)
      (counted size) garbage ++ post, used', addSize current (counted size),
      (b.payload, size) :: live⟩ := by
  obtain ⟨hb, hfree, hroom⟩ := bestFit_mem hbest
  have hsum := usedSum_served Block.originalSize pre post hfree
    (requestSize (counted size) s.config.poolAlignment) (counted size) garbage
  have hfits : current + counted size < sizeModulus := by
    rcases hafford with hnone | hfits
    · have hlt := hnone _ h.serving.tiled.listed b hb hfree
      omega
    · rwa [h.current] at hfits
  have hcurrent := hinv.sum
  have hremembered := hinv.remembered
  have hbefore : (pre ++ b :: post).filter Block.isUsed =
      pre.filter Block.isUsed ++ post.filter Block.isUsed := by
    simp [hfree]
  refine ⟨addSize_lt _ _, ?_, ?_⟩
  · simp only at hcurrent ⊢
    rw [hsum, addSize_of_lt hfits, hcurrent, servedBlock_originalSize]
  · rw [filter_used_served, List.map_append, List.map_cons, List.map_cons, servedBlock_payload,
      servedBlock_originalSize]
    rw [hbefore, List.map_append] at hremembered
    exact (hremembered.cons _).trans List.perm_middle.symm

theorem current_release {s : State} {pre post : List Block} {b : Block} {used current : ℕ}
    {live : Live} (h : Kept s ⟨pre ++ b :: post, used, current, live⟩) (hused : b.isUsed = true)
    (hinv : CurrentExact ⟨pre ++ b :: post, used, current, live⟩) (used' : ℕ) :
    CurrentExact ⟨freed pre b post, used', subSize current b.originalSize,
      forget live b.payload⟩ := by
  have hsum := usedSum_freed Block.originalSize pre post hused
  have hcurrent := hinv.sum
  have hremembered := hinv.remembered
  have hlt := hinv.lt
  have hbefore : (pre ++ b :: post).filter Block.isUsed =
      pre.filter Block.isUsed ++ b :: post.filter Block.isUsed := by
    simp [hused]
  have hnodup := nodup_payload h.serving.tiled.tiles
  simp only at hcurrent hlt hremembered hnodup
  rw [hbefore] at hnodup
  rw [hbefore, List.map_append, List.map_cons] at hremembered
  have hsub : subSize current b.originalSize = current - b.originalSize :=
    subSize_of_le hlt (by omega)
  refine ⟨?_, ?_, ?_⟩
  · simp only
    omega
  · simp only
    omega
  · have hperm := perm_filter_ne Prod.fst hremembered
      (by simpa [List.map_append, Function.comp_def] using hnodup)
    rw [List.filter_map] at hperm
    rw [filter_used_freed, List.filter_append, List.map_append]
    exact hperm

/-- Edits of the books keep the current usage exact. -/
theorem edit_current {s : State} {k k' : Books} {c : Call} (hok : Steady s c) (h : Kept s k)
    (hedit : Edit s.config.poolAlignment c k k') (hinv : CurrentExact k) : CurrentExact k' := by
  cases hedit with
  | idle => exact hinv
  | @serve pre post b garbage size used current live hrequest hbest =>
    have hafford : Affordable s size := by
      cases c with
      | malloc n => exact hrequest ▸ hok
      | calloc nmemb n => exact hrequest.2.2 ▸ hok.2
      | realloc _ _ => exact hrequest.elim
      | free _ => exact hrequest.elim
    exact current_serve h hafford hbest hinv _
  | release _ hused => exact current_release h hused hinv _

theorem run_steady {cfg : Config} {s : State} {live : Live} (h : Run (Started cfg) Steady s live) :
    ∃ k, Kept s k ∧ k.live = live ∧ CurrentExact k := by
  obtain ⟨_, k, _, _, hkept, hlive, hinv⟩ := run_kept (I := CurrentExact)
    (fun _ _ _ reply hkept hadm hok => steady_edits hkept reply hadm hok)
    (fun b hfree => ⟨sizeModulus_pos, by simp [usedSum, hfree], by simp [hfree]⟩)
    (fun _ _ _ _ _ hok hkept _ _ hedit => edit_current hok hkept hedit) h
  exact ⟨k, hkept, hlive, hinv⟩

/-- In every run whose calls of `infra_realloc` release or fail, whose products
do not wrap when rounded, and whose requests together fit a `size_t`,
`current_usage` is the sum of the sizes last requested for the live pointers. -/
theorem current_usage_exact {cfg : Config} {s : State} {live : Live}
    (h : Run (Started cfg) Steady s live) :
    s.stats.currentUsage = (live.map fun x => counted x.2).sum := by
  obtain ⟨k, hkept, rfl, hinv⟩ := run_steady h
  have hsum := (hinv.remembered.map Prod.snd).sum_nat
  simp only [List.map_map, Function.comp_def] at hsum
  rw [hkept.current, hinv.sum, usedSum]
  exact hsum.symm

/-- A block of 112 bytes cannot grow to 2000 in a pool of 1024. -/
theorem twice_unresizable {s t : State} (h : ServedTwice s t) : Unresizable t 4128 2000 := by
  obtain ⟨garbage, hserv⟩ := h.blocks'
  have halign : t.config.poolAlignment = 8 := congrArg Config.poolAlignment h.same'.config
  have hstart : t.pool.poolStart = 4096 := h.same'.poolStart
  have hsize : t.pool.poolSize = 1024 := h.same'.poolSize
  have hblock := hserv.tiled.listed.getSize_eq List.mem_cons_self
  have hheader : getBlockHeader 4128 = 4096 := by decide
  have hsmall : getSize t.bytes (getBlockHeader 4128) < alignSize 2000 t.config.poolAlignment := by
    rw [hheader, hblock, halign]
    decide
  have hlarge : t.pool.poolSize < grossSize 2000 t.config.poolAlignment := by
    rw [hsize, halign]
    decide
  exact ⟨by omega, by omega, hsmall, Or.inl (Or.inr (Or.inr (Or.inr hlarge)))⟩

/-- The sum after two requests, an `infra_realloc` that is refused, and a free. -/
theorem current_usage_exact_small : ∃ s,
    Leads smallPool [(.malloc 100, 4128), (.calloc 2 20, 4272), (.realloc 4128 2000, 0),
      (.free 4128, 0)] s ∧
    Run (Started smallConfig) Steady s [(4272, 40)] ∧
    s.stats.currentUsage = ([(4272, 40)].map fun x => counted x.2).sum := by
  obtain ⟨s, t, h⟩ := smallPool_twice
  have hfirst : smallPool.stats.currentUsage + counted 100 < sizeModulus := by decide
  have hsecond : s.stats.currentUsage + counted (mulSize 2 20) < sizeModulus := by
    rw [h.usage]
    decide
  have hrun : Run (Started smallConfig) Steady t [(4272, 40), (4128, 100)] :=
    h.run (Or.inr hfirst) ⟨h.rounds, Or.inr hsecond⟩
  obtain ⟨k, hkept, hlive, _⟩ := run_steady hrun
  have hmem : 4128 ∈ k.live.map Prod.fst := by
    rw [hlive]
    decide
  have hrefused := unresizable_returns hkept 0 hmem (by decide) (twice_unresizable h)
  have hresized : Run (Started smallConfig) Steady t [(4272, 40), (4128, 100)] :=
    Run.call (c := .realloc 4128 2000) hrun
      (by decide : 2000 < sizeModulus ∧ 4128 ∈ [4272, 4128]) (Or.inr (Or.inl (twice_unresizable h))) hrefused
  obtain ⟨u, hfree⟩ := free_returns hkept 0 hmem
  have hfreed : Run (Started smallConfig) Steady u [(4272, 40)] :=
    Run.call (c := .free 4128) hresized (by decide : 4128 ∈ [4272, 4128]) trivial hfree
  exact ⟨u, h.leads ⟨t, hrefused, u, hfree, rfl⟩, hfreed, current_usage_exact hfreed⟩

/-- Shrinking 100 bytes to 60 in a block of 112 takes 48 off the usage. -/
theorem shrunk_in_place : ∃ s garbage, Run (Started smallConfig) (fun _ _ => True) s [(4128, 60)] ∧
    InService s [⟨4096, 112, 100, true⟩, ⟨4240, 848, garbage, false⟩] ∧
    s.stats.currentUsage = 52 := by
  obtain ⟨t, garbage, hret, hserv, hsame, hbooked⟩ := smallPool_serves 100 (by decide) (by decide)
  have hreq : requestSize (counted 100) 8 = 112 := by decide
  have hnolibc : smallPool.libc = [(4096, 1024)] := rfl
  rw [hreq] at hserv
  have hmalloc : Run (Started smallConfig) (fun _ _ => True) t [(4128, 100)] :=
    Run.call (c := .malloc 100) (Run.start smallPool_started)
      (by decide : (100 : ℕ) < sizeModulus) trivial ⟨2, hret⟩
  have hstart : t.pool.poolStart = 4096 := hsame.poolStart
  have hpool : InPool t [⟨4096, 112, 100, true⟩, ⟨4240, 848, garbage, false⟩] := by
    refine ⟨hserv.initialized, hserv.pooled, hserv.alignment, hserv.region, hserv.tiled, ?_⟩
    rw [hsame.libc, hnolibc, hstart]
    simp
  have halign : t.config.poolAlignment = 8 := congrArg Config.poolAlignment hsame.config
  have hend : t.pool.poolStart + t.pool.poolSize = 5120 := by
    rw [hstart, hsame.poolSize]
    rfl
  have hkept : alignSize 60 t.config.poolAlignment = 64 := by
    rw [halign]
    decide
  obtain ⟨used, hresize⟩ := infraRealloc_whole hpool List.mem_cons_self rfl (by decide : 0 < 60)
    (by rw [Recognised, hend]; decide) (by rw [hkept]; decide) (by rw [hkept]; decide)
  have hzero : smallPool.stats.currentUsage = 0 := rfl
  have hcurrent : t.stats.currentUsage = 100 := by
    rw [hbooked.current, hzero]
    decide
  obtain ⟨current, hresized⟩ : ∃ current, current = resizedUsage t 112 60 := ⟨_, rfl⟩
  have hrealloc : ∀ fuel, perform fuel 0 t (.realloc 4128 60) =
      .ok (withUsage t t.bytes used current, 4128) := fun fuel => hresized ▸ hresize fuel 0
  have hsame' := withUsage_same t t.bytes used current
  refine ⟨withUsage t t.bytes used current, garbage, ?_, ?_, ?_⟩
  · exact Run.call (c := .realloc 4128 60) hmalloc ⟨by decide, List.mem_cons_self⟩ trivial
      ⟨0, fun fuel _ => hrealloc fuel⟩
  · exact ⟨hserv.initialized, hserv.pooled, hserv.alignment, hsame'.region hserv.region,
      ⟨hserv.tiled.listed, hserv.tiled.tiles, hserv.tiled.count⟩, hserv.aligned⟩
  · rw [withUsage_currentUsage, hresized, resizedUsage, halign, hcurrent]
    decide

/-- The free that follows takes 100 off the 52. -/
theorem current_usage_wraps : ∃ s, Run (Started smallConfig) (fun _ _ => True) s [] ∧
    s.stats.currentUsage = sizeModulus - 48 := by
  obtain ⟨t, garbage, hrun, hserv, hcurrent⟩ := shrunk_in_place
  have hservice : InService t ([] ++ ⟨4096, 112, 100, true⟩ ::
      [⟨4240, 848, garbage, false⟩]) := hserv
  obtain ⟨s, hfree, _⟩ := infraFree_spec hservice rfl
  have hcounts := tryMergeBlocks_counts
    ((infraFree_eq hserv.working List.mem_cons_self rfl _).symm.trans (hfree _ le_rfl))
  have hfreed : Settles (fun fuel => infraFree fuel t 4128) (.ok s) := ⟨_, hfree⟩
  have hreturn : Settles (fun fuel => perform fuel 0 t (.free 4128)) (.ok (s, 0)) :=
    hfreed.bind (settles_const (Except.ok (s, 0)))
  refine ⟨s, Run.call (c := .free 4128) hrun List.mem_cons_self trivial hreturn, ?_⟩
  rw [hcounts.2, withUsage_currentUsage, hcurrent]
  decide

end Ppdb.PoolUsage
