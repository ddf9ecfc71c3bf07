import Ppdb.PayloadAlignment

/-!
The module in system mode. A request is padded by a size word and by room for
the alignment, the payload is rounded up inside the block of the C library,
and only the size word below it is kept. `infra_free` and `infra_realloc` take
the address of that word for the base of the block, which it is as long as the
rounding has not moved the payload.
-/

namespace Ppdb.SystemBlocks

open ByteMemory SizeArithmetic BlockHeaders PoolOperations EventualResults
open PoolAllocation PoolRuns PayloadAlignment

/-- The length `allocate_memory` asks the C library for. -/
def totalSize (align size : ℕ) : ℕ := subSize (addSize (addSize size 8) align) 1

def asksFor (s : State) : Call → ℕ
  | .malloc size => totalSize s.config.poolAlignment (counted size)
  | .calloc nmemb size => totalSize s.config.poolAlignment (counted (mulSize nmemb size))
  | .realloc _ size => addSize 8 size
  | .free _ => 0

/-- The C library refuses, or replies with a block of the length asked for. -/
def Promised (s : State) (reply : ℕ) (c : Call) : Prop := reply = 0 ∨ LibcBlock reply (asksFor s c)

/-- System mode as `infra_memory_init` has set it up; the alignment is any
value of a `size_t`. -/
structure SystemStarted (cfg : Config) (s : State) : Prop where
  system : cfg.useMemoryPool = false
  alignment_lt : cfg.poolAlignment < sizeModulus
  init : ∃ before reply, infraMemoryInit .ok reply before (some cfg) = (s, .ok)

/-- Runs in system mode: calls on live pointers that return, under replies of
the C library, and stores into live payloads. -/
inductive SystemRun (cfg : Config) (ok : State → ℕ → Call → Prop) : State → Live → Prop
  | start {s : State} (h : SystemStarted cfg s) : SystemRun cfg ok s []
  | call {s s' : State} {live : Live} {c : Call} {ptr reply : ℕ} (h : SystemRun cfg ok s live)
      (hadm : Admissible live c) (hlibc : Promised s reply c) (hok : ok s reply c)
      (hret : Settles (fun fuel => perform fuel reply s c) (.ok (s', ptr))) :
      SystemRun cfg ok s' (account live ptr c)
  | store {s : State} {live : Live} {ptr size off : ℕ} (h : SystemRun cfg ok s live)
      (hlive : (ptr, size) ∈ live) (hoff : off < size) (v : UInt8) :
      SystemRun cfg ok { s with bytes := writeByte s.bytes (ptr + off) v } live

/-- Rounding leaves the payload right behind the size word, and that place is a
multiple of the alignment. -/
def Straight (align reply : ℕ) : Prop :=
  align ∣ reply + 8 ∧ alignSize (reply + 8) align = reply + 8

/-- A request that is served has a power of two for its alignment or a block
that needs no rounding; a pointer given back lies 8 above a multiple of 16; a
block that moves, or stays, begins 8 below a multiple of the alignment. -/
def BaseKept (s : State) (reply : ℕ) : Call → Prop
  | .malloc _ => reply ≠ 0 →
      PowerOfTwo s.config.poolAlignment ∨ Straight s.config.poolAlignment reply
  | .calloc _ _ => reply ≠ 0 →
      PowerOfTwo s.config.poolAlignment ∨ Straight s.config.poolAlignment reply
  | .realloc ptr size => ptr % 16 = 8 ∧
      (size ≠ 0 → reply ≠ 0 → s.config.poolAlignment ∣ reply + 8)
  | .free ptr => ptr % 16 = 8

/-! ### The block of a request -/

theorem totalSize_eq (align size : ℕ) :
    totalSize align size = (size + 7 + align) % sizeModulus := by
  unfold totalSize subSize addSize sizeModulus
  omega

/-- What is known of the pointer made from a reply. -/
structure InBlock (align reply size : ℕ) : Prop where
  dvd : align ∣ alignSize (reply + 8) align
  lower : reply + 8 ≤ alignSize (reply + 8) align
  upper : alignSize (reply + 8) align + size ≤ reply + totalSize align size
  straight : ¬ (PowerOfTwo align ∧ 16 ≤ align) → alignSize (reply + 8) align = reply + 8

theorem dvd_eight_of_lt {align : ℕ} (hpower : PowerOfTwo align) (hlt : align < 16) : align ∣ 8 := by
  obtain ⟨k, _, rfl⟩ := hpower
  have hk : k ≤ 3 := by
    have : 2 ^ k < 2 ^ 4 := hlt
    have := (Nat.pow_lt_pow_iff_right (by omega : 1 < 2)).mp this
    omega
  exact Nat.pow_dvd_pow 2 hk

theorem inBlock_of_powerOfTwo {align reply size : ℕ} (hpower : PowerOfTwo align)
    (hsize : size < totalSize align size) (hlibc : LibcBlock reply (totalSize align size)) :
    InBlock align reply size := by
  have hpos := hpower.pos
  have hspace := hlibc.in_space
  have htotal : totalSize align size = size + 7 + align := by
    have heq := totalSize_eq align size
    have hhalf : align ≤ 2 ^ 63 := by
      obtain ⟨k, hk, rfl⟩ := hpower
      exact Nat.pow_le_pow_right (by omega) (by omega)
    unfold sizeModulus at heq
    omega
  obtain ⟨hlower, hupper, hdvd⟩ := hpower.alignSize_spec (x := reply + 8) (by omega)
  refine ⟨hdvd, hlower, by omega, ?_⟩
  intro hsmall
  apply hpower.alignSize_of_dvd (by omega)
  have height := dvd_eight_of_lt hpower (by
    by_contra hbig
    exact hsmall ⟨hpower, by omega⟩)
  have hreply := (height.trans (by decide : 8 ∣ 16)).trans hlibc.aligned
  exact Nat.dvd_add hreply height

theorem inBlock_of_straight {align reply size : ℕ} (hstraight : Straight align reply)
    (hsize : size < totalSize align size) (hlibc : LibcBlock reply (totalSize align size)) :
    InBlock align reply size := by
  obtain ⟨hdvd, hround⟩ := hstraight
  have hspace := hlibc.in_space
  have haligned := hlibc.aligned
  have hpos : 0 < align := Nat.pos_of_dvd_of_pos hdvd (by omega)
  have hle : align ≤ reply + 8 := Nat.le_of_dvd (by omega) hdvd
  have heq := totalSize_eq align size
  unfold sizeModulus at heq hspace
  refine ⟨hround.symm ▸ hdvd, by omega, ?_, fun _ => hround⟩
  rw [hround]
  omega

theorem inBlock {align reply size : ℕ}
    (hkept : reply ≠ 0 → PowerOfTwo align ∨ Straight align reply) (hreply : reply ≠ 0)
    (hsize : size < totalSize align size) (hlibc : LibcBlock reply (totalSize align size)) :
    InBlock align reply size :=
  (hkept hreply).elim (fun h => inBlock_of_powerOfTwo h hsize hlibc)
    fun h => inBlock_of_straight h hsize hlibc

/-! ### What one call does -/

/-- The module initialised in system mode. -/
structure Ready (s : State) : Prop where
  initialized : s.initialized = true
  system : s.config.useMemoryPool = false

theorem Ready.started {cfg : Config} {s : State} (h : SystemStarted cfg s) :
    Ready s ∧ s.config = cfg ∧ s.stats = Stats.zero := by
  obtain ⟨before, reply, hinit⟩ := h.init
  unfold infraMemoryInit at hinit
  by_cases hagain : before.initialized = true
  · simp [hagain] at hinit
  · simp only [h.system, hagain, Bool.false_and, Bool.false_eq_true, if_false, ne_eq,
      not_true_eq_false, Prod.mk.injEq, and_true] at hinit
    rw [← hinit]
    exact ⟨⟨rfl, h.system⟩, rfl, rfl⟩

section Call
variable {s : State}

theorem allocateMemory_system (h : Ready s) {fuel reply size : ℕ} {r : State × ℕ}
    (hr : allocateSystem reply s (counted size) = r) :
    allocateMemory fuel reply s size =
      if r.2 ≠ 0 then .ok ({ r.1 with stats := notePeak r.1.stats }, r.2) else .ok r := by
  have hr' : allocateSystem reply s (if size = 0 then 1 else size) = r := hr
  unfold allocateMemory
  simp only [h.system, hr', Bool.false_eq_true, if_false]
  rfl

theorem infraMalloc_system (h : Ready s) {fuel reply size : ℕ} {r : State × ℕ}
    (hr : allocateSystem reply s (counted size) = r) :
    infraMalloc fuel reply s size =
      if r.2 ≠ 0 then .ok ({ r.1 with stats := noteAllocation r.1.stats }, r.2) else .ok r := by
  have hready : ¬ (!s.initialized) = true := by simp [h.initialized]
  rw [infraMalloc, if_neg hready, allocateMemory_system h hr]
  by_cases hptr : r.2 = 0
  · simp [hptr]
  · simp [hptr, noteAllocation]

def charged (st : Stats) (size : ℕ) : Stats :=
  { st with currentUsage := addSize st.currentUsage size }

def obtained (s : State) (reply ptr size : ℕ) (st : Stats) : State :=
  { s with
    bytes := writeWord s.bytes (subSize ptr 8) size
    libc := (reply, totalSize s.config.poolAlignment size) :: s.libc
    stats := st }

/-- The system branch, when the C library serves it. -/
theorem allocateSystem_served {reply size : ℕ} (hreply : reply ≠ 0)
    (hsize : size < totalSize s.config.poolAlignment size) :
    allocateSystem reply s size =
      (obtained s reply (alignSize (reply + 8) s.config.poolAlignment) size
        (charged s.stats size), alignSize (reply + 8) s.config.poolAlignment) := by
  have htotal : subSize (addSize (addSize size 8) s.config.poolAlignment) 1 =
      totalSize s.config.poolAlignment size := rfl
  simp only [allocateSystem, htotal, if_pos hsize, if_neg hreply]
  rfl

theorem allocateSystem_unserved {reply size : ℕ}
    (hnone : ¬ (size < totalSize s.config.poolAlignment size ∧ reply ≠ 0)) :
    allocateSystem reply s size = (s, 0) := by
  have htotal : subSize (addSize (addSize size 8) s.config.poolAlignment) 1 =
      totalSize s.config.poolAlignment size := rfl
  by_cases hsize : size < totalSize s.config.poolAlignment size
  · have hreply : reply = 0 := by
      by_contra hne
      exact hnone ⟨hsize, hne⟩
    simp only [allocateSystem, htotal, if_pos hsize, if_pos hreply]
  · simp only [allocateSystem, htotal, if_neg hsize]

/-- A request the C library serves, with the state it leaves. -/
theorem infraMalloc_obtained (h : Ready s) {reply size : ℕ} (hreply : reply ≠ 0)
    (hsize : counted size < totalSize s.config.poolAlignment (counted size))
    (hptr : alignSize (reply + 8) s.config.poolAlignment ≠ 0) (fuel : ℕ) :
    infraMalloc fuel reply s size =
      .ok (obtained s reply (alignSize (reply + 8) s.config.poolAlignment) (counted size)
        (noteAllocation (charged s.stats (counted size))),
        alignSize (reply + 8) s.config.poolAlignment) := by
  have hserved := allocateSystem_served hreply hsize
  rw [infraMalloc_system h hserved, if_pos hptr]
  simp only [obtained]

/-- A request the C library serves. -/
theorem infraMalloc_served (h : Ready s) {reply size : ℕ} (hreply : reply ≠ 0)
    (hsize : counted size < totalSize s.config.poolAlignment (counted size)) :
    ∃ m st, ∀ fuel, infraMalloc fuel reply s size =
      .ok ({ s with
        bytes := m
        libc := (reply, totalSize s.config.poolAlignment (counted size)) :: s.libc
        stats := st }, alignSize (reply + 8) s.config.poolAlignment) := by
  by_cases hptr : alignSize (reply + 8) s.config.poolAlignment = 0
  · exact ⟨_, _, fun fuel => (infraMalloc_system h (allocateSystem_served hreply hsize)).trans
      (if_neg (not_not.mpr hptr))⟩
  · exact ⟨_, _, infraMalloc_obtained h hreply hsize hptr⟩

/-- A request that does not reach the C library, or is refused by it. -/
theorem infraMalloc_unserved (h : Ready s) {reply size : ℕ}
    (hnone : ¬ (counted size < totalSize s.config.poolAlignment (counted size) ∧ reply ≠ 0))
    (fuel : ℕ) : infraMalloc fuel reply s size = .ok (s, 0) := by
  have hzero : ¬ (0 : ℕ) ≠ 0 := not_not.mpr rfl
  exact (infraMalloc_system h (allocateSystem_unserved hnone)).trans (if_neg hzero)

theorem libcFree_found {base n : ℕ} (h : (base, n) ∈ s.libc) :
    ∃ blk ∈ s.libc, blk.1 = base ∧ libcFree s base = .ok { s with libc := s.libc.erase blk } := by
  cases hfind : s.libc.find? (fun blk => blk.1 = base) with
  | none =>
    have hmiss := List.find?_eq_none.mp hfind _ h
    simp at hmiss
  | some blk =>
    refine ⟨blk, List.mem_of_find?_eq_some hfind, by simpa using List.find?_some hfind, ?_⟩
    unfold libcFree
    rw [hfind]

/-- `infra_free` gives back the block whose base lies right below the pointer. -/
theorem infraFree_system (h : Ready s) {ptr n : ℕ} (hptr : 8 ≤ ptr) (hlt : ptr < sizeModulus)
    (hblock : (ptr - 8, n) ∈ s.libc) :
    ∃ blk ∈ s.libc, blk.1 = ptr - 8 ∧ ∀ fuel, infraFree fuel s ptr =
      .ok { s with
        libc := s.libc.erase blk
        stats :=
          { s.stats with
            currentUsage := subSize s.stats.currentUsage (readWord s.bytes (ptr - 8)) } } := by
  have hready : ¬ ((!s.initialized) = true ∨ ptr = 0) := by
    simp [h.initialized]
    omega
  have hmode : ¬ s.config.useMemoryPool = true := by simp [h.system]
  have hbase : subSize ptr 8 = ptr - 8 := subSize_of_le hlt hptr
  obtain ⟨st, hst⟩ : ∃ st, st = { s.stats with
    currentUsage := subSize s.stats.currentUsage (readWord s.bytes (ptr - 8)) } := ⟨_, rfl⟩
  have hblock' : (ptr - 8, n) ∈ ({ s with stats := st } : State).libc := hblock
  obtain ⟨blk, hmem, hblk, hfree⟩ := libcFree_found hblock'
  refine ⟨blk, hmem, hblk, fun fuel => ?_⟩
  rw [infraFree, if_neg hready, freeMemory, if_neg (by omega), if_neg hmode]
  simp only [hbase, ← hst, hfree]

def moved (s : State) (reply ptr size : ℕ) (blk : ℕ × ℕ) : State :=
  { s with
    bytes := writeWord (copy s.bytes reply (ptr - 8) (min blk.2 (addSize 8 size))) reply size
    libc := (reply, addSize 8 size) :: s.libc.erase blk
    stats := notePeak
      { s.stats with
        currentUsage :=
          addSize (subSize s.stats.currentUsage (readWord s.bytes (ptr - 8))) size
        totalAllocations := addSize s.stats.totalAllocations 1 } }

/-- `infra_realloc` of such a pointer leaves everything as it is, or hands the
block to `realloc`. -/
theorem infraRealloc_system (h : Ready s) (reply : ℕ) {ptr size n : ℕ} (hptr : ptr % 16 = 8)
    (hsize : size ≠ 0) (hblock : (ptr - 8, n) ∈ s.libc) :
    (∀ fuel, infraRealloc fuel reply s ptr size = .ok (s, 0)) ∨
      (reply ≠ 0 ∧ size < addSize 8 size ∧ ∃ blk ∈ s.libc, blk.1 = ptr - 8 ∧
        ∀ fuel, infraRealloc fuel reply s ptr size =
          .ok (moved s reply ptr size blk, reply + 8)) := by
  have hready : ¬ (!s.initialized) = true := by simp [h.initialized]
  have hpool : ¬ (s.config.useMemoryPool = true ∧ s.pool.poolStart ≤ ptr ∧
      ptr < s.pool.poolStart + s.pool.poolSize) := by simp [h.system]
  by_cases hlow : 8 < ptr
  · have hsystem : ∀ fuel, infraRealloc fuel reply s ptr size = reallocSystem reply s ptr size := by
      intro fuel
      rw [infraRealloc, if_neg hready, if_neg hsize, if_neg (by omega), if_neg hpool, if_pos hlow]
    simp only [hsystem]
    by_cases hword : ptr - 8 ≠ 0 ∧ 0 < readWord s.bytes (ptr - 8) ∧
        readWord s.bytes (ptr - 8) ≤ sizeMax - 8
    · by_cases hover : size < addSize 8 size
      · cases hfind : s.libc.find? (fun blk => blk.1 = ptr - 8) with
        | none =>
          have hmiss := List.find?_eq_none.mp hfind _ hblock
          simp at hmiss
        | some blk =>
          have hbase : blk.1 = ptr - 8 := by simpa using List.find?_some hfind
          by_cases hreply : reply = 0
          · left
            intro fuel
            simp only [reallocSystem, if_pos hword, if_pos hover, hfind, if_pos hreply]
          · right
            have hmoved : reallocSystem reply s ptr size =
                .ok (moved s reply ptr size blk, reply + 8) := by
              simp only [reallocSystem, if_pos hword, if_pos hover, hfind, if_neg hreply]
              rfl
            exact ⟨hreply, hover, blk, List.mem_of_find?_eq_some hfind, hbase, fun _ => hmoved⟩
      · left
        intro fuel
        simp only [reallocSystem, if_pos hword, if_neg hover]
    · left
      intro fuel
      simp only [reallocSystem, if_neg hword]
  · left
    intro fuel
    rw [infraRealloc, if_neg hready, if_neg hsize, if_neg (by omega), if_neg hpool, if_neg hlow]

end Call

/-! ### Runs -/

/-- A live pointer lies behind the size word in a block of the C library that
holds the bytes asked for; only a power of two from 16 on moves it further. -/
structure HeldBy (s : State) (x : ℕ × ℕ) (blk : ℕ × ℕ) : Prop where
  mem : blk ∈ s.libc
  base : 16 ∣ blk.1
  lower : blk.1 + 8 ≤ x.1
  upper : x.1 + x.2 ≤ blk.1 + blk.2
  in_space : x.1 + x.2 < sizeModulus
  straight : ¬ (PowerOfTwo s.config.poolAlignment ∧ 16 ≤ s.config.poolAlignment) →
    x.1 = blk.1 + 8

/-- The invariant of a run in system mode. -/
structure Held (s : State) (live : Live) : Prop where
  ready : Ready s
  dvd : ∀ x ∈ live, s.config.poolAlignment ∣ x.1
  held : ∀ x ∈ live, ∃ blk, HeldBy s x blk

section Step
variable {s : State} {live : Live}

/-- Where a pointer can be given back, no pointer has been moved. -/
theorem Held.straight_of_mod (h : Held s live) {ptr : ℕ} (hlive : ptr ∈ live.map Prod.fst)
    (hptr : ptr % 16 = 8) :
    ¬ (PowerOfTwo s.config.poolAlignment ∧ 16 ≤ s.config.poolAlignment) := by
  rintro ⟨⟨k, _, hk⟩, hbig⟩
  obtain ⟨x, hx, rfl⟩ := List.mem_map.mp hlive
  have hexp : 4 ≤ k := by
    by_contra hsmall
    have hle : 2 ^ k ≤ 2 ^ 3 := Nat.pow_le_pow_right (by omega) (by omega)
    omega
  have hsixteen : 16 ∣ s.config.poolAlignment := hk ▸ Nat.pow_dvd_pow 2 hexp
  have hdvd := hsixteen.trans (h.dvd x hx)
  omega

theorem Held.block (h : Held s live) {ptr : ℕ} (hlive : ptr ∈ live.map Prod.fst)
    (hptr : ptr % 16 = 8) : 8 ≤ ptr ∧ ptr < sizeModulus ∧ ∃ n, (ptr - 8, n) ∈ s.libc := by
  have hstraight := h.straight_of_mod hlive hptr
  obtain ⟨x, hx, rfl⟩ := List.mem_map.mp hlive
  obtain ⟨blk, hblk⟩ := h.held x hx
  have heq := hblk.straight hstraight
  have hspace := hblk.in_space
  refine ⟨by omega, by omega, blk.2, ?_⟩
  have hbase : x.1 - 8 = blk.1 := by omega
  rw [hbase]
  exact hblk.mem

/-- The other live pointers keep their blocks when one is given back. -/
theorem Held.erase (h : Held s live) {ptr : ℕ} (hlive : ptr ∈ live.map Prod.fst)
    (hptr : ptr % 16 = 8) {gone : ℕ × ℕ} (hgone : gone.1 = ptr - 8) {x : ℕ × ℕ}
    (hx : x ∈ forget live ptr) : ∃ blk ∈ s.libc.erase gone, HeldBy s x blk := by
  obtain ⟨hmem, hne⟩ := List.mem_filter.mp hx
  obtain ⟨hle, _, _⟩ := h.block hlive hptr
  obtain ⟨blk, hblk⟩ := h.held x hmem
  have heq := hblk.straight (h.straight_of_mod hlive hptr)
  refine ⟨blk, (List.mem_erase_of_ne ?_).mpr hblk.mem, hblk⟩
  rintro rfl
  simp only [ne_eq, decide_not, Bool.not_eq_true', decide_eq_false_iff_not] at hne
  omega

theorem HeldBy.transfer {s' : State} {x blk : ℕ × ℕ} (h : HeldBy s x blk)
    (hconfig : s'.config = s.config) (hmem : blk ∈ s'.libc) : HeldBy s' x blk :=
  ⟨hmem, h.base, h.lower, h.upper, h.in_space, hconfig ▸ h.straight⟩

/-- A pointer made from a reply is held by the block of that reply. -/
theorem heldBy_of_inBlock {s' : State} {reply size n : ℕ}
    (h : InBlock s.config.poolAlignment reply n) (hconfig : s'.config = s.config)
    (hlibc : LibcBlock reply (totalSize s.config.poolAlignment n)) (hsize : size ≤ n)
    (hmem : (reply, totalSize s.config.poolAlignment n) ∈ s'.libc) :
    HeldBy s' (alignSize (reply + 8) s.config.poolAlignment, size)
      (reply, totalSize s.config.poolAlignment n) := by
  have hspace := hlibc.in_space
  have hupper := h.upper
  exact ⟨hmem, hlibc.aligned, h.lower, by simp only; omega, by simp only; omega,
    hconfig ▸ h.straight⟩

theorem le_counted (size : ℕ) : size ≤ counted size := by
  unfold counted
  split <;> omega

/-- `infra_malloc`, whichever call it is part of. -/
theorem Held.malloc (h : Held s live) {reply size : ℕ}
    (hlibc : reply = 0 ∨ LibcBlock reply (totalSize s.config.poolAlignment (counted size)))
    (hkept : reply ≠ 0 →
      PowerOfTwo s.config.poolAlignment ∨ Straight s.config.poolAlignment reply) :
    ∃ s' ptr, (∀ fuel, infraMalloc fuel reply s size = .ok (s', ptr)) ∧
      Held s' (record live ptr size) ∧ s'.config = s.config := by
  by_cases hserves : counted size < totalSize s.config.poolAlignment (counted size) ∧ reply ≠ 0
  · obtain ⟨hsize, hreply⟩ := hserves
    have hblock := hlibc.resolve_left hreply
    have hin := inBlock hkept hreply hsize hblock
    obtain ⟨m, st, hrun⟩ := infraMalloc_served h.ready hreply hsize
    have hne : alignSize (reply + 8) s.config.poolAlignment ≠ 0 := by
      have hlower := hin.lower
      omega
    refine ⟨_, _, hrun, ?_, rfl⟩
    rw [record_of_ne hne]
    refine ⟨⟨h.ready.initialized, h.ready.system⟩, ?_, ?_⟩
    · intro x hx
      rcases List.mem_cons.mp hx with rfl | hx
      · exact hin.dvd
      · exact h.dvd x hx
    · intro x hx
      rcases List.mem_cons.mp hx with rfl | hx
      · exact ⟨_, heldBy_of_inBlock hin rfl hblock (le_counted size) List.mem_cons_self⟩
      · obtain ⟨blk, hblk⟩ := h.held x hx
        exact ⟨blk, hblk.transfer rfl (List.mem_cons_of_mem _ hblk.mem)⟩
  · exact ⟨s, 0, infraMalloc_unserved h.ready hserves, h, rfl⟩

theorem Held.free (h : Held s live) {ptr : ℕ} (hlive : ptr ∈ live.map Prod.fst)
    (hptr : ptr % 16 = 8) :
    ∃ s', (∀ fuel, infraFree fuel s ptr = .ok s') ∧ Held s' (forget live ptr) ∧
      s'.config = s.config := by
  obtain ⟨hle, hlt, n, hblock⟩ := h.block hlive hptr
  obtain ⟨gone, _, hgone, hrun⟩ := infraFree_system h.ready hle hlt hblock
  refine ⟨_, hrun, ⟨⟨h.ready.initialized, h.ready.system⟩, ?_, ?_⟩, rfl⟩
  · intro x hx
    exact h.dvd x (List.mem_filter.mp hx).1
  · intro x hx
    obtain ⟨blk, hmem, hblk⟩ := h.erase hlive hptr hgone hx
    exact ⟨blk, hblk.transfer rfl hmem⟩

/-- `infra_realloc` of a live pointer to a size that is not 0. -/
theorem Held.realloc (h : Held s live) {ptr size reply : ℕ} (hlive : ptr ∈ live.map Prod.fst)
    (hsize : size ≠ 0) (hptr : ptr % 16 = 8)
    (hlibc : reply = 0 ∨ LibcBlock reply (addSize 8 size))
    (hkept : reply ≠ 0 → s.config.poolAlignment ∣ reply + 8) :
    ∃ s' new, (∀ fuel, infraRealloc fuel reply s ptr size = .ok (s', new)) ∧
      Held s' (account live new (.realloc ptr size)) ∧ s'.config = s.config := by
  obtain ⟨_, _, n, hblock⟩ := h.block hlive hptr
  rcases infraRealloc_system h.ready reply hptr hsize hblock with
    hnull | ⟨hreply, hover, gone, _, hgone, hrun⟩
  · refine ⟨s, 0, hnull, ?_, rfl⟩
    simpa [account, hsize] using h
  have hblk := hlibc.resolve_left hreply
  have hspace := hblk.in_space
  have htotal : addSize 8 size = 8 + size := by
    unfold addSize sizeModulus at *
    omega
  have haccount : account live (reply + 8) (.realloc ptr size) =
      (reply + 8, size) :: forget live ptr := by
    simp [account, hsize, record]
  refine ⟨_, _, hrun, ?_, rfl⟩
  rw [haccount]
  refine ⟨⟨h.ready.initialized, h.ready.system⟩, ?_, ?_⟩
  · intro x hx
    rcases List.mem_cons.mp hx with rfl | hx
    · exact hkept hreply
    · exact h.dvd x (List.mem_filter.mp hx).1
  · intro x hx
    rcases List.mem_cons.mp hx with rfl | hx
    · refine ⟨(reply, addSize 8 size), List.mem_cons_self, hblk.aligned, le_rfl, ?_, ?_, fun _ => rfl⟩
      · simp only
        omega
      · simp only
        omega
    · obtain ⟨blk, hmem, hheld⟩ := h.erase hlive hptr hgone hx
      exact ⟨blk, hheld.transfer rfl (List.mem_cons_of_mem _ hmem)⟩

theorem Held.setBytes (h : Held s live) (m : Mem) : Held { s with bytes := m } live := by
  refine ⟨⟨h.ready.initialized, h.ready.system⟩, h.dvd, fun x hx => ?_⟩
  obtain ⟨blk, hblk⟩ := h.held x hx
  exact ⟨blk, hblk.transfer rfl hblk.mem⟩

theorem Held.calloc (h : Held s live) {reply nmemb size : ℕ}
    (hlibc : Promised s reply (.calloc nmemb size)) (hkept : BaseKept s reply (.calloc nmemb size)) :
    ∃ s' ptr, (∀ fuel, infraCalloc fuel reply s nmemb size = .ok (s', ptr)) ∧
      Held s' (record live ptr (mulSize nmemb size)) ∧ s'.config = s.config := by
  by_cases hzero : nmemb = 0 ∨ size = 0
  · exact ⟨s, 0, fun _ => infraCalloc_zero hzero, h, rfl⟩
  · obtain ⟨t, ptr, hrun, hheld, hconfig⟩ := h.malloc hlibc hkept
    by_cases hptr : ptr = 0
    · subst hptr
      exact ⟨t, 0, fun fuel => infraCalloc_null h.ready.initialized hzero (hrun fuel), hheld, hconfig⟩
    · have hlive : (ptr, mulSize nmemb size) ∈ record live ptr (mulSize nmemb size) := by
        simp [record_of_ne hptr]
      obtain ⟨_, hblk⟩ := hheld.held _ hlive
      obtain ⟨m, hclear, _⟩ := infraMemset_inside t.bytes 0 hblk.in_space
      exact ⟨_, ptr, fun fuel =>
        infraCalloc_cleared h.ready.initialized hzero (hrun fuel) hptr hclear,
        hheld.setBytes m, hconfig⟩

/-- Every call that meets the condition returns, and keeps the invariant. -/
theorem Held.call (h : Held s live) {reply : ℕ} {c : Call} (hadm : Admissible live c)
    (hlibc : Promised s reply c) (hok : BaseKept s reply c) :
    ∃ s' ptr, (∀ fuel, perform fuel reply s c = .ok (s', ptr)) ∧ Held s' (account live ptr c) ∧
      s'.config = s.config := by
  cases c with
  | malloc size => exact h.malloc hlibc hok
  | calloc nmemb size => exact h.calloc hlibc hok
  | realloc ptr size =>
    by_cases hsize : size = 0
    · subst hsize
      obtain ⟨s', hfree, hheld, hconfig⟩ := h.free hadm.2 hok.1
      have hready : ¬ (!s.initialized) = true := by simp [h.ready.initialized]
      refine ⟨s', 0, fun fuel => ?_, hheld, hconfig⟩
      simp only [perform, infraRealloc, if_neg hready, hfree fuel]
      rfl
    · exact h.realloc hadm.2 hsize hok.1 hlibc (hok.2 hsize)
  | free ptr =>
    obtain ⟨s', hfree, hheld, hconfig⟩ := h.free hadm hok
    refine ⟨s', 0, fun fuel => ?_, hheld, hconfig⟩
    simp only [perform, hfree fuel]
    rfl

end Step

/-- The invariant holds along every run whose calls meet the condition. -/
theorem held_of_run {cfg : Config} {ok : State → ℕ → Call → Prop}
    (hmeets : ∀ s live reply c, s.config = cfg → Held s live → Admissible live c →
      Promised s reply c → ok s reply c → BaseKept s reply c)
    {s : State} {live : Live} (h : SystemRun cfg ok s live) : s.config = cfg ∧ Held s live := by
  induction h with
  | start hs =>
    obtain ⟨hready, hconfig, _⟩ := Ready.started hs
    exact ⟨hconfig, hready, by simp, by simp⟩
  | call _ hadm hlibc hok hret ih =>
    obtain ⟨hconfig, hheld⟩ := ih
    obtain ⟨t, ptr, hret', hheld', hconfig'⟩ :=
      hheld.call hadm hlibc (hmeets _ _ _ _ hconfig hheld hadm hlibc hok)
    obtain ⟨rfl, rfl⟩ := Prod.mk.inj (Except.ok.inj (hret.unique ⟨0, fun fuel _ => hret' fuel⟩))
    exact ⟨hconfig'.trans hconfig, hheld'⟩
  | store _ _ _ v ih => exact ⟨ih.1, ih.2.setBytes _⟩

/-- What holds in a state: every live pointer is aligned and lies in a block
that the C library handed out and has not got back, behind its size word and
with the bytes asked for; every call that meets the condition returns, so that
`free` and `realloc` of the C library get bases of such blocks only. -/
structure SystemRight (s : State) (live : Live) : Prop where
  inside : ∀ x ∈ live, s.config.poolAlignment ∣ x.1 ∧
    ∃ blk ∈ s.libc, blk.1 ≤ x.1 - 8 ∧ 8 ≤ x.1 ∧ x.1 + x.2 ≤ blk.1 + blk.2
  returns : ∀ reply c, Admissible live c → Promised s reply c → BaseKept s reply c →
    ∃ s' ptr, Settles (fun fuel => perform fuel reply s c) (.ok (s', ptr))

theorem Held.right {s : State} {live : Live} (h : Held s live) : SystemRight s live := by
  constructor
  · intro x hx
    obtain ⟨blk, hblk⟩ := h.held x hx
    have hlower := hblk.lower
    exact ⟨h.dvd x hx, blk, hblk.mem, by omega, by omega, hblk.upper⟩
  · intro reply c hadm hlibc hok
    obtain ⟨s', ptr, hret, _⟩ := h.call hadm hlibc hok
    exact ⟨s', ptr, 0, fun fuel _ => hret fuel⟩

/-- In every run in system mode whose calls meet the condition, whatever the
configuration, the pointers and the calls are right. -/
theorem system_right {cfg : Config} {s : State} {live : Live}
    (h : SystemRun cfg BaseKept s live) : SystemRight s live :=
  (held_of_run (fun _ _ _ _ _ _ _ _ hok => hok) h).2.right

/-- With the alignments 1, 2, 4 and 8 every call on live pointers meets the
condition. -/
theorem baseKept_of_dvd {s : State} {live : Live} (h : Held s live) (ha : PowerOfTwo s.config.poolAlignment)
    (height : s.config.poolAlignment ∣ 8) {reply : ℕ} {c : Call} (hadm : Admissible live c)
    (hlibc : Promised s reply c) : BaseKept s reply c := by
  have hmod : ∀ ptr ∈ live.map Prod.fst, ptr % 16 = 8 := by
    intro ptr hptr
    obtain ⟨x, hx, rfl⟩ := List.mem_map.mp hptr
    obtain ⟨blk, hblk⟩ := h.held x hx
    have hle := Nat.le_of_dvd (by omega) height
    have heq := hblk.straight (by omega)
    have hbase := hblk.base
    omega
  have hreply : ∀ n, reply ≠ 0 → LibcBlock reply n → s.config.poolAlignment ∣ reply + 8 := by
    intro n _ hblock
    exact Nat.dvd_add ((height.trans (by decide : 8 ∣ 16)).trans hblock.aligned) height
  cases c with
  | malloc size => exact fun _ => Or.inl ha
  | calloc nmemb size => exact fun _ => Or.inl ha
  | realloc ptr size =>
    exact ⟨hmod ptr hadm.2, fun _ hne => hreply _ hne (hlibc.resolve_left hne)⟩
  | free ptr => exact hmod ptr hadm

/-- With these alignments every run meets it, whatever is called. -/
theorem run_baseKept_of_dvd {cfg : Config} (ha : PowerOfTwo cfg.poolAlignment)
    (height : cfg.poolAlignment ∣ 8) {s : State} {live : Live}
    (h : SystemRun cfg (fun _ _ _ => True) s live) : SystemRun cfg BaseKept s live := by
  induction h with
  | start hs => exact .start hs
  | call hrun hadm hlibc _ hret ih =>
    obtain ⟨hconfig, hheld⟩ := held_of_run (fun _ _ _ _ _ _ _ _ hok => hok) ih
    exact .call ih hadm hlibc
      (baseKept_of_dvd hheld (hconfig ▸ ha) (hconfig ▸ height) hadm hlibc) hret
  | store _ hlive hoff v ih => exact .store ih hlive hoff v

/-! ### Two short runs -/

def systemAt (align : ℕ) : State := (infraMemoryInit .ok 0 blank (some ⟨false, 1024, align⟩)).1

theorem systemAt_started {align : ℕ} (hlt : align < sizeModulus) :
    SystemStarted ⟨false, 1024, align⟩ (systemAt align) :=
  ⟨rfl, hlt, blank, 0, rfl⟩

/-- A request that the C library serves, as a step of a run. -/
theorem run_served {cfg : Config} {ok : State → ℕ → Call → Prop} {s : State} {live : Live}
    (h : SystemRun cfg ok s live) (hready : Ready s) {reply size ptr : ℕ}
    (hptr : alignSize (reply + 8) s.config.poolAlignment = ptr) (hne : ptr ≠ 0)
    (hsize : counted size < totalSize s.config.poolAlignment (counted size))
    (hlibc : LibcBlock reply (totalSize s.config.poolAlignment (counted size)))
    (hadm : size < sizeModulus) (hok : ok s reply (.malloc size)) :
    ∃ t, Settles (fun fuel => perform fuel reply s (.malloc size)) (.ok (t, ptr)) ∧
      SystemRun cfg ok t ((ptr, size) :: live) ∧ Ready t ∧ t.config = s.config ∧
      t.libc = (reply, totalSize s.config.poolAlignment (counted size)) :: s.libc := by
  obtain ⟨m, st, hret⟩ := infraMalloc_served hready (Nat.ne_of_gt hlibc.pos) hsize
  rw [hptr] at hret
  have hserved : Settles (fun fuel => perform fuel reply s (.malloc size)) (.ok (_, ptr)) :=
    ⟨0, fun fuel _ => hret fuel⟩
  have hrun : SystemRun cfg ok _ (account live ptr (.malloc size)) :=
    .call h hadm (Or.inr hlibc) hok hserved
  have haccount : account live ptr (.malloc size) = (ptr, size) :: live := record_of_ne hne
  exact ⟨_, hserved, haccount ▸ hrun, ⟨hready.initialized, hready.system⟩, rfl, rfl⟩

/-- Two requests with alignment 8, the first one given back. -/
theorem system_right_8 : ∃ s t u,
    Settles (fun fuel => perform fuel 4096 (systemAt 8) (.malloc 100)) (.ok (s, 4104)) ∧
    Settles (fun fuel => perform fuel 8192 s (.malloc 40)) (.ok (t, 8200)) ∧
    Settles (fun fuel => perform fuel 0 t (.free 4104)) (.ok (u, 0)) ∧
    SystemRun ⟨false, 1024, 8⟩ BaseKept u [(8200, 40)] ∧ SystemRight u [(8200, 40)] := by
  have hpower : PowerOfTwo 8 := powerOfTwo_of_alignment (Or.inl rfl)
  have hstart : SystemRun ⟨false, 1024, 8⟩ (fun _ _ _ => True) (systemAt 8) [] :=
    .start (systemAt_started (by decide))
  obtain ⟨s, hfirst, hrun, hready, hconfig, _⟩ := run_served hstart ⟨rfl, rfl⟩
    (by decide : alignSize (4096 + 8) 8 = 4104) (by decide)
    (by decide : counted 100 < totalSize 8 (counted 100))
    ⟨by decide, by decide, by decide, by decide⟩ (by decide) trivial
  have halign : s.config.poolAlignment = 8 := congrArg Config.poolAlignment hconfig
  obtain ⟨t, hsecond, hrun', _⟩ := run_served hrun hready
    (by rw [halign]; decide : alignSize (8192 + 8) s.config.poolAlignment = 8200) (by decide)
    (by rw [halign]; decide : counted 40 < totalSize s.config.poolAlignment (counted 40))
    (by rw [halign]; exact ⟨by decide, by decide, by decide, by decide⟩) (by decide) trivial
  obtain ⟨_, hheld⟩ := held_of_run (fun _ _ _ _ _ _ _ _ hok => hok)
    (run_baseKept_of_dvd hpower (by decide) hrun')
  obtain ⟨u, hfree, _⟩ := hheld.free (by decide : 4104 ∈ [8200, 4104]) (by decide)
  have hthird : Settles (fun fuel => perform fuel 0 t (.free 4104)) (.ok (u, 0)) := by
    refine ⟨0, fun fuel _ => ?_⟩
    simp only [perform, hfree fuel]
    rfl
  have hfreed : SystemRun ⟨false, 1024, 8⟩ (fun _ _ _ => True) u [(8200, 40)] :=
    .call (c := .free 4104) hrun' (by decide : 4104 ∈ [8200, 4104]) (Or.inl rfl) trivial hthird
  have hmeets := run_baseKept_of_dvd hpower (by decide) hfreed
  exact ⟨s, t, u, hfirst, hsecond, hthird, hmeets, system_right hmeets⟩

/-- With alignment 16 the pointer is moved to 4112, and `infra_free` hands 4104
to `free`, where the block begins at 4096. -/
theorem base_is_lost : ∃ s, SystemRun ⟨false, 1024, 16⟩ (fun _ _ _ => True) s [(4112, 100)] ∧
    ∀ fuel, perform fuel 0 s (.free 4112) = .error .invalidFree := by
  have hstart : SystemRun ⟨false, 1024, 16⟩ (fun _ _ _ => True) (systemAt 16) [] :=
    .start (systemAt_started (by decide))
  obtain ⟨s, _, hrun, hready, _, hlibc⟩ := run_served hstart ⟨rfl, rfl⟩
    (by decide : alignSize (4096 + 8) 16 = 4112) (by decide)
    (by decide : counted 100 < totalSize 16 (counted 100))
    ⟨by decide, by decide, by decide, by decide⟩ (by decide) trivial
  refine ⟨s, hrun, fun fuel => ?_⟩
  have hnot : ¬ ((!s.initialized) = true ∨ 4112 = 0) := by simp [hready.initialized]
  have hmode : ¬ s.config.useMemoryPool = true := by simp [hready.system]
  have hbase : subSize 4112 8 = 4104 := by decide
  have hfree : infraFree fuel s 4112 = .error .invalidFree := by
    rw [infraFree, if_neg hnot, freeMemory, if_neg (by decide), if_neg hmode, hbase]
    have hnone : (systemAt 16).libc = [] := rfl
    simp [libcFree, hlibc, hnone]
  simp only [perform, hfree]
  rfl

end Ppdb.SystemBlocks
