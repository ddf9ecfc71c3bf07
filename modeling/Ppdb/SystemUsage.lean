import Ppdb.SystemBlocks

/-!
The statistics in system mode with the default alignment. The size of a block
is kept in the word below its payload, where `infra_free` and `infra_realloc`
find it again; what the C library hands out is apart from what it handed out
before, so that no other call touches the word. A history records, beside the
live pointers, what the counters are to be compared with.
-/

namespace Ppdb.SystemUsage

open ByteMemory SizeArithmetic PoolOperations EventualResults
open PoolAllocation PoolRuns SystemBlocks

/-! ### Histories -/

/-- The sum of the sizes last requested, 0 counting as 1. -/
def usage (live : Live) : ℕ := (live.map fun x => counted x.2).sum

/-- What has happened in a run: the live pointers, `current_usage` at the start
and after each call, latest first, and the number of successful requests. -/
structure History where
  live : Live
  seen : List ℕ
  served : ℕ

def Fails (ptr : ℕ) : Call → Prop
  | .malloc _ => ptr = 0
  | .calloc _ _ => ptr = 0
  | .realloc _ size => size ≠ 0 ∧ ptr = 0
  | .free _ => False

def successes (ptr : ℕ) : Call → ℕ
  | .malloc _ => if ptr = 0 then 0 else 1
  | .calloc _ _ => if ptr = 0 then 0 else 1
  | .realloc _ size => if size = 0 ∨ ptr = 0 then 0 else 1
  | .free _ => 0

def History.after (h : History) (c : Call) (ptr current : ℕ) : History :=
  ⟨account h.live ptr c, current :: h.seen, h.served + successes ptr c⟩

/-- A block of the C library: 16-byte aligned, in the address space. -/
structure Placed (p n : ℕ) : Prop where
  pos : 0 < p
  aligned : 16 ∣ p
  in_space : p + n < sizeModulus

def Apart (b c : ℕ × ℕ) : Prop := b.1 ≠ c.1 ∧ (b.1 + b.2 ≤ c.1 ∨ c.1 + c.2 ≤ b.1)

def Stays (c : Call) (blk : ℕ × ℕ) : Prop :=
  match c with
  | .realloc ptr _ => blk.1 ≠ ptr - 8
  | _ => True

/-- The C library refuses, or replies with a fresh block of the length asked for. -/
def Fresh (s : State) (reply : ℕ) (c : Call) : Prop :=
  reply = 0 ∨ (Placed reply (asksFor s c) ∧
    ∀ blk ∈ s.libc, Stays c blk → Apart (reply, asksFor s c) blk)

/-- Runs in system mode whose live sizes sum to less than 2^64. -/
inductive UsageRun (cfg : Config) : State → History → Prop
  | start {s : State} (h : SystemStarted cfg s) (hlibc : s.libc.Pairwise Apart) :
      UsageRun cfg s ⟨[], [s.stats.currentUsage], 0⟩
  | call {s s' : State} {h : History} {c : Call} {ptr reply : ℕ} (hrun : UsageRun cfg s h)
      (hadm : Admissible h.live c) (hlibc : Fresh s reply c)
      (hret : Settles (fun fuel => perform fuel reply s c) (.ok (s', ptr)))
      (hsum : usage (account h.live ptr c) < sizeModulus) :
      UsageRun cfg s' (h.after c ptr s'.stats.currentUsage)
  | store {s : State} {h : History} {ptr size off : ℕ} (hrun : UsageRun cfg s h)
      (hlive : (ptr, size) ∈ h.live) (hoff : off < size) (v : UInt8) :
      UsageRun cfg { s with bytes := writeByte s.bytes (ptr + off) v } h

/-! ### The sum of the live sizes -/

theorem usage_cons (x : ℕ × ℕ) (live : Live) : usage (x :: live) = counted x.2 + usage live := by
  simp [usage]

theorem usage_record {ptr : ℕ} (hptr : ptr ≠ 0) (live : Live) (size : ℕ) :
    usage (record live ptr size) = usage live + counted size := by
  rw [record_of_ne hptr, usage_cons, Nat.add_comm]

/-- A pointer given back takes its size out of the sum. -/
theorem usage_forget {live : Live} (hdistinct : (live.map Prod.fst).Nodup) {x : ℕ × ℕ}
    (hx : x ∈ live) : usage (forget live x.1) + counted x.2 = usage live := by
  induction live with
  | nil => cases hx
  | cons y live ih =>
    obtain ⟨hhead, htail⟩ := List.nodup_cons.mp hdistinct
    rcases List.mem_cons.mp hx with rfl | hx
    · have hrest : forget (x :: live) x.1 = live := by
        unfold forget
        rw [List.filter_cons_of_neg (by simp), List.filter_eq_self]
        intro z hz
        have hne : z.1 ≠ x.1 := by
          intro heq
          exact hhead (heq ▸ List.mem_map_of_mem hz)
        simpa using hne
      rw [hrest, usage_cons, Nat.add_comm]
    · have hne : y.1 ≠ x.1 := by
        intro heq
        exact hhead (heq ▸ List.mem_map_of_mem hx)
      have hkeep : forget (y :: live) x.1 = y :: forget live x.1 := by
        unfold forget
        rw [List.filter_cons_of_pos (by simpa using hne)]
      rw [hkeep, usage_cons, usage_cons, Nat.add_assoc, ih htail hx]

theorem mem_forget {live : Live} {ptr : ℕ} {x : ℕ × ℕ} :
    x ∈ forget live ptr ↔ x ∈ live ∧ x.1 ≠ ptr := by
  unfold forget
  rw [List.mem_filter]
  simp

theorem forget_distinct {live : Live} (hdistinct : (live.map Prod.fst).Nodup) (ptr : ℕ) :
    ((forget live ptr).map Prod.fst).Nodup :=
  hdistinct.sublist (List.filter_sublist.map _)

/-! ### The invariant -/

/-- The live pointer starts right behind the size word of its block, which
holds the size requested. -/
structure Worded (s : State) (x : ℕ × ℕ) (blk : ℕ × ℕ) : Prop where
  mem : blk ∈ s.libc
  ptr : x.1 = blk.1 + 8
  block : Placed blk.1 blk.2
  room : 8 + counted x.2 ≤ blk.2
  word : readWord s.bytes blk.1 = counted x.2
  size : x.2 < sizeModulus

/-- The counters agree with the history. -/
structure Booked (s : State) (h : History) : Prop where
  ready : Ready s
  alignment : s.config.poolAlignment = 8
  libc : s.libc.Pairwise Apart
  distinct : (h.live.map Prod.fst).Nodup
  worded : ∀ x ∈ h.live, ∃ blk, Worded s x blk
  sum : usage h.live < sizeModulus
  current : s.stats.currentUsage = usage h.live
  peak : s.stats.peakUsage ∈ h.seen ∧ ∀ u ∈ h.seen, u ≤ s.stats.peakUsage
  below : s.stats.currentUsage ≤ s.stats.peakUsage
  total : s.stats.totalAllocations = h.served % sizeModulus

/-- A change apart from its size word leaves a live pointer's block in place. -/
theorem Worded.frame {s s' : State} {x blk : ℕ × ℕ} (h : Worded s x blk) (hmem : blk ∈ s'.libc)
    {lo hi : ℕ} (hdiff : DiffersWithin s.bytes s'.bytes lo hi)
    (hsep : blk.1 + 8 ≤ lo ∨ hi ≤ blk.1) :
    Worded s' x blk :=
  ⟨hmem, h.ptr, h.block, h.room, (readWord_congr (hdiff.agreeOn hsep)).trans h.word, h.size⟩

theorem apart_comm {b c : ℕ × ℕ} (h : Apart b c) : Apart c b := ⟨h.1.symm, h.2.symm⟩

/-- The blocks left when one is given back begin elsewhere. -/
theorem erase_elsewhere {libc : List (ℕ × ℕ)} (h : libc.Pairwise Apart) {gone blk : ℕ × ℕ}
    (hgone : gone ∈ libc) (hblk : blk ∈ libc.erase gone) : blk.1 ≠ gone.1 := by
  have hdistinct : libc.Nodup := by
    refine h.imp ?_
    rintro b c hapart rfl
    exact hapart.1 rfl
  obtain ⟨hne, hmem⟩ := hdistinct.mem_erase_iff.mp hblk
  have : Std.Symm Apart := ⟨fun _ _ => apart_comm⟩
  exact (h.forall hmem hgone hne).1

theorem notePeak_spec (st : Stats) :
    (notePeak st).currentUsage = st.currentUsage ∧
      (notePeak st).peakUsage = max st.peakUsage st.currentUsage ∧
      (notePeak st).totalAllocations = st.totalAllocations := by
  unfold notePeak
  split
  · refine ⟨rfl, ?_, rfl⟩
    simp only
    omega
  · refine ⟨rfl, ?_, rfl⟩
    omega

section Counters
variable {s s' : State} {h : History}

/-- A request that was served, whatever it released before. -/
theorem Booked.serve (hb : Booked s h) {live : Live} {reply size n : ℕ} (hready : Ready s')
    (halign : s'.config.poolAlignment = 8) (hlibc : s'.libc.Pairwise Apart)
    (hnew : Worded s' (reply + 8, size) (reply, n))
    (hrest : ∀ x ∈ live, ∃ blk, Worded s' x blk ∧ blk.1 ≠ reply)
    (hdistinct : (live.map Prod.fst).Nodup)
    (hsum : usage (record live (reply + 8) size) < sizeModulus)
    (hcurrent : s'.stats.currentUsage = usage (record live (reply + 8) size))
    (hpeak : s'.stats.peakUsage = max s.stats.peakUsage s'.stats.currentUsage)
    (htotal : s'.stats.totalAllocations = addSize s.stats.totalAllocations 1) :
    Booked s' ⟨record live (reply + 8) size, s'.stats.currentUsage :: h.seen, h.served + 1⟩ := by
  have hne : reply + 8 ≠ 0 := by omega
  obtain ⟨hold, hmost⟩ := hb.peak
  rw [record_of_ne hne] at hsum hcurrent ⊢
  refine ⟨hready, halign, hlibc, ?_, ?_, hsum, hcurrent, ⟨?_, ?_⟩, ?_, ?_⟩
  · refine List.nodup_cons.mpr ⟨?_, hdistinct⟩
    intro hmem
    obtain ⟨x, hx, heq⟩ := List.mem_map.mp hmem
    obtain ⟨blk, hworded, helse⟩ := hrest x hx
    have hptr := hworded.ptr
    omega
  · intro x hx
    rcases List.mem_cons.mp hx with rfl | hx
    · exact ⟨_, hnew⟩
    · obtain ⟨blk, hworded, _⟩ := hrest x hx
      exact ⟨blk, hworded⟩
  · rw [hpeak]
    rcases Nat.le_total s.stats.peakUsage s'.stats.currentUsage with hle | hle
    · rw [Nat.max_eq_right hle]
      exact List.mem_cons_self
    · rw [Nat.max_eq_left hle]
      exact List.mem_cons_of_mem _ hold
  · rw [hpeak]
    intro u hu
    rcases List.mem_cons.mp hu with rfl | hu
    · exact Nat.le_max_right _ _
    · exact Nat.le_trans (hmost u hu) (Nat.le_max_left _ _)
  · rw [hpeak]
    exact Nat.le_max_right _ _
  · rw [htotal, hb.total]
    exact Nat.mod_add_mod _ _ _

/-- The usage is seen once more, and the counters stay. -/
theorem Booked.again (hb : Booked s h) :
    Booked s ⟨h.live, s.stats.currentUsage :: h.seen, h.served⟩ := by
  obtain ⟨hold, hmost⟩ := hb.peak
  refine ⟨hb.ready, hb.alignment, hb.libc, hb.distinct, hb.worded, hb.sum, hb.current,
    ⟨List.mem_cons_of_mem _ hold, ?_⟩, hb.below, hb.total⟩
  intro u hu
  rcases List.mem_cons.mp hu with rfl | hu
  · exact hb.below
  · exact hmost u hu

/-- The block of a live pointer begins right below it. -/
theorem Booked.block (hb : Booked s h) {ptr : ℕ} (hlive : ptr ∈ h.live.map Prod.fst) :
    ∃ x ∈ h.live, x.1 = ptr ∧ 8 ≤ ptr ∧ ptr % 16 = 8 ∧ ptr < sizeModulus ∧
      (∃ n, (ptr - 8, n) ∈ s.libc) ∧ readWord s.bytes (ptr - 8) = counted x.2 := by
  obtain ⟨x, hx, rfl⟩ := List.mem_map.mp hlive
  obtain ⟨blk, hworded⟩ := hb.worded x hx
  have hptr := hworded.ptr
  have haligned := hworded.block.aligned
  have hspace := hworded.block.in_space
  have hroom := hworded.room
  have hbase : x.1 - 8 = blk.1 := by omega
  refine ⟨x, hx, rfl, by omega, by omega, by omega, ⟨blk.2, ?_⟩, ?_⟩
  · rw [hbase]
    exact hworded.mem
  · rw [hbase]
    exact hworded.word

/-- The other live pointers keep their blocks when that of `ptr` is given back. -/
theorem Booked.remaining (hb : Booked s h) {ptr : ℕ} (hptr : 8 ≤ ptr) {gone : ℕ × ℕ}
    (hgone : gone.1 = ptr - 8) {x : ℕ × ℕ} (hx : x ∈ forget h.live ptr) :
    ∃ blk, Worded s x blk ∧ blk ∈ s.libc.erase gone ∧ blk.1 ≠ ptr - 8 := by
  obtain ⟨hmem, hne⟩ := mem_forget.mp hx
  obtain ⟨blk, hworded⟩ := hb.worded x hmem
  have hxptr := hworded.ptr
  have helse : blk.1 ≠ ptr - 8 := by omega
  refine ⟨blk, hworded, (List.mem_erase_of_ne ?_).mpr hworded.mem, helse⟩
  rintro rfl
  exact helse hgone

/-! ### The calls -/

/-- A request that passes the overflow check is padded by 15 bytes. -/
theorem totalSize_eight {size : ℕ} (hsize : size < sizeModulus)
    (hroom : size < totalSize 8 size) : totalSize 8 size = size + 15 := by
  have heq := totalSize_eq 8 size
  unfold sizeModulus at *
  omega

/-- The state after a served request, whose payload may have been cleared. -/
theorem Booked.malloc (hb : Booked s h) {reply size : ℕ} (hsize : size < sizeModulus)
    (hroom : counted size < totalSize 8 (counted size))
    (hblock : Placed reply (totalSize 8 (counted size)))
    (hapart : ∀ blk ∈ s.libc, Apart (reply, totalSize 8 (counted size)) blk)
    (hsum : usage (record h.live (reply + 8) size) < sizeModulus) {m : Mem}
    (hclear : DiffersWithin (writeWord s.bytes reply (counted size)) m (reply + 8)
      (reply + totalSize 8 (counted size)))
    {s' : State} (hs' : s' = { obtained s reply (reply + 8) (counted size)
      (noteAllocation (charged s.stats (counted size))) with bytes := m }) :
    Booked s' ⟨record h.live (reply + 8) size, s'.stats.currentUsage :: h.seen, h.served + 1⟩ := by
  have hcounted := counted_lt hsize
  have hwide : 8 + counted size ≤ totalSize 8 (counted size) := by
    rw [totalSize_eight hcounted hroom]
    omega
  have hlibc : s'.libc = (reply, totalSize 8 (counted size)) :: s.libc := by
    rw [hs', obtained, hb.alignment]
  have hbytes : s'.bytes = m := by rw [hs']
  have hdiff : DiffersWithin s.bytes s'.bytes reply (reply + totalSize 8 (counted size)) := by
    rw [hbytes]
    exact ((writeWord_differs s.bytes reply _).mono (Nat.le_refl _) (by omega)).trans
      (hclear.mono (by omega) (Nat.le_refl _))
  have hstats : s'.stats = noteAllocation (charged s.stats (counted size)) := by
    rw [hs', obtained]
  obtain ⟨hcurrent, hpeak, htotals⟩ := notePeak_spec (charged s.stats (counted size))
  have hne : reply + 8 ≠ 0 := by omega
  have hcharged : (charged s.stats (counted size)).currentUsage =
      usage (record h.live (reply + 8) size) := by
    rw [usage_record hne] at hsum ⊢
    unfold charged
    rw [hb.current]
    exact addSize_of_lt hsum
  have hcurrent' : s'.stats.currentUsage = usage (record h.live (reply + 8) size) := by
    rw [hstats, noteAllocation]
    exact hcurrent.trans hcharged
  apply hb.serve
  · refine ⟨?_, ?_⟩
    · rw [hs', obtained]
      exact hb.ready.initialized
    · rw [hs', obtained]
      exact hb.ready.system
  · rw [hs', obtained]
    exact hb.alignment
  · rw [hlibc]
    exact List.pairwise_cons.mpr ⟨hapart, hb.libc⟩
  · refine ⟨?_, rfl, hblock, hwide, ?_, hsize⟩
    · rw [hlibc]
      exact List.mem_cons_self
    · simp only
      rw [hbytes, readWord_congr (hclear.agreeOn (Or.inl (Nat.le_refl _))), readWord_writeWord]
      exact Nat.mod_eq_of_lt hcounted
  · intro x hx
    obtain ⟨blk, hworded⟩ := hb.worded x hx
    obtain ⟨hbase, hside⟩ := hapart blk hworded.mem
    have hbroom := hworded.room
    refine ⟨blk, hworded.frame ?_ hdiff (by omega), fun heq => hbase heq.symm⟩
    rw [hlibc]
    exact List.mem_cons_of_mem _ hworded.mem
  · exact hb.distinct
  · exact hsum
  · exact hcurrent'
  · rw [hcurrent', ← hcharged, hstats, noteAllocation]
    exact hpeak
  · rw [hstats, noteAllocation]
    exact congrArg (addSize · 1) htotals

/-- `infra_free` of a live pointer. -/
theorem Booked.free (hb : Booked s h) {ptr : ℕ} (hlive : ptr ∈ h.live.map Prod.fst) :
    ∃ s', (∀ fuel, infraFree fuel s ptr = .ok s') ∧
      Booked s' ⟨forget h.live ptr, s'.stats.currentUsage :: h.seen, h.served⟩ := by
  obtain ⟨x, hx, rfl, hlow, _, hlt, ⟨n, hblock⟩, hword⟩ := hb.block hlive
  obtain ⟨gone, hmem, hgone, hrun⟩ := infraFree_system hb.ready hlow hlt hblock
  have hsum := usage_forget hb.distinct hx
  have hbound := hb.sum
  obtain ⟨hold, hmost⟩ := hb.peak
  have hcurrent : subSize s.stats.currentUsage (readWord s.bytes (x.1 - 8)) =
      usage (forget h.live x.1) := by
    rw [hword, hb.current, subSize_of_le hbound (by omega)]
    omega
  have hbelow := hb.below
  rw [hb.current] at hbelow
  refine ⟨_, hrun, ⟨hb.ready.initialized, hb.ready.system⟩, hb.alignment,
    hb.libc.sublist List.erase_sublist, forget_distinct hb.distinct x.1, ?_, ?_, hcurrent,
    ⟨List.mem_cons_of_mem _ hold, ?_⟩, ?_, hb.total⟩
  · intro y hy
    obtain ⟨blk, hworded, hkept, _⟩ := hb.remaining hlow hgone hy
    exact ⟨blk, hkept, hworded.ptr, hworded.block, hworded.room, hworded.word, hworded.size⟩
  · simp only
    omega
  · intro u hu
    rcases List.mem_cons.mp hu with heq | hu
    · rw [heq.trans hcurrent]
      exact Nat.le_trans (by omega) hbelow
    · exact hmost u hu
  · simp only [hcurrent]
    omega

/-- `infra_realloc` of a live pointer that `realloc` has moved to `reply`. -/
theorem Booked.moved (hb : Booked s h) {x : ℕ × ℕ} (hx : x ∈ h.live) {size reply : ℕ}
    (hsize : size < sizeModulus) (hzero : size ≠ 0) (hover : size < addSize 8 size)
    (hblock : Placed reply (addSize 8 size))
    (hapart : ∀ blk ∈ s.libc, blk.1 ≠ x.1 - 8 → Apart (reply, addSize 8 size) blk)
    (hsum : usage (record (forget h.live x.1) (reply + 8) size) < sizeModulus) {gone : ℕ × ℕ}
    (hmem : gone ∈ s.libc) (hgone : gone.1 = x.1 - 8) {s' : State}
    (hs' : s' = SystemBlocks.moved s reply x.1 size gone) :
    Booked s' ⟨record (forget h.live x.1) (reply + 8) size, s'.stats.currentUsage :: h.seen,
      h.served + 1⟩ := by
  obtain ⟨y, hy, heq, hlow, _, _, _, hword⟩ := hb.block (List.mem_map_of_mem hx)
  have hyx : y = x := by
    have hinj := List.inj_on_of_nodup_map hb.distinct
    exact hinj hy hx heq
  subst hyx
  have htotal : addSize 8 size = 8 + size := by
    have hspace := hblock.in_space
    unfold addSize sizeModulus at *
    omega
  have hcounted : counted size = size := if_neg hzero
  have hlibc : s'.libc = (reply, addSize 8 size) :: s.libc.erase gone := by
    rw [hs', SystemBlocks.moved]
  have hbytes : s'.bytes = writeWord
      (copy s.bytes reply (y.1 - 8) (min gone.2 (addSize 8 size))) reply size := by
    rw [hs', SystemBlocks.moved]
  have hstats : s'.stats = notePeak
      { s.stats with
        currentUsage :=
          addSize (subSize s.stats.currentUsage (readWord s.bytes (y.1 - 8))) size
        totalAllocations := addSize s.stats.totalAllocations 1 } := by
    rw [hs', SystemBlocks.moved]
  have hdiff : DiffersWithin s.bytes s'.bytes reply (reply + addSize 8 size) := by
    rw [hbytes]
    exact ((copy_differs s.bytes reply _ _).mono (Nat.le_refl _) (by omega)).trans
      ((writeWord_differs _ reply size).mono (Nat.le_refl _) (by omega))
  have hne : reply + 8 ≠ 0 := by omega
  have hrest := usage_forget hb.distinct hx
  have hbound := hb.sum
  have hcurrent : addSize (subSize s.stats.currentUsage (readWord s.bytes (y.1 - 8))) size =
      usage (record (forget h.live y.1) (reply + 8) size) := by
    rw [usage_record hne, hcounted] at hsum ⊢
    have hsub : subSize s.stats.currentUsage (readWord s.bytes (y.1 - 8)) =
        usage (forget h.live y.1) := by
      rw [hword, hb.current, subSize_of_le hbound (by omega)]
      omega
    rw [hsub]
    exact addSize_of_lt hsum
  obtain ⟨hcur, hpeak, htotals⟩ := notePeak_spec
    { s.stats with
      currentUsage := addSize (subSize s.stats.currentUsage (readWord s.bytes (y.1 - 8))) size
      totalAllocations := addSize s.stats.totalAllocations 1 }
  rw [← hstats] at hcur hpeak htotals
  have hcurrent' := hcur.trans hcurrent
  apply hb.serve
  · refine ⟨?_, ?_⟩
    · rw [hs', SystemBlocks.moved]
      exact hb.ready.initialized
    · rw [hs', SystemBlocks.moved]
      exact hb.ready.system
  · rw [hs', SystemBlocks.moved]
    exact hb.alignment
  · rw [hlibc]
    refine List.pairwise_cons.mpr ⟨?_, hb.libc.sublist List.erase_sublist⟩
    intro blk hblk
    apply hapart blk (List.mem_of_mem_erase hblk)
    rw [← hgone]
    exact erase_elsewhere hb.libc hmem hblk
  · refine ⟨?_, rfl, hblock, ?_, ?_, hsize⟩
    · rw [hlibc]
      exact List.mem_cons_self
    · change 8 + counted size ≤ addSize 8 size
      rw [hcounted, htotal]
    · simp only
      rw [hbytes, readWord_writeWord, hcounted]
      exact Nat.mod_eq_of_lt hsize
  · intro z hz
    obtain ⟨blk, hworded, hkept, helse⟩ := hb.remaining hlow hgone hz
    obtain ⟨hbase, hside⟩ := hapart blk hworded.mem helse
    have hbroom := hworded.room
    refine ⟨blk, hworded.frame ?_ hdiff (by omega), fun heq => hbase heq.symm⟩
    rw [hlibc]
    exact List.mem_cons_of_mem _ hkept
  · exact forget_distinct hb.distinct y.1
  · exact hsum
  · exact hcurrent'
  · rw [hcurrent', ← hcurrent]
    exact hpeak
  · exact htotals

/-- A store into a live payload. -/
theorem Booked.store (hb : Booked s h) {ptr size off : ℕ} (hlive : (ptr, size) ∈ h.live)
    (hoff : off < size) (v : UInt8) :
    Booked { s with bytes := writeByte s.bytes (ptr + off) v } h := by
  refine ⟨⟨hb.ready.initialized, hb.ready.system⟩, hb.alignment, hb.libc, hb.distinct, ?_, hb.sum,
    hb.current, hb.peak, hb.below, hb.total⟩
  intro x hx
  obtain ⟨own, howned⟩ := hb.worded _ hlive
  obtain ⟨blk, hworded⟩ := hb.worded x hx
  refine ⟨blk, hworded.frame hworded.mem (writeByte_differs s.bytes (ptr + off) v) ?_⟩
  have hptr := howned.ptr
  have hroom := howned.room
  have hle := le_counted size
  simp only at hptr hroom
  by_cases heq : blk = own
  · subst heq
    left
    omega
  · have : Std.Symm Apart := ⟨fun _ _ => apart_comm⟩
    obtain ⟨_, hside⟩ := hb.libc.forall hworded.mem howned.mem heq
    have hbroom := hworded.room
    omega

/-- `infra_malloc` returns null and changes nothing, or serves the request;
its payload may then be cleared. -/
theorem Booked.infraMalloc_cases (hb : Booked s h) {reply size : ℕ} (hsize : size < sizeModulus)
    (hlibc : reply = 0 ∨ (Placed reply (totalSize 8 (counted size)) ∧
      ∀ blk ∈ s.libc, Apart (reply, totalSize 8 (counted size)) blk)) :
    (∀ fuel, infraMalloc fuel reply s size = .ok (s, 0)) ∨
      ∃ t, (∀ fuel, infraMalloc fuel reply s size = .ok (t, reply + 8)) ∧
        reply + 8 + size < sizeModulus ∧
        ∀ m, DiffersWithin t.bytes m (reply + 8) (reply + 8 + size) →
          usage (record h.live (reply + 8) size) < sizeModulus →
            Booked { t with bytes := m } ⟨record h.live (reply + 8) size,
              t.stats.currentUsage :: h.seen, h.served + 1⟩ := by
  by_cases hserves : counted size < totalSize 8 (counted size) ∧ reply ≠ 0
  · obtain ⟨hroom, hreply⟩ := hserves
    obtain ⟨hblock, hapart⟩ := hlibc.resolve_left hreply
    have haligned := hblock.aligned
    have hspace := hblock.in_space
    have htotal := totalSize_eight (counted_lt hsize) hroom
    have hle := le_counted size
    have halign : alignSize (reply + 8) s.config.poolAlignment = reply + 8 := by
      rw [hb.alignment]
      exact align_of_dvd (Or.inl rfl) (by omega) (by omega)
    have hbase : subSize (reply + 8) 8 = reply := by
      rw [subSize_of_le (by omega) (by omega)]
      omega
    have hbytes : (obtained s reply (reply + 8) (counted size)
        (noteAllocation (charged s.stats (counted size)))).bytes =
          writeWord s.bytes reply (counted size) := by
      unfold obtained
      rw [hbase]
    right
    refine ⟨obtained s reply (reply + 8) (counted size)
      (noteAllocation (charged s.stats (counted size))), fun fuel => ?_, by omega,
      fun m hclear hsum => ?_⟩
    · have hrun := infraMalloc_obtained hb.ready hreply (hb.alignment.symm ▸ hroom)
        (by rw [halign]; omega) fuel
      rwa [halign] at hrun
    · rw [hbytes] at hclear
      exact hb.malloc hsize hroom hblock hapart hsum
        (hclear.mono (Nat.le_refl _) (by omega)) rfl
  · left
    exact infraMalloc_unserved hb.ready (hb.alignment.symm ▸ hserves)

/-- A call returns, with counters that agree with the history; if it fails they
are the same as before. -/
structure Counts (s : State) (h : History) (reply : ℕ) (c : Call) (s' : State) (ptr : ℕ) :
    Prop where
  returns : ∀ fuel, perform fuel reply s c = .ok (s', ptr)
  booked : usage (account h.live ptr c) < sizeModulus →
    Booked s' (h.after c ptr s'.stats.currentUsage)
  failed : Fails ptr c → s'.stats = s.stats

/-- A call that leaves everything as it is. -/
theorem Booked.idle (hb : Booked s h) {reply : ℕ} {c : Call}
    (hret : ∀ fuel, perform fuel reply s c = .ok (s, 0)) (hsame : account h.live 0 c = h.live)
    (hnone : successes 0 c = 0) : Counts s h reply c s 0 := by
  refine ⟨hret, fun _ => ?_, fun _ => rfl⟩
  unfold History.after
  rw [hsame, hnone]
  exact hb.again

/-- Replies to `infra_malloc` and `infra_calloc` are apart from all blocks. -/
theorem Booked.fresh (hb : Booked s h) {reply size : ℕ} {c : Call} (hstays : ∀ blk, Stays c blk)
    (hasks : asksFor s c = totalSize s.config.poolAlignment (counted size))
    (hlibc : Fresh s reply c) :
    reply = 0 ∨ (Placed reply (totalSize 8 (counted size)) ∧
      ∀ blk ∈ s.libc, Apart (reply, totalSize 8 (counted size)) blk) := by
  unfold Fresh at hlibc
  rw [hasks, hb.alignment] at hlibc
  rcases hlibc with hzero | ⟨hblock, hapart⟩
  · exact Or.inl hzero
  · exact Or.inr ⟨hblock, fun blk hblk => hapart blk hblk (hstays blk)⟩

theorem Booked.callMalloc (hb : Booked s h) {reply size : ℕ}
    (hadm : Admissible h.live (.malloc size)) (hlibc : Fresh s reply (.malloc size)) :
    ∃ s' ptr, Counts s h reply (.malloc size) s' ptr := by
  have hne : reply + 8 ≠ 0 := by omega
  have hasks : asksFor s (.malloc size) = totalSize s.config.poolAlignment (counted size) := by
    rw [asksFor]
  have hfresh := hb.fresh (c := .malloc size) (fun _ => trivial) hasks hlibc
  rcases hb.infraMalloc_cases hadm hfresh with hnull | ⟨t, hrun, _, hserved⟩
  · exact ⟨s, 0, hb.idle hnull rfl rfl⟩
  · refine ⟨t, reply + 8, hrun, fun hsum => ?_, fun hfail => absurd hfail hne⟩
    have hone : successes (reply + 8) (.malloc size) = 1 := by rw [successes, if_neg hne]
    unfold History.after
    rw [hone]
    exact hserved t.bytes (DiffersWithin.refl _ _ _) hsum

theorem Booked.callCalloc (hb : Booked s h) {reply nmemb size : ℕ}
    (hlibc : Fresh s reply (.calloc nmemb size)) :
    ∃ s' ptr, Counts s h reply (.calloc nmemb size) s' ptr := by
  have hne : reply + 8 ≠ 0 := by omega
  by_cases hzero : nmemb = 0 ∨ size = 0
  · exact ⟨s, 0, hb.idle (fun _ => infraCalloc_zero hzero) rfl rfl⟩
  have hasks : asksFor s (.calloc nmemb size) =
      totalSize s.config.poolAlignment (counted (mulSize nmemb size)) := by
    rw [asksFor]
  have hfresh := hb.fresh (c := .calloc nmemb size) (fun _ => trivial) hasks hlibc
  rcases hb.infraMalloc_cases (mulSize_lt nmemb size) hfresh with hnull | ⟨t, hrun, hspace, hserved⟩
  · exact ⟨s, 0, hb.idle (fun fuel =>
      infraCalloc_null hb.ready.initialized hzero (hnull fuel)) rfl rfl⟩
  · obtain ⟨m, hclear, hdiff, _⟩ := infraMemset_inside t.bytes 0 hspace
    refine ⟨{ t with bytes := m }, reply + 8, fun fuel => ?_, fun hsum => ?_,
      fun hfail => absurd hfail hne⟩
    · exact infraCalloc_cleared hb.ready.initialized hzero (hrun fuel) hne hclear
    · have hone : successes (reply + 8) (.calloc nmemb size) = 1 := by rw [successes, if_neg hne]
      unfold History.after
      rw [hone]
      exact hserved _ hdiff hsum

theorem Booked.callFree (hb : Booked s h) {reply ptr : ℕ}
    (hlive : ptr ∈ h.live.map Prod.fst) : ∃ s' p, Counts s h reply (.free ptr) s' p := by
  obtain ⟨s', hrun, hbooked⟩ := hb.free hlive
  refine ⟨s', 0, fun fuel => ?_, fun _ => hbooked, fun hfail => hfail.elim⟩
  simp only [perform, hrun fuel]
  rfl

theorem Booked.callRealloc (hb : Booked s h) {reply ptr size : ℕ}
    (hadm : Admissible h.live (.realloc ptr size)) (hlibc : Fresh s reply (.realloc ptr size)) :
    ∃ s' p, Counts s h reply (.realloc ptr size) s' p := by
  obtain ⟨hsize, hlive⟩ := hadm
  have hready : ¬ (!s.initialized) = true := by simp [hb.ready.initialized]
  by_cases hzero : size = 0
  · subst hzero
    obtain ⟨s', hrun, hbooked⟩ := hb.free hlive
    refine ⟨s', 0, fun fuel => ?_, fun _ => hbooked, fun hfail => absurd rfl hfail.1⟩
    simp only [perform, infraRealloc, if_neg hready, hrun fuel]
    rfl
  obtain ⟨x, hx, rfl, _, hmod, _, ⟨n, hblock⟩, _⟩ := hb.block hlive
  rcases infraRealloc_system hb.ready reply hmod hzero hblock with
    hnull | ⟨hreply, hover, gone, hmem, hgone, hrun⟩
  · refine ⟨s, 0, hb.idle hnull ?_ ?_⟩
    · simp [account, hzero]
    · simp [successes]
  · obtain ⟨hfresh, hapart⟩ := hlibc.resolve_left hreply
    have hne : reply + 8 ≠ 0 := by omega
    refine ⟨_, _, hrun, fun hsum => ?_, fun hfail => absurd hfail.2 hne⟩
    have haccount : account h.live (reply + 8) (.realloc x.1 size) =
        record (forget h.live x.1) (reply + 8) size := by
      rw [account, if_neg hzero, if_neg hne]
    have hone : successes (reply + 8) (.realloc x.1 size) = 1 := by
      rw [successes, if_neg (by omega)]
    unfold History.after
    rw [hone]
    rw [haccount] at hsum ⊢
    exact hb.moved hx hsize hzero hover hfresh hapart hsum hmem hgone rfl

theorem Booked.call (hb : Booked s h) {reply : ℕ} {c : Call} (hadm : Admissible h.live c)
    (hlibc : Fresh s reply c) : ∃ s' ptr, Counts s h reply c s' ptr := by
  cases c with
  | malloc size => exact hb.callMalloc hadm hlibc
  | calloc nmemb size => exact hb.callCalloc hlibc
  | realloc ptr size => exact hb.callRealloc hadm hlibc
  | free ptr => exact hb.callFree hadm

end Counters

/-! ### Runs -/

/-- The counters agree with the history in every state of a run. -/
theorem booked_of_run {cfg : Config} (ha : cfg.poolAlignment = 8) {s : State} {h : History}
    (hrun : UsageRun cfg s h) : Booked s h := by
  induction hrun with
  | start hs hlibc =>
    obtain ⟨hready, hconfig, hzero⟩ := Ready.started hs
    refine ⟨hready, hconfig ▸ ha, hlibc, List.nodup_nil, by simp, sizeModulus_pos, ?_, ?_, ?_, ?_⟩
    · rw [hzero]
      rfl
    · simp [hzero, Stats.zero]
    · simp [hzero, Stats.zero]
    · rw [hzero]
      rfl
  | call _ hadm hlibc hret hsum ih =>
    obtain ⟨t, p, hcounts⟩ := ih.call hadm hlibc
    obtain ⟨rfl, rfl⟩ := Prod.mk.inj
      (Except.ok.inj (hret.unique ⟨0, fun fuel _ => hcounts.returns fuel⟩))
    exact hcounts.booked hsum
  | store _ hlive hoff v ih => exact ih.store hlive hoff v

/-- What holds of the counters in a state; the number of allocations is kept in
a `size_t`. -/
structure StatsRight (s : State) (h : History) : Prop where
  current : s.stats.currentUsage = usage h.live
  peak : s.stats.peakUsage ∈ h.seen ∧ ∀ u ∈ h.seen, u ≤ s.stats.peakUsage
  total : s.stats.totalAllocations = h.served % sizeModulus
  failed : ∀ reply c s' ptr, Admissible h.live c → Fresh s reply c →
    Settles (fun fuel => perform fuel reply s c) (.ok (s', ptr)) → Fails ptr c →
      s'.stats = s.stats
  returns : ∀ reply c, Admissible h.live c → Fresh s reply c →
    ∃ s' ptr, Settles (fun fuel => perform fuel reply s c) (.ok (s', ptr))

/-- In every run with the default alignment the counters are right. -/
theorem stats_right {cfg : Config} (ha : cfg.poolAlignment = 8) {s : State} {h : History}
    (hrun : UsageRun cfg s h) : StatsRight s h := by
  have hb := booked_of_run ha hrun
  refine ⟨hb.current, hb.peak, hb.total, ?_, ?_⟩
  · intro reply c s' ptr hadm hlibc hret hfail
    obtain ⟨t, p, hcounts⟩ := hb.call hadm hlibc
    obtain ⟨rfl, rfl⟩ := Prod.mk.inj
      (Except.ok.inj (hret.unique ⟨0, fun fuel _ => hcounts.returns fuel⟩))
    exact hcounts.failed hfail
  · intro reply c hadm hlibc
    obtain ⟨s', ptr, hcounts⟩ := hb.call hadm hlibc
    exact ⟨s', ptr, 0, fun fuel _ => hcounts.returns fuel⟩

/-! ### The counter of allocations wraps -/

/-- A request with nothing outstanding is served at 4096. -/
theorem serves_alone {s : State} {h : History} (hrun : UsageRun ⟨false, 1024, 8⟩ s h)
    (hlive : h.live = []) (hlibc : s.libc = []) {size : ℕ} (hsmall : size < 1024) :
    ∃ t u, UsageRun ⟨false, 1024, 8⟩ t ⟨[(4104, size)], u :: h.seen, h.served + 1⟩ ∧
      t.libc = [(4096, totalSize 8 (counted size))] := by
  have hb := booked_of_run rfl hrun
  have hcounted : counted size ≤ 1024 := by
    unfold counted
    split <;> omega
  have htotal : totalSize 8 (counted size) = counted size + 15 := by
    rw [totalSize_eq]
    unfold sizeModulus
    omega
  have halign : alignSize (4096 + 8) s.config.poolAlignment = 4104 := by
    rw [hb.alignment]
    decide
  have hreply : 4096 ≠ 0 := by omega
  have hroom : counted size < totalSize s.config.poolAlignment (counted size) := by
    rw [hb.alignment, htotal]
    omega
  have hptr : alignSize (4096 + 8) s.config.poolAlignment ≠ 0 := by
    rw [halign]
    omega
  have hmalloc := infraMalloc_obtained hb.ready hreply hroom hptr
  rw [halign] at hmalloc
  have hfresh : Fresh s 4096 (.malloc size) := by
    have hasks : asksFor s (.malloc size) = counted size + 15 := by
      rw [asksFor, hb.alignment, htotal]
    right
    rw [hasks, hlibc]
    refine ⟨⟨by omega, by omega, ?_⟩, by simp⟩
    unfold sizeModulus
    omega
  have hadm : Admissible h.live (.malloc size) := by
    unfold Admissible sizeModulus
    omega
  have haccount : account h.live 4104 (.malloc size) = [(4104, size)] := by
    rw [hlive]
    rfl
  have hsum : usage (account h.live 4104 (.malloc size)) < sizeModulus := by
    rw [haccount, usage_cons]
    simp only [usage, List.map_nil, List.sum_nil, sizeModulus]
    omega
  have hcall := hrun.call (c := .malloc size) hadm hfresh ⟨0, fun fuel _ => hmalloc fuel⟩ hsum
  unfold History.after at hcall
  rw [haccount] at hcall
  refine ⟨_, _, hcall, ?_⟩
  rw [obtained, hb.alignment, hlibc]

/-- Runs of any number of allocations. -/
theorem run_of_served (n : ℕ) : ∃ s seen, UsageRun ⟨false, 1024, 8⟩ s ⟨[], seen, n⟩ ∧
    s.libc = [] := by
  induction n with
  | zero =>
    have hnil : (systemAt 8).libc = [] := rfl
    have hrun := UsageRun.start (systemAt_started (by decide : 8 < sizeModulus))
      (hnil ▸ List.Pairwise.nil)
    exact ⟨_, _, hrun, hnil⟩
  | succ n ih =>
    obtain ⟨s, seen, hrun, hlibc⟩ := ih
    obtain ⟨t, u, hserved, hblocks⟩ := serves_alone hrun rfl hlibc (by decide : 1 < 1024)
    have hb := booked_of_run rfl hserved
    have hlive : 4104 ∈ ([(4104, 1)] : Live).map Prod.fst := List.mem_cons_self
    obtain ⟨_, _, _, hlow, _, hlt, ⟨m, hblock⟩, _⟩ := hb.block hlive
    obtain ⟨gone, hmem, _, hrun⟩ := infraFree_system hb.ready hlow hlt hblock
    obtain ⟨s', hfree, hleft⟩ : ∃ s', (∀ fuel, infraFree fuel t 4104 = .ok s') ∧
        s'.libc = t.libc.erase gone := ⟨_, hrun, rfl⟩
    have hnil : s'.libc = [] := by
      rw [hblocks] at hmem hleft
      obtain rfl := List.mem_singleton.mp hmem
      simpa using hleft
    have haccount : account [(4104, 1)] 0 (.free 4104) = [] := by
      simp [account, forget]
    have hsum : usage (account [(4104, 1)] 0 (.free 4104)) < sizeModulus := by
      rw [haccount]
      exact sizeModulus_pos
    have hadm : Admissible [(4104, 1)] (.free 4104) := hlive
    have hret : ∀ fuel, perform fuel 0 t (.free 4104) = .ok (s', 0) := by
      intro fuel
      rw [perform, hfree fuel]
      rfl
    have hstep := hserved.call (c := .free 4104) hadm (Or.inl rfl) ⟨0, fun fuel _ => hret fuel⟩ hsum
    unfold History.after at hstep
    rw [haccount] at hstep
    exact ⟨_, _, hstep, hnil⟩

/-- One request of 100 bytes: it is counted, and the counters are right. -/
theorem stats_right_hundred : ∃ s h, UsageRun ⟨false, 1024, 8⟩ s h ∧ StatsRight s h ∧
    s.stats.currentUsage = 100 ∧ s.stats.totalAllocations = 1 := by
  obtain ⟨s, seen, hrun, hlibc⟩ := run_of_served 0
  obtain ⟨t, u, hserved, _⟩ := serves_alone hrun rfl hlibc (by decide : 100 < 1024)
  have hright := stats_right rfl hserved
  exact ⟨t, _, hserved, hright, hright.current, hright.total⟩

/-- The counter is a `size_t`: after 2^64 allocations it is 0 again. -/
theorem allocations_wrap : ∃ s h, UsageRun ⟨false, 1024, 8⟩ s h ∧
    s.stats.totalAllocations ≠ h.served := by
  obtain ⟨s, seen, hrun, _⟩ := run_of_served sizeModulus
  refine ⟨s, _, hrun, ?_⟩
  rw [(booked_of_run rfl hrun).total]
  apply Nat.ne_of_lt
  rw [Nat.mod_self]
  exact sizeModulus_pos

end Ppdb.SystemUsage
