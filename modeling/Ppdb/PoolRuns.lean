import Ppdb.PoolAllocation

/-!
Runs of a program against the memory module: calls on live pointers in any
order, and stores by the program into its own payloads. The pointers handed
out and not yet given back are recorded with the size last requested for
them. The invariant of a pool run says that the blocks tile the pool and that
the used ones are exactly the owners of the live pointers.
-/

namespace Ppdb.PoolRuns

open ByteMemory SizeArithmetic BlockHeaders PoolOperations TiledIntervals EventualResults
open PoolLayout BlockMerging BlockChoice PoolAllocation

inductive Call
  | malloc (size : ℕ)
  | calloc (nmemb size : ℕ)
  | realloc (ptr size : ℕ)
  | free (ptr : ℕ)
  deriving DecidableEq, Repr

def perform (fuel reply : ℕ) (s : State) : Call → Except Stop (State × ℕ)
  | .malloc size => infraMalloc fuel reply s size
  | .calloc nmemb size => infraCalloc fuel reply s nmemb size
  | .realloc ptr size => infraRealloc fuel reply s ptr size
  | .free ptr => do
    let s ← infraFree fuel s ptr
    .ok (s, 0)

theorem free_returns_zero {s s' : State} {reply ptr p : ℕ}
    (h : Settles (fun fuel => perform fuel reply s (.free ptr)) (.ok (s', p))) : p = 0 := by
  refine h.ensures (Q := fun r => r.2 = 0) fun fuel => ?_
  exact ensures_bind fun _ => ensures_ok rfl

/-- Live pointers with the size last requested for each. -/
abbrev Live := List (ℕ × ℕ)

def record (live : Live) (ptr size : ℕ) : Live := if ptr = 0 then live else (ptr, size) :: live

def forget (live : Live) (ptr : ℕ) : Live := live.filter (fun x => x.1 ≠ ptr)

def account (live : Live) (ptr : ℕ) : Call → Live
  | .malloc size => record live ptr size
  | .calloc nmemb size => record live ptr (mulSize nmemb size)
  | .realloc old size =>
    if size = 0 then forget live old
    else if ptr = 0 then live
    else record (forget live old) ptr size
  | .free old => forget live old

/-- Sizes are of type `size_t`, and only live pointers are given back. -/
def Admissible (live : Live) : Call → Prop
  | .malloc size => size < sizeModulus
  | .calloc nmemb size => nmemb < sizeModulus ∧ size < sizeModulus
  | .realloc ptr size => size < sizeModulus ∧ ptr ∈ live.map Prod.fst
  | .free ptr => ptr ∈ live.map Prod.fst

def Unwrapped (s : State) (size : ℕ) : Prop :=
  size + 2 * (s.config.poolAlignment - 1) ≤ sizeMax

/-- States and live pointers reached from a start, by calls that return and
that meet the condition `ok`, and by stores into live payloads. -/
inductive Run (start : State → Prop) (ok : State → Call → Prop) : State → Live → Prop
  | start {s : State} (h : start s) : Run start ok s []
  | call {s s' : State} {live : Live} {c : Call} {ptr reply : ℕ} (h : Run start ok s live)
      (hadm : Admissible live c) (hok : ok s c)
      (hret : Settles (fun fuel => perform fuel reply s c) (.ok (s', ptr))) :
      Run start ok s' (account live ptr c)
  | store {s : State} {live : Live} {ptr size off : ℕ} (h : Run start ok s live)
      (hlive : (ptr, size) ∈ live) (hsize : Unwrapped s size) (hoff : off < size) (v : UInt8) :
      Run start ok { s with bytes := writeByte s.bytes (ptr + off) v } live

theorem Run.mono {start start' : State → Prop} {ok ok' : State → Call → Prop}
    (hstart : ∀ s, start s → start' s) (hok : ∀ s c, ok s c → ok' s c) {s : State} {live : Live}
    (h : Run start ok s live) : Run start' ok' s live := by
  induction h with
  | start hs => exact .start (hstart _ hs)
  | call _ hadm hmeets hret ih => exact .call ih hadm (hok _ _ hmeets) hret
  | store _ hlive hsize hoff v ih => exact .store ih hlive hsize hoff v

/-- What the C library promises of a block of `n` bytes at `p`. -/
structure LibcBlock (p n : ℕ) : Prop where
  pos : 0 < p
  aligned : 16 ∣ p
  in_space : p + n < sizeModulus
  small : n < 2 ^ 63

/-- The pool just initialised: `infra_memory_init` in pool mode, with the
sizes it accepts and one of the two alignments in use. -/
structure Started (cfg : Config) (s : State) : Prop where
  pooled : cfg.useMemoryPool = true
  alignment : cfg.poolAlignment = 8 ∨ cfg.poolAlignment = 16
  size_ge : minBlockSize ≤ cfg.poolInitialSize
  init : ∃ before reply t, before.config = cfg ∧ LibcBlock reply cfg.poolInitialSize ∧
    initializePool reply before = some t ∧ s = { t with initialized := true }

/-- Used blocks and live pointers correspond one to one, and a request that
did not wrap fits in its block. -/
structure Owned (align : ℕ) (bs : List Block) (live : Live) : Prop where
  owners : (live.map Prod.fst).Perm ((bs.filter Block.isUsed).map Block.payload)
  room : ∀ x ∈ live, x.2 + 2 * (align - 1) ≤ sizeMax →
    ∀ b ∈ bs, b.isUsed = true → b.payload = x.1 → x.2 ≤ b.size

def PoolInv (s : State) (live : Live) : Prop :=
  ∃ bs, InService s bs ∧ bs ≠ [] ∧ Owned s.config.poolAlignment bs live

theorem payload_inj {lo hi : ℕ} {bs : List Block} (h : BlockTiles lo hi bs) {b c : Block}
    (hb : b ∈ bs) (hc : c ∈ bs) (heq : b.payload = c.payload) : b = c := by
  apply h.eq_of_addr hb hc
  unfold Block.payload at heq
  omega

theorem nodup_payload {lo hi : ℕ} {bs : List Block} (h : BlockTiles lo hi bs) :
    ((bs.filter Block.isUsed).map Block.payload).Nodup := by
  have haddr := h.nodup_addr
  have hsub : ((bs.filter Block.isUsed).map Block.addr).Nodup :=
    haddr.sublist (List.filter_sublist.map _)
  have hmap : (bs.filter Block.isUsed).map Block.payload =
      ((bs.filter Block.isUsed).map Block.addr).map (· + headerSize) := by
    rw [List.map_map]
    rfl
  rw [hmap]
  exact hsub.map fun x y hxy => by simpa using hxy

/-- A live pointer is the payload of a used block. -/
theorem Owned.owner {align : ℕ} {bs : List Block} {live : Live} (h : Owned align bs live)
    {ptr : ℕ} (hptr : ptr ∈ live.map Prod.fst) :
    ∃ b ∈ bs, b.isUsed = true ∧ b.payload = ptr := by
  obtain ⟨b, hb, heq⟩ := List.mem_map.mp (h.owners.mem_iff.mp hptr)
  obtain ⟨hmem, hused⟩ := List.mem_filter.mp hb
  exact ⟨b, hmem, hused, heq⟩

/-- The first block of a fresh pool covers it. -/
theorem initializePool_working {before t : State} {reply : ℕ}
    (hpooled : before.config.useMemoryPool = true)
    (hsize : minBlockSize ≤ before.config.poolInitialSize)
    (hlibc : LibcBlock reply before.config.poolInitialSize)
    (hinit : initializePool reply before = some t) :
    t.config = before.config ∧ t.pool.poolStart = reply ∧ ∃ original,
      Working { t with initialized := true }
        [⟨reply, before.config.poolInitialSize - headerSize, original, false⟩] := by
  have hspace := hlibc.in_space
  have hpos := hlibc.pos
  have hne : reply ≠ 0 := by omega
  have hsub : subSize before.config.poolInitialSize headerSize =
      before.config.poolInitialSize - headerSize := subSize_of_le (by omega) hsize
  unfold minBlockSize at hsize
  simp only [initializePool, hne, if_false, Option.some.injEq] at hinit
  subst hinit
  refine ⟨rfl, rfl, getOriginalSize before.bytes reply, rfl, hpooled,
    ⟨hpos, hspace, hlibc.small⟩, ?_, ?_, rfl⟩
  · refine listed_cons.mpr ⟨rfl, hne, ?_, listed_nil.mpr ?_⟩
    · have hlt : before.config.poolInitialSize - headerSize < sizeModulus := by omega
      simp [blockAt, hsub, Nat.mod_eq_of_lt hlt]
    · simp
  · refine ⟨rfl, ?_⟩
    simp only [tiles_nil, Block.stop]
    omega

/-- With one of the two alignments in use the pool is in service. -/
theorem started_inService {cfg : Config} {s : State} (h : Started cfg s) :
    ∃ original, InService s
      [⟨s.pool.poolStart, cfg.poolInitialSize - headerSize, original, false⟩] := by
  obtain ⟨before, reply, t, rfl, hlibc, hinit, rfl⟩ := h.init
  obtain ⟨hconfig, hstart, original, hworking⟩ :=
    initializePool_working h.pooled h.size_ge hlibc hinit
  refine ⟨original, rfl, hworking.pooled, hconfig ▸ h.alignment, hworking.region, ?_, ?_⟩
  · exact hstart ▸ hworking.tiled
  · intro b hb
    have hdvd := hlibc.aligned
    rw [List.mem_singleton.mp hb]
    simp only [hconfig, hstart]
    rcases h.alignment with ha | ha <;> rw [ha] <;> omega

/-- The blocks of a pool, the two counters kept of them, and the live pointers. -/
structure Books where
  blocks : List Block
  used : ℕ
  current : ℕ
  live : Live

/-- The books are those of a pool in service. -/
structure Kept (s : State) (k : Books) : Prop where
  serving : InService s k.blocks
  nonempty : k.blocks ≠ []
  owned : Owned s.config.poolAlignment k.blocks k.live
  used : s.pool.usedSize = k.used
  current : s.stats.currentUsage = k.current

theorem Kept.inv {s : State} {k : Books} (h : Kept s k) : PoolInv s k.live :=
  ⟨k.blocks, h.serving, h.nonempty, h.owned⟩

theorem started_kept {cfg : Config} {s : State} (h : Started cfg s) :
    ∃ b, b.isUsed = false ∧ Kept s ⟨[b], 0, 0, []⟩ := by
  obtain ⟨original, hserv⟩ := started_inService h
  obtain ⟨before, reply, t, _, hlibc, hinit, rfl⟩ := h.init
  have hne : reply ≠ 0 := Nat.ne_of_gt hlibc.pos
  refine ⟨_, rfl, hserv, by simp, ⟨by simp, by simp⟩, ?_, ?_⟩
  all_goals
    simp only [initializePool, hne, if_false, Option.some.injEq] at hinit
    subst hinit
    rfl

/-! ### What one operation does to the owners -/

theorem owners_served {pre post : List Block} {b : Block} {alignedSize size garbage : ℕ}
    (hfree : b.isUsed = false) (hroom : alignedSize ≤ b.size) :
    (((pre ++ served b alignedSize size garbage ++ post).filter Block.isUsed).map
        Block.payload).Perm
      (b.payload :: ((pre ++ b :: post).filter Block.isUsed).map Block.payload) := by
  obtain ⟨u, rest, heq, haddr, hused, _, _, hrest⟩ :=
    served_cases b alignedSize size garbage hroom
  have hnone : rest.filter Block.isUsed = [] :=
    List.filter_eq_nil_iff.mpr fun c hc => by simp [(hrest c hc).1]
  have hpay : u.payload = b.payload := by
    unfold Block.payload
    rw [haddr]
  rw [heq]
  simp only [List.filter_append, List.filter_cons, hused, if_true, hnone, hfree, List.map_append,
    List.map_cons, hpay, List.append_assoc, List.cons_append, List.nil_append, if_false,
    Bool.false_eq_true]
  exact List.perm_middle

/-- After a request was served, its pointer is the one new owner. -/
theorem Owned.served {lo hi : ℕ} {pre post : List Block} {b : Block} {live : Live}
    {alignedSize size original garbage : ℕ} {align : ℕ}
    (hlive : Owned align (pre ++ b :: post) live) (hfree : b.isUsed = false)
    (hroom : alignedSize ≤ b.size)
    (hsize : size + 2 * (align - 1) ≤ sizeMax → size ≤ alignedSize)
    (h' : BlockTiles lo hi (pre ++ served b alignedSize original garbage ++ post)) :
    Owned align (pre ++ PoolAllocation.served b alignedSize original garbage ++ post)
      ((b.payload, size) :: live) := by
  obtain ⟨u, rest, heq, haddr, hused, _, huroom, hrest⟩ :=
    served_cases b alignedSize original garbage hroom
  have hpay : u.payload = b.payload := by
    unfold Block.payload
    rw [haddr]
  refine ⟨?_, fun x hx hfit c hc hcused hcpay => ?_⟩
  · exact (hlive.owners.cons b.payload).trans (owners_served hfree hroom).symm
  have humem : u ∈ pre ++ PoolAllocation.served b alignedSize original garbage ++ post := by
    simp [heq]
  rcases List.mem_cons.mp hx with rfl | hx
  · have hcu : c = u := payload_inj h' hc humem (hcpay.trans hpay.symm)
    rw [hcu]
    exact (hsize hfit).trans huroom
  · -- the owner of an earlier pointer is not the block just served
    obtain ⟨d, hd, hdused, hdpay⟩ := hlive.owner (List.mem_map_of_mem (f := Prod.fst) hx)
    have hdb : d ≠ b := fun hdb => by simp [hdb, hfree] at hdused
    have hdmem : d ∈ pre ++ PoolAllocation.served b alignedSize original garbage ++ post := by
      have hd' : d ∈ pre ∨ d ∈ post := by simpa [hdb] using hd
      rcases hd' with hd' | hd' <;> simp [hd']
    rw [payload_inj h' hc hdmem (hcpay.trans hdpay.symm)]
    exact hlive.room x hx hfit d hd hdused hdpay

theorem filter_used_freed (pre : List Block) (b : Block) (post : List Block) :
    (freed pre b post).filter Block.isUsed = (pre ++ post).filter Block.isUsed := by
  rw [freed, coalesce_filter_used]
  simp

/-- An entry is taken out of a list without repeated keys by its key. -/
theorem perm_filter_ne {α : Type} (key : α → ℕ) {l front back : List α} {x : α}
    (h : l.Perm (front ++ x :: back)) (hnodup : ((front ++ x :: back).map key).Nodup) :
    (l.filter fun y => key y ≠ key x).Perm (front ++ back) := by
  have hmiddle : (front ++ x :: back).Perm (x :: (front ++ back)) := List.perm_middle
  have hcons := (hmiddle.map key).nodup_iff.mp hnodup
  rw [List.map_cons] at hcons
  have hout := (List.nodup_cons.mp hcons).1
  have hself : (front ++ back).filter (fun y => key y ≠ key x) = front ++ back := by
    refine List.filter_eq_self.mpr fun y hy => ?_
    simp only [ne_eq, decide_not, Bool.not_eq_true', decide_eq_false_iff_not]
    intro heq
    exact hout (heq ▸ List.mem_map_of_mem hy)
  have hfilter := (h.trans hmiddle).filter fun y => key y ≠ key x
  rwa [List.filter_cons_of_neg (by simp), hself] at hfilter

/-- After `infra_free` every other pointer still has its owner. -/
theorem Owned.freed {lo hi : ℕ} {pre post : List Block} {b : Block} {live : Live} {align : ℕ}
    (h : BlockTiles lo hi (pre ++ b :: post)) (hlive : Owned align (pre ++ b :: post) live)
    (hused : b.isUsed = true) :
    Owned align (PoolAllocation.freed pre b post) (forget live b.payload) := by
  have hnodup := nodup_payload h
  have hold : ((pre ++ b :: post).filter Block.isUsed).map Block.payload =
      (pre.filter Block.isUsed).map Block.payload ++
        b.payload :: (post.filter Block.isUsed).map Block.payload := by
    simp [List.filter_append, hused]
  have hnew : ((PoolAllocation.freed pre b post).filter Block.isUsed).map Block.payload =
      (pre.filter Block.isUsed).map Block.payload ++
        (post.filter Block.isUsed).map Block.payload := by
    rw [filter_used_freed]
    simp [List.filter_append]
  rw [hold] at hnodup
  refine ⟨?_, fun x hx hfit c hc hcused hcpay => ?_⟩
  · have hperm := perm_filter_ne id (hold ▸ hlive.owners) (by rwa [List.map_id])
    rw [List.filter_map] at hperm
    rw [hnew]
    exact hperm
  · have hc' : c ∈ (pre ++ post).filter Block.isUsed := by
      rw [← filter_used_freed pre b post]
      exact List.mem_filter.mpr ⟨hc, hcused⟩
    have hcmem : c ∈ pre ++ b :: post := by
      have hmem := (List.mem_filter.mp hc').1
      rcases List.mem_append.mp hmem with hp | hp <;> simp [hp]
    exact hlive.room x (List.mem_filter.mp hx).1 hfit c hcmem hcused hcpay

/-! ### One step -/

theorem record_of_ne {live : Live} {ptr size : ℕ} (h : ptr ≠ 0) :
    record live ptr size = (ptr, size) :: live := if_neg h

def Requests : Call → ℕ → Prop
  | .malloc size, n => n = size
  | .calloc nmemb size, n => nmemb ≠ 0 ∧ size ≠ 0 ∧ n = mulSize nmemb size
  | _, _ => False

def Releases : Call → ℕ → Prop
  | .free ptr, p => p = ptr
  | .realloc ptr size, p => p = ptr ∧ size = 0
  | _, _ => False

/-- What a call does to the books: nothing, or it serves its request from the
best fit, or it releases a block. -/
inductive Edit (align : ℕ) (c : Call) : Books → Books → Prop
  | idle (k : Books) : Edit align c k k
  | serve {pre post : List Block} {b : Block} {garbage size used current : ℕ} {live : Live}
      (hrequest : Requests c size)
      (hbest : bestFit (requestSize (counted size) align) (pre ++ b :: post) = some b) :
      Edit align c ⟨pre ++ b :: post, used, current, live⟩
        ⟨pre ++ served b (requestSize (counted size) align) (counted size) garbage ++ post,
          addSize used (requestSize (counted size) align), addSize current (counted size),
          (b.payload, size) :: live⟩
  | release {pre post : List Block} {b : Block} {used current : ℕ} {live : Live}
      (hrelease : Releases c b.payload) (hused : b.isUsed = true) :
      Edit align c ⟨pre ++ b :: post, used, current, live⟩
        ⟨freed pre b post, subSize used b.size, subSize current b.originalSize,
          forget live b.payload⟩

def CallEdits (s : State) (k : Books) (reply : ℕ) (c : Call) : Prop :=
  ∃ s' ptr k', Settles (fun fuel => perform fuel reply s c) (.ok (s', ptr)) ∧ Kept s' k' ∧
    SameRegion s s' ∧ k'.live = account k.live ptr c ∧ Edit s.config.poolAlignment c k k'

/-- A request that is not rounded past the address space is covered. -/
theorem covers {s : State} {bs : List Block} (h : InService s bs) {size : ℕ}
    (hfit : Unwrapped s size) : size ≤ requestSize (counted size) s.config.poolAlignment := by
  by_cases hzero : size = 0
  · omega
  · have hcount : counted size = size := if_neg hzero
    rw [hcount]
    exact le_requestSize (powerOfTwo_of_alignment h.alignment) hfit

/-- The owner of a pointer just handed out. -/
theorem served_owner (pre post : List Block) {b : Block} {req : ℕ} (size garbage : ℕ)
    (hroom : req ≤ b.size) : ∃ u ∈ pre ++ served b req size garbage ++ post,
      u.isUsed = true ∧ u.payload = b.payload ∧ req ≤ u.size := by
  obtain ⟨u, rest, heq, haddr, hused, _, huroom, _⟩ := served_cases b req size garbage hroom
  refine ⟨u, by simp [heq], hused, ?_, huroom⟩
  unfold Block.payload
  rw [haddr]

/-- `infra_malloc`, as part of the call `c`. -/
theorem malloc_edits {s : State} {k : Books} (h : Kept s k) (reply : ℕ) {size : ℕ}
    (hsize : size < sizeModulus) {c : Call} (hrequest : Requests c size) :
    ∃ s' ptr k', (∀ fuel, k.blocks.length < fuel → infraMalloc fuel reply s size = .ok (s', ptr)) ∧
      Kept s' k' ∧ SameRegion s s' ∧ k'.live = record k.live ptr size ∧
      Edit s.config.poolAlignment c k k' ∧
      (ptr ≠ 0 → (∃ b ∈ k.blocks, b.isUsed = false ∧
          requestSize (counted size) s.config.poolAlignment ≤ b.size) ∧
        ∃ u ∈ k'.blocks, u.isUsed = true ∧ u.payload = ptr ∧ (Unwrapped s size → size ≤ u.size)) := by
  obtain ⟨bs, used, current, live⟩ := k
  obtain ⟨s', ptr, hrun, hserves⟩ := infraMalloc_serves h.serving reply hsize
  rcases hserves with ⟨rfl, rfl, _⟩ |
    ⟨pre, b, post, garbage, rfl, hbest, rfl, hsame, hserv, _, hbooked⟩
  · exact ⟨s', 0, _, hrun, h, SameRegion.refl s', rfl, Edit.idle _, fun hne => absurd rfl hne⟩
  obtain ⟨hmem, hfree, hroom⟩ := bestFit_mem hbest
  have hne : b.payload ≠ 0 := by
    unfold Block.payload headerSize
    omega
  have hown := h.owned.served hfree hroom (covers h.serving) hserv.tiled.tiles
  obtain ⟨u, humem, hused, hpay, huroom⟩ := served_owner pre post (counted size)
    garbage hroom
  refine ⟨s', b.payload, _, hrun, ⟨hserv, ?_, hsame.config ▸ hown, ?_, ?_⟩, hsame,
    (record_of_ne hne).symm, Edit.serve hrequest hbest, fun _ => ⟨⟨b, hmem, hfree, hroom⟩, u, humem,
      hused, hpay, fun hfit => (covers h.serving hfit).trans huroom⟩⟩
  · exact List.ne_nil_of_mem humem
  · rw [hbooked.used, h.used]
  · rw [hbooked.current, h.current]

def NoFreeRoom (s : State) (size : ℕ) : Prop :=
  ∀ bs, Listed s.bytes s.pool.freeList bs → ∀ b ∈ bs, b.isUsed = false → b.size < size

/-- A `calloc` whose product is rounded up without wrapping, or for whose
wrapped size there is no block. -/
def CallocRounds (s : State) (nmemb size : ℕ) : Prop :=
  nmemb = 0 ∨ size = 0 ∨ Unwrapped s (mulSize nmemb size) ∨
    NoFreeRoom s (requestSize (counted (mulSize nmemb size)) s.config.poolAlignment)

/-- A write into the payload of a block leaves the books as they are. -/
theorem Kept.writePayload {s : State} {k : Books} (h : Kept s k) {b : Block} (hb : b ∈ k.blocks)
    {m : Mem} (hdiff : DiffersWithin s.bytes m b.payload b.stop) : Kept { s with bytes := m } k :=
  ⟨h.serving.writePayload hb hdiff, h.nonempty, h.owned, h.used, h.current⟩

section Clearing
variable {m : Mem} {ptr n : ℕ} {c : UInt8}

/-- Bytes in front of the end of the address space are set. -/
theorem infraMemset_inside (m : Mem) (c : UInt8) (h : ptr + n < sizeModulus) :
    ∃ m', infraMemset m ptr c n = .ok m' ∧ DiffersWithin m m' ptr (ptr + n) ∧
      (ptr ≠ 0 → ∀ i < n, m' (ptr + i) = c) := by
  by_cases hnone : ptr = 0 ∨ n = 0
  · refine ⟨m, if_pos hnone, DiffersWithin.refl _ _ _, fun hptr i hi => ?_⟩
    omega
  · refine ⟨fill m ptr c n, ?_, fill_differs m ptr c n, fun _ i hi => if_pos (by omega)⟩
    rw [infraMemset, if_neg hnone, if_neg (Nat.not_le_of_lt h)]

theorem infraMemset_faults (hptr : ptr ≠ 0) (hn : n ≠ 0) (h : sizeModulus ≤ ptr + n) :
    infraMemset m ptr c n = .error .segfault := by
  rw [infraMemset, if_neg (by omega), if_pos h]

end Clearing

section Calloc
variable {s s' : State} {m : Mem} {fuel reply nmemb size ptr : ℕ}

theorem infraCalloc_zero (hzero : nmemb = 0 ∨ size = 0) :
    infraCalloc fuel reply s nmemb size = .ok (s, 0) := by
  unfold infraCalloc
  rw [if_pos hzero, ite_self]

/-- `infra_calloc` of a product that is not 0 clears what `infra_malloc` returns. -/
theorem infraCalloc_of_malloc (hinit : s.initialized = true) (hzero : ¬ (nmemb = 0 ∨ size = 0))
    (hmalloc : infraMalloc fuel reply s (mulSize nmemb size) = .ok (s', ptr)) :
    infraCalloc fuel reply s nmemb size =
      if ptr ≠ 0 then do
        let m ← infraMemset s'.bytes ptr 0 (mulSize nmemb size)
        .ok ({ s' with bytes := m }, ptr)
      else .ok (s', ptr) := by
  have hready : ¬ (!s.initialized) = true := by simp [hinit]
  rw [infraCalloc, if_neg hready, if_neg hzero]
  dsimp only
  rw [hmalloc]
  rfl

theorem infraCalloc_null (hinit : s.initialized = true) (hzero : ¬ (nmemb = 0 ∨ size = 0))
    (hmalloc : infraMalloc fuel reply s (mulSize nmemb size) = .ok (s', 0)) :
    infraCalloc fuel reply s nmemb size = .ok (s', 0) := by
  rw [infraCalloc_of_malloc hinit hzero hmalloc, if_neg (not_not_intro rfl)]

theorem infraCalloc_cleared (hinit : s.initialized = true) (hzero : ¬ (nmemb = 0 ∨ size = 0))
    (hmalloc : infraMalloc fuel reply s (mulSize nmemb size) = .ok (s', ptr)) (hptr : ptr ≠ 0)
    (hclear : infraMemset s'.bytes ptr 0 (mulSize nmemb size) = .ok m) :
    infraCalloc fuel reply s nmemb size = .ok ({ s' with bytes := m }, ptr) := by
  rw [infraCalloc_of_malloc hinit hzero hmalloc, if_pos hptr, hclear, ok_bind]

theorem infraCalloc_faults (hinit : s.initialized = true) (hzero : ¬ (nmemb = 0 ∨ size = 0))
    (hmalloc : infraMalloc fuel reply s (mulSize nmemb size) = .ok (s', ptr)) (hptr : ptr ≠ 0)
    {e : Stop} (hclear : infraMemset s'.bytes ptr 0 (mulSize nmemb size) = .error e) :
    infraCalloc fuel reply s nmemb size = .error e := by
  rw [infraCalloc_of_malloc hinit hzero hmalloc, if_pos hptr, hclear, error_bind]

end Calloc

theorem calloc_edits {s : State} {k : Books} (h : Kept s k) (reply : ℕ) {nmemb size : ℕ}
    (hok : CallocRounds s nmemb size) : CallEdits s k reply (.calloc nmemb size) := by
  by_cases hzero : nmemb = 0 ∨ size = 0
  · exact ⟨s, 0, k, ⟨0, fun _ _ => infraCalloc_zero hzero⟩, h, SameRegion.refl s, rfl, Edit.idle k⟩
  obtain ⟨s', ptr, k', hrun, hkept, hsame, hlive, hedit, howner⟩ :=
    malloc_edits h reply (mulSize_lt nmemb size) (c := .calloc nmemb size)
      ⟨fun h0 => hzero (Or.inl h0), fun h0 => hzero (Or.inr h0), rfl⟩
  by_cases hptr : ptr = 0
  · subst hptr
    exact ⟨s', 0, k', ⟨k.blocks.length + 1, fun fuel hfuel =>
      infraCalloc_null h.serving.initialized hzero (hrun fuel hfuel)⟩, hkept, hsame, hlive, hedit⟩
  obtain ⟨⟨b, hb, hfree, hroom⟩, u, humem, hused, hupay, hcovered⟩ := howner hptr
  have hfit : Unwrapped s (mulSize nmemb size) := by
    rcases hok with h0 | h0 | hfit | hnone
    · exact absurd (Or.inl h0) hzero
    · exact absurd (Or.inr h0) hzero
    · exact hfit
    · have hlt := hnone k.blocks h.serving.tiled.listed b hb hfree
      omega
  have hsize := hcovered hfit
  have hstop : u.stop ≤ s'.pool.poolStart + s'.pool.poolSize := (hkept.serving.tiled.bounds humem).2
  have hspace := hkept.serving.region.in_space
  -- the zeroing stays inside the payload just handed out
  have hinside : ptr + mulSize nmemb size ≤ u.stop := by
    unfold Block.payload Block.stop at *
    omega
  obtain ⟨m, hclear, hdiff, _⟩ := infraMemset_inside s'.bytes 0
    (by omega : ptr + mulSize nmemb size < sizeModulus)
  have hwrite := hdiff.mono (Nat.le_of_eq hupay) hinside
  refine ⟨_, ptr, k', ⟨k.blocks.length + 1, fun fuel hfuel => infraCalloc_cleared
    h.serving.initialized hzero (hrun fuel hfuel) hptr hclear⟩,
    hkept.writePayload humem hwrite, ?_, hlive, hedit⟩
  exact ⟨hsame.initialized, hsame.config, hsame.poolStart, hsame.poolSize, hsame.freeList, hsame.libc⟩

/-- A `calloc` that returns is rounded without wrapping: clearing a product that
is not would run over the end of the address space. -/
theorem callocRounds_of_returned {s s' : State} {bs : List Block} (h : InService s bs)
    {reply nmemb size ptr : ℕ}
    (hret : Settles (fun fuel => infraCalloc fuel reply s nmemb size) (.ok (s', ptr))) :
    CallocRounds s nmemb size := by
  by_cases hzero : nmemb = 0 ∨ size = 0
  · exact hzero.elim Or.inl fun hsize => Or.inr (Or.inl hsize)
  refine Or.inr (Or.inr ?_)
  obtain ⟨t, p, hrun, hserves⟩ := infraMalloc_serves h reply (mulSize_lt nmemb size)
  rcases hserves with ⟨_, _, hnone⟩ | ⟨pre, b, post, _, hblocks, _, rfl, _⟩
  · right
    intro cs hlist
    rw [hlist.unique h.tiled.listed]
    exact bestFit_eq_none hnone
  · left
    by_contra hwrapped
    have hpayload : headerSize < b.payload := by
      have hb : b ∈ bs := by simp [hblocks]
      have hlower := (h.tiled.bounds hb).1
      have hstart := h.region.start_pos
      unfold Block.payload
      omega
    have halign := h.alignment
    have hfault : infraMemset t.bytes b.payload 0 (mulSize nmemb size) = .error .segfault := by
      unfold Unwrapped sizeMax sizeModulus headerSize at *
      exact infraMemset_faults (by omega) (by omega) (by unfold sizeModulus; omega)
    have hdies : Settles (fun fuel => infraCalloc fuel reply s nmemb size) (.error .segfault) :=
      ⟨bs.length + 1, fun fuel hfuel => infraCalloc_faults h.initialized hzero
        (hrun fuel hfuel) (by omega) hfault⟩
    cases hret.unique hdies

/-- `infra_free` of a live pointer, as part of the call `c`. -/
theorem free_edits {s : State} {k : Books} (h : Kept s k) {ptr : ℕ}
    (hptr : ptr ∈ k.live.map Prod.fst) {c : Call} (hrelease : Releases c ptr) :
    ∃ s' k', Settles (fun fuel => infraFree fuel s ptr) (.ok s') ∧ Kept s' k' ∧ SameRegion s s' ∧
      k'.live = forget k.live ptr ∧ Edit s.config.poolAlignment c k k' := by
  obtain ⟨bs, used, current, live⟩ := k
  obtain ⟨b, hb, hused, rfl⟩ := h.owned.owner hptr
  obtain ⟨pre, post, rfl⟩ := List.append_of_mem hb
  obtain ⟨s', hrun, hsame, hserv, _⟩ := infraFree_spec h.serving hused
  have hcounts := tryMergeBlocks_counts
    ((infraFree_eq h.serving.working hb hused _).symm.trans (hrun _ le_rfl))
  refine ⟨s', _, ⟨_, hrun⟩, ⟨hserv, coalesce_ne_nil (by simp), ?_, ?_, ?_⟩, hsame, rfl,
    Edit.release hrelease hused⟩
  · rw [hsame.config]
    exact h.owned.freed h.serving.tiled.tiles hused
  · exact hcounts.1.trans (congrArg (fun n => subSize n b.size) h.used)
  · rw [hcounts.2]
    exact congrArg (fun n => subSize n b.originalSize) h.current

theorem store_kept {s : State} {k : Books} (h : Kept s k) {ptr size off : ℕ}
    (hlive : (ptr, size) ∈ k.live) (hsize : Unwrapped s size) (hoff : off < size) (v : UInt8) :
    Kept { s with bytes := writeByte s.bytes (ptr + off) v } k := by
  obtain ⟨b, hb, hused, hpay⟩ := h.owned.owner (List.mem_map_of_mem (f := Prod.fst) hlive)
  have hroom : size ≤ b.size := h.owned.room _ hlive hsize b hb hused hpay
  have hpay' : b.payload = ptr := hpay
  have hwrite : DiffersWithin s.bytes (writeByte s.bytes (ptr + off) v) b.payload b.stop := by
    apply (writeByte_differs s.bytes (ptr + off) v).mono (by omega)
    unfold Block.payload Block.stop at *
    omega
  exact h.writePayload hb hwrite

/-! ### Runs without `infra_realloc` -/

/-- The calls of `infra_malloc`, `infra_free`, and those of `infra_calloc`
whose product is not rounded past the address space. -/
def Rounds (s : State) : Call → Prop
  | .malloc _ => True
  | .calloc nmemb size => CallocRounds s nmemb size
  | .realloc _ _ => False
  | .free _ => True

/-- A call that may be made returns, and edits the books. -/
theorem rounds_edits {s : State} {k : Books} (h : Kept s k) (reply : ℕ) {c : Call}
    (hadm : Admissible k.live c) (hok : Rounds s c) : CallEdits s k reply c := by
  cases c with
  | malloc size =>
    obtain ⟨s', ptr, k', hrun, hkept, hsame, hlive, hedit, _⟩ :=
      malloc_edits h reply hadm (c := .malloc size) rfl
    exact ⟨s', ptr, k', ⟨k.blocks.length + 1, fun fuel hfuel => hrun fuel hfuel⟩, hkept, hsame,
      hlive, hedit⟩
  | calloc nmemb size => exact calloc_edits h reply hok
  | realloc ptr size => exact hok.elim
  | free ptr =>
    obtain ⟨s', k', hrun, hkept, hsame, hlive, hedit⟩ := free_edits h hadm (c := .free ptr) rfl
    exact ⟨s', 0, k', hrun.bind (settles_const (Except.ok (s', 0))), hkept, hsame, hlive, hedit⟩

theorem free_returns {s : State} {k : Books} (h : Kept s k) (reply : ℕ) {ptr : ℕ}
    (hptr : ptr ∈ k.live.map Prod.fst) :
    ∃ s', Settles (fun fuel => perform fuel reply s (.free ptr)) (.ok (s', 0)) := by
  obtain ⟨s', p, _, hfree, _⟩ := rounds_edits h reply (c := .free ptr) hptr trivial
  obtain rfl : p = 0 := free_returns_zero hfree
  exact ⟨s', hfree⟩

/-- Books whose calls edit them are kept along a run, with whatever holds of
them at the start and is kept by the edits. -/
theorem run_kept {cfg : Config} {ok : State → Call → Prop} {I : Books → Prop}
    (hcall : ∀ s k c reply, Kept s k → Admissible k.live c → ok s c → CallEdits s k reply c)
    (hstart : ∀ b, b.isUsed = false → I ⟨[b], 0, 0, []⟩)
    (hkeep : ∀ s s' k k' c, ok s c → Kept s k → Kept s' k' → SameRegion s s' →
      Edit s.config.poolAlignment c k k' → I k → I k')
    {s : State} {live : Live} (h : Run (Started cfg) ok s live) :
    ∃ s₀ k, Started cfg s₀ ∧ SameRegion s₀ s ∧ Kept s k ∧ k.live = live ∧ I k := by
  induction h with
  | start hs =>
    obtain ⟨b, hfree, hkept⟩ := started_kept hs
    exact ⟨_, _, hs, SameRegion.refl _, hkept, rfl, hstart b hfree⟩
  | @call s s' live c ptr reply _ hadm hok hret ih =>
    obtain ⟨s₀, k, hs₀, hsame₀, hkept, rfl, hinv⟩ := ih
    obtain ⟨t, ptr', k', hret', hkept', hsame, hlive, hedit⟩ := hcall s k c reply hkept hadm hok
    obtain ⟨rfl, rfl⟩ := Prod.mk.inj (Except.ok.inj (hret.unique hret'))
    exact ⟨s₀, k', hs₀, hsame₀.trans hsame, hkept', hlive,
      hkeep s s' k k' c hok hkept hkept' hsame hedit hinv⟩
  | store _ hlive hsize hoff v ih =>
    obtain ⟨s₀, k, hs₀, hsame₀, hkept, rfl, hinv⟩ := ih
    exact ⟨s₀, k, hs₀, hsame₀.trans ⟨rfl, rfl, rfl, rfl, rfl, rfl⟩,
      store_kept hkept hlive hsize hoff v, rfl, hinv⟩

theorem run_books {cfg : Config} {s : State} {live : Live} (h : Run (Started cfg) Rounds s live) :
    ∃ k, Kept s k ∧ k.live = live := by
  obtain ⟨_, k, _, _, hkept, hlive, _⟩ := run_kept (I := fun _ => True)
    (fun _ _ _ reply hkept hadm hok => rounds_edits hkept reply hadm hok) (fun _ _ => trivial)
    (fun _ _ _ _ _ _ _ _ _ _ _ => trivial) h
  exact ⟨k, hkept, hlive⟩

/-- The layout of the pool: its blocks tile it from the first header on, the
live pointers are the payloads of the used blocks, one each, and the bytes
asked for lie in the pool and apart. -/
structure PoolLayout (s : State) (live : Live) (bs : List Block) : Prop where
  nonempty : bs ≠ []
  head : s.pool.freeList = s.pool.poolStart
  tiled : Tiled s bs
  nodup : (live.map Prod.fst).Nodup
  owners : (live.map Prod.fst).Perm ((bs.filter Block.isUsed).map Block.payload)
  inside : ∀ x ∈ live, Unwrapped s x.2 →
    s.pool.poolStart ≤ x.1 ∧ x.1 + x.2 ≤ s.pool.poolStart + s.pool.poolSize
  apart : live.Pairwise fun x y => Unwrapped s x.2 → Unwrapped s y.2 →
    x.1 + x.2 ≤ y.1 ∨ y.1 + y.2 ≤ x.1

theorem PoolInv.layout {s : State} {live : Live} (h : PoolInv s live) :
    ∃ bs, PoolLayout s live bs := by
  obtain ⟨bs, hserv, hne, hown⟩ := h
  have hnodup : (live.map Prod.fst).Nodup := hown.owners.nodup_iff.mpr (nodup_payload hserv.tiled.tiles)
  -- the bytes asked for lie in the owner's payload
  have hroom : ∀ x ∈ live, Unwrapped s x.2 →
      ∃ b ∈ bs, b.payload = x.1 ∧ x.1 + x.2 ≤ b.stop := by
    intro x hx hfit
    obtain ⟨b, hb, hused, hpay⟩ := hown.owner (List.mem_map_of_mem (f := Prod.fst) hx)
    have hsize := hown.room x hx hfit b hb hused hpay
    refine ⟨b, hb, hpay, ?_⟩
    unfold Block.payload at hpay
    unfold Block.stop
    omega
  refine ⟨bs, hne, ?_, hserv.tiled, hnodup, hown.owners, fun x hx hfit => ?_, ?_⟩
  · obtain ⟨b, rest, rfl⟩ := List.exists_cons_of_ne_nil hne
    exact hserv.tiled.listed.1.1.trans hserv.tiled.tiles.1
  · obtain ⟨b, hb, hpay, hstop⟩ := hroom x hx hfit
    obtain ⟨hlo, hhi⟩ := hserv.tiled.tiles.bounds hb
    unfold Block.payload at hpay
    omega
  · have hpair := List.pairwise_map.mp hnodup
    apply hpair.imp_of_mem
    intro x y hx hy hxy hfx hfy
    obtain ⟨b, hb, hbpay, hbstop⟩ := hroom x hx hfx
    obtain ⟨c, hc, hcpay, hcstop⟩ := hroom y hy hfy
    have hbc : b ≠ c := fun heq => hxy (by rw [← hbpay, ← hcpay, heq])
    obtain ⟨pre, post, rfl⟩ := List.append_of_mem hb
    obtain ⟨hpre, hpost⟩ := hserv.tiled.tiles.apart
    unfold Block.payload at hbpay hcpay
    rcases List.mem_append.mp hc with hc | hc
    · have := hpre c hc
      omega
    · rcases List.mem_cons.mp hc with hc | hc
      · exact absurd hc.symm hbc
      · have := hpost c hc
        omega

def smallConfig : Config := ⟨true, 1024, 8⟩

def smallPool : State where
  initialized := true
  config := smallConfig
  stats := Stats.zero
  pool := ⟨4096, 1024, 4096, 0, 1⟩
  bytes := setNext (setIsUsed (setSize (fun _ => 0) 4096 992) 4096 false) 4096 0
  libc := [(4096, 1024)]

theorem smallPool_started : Started smallConfig smallPool where
  pooled := rfl
  alignment := Or.inl rfl
  size_ge := by decide
  init := ⟨{ smallPool with initialized := false, bytes := fun _ => 0, libc := [] }, 4096,
    { smallPool with initialized := false }, rfl, ⟨by decide, by decide, by decide, by decide⟩,
    rfl, rfl⟩

/-- Any request that is rounded to at most 992 bytes is served from the start
of the pool. -/
theorem smallPool_takes (size : ℕ) (hsize : size < sizeModulus)
    (hroom : requestSize (counted size) 8 ≤ 992) :
    ∃ s' original garbage,
      (∀ fuel, 1 < fuel → infraMalloc fuel 0 smallPool size = .ok (s', 4128)) ∧
      InService s' (served ⟨4096, 992, original, false⟩ (requestSize (counted size) 8)
        (counted size) garbage) ∧ SameRegion smallPool s' ∧ Booked smallPool s' (counted size) := by
  obtain ⟨original, hserv⟩ := started_inService smallPool_started
  have hwhole : smallConfig.poolInitialSize - headerSize = 992 := by decide
  have halign : smallPool.config.poolAlignment = 8 := rfl
  have hstart : smallPool.pool.poolStart = 4096 := rfl
  rw [hwhole, hstart] at hserv
  obtain ⟨s', ptr, hrun, hserves⟩ := infraMalloc_serves hserv 0 hsize
  rw [halign] at hserves
  rcases hserves with ⟨_, _, hnone⟩ | ⟨pre, b, post, garbage, heq, _, rfl, hsame, hserv', _, hbooked⟩
  · have hlt := bestFit_eq_none hnone _ List.mem_cons_self rfl
    simp only at hlt
    omega
  · obtain ⟨rfl, rfl, rfl⟩ : pre = [] ∧ b = ⟨4096, 992, original, false⟩ ∧ post = [] := by
      rcases pre with _ | ⟨c, pre⟩
      · obtain ⟨rfl, rfl⟩ := List.cons.inj heq
        exact ⟨rfl, rfl, rfl⟩
      · have hlength := congrArg List.length heq
        simp at hlength
    refine ⟨s', original, garbage, hrun, ?_, hsame, hbooked⟩
    rwa [List.nil_append, List.append_nil] at hserv'

/-- In two blocks if it leaves more than 64 bytes. -/
theorem smallPool_serves (size : ℕ) (hsize : size < sizeModulus)
    (hroom : requestSize (counted size) 8 + 2 * headerSize < 992) :
    ∃ s' garbage, (∀ fuel, 1 < fuel → infraMalloc fuel 0 smallPool size = .ok (s', 4128)) ∧
      InService s' [⟨4096, requestSize (counted size) 8, counted size, true⟩,
        ⟨4128 + requestSize (counted size) 8, 960 - requestSize (counted size) 8, garbage, false⟩] ∧
      SameRegion smallPool s' ∧ Booked smallPool s' (counted size) := by
  obtain ⟨s', original, garbage, hrun, hserv, hsame, hbooked⟩ :=
    smallPool_takes size hsize (by omega)
  refine ⟨s', garbage, hrun, ?_, hsame, hbooked⟩
  have hcut : served ⟨4096, 992, original, false⟩ (requestSize (counted size) 8) (counted size)
      garbage = _ := if_pos hroom
  have hsub : 992 - requestSize (counted size) 8 - headerSize =
      960 - requestSize (counted size) 8 := by
    unfold headerSize
    omega
  simp only [hsub] at hcut
  simpa [hcut, headerSize] using hserv

/-- Behind used blocks the one free block is the best fit. -/
theorem bestFit_last {pre : List Block} {b : Block} (hpre : ∀ c ∈ pre, c.isUsed = true)
    (hfree : b.isUsed = false) {req : ℕ} (hroom : req ≤ b.size) :
    bestFit req (pre ++ [b]) = some b := by
  cases hbest : bestFit req (pre ++ [b]) with
  | none =>
    have hlt := bestFit_eq_none hbest b (by simp) hfree
    omega
  | some c =>
    obtain ⟨hmem, hcfree, _⟩ := bestFit_mem hbest
    rcases List.mem_append.mp hmem with hc | hc
    · rw [hpre c hc] at hcfree
      cases hcfree
    · rw [List.mem_singleton.mp hc]

section Last
variable {s : State} {pre : List Block} {b : Block} {size : ℕ}

def cutLast (pre : List Block) (b : Block) (req size garbage : ℕ) : List Block :=
  pre ++ [⟨b.addr, req, size, true⟩,
    ⟨b.addr + headerSize + req, b.size - req - headerSize, garbage, false⟩]

theorem cutLast_eq {req garbage : ℕ} (hcut : req + 2 * headerSize < b.size) :
    pre ++ served b req size garbage ++ [] = cutLast pre b req size garbage := by
  rw [List.append_nil, served, if_pos hcut]
  rfl

theorem serves_last_of_exact (h : Working s (pre ++ [b])) (hpre : ∀ c ∈ pre, c.isUsed = true)
    (hfree : b.isUsed = false) (hexact : Exact s b
      (requestSize (counted size) s.config.poolAlignment) (counted size))
    (hcut : requestSize (counted size) s.config.poolAlignment + 2 * headerSize < b.size) :
    ∃ s' garbage, (∀ fuel, pre.length + 1 < fuel →
        infraMalloc fuel 0 s size = .ok (s', b.payload)) ∧
      Working s' (cutLast pre b (requestSize (counted size) s.config.poolAlignment)
        (counted size) garbage) ∧
      SameRegion s s' ∧ Booked s s' (counted size) := by
  have hlast := bestFit_last hpre hfree hexact.room
  obtain ⟨s', ptr, hrun, hserves⟩ := h.infraMalloc_serves 0 size fun c hc =>
    Option.some.inj (hlast.symm.trans hc) ▸ hexact
  rw [List.length_append, List.length_singleton] at hrun
  rcases hserves with ⟨_, _, hnone⟩ |
    ⟨before, c, post, garbage, heq, hbest, rfl, hsame, hworking, _, hbooked⟩
  · rw [hlast] at hnone
    cases hnone
  · obtain rfl := Option.some.inj (hlast.symm.trans hbest)
    have hnot : b ∉ pre := by
      intro hb
      rw [hpre b hb] at hfree
      cases hfree
    obtain ⟨rfl, _, rfl⟩ := (List.append_cons_inj_of_notMem hnot List.not_mem_nil).mp heq
    exact ⟨s', garbage, hrun, cutLast_eq hcut ▸ hworking, hsame, hbooked⟩

/-- A pool of used blocks and one free block behind them serves from that one. -/
theorem serves_last (h : InService s (pre ++ [b])) (hpre : ∀ c ∈ pre, c.isUsed = true)
    (hfree : b.isUsed = false) (hsize : size < sizeModulus)
    (hcut : requestSize (counted size) s.config.poolAlignment + 2 * headerSize < b.size) :
    ∃ s' garbage, (∀ fuel, pre.length + 1 < fuel →
        infraMalloc fuel 0 s size = .ok (s', b.payload)) ∧
      InService s' (cutLast pre b (requestSize (counted size) s.config.poolAlignment)
        (counted size) garbage) ∧
      SameRegion s s' ∧ Booked s s' (counted size) := by
  have hdvd := dvd_requestSize (counted size) h.alignment
  have hserving := h.serving (by simp : b ∈ pre ++ [b]) hdvd (by omega) (counted_lt hsize)
  obtain ⟨s', garbage, hrun, hworking, hsame, hbooked⟩ :=
    serves_last_of_exact h.working hpre hfree hserving.exact hcut
  have haligned : Aligned s' (pre ++ served b (requestSize (counted size) s.config.poolAlignment)
      (counted size) garbage ++ []) := aligned_served h hsame hdvd (by omega)
  rw [cutLast_eq hcut] at haligned
  exact ⟨s', garbage, hrun, h.ofSame hsame hworking.tiled haligned, hsame, hbooked⟩

end Last

/-- Calls with what each returns, made one after another, the C library
replying with 0. -/
def Leads : State → List (Call × ℕ) → State → Prop
  | s, [], t => s = t
  | s, (c, ptr) :: calls, t =>
    ∃ s', Settles (fun fuel => perform fuel 0 s c) (.ok (s', ptr)) ∧ Leads s' calls t

/-- The small pool serves 100 bytes and then 40 cleared ones. -/
structure ServedTwice (s t : State) : Prop where
  first : Settles (fun fuel => perform fuel 0 smallPool (.malloc 100)) (.ok (s, 4128))
  second : Settles (fun fuel => perform fuel 0 s (.calloc 2 20)) (.ok (t, 4272))
  same : SameRegion smallPool s
  same' : SameRegion smallPool t
  blocks : ∃ garbage, InService s [⟨4096, 112, 100, true⟩, ⟨4240, 848, garbage, false⟩]
  blocks' : ∃ garbage, InService t
    [⟨4096, 112, 100, true⟩, ⟨4240, 48, 40, true⟩, ⟨4320, 768, garbage, false⟩]
  usage : s.stats.currentUsage = 100
  usage' : t.stats.currentUsage = 140

theorem smallPool_twice : ∃ s t, ServedTwice s t := by
  obtain ⟨s, garbage, hret, hserv, hsame, hbooked⟩ := smallPool_serves 100 (by decide) (by decide)
  have halign : s.config.poolAlignment = 8 := congrArg Config.poolAlignment hsame.config
  have hserv₁ : InService s ([⟨4096, 112, 100, true⟩] ++ [⟨4240, 848, garbage, false⟩]) := hserv
  obtain ⟨t, garbage', hret', hserv', hsame', hbooked'⟩ := serves_last hserv₁ (by simp) rfl
    (by decide : 40 < sizeModulus)
    (by rw [halign]; exact (by decide : requestSize (counted 40) 8 + 2 * headerSize < 848))
  rw [halign] at hserv'
  have hserv₂ : InService t
      [⟨4096, 112, 100, true⟩, ⟨4240, 48, 40, true⟩, ⟨4320, 768, garbage', false⟩] := hserv'
  have hlast : Block.payload ⟨4240, 848, garbage, false⟩ = 4272 := rfl
  rw [hlast] at hret'
  obtain ⟨m, hclear, hdiff, _⟩ := infraMemset_inside t.bytes 0 (by decide : 4272 + 40 < sizeModulus)
  have hwrite : DiffersWithin t.bytes m (Block.payload ⟨4240, 48, 40, true⟩)
      (Block.stop ⟨4240, 48, 40, true⟩) := hdiff.mono (by decide) (by decide)
  have husage : s.stats.currentUsage = 100 := by
    rw [hbooked.current]
    decide
  refine ⟨s, { t with bytes := m }, ⟨⟨2, hret⟩, ⟨3, fun fuel hfuel => ?_⟩, hsame,
    hsame.trans (hsame'.trans ⟨rfl, rfl, rfl, rfl, rfl, rfl⟩), ⟨garbage, hserv⟩,
    ⟨garbage', hserv₂.writePayload (by simp) hwrite⟩, husage, ?_⟩⟩
  · exact infraCalloc_cleared hserv.initialized (by decide : ¬ (2 = 0 ∨ 20 = 0)) (hret' fuel hfuel)
      (by decide) hclear
  · rw [hbooked'.current, husage]
    decide

section Twice
variable {s t : State} {ok : State → Call → Prop}

/-- The two requests as a run, if they meet the condition. -/
theorem ServedTwice.run (h : ServedTwice s t) (hfirst : ok smallPool (.malloc 100))
    (hsecond : ok s (.calloc 2 20)) : Run (Started smallConfig) ok t [(4272, 40), (4128, 100)] :=
  Run.call (c := .calloc 2 20) (Run.call (c := .malloc 100) (Run.start smallPool_started)
    (by decide : 100 < sizeModulus) hfirst h.first)
    (by decide : 2 < sizeModulus ∧ 20 < sizeModulus) hsecond h.second

theorem ServedTwice.leads (h : ServedTwice s t) {calls : List (Call × ℕ)} {u : State}
    (hrest : Leads t calls u) :
    Leads smallPool ((.malloc 100, 4128) :: (.calloc 2 20, 4272) :: calls) u :=
  ⟨s, h.first, t, h.second, hrest⟩

theorem ServedTwice.rounds (h : ServedTwice s t) : Rounds s (.calloc 2 20) := by
  have halign : s.config.poolAlignment = 8 := congrArg Config.poolAlignment h.same.config
  refine Or.inr (Or.inr (Or.inl ?_))
  rw [Unwrapped, halign]
  decide

end Twice

def NoRealloc (_ : State) : Call → Prop
  | .realloc _ _ => False
  | _ => True

/-- A run without `infra_realloc` meets the condition on products: a call that
does not would not have returned. -/
theorem Run.rounds {cfg : Config} {s : State} {live : Live}
    (h : Run (Started cfg) NoRealloc s live) : Run (Started cfg) Rounds s live := by
  induction h with
  | start hs => exact .start hs
  | @call s s' live c ptr reply _ hadm hok hret ih =>
    obtain ⟨k, hkept, _⟩ := run_books ih
    refine .call ih hadm ?_ hret
    cases c with
    | malloc => trivial
    | calloc nmemb size => exact callocRounds_of_returned hkept.serving hret
    | realloc => exact hok.elim
    | free => trivial
  | store _ hlive hsize hoff v ih => exact .store ih hlive hsize hoff v

end Ppdb.PoolRuns
