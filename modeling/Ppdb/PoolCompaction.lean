import Ppdb.PoolRuns
import Mathlib.Data.List.Chain

/-!
No memory is lost to fragmentation for good. A free block that serves a
request leaves its remainder in front of a used block, and a released block is
merged with its neighbours, so that no two neighbours are ever both free. A
pool without live pointers is therefore one free block again.
-/

namespace Ppdb.PoolCompaction

open ByteMemory SizeArithmetic BlockHeaders PoolOperations TiledIntervals EventualResults
open PoolLayout BlockMerging BlockChoice PoolAllocation PoolRuns

variable {pre post bs : List Block} {b : Block}

/-- The remainder of a served block has used neighbours. -/
theorem separated_served {req size garbage : ℕ} (h : Separated (pre ++ b :: post))
    (hfree : b.isUsed = false) (hroom : req ≤ b.size) :
    Separated (pre ++ served b req size garbage ++ post) := by
  obtain ⟨hpre, hpost⟩ := List.isChain_split.mp h
  obtain ⟨u, rest, heq, _, hused, _, _, hrest⟩ := served_cases b req size garbage hroom
  have hlength : rest.length ≤ 1 := by
    have hlen : (served b req size garbage).length ≤ 2 := by
      unfold served
      split <;> simp
    rw [heq, List.length_cons] at hlen
    omega
  have hfront : Separated (pre ++ [u]) := by
    refine List.isChain_append.mpr ⟨(List.isChain_append.mp hpre).1, List.IsChain.singleton u, ?_⟩
    intro x _ y hy
    simp only [List.head?_cons, Option.mem_def, Option.some.injEq] at hy
    exact Or.inr (hy ▸ hused)
  have hnext : ∀ y ∈ post.head?, y.isUsed = true := by
    intro y hy
    have hrel := (List.isChain_cons.mp hpost).1 y hy
    simpa [hfree] using hrel
  have htail : Separated (u :: rest ++ post) := by
    have hpost' : Separated post := (List.isChain_cons.mp hpost).2
    cases rest with
    | nil => exact List.isChain_cons.mpr ⟨fun _ _ => Or.inl hused, hpost'⟩
    | cons r rest =>
      have hnil : rest = [] := by
        cases rest with
        | nil => rfl
        | cons _ _ => simp at hlength
      subst hnil
      refine List.isChain_cons.mpr ⟨fun _ _ => Or.inl hused, ?_⟩
      exact List.isChain_cons.mpr ⟨fun y hy => Or.inr (hnext y hy), hpost'⟩
  rw [heq, List.append_assoc]
  exact List.isChain_split.mpr ⟨hfront, htail⟩

/-- Every edit of the books keeps free blocks apart. -/
theorem edit_separated {align : ℕ} {c : Call} {k k' : Books} (h : Edit align c k k')
    (hsep : Separated k.blocks) : Separated k'.blocks := by
  cases h with
  | idle => exact hsep
  | serve _ hbest =>
    obtain ⟨_, hfree, hroom⟩ := bestFit_mem hbest
    exact separated_served hsep hfree hroom
  | release => exact coalesce_separated _

/-- A separated list of free blocks has at most one of them. -/
theorem separated_free (h : Separated bs) (hne : bs ≠ []) (hfree : ∀ b ∈ bs, b.isUsed = false) :
    ∃ b, bs = [b] := by
  cases bs with
  | nil => exact absurd rfl hne
  | cons b bs =>
    cases bs with
    | nil => exact ⟨b, rfl⟩
    | cons c bs =>
      have hrel := (List.isChain_cons_cons.mp h).1
      simp [hfree b, hfree c] at hrel

/-- A request is served if and only if a free block is as large as it looks for. -/
theorem malloc_null_iff {s : State} (h : InService s bs) (reply : ℕ) {size : ℕ}
    (hsize : size < sizeModulus) : ∃ s' ptr,
      Settles (fun fuel => infraMalloc fuel reply s size) (.ok (s', ptr)) ∧ (ptr ≠ 0 ↔
        ∃ b ∈ bs, b.isUsed = false ∧
          requestSize (counted size) s.config.poolAlignment ≤ b.size) := by
  obtain ⟨s', ptr, hrun, hal⟩ := infraMalloc_spec h reply hsize
  refine ⟨s', ptr, ⟨bs.length + 1, fun fuel hfuel => hrun fuel hfuel⟩, ?_⟩
  rcases hal with ⟨hptr, _, hnone⟩ | ⟨pre, b, post, _, rfl, hfree, rfl, hroom, _⟩
  · refine iff_of_false (not_not_intro hptr) ?_
    rintro ⟨b, hb, hfree, hroom⟩
    have hlt := hnone b hb hfree
    omega
  · refine iff_of_true ?_ ⟨b, by simp, hfree, hroom⟩
    unfold Block.payload headerSize
    omega

/-- The pool as one free block: all of it but the header. -/
structure WholeAgain (s : State) (bs : List Block) : Prop where
  single : ∃ original, bs =
    [⟨s.pool.poolStart, s.pool.poolSize - headerSize, original, false⟩]
  count : s.pool.blockCount = 1

theorem wholeAgain_of_free {s : State} {k : Books} (h : Kept s k) (hlive : k.live = [])
    (hsep : Separated k.blocks) : WholeAgain s k.blocks := by
  have hnone : ∀ b ∈ k.blocks, b.isUsed = false := by
    intro b hb
    by_contra hused
    have hmem : b.payload ∈ k.live.map Prod.fst := h.owned.owners.mem_iff.mpr
      (List.mem_map_of_mem (List.mem_filter.mpr ⟨hb, by simpa using hused⟩))
    simp [hlive] at hmem
  obtain ⟨b, hb⟩ := separated_free hsep h.nonempty hnone
  have hfree := hnone b (by simp [hb])
  obtain ⟨addr, size, original, isUsed⟩ := b
  have htiled := h.serving.tiled
  rw [hb] at htiled ⊢
  obtain ⟨haddr, hstop⟩ := htiled.tiles
  simp only [tiles_nil, Block.stop] at haddr hstop
  refine ⟨⟨original, ?_⟩, htiled.count⟩
  simp only at hfree
  rw [hfree, haddr, show size = s.pool.poolSize - headerSize by omega]

theorem started_config {cfg : Config} {s : State} (h : Started cfg s) :
    s.config = cfg ∧ s.pool.poolSize = cfg.poolInitialSize := by
  obtain ⟨before, reply, t, hcfg, hlibc, hinit, rfl⟩ := h.init
  have hne : reply ≠ 0 := Nat.ne_of_gt hlibc.pos
  simp only [initializePool, hne, if_false, Option.some.injEq] at hinit
  subst hinit
  exact ⟨hcfg, by rw [hcfg]⟩

/-- A pool that is one free block serves what another one of its kind serves. -/
theorem serves_again {s t : State} {as bs : List Block} (hs : InService s as)
    (ht : InService t bs) (hwhole : WholeAgain s as) (hwhole' : WholeAgain t bs)
    (hconfig : t.config = s.config) (hsize : t.pool.poolSize = s.pool.poolSize) {size reply : ℕ}
    (hreq : size < sizeModulus) {s' : State} {p : ℕ}
    (hret : Settles (fun fuel => infraMalloc fuel reply s size) (.ok (s', p))) (hp : p ≠ 0) :
    ∃ t' q, Settles (fun fuel => infraMalloc fuel reply t size) (.ok (t', q)) ∧ q ≠ 0 := by
  obtain ⟨s₁, p₁, hret₁, hiff⟩ := malloc_null_iff hs reply hreq
  obtain ⟨rfl, rfl⟩ := Prod.mk.inj (Except.ok.inj (hret.unique hret₁))
  obtain ⟨b, hb, _, hroom⟩ := hiff.mp hp
  obtain ⟨t', q, hret', hiff'⟩ := malloc_null_iff ht reply hreq
  obtain ⟨original, has⟩ := hwhole.single
  obtain ⟨original', hbs⟩ := hwhole'.single
  refine ⟨t', q, hret', hiff'.mpr ⟨_, hbs ▸ List.mem_cons_self, rfl, ?_⟩⟩
  rw [has, List.mem_singleton] at hb
  rw [hb] at hroom
  rw [hconfig, hsize]
  exact hroom

/-- In every run without `infra_realloc` no two neighbours are both free. Once
every pointer has been given back the pool is one free block again, and serves
whatever a fresh pool serves. -/
theorem pool_compacts {cfg : Config} {s : State} {live : Live}
    (h : Run (Started cfg) NoRealloc s live) :
    ∃ bs, PoolLayout s live bs ∧ Separated bs ∧ (live = [] → WholeAgain s bs ∧
      ∀ fresh size reply t p, Started cfg fresh → size < sizeModulus →
        Settles (fun fuel => infraMalloc fuel reply fresh size) (.ok (t, p)) → p ≠ 0 →
        ∃ t' p', Settles (fun fuel => infraMalloc fuel reply s size) (.ok (t', p')) ∧ p' ≠ 0) := by
  obtain ⟨s₀, k, hs₀, hsame, hkept, rfl, hsep⟩ := run_kept (I := fun k => Separated k.blocks)
    (fun _ _ _ reply hkept hadm hok => rounds_edits hkept reply hadm hok)
    (fun b _ => List.IsChain.singleton b) (fun _ _ _ _ _ _ _ _ _ => edit_separated) h.rounds
  obtain ⟨bs, hlayout⟩ := hkept.inv.layout
  have hbs : bs = k.blocks := hlayout.tiled.unique hkept.serving.tiled
  rw [hbs] at hlayout
  refine ⟨k.blocks, hlayout, hsep, fun hlive => ⟨wholeAgain_of_free hkept hlive hsep, ?_⟩⟩
  intro fresh size reply t p hfresh hsize hret hp
  obtain ⟨b, _, hkeptf⟩ := started_kept hfresh
  obtain ⟨hconfig, hpool⟩ := started_config hs₀
  obtain ⟨hconfigf, hpoolf⟩ := started_config hfresh
  exact serves_again hkeptf.serving hkept.serving
    (wholeAgain_of_free hkeptf rfl (List.IsChain.singleton b)) (wholeAgain_of_free hkept hlive hsep)
    (by rw [hsame.config, hconfig, hconfigf]) (by rw [hsame.poolSize, hpool, hpoolf]) hsize hret hp

/-- A live pointer is given back, as a step of a run. -/
theorem run_free {s : State} {live : Live} (h : Run (Started smallConfig) NoRealloc s live) {ptr : ℕ}
    (hptr : ptr ∈ live.map Prod.fst) :
    ∃ s', Settles (fun fuel => perform fuel 0 s (.free ptr)) (.ok (s', 0)) ∧
      Run (Started smallConfig) NoRealloc s' (forget live ptr) := by
  obtain ⟨k, hkept, rfl⟩ := run_books h.rounds
  obtain ⟨s', hfree⟩ := free_returns hkept 0 hptr
  exact ⟨s', hfree, .call (c := .free ptr) h hptr trivial hfree⟩

/-- Three requests, given back in another order. -/
theorem pool_compacts_small : ∃ s bs,
    Leads smallPool [(.malloc 100, 4128), (.calloc 2 20, 4272), (.malloc 8, 4352), (.free 4272, 0),
      (.free 4128, 0), (.free 4352, 0)] s ∧
    Run (Started smallConfig) NoRealloc s [] ∧ PoolLayout s [] bs ∧ WholeAgain s bs := by
  obtain ⟨s, t, h⟩ := smallPool_twice
  obtain ⟨garbage, hserv⟩ := h.blocks'
  have halign : t.config.poolAlignment = 8 := congrArg Config.poolAlignment h.same'.config
  have hserv' : InService t ([⟨4096, 112, 100, true⟩, ⟨4240, 48, 40, true⟩] ++
      [⟨4320, 768, garbage, false⟩]) := hserv
  obtain ⟨u, _, hmalloc, _⟩ := serves_last hserv' (by simp) rfl (by decide : 8 < sizeModulus)
    (by rw [halign]; exact (by decide : requestSize (counted 8) 8 + 2 * headerSize < 768))
  have hthird : Settles (fun fuel => perform fuel 0 t (.malloc 8)) (.ok (u, 4352)) := ⟨4, hmalloc⟩
  have hrun : Run (Started smallConfig) NoRealloc u [(4352, 8), (4272, 40), (4128, 100)] :=
    .call (c := .malloc 8) (h.run trivial trivial) (by decide : 8 < sizeModulus) trivial hthird
  obtain ⟨u₁, hfree₁, hrun₁⟩ := run_free hrun (by decide : 4272 ∈ [4352, 4272, 4128])
  obtain ⟨u₂, hfree₂, hrun₂⟩ := run_free hrun₁ (by decide : 4128 ∈ [4352, 4128])
  obtain ⟨u₃, hfree₃, hrun₃⟩ := run_free hrun₂ (by decide : 4352 ∈ [4352])
  have hnone : Run (Started smallConfig) NoRealloc u₃ [] := hrun₃
  obtain ⟨bs, hlayout, _, hwhole⟩ := pool_compacts hnone
  exact ⟨u₃, bs, h.leads ⟨u, hthird, u₁, hfree₁, u₂, hfree₂, u₃, hfree₃, rfl⟩, hnone, hlayout,
    (hwhole rfl).1⟩

end Ppdb.PoolCompaction
