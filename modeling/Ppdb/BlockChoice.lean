import Ppdb.PoolLayout
import Mathlib.Data.List.MinMax

/-!
Which block a request gets. `find_free_block` keeps a running minimum and
stops early at a perfect match; it returns the first free block of least
sufficient size. `allocate_from_pool` takes the first free block that fits.
-/

namespace Ppdb.BlockChoice

open ByteMemory SizeArithmetic BlockHeaders PoolOperations PoolLayout

def fits (size : ℕ) (b : Block) : Bool := !b.isUsed && decide (size ≤ b.size)

/-- Among the blocks that fit, the first one of least size. -/
def bestFit (size : ℕ) (bs : List Block) : Option Block :=
  (bs.filter (fits size)).argmin Block.size

def firstFit (size : ℕ) (bs : List Block) : Option Block := bs.find? (fits size)

def addrOf : Option Block → ℕ
  | none => 0
  | some b => b.addr

theorem fits_iff {size : ℕ} {b : Block} : fits size b = true ↔ b.isUsed = false ∧ size ≤ b.size := by
  simp [fits]

theorem bestFit_mem {size : ℕ} {bs : List Block} {b : Block} (h : bestFit size bs = some b) :
    b ∈ bs ∧ b.isUsed = false ∧ size ≤ b.size := by
  have hmem : b ∈ bs.filter (fits size) := List.argmin_mem h
  exact ⟨List.mem_of_mem_filter hmem, fits_iff.mp (List.mem_filter.mp hmem).2⟩

theorem bestFit_eq_none {size : ℕ} {bs : List Block} (h : bestFit size bs = none) :
    ∀ b ∈ bs, b.isUsed = false → b.size < size := by
  intro b hb hfree
  have hnil : bs.filter (fits size) = [] := List.argmin_eq_none.mp h
  have hnot : ¬ fits size b = true := fun hfits => by
    have hin : b ∈ bs.filter (fits size) := List.mem_filter.mpr ⟨hb, hfits⟩
    rw [hnil] at hin
    exact List.not_mem_nil hin
  rw [fits_iff] at hnot
  by_contra hge
  exact hnot ⟨hfree, by omega⟩

/-- The only block is chosen if it fits. -/
theorem bestFit_singleton {size : ℕ} {b : Block} (hfree : b.isUsed = false) (hroom : size ≤ b.size) :
    bestFit size [b] = some b := by
  have hfits : fits size b = true := fits_iff.mpr ⟨hfree, hroom⟩
  simp [bestFit, hfits]

theorem firstFit_mem {size : ℕ} {bs : List Block} {b : Block} (h : firstFit size bs = some b) :
    b ∈ bs ∧ b.isUsed = false ∧ size ≤ b.size :=
  ⟨List.mem_of_find?_eq_some h, fits_iff.mp (List.find?_some h)⟩

/-- A minimum that no later element undercuts stays the first minimum. -/
private theorem argmin_append {l rest : List Block} {b : Block}
    (h : l.argmin Block.size = some b) (hle : ∀ c ∈ rest, b.size ≤ c.size) :
    (l ++ rest).argmin Block.size = some b := by
  induction rest using List.reverseRecOn with
  | nil => simpa using h
  | append_singleton init c ih =>
    have hinit := ih fun d hd => hle d (List.mem_append_left _ hd)
    have hc : ¬ c.size < b.size := Nat.not_lt.mpr (hle c (by simp))
    rw [← List.append_assoc, List.argmin_concat, hinit]
    simp [hc]

/-- What the loop variables hold after the blocks `seen`. -/
def Running (size : ℕ) (seen : List Block) (best diff : ℕ) : Prop :=
  match bestFit size seen with
  | none => best = 0 ∧ diff = sizeMax
  | some c => best = c.addr ∧ diff = c.size - size ∧ 0 < diff

theorem bestFit_concat (size : ℕ) (seen : List Block) (b : Block) :
    bestFit size (seen ++ [b]) =
      if fits size b then
        match bestFit size seen with
        | none => some b
        | some c => if b.size < c.size then some b else some c
      else bestFit size seen := by
  unfold bestFit
  by_cases hb : fits size b = true
  · have hkeep : [b].filter (fits size) = [b] := by simp [hb]
    rw [List.filter_append, hkeep, List.argmin_concat, if_pos hb]
    cases List.argmin Block.size (seen.filter (fits size)) <;> rfl
  · have hdrop : [b].filter (fits size) = [] := by simp [hb]
    rw [List.filter_append, hdrop, List.append_nil, if_neg hb]

/-- A smaller distance than that of the best block so far makes a better block. -/
theorem Running.better {size best diff : ℕ} {seen : List Block} {b : Block}
    (h : Running size seen best diff) (hfits : fits size b = true) (hless : b.size - size < diff) :
    bestFit size (seen ++ [b]) = some b := by
  have hle : size ≤ b.size := (fits_iff.mp hfits).2
  rw [bestFit_concat, if_pos hfits]
  unfold Running at h
  cases hseen : bestFit size seen with
  | none => rfl
  | some c =>
    simp only [hseen] at h
    have hlt : b.size < c.size := by omega
    simp [hlt]

/-- A block that does not fit or is no nearer changes nothing. -/
theorem Running.keep {size best diff : ℕ} {seen : List Block} {b : Block}
    (h : Running size seen best diff) (hsmall : b.size < sizeMax)
    (hfar : fits size b = true → diff ≤ b.size - size) : Running size (seen ++ [b]) best diff := by
  unfold Running at h ⊢
  rw [bestFit_concat]
  by_cases hfits : fits size b = true
  · have hdiff := hfar hfits
    have hle : size ≤ b.size := (fits_iff.mp hfits).2
    rw [if_pos hfits]
    cases hseen : bestFit size seen with
    | none =>
      simp only [hseen] at h
      omega
    | some c =>
      simp only [hseen] at h
      have hge : ¬ b.size < c.size := by omega
      simpa [hge] using h
  · rw [if_neg hfits]
    exact h

/-- Behind a perfect match nothing can be smaller. -/
theorem bestFit_perfect {size : ℕ} {seen rest : List Block} {b : Block}
    (h : bestFit size seen = some b) (hperfect : b.size ≤ size) :
    bestFit size (seen ++ rest) = some b := by
  unfold bestFit at h ⊢
  rw [List.filter_append]
  apply argmin_append h
  intro c hc
  exact hperfect.trans (fits_iff.mp (List.mem_filter.mp hc).2).2

theorem findFreeLoop_spec {m : Mem} {size p best diff : ℕ} {seen bs : List Block}
    (hlist : Listed m p bs) (hsmall : ∀ b ∈ bs, b.size < sizeMax)
    (hrun : Running size seen best diff) (fuel : ℕ) (hfuel : bs.length < fuel) :
    findFreeLoop m size fuel p best diff = .ok (addrOf (bestFit size (seen ++ bs))) := by
  induction bs generalizing p best diff seen fuel with
  | nil =>
    obtain ⟨k, rfl⟩ : ∃ k, fuel = k + 1 := ⟨fuel - 1, by simp at hfuel; omega⟩
    have hp : p = 0 := listed_nil.mp hlist
    rw [findFreeLoop, if_pos hp, List.append_nil]
    unfold Running at hrun
    cases hseen : bestFit size seen with
    | none => simp only [hseen] at hrun; rw [hrun.1]; rfl
    | some c => simp only [hseen] at hrun; rw [hrun.1]; rfl
  | cons b rest ih =>
    obtain ⟨k, rfl⟩ : ∃ k, fuel = k + 1 := ⟨fuel - 1, by simp at hfuel; omega⟩
    obtain ⟨hp, hb, hread, htail⟩ := listed_cons.mp hlist
    have hused : getIsUsed m b.addr = b.isUsed := getIsUsed_of_blockAt hread
    have hsize : getSize m b.addr = b.size := getSize_of_blockAt hread
    have hlen : rest.length < k := by simp at hfuel; omega
    have hrestSmall : ∀ c ∈ rest, c.size < sizeMax :=
      fun c hc => hsmall c (List.mem_cons_of_mem b hc)
    have hbSmall := hsmall b List.mem_cons_self
    have hassoc : seen ++ b :: rest = (seen ++ [b]) ++ rest := by simp
    have htest : (!b.isUsed && decide (size ≤ b.size)) = fits size b := rfl
    rw [findFreeLoop, hp, if_neg hb, hused, hsize, htest, hassoc]
    by_cases hfits : fits size b = true
    · rw [if_pos hfits]
      by_cases hless : b.size - size < diff
      · have hnew : bestFit size (seen ++ [b]) = some b := hrun.better hfits hless
        simp only [if_pos hless]
        by_cases hzero : b.size - size = 0
        · rw [if_pos hzero, bestFit_perfect hnew (by omega)]
          rfl
        · rw [if_neg hzero]
          refine ih htail hrestSmall ?_ k hlen
          unfold Running
          rw [hnew]
          exact ⟨rfl, rfl, by omega⟩
      · simp only [if_neg hless]
        exact ih htail hrestSmall (hrun.keep hbSmall fun _ => Nat.le_of_not_lt hless) k hlen
    · rw [if_neg hfits]
      exact ih htail hrestSmall (hrun.keep hbSmall fun h => absurd h hfits) k hlen

/-- `find_free_block` on a listed pool is the best fit. -/
theorem findFreeBlock_spec {s : State} {bs : List Block}
    (hlist : Listed s.bytes s.pool.freeList bs) (hsmall : ∀ b ∈ bs, b.size < sizeMax)
    (size fuel : ℕ) (hfuel : bs.length < fuel) :
    findFreeBlock fuel s size = .ok (addrOf (bestFit size bs)) := by
  have hstart : Running size [] 0 sizeMax := ⟨rfl, rfl⟩
  exact findFreeLoop_spec hlist hsmall hstart fuel hfuel

/-- The block `b` fits, the blocks that fit before it are larger and those behind
it not smaller. -/
structure FirstLeast (size : ℕ) (pre : List Block) (b : Block) (post : List Block) : Prop where
  free : b.isUsed = false
  room : size ≤ b.size
  before : ∀ c ∈ pre, c.isUsed = false → size ≤ c.size → b.size < c.size
  behind : ∀ c ∈ post, c.isUsed = false → size ≤ c.size → b.size ≤ c.size

theorem FirstLeast.le {size : ℕ} {pre post : List Block} {b c : Block}
    (h : FirstLeast size pre b post) (hc : c ∈ pre ++ b :: post) (hfree : c.isUsed = false)
    (hroom : size ≤ c.size) : b.size ≤ c.size := by
  rcases List.mem_append.mp hc with hpre | hc
  · exact Nat.le_of_lt (h.before c hpre hfree hroom)
  · rcases List.mem_cons.mp hc with rfl | hpost
    · exact Nat.le_refl _
    · exact h.behind c hpost hfree hroom

/-- A further block that is not chosen. -/
theorem FirstLeast.concat {size : ℕ} {pre post : List Block} {b c : Block}
    (h : FirstLeast size pre b post) (hc : fits size c = true → b.size ≤ c.size) :
    FirstLeast size pre b (post ++ [c]) := by
  refine ⟨h.free, h.room, h.before, ?_⟩
  intro d hd hfree hroom
  rcases List.mem_append.mp hd with hd | hd
  · exact h.behind d hd hfree hroom
  · obtain rfl := List.mem_singleton.mp hd
    exact hc (fits_iff.mpr ⟨hfree, hroom⟩)

/-- The best fit is the first of the least blocks. -/
theorem bestFit_split {size : ℕ} {bs : List Block} {b : Block} (h : bestFit size bs = some b) :
    ∃ pre post, bs = pre ++ b :: post ∧ FirstLeast size pre b post := by
  induction bs using List.reverseRecOn generalizing b with
  | nil => cases h
  | append_singleton init c ih =>
    rw [bestFit_concat] at h
    by_cases hfits : fits size c = true
    · obtain ⟨hfree, hroom⟩ := fits_iff.mp hfits
      rw [if_pos hfits] at h
      cases hinit : bestFit size init with
      | none =>
        rw [hinit] at h
        obtain rfl := Option.some.inj h
        refine ⟨init, [], rfl, hfree, hroom, ?_, fun _ hd => (nomatch hd)⟩
        intro d hd hdfree hdroom
        exact absurd hdroom (Nat.not_le_of_lt (bestFit_eq_none hinit d hd hdfree))
      | some d =>
        obtain ⟨pre, post, rfl, hleast⟩ := ih hinit
        rw [hinit] at h
        dsimp only at h
        by_cases hless : c.size < d.size
        · rw [if_pos hless] at h
          obtain rfl := Option.some.inj h
          refine ⟨pre ++ d :: post, [], rfl, hfree, hroom, ?_, fun _ hd => (nomatch hd)⟩
          intro e he hefree heroom
          exact Nat.lt_of_lt_of_le hless (hleast.le he hefree heroom)
        · rw [if_neg hless] at h
          obtain rfl := Option.some.inj h
          refine ⟨pre, post ++ [c], by simp, hleast.concat fun _ => ?_⟩
          exact Nat.le_of_not_lt hless
    · rw [if_neg hfits] at h
      obtain ⟨pre, post, rfl, hleast⟩ := ih h
      exact ⟨pre, post ++ [c], by simp, hleast.concat fun hc => absurd hc hfits⟩

/-- `find_free_block` returns the null pointer exactly if no block fits, and
otherwise the first one of those of least size. -/
theorem findFreeBlock_chooses {s : State} {bs : List Block}
    (hlist : Listed s.bytes s.pool.freeList bs) (hsmall : ∀ b ∈ bs, b.size < sizeMax) (size : ℕ) :
    ∃ p, (∀ fuel, bs.length < fuel → findFreeBlock fuel s size = .ok p) ∧
      (p = 0 ↔ ∀ b ∈ bs, b.isUsed = false → b.size < size) ∧
      (p ≠ 0 → ∃ pre b post, bs = pre ++ b :: post ∧ p = b.addr ∧ FirstLeast size pre b post) := by
  refine ⟨addrOf (bestFit size bs), findFreeBlock_spec hlist hsmall size, ?_⟩
  cases hbest : bestFit size bs with
  | none => exact ⟨iff_of_true rfl (bestFit_eq_none hbest), fun hne => absurd rfl hne⟩
  | some b =>
    obtain ⟨pre, post, rfl, hleast⟩ := bestFit_split hbest
    have hmem : b ∈ pre ++ b :: post := List.mem_append_right _ List.mem_cons_self
    have haddr : b.addr ≠ 0 := (listed_cons.mp hlist.suffix).2.1
    refine ⟨iff_of_false haddr ?_, fun _ => ⟨pre, b, post, rfl, rfl, hleast⟩⟩
    intro hnone
    exact absurd (hnone b hmem hleast.free) (Nat.not_lt_of_le hleast.room)

def fourBlocks : State :=
  let bytes : Mem := fun a =>
    if a = 64 then 96
    else if a = 96 then 128
    else if a = 128 then 160
    else if a = 72 ∨ a = 136 ∨ a = 168 then 40
    else if a = 104 then 100
    else if a = 88 then 1
    else 0
  ⟨true, ⟨true, 1024, 8⟩, Stats.zero, ⟨64, 1024, 64, 0, 4⟩, bytes, []⟩

/-- For 33 bytes the third block is chosen, not the fourth of the same size. -/
theorem findFreeBlock_chooses_third : findFreeBlock 5 fourBlocks 33 = .ok 128 ∧
    ∃ pre b post, b.addr = 128 ∧ FirstLeast 33 pre b post := by
  have hlist : Listed fourBlocks.bytes fourBlocks.pool.freeList
      [⟨64, 40, 0, true⟩, ⟨96, 100, 0, false⟩, ⟨128, 40, 0, false⟩, ⟨160, 40, 0, false⟩] :=
    ⟨by decide, by decide⟩
  have hthird : findFreeBlock 5 fourBlocks 33 = .ok 128 := by decide
  obtain ⟨p, hrun, _, hchosen⟩ := findFreeBlock_chooses hlist (by decide) 33
  have hp : p = 128 := Except.ok.inj ((hrun 5 (by decide)).symm.trans hthird)
  obtain ⟨pre, b, post, _, haddr, hleast⟩ := hchosen (by rw [hp]; decide)
  exact ⟨hthird, pre, b, post, haddr.symm.trans hp, hleast⟩

/-- The search of `allocate_from_pool` serves the request from the first fit. -/
theorem firstFitLoop_spec {s : State} {alignedSize size p : ℕ} {bs : List Block}
    (hlist : Listed s.bytes p bs) (fuel : ℕ) (hfuel : bs.length < fuel) :
    firstFitLoop s alignedSize size fuel p =
      .ok (match firstFit alignedSize bs with
        | none => (s, 0)
        | some b => takeFirstFit s b.addr alignedSize size) := by
  induction bs generalizing p fuel with
  | nil =>
    obtain ⟨k, rfl⟩ : ∃ k, fuel = k + 1 := ⟨fuel - 1, by simp at hfuel; omega⟩
    rw [firstFitLoop, if_pos (listed_nil.mp hlist)]
    rfl
  | cons b rest ih =>
    obtain ⟨k, rfl⟩ : ∃ k, fuel = k + 1 := ⟨fuel - 1, by simp at hfuel; omega⟩
    obtain ⟨hp, hb, hread, htail⟩ := listed_cons.mp hlist
    have hused : getIsUsed s.bytes b.addr = b.isUsed := getIsUsed_of_blockAt hread
    have hsize : getSize s.bytes b.addr = b.size := getSize_of_blockAt hread
    have htest : (!b.isUsed && decide (alignedSize ≤ b.size)) = fits alignedSize b := rfl
    rw [firstFitLoop, hp, if_neg hb, hused, hsize, htest]
    by_cases hfit : fits alignedSize b = true
    · rw [if_pos hfit, firstFit, List.find?_cons_of_pos hfit]
    · rw [if_neg hfit, firstFit, List.find?_cons_of_neg hfit]
      exact ih htail k (by simp at hfuel; omega)

end Ppdb.BlockChoice
