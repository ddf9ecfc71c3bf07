import Ppdb.ErrorCodes
import Ppdb.SizeArithmetic

/-!
The growing buffer of the core module. Over any sequence of writes, explicit
reservations, reads and resets it holds the bytes written since the last
reset, and every reallocation that a write causes doubles its capacity. The
buffer itself is not null, and an access past its block is a fault.
-/

namespace Ppdb.BufferRuns

open SizeArithmetic ErrorCodes

/-- `infra_buffer_t`; `data` is the block behind the pointer. -/
structure Buffer where
  data : List UInt8
  size : ℕ
  capacity : ℕ
  deriving DecidableEq, Repr

inductive Fault
  /-- an access past the end of the block -/
  | outOfBounds
  deriving DecidableEq, Repr

/-- What the allocator answers: whether it serves the request, and what it
finds in memory that it need not keep. -/
structure Reply where
  served : Bool
  garbage : ℕ → UInt8

/-- Requests from this size on always fail. -/
def requestLimit : ℕ := 2 ^ 63

/-- `infra_malloc`, by the contract of C -/
def infraMalloc (r : Reply) (n : ℕ) : Option (List UInt8) :=
  if r.served = true ∧ n < requestLimit then some ((List.range n).map r.garbage) else none

/-- `infra_realloc` of a block: the common prefix is kept, or the block is. -/
def infraRealloc (r : Reply) (block : List UInt8) (n : ℕ) : Option (List UInt8) :=
  if r.served = true ∧ n < requestLimit then
    some (block.take n ++ (List.range (n - block.length)).map r.garbage)
  else none

def storeBytes (block : List UInt8) (offset : ℕ) (bytes : List UInt8) :
    Except Fault (List UInt8) :=
  if offset + bytes.length ≤ block.length then
    .ok (block.take offset ++ bytes ++ block.drop (offset + bytes.length))
  else .error .outOfBounds

def loadBytes (block : List UInt8) (n : ℕ) : Except Fault (List UInt8) :=
  if n ≤ block.length then .ok (block.take n) else .error .outOfBounds

def infraBufferInit (r : Reply) (initial : ℕ) : Option Buffer × ErrorCode :=
  if initial = 0 then (none, .invalidParam)
  else
    match infraMalloc r initial with
    | none => (none, .noMemory)
    | some block => (some ⟨block, 0, initial⟩, .ok)

def infraBufferReserve (r : Reply) (s : Buffer) (capacity : ℕ) : Buffer × ErrorCode :=
  if capacity ≤ s.capacity then (s, .ok)
  else
    match infraRealloc r s.data capacity with
    | none => (s, .noMemory)
    | some block => ({ s with data := block, capacity := capacity }, .ok)

def grownCapacity (s : Buffer) (n : ℕ) : ℕ :=
  if mulSize s.capacity 2 < addSize s.size n then addSize s.size n else mulSize s.capacity 2

/-- The part of `infra_buffer_write` that makes room for `n` bytes. -/
def makeRoom (r : Reply) (s : Buffer) (n : ℕ) : Buffer × ErrorCode :=
  if s.capacity < addSize s.size n then infraBufferReserve r s (grownCapacity s n) else (s, .ok)

/-- `infra_buffer_write` of the bytes at a pointer, `none` if it is null. -/
def infraBufferWrite (r : Reply) (s : Buffer) (data : Option (List UInt8)) :
    Except Fault (Buffer × ErrorCode) :=
  match data with
  | none => .ok (s, .invalidParam)
  | some bytes =>
    if bytes.length = 0 then .ok (s, .invalidParam)
    else
      match makeRoom r s bytes.length with
      | (s, .ok) => do
        let block ← storeBytes s.data s.size bytes
        .ok ({ s with data := block, size := addSize s.size bytes.length }, .ok)
      | (s, e) => .ok (s, e)

def infraBufferRead (s : Buffer) (dst size : ℕ) : Except Fault (ErrorCode × List UInt8) :=
  if dst = 0 ∨ size = 0 then .ok (.invalidParam, [])
  else if s.size < size then .ok (.invalidParam, [])
  else do
    let bytes ← loadBytes s.data size
    .ok (.ok, bytes)

def infraBufferReadable (s : Buffer) : ℕ := s.size

def infraBufferWritable (s : Buffer) : ℕ := subSize s.capacity s.size

def infraBufferReset (s : Buffer) : Buffer := { s with size := 0 }

def IsObject (data : Option (List UInt8)) : Prop :=
  ∀ bytes ∈ data, bytes.length < requestLimit

/-- A buffer after calls on one of the given initial capacity, with what has
been written since the last reset and the number of writes that have moved it. -/
inductive Run (initial : ℕ) : Buffer → List UInt8 → ℕ → Prop
  | init {r : Reply} {s : Buffer} (hcall : infraBufferInit r initial = (some s, .ok)) :
      Run initial s [] 0
  | write {r : Reply} {s s' : Buffer} {content : List UInt8} {moves : ℕ}
      {data : Option (List UInt8)} {e : ErrorCode} (hrun : Run initial s content moves)
      (hobject : IsObject data) (hcall : infraBufferWrite r s data = .ok (s', e)) :
      Run initial s' (if e = .ok then content ++ data.getD [] else content)
        (if s'.capacity = s.capacity then moves else moves + 1)
  | reserve {r : Reply} {s s' : Buffer} {content : List UInt8} {moves capacity : ℕ}
      {e : ErrorCode} (hrun : Run initial s content moves)
      (hcall : infraBufferReserve r s capacity = (s', e)) : Run initial s' content moves
  | read {s : Buffer} {content : List UInt8} {moves dst size : ℕ}
      {answer : ErrorCode × List UInt8} (hrun : Run initial s content moves)
      (hcall : infraBufferRead s dst size = .ok answer) : Run initial s content moves
  | reset {s : Buffer} {content : List UInt8} {moves : ℕ} (hrun : Run initial s content moves) :
      Run initial (infraBufferReset s) [] moves

/-- The buffer holds the content. -/
structure Holds (s : Buffer) (content : List UInt8) : Prop where
  block : s.data.length = s.capacity
  limit : s.capacity < requestLimit
  within : s.size ≤ s.capacity
  content : s.data.take s.size = content

variable {initial moves n : ℕ} {r : Reply} {s s' : Buffer} {content bytes : List UInt8}
  {data : Option (List UInt8)} {e : ErrorCode}

/-! ### Sizes -/

theorem two_mul_requestLimit : 2 * requestLimit = sizeModulus := by
  norm_num [requestLimit, sizeModulus]

theorem Holds.length (h : Holds s content) : content.length = s.size := by
  rw [← h.content, List.length_take, h.block]
  exact Nat.min_eq_left h.within

/-- A write of an object computes its sizes without a wrap. -/
theorem Holds.sizes (h : Holds s content) (hn : n < requestLimit) :
    addSize s.size n = s.size + n ∧ mulSize s.capacity 2 = 2 * s.capacity := by
  have hlimit := h.limit
  have hwithin := h.within
  have hmodulus := two_mul_requestLimit
  constructor
  · exact addSize_of_lt (by omega)
  · rw [mulSize, Nat.mul_comm, Nat.mod_eq_of_lt (by omega)]

theorem Holds.grownCapacity_eq (h : Holds s content) (hn : n < requestLimit) :
    grownCapacity s n = max (2 * s.capacity) (s.size + n) := by
  obtain ⟨hadd, hmul⟩ := h.sizes hn
  rw [grownCapacity, hadd, hmul]
  split <;> omega

/-! ### The calls -/

theorem holds_init (h : infraBufferInit r initial = (some s, .ok)) :
    Holds s [] ∧ s.capacity = initial ∧ 0 < initial := by
  unfold infraBufferInit at h
  split at h
  · cases h
  · rename_i hpos
    unfold infraMalloc at h
    split at h
    · cases h
    · rename_i block hblock
      split at hblock
      · rename_i hserved
        injection hblock with hblock
        injection h with hs
        injection hs with hs
        rw [← hs, ← hblock]
        refine ⟨⟨?_, hserved.2, Nat.zero_le _, rfl⟩, rfl, Nat.pos_iff_ne_zero.mpr hpos⟩
        rw [List.length_map, List.length_range]
      · cases hblock

/-- A block that grows keeps what is in it. -/
theorem infraRealloc_spec {block grown : List UInt8} (hlarger : block.length < n)
    (h : infraRealloc r block n = some grown) :
    grown.length = n ∧ n < requestLimit ∧ ∀ k ≤ block.length, grown.take k = block.take k := by
  unfold infraRealloc at h
  split at h
  · rename_i hserved
    injection h with h
    rw [← h, List.take_of_length_le (Nat.le_of_lt hlarger)]
    refine ⟨?_, hserved.2, ?_⟩
    · rw [List.length_append, List.length_map, List.length_range]
      omega
    · intro k hk
      exact List.take_append_of_le_length hk
  · cases h

theorem Holds.reserve (h : Holds s content) (r : Reply) (capacity : ℕ) :
    infraBufferReserve r s capacity = (s, .noMemory) ∨
    ∃ s', infraBufferReserve r s capacity = (s', .ok) ∧ Holds s' content ∧ s'.size = s.size ∧
      s'.capacity = max s.capacity capacity := by
  unfold infraBufferReserve
  split
  · rename_i hle
    exact Or.inr ⟨s, rfl, h, rfl, (Nat.max_eq_left hle).symm⟩
  · rename_i hlt
    have hlarger : s.data.length < capacity := by
      rw [h.block]
      exact not_le.mp hlt
    cases hgrown : infraRealloc r s.data capacity with
    | none => exact Or.inl rfl
    | some block =>
      obtain ⟨hlength, hlimit, htake⟩ := infraRealloc_spec hlarger hgrown
      have hwithin := h.within
      have hle := Nat.le_of_lt (not_le.mp hlt)
      refine Or.inr ⟨_, rfl, ⟨hlength, hlimit, hwithin.trans hle, ?_⟩, rfl, (Nat.max_eq_right hle).symm⟩
      show block.take s.size = content
      rw [htake s.size (h.block.symm ▸ hwithin), h.content]

theorem Holds.makeRoom (h : Holds s content) (r : Reply) (hn : n < requestLimit) :
    makeRoom r s n = (s, .noMemory) ∨
    ∃ s', makeRoom r s n = (s', .ok) ∧ Holds s' content ∧ s'.size = s.size ∧
      s.size + n ≤ s'.capacity ∧ (s'.capacity = s.capacity ∨ 2 * s.capacity ≤ s'.capacity) := by
  have hadd := (h.sizes hn).1
  unfold BufferRuns.makeRoom
  rw [hadd]
  split
  · rcases h.reserve r (grownCapacity s n) with hrefused | ⟨s', hserved, hs', hsize, hcapacity⟩
    · exact Or.inl hrefused
    · rw [h.grownCapacity_eq hn] at hcapacity
      exact Or.inr ⟨s', hserved, hs', hsize, by omega, Or.inr (by omega)⟩
  · rename_i hfits
    exact Or.inr ⟨s, rfl, h, rfl, not_lt.mp hfits, Or.inl rfl⟩

theorem storeBytes_ok {block : List UInt8} {offset : ℕ} (h : offset + bytes.length ≤ block.length) :
    storeBytes block offset bytes =
      .ok (block.take offset ++ bytes ++ block.drop (offset + bytes.length)) := if_pos h

/-- The bytes are stored behind the content. -/
theorem Holds.store (h : Holds s content) (hroom : s.size + bytes.length ≤ s.capacity) :
    Holds ⟨s.data.take s.size ++ bytes ++ s.data.drop (s.size + bytes.length),
      s.size + bytes.length, s.capacity⟩ (content ++ bytes) := by
  have hlength := h.length
  refine ⟨?_, h.limit, hroom, ?_⟩
  · dsimp only
    rw [h.content, List.length_append, List.length_append, List.length_drop, hlength, h.block]
    omega
  · dsimp only
    rw [h.content]
    apply List.take_left'
    rw [List.length_append, hlength]

theorem infraBufferWrite_ok {s₁ : Buffer} (hne : bytes.length ≠ 0)
    (hmake : BufferRuns.makeRoom r s bytes.length = (s₁, .ok))
    (hroom : s₁.size + bytes.length ≤ s₁.data.length) : infraBufferWrite r s (some bytes) =
      .ok (⟨s₁.data.take s₁.size ++ bytes ++ s₁.data.drop (s₁.size + bytes.length),
        addSize s₁.size bytes.length, s₁.capacity⟩, .ok) := by
  simp only [infraBufferWrite, if_neg hne, hmake, storeBytes_ok hroom, bind, Except.bind]

/-- A write appends the bytes, or it fails and changes nothing. -/
theorem Holds.write (h : Holds s content) (r : Reply) (hobject : IsObject data) :
    (∃ e, e ≠ .ok ∧ infraBufferWrite r s data = .ok (s, e)) ∨
    ∃ s', infraBufferWrite r s data = .ok (s', .ok) ∧ Holds s' (content ++ data.getD []) ∧
      (s'.capacity = s.capacity ∨ 2 * s.capacity ≤ s'.capacity) := by
  cases data with
  | none => exact Or.inl ⟨.invalidParam, by simp, rfl⟩
  | some bytes =>
    have hn : bytes.length < requestLimit := hobject bytes rfl
    by_cases hne : bytes.length = 0
    · exact Or.inl ⟨.invalidParam, by simp, if_pos hne⟩
    · rcases h.makeRoom r hn with hrefused | ⟨s₁, hmake, hs₁, hsize, hroom, hcapacity⟩
      · refine Or.inl ⟨.noMemory, by simp, ?_⟩
        simp only [infraBufferWrite, if_neg hne, hrefused]
      · rw [← hsize] at hroom
        refine Or.inr ⟨_, infraBufferWrite_ok hne hmake (hs₁.block.symm ▸ hroom), ?_, hcapacity⟩
        rw [(hs₁.sizes hn).1]
        exact hs₁.store hroom

theorem Holds.read (h : Holds s content) {dst size : ℕ} (hdst : dst ≠ 0) (hpos : 1 ≤ size)
    (hsize : size ≤ s.size) : infraBufferRead s dst size = .ok (.ok, content.take size) := by
  have hne : ¬ (dst = 0 ∨ size = 0) := by omega
  have hload : loadBytes s.data size = .ok (s.data.take size) := by
    apply if_pos
    rw [h.block]
    exact hsize.trans h.within
  rw [infraBufferRead, if_neg hne, if_neg (not_lt.mpr hsize), hload, ← h.content, List.take_take,
    Nat.min_eq_left hsize]
  rfl

/-! ### Runs -/

theorem holds_of_run (h : Run initial s content moves) :
    Holds s content ∧ 0 < initial ∧ 2 ^ moves * initial ≤ s.capacity := by
  induction h with
  | init hcall =>
    obtain ⟨hholds, hcapacity, hpos⟩ := holds_init hcall
    refine ⟨hholds, hpos, ?_⟩
    rw [hcapacity, pow_zero, Nat.one_mul]
  | @write r s s' content moves data e _ hobject hcall ih =>
    obtain ⟨hholds, hpos, hmoves⟩ := ih
    rcases hholds.write r hobject with ⟨e', hfailed, hwrite⟩ | ⟨s₁, hwrite, hs₁, hcapacity⟩
    · rw [hwrite] at hcall
      injection hcall with hcall
      obtain ⟨rfl, rfl⟩ := Prod.mk.inj hcall
      rw [if_neg hfailed, if_pos rfl]
      exact ⟨hholds, hpos, hmoves⟩
    · rw [hwrite] at hcall
      injection hcall with hcall
      obtain ⟨rfl, rfl⟩ := Prod.mk.inj hcall
      rw [if_pos rfl]
      refine ⟨hs₁, hpos, ?_⟩
      split
      · rename_i hsame
        rwa [hsame]
      · rename_i hmoved
        have hdouble := hcapacity.resolve_left hmoved
        calc 2 ^ (moves + 1) * initial = 2 * (2 ^ moves * initial) := by rw [Nat.pow_succ', Nat.mul_assoc]
          _ ≤ 2 * s.capacity := Nat.mul_le_mul_left 2 hmoves
          _ ≤ s₁.capacity := hdouble
  | @reserve r s s' content moves capacity e _ hcall ih =>
    obtain ⟨hholds, hpos, hmoves⟩ := ih
    rcases hholds.reserve r capacity with hrefused | ⟨s₁, hserved, hs₁, _, hcapacity⟩
    · rw [hrefused] at hcall
      obtain ⟨rfl, -⟩ := Prod.mk.inj hcall
      exact ⟨hholds, hpos, hmoves⟩
    · rw [hserved] at hcall
      obtain ⟨rfl, -⟩ := Prod.mk.inj hcall
      exact ⟨hs₁, hpos, by omega⟩
  | read _ _ ih => exact ih
  | reset _ ih =>
    obtain ⟨hholds, hpos, hmoves⟩ := ih
    exact ⟨⟨hholds.block, hholds.limit, Nat.zero_le _, rfl⟩, hpos, hmoves⟩

/-- In every buffer that calls make: its sizes, its content, how often writes
have moved it (at most log2 of capacity over initial capacity), and what every
further call does. -/
theorem buffer_right (h : Run initial s content moves) :
    s.size ≤ s.capacity ∧ infraBufferReadable s + infraBufferWritable s = s.capacity ∧
    s.data.take s.size = content ∧ content.length = s.size ∧
    2 ^ moves * initial ≤ s.capacity ∧
    (∀ dst size, dst ≠ 0 → 1 ≤ size → size ≤ s.size →
      infraBufferRead s dst size = .ok (.ok, content.take size)) ∧
    (∀ r data, IsObject data → ∃ s' e, infraBufferWrite r s data = .ok (s', e) ∧
      (e ≠ .ok → s' = s)) ∧
    ∀ r capacity, (infraBufferReserve r s capacity).2 ≠ .ok →
      (infraBufferReserve r s capacity).1 = s := by
  obtain ⟨hholds, _, hmoves⟩ := holds_of_run h
  have hwithin := hholds.within
  have hmodulus := two_mul_requestLimit
  have hlimit := hholds.limit
  refine ⟨hwithin, ?_, hholds.content, hholds.length, hmoves, fun dst size => hholds.read, ?_, ?_⟩
  · rw [infraBufferReadable, infraBufferWritable, subSize_of_le (by omega) hwithin]
    omega
  · intro r data hobject
    rcases hholds.write r hobject with ⟨e, _, hwrite⟩ | ⟨s', hwrite, _⟩
    · exact ⟨s, e, hwrite, fun _ => rfl⟩
    · exact ⟨s', .ok, hwrite, fun hne => absurd rfl hne⟩
  · intro r capacity hfailed
    rcases hholds.reserve r capacity with hrefused | ⟨s', hserved, _⟩
    · rw [hrefused]
    · rw [hserved] at hfailed
      exact absurd rfl hfailed

def servedReply : Reply := ⟨true, fun _ => 0⟩

/-- Three bytes written to a buffer of two, which moves once. -/
theorem buffer_right_moved : ∃ s, Run 2 s [1, 2, 3] 1 ∧ s.size = 3 ∧ 2 ^ 1 * 2 ≤ s.capacity := by
  have hinit : Run 2 ⟨[0, 0], 0, 2⟩ [] 0 := Run.init (r := servedReply) rfl
  have hobject : IsObject (some [1, 2, 3]) := by
    intro bytes hbytes
    rw [← Option.some.inj hbytes]
    norm_num [requestLimit]
  have hcall : infraBufferWrite servedReply ⟨[0, 0], 0, 2⟩ (some [1, 2, 3]) =
      .ok (⟨[1, 2, 3, 0], 3, 4⟩, .ok) := rfl
  have hwrite : Run 2 ⟨[1, 2, 3, 0], 3, 4⟩ [1, 2, 3] 1 := Run.write hinit hobject hcall
  obtain ⟨_, _, _, hlength, hmoves, _⟩ := buffer_right hwrite
  exact ⟨_, hwrite, hlength.symm, hmoves⟩

end Ppdb.BufferRuns
