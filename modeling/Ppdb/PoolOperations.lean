import Ppdb.BlockHeaders
import Ppdb.ErrorCodes
import Ppdb.EventualResults

/-!
The allocator of the memory module, function by function. The state holds the
module's global record, the byte memory and the blocks the C library has
handed out. A call that may ask the C library for memory takes the library's
reply as an argument, 0 standing for a failed request. Loops over the block
list carry a bound on their iterations, since a damaged list need not end.
The module's mutex is taken and released around every operation and has no
further effect on a sequential run.
-/

namespace Ppdb.PoolOperations

open ByteMemory SizeArithmetic BlockHeaders ErrorCodes

structure Config where
  useMemoryPool : Bool
  poolInitialSize : ℕ
  poolAlignment : ℕ
  deriving DecidableEq, Repr

structure Stats where
  currentUsage : ℕ
  peakUsage : ℕ
  totalAllocations : ℕ
  poolFragmentation : ℕ
  poolUtilization : ℕ
  deriving DecidableEq, Repr

def Stats.zero : Stats := ⟨0, 0, 0, 0, 0⟩

structure Pool where
  poolStart : ℕ
  poolSize : ℕ
  freeList : ℕ
  usedSize : ℕ
  blockCount : ℕ
  deriving DecidableEq, Repr

/-- `g_memory` together with the memory it lives in. The list `libc` holds
the base and length of every block obtained from the C library and not yet
given back. -/
structure State where
  initialized : Bool
  config : Config
  stats : Stats
  pool : Pool
  bytes : Mem
  libc : List (ℕ × ℕ)

/-- Why a call does not return. -/
inductive Stop
  | outOfFuel
  /-- `free` or `realloc` of an address the C library did not hand out -/
  | invalidFree
  /-- a store where the process has no memory -/
  | segfault
  deriving DecidableEq, Repr

/-! ### Memory pool functions -/

def findFreeLoop (m : Mem) (size : ℕ) : ℕ → ℕ → ℕ → ℕ → Except Stop ℕ
  | 0, _, _, _ => .error .outOfFuel
  | fuel + 1, block, bestFit, minSizeDiff =>
    if block = 0 then .ok bestFit
    else if !getIsUsed m block && size ≤ getSize m block then
      let sizeDiff := getSize m block - size
      if sizeDiff < minSizeDiff then
        if sizeDiff = 0 then .ok block
        else findFreeLoop m size fuel (getNext m block) block sizeDiff
      else findFreeLoop m size fuel (getNext m block) bestFit minSizeDiff
    else findFreeLoop m size fuel (getNext m block) bestFit minSizeDiff

def findFreeBlock (fuel : ℕ) (s : State) (size : ℕ) : Except Stop ℕ :=
  findFreeLoop s.bytes size fuel s.pool.freeList 0 sizeMax

def splitBlock (s : State) (block size : ℕ) : State :=
  let alignedSize := alignSize size s.config.poolAlignment
  let totalSize := addSize headerSize alignedSize
  let remaining := subSize (getSize s.bytes block) totalSize
  if minBlockSize ≤ remaining then
    let newBlock := block + totalSize
    let m := setSize s.bytes newBlock (subSize remaining headerSize)
    let m := setIsUsed m newBlock false
    let m := setNext m newBlock (getNext m block)
    let m := setSize m block alignedSize
    let m := setNext m block newBlock
    { s with bytes := m, pool := { s.pool with blockCount := addSize s.pool.blockCount 1 } }
  else s

def notePeak (st : Stats) : Stats :=
  if st.peakUsage < st.currentUsage then { st with peakUsage := st.currentUsage } else st

/-- The block chosen by `allocate_from_pool` is cut if a header still fits
behind the request, and handed out. -/
def takeFirstFit (s : State) (current alignedSize size : ℕ) : State × ℕ :=
  let s :=
    if addSize alignedSize minBlockSize ≤ getSize s.bytes current then
      let newBlock := current + alignedSize
      let m := setSize s.bytes newBlock (subSize (getSize s.bytes current) alignedSize)
      let m := setIsUsed m newBlock false
      let m := setNext m newBlock (getNext m current)
      let m := setSize m current (subSize alignedSize headerSize)
      let m := setNext m current newBlock
      { s with bytes := m, pool := { s.pool with blockCount := addSize s.pool.blockCount 1 } }
    else s
  let s :=
    { s with
      bytes := setIsUsed s.bytes current true
      pool := { s.pool with usedSize := addSize s.pool.usedSize alignedSize }
      stats := notePeak
        { s.stats with
          currentUsage := addSize s.stats.currentUsage size
          totalAllocations := addSize s.stats.totalAllocations 1 } }
  let addr := current + headerSize
  let mask := addr &&& subSize s.config.poolAlignment 1
  if mask ≠ 0 then (s, addr + subSize s.config.poolAlignment mask) else (s, addr)

def firstFitLoop (s : State) (alignedSize size : ℕ) : ℕ → ℕ → Except Stop (State × ℕ)
  | 0, _ => .error .outOfFuel
  | fuel + 1, current =>
    if current = 0 then .ok (s, 0)
    else if !getIsUsed s.bytes current && alignedSize ≤ getSize s.bytes current then
      .ok (takeFirstFit s current alignedSize size)
    else firstFitLoop s alignedSize size fuel (getNext s.bytes current)

def allocateFromPool (fuel : ℕ) (s : State) (size : ℕ) : Except Stop (State × ℕ) :=
  if size = 0 then .ok (s, 0)
  else
    let totalSize := addSize headerSize size
    if totalSize < size then .ok (s, 0)
    else
      let alignedSize := alignSize totalSize s.config.poolAlignment
      if alignedSize < totalSize then .ok (s, 0)
      else if s.pool.poolSize < alignedSize then .ok (s, 0)
      else firstFitLoop s alignedSize size fuel s.pool.freeList

/-- The pool's memory is the C library's reply to the request for it. -/
def initializePool (reply : ℕ) (s : State) : Option State :=
  if reply = 0 then none
  else
    let m := setSize s.bytes reply (subSize s.config.poolInitialSize headerSize)
    let m := setIsUsed m reply false
    let m := setNext m reply 0
    some { s with
      bytes := m
      libc := (reply, s.config.poolInitialSize) :: s.libc
      pool :=
        { poolStart := reply
          poolSize := s.config.poolInitialSize
          usedSize := 0
          blockCount := 1
          freeList := reply }
      stats := Stats.zero }

def getBlockHeader (ptr : ℕ) : ℕ := subSize ptr headerSize

/-- One inner pass of `try_merge_blocks` from `current` on; the flag says
whether any two blocks were merged. -/
def mergePass : ℕ → Mem → ℕ → ℕ → Bool → Except Stop (Mem × ℕ × Bool)
  | 0, _, _, _, _ => .error .outOfFuel
  | fuel + 1, m, blockCount, current, merged =>
    if current = 0 ∨ getNext m current = 0 then .ok (m, blockCount, merged)
    else if !getIsUsed m current && !getIsUsed m (getNext m current) then
      let next := getNext m current
      let m := setSize m current
        (addSize (getSize m current) (addSize (getSize m next) headerSize))
      let m := setNext m current (getNext m next)
      mergePass fuel m (subSize blockCount 1) current true
    else mergePass fuel m blockCount (getNext m current) merged

def mergeRounds (passFuel freeList : ℕ) : ℕ → Mem → ℕ → Except Stop (Mem × ℕ)
  | 0, _, _ => .error .outOfFuel
  | fuel + 1, m, blockCount => do
    let (m, blockCount, merged) ← mergePass passFuel m blockCount freeList false
    if merged then mergeRounds passFuel freeList fuel m blockCount else .ok (m, blockCount)

def tryMergeBlocks (fuel : ℕ) (s : State) : Except Stop State := do
  let (m, blockCount) ← mergeRounds fuel s.pool.freeList fuel s.bytes s.pool.blockCount
  .ok { s with bytes := m, pool := { s.pool with blockCount := blockCount } }

/-! ### Memory module management -/

def resetMemoryState (s : State) : State :=
  { s with
    initialized := false
    config := ⟨false, 0, 0⟩
    stats := Stats.zero
    pool := ⟨0, 0, 0, 0, 0⟩ }

/-- The parameters of a pool that `infra_memory_init` turns down. -/
def poolRejected (config : Config) : Bool :=
  config.poolInitialSize = 0 || config.poolAlignment = 0 || config.poolAlignment < 8 ||
    config.poolAlignment &&& subSize config.poolAlignment 1 ≠ 0 ||
    config.poolInitialSize < minBlockSize

def infraMemoryInit (mutexReply : ErrorCode) (reply : ℕ) (s : State) :
    Option Config → State × ErrorCode
  | none => (resetMemoryState s, .invalidParam)
  | some config =>
    if s.initialized then (s, .existing)
    else if config.useMemoryPool && poolRejected config then (resetMemoryState s, .invalidParam)
    else
      let s := resetMemoryState s
      if mutexReply ≠ .ok then (s, mutexReply)
      else
        let s := { s with config := config }
        if config.useMemoryPool then
          match initializePool reply s with
          | none => (resetMemoryState s, .noMemory)
          | some s => ({ s with initialized := true }, .ok)
        else ({ s with initialized := true }, .ok)

/-! ### Memory management functions -/

/-- The block chosen by `allocate_memory` is split if it is too big, and
handed out. -/
def takeBestFit (s : State) (block alignedSize size : ℕ) : State × ℕ :=
  let s :=
    if addSize (addSize alignedSize headerSize) minBlockSize < getSize s.bytes block then
      let newBlock :=
        alignSize (block + headerSize + alignedSize) s.config.poolAlignment
      let m := setSize s.bytes newBlock
        (subSize (subSize (getSize s.bytes block) alignedSize) headerSize)
      let m := setIsUsed m newBlock false
      let m := setNext m newBlock (getNext m block)
      let m := setNext m block newBlock
      let m := setSize m block alignedSize
      let m := setOriginalSize m block size
      { s with bytes := m, pool := { s.pool with blockCount := addSize s.pool.blockCount 1 } }
    else { s with bytes := setOriginalSize s.bytes block size }
  let s :=
    { s with
      bytes := setIsUsed s.bytes block true
      pool := { s.pool with usedSize := addSize s.pool.usedSize alignedSize }
      stats := { s.stats with currentUsage := addSize s.stats.currentUsage size } }
  (s, alignSize (block + headerSize) s.config.poolAlignment)

/-- The pool branch of `allocate_memory`. -/
def allocatePooled (fuel : ℕ) (s : State) (size : ℕ) : Except Stop (State × ℕ) := do
  let alignedSize :=
    alignSize (subSize (addSize size s.config.poolAlignment) 1) s.config.poolAlignment
  let block ← findFreeBlock fuel s alignedSize
  if block = 0 then .ok (s, 0) else .ok (takeBestFit s block alignedSize size)

/-- The system branch of `allocate_memory`: a size word sits just below the
aligned payload. -/
def allocateSystem (reply : ℕ) (s : State) (size : ℕ) : State × ℕ :=
  let totalSize := subSize (addSize (addSize size 8) s.config.poolAlignment) 1
  if size < totalSize then
    if reply = 0 then (s, 0)
    else
      let alignedPtr := alignSize (reply + 8) s.config.poolAlignment
      ({ s with
        bytes := writeWord s.bytes (subSize alignedPtr 8) size
        libc := (reply, totalSize) :: s.libc
        stats := { s.stats with currentUsage := addSize s.stats.currentUsage size } },
        alignedPtr)
  else (s, 0)

def allocateMemory (fuel reply : ℕ) (s : State) (size : ℕ) : Except Stop (State × ℕ) := do
  let size := if size = 0 then 1 else size
  let (s, ptr) ←
    if s.config.useMemoryPool then allocatePooled fuel s size
    else .ok (allocateSystem reply s size)
  if ptr ≠ 0 then .ok ({ s with stats := notePeak s.stats }, ptr) else .ok (s, ptr)

def libcFree (s : State) (base : ℕ) : Except Stop State :=
  match s.libc.find? (fun blk => blk.1 = base) with
  | none => .error .invalidFree
  | some blk => .ok { s with libc := s.libc.erase blk }

def freePooled (fuel : ℕ) (s : State) (ptr : ℕ) : Except Stop State :=
  let block := getBlockHeader ptr
  if block ≠ 0 ∧ getIsUsed s.bytes block ∧ s.pool.poolStart ≤ block ∧
      block < s.pool.poolStart + s.pool.poolSize then
    tryMergeBlocks fuel
      { s with
        bytes := setIsUsed s.bytes block false
        pool := { s.pool with usedSize := subSize s.pool.usedSize (getSize s.bytes block) }
        stats :=
          { s.stats with
            currentUsage := subSize s.stats.currentUsage (getOriginalSize s.bytes block) } }
  else .ok s

def freeMemory (fuel : ℕ) (s : State) (ptr : ℕ) : Except Stop State :=
  if ptr = 0 then .ok s
  else if s.config.useMemoryPool then freePooled fuel s ptr
  else
    let block := subSize ptr 8
    libcFree
      { s with
        stats :=
          { s.stats with
            currentUsage := subSize s.stats.currentUsage (readWord s.bytes block) } } block

def infraMemoryGetStats (s : State) : Option Stats :=
  if !s.initialized then none
  else if s.config.useMemoryPool && decide (0 < s.pool.poolSize) then
    let totalOverhead := mulSize s.pool.blockCount headerSize
    some { s.stats with
      poolUtilization := mulSize s.pool.usedSize 100 / s.pool.poolSize
      poolFragmentation := mulSize totalOverhead 100 / s.pool.poolSize }
  else some { s.stats with poolUtilization := 0, poolFragmentation := 0 }

def infraMalloc (fuel reply : ℕ) (s : State) (size : ℕ) : Except Stop (State × ℕ) :=
  if !s.initialized then .ok (s, 0)
  else do
    let (s, ptr) ← allocateMemory fuel reply s size
    if ptr ≠ 0 then
      .ok ({ s with
        stats :=
          { s.stats with totalAllocations := addSize s.stats.totalAllocations 1 } }, ptr)
    else .ok (s, ptr)

/-- No process owns the last byte of the address space: stores that run up to
it do not return. -/
def infraMemset (m : Mem) (p : ℕ) (c : UInt8) (n : ℕ) : Except Stop Mem :=
  if p = 0 ∨ n = 0 then .ok m
  else if sizeModulus ≤ p + n then .error .segfault
  else .ok (fill m p c n)

def infraMemcpy (m : Mem) (dest src n : ℕ) : Mem :=
  if dest = 0 ∨ src = 0 ∨ n = 0 then m else copy m dest src n

def infraCalloc (fuel reply : ℕ) (s : State) (nmemb size : ℕ) : Except Stop (State × ℕ) :=
  if !s.initialized then .ok (s, 0)
  else if nmemb = 0 ∨ size = 0 then .ok (s, 0)
  else do
    let totalSize := mulSize nmemb size
    let (s, ptr) ← infraMalloc fuel reply s totalSize
    if ptr ≠ 0 then do
      let m ← infraMemset s.bytes ptr 0 totalSize
      .ok ({ s with bytes := m }, ptr)
    else .ok (s, ptr)

def infraFree (fuel : ℕ) (s : State) (ptr : ℕ) : Except Stop State :=
  if !s.initialized ∨ ptr = 0 then .ok s else freeMemory fuel s ptr

/-- `infra_realloc` of a used pool block that is already large enough. -/
def reallocInPlace (s : State) (block size : ℕ) : State :=
  let alignedOldSize := alignSize (getSize s.bytes block) s.config.poolAlignment
  let alignedNewSize := alignSize size s.config.poolAlignment
  let s := splitBlock s block alignedNewSize
  { s with
    pool :=
      { s.pool with
        usedSize := addSize (subSize s.pool.usedSize alignedOldSize) alignedNewSize }
    stats :=
      { s.stats with
        currentUsage := addSize (subSize s.stats.currentUsage alignedOldSize) alignedNewSize } }

/-- `infra_realloc` of a used pool block that must move. -/
def reallocMove (fuel : ℕ) (s : State) (ptr block size : ℕ) : Except Stop (State × ℕ) := do
  let oldSize := getSize s.bytes block
  let alignedOldSize := alignSize oldSize s.config.poolAlignment
  let (s, newPtr) ← allocateFromPool fuel s size
  if newPtr ≠ 0 then
    let m := infraMemcpy s.bytes newPtr ptr oldSize
    let s ← tryMergeBlocks fuel
      { s with
        bytes := setIsUsed m block false
        pool := { s.pool with usedSize := subSize s.pool.usedSize alignedOldSize }
        stats :=
          { s.stats with currentUsage := subSize s.stats.currentUsage alignedOldSize } }
    .ok (s, newPtr)
  else .ok (s, 0)

def reallocPooled (fuel : ℕ) (s : State) (ptr size : ℕ) : Except Stop (State × ℕ) :=
  let block := getBlockHeader ptr
  if getIsUsed s.bytes block then
    if alignSize size s.config.poolAlignment ≤ getSize s.bytes block then
      .ok (reallocInPlace s block size, ptr)
    else reallocMove fuel s ptr block size
  else .ok (s, 0)

/-- `infra_realloc` of memory from the C library, recognised by its size word. -/
def reallocSystem (reply : ℕ) (s : State) (ptr size : ℕ) : Except Stop (State × ℕ) :=
  let sizePtr := ptr - 8
  let oldSize := readWord s.bytes sizePtr
  if sizePtr ≠ 0 ∧ 0 < oldSize ∧ oldSize ≤ sizeMax - 8 then
    let totalSize := addSize 8 size
    if size < totalSize then
      match s.libc.find? (fun blk => blk.1 = sizePtr) with
      | none => .error .invalidFree
      | some blk =>
        if reply = 0 then .ok (s, 0)
        else
          let m := copy s.bytes reply sizePtr (min blk.2 totalSize)
          .ok ({ s with
            bytes := writeWord m reply size
            libc := (reply, totalSize) :: s.libc.erase blk
            stats := notePeak
              { s.stats with
                currentUsage := addSize (subSize s.stats.currentUsage oldSize) size
                totalAllocations := addSize s.stats.totalAllocations 1 } }, reply + 8)
    else .ok (s, 0)
  else .ok (s, 0)

def infraRealloc (fuel reply : ℕ) (s : State) (ptr size : ℕ) : Except Stop (State × ℕ) :=
  if !s.initialized then .ok (s, 0)
  else if size = 0 then do
    let s ← infraFree fuel s ptr
    .ok (s, 0)
  else if ptr = 0 then infraMalloc fuel reply s size
  else if s.config.useMemoryPool ∧ s.pool.poolStart ≤ ptr ∧
      ptr < s.pool.poolStart + s.pool.poolSize then
    reallocPooled fuel s ptr size
  else if 8 < ptr then reallocSystem reply s ptr size
  else .ok (s, 0)

end Ppdb.PoolOperations
