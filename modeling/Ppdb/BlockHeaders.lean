import Ppdb.ByteMemory
import Ppdb.SizeArithmetic

/-!
The in-memory block header `memory_block_t`: the words `next`, `size` and
`original_size` at offsets 0, 8 and 16, the byte `is_used` at offset 24, and
padding up to 32 bytes. Headers are read from and written to the byte memory,
so a write that strays over a header is seen by whoever reads it next.
-/

namespace Ppdb.BlockHeaders

open ByteMemory SizeArithmetic

def headerSize : ℕ := 32

def minBlockSize : ℕ := headerSize

def getNext (m : Mem) (b : ℕ) : ℕ := readWord m b

def getSize (m : Mem) (b : ℕ) : ℕ := readWord m (b + 8)

def getOriginalSize (m : Mem) (b : ℕ) : ℕ := readWord m (b + 16)

def getIsUsed (m : Mem) (b : ℕ) : Bool := m (b + 24) != 0

def setNext (m : Mem) (b v : ℕ) : Mem := writeWord m b v

def setSize (m : Mem) (b v : ℕ) : Mem := writeWord m (b + 8) v

def setOriginalSize (m : Mem) (b v : ℕ) : Mem := writeWord m (b + 16) v

def setIsUsed (m : Mem) (b : ℕ) (v : Bool) : Mem := writeByte m (b + 24) (if v then 1 else 0)

/-- A header with its address; `next` is read off separately. -/
structure Block where
  addr : ℕ
  size : ℕ
  originalSize : ℕ
  isUsed : Bool
  deriving DecidableEq, Repr

def blockAt (m : Mem) (b : ℕ) : Block :=
  ⟨b, getSize m b, getOriginalSize m b, getIsUsed m b⟩

namespace Block

/-- `(void*)(block + 1)` -/
def payload (b : Block) : ℕ := b.addr + headerSize

def stop (b : Block) : ℕ := b.addr + headerSize + b.size

theorem addr_le_stop (b : Block) : b.addr ≤ b.stop := by
  unfold stop
  omega

end Block

section Fields
variable (m : Mem) (b v : ℕ) (u : Bool)

theorem setNext_differs : DiffersWithin m (setNext m b v) b (b + headerSize) :=
  (writeWord_differs m b v).mono (by omega) (by unfold headerSize; omega)

theorem setSize_differs : DiffersWithin m (setSize m b v) b (b + headerSize) :=
  (writeWord_differs m (b + 8) v).mono (by omega) (by unfold headerSize; omega)

theorem setOriginalSize_differs : DiffersWithin m (setOriginalSize m b v) b (b + headerSize) :=
  (writeWord_differs m (b + 16) v).mono (by omega) (by unfold headerSize; omega)

theorem setIsUsed_differs : DiffersWithin m (setIsUsed m b u) b (b + headerSize) :=
  (writeByte_differs m (b + 24) _).mono (by omega) (by unfold headerSize; omega)

@[simp] theorem getNext_setNext : getNext (setNext m b v) b = v % sizeModulus :=
  readWord_writeWord m b v

@[simp] theorem getSize_setNext : getSize (setNext m b v) b = getSize m b :=
  readWord_writeWord_of_ne m v (by omega)

@[simp] theorem getOriginalSize_setNext :
    getOriginalSize (setNext m b v) b = getOriginalSize m b :=
  readWord_writeWord_of_ne m v (by omega)

@[simp] theorem getIsUsed_setNext : getIsUsed (setNext m b v) b = getIsUsed m b := by
  unfold getIsUsed setNext
  rw [writeWord_differs m b v (b + 24) (by omega)]

@[simp] theorem getNext_setSize : getNext (setSize m b v) b = getNext m b :=
  readWord_writeWord_of_ne m v (by omega)

@[simp] theorem getSize_setSize : getSize (setSize m b v) b = v % sizeModulus :=
  readWord_writeWord m (b + 8) v

@[simp] theorem getOriginalSize_setSize :
    getOriginalSize (setSize m b v) b = getOriginalSize m b :=
  readWord_writeWord_of_ne m v (by omega)

@[simp] theorem getIsUsed_setSize : getIsUsed (setSize m b v) b = getIsUsed m b := by
  unfold getIsUsed setSize
  rw [writeWord_differs m (b + 8) v (b + 24) (by omega)]

@[simp] theorem getNext_setOriginalSize : getNext (setOriginalSize m b v) b = getNext m b :=
  readWord_writeWord_of_ne m v (by omega)

@[simp] theorem getSize_setOriginalSize : getSize (setOriginalSize m b v) b = getSize m b :=
  readWord_writeWord_of_ne m v (by omega)

@[simp] theorem getOriginalSize_setOriginalSize :
    getOriginalSize (setOriginalSize m b v) b = v % sizeModulus :=
  readWord_writeWord m (b + 16) v

@[simp] theorem getIsUsed_setOriginalSize :
    getIsUsed (setOriginalSize m b v) b = getIsUsed m b := by
  unfold getIsUsed setOriginalSize
  rw [writeWord_differs m (b + 16) v (b + 24) (by omega)]

@[simp] theorem getNext_setIsUsed : getNext (setIsUsed m b u) b = getNext m b :=
  readWord_writeByte_of_ne m _ (by omega)

@[simp] theorem getSize_setIsUsed : getSize (setIsUsed m b u) b = getSize m b :=
  readWord_writeByte_of_ne m _ (by omega)

@[simp] theorem getOriginalSize_setIsUsed :
    getOriginalSize (setIsUsed m b u) b = getOriginalSize m b :=
  readWord_writeByte_of_ne m _ (by omega)

@[simp] theorem getIsUsed_setIsUsed : getIsUsed (setIsUsed m b u) b = u := by
  unfold getIsUsed setIsUsed
  rw [writeByte_self]
  cases u <;> rfl

theorem getNext_lt : getNext m b < sizeModulus := readWord_lt m b

end Fields

section Frame
variable {m m' : Mem} {b : ℕ}

theorem getNext_congr (h : AgreeOn m m' b (b + headerSize)) : getNext m' b = getNext m b :=
  readWord_congr (h.mono (by omega) (by unfold headerSize; omega))

theorem getSize_congr (h : AgreeOn m m' b (b + headerSize)) : getSize m' b = getSize m b :=
  readWord_congr (h.mono (by omega) (by unfold headerSize; omega))

theorem getOriginalSize_congr (h : AgreeOn m m' b (b + headerSize)) :
    getOriginalSize m' b = getOriginalSize m b :=
  readWord_congr (h.mono (by omega) (by unfold headerSize; omega))

theorem getIsUsed_congr (h : AgreeOn m m' b (b + headerSize)) :
    getIsUsed m' b = getIsUsed m b := by
  unfold getIsUsed
  rw [h (b + 24) (by omega) (by unfold headerSize; omega)]

theorem blockAt_addr (m : Mem) (b : ℕ) : (blockAt m b).addr = b := by
  unfold blockAt
  rfl

theorem getSize_of_blockAt {c : Block} (h : blockAt m b = c) : getSize m b = c.size := by
  rw [← h, blockAt]

theorem getOriginalSize_of_blockAt {c : Block} (h : blockAt m b = c) :
    getOriginalSize m b = c.originalSize := by
  rw [← h, blockAt]

theorem getIsUsed_of_blockAt {c : Block} (h : blockAt m b = c) : getIsUsed m b = c.isUsed := by
  rw [← h, blockAt]

/-- A header read apart from every write is the header that was there. -/
theorem blockAt_congr (h : AgreeOn m m' b (b + headerSize)) : blockAt m' b = blockAt m b := by
  unfold blockAt
  rw [getSize_congr h, getOriginalSize_congr h, getIsUsed_congr h]

end Frame

end Ppdb.BlockHeaders
