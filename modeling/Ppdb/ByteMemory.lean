import Mathlib.Data.Nat.Basic
import Mathlib.Tactic.Ring
import Mathlib.Tactic.NormNum

/-!
A flat byte-addressed memory with little-endian 64-bit words. A write is
described by the interval of addresses it may change; whatever reads only
outside that interval reads the same before and after. This is the frame rule
every user of the memory goes through.
-/

namespace Ppdb.ByteMemory

abbrev Mem := ℕ → UInt8

def writeByte (m : Mem) (a : ℕ) (v : UInt8) : Mem := fun i => if i = a then v else m i

/-- The little-endian value of the `k` bytes from `a` on. -/
def readLe (m : Mem) (a : ℕ) : ℕ → ℕ
  | 0 => 0
  | k + 1 => (m a).toNat + 256 * readLe m (a + 1) k

def writeLe (m : Mem) (a v k : ℕ) : Mem := fun i =>
  if a ≤ i ∧ i < a + k then UInt8.ofNat (v / 256 ^ (i - a)) else m i

def readWord (m : Mem) (a : ℕ) : ℕ := readLe m a 8

def writeWord (m : Mem) (a v : ℕ) : Mem := writeLe m a v 8

def fill (m : Mem) (a : ℕ) (v : UInt8) (n : ℕ) : Mem := fun i =>
  if a ≤ i ∧ i < a + n then v else m i

/-- `memcpy` of a source that the destination does not overlap. -/
def copy (m : Mem) (dest src n : ℕ) : Mem := fun i =>
  if dest ≤ i ∧ i < dest + n then m (src + (i - dest)) else m i

def AgreeOn (m m' : Mem) (lo hi : ℕ) : Prop := ∀ i, lo ≤ i → i < hi → m' i = m i

/-- The second memory differs from the first at most from `lo` up to `hi`. -/
def DiffersWithin (m m' : Mem) (lo hi : ℕ) : Prop := ∀ i, i < lo ∨ hi ≤ i → m' i = m i

theorem AgreeOn.mono {m m' : Mem} {lo hi lo' hi' : ℕ} (h : AgreeOn m m' lo hi)
    (hlo : lo ≤ lo') (hhi : hi' ≤ hi) : AgreeOn m m' lo' hi' :=
  fun i h1 h2 => h i (by omega) (by omega)

theorem DiffersWithin.refl (m : Mem) (lo hi : ℕ) : DiffersWithin m m lo hi := fun _ _ => rfl

theorem DiffersWithin.mono {m m' : Mem} {lo hi lo' hi' : ℕ} (h : DiffersWithin m m' lo hi)
    (hlo : lo' ≤ lo) (hhi : hi ≤ hi') : DiffersWithin m m' lo' hi' :=
  fun i hi => h i (by omega)

theorem DiffersWithin.trans {m₁ m₂ m₃ : Mem} {lo hi : ℕ} (h : DiffersWithin m₁ m₂ lo hi)
    (h' : DiffersWithin m₂ m₃ lo hi) : DiffersWithin m₁ m₃ lo hi :=
  fun i hi => (h' i hi).trans (h i hi)

/-- The frame rule: an interval apart from the written one is unchanged. -/
theorem DiffersWithin.agreeOn {m m' : Mem} {lo hi a b : ℕ} (h : DiffersWithin m m' lo hi)
    (hsep : b ≤ lo ∨ hi ≤ a) : AgreeOn m m' a b :=
  fun i h1 h2 => h i (by omega)

theorem writeByte_differs (m : Mem) (a : ℕ) (v : UInt8) :
    DiffersWithin m (writeByte m a v) a (a + 1) := by
  intro i hi
  have hne : i ≠ a := by omega
  simp [writeByte, hne]

theorem writeLe_differs (m : Mem) (a v k : ℕ) :
    DiffersWithin m (writeLe m a v k) a (a + k) := by
  intro i hi
  have hout : ¬ (a ≤ i ∧ i < a + k) := by omega
  simp [writeLe, hout]

theorem writeWord_differs (m : Mem) (a v : ℕ) :
    DiffersWithin m (writeWord m a v) a (a + 8) := writeLe_differs m a v 8

theorem fill_differs (m : Mem) (a : ℕ) (v : UInt8) (n : ℕ) :
    DiffersWithin m (fill m a v n) a (a + n) := by
  intro i hi
  have hout : ¬ (a ≤ i ∧ i < a + n) := by omega
  simp [fill, hout]

theorem copy_differs (m : Mem) (dest src n : ℕ) :
    DiffersWithin m (copy m dest src n) dest (dest + n) := by
  intro i hi
  have hout : ¬ (dest ≤ i ∧ i < dest + n) := by omega
  simp [copy, hout]

theorem writeByte_self (m : Mem) (a : ℕ) (v : UInt8) : writeByte m a v a = v := by
  simp [writeByte]

theorem readLe_congr {m m' : Mem} {a k : ℕ} (h : AgreeOn m m' a (a + k)) :
    readLe m' a k = readLe m a k := by
  induction k generalizing a with
  | zero => rfl
  | succ k ih =>
    have htail : AgreeOn m m' (a + 1) (a + 1 + k) := h.mono (by omega) (by omega)
    rw [readLe, readLe, ih htail, h a (Nat.le_refl a) (by omega)]

/-- A word whose first byte is not zero is positive. -/
theorem readWord_pos {m : Mem} {a : ℕ} (h : m a ≠ 0) : 0 < readWord m a := by
  have hbyte : (m a).toNat ≠ 0 := fun hzero => h (UInt8.toNat_inj.mp hzero)
  unfold readWord readLe
  omega

/-- A word of zeroed bytes is zero. -/
theorem readLe_fill_zero {m : Mem} {a n : ℕ} (b k : ℕ) (hlo : a ≤ b) (hhi : b + k ≤ a + n) :
    readLe (fill m a 0 n) b k = 0 := by
  induction k generalizing b with
  | zero => rfl
  | succ k ih =>
    have hbyte : fill m a 0 n b = 0 := if_pos ⟨hlo, by omega⟩
    rw [readLe, hbyte, ih (b + 1) (by omega) (by omega)]
    rfl

theorem readWord_congr {m m' : Mem} {a : ℕ} (h : AgreeOn m m' a (a + 8)) :
    readWord m' a = readWord m a := readLe_congr h

theorem readLe_lt (m : Mem) (a k : ℕ) : readLe m a k < 256 ^ k := by
  induction k generalizing a with
  | zero => simp [readLe]
  | succ k ih =>
    have hbyte : (m a).toNat < 256 := (m a).toNat_lt
    have htail := ih (a + 1)
    rw [readLe, pow_succ]
    omega

theorem readWord_lt (m : Mem) (a : ℕ) : readWord m a < 2 ^ 64 := by
  have h := readLe_lt m a 8
  norm_num at h ⊢
  exact h

/-- Writing the tail bytes of a number writes its quotient one byte further on. -/
private theorem writeLe_tail (m : Mem) (a v k : ℕ) :
    AgreeOn (writeLe m (a + 1) (v / 256) k) (writeLe m a v (k + 1)) (a + 1) (a + 1 + k) := by
  intro i h1 h2
  have hin : a ≤ i ∧ i < a + (k + 1) := by omega
  have hin' : a + 1 ≤ i ∧ i < a + 1 + k := by omega
  have hexp : i - a = (i - (a + 1)) + 1 := by omega
  simp only [writeLe, if_pos hin, if_pos hin']
  rw [hexp, Nat.div_div_eq_div_mul, pow_succ, Nat.mul_comm]

/-- What was written is read back, cut to the width. -/
theorem readLe_writeLe (m : Mem) (a v k : ℕ) : readLe (writeLe m a v k) a k = v % 256 ^ k := by
  induction k generalizing a v with
  | zero => simp [readLe, Nat.mod_one]
  | succ k ih =>
    have hhead : (writeLe m a v (k + 1) a).toNat = v % 256 := by
      simp [writeLe, UInt8.toNat_ofNat']
    rw [readLe, readLe_congr (writeLe_tail m a v k), ih, hhead, pow_succ, Nat.mul_comm (256 ^ k),
      Nat.mod_mul]

theorem readWord_writeWord (m : Mem) (a v : ℕ) :
    readWord (writeWord m a v) a = v % 2 ^ 64 := by
  have h := readLe_writeLe m a v 8
  norm_num at h ⊢
  exact h

theorem readWord_writeWord_of_ne (m : Mem) {a b : ℕ} (v : ℕ) (h : b + 8 ≤ a ∨ a + 8 ≤ b) :
    readWord (writeWord m a v) b = readWord m b :=
  readWord_congr ((writeWord_differs m a v).agreeOn h)

theorem readWord_writeByte_of_ne (m : Mem) {a b : ℕ} (v : UInt8) (h : b + 8 ≤ a ∨ a + 1 ≤ b) :
    readWord (writeByte m a v) b = readWord m b :=
  readWord_congr ((writeByte_differs m a v).agreeOn h)

/-! ### Runs of bytes -/

def loadBytes (m : Mem) (a : ℕ) : ℕ → List UInt8
  | 0 => []
  | n + 1 => m a :: loadBytes m (a + 1) n

def storeBytes (m : Mem) (a : ℕ) : List UInt8 → Mem
  | [] => m
  | b :: bs => storeBytes (writeByte m a b) (a + 1) bs

theorem loadBytes_add (m : Mem) (a n k : ℕ) :
    loadBytes m a (n + k) = loadBytes m a n ++ loadBytes m (a + n) k := by
  induction n generalizing a with
  | zero => simp [loadBytes]
  | succ n ih =>
    have hnext : a + 1 + n = a + (n + 1) := by omega
    rw [Nat.succ_add, loadBytes, ih, hnext]
    rfl

theorem loadBytes_congr {m m' : Mem} {a n : ℕ} (h : AgreeOn m m' a (a + n)) :
    loadBytes m' a n = loadBytes m a n := by
  induction n generalizing a with
  | zero => rfl
  | succ n ih =>
    have htail : AgreeOn m m' (a + 1) (a + 1 + n) := h.mono (by omega) (by omega)
    rw [loadBytes, loadBytes, ih htail, h a (Nat.le_refl a) (by omega)]

theorem storeBytes_differs (m : Mem) (a : ℕ) (bs : List UInt8) :
    DiffersWithin m (storeBytes m a bs) a (a + bs.length) := by
  induction bs generalizing m a with
  | nil => exact DiffersWithin.refl m a _
  | cons b bs ih =>
    rw [List.length_cons]
    have hhead := (writeByte_differs m a b).mono (Nat.le_refl a)
      (by omega : a + 1 ≤ a + (bs.length + 1))
    exact hhead.trans ((ih (writeByte m a b) (a + 1)).mono (by omega) (by omega))

theorem storeBytes_append (m : Mem) (a : ℕ) (bs cs : List UInt8) :
    storeBytes m a (bs ++ cs) = storeBytes (storeBytes m a bs) (a + bs.length) cs := by
  induction bs generalizing m a with
  | nil => rfl
  | cons b bs ih =>
    have hnext : a + 1 + bs.length = a + (bs.length + 1) := by omega
    rw [List.cons_append, storeBytes, storeBytes, ih, hnext]
    rfl

theorem length_loadBytes (m : Mem) (a n : ℕ) : (loadBytes m a n).length = n := by
  induction n generalizing a with
  | zero => rfl
  | succ n ih => rw [loadBytes, List.length_cons, ih]

theorem loadBytes_storeBytes (m : Mem) (a : ℕ) (bs : List UInt8) :
    loadBytes (storeBytes m a bs) a bs.length = bs := by
  induction bs generalizing m a with
  | nil => rfl
  | cons b bs ih =>
    have hkept := storeBytes_differs (writeByte m a b) (a + 1) bs a (Or.inl (by omega))
    rw [List.length_cons, loadBytes, storeBytes, ih, hkept, writeByte_self]

end Ppdb.ByteMemory
