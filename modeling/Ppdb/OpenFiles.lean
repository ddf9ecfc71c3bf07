import Ppdb.ByteMemory
import Mathlib.Order.Lattice
import Mathlib.Tactic.Common

/-!
A file that is open: its bytes and their number, the position at which the next
transfer starts, and whether writes go to the end instead. Bytes written in
several pieces are written as if at once, and so is what is read; a write past
the end leaves a hole of zeros.
-/

namespace Ppdb.OpenFiles

open ByteMemory

@[ext]
structure File where
  bytes : Mem
  size : ℕ
  pos : ℕ
  appending : Bool
  beyond : ∀ i, size ≤ i → bytes i = 0

inductive Whence
  | set
  | cur
  | fromEnd
  deriving DecidableEq

def positionMax : ℕ := 2 ^ 63 - 1

namespace File

def place (f : File) : ℕ := if f.appending then f.size else f.pos

def moveTo (f : File) (p : ℕ) : File := { f with pos := p }

/-- What is left of a read of `n` bytes at the end of the file -/
def within (f : File) (n : ℕ) : ℕ := min n (f.size - f.pos)

theorem storeBytes_beyond (f : File) (chunk : List UInt8) (i : ℕ)
    (hi : max f.size (f.place + chunk.length) ≤ i) : storeBytes f.bytes f.place chunk i = 0 := by
  obtain ⟨hsize, hplace⟩ := max_le_iff.mp hi
  rw [storeBytes_differs f.bytes f.place chunk i (Or.inr hplace)]
  exact f.beyond i hsize

/-- The file after a write of the chunk; writing nothing makes no hole. -/
def put (f : File) (chunk : List UInt8) : File :=
  if chunk = [] then f
  else
    ⟨storeBytes f.bytes f.place chunk, max f.size (f.place + chunk.length), f.place + chunk.length,
      f.appending, f.storeBytes_beyond chunk⟩

def base (f : File) : Whence → ℕ
  | .set => 0
  | .cur => f.pos
  | .fromEnd => f.size

def seek (f : File) (offset : ℤ) (whence : Whence) : Option ℕ :=
  if 0 ≤ f.base whence + offset ∧ f.base whence + offset ≤ positionMax then
    some (f.base whence + offset).toNat
  else none

end File

/-- What a `read` of `n` bytes may deliver: nothing only at the end of the file. -/
structure Delivers (f : File) (n : ℕ) (chunk : List UInt8) : Prop where
  bytes : chunk = loadBytes f.bytes f.pos chunk.length
  length : chunk.length ≤ f.within n
  some : chunk = [] → f.within n = 0

variable {f f' : File} {chunk chunk' : List UInt8} {n k lo hi : ℕ}

@[simp] theorem moveTo_bytes (f : File) (p : ℕ) : (f.moveTo p).bytes = f.bytes := rfl

@[simp] theorem moveTo_size (f : File) (p : ℕ) : (f.moveTo p).size = f.size := rfl

@[simp] theorem moveTo_pos (f : File) (p : ℕ) : (f.moveTo p).pos = p := rfl

@[simp] theorem moveTo_moveTo (f : File) (p q : ℕ) : (f.moveTo p).moveTo q = f.moveTo q := rfl

@[simp] theorem moveTo_self (f : File) : f.moveTo f.pos = f := rfl

@[simp] theorem put_nil (f : File) : f.put [] = f := if_pos rfl

theorem put_bytes (f : File) (chunk : List UInt8) :
    (f.put chunk).bytes = storeBytes f.bytes f.place chunk := by
  unfold File.put
  split_ifs with hempty
  · rw [hempty]
    rfl
  · rfl

theorem put_appending (f : File) (chunk : List UInt8) : (f.put chunk).appending = f.appending := by
  unfold File.put
  split_ifs <;> rfl

theorem put_size (h : chunk ≠ []) : (f.put chunk).size = max f.size (f.place + chunk.length) := by
  unfold File.put
  rw [if_neg h]

theorem put_pos (h : chunk ≠ []) : (f.put chunk).pos = f.place + chunk.length := by
  unfold File.put
  rw [if_neg h]

theorem size_le_put (f : File) (chunk : List UInt8) : f.size ≤ (f.put chunk).size := by
  by_cases hempty : chunk = []
  · rw [hempty, put_nil]
  · rw [put_size hempty]
    exact le_max_left _ _

/-- The next piece goes behind the one before it. -/
theorem put_place (h : chunk ≠ []) : (f.put chunk).place = f.place + chunk.length := by
  unfold File.place
  rw [put_appending]
  split_ifs with happend
  · rw [put_size h, File.place, if_pos happend]
    exact max_eq_right (Nat.le_add_right _ _)
  · rw [put_pos h, File.place, if_neg happend]

/-- Two pieces are written as if at once. -/
theorem put_append (f : File) (chunk chunk' : List UInt8) :
    f.put (chunk ++ chunk') = (f.put chunk).put chunk' := by
  by_cases hempty : chunk = []
  · rw [hempty, put_nil, List.nil_append]
  by_cases hempty' : chunk' = []
  · rw [hempty', put_nil, List.append_nil]
  have happend : chunk ++ chunk' ≠ [] := fun heq => hempty (List.append_eq_nil_iff.mp heq).1
  have hend : f.place + (chunk ++ chunk').length = f.place + chunk.length + chunk'.length := by
    rw [List.length_append, Nat.add_assoc]
  ext1
  · rw [put_bytes, put_bytes, put_bytes, put_place hempty, storeBytes_append]
  · rw [put_size happend, put_size hempty', put_size hempty, put_place hempty, hend, max_assoc]
    congr 1
    exact (max_eq_right (Nat.le_add_right _ _)).symm
  · rw [put_pos happend, put_pos hempty', put_place hempty, hend]
  · rw [put_appending, put_appending, put_appending]

/-- A write changes nothing apart from where it goes. -/
theorem put_agreeOn (h : f.place + chunk.length ≤ lo ∨ hi ≤ f.place) :
    AgreeOn f.bytes (f.put chunk).bytes lo hi := by
  rw [put_bytes]
  exact (storeBytes_differs f.bytes f.place chunk).agreeOn h.symm

/-- What has been written is there. -/
theorem loadBytes_put (f : File) (chunk : List UInt8) :
    loadBytes (f.put chunk).bytes f.place chunk.length = chunk := by
  rw [put_bytes, loadBytes_storeBytes]

/-- Where two memories have the same bytes they have the same parts of them. -/
theorem loadBytes_part {m m' : Mem} {a b d : ℕ} (h : loadBytes m a n = loadBytes m' b n)
    (hinside : d + k ≤ n) : loadBytes m (a + d) k = loadBytes m' (b + d) k := by
  obtain ⟨e, rfl⟩ := Nat.exists_eq_add_of_le hinside
  rw [Nat.add_assoc, loadBytes_add, loadBytes_add m (a + d), loadBytes_add m',
    loadBytes_add m' (b + d)] at h
  have hbehind := (List.append_inj h (by rw [length_loadBytes, length_loadBytes])).2
  exact (List.append_inj hbehind (by rw [length_loadBytes, length_loadBytes])).1

/-- So much is left of a read after part of it. -/
theorem within_moveTo (h : k ≤ f.within n) :
    (f.moveTo (f.pos + k)).within (n - k) = f.within n - k := by
  unfold File.within at h ⊢
  rw [moveTo_size, moveTo_pos]
  omega

end Ppdb.OpenFiles
