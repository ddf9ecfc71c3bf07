import Mathlib.Data.Nat.Bitwise
import Mathlib.Data.Nat.ModEq
import Mathlib.Order.Interval.Finset.Nat
import Mathlib.Tactic.NormNum

/-!
Unsigned 64-bit arithmetic on natural numbers, as a C compiler performs it on
`size_t`: every result is reduced modulo 2^64. Rounding up to a power of two
is the usual mask expression; its closed form holds for every power of two
below 2^64, with or without a wrap of the addition.
-/

namespace Ppdb.SizeArithmetic

def sizeModulus : ℕ := 2 ^ 64

def sizeMax : ℕ := sizeModulus - 1

def addSize (a b : ℕ) : ℕ := (a + b) % sizeModulus

def subSize (a b : ℕ) : ℕ := (a + (sizeModulus - b)) % sizeModulus

def mulSize (a b : ℕ) : ℕ := (a * b) % sizeModulus

def notSize (a : ℕ) : ℕ := sizeMax - a

/-- `(((size) + ((align) - 1)) & ~((align) - 1))` -/
def alignSize (size align : ℕ) : ℕ :=
  addSize size (subSize align 1) &&& notSize (subSize align 1)

theorem sizeModulus_pos : 0 < sizeModulus := by norm_num [sizeModulus]

theorem addSize_lt (a b : ℕ) : addSize a b < sizeModulus := Nat.mod_lt _ sizeModulus_pos

theorem subSize_lt (a b : ℕ) : subSize a b < sizeModulus := Nat.mod_lt _ sizeModulus_pos

theorem mulSize_lt (a b : ℕ) : mulSize a b < sizeModulus := Nat.mod_lt _ sizeModulus_pos

theorem addSize_of_lt {a b : ℕ} (h : a + b < sizeModulus) : addSize a b = a + b :=
  Nat.mod_eq_of_lt h

theorem addSize_of_ge {a b : ℕ} (ha : a < sizeModulus) (hb : b < sizeModulus)
    (h : sizeModulus ≤ a + b) : addSize a b = a + b - sizeModulus := by
  have hlt : a + b - sizeModulus < sizeModulus := by omega
  unfold addSize
  rw [Nat.mod_eq_sub_mod h, Nat.mod_eq_of_lt hlt]

theorem subSize_of_le {a b : ℕ} (ha : a < sizeModulus) (h : b ≤ a) : subSize a b = a - b := by
  have heq : a + (sizeModulus - b) = a - b + sizeModulus := by omega
  unfold subSize
  rw [heq, Nat.add_mod_right, Nat.mod_eq_of_lt (by omega)]

theorem subSize_of_gt {a b : ℕ} (hb : b ≤ sizeModulus) (h : a < b) :
    subSize a b = sizeModulus + a - b := by
  unfold subSize
  rw [Nat.mod_eq_of_lt (by omega)]
  omega

/-- A sum less one, whether or not the sum itself reaches the modulus. -/
theorem subSize_addSize_one {a b : ℕ} (hb : 0 < b) (h : a + b ≤ sizeModulus) :
    subSize (addSize a b) 1 = a + b - 1 := by
  rcases Nat.lt_or_eq_of_le h with hlt | heq
  · rw [addSize_of_lt hlt, subSize_of_le hlt (by omega)]
  · have hzero : addSize a b = 0 := by
      unfold addSize
      rw [heq, Nat.mod_self]
    rw [hzero, subSize_of_gt (by unfold sizeModulus; omega) (by omega), heq]
    omega

/-- Clearing the low `k` bits of a 64-bit value rounds it down. -/
theorem and_notSize_low (x k : ℕ) (hx : x < sizeModulus) (hk : k ≤ 64) :
    x &&& notSize (2 ^ k - 1) = x / 2 ^ k * 2 ^ k := by
  have hmask : notSize (2 ^ k - 1) = (2 ^ (64 - k) - 1) <<< k := by
    have hpow : 2 ^ (64 - k) * 2 ^ k = sizeModulus := by
      rw [← Nat.pow_add, sizeModulus]
      congr 1
      omega
    have hpos : 0 < 2 ^ k := Nat.pow_pos (by omega)
    have hle : 2 ^ k ≤ 2 ^ (64 - k) * 2 ^ k := Nat.le_mul_of_pos_left _ (Nat.pow_pos (by omega))
    rw [Nat.shiftLeft_eq, Nat.sub_mul, one_mul, hpow, notSize, sizeMax]
    omega
  have hdiv : x / 2 ^ k < 2 ^ (64 - k) := by
    apply Nat.div_lt_of_lt_mul
    rw [← Nat.pow_add]
    calc x < 2 ^ 64 := hx
      _ = 2 ^ (k + (64 - k)) := by congr 1; omega
  rw [hmask]
  apply Nat.eq_of_testBit_eq
  intro i
  rw [Nat.testBit_and, Nat.testBit_shiftLeft, Nat.testBit_mul_two_pow]
  by_cases hi : k ≤ i
  · have hbit : (x / 2 ^ k).testBit (i - k) = x.testBit i := by
      rw [Nat.testBit_div_two_pow]
      congr 1
      omega
    have hones : (2 ^ (64 - k) - 1).testBit (i - k) = decide (i - k < 64 - k) :=
      Nat.testBit_two_pow_sub_one _ _
    simp only [hi, decide_true, Bool.true_and, hbit, hones]
    by_cases hlt : i - k < 64 - k
    · simp [hlt]
    · have hzero : x.testBit i = false := by
        rw [← hbit]
        exact Nat.testBit_lt_two_pow
          (Nat.lt_of_lt_of_le hdiv (Nat.pow_le_pow_right (by omega) (by omega)))
      simp [hlt, hzero]
  · simp [hi]

/-- The mask expression in closed form: it rounds the wrapped sum down. -/
theorem alignSize_eq (size k : ℕ) (hk : k < 64) :
    alignSize size (2 ^ k) = addSize size (2 ^ k - 1) / 2 ^ k * 2 ^ k := by
  have hpow : 2 ^ k < sizeModulus := Nat.pow_lt_pow_right (by omega) hk
  have hsub : subSize (2 ^ k) 1 = 2 ^ k - 1 :=
    subSize_of_le hpow (Nat.pow_pos (by omega))
  unfold alignSize
  rw [hsub]
  exact and_notSize_low _ k (addSize_lt _ _) (by omega)

/-- What is known of a rounded size when the addition does not wrap. -/
theorem alignSize_spec (size k : ℕ) (hk : k < 64) (h : size + (2 ^ k - 1) < sizeModulus) :
    size ≤ alignSize size (2 ^ k) ∧ alignSize size (2 ^ k) < size + 2 ^ k ∧
      2 ^ k ∣ alignSize size (2 ^ k) := by
  have hpos : 0 < 2 ^ k := Nat.pow_pos (by omega)
  rw [alignSize_eq size k hk, addSize_of_lt h]
  have hdiv := Nat.div_add_mod (size + (2 ^ k - 1)) (2 ^ k)
  have hmod := Nat.mod_lt (size + (2 ^ k - 1)) hpos
  rw [Nat.mul_comm] at hdiv
  exact ⟨by omega, by omega, Nat.dvd_mul_left _ _⟩

theorem dvd_alignSize (size k : ℕ) (hk : k < 64) : 2 ^ k ∣ alignSize size (2 ^ k) := by
  rw [alignSize_eq size k hk]
  exact Nat.dvd_mul_left _ _

/-- An aligned value is already rounded. -/
theorem alignSize_of_dvd (size k : ℕ) (hk : k < 64) (hsize : size < sizeModulus)
    (h : 2 ^ k ∣ size) : alignSize size (2 ^ k) = size := by
  have hpos : 0 < 2 ^ k := Nat.pow_pos (by omega)
  obtain ⟨q, rfl⟩ := h
  have hbound : 2 ^ k * q + (2 ^ k - 1) < sizeModulus := by
    have hmod : sizeModulus = 2 ^ k * 2 ^ (64 - k) := by
      rw [← Nat.pow_add, sizeModulus]
      congr 1
      omega
    have hq : q + 1 ≤ 2 ^ (64 - k) := by
      rw [hmod] at hsize
      exact Nat.lt_of_mul_lt_mul_left hsize
    have hle : 2 ^ k * (q + 1) ≤ 2 ^ k * 2 ^ (64 - k) := Nat.mul_le_mul_left _ hq
    rw [Nat.mul_add, Nat.mul_one] at hle
    omega
  rw [alignSize_eq _ k hk, addSize_of_lt hbound, Nat.mul_add_div hpos,
    Nat.div_eq_of_lt (by omega), Nat.add_zero, Nat.mul_comm]

def PowerOfTwo (a : ℕ) : Prop := ∃ k, k < 64 ∧ a = 2 ^ k

/-- The test of a power of two by its mask. -/
theorem powerOfTwo_of_mask {a : ℕ} (hpos : a ≠ 0) (ha : a < sizeModulus)
    (hmask : a &&& subSize a 1 = 0) : PowerOfTwo a := by
  rw [subSize_of_le ha (Nat.one_le_iff_ne_zero.mpr hpos)] at hmask
  obtain ⟨k, rfl⟩ := (Nat.and_sub_one_eq_zero_iff_isPowerOfTwo hpos).mp hmask
  exact ⟨k, (Nat.pow_lt_pow_iff_right (by omega)).mp ha, rfl⟩

namespace PowerOfTwo
variable {a x : ℕ}

theorem pos (ha : PowerOfTwo a) : 0 < a := by
  obtain ⟨k, _, rfl⟩ := ha
  exact Nat.pow_pos (by omega)

theorem lt (ha : PowerOfTwo a) : a < sizeModulus := by
  obtain ⟨k, hk, rfl⟩ := ha
  exact Nat.pow_lt_pow_right (by omega) hk

theorem dvd_sizeModulus (ha : PowerOfTwo a) : a ∣ sizeModulus := by
  obtain ⟨k, hk, rfl⟩ := ha
  exact Nat.pow_dvd_pow 2 (by omega)

theorem alignSize_spec (ha : PowerOfTwo a) (h : x + (a - 1) < sizeModulus) :
    x ≤ alignSize x a ∧ alignSize x a < x + a ∧ a ∣ alignSize x a := by
  obtain ⟨k, hk, rfl⟩ := ha
  exact SizeArithmetic.alignSize_spec x k hk h

theorem dvd_alignSize (ha : PowerOfTwo a) (x : ℕ) : a ∣ alignSize x a := by
  obtain ⟨k, hk, rfl⟩ := ha
  exact SizeArithmetic.dvd_alignSize x k hk

theorem alignSize_of_dvd (ha : PowerOfTwo a) (hx : x < sizeModulus) (h : a ∣ x) :
    alignSize x a = x := by
  obtain ⟨k, hk, rfl⟩ := ha
  exact SizeArithmetic.alignSize_of_dvd x k hk hx h

/-- Rounding past the end of the address space gives a smaller value. -/
theorem alignSize_lt_self (ha : PowerOfTwo a) (hx : x < sizeModulus)
    (h : sizeModulus ≤ x + (a - 1)) : alignSize x a < x := by
  obtain ⟨k, hk, rfl⟩ := ha
  have hpow : 2 ^ k < sizeModulus := Nat.pow_lt_pow_right (by omega) hk
  have hwrap := addSize_of_ge hx (by omega) h
  have hle := Nat.div_mul_le_self (addSize x (2 ^ k - 1)) (2 ^ k)
  rw [alignSize_eq x k hk]
  omega

/-- Rounding past the end of the address space gives 0. -/
theorem alignSize_wrapped (ha : PowerOfTwo a) (hx : x < sizeModulus)
    (h : sizeModulus ≤ x + (a - 1)) : alignSize x a = 0 := by
  obtain ⟨k, hk, rfl⟩ := ha
  have hpow : 2 ^ k < sizeModulus := Nat.pow_lt_pow_right (by omega) hk
  have hwrap := addSize_of_ge hx (by omega) h
  rw [alignSize_eq x k hk, hwrap, Nat.div_eq_of_lt (by omega), Nat.zero_mul]

end PowerOfTwo

/-- So many addresses, none of them null, that are all different. -/
theorem length_lt_of_nodup {l : List ℕ} (hnodup : l.Nodup)
    (hl : ∀ a ∈ l, 0 < a ∧ a < sizeModulus) : l.length < sizeModulus := by
  have hsub : l.toFinset ⊆ Finset.Ico 1 sizeModulus := by
    intro a ha
    exact Finset.mem_Ico.mpr (hl a (List.mem_toFinset.mp ha))
  have hcard := Finset.card_le_card hsub
  rw [List.toFinset_card_of_nodup hnodup, Nat.card_Ico] at hcard
  have hpos := sizeModulus_pos
  omega

end Ppdb.SizeArithmetic
