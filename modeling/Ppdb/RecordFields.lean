import Ppdb.ByteMemory
import Mathlib.Data.List.Basic

/-!
Records in a byte memory. A record is a list of fields, each with its offset,
its width in bytes and its value; between them there may be padding. A memory
that has the bytes of the fields in place gives their values back.
-/

namespace Ppdb.RecordFields

open ByteMemory

structure Field where
  offset : ℕ
  width : ℕ
  value : ℕ

def Field.Apart (f g : Field) : Prop := f.offset + f.width ≤ g.offset ∨ g.offset + g.width ≤ f.offset

instance (f g : Field) : Decidable (f.Apart g) := inferInstanceAs (Decidable (_ ∨ _))

def fieldByte : List Field → ℕ → Option UInt8
  | [], _ => none
  | f :: fs, i =>
    if f.offset ≤ i ∧ i < f.offset + f.width then some (UInt8.ofNat (f.value / 256 ^ (i - f.offset)))
    else fieldByte fs i

def Has (m : Mem) (p : ℕ) (fs : List Field) : Prop :=
  ∀ i v, fieldByte fs i = some v → m (p + i) = v

variable {fs : List Field} {f : Field} {m : Mem} {p n i : ℕ} {v : UInt8}

theorem fieldByte_inside (h : ∀ f ∈ fs, f.offset + f.width ≤ n) (hbyte : fieldByte fs i = some v) :
    i < n := by
  induction fs with
  | nil => cases hbyte
  | cons f fs ih =>
    unfold fieldByte at hbyte
    split_ifs at hbyte with hin
    · exact hin.2.trans_le (h f List.mem_cons_self)
    · exact ih (fun g hg => h g (List.mem_cons_of_mem _ hg)) hbyte

theorem fieldByte_of_mem (hf : f ∈ fs) (hapart : fs.Pairwise Field.Apart) (hlo : f.offset ≤ i)
    (hhi : i < f.offset + f.width) :
    fieldByte fs i = some (UInt8.ofNat (f.value / 256 ^ (i - f.offset))) := by
  induction fs with
  | nil => cases hf
  | cons g fs ih =>
    rcases List.mem_cons.mp hf with rfl | hf
    · exact if_pos ⟨hlo, hhi⟩
    · obtain ⟨hg, hrest⟩ := List.pairwise_cons.mp hapart
      have hout : ¬ (g.offset ≤ i ∧ i < g.offset + g.width) := by
        have hgf := hg f hf
        unfold Field.Apart at hgf
        omega
      unfold fieldByte
      rw [if_neg hout]
      exact ih hf hrest

/-- A field is read back, cut to its width. -/
theorem Has.read (h : Has m p fs) (hf : f ∈ fs) (hapart : fs.Pairwise Field.Apart) :
    readLe m (p + f.offset) f.width = f.value % 256 ^ f.width := by
  rw [← readLe_writeLe m (p + f.offset) f.value f.width]
  refine readLe_congr fun a hlo hhi => ?_
  obtain ⟨i, rfl⟩ : ∃ i, a = p + (f.offset + i) := ⟨a - (p + f.offset), by omega⟩
  have hbyte := h (f.offset + i) _ (fieldByte_of_mem hf hapart (by omega) (by omega))
  have hin : p + f.offset ≤ p + (f.offset + i) ∧ p + (f.offset + i) < p + f.offset + f.width := by
    omega
  rw [hbyte, writeLe, if_pos hin]
  congr 3
  omega

/-- A value that fits is read back whole. -/
theorem Has.read_of_lt (h : Has m p fs) (hf : f ∈ fs) (hapart : fs.Pairwise Field.Apart)
    (hlt : f.value < 256 ^ f.width) : readLe m (p + f.offset) f.width = f.value := by
  rw [h.read hf hapart, Nat.mod_eq_of_lt hlt]

end Ppdb.RecordFields
