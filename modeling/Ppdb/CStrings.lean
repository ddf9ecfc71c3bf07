import Mathlib.Algebra.Ring.Int.Defs
import Mathlib.Data.Int.Cast.Basic
import Mathlib.Data.List.Basic
import Mathlib.Data.List.TakeWhile
import Mathlib.Tactic.Common

/-!
Strings of C: bytes up to the first NUL of the array they are in, the
comparison of two of them, and the number at the start of one.
-/

namespace Ppdb.CStrings

/-- The characters before the first NUL. -/
def text (bytes : List UInt8) : List UInt8 := bytes.takeWhile (· ≠ 0)

/-- `strcmp`: the difference of the first bytes that differ. -/
def strcmp : List UInt8 → List UInt8 → ℤ
  | a :: as, b :: bs => if a = b ∧ a ≠ 0 then strcmp as bs else (a.toNat : ℤ) - b.toNat
  | _, _ => 0

variable {as bs : List UInt8} {a b : UInt8}

theorem text_cons_of_ne (h : a ≠ 0) : text (a :: as) = a :: text as := by
  simp [text, h]

theorem text_cons_zero : text ((0 : UInt8) :: as) = [] := rfl

theorem text_terminated {bytes : List UInt8} (h : 0 ∉ bytes) : text (bytes ++ [0]) = bytes := by
  unfold text
  rw [List.takeWhile_append_of_pos]
  · simp
  · intro b hb
    simp only [ne_eq, decide_not, Bool.not_eq_eq_eq_not, Bool.not_true, decide_eq_false_iff_not]
    rintro rfl
    exact h hb

/-- The difference of two bytes is zero only for equal ones. -/
theorem byte_sub_eq_zero_iff : (a.toNat : ℤ) - b.toNat = 0 ↔ a = b := by
  rw [Int.sub_eq_zero, Int.natCast_inj, UInt8.toNat_inj]

/-- On terminated arrays `strcmp` is zero exactly for equal strings. -/
theorem strcmp_eq_zero_iff (ha : 0 ∈ as) (hb : 0 ∈ bs) : strcmp as bs = 0 ↔ text as = text bs := by
  induction as generalizing bs with
  | nil => exact absurd ha List.not_mem_nil
  | cons a as ih =>
    cases bs with
    | nil => exact absurd hb List.not_mem_nil
    | cons b bs =>
      unfold strcmp
      by_cases hsame : a = b ∧ a ≠ 0
      · obtain ⟨rfl, hne⟩ := hsame
        rw [if_pos ⟨rfl, hne⟩, text_cons_of_ne hne, text_cons_of_ne hne,
          ih (List.mem_of_ne_of_mem hne.symm ha) (List.mem_of_ne_of_mem hne.symm hb)]
        simp
      · rw [if_neg hsame, byte_sub_eq_zero_iff]
        constructor
        · intro heq
          have hzero : a = 0 := by
            by_contra hne
            exact hsame ⟨heq, hne⟩
          rw [← heq, hzero, text_cons_zero, text_cons_zero]
        · intro htext
          by_cases hza : a = 0
          · by_cases hzb : b = 0
            · rw [hza, hzb]
            · rw [hza, text_cons_zero, text_cons_of_ne hzb] at htext
              cases htext
          · by_cases hzb : b = 0
            · rw [hzb, text_cons_zero, text_cons_of_ne hza] at htext
              cases htext
            · rw [text_cons_of_ne hza, text_cons_of_ne hzb] at htext
              injection htext

def strncmp : ℕ → List UInt8 → List UInt8 → ℤ
  | n + 1, a :: as, b :: bs =>
    if a = b ∧ a ≠ 0 then strncmp n as bs else (a.toNat : ℤ) - b.toNat
  | _, _, _ => 0

def strchr (c : UInt8) : List UInt8 → Option (List UInt8)
  | [] => none
  | a :: as => if a = c then some (a :: as) else strchr c as

/-- A string of `n` characters is compared in full, and with as many characters
of the other one. -/
theorem strncmp_eq_zero_iff {p q : List UInt8} (hp : 0 ∉ p) (hq : 0 ∉ q) (rest : List UInt8) :
    strncmp p.length (p ++ rest) (q ++ [0]) = 0 ↔ p <+: q := by
  induction p generalizing q with
  | nil => simp [strncmp]
  | cons a p ih =>
    obtain ⟨hza, hzp⟩ : (0 : UInt8) ≠ a ∧ 0 ∉ p := by simpa using hp
    cases q with
    | nil =>
      have hne : ¬ (a = 0 ∧ a ≠ 0) := fun h => h.2 h.1
      simp only [List.length_cons, List.cons_append, List.nil_append, strncmp, if_neg hne,
        byte_sub_eq_zero_iff]
      exact iff_of_false hza.symm (by simp)
    | cons b q =>
      obtain ⟨_, hzq⟩ : (0 : UInt8) ≠ b ∧ 0 ∉ q := by simpa using hq
      simp only [List.length_cons, List.cons_append, strncmp, List.cons_prefix_cons]
      by_cases hab : a = b
      · rw [if_pos ⟨hab, hza.symm⟩, ih hzp hzq]
        exact (and_iff_right hab).symm
      · rw [if_neg fun h => hab h.1, byte_sub_eq_zero_iff]
        exact iff_of_false hab fun h => hab h.1

theorem strchr_eq_none_iff {c : UInt8} {s : List UInt8} : strchr c s = none ↔ c ∉ s := by
  induction s with
  | nil => simp [strchr]
  | cons a s ih =>
    unfold strchr
    by_cases hac : a = c
    · rw [if_pos hac]
      simp [hac]
    · rw [if_neg hac, ih, List.mem_cons, not_or]
      exact (and_iff_right (Ne.symm hac)).symm

theorem strchr_append {c : UInt8} {p : List UInt8} (h : c ∉ p) (v : List UInt8) :
    strchr c (p ++ c :: v) = some (c :: v) := by
  induction p with
  | nil => exact if_pos rfl
  | cons a p ih =>
    rw [List.mem_cons, not_or] at h
    rw [List.cons_append, strchr, if_neg (Ne.symm h.1), ih h.2]

theorem strchr_eq_some {c : UInt8} {s t : List UInt8} (h : strchr c s = some t) :
    ∃ p v, c ∉ p ∧ s = p ++ c :: v ∧ t = c :: v := by
  have hmem : c ∈ s := by
    by_contra hnot
    rw [strchr_eq_none_iff.mpr hnot] at h
    cases h
  obtain ⟨p, v, rfl, hp⟩ := List.eq_append_cons_of_mem hmem
  rw [strchr_append hp] at h
  exact ⟨p, v, hp, rfl, (Option.some.inj h).symm⟩

/-! ### Numbers -/

def isSpace (c : UInt8) : Bool := c = 32 || 9 ≤ c && c ≤ 13

def isDigit (c : UInt8) : Bool := 48 ≤ c && c ≤ 57

def digitsValue (digits : List UInt8) : ℕ := digits.foldl (fun n c => 10 * n + (c.toNat - 48)) 0

def clampLong (n : ℤ) : ℤ := max (-2 ^ 63) (min n (2 ^ 63 - 1))

/-- A sign, if there is one: whether it is a minus, and what follows. -/
def splitSign (s : List UInt8) : Bool × List UInt8 :=
  if s.head? = some 45 then (true, s.tail)
  else if s.head? = some 43 then (false, s.tail)
  else (false, s)

/-- `strtol` in base 10: the number, and the string from `*endptr` on. -/
def strtol (s : List UInt8) : ℤ × List UInt8 :=
  let (negative, t) := splitSign (s.dropWhile isSpace)
  let digits := t.takeWhile isDigit
  if digits = [] then (0, s)
  else
    (clampLong (if negative then -(digitsValue digits) else digitsValue digits), t.dropWhile isDigit)

def Decimal (v : List UInt8) (n : ℤ) : Prop :=
  ∃ sign digits, v = sign ++ digits ∧ digits ≠ [] ∧ (∀ c ∈ digits, isDigit c = true) ∧
    ((sign = [] ∨ sign = [43]) ∧ n = digitsValue digits ∨ sign = [45] ∧ n = -(digitsValue digits))

theorem isSpace_of_isDigit {c : UInt8} (h : isDigit c = true) : isSpace c = false := by
  unfold isDigit at h
  unfold isSpace
  simp only [Bool.and_eq_true, decide_eq_true_eq] at h
  have hlo : (48 : ℕ) ≤ c.toNat := h.1
  simp only [Bool.or_eq_false_iff, decide_eq_false_iff_not, Bool.and_eq_false_iff]
  constructor
  · rintro rfl
    exact absurd hlo (by decide)
  · right
    intro hle
    have hhi : c.toNat ≤ 13 := hle
    omega

/-- Neither a sign nor a digit is a blank. -/
theorem Decimal.head {v : List UInt8} {n : ℤ} (h : Decimal v n) :
    ∃ c t, v = c :: t ∧ isSpace c = false := by
  obtain ⟨sign, digits, rfl, hne, hdigits, hsign⟩ := h
  obtain ⟨d, ds, rfl⟩ := List.exists_cons_of_ne_nil hne
  have hd := isSpace_of_isDigit (hdigits d List.mem_cons_self)
  rcases hsign with ⟨rfl | rfl, _⟩ | ⟨rfl, _⟩
  · exact ⟨d, ds, rfl, hd⟩
  · exact ⟨43, d :: ds, rfl, by decide⟩
  · exact ⟨45, d :: ds, rfl, by decide⟩

theorem splitSign_digit {d : UInt8} (h : isDigit d = true) (ds : List UInt8) :
    splitSign (d :: ds) = (false, d :: ds) := by
  have hplus : d ≠ 43 := by
    rintro rfl
    exact absurd h (by decide)
  have hminus : d ≠ 45 := by
    rintro rfl
    exact absurd h (by decide)
  simp [splitSign, hplus, hminus]

theorem splitSign_spec (t : List UInt8) : ∃ sign, t = sign ++ (splitSign t).2 ∧
    ((sign = [] ∨ sign = [43]) ∧ (splitSign t).1 = false ∨
      sign = [45] ∧ (splitSign t).1 = true) := by
  cases t with
  | nil => exact ⟨[], rfl, Or.inl ⟨Or.inl rfl, rfl⟩⟩
  | cons c t =>
    by_cases hminus : c = 45
    · subst hminus
      exact ⟨[45], rfl, Or.inr ⟨rfl, rfl⟩⟩
    by_cases hplus : c = 43
    · subst hplus
      exact ⟨[43], rfl, Or.inl ⟨Or.inr rfl, rfl⟩⟩
    · have hsplit : splitSign (c :: t) = (false, c :: t) := by simp [splitSign, hminus, hplus]
      rw [hsplit]
      exact ⟨[], rfl, Or.inl ⟨Or.inl rfl, rfl⟩⟩

/-- Blanks and an integer behind them are read to the end. -/
theorem strtol_decimal {blanks v : List UInt8} {n : ℤ} (hblanks : ∀ c ∈ blanks, isSpace c = true)
    (h : Decimal v n) : strtol (blanks ++ v) = (clampLong n, []) := by
  have hskip : (blanks ++ v).dropWhile isSpace = v := by
    obtain ⟨c, t, rfl, hc⟩ := h.head
    rw [List.dropWhile_append_of_pos hblanks, List.dropWhile_cons_of_neg (by simp [hc])]
  obtain ⟨sign, digits, rfl, hne, hdigits, hsign⟩ := h
  have htake : digits.takeWhile isDigit = digits := List.takeWhile_eq_self_iff.mpr hdigits
  have hdrop : digits.dropWhile isDigit = [] := List.dropWhile_eq_nil_iff.mpr hdigits
  have hsplit : splitSign (sign ++ digits) = (decide (sign = [45]), digits) := by
    obtain ⟨d, ds, rfl⟩ := List.exists_cons_of_ne_nil hne
    rcases hsign with ⟨rfl | rfl, _⟩ | ⟨rfl, _⟩
    · exact splitSign_digit (hdigits d List.mem_cons_self) ds
    · rfl
    · rfl
  unfold strtol
  rw [hskip, hsplit]
  dsimp only
  rw [htake, hdrop, if_neg hne]
  rcases hsign with ⟨rfl | rfl, rfl⟩ | ⟨rfl, rfl⟩
  · rfl
  · rfl
  · rfl

/-- A string that is read to the end is an integer behind blanks. -/
theorem decimal_of_strtol {s : List UInt8} (hne : s ≠ []) (h : (strtol s).2 = []) :
    ∃ blanks v n, s = blanks ++ v ∧ (∀ c ∈ blanks, isSpace c = true) ∧ Decimal v n ∧
      (strtol s).1 = clampLong n := by
  obtain ⟨sign, ht, hsign⟩ := splitSign_spec (s.dropWhile isSpace)
  generalize hsplit : splitSign (s.dropWhile isSpace) = r at ht hsign
  obtain ⟨negative, t⟩ := r
  unfold strtol at h ⊢
  rw [hsplit] at h ⊢
  dsimp only at h ht hsign ⊢
  by_cases hdigits : t.takeWhile isDigit = []
  · rw [if_pos hdigits] at h
    exact absurd h hne
  · rw [if_neg hdigits] at h ⊢
    have hall := List.dropWhile_eq_nil_iff.mp h
    have htake : t.takeWhile isDigit = t := List.takeWhile_eq_self_iff.mpr hall
    rw [htake] at hdigits ⊢
    refine ⟨s.takeWhile isSpace, sign ++ t, if negative then -(digitsValue t) else digitsValue t,
      ?_, ?_, ⟨sign, t, rfl, hdigits, hall, ?_⟩, rfl⟩
    · rw [← ht, List.takeWhile_append_dropWhile]
    · intro c hc
      exact List.mem_takeWhile_imp hc
    · rcases hsign with ⟨hsign, rfl⟩ | ⟨hsign, rfl⟩
      · exact Or.inl ⟨hsign, rfl⟩
      · exact Or.inr ⟨hsign, rfl⟩

end Ppdb.CStrings
