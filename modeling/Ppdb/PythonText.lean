import Mathlib.Data.List.DropRight

/-!
Methods of Python's strings: white space stripped from both ends, and numbers
read by `int` and written by `str`. Which characters beyond ASCII are decimal
digits is up to the version of Unicode.
-/

namespace Ppdb.PythonText

def isSpace (c : Char) : Bool :=
  [0x09, 0x0A, 0x0B, 0x0C, 0x0D, 0x1C, 0x1D, 0x1E, 0x1F, 0x20, 0x85, 0xA0, 0x1680, 0x2000, 0x2001,
    0x2002, 0x2003, 0x2004, 0x2005, 0x2006, 0x2007, 0x2008, 0x2009, 0x200A, 0x2028, 0x2029, 0x202F,
    0x205F, 0x3000].contains c.toNat

def strip (t : List Char) : List Char := (t.dropWhile isSpace).rdropWhile isSpace

/-- The value of a digit; `digit` gives those beyond ASCII. -/
def digitValue (digit : Char → Option (Fin 10)) (c : Char) : Option ℕ :=
  if c.isDigit then some (c.toNat - 48)
  else if c.toNat < 127 then none
  else (digit c).map Fin.val

section Numerals
variable (digit : Char → Option (Fin 10)) (limit : ℕ)

def isNumeral : List Char → Bool
  | [] => false
  | [c] => (digitValue digit c).isSome
  | c :: '_' :: cs => (digitValue digit c).isSome && isNumeral cs
  | c :: d :: cs => (digitValue digit c).isSome && isNumeral (d :: cs)

/-- The numeral, if it has no more digits than the interpreter converts. -/
def natural (t : List Char) : Option ℕ :=
  let digits := t.filterMap (digitValue digit)
  if isNumeral digit t ∧ digits.length ≤ limit then
    some (digits.foldl (fun n d => 10 * n + d) 0)
  else none

/-- `int`, `none` for a `ValueError` -/
def int (t : List Char) : Option ℤ :=
  match strip t with
  | '-' :: cs => (natural digit limit cs).map fun n : ℕ => -(n : ℤ)
  | '+' :: cs => (natural digit limit cs).map Int.ofNat
  | cs => (natural digit limit cs).map Int.ofNat

end Numerals

def decimal (k : ℤ) : List Char :=
  if k < 0 then '-' :: Nat.toDigits 10 k.natAbs else Nat.toDigits 10 k.natAbs

theorem strip_eq_self {t : List Char} (h : ∀ c ∈ t, isSpace c = false) : strip t = t := by
  have hdrop : t.dropWhile isSpace = t := by
    cases t with
    | nil => rfl
    | cons c t => rw [List.dropWhile_cons, h c List.mem_cons_self, if_neg Bool.false_ne_true]
  rw [strip, hdrop, List.rdropWhile_eq_self_iff]
  intro hne
  simp [h _ (List.getLast_mem hne)]

theorem digit_bounds {c : Char} (h : c.isDigit = true) : 48 ≤ c.toNat ∧ c.toNat ≤ 57 :=
  Char.isDigit_iff_toNat.mp h

theorem isSpace_of_digit {c : Char} (h : c.isDigit = true) : isSpace c = false := by
  have hbounds := digit_bounds h
  unfold isSpace
  simp only [List.contains_eq_mem, List.mem_cons, List.not_mem_nil, or_false, decide_eq_false_iff_not]
  omega

section Numerals
variable {digit : Char → Option (Fin 10)} {limit : ℕ}

theorem digitValue_of_digit {c : Char} (h : c.isDigit = true) :
    digitValue digit c = some (c.toNat - 48) := if_pos h

theorem isNumeral_of_digits {t : List Char} (hne : t ≠ []) (h : ∀ c ∈ t, c.isDigit = true) :
    isNumeral digit t = true := by
  have hvalue : ∀ c ∈ t, (digitValue digit c).isSome = true := fun c hc =>
    Option.isSome_iff_exists.mpr ⟨_, digitValue_of_digit (h c hc)⟩
  fun_induction isNumeral digit t with
  | case1 => exact absurd rfl hne
  | case2 c => exact hvalue c List.mem_cons_self
  | case3 c cs ih =>
    have hbad : '_'.isDigit = true := h '_' (by simp)
    exact absurd hbad (by decide)
  | case4 c d cs _ ih =>
    rw [hvalue c List.mem_cons_self, Bool.true_and]
    exact ih (List.cons_ne_nil _ _) (fun x hx => h x (List.mem_cons_of_mem c hx))
      fun x hx => hvalue x (List.mem_cons_of_mem c hx)

theorem isDigit_of_mem {n : ℕ} {c : Char} (h : c ∈ Nat.toDigits 10 n) : c.isDigit = true :=
  Nat.isDigit_of_mem_toDigits (by decide) (by decide) h

theorem filterMap_digits {t : List Char} (h : ∀ c ∈ t, c.isDigit = true) :
    t.filterMap (digitValue digit) = t.map fun c => c.toNat - 48 := by
  rw [← List.filterMap_eq_map]
  exact List.filterMap_congr fun c hc => digitValue_of_digit (h c hc)

theorem natural_toDigits {n : ℕ} (h : (Nat.toDigits 10 n).length ≤ limit) :
    natural digit limit (Nat.toDigits 10 n) = some n := by
  have hdigits : ∀ c ∈ Nat.toDigits 10 n, c.isDigit = true := fun c hc => isDigit_of_mem hc
  have hnumeral : isNumeral digit (Nat.toDigits 10 n) = true :=
    isNumeral_of_digits Nat.toDigits_ne_nil hdigits
  have hvalue : ((Nat.toDigits 10 n).map fun c => c.toNat - 48).foldl (fun n d => 10 * n + d) 0 = n := by
    rw [List.foldl_map]
    exact Nat.ofDigitChars_toDigits (by decide) (by decide)
  simp only [natural, filterMap_digits hdigits, hnumeral, true_and, List.length_map, if_pos h, hvalue]

/-- The characters of a number written in decimal -/
theorem mem_decimal {k : ℤ} {c : Char} (h : c ∈ decimal k) : c = '-' ∨ c.isDigit = true := by
  unfold decimal at h
  split_ifs at h
  · rcases List.mem_cons.mp h with rfl | h
    · exact Or.inl rfl
    · exact Or.inr (isDigit_of_mem h)
  · exact Or.inr (isDigit_of_mem h)

theorem isSpace_of_mem_decimal {k : ℤ} {c : Char} (h : c ∈ decimal k) : isSpace c = false := by
  rcases mem_decimal h with rfl | hdigit
  · decide
  · exact isSpace_of_digit hdigit

/-- What `str` writes `int` reads, up to the limit on digits. -/
theorem int_decimal {k : ℤ} (h : (Nat.toDigits 10 k.natAbs).length ≤ limit) :
    int digit limit (decimal k) = some k := by
  have hstrip : strip (decimal k) = decimal k := strip_eq_self fun c hc => isSpace_of_mem_decimal hc
  have hnatural : natural digit limit (Nat.toDigits 10 k.natAbs) = some k.natAbs :=
    natural_toDigits h
  unfold int
  rw [hstrip]
  unfold decimal
  split_ifs with hneg
  · change (natural digit limit (Nat.toDigits 10 k.natAbs)).map (fun n : ℕ => -(n : ℤ)) = some k
    rw [hnatural, Option.map_some]
    congr 1
    omega
  · have hdigits : ∀ c ∈ Nat.toDigits 10 k.natAbs, c.isDigit = true := fun c hc => isDigit_of_mem hc
    split
    · next cs heq => exact absurd (hdigits '-' (by simp [heq])) (by decide)
    · next cs heq => exact absurd (hdigits '+' (by simp [heq])) (by decide)
    · simp only [hnatural, Option.map_some, Option.some.injEq, Int.ofNat_eq_natCast]
      omega

end Numerals

end Ppdb.PythonText
