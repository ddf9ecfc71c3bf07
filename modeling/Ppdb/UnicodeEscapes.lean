import Mathlib.Data.List.Basic
import Mathlib.Tactic.Ring

/-!
The codecs `raw_unicode_escape` and `unicode_escape` of Python, one after the
other: characters become bytes, and the bytes are read as the body of a string
literal. A text survives if its backslashes are doubled, and any character may
be written by its number instead, or by the name that the version of Unicode has
for it.
-/

namespace Ppdb.UnicodeEscapes

def hexDigit (d : ℕ) : UInt8 := if d < 10 then UInt8.ofNat (48 + d) else UInt8.ofNat (87 + d)

def hexDigits : ℕ → ℕ → List UInt8
  | 0, _ => []
  | k + 1, n => hexDigit (n / 16 ^ k % 16) :: hexDigits k n

def hexValue (b : UInt8) : Option ℕ :=
  let n := b.toNat
  if 48 ≤ n ∧ n ≤ 57 then some (n - 48)
  else if 97 ≤ n ∧ n ≤ 102 then some (n - 87)
  else if 65 ≤ n ∧ n ≤ 70 then some (n - 55)
  else none

def rawEscape (c : Char) : List UInt8 :=
  if c.toNat < 256 then [UInt8.ofNat c.toNat]
  else if c.toNat < 65536 then 92 :: 117 :: hexDigits 4 c.toNat
  else 92 :: 85 :: hexDigits 8 c.toNat

def rawUnicodeEscape (t : List Char) : List UInt8 := t.flatMap rawEscape

/-- What the decoder is in the middle of -/
inductive Mode
  | plain
  | backslash
  | octal (left value : ℕ)
  | hex (left value : ℕ)
  | brace
  | name (read : List UInt8)

def afterPlain (b : UInt8) : List ℕ × Mode :=
  if b = 92 then ([], .backslash) else ([b.toNat], .plain)

def controls : List (UInt8 × ℕ) :=
  [(97, 7), (98, 8), (116, 9), (110, 10), (118, 11), (102, 12), (114, 13)]

/-- The byte after a backslash. One of no meaning stands for itself, and so does
the backslash before it. -/
def afterBackslash (b : UInt8) : List ℕ × Mode :=
  if b = 10 then ([], .plain)
  else if b = 92 ∨ b = 39 ∨ b = 34 then ([b.toNat], .plain)
  else if b = 120 then ([], .hex 2 0)
  else if b = 117 then ([], .hex 4 0)
  else if b = 85 then ([], .hex 8 0)
  else if b = 78 then ([], .brace)
  else if 48 ≤ b ∧ b ≤ 55 then ([], .octal 2 (b.toNat - 48))
  else
    match controls.lookup b with
    | some v => ([v], .plain)
    | none => ([92, b.toNat], .plain)

section Decoder
variable (named : List UInt8 → Option Char)

/-- One byte: the code points it completes, and what follows; none for a
`UnicodeDecodeError`. -/
def step : Mode → UInt8 → Option (List ℕ × Mode)
  | .plain, b => some (afterPlain b)
  | .backslash, b => some (afterBackslash b)
  | .octal left value, b =>
    if 48 ≤ b ∧ b ≤ 55 then
      let value := 8 * value + (b.toNat - 48)
      if left = 1 then some ([value], .plain) else some ([], .octal (left - 1) value)
    else
      match afterPlain b with
      | (points, mode) => some (value :: points, mode)
  | .hex left value, b =>
    match hexValue b with
    | none => none
    | some d =>
      let value := 16 * value + d
      if left ≤ 1 then
        if value ≤ 0x10FFFF then some ([value], .plain) else none
      else some ([], .hex (left - 1) value)
  | .brace, b => if b = 123 then some ([], .name []) else none
  | .name read, b =>
    if b ≠ 125 then some ([], .name (read ++ [b]))
    else if read = [] then none
    else (named read).map fun c => ([c.toNat], .plain)

def unicodeEscape : Mode → List UInt8 → Option (List ℕ)
  | .plain, [] => some []
  | .octal _ value, [] => some [value]
  | _, [] => none
  | mode, b :: bs =>
    match step named mode b with
    | none => none
    | some (points, mode) => (unicodeEscape mode bs).map (points ++ ·)

end Decoder

/-- The code points that UTF-8 can encode: none is half of a surrogate pair. -/
def Encodable (points : List ℕ) : Prop := ∀ n ∈ points, n.isValidChar

instance (points : List ℕ) : Decidable (Encodable points) :=
  inferInstanceAs (Decidable (∀ n ∈ points, n.isValidChar))

def latin (bs : List UInt8) : List Char := bs.map fun b => Char.ofNat b.toNat

/-- A character written so that it is read back: the backslash is doubled, and
the special characters are given by their numbers. -/
def quote (special : Char → Bool) (c : Char) : List Char :=
  if c = '\\' then ['\\', '\\']
  else if special c then '\\' :: 'u' :: latin (hexDigits 4 c.toNat)
  else [c]

variable {named : List UInt8 → Option Char}

/-! ### Single steps -/

theorem hexValue_hexDigit {d : ℕ} (h : d < 16) : hexValue (hexDigit d) = some d := by
  have hall : ∀ d < 16, hexValue (hexDigit d) = some d := by decide
  exact hall d h

theorem toNat_latin (b : UInt8) : (Char.ofNat b.toNat).toNat = b.toNat := by
  have hb := b.toNat_lt
  have hvalid : b.toNat.isValidChar := by
    left
    omega
  rw [Char.ofNat, dif_pos hvalid]
  rfl

theorem rawEscape_latin (b : UInt8) : rawEscape (Char.ofNat b.toNat) = [b] := by
  have hb := b.toNat_lt
  rw [rawEscape, toNat_latin, if_pos hb]
  simp

/-- Bytes that are taken for characters are encoded as themselves. -/
theorem rawUnicodeEscape_latin (bs : List UInt8) : rawUnicodeEscape (latin bs) = bs := by
  unfold rawUnicodeEscape latin
  induction bs with
  | nil => rfl
  | cons b bs ih =>
    rw [List.map_cons, List.flatMap_cons, rawEscape_latin, ih]
    rfl

theorem rawUnicodeEscape_append (s t : List Char) :
    rawUnicodeEscape (s ++ t) = rawUnicodeEscape s ++ rawUnicodeEscape t := List.flatMap_append

theorem unicodeEscape_cons (mode : Mode) (b : UInt8) (bs : List UInt8) :
    unicodeEscape named mode (b :: bs) =
      match step named mode b with
      | none => none
      | some (points, mode) => (unicodeEscape named mode bs).map (points ++ ·) := by
  cases mode <;> rfl

theorem map_nil_append (r : Option (List ℕ)) : r.map ([] ++ ·) = r := by
  cases r with
  | none => rfl
  | some points => rfl

/-- A number in hexadecimal digits, the first of which have been read. -/
theorem unicodeEscape_hex (named : List UInt8 → Option Char) (bs : List UInt8) (n k value : ℕ)
    (h : value * 16 ^ (k + 1) + n % 16 ^ (k + 1) ≤ 0x10FFFF) :
    unicodeEscape named (.hex (k + 1) value) (hexDigits (k + 1) n ++ bs) =
      (unicodeEscape named .plain bs).map ((value * 16 ^ (k + 1) + n % 16 ^ (k + 1)) :: ·) := by
  induction k generalizing value with
  | zero =>
    have hlt : n % 16 < 16 := Nat.mod_lt _ (by decide)
    have hvalue : 16 * value + n % 16 = value * 16 ^ (0 + 1) + n % 16 ^ (0 + 1) := by
      rw [Nat.zero_add, Nat.pow_one, Nat.mul_comm]
    simp only [hexDigits, Nat.pow_zero, Nat.div_one, List.cons_append, List.nil_append]
    rw [unicodeEscape_cons]
    simp only [step, hexValue_hexDigit hlt, Nat.le_refl, if_true, hvalue, if_pos h]
    rfl
  | succ k ih =>
    have hlt : n / 16 ^ (k + 1) % 16 < 16 := Nat.mod_lt _ (by decide)
    have hvalue : (16 * value + n / 16 ^ (k + 1) % 16) * 16 ^ (k + 1) + n % 16 ^ (k + 1) =
        value * 16 ^ (k + 1 + 1) + n % 16 ^ (k + 1 + 1) := by
      have hpow : 16 ^ (k + 1 + 1) = 16 ^ (k + 1) * 16 := Nat.pow_succ _ _
      have hmod := Nat.mod_pow_succ (x := n) (b := 16) (k := k + 1)
      rw [hmod, hpow]
      ring
    rw [hexDigits, List.cons_append, unicodeEscape_cons]
    have hmore : ¬ (k + 1 + 1 ≤ 1) := by omega
    simp only [step, hexValue_hexDigit hlt, if_neg hmore, Nat.add_sub_cancel, map_nil_append]
    rw [ih _ (hvalue ▸ h), hvalue]

/-- A code point written by its number. -/
theorem unicodeEscape_number {b : UInt8} {n k : ℕ}
    (hb : afterBackslash b = ([], .hex (k + 1) 0)) (hn : n < 16 ^ (k + 1))
    (hmax : n ≤ 0x10FFFF) (bs : List UInt8) :
    unicodeEscape named .plain (92 :: b :: (hexDigits (k + 1) n ++ bs)) =
      (unicodeEscape named .plain bs).map (n :: ·) := by
  have hvalue : 0 * 16 ^ (k + 1) + n % 16 ^ (k + 1) = n := by
    rw [Nat.zero_mul, Nat.zero_add, Nat.mod_eq_of_lt hn]
  have hhex := unicodeEscape_hex named bs n k 0 (by rwa [hvalue])
  rw [hvalue] at hhex
  rw [unicodeEscape_cons]
  simp only [step, afterPlain, if_true, map_nil_append]
  rw [unicodeEscape_cons]
  simp only [step, hb, map_nil_append]
  exact hhex

/-! ### Reading what has been quoted -/

/-- A character that is not a backslash, as `raw_unicode_escape` writes it. -/
theorem unicodeEscape_raw {c : Char} (h : c ≠ '\\') (bs : List UInt8) :
    unicodeEscape named .plain (rawEscape c ++ bs) = (unicodeEscape named .plain bs).map (c.toNat :: ·) := by
  have hmax : c.toNat ≤ 0x10FFFF := by
    rcases c.valid with hc | hc <;> unfold Char.toNat <;> omega
  unfold rawEscape
  split_ifs with hsmall hmid
  · have hb : UInt8.ofNat c.toNat ≠ 92 := by
      intro heq
      have hnat := congrArg UInt8.toNat heq
      rw [UInt8.toNat_ofNat_of_lt' hsmall] at hnat
      exact h (Char.toNat_inj.mp hnat)
    rw [List.singleton_append, unicodeEscape_cons]
    simp only [step, afterPlain, if_neg hb, UInt8.toNat_ofNat_of_lt' hsmall]
    rfl
  · exact unicodeEscape_number (k := 3) rfl hmid hmax bs
  · exact unicodeEscape_number (k := 7) rfl (by omega) hmax bs

theorem unicodeEscape_quote {special : Char → Bool}
    (hspecial : ∀ c, special c = true → c.toNat < 65536) (c : Char) (bs : List UInt8) :
    unicodeEscape named .plain (rawUnicodeEscape (quote special c) ++ bs) =
      (unicodeEscape named .plain bs).map (c.toNat :: ·) := by
  unfold quote
  split_ifs with hslash hc
  · subst hslash
    change unicodeEscape named .plain (92 :: 92 :: bs) = _
    rw [unicodeEscape_cons]
    simp only [step, afterPlain, if_true, map_nil_append]
    rw [unicodeEscape_cons]
    rfl
  · have hlt := hspecial c hc
    have hraw : rawUnicodeEscape ('\\' :: 'u' :: latin (hexDigits 4 c.toNat)) =
        92 :: 117 :: hexDigits 4 c.toNat := by
      have hlatin := rawUnicodeEscape_latin (hexDigits 4 c.toNat)
      unfold rawUnicodeEscape at hlatin ⊢
      rw [List.flatMap_cons, List.flatMap_cons, hlatin]
      rfl
    rw [hraw]
    exact unicodeEscape_number (k := 3) rfl hlt (by omega) bs
  · have hsingle : rawUnicodeEscape [c] = rawEscape c := List.append_nil _
    rw [hsingle]
    exact unicodeEscape_raw hslash bs

/-- A text that has been quoted is read back. -/
theorem unicodeEscape_quoted {special : Char → Bool}
    (hspecial : ∀ c, special c = true → c.toNat < 65536) (t : List Char) :
    unicodeEscape named .plain (rawUnicodeEscape (t.flatMap (quote special))) =
      some (t.map Char.toNat) := by
  induction t with
  | nil => rfl
  | cons c t ih =>
    rw [List.flatMap_cons, rawUnicodeEscape_append, unicodeEscape_quote hspecial, ih]
    rfl

theorem encodable_toNat (t : List Char) : Encodable (t.map Char.toNat) := by
  intro n hn
  obtain ⟨c, _, rfl⟩ := List.mem_map.mp hn
  exact c.valid

theorem ofNat_toNat (t : List Char) : (t.map Char.toNat).map Char.ofNat = t := by
  rw [List.map_map]
  exact (List.map_congr_left fun c _ => Char.ofNat_toNat c).trans (List.map_id t)

end Ppdb.UnicodeEscapes
