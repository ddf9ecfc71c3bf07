import Ppdb.ByteMemory
import Mathlib.Algebra.Order.Group.Nat

/-!
The plugin loader. A file is mapped, its header is checked, and the functions
at three offsets from the base are called. An entry is skipped if its address
is null, but the address is the sum of a base that is not null and the offset,
so an offset of 0, like any offset into the header, leads to a call.
-/

namespace Ppdb.PluginLoader

open ByteMemory

/-- The mapped file; `mmap` gives whole pages below the end of the address space. -/
structure Image where
  base : ℕ
  bytes : List UInt8
  mapped : base ≠ 0
  aligned : 4096 ∣ base
  fits : base + bytes.length ≤ 2 ^ 64

/-- Where a file of the given bytes may be mapped. -/
abbrev Place (bytes : List UInt8) :=
  { base : ℕ // base ≠ 0 ∧ 4096 ∣ base ∧ base + bytes.length ≤ 2 ^ 64 }

inductive Entry
  | init
  | main
  | fini
  deriving DecidableEq, Repr

def pluginMagic : ℕ := 0x50504442

def pluginVersion : ℕ := 1

def headerSize : ℕ := 20

namespace Image

def word (img : Image) (k : ℕ) : ℕ := readLe (fun i => img.bytes.getD i 0) (4 * k) 4

def magic (img : Image) : ℕ := img.word 0

def version (img : Image) : ℕ := img.word 1

def offset (img : Image) : Entry → ℕ
  | .init => img.word 2
  | .main => img.word 3
  | .fini => img.word 4

def size (img : Image) : ℕ := img.bytes.length

/-- The function pointer computed from an offset. -/
def func (img : Image) (e : Entry) : ℕ := (img.base + img.offset e) % 2 ^ 64

end Image

/-- `load_plugin`: the file cannot be opened or is shorter than the header, or
`mmap` fails, or it is mapped. -/
def loadPlugin (file : Option (List UInt8)) (mmap : (bytes : List UInt8) → Option (Place bytes)) :
    Option Image :=
  match file with
  | none => none
  | some bytes =>
    if bytes.length < headerSize then none
    else match mmap bytes with
      | none => none
      | some ⟨base, hmapped, haligned, hfits⟩ => some ⟨base, bytes, hmapped, haligned, hfits⟩

def verifyPlugin (img : Image) : Bool :=
  if img.magic ≠ pluginMagic then false
  else if img.version ≠ pluginVersion then false
  else if img.offset .init ≥ img.size ∨ img.offset .main ≥ img.size ∨
      img.offset .fini ≥ img.size then
    false
  else if img.offset .init &&& 7 ≠ 0 ∨ img.offset .main &&& 7 ≠ 0 ∨ img.offset .fini &&& 7 ≠ 0 then
    false
  else true

/-- The calls made and the value returned, `none` if a call does not return. -/
abbrev Calls := List (Entry × ℕ) × Option ℤ

def callPluginFunc (name : Entry) (func : ℕ) (reply : Option ℤ) : Calls :=
  if func = 0 then ([], some 0) else ([(name, func)], reply)

/-- `main` once the plugin has been accepted. -/
def execute (img : Image) (reply : Entry → Option ℤ) : Calls :=
  let (atInit, ret) := callPluginFunc .init (img.func .init) (reply .init)
  match ret with
  | none => (atInit, none)
  | some ret =>
    if ret ≠ 0 then (atInit, some ret)
    else
      let (atMain, ret) := callPluginFunc .main (img.func .main) (reply .main)
      match ret with
      | none => (atInit ++ atMain, none)
      | some ret =>
        let (atFini, finiRet) := callPluginFunc .fini (img.func .fini) (reply .fini)
        let ret := finiRet.map fun r => if r ≠ 0 then (if ret = 0 then r else ret) else ret
        (atInit ++ atMain ++ atFini, ret)

def main (argc : ℕ) (file : Option (List UInt8))
    (mmap : (bytes : List UInt8) → Option (Place bytes)) (reply : Entry → Option ℤ) : Calls :=
  if argc ≠ 2 then ([], some 1)
  else match loadPlugin file mmap with
    | none => ([], some 1)
    | some img => if verifyPlugin img then execute img reply else ([], some 1)

/-- What is asked of the calls: they go behind the header and not past the end,
to aligned addresses, an entry at offset 0 is not called, and the other two
wait for `init`. -/
structure Safe (img : Image) (reply : Entry → Option ℤ) (calls : List (Entry × ℕ)) : Prop where
  inside : ∀ c ∈ calls, img.base + headerSize ≤ c.2 ∧ c.2 < img.base + img.size ∧ 8 ∣ c.2
  skipped : ∀ c ∈ calls, img.offset c.1 ≠ 0
  guarded : ∀ c ∈ calls, c.1 ≠ .init → (∀ c' ∈ calls, c'.1 ≠ .init) ∨ reply .init = some 0

/-- The entries whose turn comes, by what the functions before them return. -/
def HasTurn (reply : Entry → Option ℤ) : Entry → Prop
  | .init => True
  | .main => reply .init = some 0
  | .fini => reply .init = some 0 ∧ reply .main ≠ none

/-! ### Accepted images -/

theorem and_seven (n : ℕ) : n &&& 7 = 0 ↔ 8 ∣ n := by
  have hmod : n &&& 7 = n % 8 := Nat.and_two_pow_sub_one_eq_mod n 3
  rw [hmod, Nat.dvd_iff_mod_eq_zero]

theorem verifyPlugin_iff {img : Image} : verifyPlugin img = true ↔
    img.magic = pluginMagic ∧ img.version = pluginVersion ∧
      ∀ e, img.offset e < img.size ∧ 8 ∣ img.offset e := by
  have hall : (∀ e, img.offset e < img.size ∧ 8 ∣ img.offset e) ↔
      ¬ (img.offset .init ≥ img.size ∨ img.offset .main ≥ img.size ∨
        img.offset .fini ≥ img.size) ∧
      ¬ (img.offset .init &&& 7 ≠ 0 ∨ img.offset .main &&& 7 ≠ 0 ∨ img.offset .fini &&& 7 ≠ 0) := by
    simp only [ne_eq, and_seven, not_or, not_not, not_le]
    constructor
    · intro h
      exact ⟨⟨(h .init).1, (h .main).1, (h .fini).1⟩, (h .init).2, (h .main).2, (h .fini).2⟩
    · rintro ⟨⟨hi, hm, hf⟩, hi', hm', hf'⟩ e
      cases e with
      | init => exact ⟨hi, hi'⟩
      | main => exact ⟨hm, hm'⟩
      | fini => exact ⟨hf, hf'⟩
  rw [hall]
  unfold verifyPlugin
  split_ifs <;> simp_all

section Accepted
variable {img : Image}

/-- No address computed for an accepted image wraps around, and none is null. -/
theorem func_eq (h : verifyPlugin img = true) (e : Entry) :
    img.func e = img.base + img.offset e ∧ img.func e ≠ 0 := by
  have hoff := ((verifyPlugin_iff.mp h).2.2 e).1
  have hfits := img.fits
  have hmapped := img.mapped
  have hlt : img.base + img.offset e < 2 ^ 64 := by
    unfold Image.size at hoff
    omega
  unfold Image.func
  rw [Nat.mod_eq_of_lt hlt]
  omega

/-- So nothing is ever skipped. -/
theorem callPluginFunc_eq (h : verifyPlugin img = true) (e : Entry) (reply : Option ℤ) :
    callPluginFunc e (img.func e) reply = ([(e, img.func e)], reply) :=
  if_neg (func_eq h e).2

theorem mem_execute (h : verifyPlugin img = true) (reply : Entry → Option ℤ) (c : Entry × ℕ) :
    c ∈ (execute img reply).1 ↔ c.2 = img.func c.1 ∧ HasTurn reply c.1 := by
  obtain ⟨e, a⟩ := c
  unfold execute
  simp only [callPluginFunc_eq h]
  cases hinit : reply .init with
  | none => cases e <;> simp [HasTurn, hinit]
  | some r =>
    by_cases hr : r = 0
    · subst hr
      cases hmain : reply .main with
      | none => cases e <;> simp [HasTurn, hinit, hmain]
      | some r' => cases e <;> simp [HasTurn, hinit, hmain]
    · cases e <;> simp [HasTurn, hinit, hr]

/-- Called addresses are right but for the header: the offsets were checked
against the end of the image and for alignment only. -/
theorem inside_iff (h : verifyPlugin img = true) (e : Entry) :
    (img.base + headerSize ≤ img.func e ∧ img.func e < img.base + img.size ∧ 8 ∣ img.func e) ↔
      headerSize ≤ img.offset e := by
  obtain ⟨hlt, hdvd⟩ := (verifyPlugin_iff.mp h).2.2 e
  have hpage : 8 ∣ img.base := Nat.dvd_trans (by decide) img.aligned
  rw [(func_eq h e).1]
  constructor
  · rintro ⟨hle, _⟩
    omega
  · intro hle
    exact ⟨by omega, by omega, Nat.dvd_add hpage hdvd⟩

theorem safe_execute_iff (h : verifyPlugin img = true) (reply : Entry → Option ℤ) :
    Safe img reply (execute img reply).1 ↔ ∀ e, HasTurn reply e → headerSize ≤ img.offset e := by
  have hmem := mem_execute h reply
  constructor
  · intro hsafe e hturn
    have hcalled : (e, img.func e) ∈ (execute img reply).1 := (hmem _).mpr ⟨rfl, hturn⟩
    exact (inside_iff h e).mp (hsafe.inside _ hcalled)
  · intro hturns
    refine ⟨?_, ?_, ?_⟩
    · intro c hc
      obtain ⟨haddr, hturn⟩ := (hmem c).mp hc
      rw [haddr]
      exact (inside_iff h c.1).mpr (hturns c.1 hturn)
    · intro c hc hzero
      have hle := hturns c.1 ((hmem c).mp hc).2
      unfold headerSize at hle
      omega
    · intro c hc hne
      have hturn := ((hmem c).mp hc).2
      cases he : c.1 with
      | init => exact absurd he hne
      | main => exact Or.inr (he ▸ hturn : HasTurn reply .main)
      | fini => exact Or.inr (he ▸ hturn : HasTurn reply .fini).1

end Accepted

/-! ### The loader -/

section Main
variable {file : Option (List UInt8)} {mmap : (bytes : List UInt8) → Option (Place bytes)}
  {img : Image}

theorem main_accepted (hload : loadPlugin file mmap = some img) (haccept : verifyPlugin img = true)
    (reply : Entry → Option ℤ) : main 2 file mmap reply = execute img reply := by
  simp [main, hload, haccept]

/-- The calls are as they should be exactly if every entry whose turn comes has
an offset behind the header. -/
theorem main_safe_iff (hload : loadPlugin file mmap = some img) (haccept : verifyPlugin img = true)
    (reply : Entry → Option ℤ) : Safe img reply (main 2 file mmap reply).1 ↔
      ∀ e, HasTurn reply e → headerSize ≤ img.offset e := by
  rw [main_accepted hload haccept]
  exact safe_execute_iff haccept reply

end Main

def smallPlugin (init main fini : UInt8) : List UInt8 :=
  [0x42, 0x44, 0x50, 0x50, 1, 0, 0, 0, init, 0, 0, 0, main, 0, 0, 0, fini, 0, 0, 0] ++
    List.replicate 20 0xC3

def secondPage (bytes : List UInt8) : Option (Place bytes) :=
  if h : 4096 + bytes.length ≤ 2 ^ 64 then some ⟨4096, by decide, by decide, h⟩ else none

theorem loadPlugin_secondPage {bytes : List UInt8} (hlong : headerSize ≤ bytes.length)
    (hfits : 4096 + bytes.length ≤ 2 ^ 64) : loadPlugin (some bytes) secondPage =
      some ⟨4096, bytes, by decide, by decide, hfits⟩ := by
  have hplace : secondPage bytes = some ⟨4096, by decide, by decide, hfits⟩ := dif_pos hfits
  unfold loadPlugin
  dsimp only
  rw [if_neg (Nat.not_lt.mpr hlong), hplace]

/-- Three functions behind the header. -/
theorem main_safe_behind_header :
    ∃ img, loadPlugin (some (smallPlugin 24 32 32)) secondPage = some img ∧
      Safe img (fun _ => some 0) (main 2 (some (smallPlugin 24 32 32)) secondPage
        (fun _ => some 0)).1 := by
  let img : Image := ⟨4096, smallPlugin 24 32 32, by decide, by decide, by decide⟩
  have hload : loadPlugin (some (smallPlugin 24 32 32)) secondPage = some img :=
    loadPlugin_secondPage (by decide) (by decide)
  have haccept : verifyPlugin img = true := by decide
  refine ⟨img, hload, (main_safe_iff hload haccept _).mpr ?_⟩
  intro e _
  cases e <;> decide

/-- An undefined `main` is called at the base of the image, and `fini` in the
middle of the header. -/
theorem main_calls_header : ∃ img, loadPlugin (some (smallPlugin 24 0 16)) secondPage = some img ∧
    verifyPlugin img = true ∧ img.offset .main = 0 ∧
    (main 2 (some (smallPlugin 24 0 16)) secondPage (fun _ => some 0)).1 =
      [(.init, img.base + 24), (.main, img.base), (.fini, img.base + 16)] ∧
    ¬ Safe img (fun _ => some 0)
      (main 2 (some (smallPlugin 24 0 16)) secondPage (fun _ => some 0)).1 := by
  let img : Image := ⟨4096, smallPlugin 24 0 16, by decide, by decide, by decide⟩
  have hload : loadPlugin (some (smallPlugin 24 0 16)) secondPage = some img :=
    loadPlugin_secondPage (by decide) (by decide)
  have haccept : verifyPlugin img = true := by decide
  have hcalls : (main 2 (some (smallPlugin 24 0 16)) secondPage (fun _ => some 0)).1 =
      [(.init, img.base + 24), (.main, img.base), (.fini, img.base + 16)] := by
    rw [main_accepted hload haccept]
    decide
  have hzero : img.offset .main = 0 := by decide
  refine ⟨img, hload, haccept, hzero, hcalls, ?_⟩
  intro hsafe
  rw [hcalls] at hsafe
  exact hsafe.skipped (.main, img.base) (by decide) hzero

end Ppdb.PluginLoader
