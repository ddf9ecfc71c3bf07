import Ppdb.CStrings
import Ppdb.HashOperations
import Ppdb.MemoryPatches
import Mathlib.Data.List.Find

/-!
The loader of relocatable plugins. A mapped ELF file is relocated where it
lies: the first symbol table and the section behind it give the symbols, and
every entry of every `SHT_RELA` section stores one word. Sections, symbols and
entries are read from the memory that is being changed.
-/

namespace Ppdb.ElfRelocation

open ByteMemory SizeArithmetic MemoryPatches CStrings
open HashOperations (CString)

/-! ### The file -/

def elfMagic : List UInt8 := [0x7f, 0x45, 0x4c, 0x46]

def shtSymtab : ℕ := 2

def shtRela : ℕ := 4

def shnUndef : ℕ := 0

def shoff (m : Mem) (base : ℕ) : ℕ := readLe m (base + 40) 8

def shnum (m : Mem) (base : ℕ) : ℕ := readLe m (base + 60) 2

def sectionHeader (shdr i : ℕ) : ℕ := addSize shdr (64 * i)

def shType (m : Mem) (sec : ℕ) : ℕ := readLe m (sec + 4) 4

def shOffset (m : Mem) (sec : ℕ) : ℕ := readLe m (sec + 24) 8

def shSize (m : Mem) (sec : ℕ) : ℕ := readLe m (sec + 32) 8

/-- `&symtab[k]` and `&rela[k]`, which have the same size -/
def record (table k : ℕ) : ℕ := addSize table (24 * k)

def stName (m : Mem) (sym : ℕ) : ℕ := readLe m sym 4

def stInfo (m : Mem) (sym : ℕ) : ℕ := readLe m (sym + 4) 1

def stShndx (m : Mem) (sym : ℕ) : ℕ := readLe m (sym + 6) 2

def stValue (m : Mem) (sym : ℕ) : ℕ := readLe m (sym + 8) 8

def rOffset (m : Mem) (rela : ℕ) : ℕ := readLe m rela 8

def rInfo (m : Mem) (rela : ℕ) : ℕ := readLe m (rela + 8) 8

def rAddend (m : Mem) (rela : ℕ) : ℕ := readLe m (rela + 16) 8

def rSym (info : ℕ) : ℕ := info / 2 ^ 32

/-- The types of relocation, by `ELF64_R_TYPE` -/
inductive RelocType
  | none
  | abs64
  | pc32
  | plt32
  | relative
  | abs32
  | abs32s
  | gotpcrel
  | gotpcrelx
  | rexGotpcrelx
  | unsupported
  deriving DecidableEq, Repr

def rType (info : ℕ) : RelocType :=
  match info % 2 ^ 32 with
  | 0 => .none
  | 1 => .abs64
  | 2 => .pc32
  | 4 => .plt32
  | 8 => .relative
  | 9 => .gotpcrel
  | 10 => .abs32
  | 11 => .abs32s
  | 41 => .gotpcrelx
  | 42 => .rexGotpcrelx
  | _ => .unsupported

/-! ### The functions -/

/-- `symtab`, `symcount` and `strtab` -/
structure Tables where
  symtab : ℕ
  symcount : ℕ
  strtab : ℕ
  deriving DecidableEq, Repr

/-- The search for the tables that both functions begin with: the strings are
in the section behind the symbols. -/
def findTables (m : Mem) (base : ℕ) : Option Tables :=
  let shdr := addSize base (shoff m base)
  match (List.range (shnum m base)).find? fun i => shType m (sectionHeader shdr i) = shtSymtab with
  | none => none
  | some i =>
    let symtab := addSize base (shOffset m (sectionHeader shdr i))
    let strtab := if i + 1 < shnum m base then
      addSize base (shOffset m (sectionHeader shdr (i + 1))) else 0
    if symtab = 0 ∨ strtab = 0 then none
    else some ⟨symtab, shSize m (sectionHeader shdr i) / 24, strtab⟩

def symValue (m : Mem) (base : ℕ) (t : Tables) (symIndex : ℕ) : ℕ :=
  if 0 < symIndex ∧ symIndex < t.symcount then
    let sym := record t.symtab symIndex
    if stShndx m sym ≠ shnUndef then addSize base (stValue m sym) else 0
  else 0

def relocation (m : Mem) (base : ℕ) (t : Tables) (rela : ℕ) : Option Patch :=
  let target := addSize base (rOffset m rela)
  let value := symValue m base t (rSym (rInfo m rela))
  let sum := addSize value (rAddend m rela)
  let pcRelative := subSize sum target % 2 ^ 32
  match rType (rInfo m rela) with
  | .none => none
  | .abs64 => some ⟨target, 8, sum⟩
  | .pc32 => some ⟨target, 4, pcRelative⟩
  | .abs32 => some ⟨target, 4, sum % 2 ^ 32⟩
  | .abs32s => some ⟨target, 4, sum % 2 ^ 32⟩
  | .plt32 => some ⟨target, 4, pcRelative⟩
  | .relative => some ⟨target, 8, addSize base (rAddend m rela)⟩
  | .gotpcrel => if value ≠ 0 then some ⟨target, 4, pcRelative⟩ else none
  | .gotpcrelx => if value ≠ 0 then some ⟨target, 4, pcRelative⟩ else none
  | .rexGotpcrelx => if value ≠ 0 then some ⟨target, 4, pcRelative⟩ else none
  | .unsupported => none

def relocate (m : Mem) (base : ℕ) (t : Tables) (rela : ℕ) : Mem :=
  match relocation m base t rela with
  | none => m
  | some p => apply m p

/-- The loop over the entries of a section, whose place and size are read first. -/
def relocateSection (m : Mem) (base : ℕ) (t : Tables) (sec : ℕ) : Mem :=
  if shType m sec = shtRela then
    let rela := addSize base (shOffset m sec)
    (List.range (shSize m sec / 24)).foldl (fun m j => relocate m base t (record rela j)) m
  else m

/-- The loop over the sections; `e_shnum` has 16 bits, so that it ends before
`fuel` does if that starts with `2 ^ 16`. -/
def relocateSections (base shdr : ℕ) (t : Tables) : (fuel i : ℕ) → Mem → Mem
  | 0, _, m => m
  | fuel + 1, i, m =>
    if i < shnum m base then
      relocateSections base shdr t fuel (i + 1) (relocateSection m base t (sectionHeader shdr i))
    else m

def processRelocs (m : Mem) (base : ℕ) : Mem × ℤ :=
  if loadBytes m base 4 ≠ elfMagic then (m, -1)
  else
    let shdr := addSize base (shoff m base)
    match findTables m base with
    | none => (m, -1)
    | some t => (relocateSections base shdr t (2 ^ 16) 0 m, 0)

/-- `strcmp` ends at the latest where `name` does. -/
def isNamed (m : Mem) (t : Tables) (name : CString) (sym : ℕ) : Bool :=
  strcmp (loadBytes m (addSize t.strtab (stName m sym)) (name.bytes.length + 1))
    (name.bytes ++ [0]) = 0

def isExported (m : Mem) (sym : ℕ) : Bool :=
  (stInfo m sym % 16 = 2 || stInfo m sym % 16 = 1) &&
    (stInfo m sym / 16 = 1 || stInfo m sym / 16 = 2)

/-- `find_symbol`; 0 is `NULL`. -/
def findSymbol (m : Mem) (base : ℕ) (name : CString) : ℕ :=
  if loadBytes m base 4 ≠ elfMagic then 0
  else
    match findTables m base with
    | none => 0
    | some t =>
      match (List.range t.symcount).find? fun k =>
          isNamed m t name (record t.symtab k) && isExported m (record t.symtab k) with
      | none => 0
      | some k => addSize base (stValue m (record t.symtab k))

/-! ### What a relocation is -/

def sectionEntries (m : Mem) (base sec : ℕ) : List ℕ :=
  if shType m sec = shtRela then
    (List.range (shSize m sec / 24)).map (record (addSize base (shOffset m sec)))
  else []

def entries (m : Mem) (base : ℕ) : List ℕ :=
  (List.range (shnum m base)).flatMap fun i =>
    sectionEntries m base (sectionHeader (addSize base (shoff m base)) i)

def patches (m : Mem) (base : ℕ) (t : Tables) : List Patch :=
  (entries m base).filterMap (relocation m base t)

def bytes (lo n : ℕ) : Set ℕ := {a | lo ≤ a ∧ a < lo + n}

/-- Where the header, the sections, the symbols and the entries are, and how long. -/
def tables (m : Mem) (base : ℕ) (t : Tables) : List (ℕ × ℕ) :=
  (base, 64) ::
    ((List.range (shnum m base)).map fun i =>
      (sectionHeader (addSize base (shoff m base)) i, 64)) ++
    ((List.range t.symcount).map fun k => (record t.symtab k, 24)) ++
    (entries m base).map fun e => (e, 24)

def tableBytes (m : Mem) (base : ℕ) (t : Tables) : Set ℕ :=
  {a | ∃ r ∈ tables m base t, a ∈ bytes r.1 r.2}

/-- No relocation changes the tables. -/
def Undisturbed (m : Mem) (base : ℕ) (t : Tables) : Prop :=
  ∀ p ∈ patches m base t, ∀ r ∈ tables m base t, p.Avoids r.1 r.2

instance (m : Mem) (base : ℕ) (t : Tables) : Decidable (Undisturbed m base t) :=
  inferInstanceAs (Decidable (∀ p ∈ patches m base t, ∀ r ∈ tables m base t, p.Avoids r.1 r.2))

def nameBytes (m : Mem) (t : Tables) (name : CString) : Set ℕ := {a |
  ∃ k < t.symcount, a ∈ bytes (addSize t.strtab (stName m (record t.symtab k)))
    (name.bytes.length + 1)}

/-- `int64_t` -/
def signed (a : ℕ) : ℤ := if a < 2 ^ 63 then a else (a : ℤ) - 2 ^ 64

/-- The width of the field and the number that belongs into it, from the value of
the symbol, the addend, the place of the field and the base. Only the references
through the global offset table leave an undefined symbol alone. -/
def field (s a p b : ℤ) : RelocType → Option (ℕ × ℤ)
  | .none => none
  | .abs64 => some (8, s + a)
  | .pc32 => some (4, s + a - p)
  | .plt32 => some (4, s + a - p)
  | .relative => some (8, b + a)
  | .abs32 => some (4, s + a)
  | .abs32s => some (4, s + a)
  | .gotpcrel => if s = 0 then none else some (4, s + a - p)
  | .gotpcrelx => if s = 0 then none else some (4, s + a - p)
  | .rexGotpcrelx => if s = 0 then none else some (4, s + a - p)
  | .unsupported => none

def Field (m : Mem) (base : ℕ) (t : Tables) (e place width : ℕ) (number : ℤ) : Prop :=
  place = addSize base (rOffset m e) ∧
    field (symValue m base t (rSym (rInfo m e))) (signed (rAddend m e))
      (addSize base (rOffset m e)) base (rType (rInfo m e)) = some (width, number)

/-- Every field holds its number, cut to its width, and nothing else has changed. -/
structure Linked (m m' : Mem) (base : ℕ) (t : Tables) : Prop where
  holds : ∀ e ∈ entries m base, ∀ place width number, Field m base t e place width number →
    (readLe m' place width : ℤ) = number % 256 ^ width
  frame : ∀ i, (∀ e ∈ entries m base, ∀ place width number,
    Field m base t e place width number → i ∉ bytes place width) → m' i = m i

variable {m m' : Mem} {base : ℕ} {t : Tables} {e : ℕ} {p : Patch}

/-! ### Single entries -/

theorem sum_eq (x a : ℕ) :
    ((addSize x a : ℕ) : ℤ) = ((x : ℤ) + signed a) % 256 ^ 8 := by
  unfold addSize sizeModulus signed
  split_ifs <;> omega

theorem low_sum_eq (x a : ℕ) :
    ((addSize x a % 2 ^ 32 : ℕ) : ℤ) = ((x : ℤ) + signed a) % 256 ^ 4 := by
  unfold addSize sizeModulus signed
  split_ifs <;> omega

theorem low_difference_eq (x a : ℕ) {place : ℕ} (hplace : place < 2 ^ 64) :
    ((subSize (addSize x a) place % 2 ^ 32 : ℕ) : ℤ) = ((x : ℤ) + signed a - place) % 256 ^ 4 := by
  unfold subSize addSize sizeModulus signed
  split_ifs <;> omega

theorem some_patch_iff (p : Patch) (place : ℕ) {width value : ℕ} {number : ℤ}
    (h : (value : ℤ) = number % 256 ^ width) :
    some (⟨place, width, value⟩ : Patch) = some p ↔ ∃ w n,
      (p.addr = place ∧ some (width, number) = some (w, n)) ∧ p.width = w ∧
        (p.value : ℤ) = n % 256 ^ w := by
  constructor
  · intro heq
    cases heq
    exact ⟨width, number, ⟨rfl, rfl⟩, rfl, h⟩
  · intro ⟨w, n, ⟨haddr, heq⟩, hwidth, hvalue⟩
    cases heq
    rw [← h] at hvalue
    obtain ⟨addr, width', value'⟩ := p
    cases haddr
    cases hwidth
    cases Int.natCast_inj.mp hvalue
    rfl

theorem none_patch_iff {place : ℕ} : (none : Option Patch) = some p ↔ ∃ (w : ℕ) (n : ℤ),
    (p.addr = place ∧ none = some (w, n)) ∧ p.width = w ∧ (p.value : ℤ) = n % 256 ^ w := by
  simp

/-- A patch is made exactly where the entry has a field, and stores its number. -/
theorem relocation_eq_some_iff : relocation m base t e = some p ↔ ∃ width number,
    Field m base t e p.addr width number ∧ p.width = width ∧
      (p.value : ℤ) = number % 256 ^ width := by
  have hplace : addSize base (rOffset m e) < 2 ^ 64 := addSize_lt _ _
  unfold relocation Field
  generalize symValue m base t (rSym (rInfo m e)) = s
  generalize addSize base (rOffset m e) = place at hplace
  generalize rAddend m e = a
  have habs := some_patch_iff p place (sum_eq s a)
  have hrel := some_patch_iff p place (sum_eq base a)
  have hlow := some_patch_iff p place (low_sum_eq s a)
  have hpc := some_patch_iff p place (low_difference_eq s a hplace)
  have hgot : (if s ≠ 0 then some (⟨place, 4, subSize (addSize s a) place % 2 ^ 32⟩ : Patch)
      else none) = some p ↔ ∃ w n, (p.addr = place ∧
        (if (s : ℤ) = 0 then none else some (4, (s : ℤ) + signed a - place)) = some (w, n)) ∧
          p.width = w ∧ (p.value : ℤ) = n % 256 ^ w := by
    by_cases hs : s = 0
    · rw [if_neg (not_not.mpr hs), if_pos (by exact_mod_cast hs)]
      exact none_patch_iff
    · rw [if_pos hs, if_neg (by exact_mod_cast hs)]
      exact hpc
  cases rType (rInfo m e) with
  | none => exact none_patch_iff
  | abs64 => exact habs
  | pc32 => exact hpc
  | plt32 => exact hpc
  | relative => exact hrel
  | abs32 => exact hlow
  | abs32s => exact hlow
  | gotpcrel => exact hgot
  | gotpcrelx => exact hgot
  | rexGotpcrelx => exact hgot
  | unsupported => exact none_patch_iff

theorem exists_relocation {place width : ℕ} {number : ℤ}
    (h : Field m base t e place width number) :
    ∃ p, relocation m base t e = some p := by
  have hnonneg : 0 ≤ number % 256 ^ width := Int.emod_nonneg _ (by positivity)
  refine ⟨⟨place, width, (number % 256 ^ width).toNat⟩, relocation_eq_some_iff.mpr ?_⟩
  exact ⟨width, number, h, rfl, Int.toNat_of_nonneg hnonneg⟩

/-! ### Reading the tables again -/

theorem same_readLe {T : Set ℕ} (h : SameOn T m m') {lo n : ℕ} (hsub : bytes lo n ⊆ T) {k w : ℕ}
    (hw : k + w ≤ n) : readLe m' (lo + k) w = readLe m (lo + k) w := by
  apply readLe_congr
  intro i hlo hhi
  exact h i (hsub ⟨by omega, by omega⟩)

theorem bytes_subset {lo n : ℕ} (h : (lo, n) ∈ tables m base t) :
    bytes lo n ⊆ tableBytes m base t := fun _ ha => ⟨(lo, n), h, ha⟩

section Same
variable (h : SameOn (tableBytes m base t) m m')
include h

theorem same_header : shnum m' base = shnum m base ∧ shoff m' base = shoff m base := by
  have hmem : (base, 64) ∈ tables m base t := by simp [tables]
  have hsub := bytes_subset hmem
  exact ⟨same_readLe h hsub (by decide), same_readLe h hsub (by decide)⟩

theorem magic_same : loadBytes m' base 4 = loadBytes m base 4 := by
  apply loadBytes_congr
  intro i hlo hhi
  have hmem : (base, 64) ∈ tables m base t := by simp [tables]
  exact h i (bytes_subset hmem ⟨hlo, by omega⟩)

theorem same_section {i : ℕ} (hi : i < shnum m base) {sec : ℕ}
    (hsec : sec = sectionHeader (addSize base (shoff m base)) i) : shType m' sec = shType m sec ∧
      shOffset m' sec = shOffset m sec ∧ shSize m' sec = shSize m sec := by
  have hmem : (sec, 64) ∈ tables m base t := by
    simp only [tables, List.cons_append, List.mem_cons, List.mem_append, List.mem_map]
    exact Or.inr (Or.inl (Or.inl ⟨i, List.mem_range.mpr hi, by rw [hsec]⟩))
  have hsub := bytes_subset hmem
  exact ⟨same_readLe h hsub (by decide), same_readLe h hsub (by decide), same_readLe h hsub (by decide)⟩

theorem same_symbol {k : ℕ} (hk : k < t.symcount) {sym : ℕ} (hsym : sym = record t.symtab k) :
    stName m' sym = stName m sym ∧ stInfo m' sym = stInfo m sym ∧
      stShndx m' sym = stShndx m sym ∧ stValue m' sym = stValue m sym := by
  have hmem : (sym, 24) ∈ tables m base t := by
    simp only [tables, List.cons_append, List.mem_cons, List.mem_append, List.mem_map]
    exact Or.inr (Or.inl (Or.inr ⟨k, List.mem_range.mpr hk, by rw [hsym]⟩))
  have hsub := bytes_subset hmem
  exact ⟨same_readLe h (k := 0) hsub (by decide), same_readLe h hsub (by decide),
    same_readLe h hsub (by decide), same_readLe h hsub (by decide)⟩

theorem same_entry (he : e ∈ entries m base) : rOffset m' e = rOffset m e ∧
    rInfo m' e = rInfo m e ∧ rAddend m' e = rAddend m e := by
  have hmem : (e, 24) ∈ tables m base t := by
    simp only [tables, List.cons_append, List.mem_cons, List.mem_append, List.mem_map]
    exact Or.inr (Or.inr ⟨e, he, rfl⟩)
  have hsub := bytes_subset hmem
  exact ⟨same_readLe h (k := 0) hsub (by decide), same_readLe h hsub (by decide),
    same_readLe h hsub (by decide)⟩

theorem findTables_same : findTables m' base = findTables m base := by
  obtain ⟨hnum, hoff⟩ := same_header h
  have hfind : (List.range (shnum m base)).find? (fun i =>
      shType m' (sectionHeader (addSize base (shoff m base)) i) = shtSymtab) =
      (List.range (shnum m base)).find? fun i =>
        shType m (sectionHeader (addSize base (shoff m base)) i) = shtSymtab := by
    apply List.find?_congr
    intro i hi
    rw [(same_section h (List.mem_range.mp hi) rfl).1]
  unfold findTables
  rw [hnum, hoff]
  dsimp only
  rw [hfind]
  cases hfound : (List.range (shnum m base)).find? fun i =>
      shType m (sectionHeader (addSize base (shoff m base)) i) = shtSymtab with
  | none => rfl
  | some i =>
    have hi := List.mem_range.mp (List.mem_of_find?_eq_some hfound)
    obtain ⟨_, hoffset, hsize⟩ := same_section h hi rfl
    dsimp only
    rw [hoffset, hsize]
    by_cases hnext : i + 1 < shnum m base
    · rw [(same_section h hnext rfl).2.1]
    · rw [if_neg hnext, if_neg hnext]

theorem symValue_same (symIndex : ℕ) :
    symValue m' base t symIndex = symValue m base t symIndex := by
  unfold symValue
  by_cases hk : 0 < symIndex ∧ symIndex < t.symcount
  · obtain ⟨_, _, hshndx, hvalue⟩ := same_symbol h hk.2 rfl
    rw [if_pos hk, if_pos hk]
    dsimp only
    rw [hshndx, hvalue]
  · rw [if_neg hk, if_neg hk]

theorem relocation_same (he : e ∈ entries m base) :
    relocation m' base t e = relocation m base t e := by
  obtain ⟨hoffset, hinfo, haddend⟩ := same_entry h he
  unfold relocation
  rw [hoffset, hinfo, haddend, symValue_same h]

theorem sectionEntries_same {i : ℕ} (hi : i < shnum m base) {sec : ℕ}
    (hsec : sec = sectionHeader (addSize base (shoff m base)) i) :
    sectionEntries m' base sec = sectionEntries m base sec := by
  obtain ⟨htype, hoffset, hsize⟩ := same_section h hi hsec
  unfold sectionEntries
  rw [htype, hoffset, hsize]

theorem entries_same : entries m' base = entries m base := by
  obtain ⟨hnum, hoff⟩ := same_header h
  unfold entries
  rw [hnum, hoff, List.flatMap_def, List.flatMap_def]
  congr 1
  apply List.map_congr_left
  intro i hi
  exact sectionEntries_same h (List.mem_range.mp hi) rfl

theorem patches_same : patches m' base t = patches m base t := by
  unfold patches
  rw [entries_same h]
  apply List.filterMap_congr
  exact fun e he => relocation_same h he

theorem tables_same : tables m' base t = tables m base t := by
  obtain ⟨hnum, hoff⟩ := same_header h
  unfold tables
  rw [hnum, hoff, entries_same h]

end Same

/-! ### The loops -/

theorem relocate_eq (m : Mem) (base : ℕ) (t : Tables) (e : ℕ) :
    relocate m base t e = applyAll m (relocation m base t e).toList := by
  unfold relocate
  cases relocation m base t e with
  | none => rfl
  | some p => rfl

theorem mem_entries {i sec : ℕ} (hi : i < shnum m base)
    (hsec : sec = sectionHeader (addSize base (shoff m base)) i)
    (he : e ∈ sectionEntries m base sec) : e ∈ entries m base :=
  List.mem_flatMap.mpr ⟨i, List.mem_range.mpr hi, hsec ▸ he⟩

section Loops
variable (hspares : Undisturbed m base t)
include hspares

theorem spares_of_entry (he : e ∈ entries m base) (hp : relocation m base t e = some p) :
    p.Spares (tableBytes m base t) := by
  intro i hi
  obtain ⟨r, hr, hlo, hhi⟩ := hi
  exact (hspares p (List.mem_filterMap.mpr ⟨e, he, hp⟩) r hr).not_covers hlo hhi

theorem sameOn_patches : SameOn (tableBytes m base t) m (applyAll m (patches m base t)) := by
  apply sameOn_applyAll
  intro p hp
  obtain ⟨e, he, heq⟩ := List.mem_filterMap.mp hp
  exact spares_of_entry hspares he heq

theorem relocateSection_eq (h : SameOn (tableBytes m base t) m m') {i sec : ℕ}
    (hi : i < shnum m base) (hsec : sec = sectionHeader (addSize base (shoff m base)) i) :
    relocateSection m' base t sec =
      applyAll m' ((sectionEntries m base sec).filterMap (relocation m base t)) := by
  obtain ⟨htype, hoffset, hsize⟩ := same_section h hi hsec
  have hentries := fun e => mem_entries (e := e) hi hsec
  unfold relocateSection
  unfold sectionEntries at hentries ⊢
  rw [htype, hoffset, hsize]
  by_cases hrela : shType m sec = shtRela
  · rw [if_pos hrela] at hentries ⊢
    have hmem : ∀ j ∈ List.range (shSize m sec / 24),
        record (addSize base (shOffset m sec)) j ∈ entries m base :=
      fun j hj => hentries _ (List.mem_map_of_mem hj)
    rw [if_pos hrela, List.filterMap_map, List.filterMap_eq_flatMap_toList]
    simp only [relocate_eq, Function.comp_apply]
    generalize record (addSize base (shOffset m sec)) = rela at hmem ⊢
    have hloop := runTable_eq (fun m j => (relocation m base t (rela j)).toList) h
      (fun m'' hsame j hj => congrArg Option.toList (relocation_same hsame (hmem j hj)))
      fun j hj p hp => spares_of_entry hspares (hmem j hj) (Option.mem_toList.mp hp)
    unfold runTable at hloop
    exact hloop
  · rw [if_neg hrela, if_neg hrela]
    rfl

/-- The loop from section `i` on -/
theorem relocateSections_eq (h : SameOn (tableBytes m base t) m m') {fuel i k : ℕ}
    (hk : i + k = shnum m base) (hfuel : k ≤ fuel) :
    relocateSections base (addSize base (shoff m base)) t fuel i m' =
      applyAll m' ((List.range' i k).flatMap fun i =>
        (sectionEntries m base (sectionHeader (addSize base (shoff m base)) i)).filterMap
          (relocation m base t)) := by
  induction k generalizing i m' fuel with
  | zero =>
    have hend : ¬ i < shnum m' base := by
      rw [(same_header h).1]
      omega
    cases fuel with
    | zero => rfl
    | succ fuel => exact if_neg hend
  | succ k ih =>
    obtain ⟨fuel, rfl⟩ : ∃ n, fuel = n + 1 := ⟨fuel - 1, by omega⟩
    have hi : i < shnum m base := by omega
    have hmore : i < shnum m' base := by rwa [(same_header h).1]
    have hkept := h.trans (sameOn_applyAll fun p hp => by
      obtain ⟨e, he, heq⟩ := List.mem_filterMap.mp hp
      exact spares_of_entry hspares (mem_entries hi rfl he) heq)
    rw [relocateSections, if_pos hmore, relocateSection_eq hspares h hi rfl,
      ih hkept (by omega) (by omega), List.range'_succ, List.flatMap_cons, applyAll_append]

theorem processRelocs_eq (hmagic : loadBytes m base 4 = elfMagic)
    (htables : findTables m base = some t) :
    processRelocs m base = (applyAll m (patches m base t), 0) := by
  have hnum : shnum m base < 2 ^ 16 := readLe_lt m _ 2
  have hloop := relocateSections_eq hspares (m := m) (fun _ _ => rfl)
    (Nat.zero_add (shnum m base)) (Nat.le_of_lt hnum)
  unfold processRelocs
  rw [if_neg (not_not.mpr hmagic), htables]
  dsimp only
  rw [hloop, ← List.range_eq_range']
  unfold patches entries
  rw [List.filterMap_flatMap]

/-- All fields of a file hold what belongs into them, if they are apart from the
tables and from each other. -/
theorem processRelocs_links (hmagic : loadBytes m base 4 = elfMagic)
    (htables : findTables m base = some t) (hapart : (patches m base t).Pairwise Patch.Apart) :
    (processRelocs m base).2 = 0 ∧ Linked m (processRelocs m base).1 base t := by
  rw [processRelocs_eq hspares hmagic htables]
  refine ⟨rfl, ?_, ?_⟩
  · intro e he place width number hfield
    obtain ⟨p, hp⟩ := exists_relocation hfield
    obtain ⟨width', number', ⟨hplace', hfield'⟩, hwidth, hvalue⟩ := relocation_eq_some_iff.mp hp
    obtain ⟨hplace, hnumber⟩ := hfield
    cases hnumber.symm.trans hfield'
    have hread := readLe_applyAll (m := m) hapart (List.mem_filterMap.mpr ⟨e, he, hp⟩)
    rw [hplace'.trans hplace.symm, hwidth] at hread
    rw [hread]
    push_cast
    rw [hvalue, Int.emod_emod]
  · intro i hi
    apply applyAll_of_not_covers
    intro p hp
    obtain ⟨e, he, heq⟩ := List.mem_filterMap.mp hp
    obtain ⟨width, number, hfield, hwidth, _⟩ := relocation_eq_some_iff.mp heq
    subst hwidth
    exact hi e he _ _ _ hfield

/-- A second run finds everything in place. -/
theorem processRelocs_twice (hmagic : loadBytes m base 4 = elfMagic)
    (htables : findTables m base = some t) :
    processRelocs (processRelocs m base).1 base = processRelocs m base := by
  have hsame := sameOn_patches hspares
  have hspares' : Undisturbed (applyAll m (patches m base t)) base t := by
    unfold Undisturbed
    rwa [patches_same hsame, tables_same hsame]
  rw [processRelocs_eq hspares hmagic htables,
    processRelocs_eq hspares' ((magic_same hsame).trans hmagic)
      ((findTables_same hsame).trans htables),
    patches_same hsame, applyAll_twice]

/-- Symbols are found as in the file, whatever has been relocated. -/
theorem findSymbol_relocated (hmagic : loadBytes m base 4 = elfMagic)
    (htables : findTables m base = some t) (name : CString)
    (hnames : ∀ p ∈ patches m base t, p.Spares (nameBytes m t name)) :
    findSymbol (processRelocs m base).1 base name = findSymbol m base name := by
  have hsame := sameOn_patches hspares
  have hstrings : SameOn (nameBytes m t name) m (applyAll m (patches m base t)) :=
    sameOn_applyAll hnames
  rw [processRelocs_eq hspares hmagic htables]
  dsimp only
  generalize applyAll m (patches m base t) = m' at hsame hstrings
  have hfind : ((List.range t.symcount).find? fun k => isNamed m' t name (record t.symtab k) &&
      isExported m' (record t.symtab k)) =
      (List.range t.symcount).find? fun k => isNamed m t name (record t.symtab k) &&
        isExported m (record t.symtab k) := by
    apply List.find?_congr
    intro k hk
    obtain ⟨hname, hinfo, _, _⟩ := same_symbol hsame (List.mem_range.mp hk) rfl
    unfold isNamed isExported
    rw [hname, hinfo, loadBytes_congr]
    exact fun i hlo hhi => hstrings i ⟨k, List.mem_range.mp hk, hlo, hhi⟩
  unfold findSymbol
  rw [magic_same hsame, findTables_same hsame, htables]
  dsimp only
  rw [hfind]
  cases hfound : (List.range t.symcount).find? fun k => isNamed m t name (record t.symtab k) &&
      isExported m (record t.symtab k) with
  | none => rfl
  | some k =>
    have hk := List.mem_range.mp (List.mem_of_find?_eq_some hfound)
    dsimp only
    rw [(same_symbol hsame hk rfl).2.2.2]

end Loops

/-! ### A small file -/

/-- Four sections behind the header: the symbols, their names, two entries for the
only symbol, its call and its address in 32 bits, and the code. -/
def smallFile : List Patch := [
  ⟨0, 4, 0x464c457f⟩, ⟨40, 8, 64⟩, ⟨60, 2, 4⟩,
  ⟨68, 4, 2⟩, ⟨88, 8, 320⟩, ⟨96, 8, 48⟩,
  ⟨132, 4, 3⟩, ⟨152, 8, 368⟩, ⟨160, 8, 3⟩,
  ⟨196, 4, 4⟩, ⟨216, 8, 376⟩, ⟨224, 8, 48⟩,
  ⟨260, 4, 1⟩, ⟨280, 8, 424⟩, ⟨288, 8, 16⟩,
  ⟨344, 4, 1⟩, ⟨348, 1, 18⟩, ⟨350, 2, 4⟩, ⟨352, 8, 424⟩,
  ⟨369, 2, 102⟩, ⟨376, 8, 428⟩, ⟨384, 8, 2 ^ 32 + 2⟩, ⟨392, 8, 2 ^ 64 - 4⟩,
  ⟨400, 8, 432⟩, ⟨408, 8, 2 ^ 32 + 10⟩, ⟨416, 8, 0⟩]

def mapped (base : ℕ) : Mem :=
  applyAll (fun _ => 0) (smallFile.map fun p => { p with addr := base + p.addr })

theorem smallFile_found : loadBytes (mapped 4096) 4096 4 = elfMagic ∧
    findTables (mapped 4096) 4096 = some ⟨4416, 2, 4464⟩ ∧
    Undisturbed (mapped 4096) 4096 ⟨4416, 2, 4464⟩ ∧
    patches (mapped 4096) 4096 ⟨4416, 2, 4464⟩ = [⟨4524, 4, 2 ^ 32 - 8⟩, ⟨4528, 4, 4520⟩] := by
  decide +kernel

/-- The call at 4524 goes 8 bytes back from its own end, and the address is
behind it. -/
theorem processRelocs_links_small :
    Linked (mapped 4096) (processRelocs (mapped 4096) 4096).1 4096 ⟨4416, 2, 4464⟩ := by
  obtain ⟨hmagic, htables, hspares, hpatches⟩ := smallFile_found
  refine (processRelocs_links hspares hmagic htables ?_).2
  rw [hpatches]
  decide

theorem processRelocs_twice_small :
    processRelocs (processRelocs (mapped 4096) 4096).1 4096 = processRelocs (mapped 4096) 4096 := by
  obtain ⟨hmagic, htables, hspares, _⟩ := smallFile_found
  exact processRelocs_twice hspares hmagic htables

theorem findSymbol_relocated_small :
    findSymbol (processRelocs (mapped 4096) 4096).1 4096 ⟨[102], by decide⟩ = 4520 := by
  obtain ⟨hmagic, htables, hspares, hpatches⟩ := smallFile_found
  refine (findSymbol_relocated hspares hmagic htables _ ?_).trans (by decide +kernel)
  rw [hpatches]
  intro p hp i ⟨k, hk, hlo, hhi⟩ hcovers
  have hname : ∀ k < 2, addSize 4464 (stName (mapped 4096) (record 4416 k)) ≤ 4465 := by
    decide +kernel
  have hbefore := hname k hk
  have hbehind : ∀ p ∈ [(⟨4524, 4, 2 ^ 32 - 8⟩ : Patch), ⟨4528, 4, 4520⟩], 4524 ≤ p.addr := by decide
  have haddr := hbehind p hp
  unfold Patch.Covers at hcovers
  dsimp only [List.length_cons, List.length_nil] at hlo hhi
  omega

end Ppdb.ElfRelocation
