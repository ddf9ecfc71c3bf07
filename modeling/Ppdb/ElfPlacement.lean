import Ppdb.ElfRelocation

/-!
One file relocated at two places. Everything but the base comes from the file,
so that the entries are the same and their fields lie at the same offsets. What
is stored relative to its own place does not depend on the base either; where
nothing else is stored, the two images are the same byte by byte.
-/

namespace Ppdb.ElfPlacement

open ByteMemory SizeArithmetic MemoryPatches ElfRelocation

def Defined (m : Mem) (t : Tables) (k : ℕ) : Prop :=
  (0 < k ∧ k < t.symcount) ∧ stShndx m (record t.symtab k) ≠ shnUndef

/-- A file of `len` bytes as it is mapped and accepted: its tables and the fields
that are filled lie inside it, and no symbol that it defines lies at null. -/
structure Placed (m : Mem) (base len : ℕ) (t : Tables) : Prop where
  mapped : 0 < base
  fits : base + len < 2 ^ 64
  magic : loadBytes m base 4 = elfMagic
  found : findTables m base = some t
  undisturbed : Undisturbed m base t
  header : 64 ≤ len
  sections : shoff m base + 64 * shnum m base ≤ len
  contents : ∀ i < shnum m base, ∀ sec, sec = sectionHeader (addSize base (shoff m base)) i →
    shType m sec = shtSymtab ∨ shType m sec = shtRela → shOffset m sec + shSize m sec ≤ len
  fields : ∀ e ∈ entries m base, ∀ p, relocation m base t e = some p → rOffset m e + p.width ≤ len
  nonnull : ∀ e ∈ entries m base, Defined m t (rSym (rInfo m e)) →
    symValue m base t (rSym (rInfo m e)) ≠ 0

def SameFile (m m' : Mem) (base base' len : ℕ) : Prop := ∀ i < len, m' (base' + i) = m (base + i)

/-- What the entry stores depends on the base: an address, or the distance to a
symbol that is not defined. -/
def Absolute (m : Mem) (t : Tables) (e : ℕ) : Prop :=
  match rType (rInfo m e) with
  | .abs64 => True
  | .abs32 => True
  | .abs32s => True
  | .relative => True
  | .pc32 => ¬ Defined m t (rSym (rInfo m e))
  | .plt32 => ¬ Defined m t (rSym (rInfo m e))
  | _ => False

def fieldWidth : RelocType → ℕ
  | .abs64 => 8
  | .relative => 8
  | _ => 4

/-- The file seen from its own beginning -/
def view (m : Mem) (base len : ℕ) : Mem := fun i => if i < len then m (base + i) else 0

variable {m m' : Mem} {base base' len i : ℕ} {t t' : Tables} {f : Mem}

theorem view_eq (h : SameFile m m' base base' len) : view m' base' len = view m base len := by
  funext i
  unfold view
  by_cases hi : i < len
  · rw [if_pos hi, if_pos hi, h i hi]
  · rw [if_neg hi, if_neg hi]

/-- Reading inside the file -/
theorem readLe_view {o k : ℕ} (h : o + k ≤ len) :
    readLe m (base + o) k = readLe (view m base len) o k := by
  induction k generalizing o with
  | zero => rfl
  | succ k ih =>
    have hbyte : view m base len o = m (base + o) := if_pos (by omega)
    have hrest : readLe m (base + (o + 1)) k = readLe (view m base len) (o + 1) k := ih (by omega)
    rw [readLe, readLe, hbyte, ← hrest]
    rfl

def sectionAt (f : Mem) (i : ℕ) : ℕ := readLe f 40 8 + 64 * i

def sectionOffsets (f : Mem) (i : ℕ) : List ℕ :=
  if shType f (sectionAt f i) = shtRela then
    (List.range (shSize f (sectionAt f i) / 24)).map fun j => shOffset f (sectionAt f i) + 24 * j
  else []

def offsets (f : Mem) : List ℕ := (List.range (readLe f 60 2)).flatMap (sectionOffsets f)

theorem addSize_inside (hfits : base + len < 2 ^ 64) {o : ℕ} (h : o ≤ len) :
    addSize base o = base + o := addSize_of_lt (by unfold sizeModulus; omega)

theorem addSize_inside_add (hfits : base + len < 2 ^ 64) {o k : ℕ} (h : o + k ≤ len) :
    addSize (base + o) k = base + o + k := addSize_of_lt (by unfold sizeModulus; omega)

def symbols (f : Mem) : Option (ℕ × ℕ) :=
  ((List.range (readLe f 60 2)).find? fun i => shType f (sectionAt f i) = shtSymtab).map fun i =>
    (shOffset f (sectionAt f i), shSize f (sectionAt f i) / 24)

def definition (f : Mem) (k : ℕ) : Option ℕ :=
  match symbols f with
  | none => none
  | some (offset, count) =>
    if (0 < k ∧ k < count) ∧ stShndx f (offset + 24 * k) ≠ shnUndef then
      some (stValue f (offset + 24 * k))
    else none

section Placed
variable (h : Placed m base len t)
include h

theorem header_eq : shnum m base = readLe (view m base len) 60 2 ∧
    shoff m base = readLe (view m base len) 40 8 := by
  have hlen := h.header
  exact ⟨readLe_view (by omega), readLe_view (by omega)⟩

theorem sectionHeader_eq (hi : i < shnum m base) :
    sectionHeader (addSize base (shoff m base)) i = base + sectionAt (view m base len) i ∧
      sectionAt (view m base len) i + 64 ≤ len := by
  have hsections := h.sections
  have hroom : 64 * i + 64 ≤ 64 * shnum m base := by omega
  unfold sectionAt
  rw [← (header_eq h).2]
  refine ⟨?_, by omega⟩
  unfold sectionHeader
  rw [addSize_inside h.fits (by omega), ← Nat.add_assoc]
  exact addSize_inside_add h.fits (by omega)

theorem section_eq (hi : i < shnum m base) {sec : ℕ}
    (hsec : sec = sectionHeader (addSize base (shoff m base)) i) :
    shType m sec = shType (view m base len) (sectionAt (view m base len) i) ∧
      shOffset m sec = shOffset (view m base len) (sectionAt (view m base len) i) ∧
      shSize m sec = shSize (view m base len) (sectionAt (view m base len) i) := by
  obtain ⟨heq, hroom⟩ := sectionHeader_eq h hi
  rw [hsec, heq]
  unfold shType shOffset shSize
  rw [Nat.add_assoc, Nat.add_assoc, Nat.add_assoc]
  exact ⟨readLe_view (by omega), readLe_view (by omega), readLe_view (by omega)⟩

/-- The records of a section lie behind each other inside the file. -/
theorem record_eq (hi : i < shnum m base) {sec : ℕ}
    (hsec : sec = sectionHeader (addSize base (shoff m base)) i)
    (htype : shType m sec = shtSymtab ∨ shType m sec = shtRela) {j : ℕ}
    (hj : j < shSize m sec / 24) :
    record (addSize base (shOffset m sec)) j = base + (shOffset m sec + 24 * j) ∧
      shOffset m sec + 24 * j + 24 ≤ len := by
  have hinside := h.contents i hi sec hsec htype
  have hroom : 24 * j + 24 ≤ shSize m sec := by omega
  unfold record
  rw [addSize_inside h.fits (by omega), ← Nat.add_assoc]
  exact ⟨addSize_inside_add h.fits (by omega), by omega⟩

theorem sectionEntries_eq (hi : i < shnum m base) {sec : ℕ}
    (hsec : sec = sectionHeader (addSize base (shoff m base)) i) :
    sectionEntries m base sec = (sectionOffsets (view m base len) i).map (base + ·) ∧
      ∀ o ∈ sectionOffsets (view m base len) i, o + 24 ≤ len := by
  obtain ⟨htype, hoffset, hsize⟩ := section_eq h hi hsec
  have hrecord := fun (hrela : shType m sec = shtRela) (j : ℕ) => record_eq h hi hsec (Or.inr hrela) (j := j)
  unfold sectionEntries sectionOffsets
  rw [← htype, ← hoffset, ← hsize]
  by_cases hrela : shType m sec = shtRela
  · rw [if_pos hrela, if_pos hrela, List.map_map]
    constructor
    · apply List.map_congr_left
      intro j hj
      exact (hrecord hrela j (List.mem_range.mp hj)).1
    · intro o ho
      obtain ⟨j, hj, rfl⟩ := List.mem_map.mp ho
      exact (hrecord hrela j (List.mem_range.mp hj)).2
  · rw [if_neg hrela, if_neg hrela]
    exact ⟨rfl, fun _ ho => nomatch ho⟩

theorem entries_eq : entries m base = (offsets (view m base len)).map (base + ·) ∧
    ∀ o ∈ offsets (view m base len), o + 24 ≤ len := by
  unfold entries offsets
  rw [← (header_eq h).1]
  constructor
  · rw [List.map_flatMap, List.flatMap_def, List.flatMap_def]
    congr 1
    apply List.map_congr_left
    intro i hi
    exact (sectionEntries_eq h (List.mem_range.mp hi) rfl).1
  · intro o ho
    obtain ⟨i, hi, ho⟩ := List.mem_flatMap.mp ho
    exact (sectionEntries_eq h (List.mem_range.mp hi) rfl).2 o ho

theorem entry_eq {o : ℕ} (ho : o ∈ offsets (view m base len)) :
    rOffset m (base + o) = rOffset (view m base len) o ∧
      rInfo m (base + o) = rInfo (view m base len) o ∧
      rAddend m (base + o) = rAddend (view m base len) o := by
  have hroom := (entries_eq h).2 o ho
  unfold rOffset rInfo rAddend
  rw [Nat.add_assoc, Nat.add_assoc]
  exact ⟨readLe_view (by omega), readLe_view (by omega), readLe_view (by omega)⟩

theorem symbols_eq : ∃ offset, symbols (view m base len) = some (offset, t.symcount) ∧
    ∀ k < t.symcount, record t.symtab k = base + (offset + 24 * k) ∧ offset + 24 * k + 24 ≤ len := by
  have hfound := h.found
  have hfind : (List.range (shnum m base)).find? (fun i =>
      shType m (sectionHeader (addSize base (shoff m base)) i) = shtSymtab) =
      (List.range (shnum m base)).find? fun i =>
        shType (view m base len) (sectionAt (view m base len) i) = shtSymtab := by
    apply List.find?_congr
    intro i hi
    rw [(section_eq h (List.mem_range.mp hi) rfl).1]
  unfold findTables at hfound
  unfold symbols
  dsimp only at hfound
  rw [hfind] at hfound
  rw [← (header_eq h).1]
  cases hindex : (List.range (shnum m base)).find? fun i =>
      shType (view m base len) (sectionAt (view m base len) i) = shtSymtab with
  | none =>
    rw [hindex] at hfound
    cases hfound
  | some i =>
    have hi := List.mem_range.mp (List.mem_of_find?_eq_some hindex)
    have htype := List.find?_some hindex
    rw [decide_eq_true_iff] at htype
    obtain ⟨htype', hoffset, hsize⟩ := section_eq h hi rfl
    rw [hindex] at hfound
    dsimp only at hfound
    generalize (if i + 1 < shnum m base then _ else 0) = strtab at hfound
    by_cases hnull : addSize base
        (shOffset m (sectionHeader (addSize base (shoff m base)) i)) = 0 ∨ strtab = 0
    · rw [if_pos hnull] at hfound
      cases hfound
    · rw [if_neg hnull] at hfound
      obtain rfl := Option.some.inj hfound
      refine ⟨shOffset (view m base len) (sectionAt (view m base len) i), ?_, ?_⟩
      · rw [hsize]
        rfl
      · intro k hk
        rw [← hoffset]
        exact record_eq h hi rfl (Or.inl (htype'.trans htype)) hk

/-- Where a symbol is defined, its value is moved by the base. -/
theorem symValue_eq (k : ℕ) :
    (Defined m t k ↔ definition (view m base len) k ≠ none) ∧
      symValue m base t k = match definition (view m base len) k with
        | none => 0
        | some value => addSize base value := by
  obtain ⟨offset, hsymbols, hrecord⟩ := symbols_eq h
  unfold Defined symValue definition
  rw [hsymbols]
  dsimp only
  by_cases hk : 0 < k ∧ k < t.symcount
  · obtain ⟨heq, hroom⟩ := hrecord k hk.2
    have hshndx : stShndx m (record t.symtab k) =
        stShndx (view m base len) (offset + 24 * k) := by
      rw [heq]
      unfold stShndx
      rw [Nat.add_assoc]
      exact readLe_view (by omega)
    have hvalue : stValue m (record t.symtab k) = stValue (view m base len) (offset + 24 * k) := by
      rw [heq]
      unfold stValue
      rw [Nat.add_assoc]
      exact readLe_view (by omega)
    rw [if_pos hk, hshndx, hvalue]
    by_cases hdefined : stShndx (view m base len) (offset + 24 * k) ≠ shnUndef
    · rw [if_pos hdefined, if_pos ⟨hk, hdefined⟩]
      exact ⟨iff_of_true ⟨hk, hdefined⟩ (by simp), rfl⟩
    · rw [if_neg hdefined, if_neg fun hboth => hdefined hboth.2]
      exact ⟨iff_of_false (fun hboth => hdefined hboth.2) (by simp), rfl⟩
  · rw [if_neg hk, if_neg fun hboth => hk hboth.1]
    exact ⟨iff_of_false (fun hboth => hk hboth.1) (by simp), rfl⟩

end Placed

/-! ### Two places -/

theorem corresponds_apart {a w : ℕ} (v v' : ℕ) (hfits : base + a < 2 ^ 64)
    (hfits' : base' + a < 2 ^ 64) (h : i < a ∨ a + w ≤ i) :
    Corresponds base base' i ⟨addSize base a, w, v⟩ ⟨addSize base' a, w, v'⟩ := by
  refine ⟨a, addSize_of_lt hfits, addSize_of_lt hfits', rfl, fun hcovers => ?_⟩
  unfold Patch.Covers at hcovers
  rw [addSize_of_lt hfits] at hcovers
  dsimp only at hcovers
  omega

/-- The distance between two places of one image is the same at every base. -/
theorem corresponds_relative (i value addend : ℕ) {a : ℕ} (hfits : base + a < 2 ^ 64)
    (hfits' : base' + a < 2 ^ 64) : Corresponds base base' i
      ⟨addSize base a, 4,
        subSize (addSize (addSize base value) addend) (addSize base a) % 2 ^ 32⟩
      ⟨addSize base' a, 4,
        subSize (addSize (addSize base' value) addend) (addSize base' a) % 2 ^ 32⟩ := by
  refine ⟨a, addSize_of_lt hfits, addSize_of_lt hfits', rfl, fun _ => ?_⟩
  dsimp only
  unfold subSize addSize sizeModulus
  omega

section Both
variable (h : Placed m base len t) (h' : Placed m' base' len t')
  (hsame : SameFile m m' base base' len)
include h h' hsame

theorem relocation_corresponds {o : ℕ} (ho : o ∈ offsets (view m base len))
    (hi : Absolute m t (base + o) → i < rOffset m (base + o) ∨
      rOffset m (base + o) + fieldWidth (rType (rInfo m (base + o))) ≤ i) :
    Option.Rel (Corresponds base base' i) (relocation m base t (base + o))
      (relocation m' base' t' (base' + o)) := by
  have hview := view_eq hsame
  have ho' : o ∈ offsets (view m' base' len) := hview.symm ▸ ho
  have hmem : base + o ∈ entries m base := (entries_eq h).1 ▸ List.mem_map_of_mem ho
  have hmem' : base' + o ∈ entries m' base' := (entries_eq h').1 ▸ List.mem_map_of_mem ho'
  have hfields := h.fields _ hmem
  have hnonnull := h.nonnull _ hmem
  have hnonnull' := h'.nonnull _ hmem'
  obtain ⟨hoffset, hinfo, haddend⟩ := entry_eq h ho
  obtain ⟨hoffset', hinfo', haddend'⟩ := entry_eq h' ho'
  rw [hview] at hoffset' hinfo' haddend'
  obtain ⟨hdefined, hvalue⟩ := symValue_eq h (rSym (rInfo (view m base len) o))
  obtain ⟨hdefined', hvalue'⟩ := symValue_eq h' (rSym (rInfo (view m base len) o))
  rw [hview] at hdefined' hvalue'
  unfold Absolute at hi
  unfold relocation at hfields ⊢
  rw [hinfo] at hnonnull
  rw [hinfo'] at hnonnull'
  rw [hinfo, hoffset] at hi
  rw [hinfo, hoffset, haddend] at hfields
  rw [hinfo, hoffset, haddend, hinfo', hoffset', haddend']
  generalize rOffset (view m base len) o = a at hi hfields ⊢
  dsimp only at hfields ⊢
  have hplaces : ∀ {w}, a + w ≤ len → base + a < 2 ^ 64 ∧ base' + a < 2 ^ 64 := by
    intro w hw
    have hfits := h.fits
    have hfits' := h'.fits
    omega
  have habsolute : ∀ {w v v'}, a + w ≤ len → i < a ∨ a + w ≤ i →
      Option.Rel (Corresponds base base' i) (some ⟨addSize base a, w, v⟩)
        (some ⟨addSize base' a, w, v'⟩) := by
    intro w v v' hroom hapart
    obtain ⟨hplace, hplace'⟩ := hplaces hroom
    exact .some (corresponds_apart v v' hplace hplace' hapart)
  cases hdefinition : definition (view m base len) (rSym (rInfo (view m base len) o)) with
  | none =>
    rw [hdefinition] at hvalue hvalue'
    rw [hvalue] at hfields
    rw [hvalue, hvalue']
    have hnone : ¬ Defined m t (rSym (rInfo (view m base len) o)) := fun hboth =>
      hdefined.mp hboth hdefinition
    generalize rType (rInfo (view m base len) o) = c at hi hfields ⊢
    cases c with
    | none => exact .none
    | abs64 => exact habsolute (hfields _ rfl) (hi trivial)
    -- the distance to nothing is an address, too
    | pc32 => exact habsolute (hfields _ rfl) (hi hnone)
    | plt32 => exact habsolute (hfields _ rfl) (hi hnone)
    | relative => exact habsolute (hfields _ rfl) (hi trivial)
    | abs32 => exact habsolute (hfields _ rfl) (hi trivial)
    | abs32s => exact habsolute (hfields _ rfl) (hi trivial)
    | gotpcrel => exact .none
    | gotpcrelx => exact .none
    | rexGotpcrelx => exact .none
    | unsupported => exact .none
  | some value =>
    rw [hdefinition] at hvalue hvalue'
    have hsome : definition (view m base len) (rSym (rInfo (view m base len) o)) ≠ none := by
      simp [hdefinition]
    have hpos := hnonnull (hdefined.mpr hsome)
    have hpos' := hnonnull' (hdefined'.mpr hsome)
    rw [hvalue] at hfields hpos
    rw [hvalue'] at hpos'
    rw [hvalue, hvalue']
    have hrelative := fun hroom : a + 4 ≤ len =>
      corresponds_relative i value (rAddend (view m base len) o) (hplaces hroom).1 (hplaces hroom).2
    dsimp only at hfields hpos hpos' ⊢
    simp only [if_pos hpos, if_pos hpos'] at hfields ⊢
    generalize rType (rInfo (view m base len) o) = c at hi hfields ⊢
    cases c with
    | none => exact .none
    | abs64 => exact habsolute (hfields _ rfl) (hi trivial)
    | pc32 => exact .some (hrelative (hfields _ rfl))
    | plt32 => exact .some (hrelative (hfields _ rfl))
    | relative => exact habsolute (hfields _ rfl) (hi trivial)
    | abs32 => exact habsolute (hfields _ rfl) (hi trivial)
    | abs32s => exact habsolute (hfields _ rfl) (hi trivial)
    | gotpcrel => exact .some (hrelative (hfields _ rfl))
    | gotpcrelx => exact .some (hrelative (hfields _ rfl))
    | rexGotpcrelx => exact .some (hrelative (hfields _ rfl))
    | unsupported => exact .none

end Both

theorem not_absolute {e : ℕ} (hc : rType (rInfo m e) = .pc32)
    (hs : Defined m t (rSym (rInfo m e))) : ¬ Absolute m t e := by
  unfold Absolute
  rw [hc]
  exact not_not.mpr hs

theorem placed_small (hbase : base = 4096 ∨ base = 8192) :
    Placed (mapped base) base 440 ⟨base + 320, 2, base + 368⟩ := by
  have hall : ∀ b ∈ [4096, 8192], loadBytes (mapped b) b 4 = elfMagic ∧
      findTables (mapped b) b = some ⟨b + 320, 2, b + 368⟩ ∧
      Undisturbed (mapped b) b ⟨b + 320, 2, b + 368⟩ ∧
      shoff (mapped b) b + 64 * shnum (mapped b) b ≤ 440 := by decide +kernel
  have hcontents : ∀ b ∈ [4096, 8192], ∀ i < shnum (mapped b) b,
      shOffset (mapped b) (sectionHeader (addSize b (shoff (mapped b) b)) i) +
        shSize (mapped b) (sectionHeader (addSize b (shoff (mapped b) b)) i) ≤ 440 := by
    decide +kernel
  have hfields : ∀ b ∈ [4096, 8192], ∀ e ∈ entries (mapped b) b,
      (relocation (mapped b) b ⟨b + 320, 2, b + 368⟩ e).all
        (fun p => rOffset (mapped b) e + p.width ≤ 440) = true ∧
      symValue (mapped b) b ⟨b + 320, 2, b + 368⟩ (rSym (rInfo (mapped b) e)) ≠ 0 := by
    decide +kernel
  have hmem : base ∈ [4096, 8192] := by simpa using hbase
  obtain ⟨hmagic, hfound, hundisturbed, hsections⟩ := hall base hmem
  refine ⟨by omega, by omega, hmagic, hfound, hundisturbed, by decide, hsections,
    fun i hi sec hsec _ => hsec ▸ hcontents base hmem i hi, fun e he p hp => ?_,
    fun e he _ => (hfields base hmem e he).2⟩
  have hroom := (hfields base hmem e he).1
  rw [hp] at hroom
  exact of_decide_eq_true hroom

end Ppdb.ElfPlacement
