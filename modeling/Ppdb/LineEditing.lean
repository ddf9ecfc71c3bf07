import Ppdb.TerminatedPieces
import Mathlib.Data.Int.Order.Basic

/-!
The line replacement tool. A file is read with its line breaks translated, a
range of its lines is replaced, and all of it is written back. The zeros of the
documented pairs `0,0` and `-1,0` are counted from the end before the pairs are
looked for, so neither is found.
-/

namespace Ppdb.LineEditing

open TerminatedPieces

abbrev Text := List Char

def isNewline (c : Char) : Bool := c = '\n'

/-- The characters at which `str.splitlines` breaks. -/
def isBoundary (c : Char) : Bool :=
  [0x0A, 0x0B, 0x0C, 0x0D, 0x1C, 0x1D, 0x1E, 0x85, 0x2028, 0x2029].contains c.toNat

def replaceCrlf : Text → Text
  | '\r' :: '\n' :: cs => '\n' :: replaceCrlf cs
  | c :: cs => c :: replaceCrlf cs
  | [] => []

def replaceCr (content : Text) : Text := content.map fun c => if c = '\r' then '\n' else c

/-- What a file opened in text mode makes of its line breaks. -/
def universalNewlines (content : Text) : Text := replaceCr (replaceCrlf content)

def readlines (content : Text) : List Text := splitAfter isNewline (universalNewlines content)

def normalizeLineEndings (content : Text) : Text :=
  if content = [] then content
  else
    let content := replaceCr (replaceCrlf content)
    if content.getLast? = some '\n' then content else content ++ ['\n']

def splitlines : Text → List Text
  | [] => []
  | '\r' :: '\n' :: cs => ['\r', '\n'] :: splitlines cs
  | c :: cs => if isBoundary c then [c] :: splitlines cs else pushHead c (splitlines cs)

/-- `lines[first:stop] = content` for bounds that are not negative -/
def setSlice (lines : List Text) (first stop : ℕ) (content : List Text) : List Text :=
  lines.take first ++ content ++ lines.drop (max first stop)

def endWithNewline (lines : List Text) : List Text :=
  match lines.getLast? with
  | none => lines
  | some l => if l.getLast? = some '\n' then lines else lines.dropLast ++ [l ++ ['\n']]

def adjust (total : ℕ) (start stop : ℤ) : ℤ × ℤ :=
  let start := if start > 0 then start else total + start + 1
  let stop := if stop > 0 then stop else total + stop + 1
  let start := max 1 (min start (total + 1))
  let stop := max start (min stop (total + 1))
  if start = 0 ∧ stop = 0 then (1, 1) else (start, stop)

def newLines (lines : List Text) (start stop : ℤ) (content : Text) : List Text :=
  let total := lines.length
  let range := adjust total start stop
  let lines := if range.1 = total + 1 then lines ++ [[]] else lines
  let content := splitlines (normalizeLineEndings content)
  endWithNewline (setSlice lines (range.1 - 1).toNat range.2.toNat content)

/-- The file and its backup, `none` where there is none. -/
structure Disk where
  file : Option Text
  backup : Option Text
  deriving DecidableEq, Repr

/-- How the system takes what a call writes: all of it goes into the file; or the
attempt raises and leaves something else there, and the backup is written; or the
attempt for the backup raises as well. -/
inductive Write
  | done
  | failed (left : Text)
  | lost (left : Text) (backup : Option Text)
  deriving DecidableEq, Repr

/-- How a call ends: `osError` says where the backup is, the others are what the
write of the backup has raised. -/
inductive Outcome
  | ok
  | osError
  | backupError
  | encodeError
  deriving DecidableEq, Repr

def ensureFileExists (d : Disk) : Disk :=
  match d.file with
  | none => { d with file := some [] }
  | some _ => d

def replaceLines (w : Write) (d : Disk) (start stop : ℤ) (content : Text) : Disk × Outcome :=
  let d := ensureFileExists d
  let text := (newLines (readlines (d.file.getD [])) start stop content).flatten
  match w with
  | .done => ({ d with file := some text }, .ok)
  | .failed left => (⟨some left, some text⟩, .osError)
  | .lost left backup => (⟨some left, backup⟩, .backupError)

/-- What `f.writelines(lines)` writes before it comes to a line that cannot be
encoded. The content has its first surrogate behind `before`, and the line with
the surrogate begins where `before` was last broken. -/
def linesBefore (lines : List Text) (start stop : ℤ) (before : Text) : List Text :=
  let range := adjust lines.length start stop
  let broken := (splitlines (replaceCr (replaceCrlf before))).filter fun l => l.getLast?.any isBoundary
  lines.take (range.1 - 1).toNat ++ broken

/-- `replace_lines` for a content with a surrogate: the file is truncated before
the encoder raises, and the backup is given the same lines. -/
def replaceUnencodable (w : Write) (d : Disk) (start stop : ℤ) (before : Text) : Disk × Outcome :=
  let d := ensureFileExists d
  let text := (linesBefore (readlines (d.file.getD [])) start stop before).flatten
  match w with
  | .done => (⟨some text, some text⟩, .encodeError)
  | .failed left => (⟨some left, some text⟩, .encodeError)
  | .lost left backup => (⟨some left, backup⟩, .backupError)

def Disk.lines (d : Disk) : List Text := readlines (d.file.getD [])

/-! ### The documented rules -/

def contentLines (content : Text) : List Text :=
  splitAfter isNewline (close isNewline '\n' content)

def clamp (total : ℕ) (k : ℤ) : ℕ := (max 1 (min k (total + 1))).toNat

def fromEnd (total : ℕ) (k : ℤ) : ℤ := if k < 0 then total + k + 1 else k

/-- The lines from `first` to `last` are replaced; no range ends before it begins. -/
def replaced (lines : List Text) (first last : ℕ) (content : List Text) : List Text :=
  lines.take (first - 1) ++ content ++ lines.drop (max first last)

/-- The lines that the rules ask for. -/
def documented (lines : List Text) (start stop : ℤ) (content : List Text) : List Text :=
  if start = 0 ∧ stop = 0 then content ++ lines
  else if start = -1 ∧ stop = 0 then lines ++ content
  else
    let total := lines.length
    replaced lines (clamp total (fromEnd total start)) (clamp total (fromEnd total stop)) content

example : documented [['a', '\n'], ['b', '\n']] (-1) (-1) [['x', '\n']] =
    [['a', '\n'], ['x', '\n']] := by decide

/-! ### Texts and lines -/

theorem universalNewlines_of_not_mem {t : Text} (h : '\r' ∉ t) : universalNewlines t = t := by
  have hcrlf : replaceCrlf t = t := by
    induction t with
    | nil => rfl
    | cons c cs ih =>
      have hc : c ≠ '\r' := fun heq => h (heq ▸ List.mem_cons_self)
      rw [replaceCrlf, ih fun hmem => h (List.mem_cons_of_mem _ hmem)]
      exact fun _ heq _ => hc heq
  unfold universalNewlines replaceCr
  rw [hcrlf]
  refine (List.map_congr_left ?_).trans (List.map_id t)
  intro c hc
  exact if_neg fun heq : c = '\r' => h (heq ▸ hc)

theorem not_mem_universalNewlines (t : Text) : '\r' ∉ universalNewlines t := by
  intro hmem
  obtain ⟨c, _, hc⟩ := List.mem_map.mp hmem
  split_ifs at hc with h
  · cases hc
  · exact h hc

theorem isNewline_iff {c : Char} : isNewline c = true ↔ c = '\n' := by simp [isNewline]

/-- Content without carriage returns is only closed. -/
theorem normalizeLineEndings_eq {t : Text} (h : '\r' ∉ t) :
    normalizeLineEndings t = close isNewline '\n' t := by
  have hsame : replaceCr (replaceCrlf t) = t := universalNewlines_of_not_mem h
  unfold normalizeLineEndings close
  by_cases hnil : t = []
  · rw [if_pos hnil, if_pos (hnil ▸ closed_nil)]
  · simp only [if_neg hnil, hsame]
    refine if_congr ?_ rfl rfl
    obtain ⟨init, c, rfl⟩ := (List.eq_nil_or_concat' t).resolve_left hnil
    rw [closed_concat, isNewline_iff, List.getLast?_concat, Option.some.injEq]

/-- Nothing of the content is lost where it is broken, and no piece is empty. -/
theorem splitlines_spec (t : Text) : (splitlines t).flatten = t ∧ ∀ l ∈ splitlines t, l ≠ [] := by
  fun_induction splitlines t with
  | case1 => exact ⟨rfl, fun _ hl => (nomatch hl)⟩
  | case2 cs ih =>
    refine ⟨by rw [List.flatten_cons, ih.1]; rfl, ?_⟩
    exact List.forall_mem_cons.mpr ⟨List.cons_ne_nil _ _, ih.2⟩
  | case3 c cs _ _ ih =>
    refine ⟨by rw [List.flatten_cons, ih.1]; rfl, ?_⟩
    exact List.forall_mem_cons.mpr ⟨List.cons_ne_nil _ _, ih.2⟩
  | case4 c cs _ _ ih =>
    refine ⟨by rw [flatten_pushHead, ih.1], ?_⟩
    cases hsplit : splitlines cs with
    | nil => exact List.forall_mem_cons.mpr ⟨List.cons_ne_nil _ _, fun _ hl => (nomatch hl)⟩
    | cons l ls =>
      have hrest := fun m hm => ih.2 m (hsplit ▸ List.mem_cons_of_mem l hm)
      exact List.forall_mem_cons.mpr ⟨List.cons_ne_nil _ _, hrest⟩

theorem endWithNewline_of_closed {ls : List Text} (hne : ∀ l ∈ ls, l ≠ [])
    (h : Closed isNewline ls.flatten) : endWithNewline ls = ls := by
  rcases List.eq_nil_or_concat' ls with rfl | ⟨init, l, rfl⟩
  · rfl
  · obtain ⟨body, c, rfl⟩ := (List.eq_nil_or_concat' l).resolve_left (hne l (by simp))
    rw [List.flatten_append, List.flatten_singleton, ← List.append_assoc, closed_concat,
      isNewline_iff] at h
    simp [endWithNewline, h]

/-! ### Line numbers -/

/-- A number as the code rewrites it: zero, too, counts from the end. -/
def wrap (total : ℕ) (k : ℤ) : ℤ := if k > 0 then k else total + k + 1

theorem clamp_pos (total : ℕ) (k : ℤ) : 1 ≤ clamp total k := by
  unfold clamp
  omega

/-- After the numbers have been adjusted neither is zero. -/
theorem adjust_eq (total : ℕ) (start stop : ℤ) :
    adjust total start stop = (((clamp total (wrap total start) : ℕ) : ℤ),
      ((max (clamp total (wrap total start)) (clamp total (wrap total stop)) : ℕ) : ℤ)) := by
  have hpos := clamp_pos total (wrap total start)
  have hstart : (if start > 0 then start else total + start + 1) = wrap total start := rfl
  have hstop : (if stop > 0 then stop else total + stop + 1) = wrap total stop := rfl
  have hfirst : max 1 (min (wrap total start) (total + 1)) = clamp total (wrap total start) := by
    unfold clamp
    omega
  have hlast : max (clamp total (wrap total start) : ℤ) (min (wrap total stop) (total + 1)) =
      (max (clamp total (wrap total start)) (clamp total (wrap total stop)) : ℕ) := by
    unfold clamp at hpos ⊢
    omega
  have hne : ¬ ((clamp total (wrap total start) : ℤ) = 0 ∧
      ((max (clamp total (wrap total start)) (clamp total (wrap total stop)) : ℕ) : ℤ) = 0) := by
    omega
  simp only [adjust, hstart, hstop, hfirst, hlast, if_neg hne]

/-- The empty line put at the end is the one that is replaced. -/
theorem setSlice_concat (lines content : List Text) {last : ℕ} (h : lines.length + 1 ≤ last) :
    setSlice (lines ++ [[]]) lines.length last content =
      setSlice lines lines.length last content := by
  have hmax : lines.length ≤ max lines.length last := Nat.le_max_left _ _
  unfold setSlice
  rw [List.take_left' rfl, List.take_length, List.drop_of_length_le hmax,
    List.drop_of_length_le (by rw [List.length_append, List.length_singleton]; omega)]

theorem newLines_eq (lines : List Text) (start stop : ℤ) (content : Text) :
    newLines lines start stop content =
      endWithNewline (replaced lines (clamp lines.length (wrap lines.length start))
        (clamp lines.length (wrap lines.length stop))
        (splitlines (normalizeLineEndings content))) := by
  have hpos := clamp_pos lines.length (wrap lines.length start)
  unfold newLines replaced
  simp only [adjust_eq]
  generalize clamp lines.length (wrap lines.length start) = first at hpos
  generalize clamp lines.length (wrap lines.length stop) = last
  have hfirst : ((first : ℤ) - 1).toNat = first - 1 := by omega
  rw [hfirst, Int.toNat_natCast]
  congr 1
  by_cases hend : (first : ℤ) = lines.length + 1
  · have htake : first - 1 = lines.length := by omega
    rw [if_pos hend, htake, setSlice_concat lines _ (by omega), setSlice]
    congr 2
    omega
  · rw [if_neg hend, setSlice]
    congr 2
    omega

/-! ### Contents that cannot be encoded -/

theorem isBoundary_ne {c : Char} (hc : isBoundary c = false) : c ≠ '\n' ∧ c ≠ '\r' := by
  constructor
  · rintro rfl
    exact absurd hc (by decide)
  · rintro rfl
    exact absurd hc (by decide)

theorem universalNewlines_append {c : Char} (hn : c ≠ '\n') (hr : c ≠ '\r') (t rest : Text) :
    universalNewlines (t ++ c :: rest) = universalNewlines t ++ c :: universalNewlines rest := by
  have hcrlf : replaceCrlf (t ++ c :: rest) = replaceCrlf t ++ c :: replaceCrlf rest := by
    fun_induction replaceCrlf t with
    | case1 cs ih => rw [List.cons_append, List.cons_append, replaceCrlf, ih, List.cons_append]
    | case2 d cs hd ih =>
      rw [List.cons_append, replaceCrlf, ih, List.cons_append]
      intro ds hcr heq
      cases cs with
      | nil => exact hn (List.cons.inj heq).1
      | cons e cs => exact hd cs hcr (by rw [(List.cons.inj heq).1])
    | case3 =>
      rw [List.nil_append, replaceCrlf]
      · rfl
      · exact fun _ hcr _ => hr hcr
  unfold universalNewlines replaceCr
  rw [hcrlf, List.map_append, List.map_cons, if_neg hr]

theorem splitlines_eq {t : Text} (h : '\r' ∉ t) : splitlines t = splitAfter isBoundary t := by
  fun_induction splitlines t with
  | case1 => rfl
  | case2 cs ih => exact absurd List.mem_cons_self h
  | case3 c cs _ hc ih =>
    rw [splitAfter_of_end hc, ih fun hmem => h (List.mem_cons_of_mem c hmem)]
  | case4 c cs _ hc ih =>
    rw [splitAfter_of_body (Bool.eq_false_iff.mpr hc),
      ih fun hmem => h (List.mem_cons_of_mem c hmem)]

/-- A newline put at the end is not put before a line. -/
theorem endWithNewline_append {c : Char} (pre : List Text) {l : Text} (post : List Text)
    (hc : c ∈ l) : ∃ l' post', endWithNewline (pre ++ l :: post) = pre ++ l' :: post' ∧ c ∈ l' := by
  unfold endWithNewline
  rcases List.eq_nil_or_concat' post with rfl | ⟨init, m, rfl⟩
  · rw [List.getLast?_concat, List.dropLast_concat]
    dsimp only
    split
    · exact ⟨l, [], rfl, hc⟩
    · exact ⟨l ++ ['\n'], [], rfl, List.mem_append_left _ hc⟩
  · have hsplit : pre ++ l :: (init ++ [m]) = (pre ++ l :: init) ++ [m] := by simp
    rw [hsplit, List.getLast?_concat, List.dropLast_concat]
    dsimp only
    split
    · exact ⟨l, init ++ [m], hsplit.symm, hc⟩
    · exact ⟨l, init ++ [m ++ ['\n']], by simp, hc⟩

/-- The lines before the one with the first surrogate: whatever character that
breaks no line is in its place, they are those written before the one with that
character. -/
def Precede (lines : List Text) (start stop : ℤ) (before : Text) (pieces : List Text) : Prop :=
  ∀ c rest, isBoundary c = false → ∃ l after,
    newLines lines start stop (before ++ c :: rest) = pieces ++ l :: after ∧ c ∈ l

theorem precede_linesBefore (lines : List Text) (start stop : ℤ) (before : Text) :
    Precede lines start stop before (linesBefore lines start stop before) := by
  intro c rest hc
  obtain ⟨hn, hr⟩ := isBoundary_ne hc
  obtain ⟨tail, htail, hcontent⟩ : ∃ tail, '\r' ∉ tail ∧
      normalizeLineEndings (before ++ c :: rest) = universalNewlines before ++ c :: tail := by
    have huniversal := universalNewlines_append hn hr before rest
    have hfree := not_mem_universalNewlines rest
    unfold universalNewlines at huniversal hfree ⊢
    unfold normalizeLineEndings
    rw [if_neg (by simp)]
    dsimp only
    rw [huniversal]
    split
    · exact ⟨_, hfree, rfl⟩
    · exact ⟨replaceCr (replaceCrlf rest) ++ ['\n'], by simpa using hfree, by simp⟩
  have hfree : '\r' ∉ universalNewlines before ++ c :: tail := by
    simp [not_mem_universalNewlines, Ne.symm hr, htail]
  obtain ⟨l, ls, hsplit, hmem⟩ := splitAfter_before hc (universalNewlines before) tail
  have hbroken : splitlines (replaceCr (replaceCrlf before)) =
      splitAfter isBoundary (universalNewlines before) :=
    splitlines_eq (not_mem_universalNewlines before)
  have hpos := clamp_pos lines.length (wrap lines.length start)
  rw [newLines_eq, hcontent, splitlines_eq hfree, hsplit]
  unfold linesBefore replaced
  simp only [adjust_eq, hbroken]
  generalize clamp lines.length (wrap lines.length start) = first at hpos
  have hfirst : ((first : ℤ) - 1).toNat = first - 1 := by omega
  rw [hfirst, ← List.append_assoc, List.append_assoc, List.cons_append]
  exact endWithNewline_append _ _ hmem

/-! ### Reading the file again -/

def IsLine (l : Text) : Prop := IsPiece isNewline l ∧ '\r' ∉ l

theorem Disk.isLine {d : Disk} (h : ∀ l ∈ d.lines, l.getLast? = some '\n') :
    ∀ l ∈ d.lines, IsLine l := by
  have hclosed : Closed isNewline (universalNewlines (d.file.getD [])) := by
    rw [← flatten_splitAfter (p := isNewline) (universalNewlines _)]
    refine closed_flatten fun l hl x hx => ?_
    rw [h l hl] at hx
    exact isNewline_iff.mpr (Option.some.inj hx).symm
  intro l hl
  refine ⟨isPiece_of_mem hclosed l hl, fun hmem => ?_⟩
  apply not_mem_universalNewlines (d.file.getD [])
  rw [← flatten_splitAfter (p := isNewline) (universalNewlines _)]
  exact List.mem_flatten.mpr ⟨l, hl, hmem⟩

theorem not_mem_close {t : Text} (h : '\r' ∉ t) : '\r' ∉ close isNewline '\n' t := by
  unfold close
  split_ifs with hclosed
  · exact h
  · simpa using h

/-- The lines written are the lines that are read. -/
theorem readlines_newLines {lines : List Text} {content : Text} (hlines : ∀ l ∈ lines, IsLine l)
    (hcontent : '\r' ∉ content) (start stop : ℤ) :
    readlines (newLines lines start stop content).flatten =
      replaced lines (clamp lines.length (wrap lines.length start))
        (clamp lines.length (wrap lines.length stop)) (contentLines content) := by
  rw [newLines_eq, normalizeLineEndings_eq hcontent]
  unfold replaced
  generalize clamp lines.length (wrap lines.length start) = first
  generalize clamp lines.length (wrap lines.length stop) = last
  have hpre : ∀ l ∈ lines.take (first - 1), IsLine l :=
    fun l hl => hlines l (List.mem_of_mem_take hl)
  have hpost : ∀ l ∈ lines.drop (max first last), IsLine l :=
    fun l hl => hlines l (List.mem_of_mem_drop hl)
  generalize lines.take (first - 1) = pre at hpre
  generalize lines.drop (max first last) = post at hpost
  obtain ⟨hflat, hne⟩ := splitlines_spec (close isNewline '\n' content)
  have hpreClosed : Closed isNewline pre.flatten := closed_flatten fun l hl => (hpre l hl).1.closed
  have hmidClosed : Closed isNewline (close isNewline '\n' content) := closed_close rfl content
  have htext : (pre ++ splitlines (close isNewline '\n' content) ++ post).flatten =
      pre.flatten ++ (close isNewline '\n' content ++ post.flatten) := by
    rw [List.flatten_append, List.flatten_append, hflat, List.append_assoc]
  have hclosed : Closed isNewline
      (pre ++ splitlines (close isNewline '\n' content) ++ post).flatten := by
    rw [htext]
    exact hpreClosed.append (hmidClosed.append (closed_flatten fun l hl => (hpost l hl).1.closed))
  have hnonempty : ∀ l ∈ pre ++ splitlines (close isNewline '\n' content) ++ post, l ≠ [] := by
    intro l hl
    rcases List.mem_append.mp hl with hl | hl
    · rcases List.mem_append.mp hl with hl | hl
      · exact (hpre l hl).1.ne_nil
      · exact hne l hl
    · exact (hpost l hl).1.ne_nil
  have hfree : '\r' ∉ pre.flatten ++ (close isNewline '\n' content ++ post.flatten) := by
    simp only [List.mem_append, List.mem_flatten, not_or, not_exists, not_and]
    exact ⟨fun l hl => (hpre l hl).2, not_mem_close hcontent, fun l hl => (hpost l hl).2⟩
  rw [endWithNewline_of_closed hnonempty hclosed, htext, readlines,
    universalNewlines_of_not_mem hfree, splitAfter_append hpreClosed, splitAfter_append hmidClosed,
    splitAfter_flatten fun l hl => (hpre l hl).1, splitAfter_flatten fun l hl => (hpost l hl).1,
    ← List.append_assoc]
  rfl

/-! ### Where the rules are kept -/

/-- Neither number is zero, or the file has no lines, or the content may as well
stand behind the lines as in front of them, or the range from a line given by
its number runs to the end of the file anyway. -/
def Harmless (lines : List Text) (start stop : ℤ) (content : List Text) : Prop :=
  (start ≠ 0 ∧ stop ≠ 0) ∨ lines = [] ∨
    (start = 0 ∧ stop = 0 ∧ content ++ lines = lines ++ content) ∨
    (stop = 0 ∧ start ≠ 0 ∧ start ≠ -1 ∧ ((lines.length : ℤ) ≤ start ∨ lines.length = 1))

theorem wrap_eq_fromEnd (total : ℕ) {k : ℤ} (h : k ≠ 0) : wrap total k = fromEnd total k := by
  unfold wrap fromEnd
  split_ifs <;> omega

theorem clamp_wrap_zero (total : ℕ) : clamp total (wrap total 0) = total + 1 := by
  unfold clamp wrap
  omega

theorem clamp_zero (total : ℕ) : clamp total (fromEnd total 0) = 1 := by
  unfold clamp fromEnd
  omega

section Replaced
variable (lines content : List Text) (first last : ℕ)

/-- Behind the last line nothing is replaced. -/
theorem replaced_behind : replaced lines (lines.length + 1) last content = lines ++ content := by
  have hmax : lines.length ≤ max (lines.length + 1) last := by omega
  rw [replaced, Nat.add_sub_cancel, List.take_length, List.drop_of_length_le hmax, List.append_nil]

theorem replaced_to_end :
    replaced lines first (lines.length + 1) content = lines.take (first - 1) ++ content := by
  have hmax : lines.length ≤ max first (lines.length + 1) := by omega
  rw [replaced, List.drop_of_length_le hmax, List.append_nil]

theorem replaced_nil : replaced [] first last content = content := by
  rw [replaced, List.take_nil, List.drop_nil, List.nil_append, List.append_nil]

end Replaced

/-- The zeros counted from the end do no harm exactly in these cases. -/
theorem replaced_eq_documented_iff (lines content : List Text) (start stop : ℤ) :
    replaced lines (clamp lines.length (wrap lines.length start))
        (clamp lines.length (wrap lines.length stop)) content =
      documented lines start stop content ↔ Harmless lines start stop content := by
  by_cases hnil : lines = []
  · subst hnil
    refine iff_of_true ?_ (Or.inr (Or.inl rfl))
    unfold documented
    split_ifs <;> simp only [replaced_nil, List.append_nil, List.nil_append]
  have hlen : 0 < lines.length := List.length_pos_of_ne_nil hnil
  by_cases hstart : start = 0
  · subst hstart
    rw [clamp_wrap_zero, replaced_behind]
    by_cases hstop : stop = 0
    · subst hstop
      simp [documented, Harmless, hnil, eq_comm]
    · -- a range from line 1 on drops at least that line
      refine iff_of_false ?_ (by simp [Harmless, hnil, hstop])
      intro heq
      have hcount := congrArg List.length heq
      simp only [documented, hstop, and_false, if_false, clamp_zero, replaced, List.length_append,
        List.length_take, List.length_drop] at hcount
      omega
  by_cases hstop : stop = 0
  · subst hstop
    rw [clamp_wrap_zero, replaced_to_end, wrap_eq_fromEnd _ hstart]
    by_cases hlast : start = -1
    · subst hlast
      refine iff_of_false ?_ (by simp [Harmless, hnil])
      intro heq
      have hcount := congrArg List.length heq
      have hfirst : clamp lines.length (fromEnd lines.length (-1)) = lines.length := by
        unfold clamp fromEnd
        omega
      simp only [documented, hstart, and_true, if_true, if_false, hfirst, List.length_append,
        List.length_take] at hcount
      omega
    · -- the rest of the file is dropped, where the rules keep what follows the first line
      have hrest : documented lines start 0 content =
          lines.take (clamp lines.length (fromEnd lines.length start) - 1) ++ content ++
            lines.drop (clamp lines.length (fromEnd lines.length start)) := by
        have hpos := clamp_pos lines.length (fromEnd lines.length start)
        simp [documented, hstart, hlast, clamp_zero, replaced, Nat.max_eq_left hpos]
      have hcut : lines.length ≤ clamp lines.length (fromEnd lines.length start) ↔
          (lines.length : ℤ) ≤ start ∨ lines.length = 1 := by
        unfold clamp fromEnd
        split_ifs <;> omega
      rw [hrest, List.self_eq_append_right, List.drop_eq_nil_iff, hcut]
      simp [Harmless, hnil, hstart, hlast]
  · refine iff_of_true ?_ (Or.inl ⟨hstart, hstop⟩)
    rw [wrap_eq_fromEnd _ hstart, wrap_eq_fromEnd _ hstop]
    simp [documented, hstart, hstop]

/-- The file on disk as its lines change from one call to the next. -/
theorem lines_replaceLines {d : Disk} (hlines : ∀ l ∈ d.lines, l.getLast? = some '\n')
    {content : Text} (hcontent : '\r' ∉ content) (start stop : ℤ) :
    (replaceLines .done d start stop content).1.lines =
      replaced d.lines (clamp d.lines.length (wrap d.lines.length start))
        (clamp d.lines.length (wrap d.lines.length stop)) (contentLines content) := by
  have hsame : readlines ((ensureFileExists d).file.getD []) = d.lines := by
    unfold ensureFileExists Disk.lines
    cases hfile : d.file with
    | none => rfl
    | some t => simp [hfile]
  have hread := readlines_newLines (Disk.isLine hlines) hcontent start stop
  rw [← hread, ← hsame]
  rfl

/-- `replace_lines` follows its rules exactly if the zeros do no harm. -/
theorem replaceLines_documented_iff {d : Disk} (hlines : ∀ l ∈ d.lines, l.getLast? = some '\n')
    {content : Text} (hcontent : '\r' ∉ content) (start stop : ℤ) :
    (replaceLines .done d start stop content).1.lines =
        documented d.lines start stop (contentLines content) ↔
      Harmless d.lines start stop (contentLines content) := by
  rw [lines_replaceLines hlines hcontent]
  exact replaced_eq_documented_iff d.lines (contentLines content) start stop

/-- Line 2 of three is replaced as documented. -/
theorem replaceLines_documented_second :
    (replaceLines .done ⟨some "a\nb\nc\n".toList, none⟩ 2 (-2) "x".toList).1.lines =
      ["a\n".toList, "x\n".toList, "c\n".toList] := by
  have hcontent : '\r' ∉ "x".toList := by decide
  have hiff := replaceLines_documented_iff (d := ⟨some "a\nb\nc\n".toList, none⟩)
    (by decide) hcontent 2 (-2)
  rw [hiff.mpr (Or.inl (by decide))]
  decide

/-- `0,0` puts the content behind the file and `-1,0` replaces its last line. -/
theorem replaceLines_zero_misplaced :
    let d : Disk := ⟨some "b\n".toList, none⟩
    (replaceLines .done d 0 0 "a".toList).1.lines = ["b\n".toList, "a\n".toList] ∧
      (replaceLines .done d 0 0 "a".toList).1.lines ≠
        documented d.lines 0 0 (contentLines "a".toList) ∧
      (replaceLines .done d (-1) 0 "a".toList).1.lines = ["a\n".toList] ∧
      (replaceLines .done d (-1) 0 "a".toList).1.lines ≠
        documented d.lines (-1) 0 (contentLines "a".toList) := by
  decide

end Ppdb.LineEditing
