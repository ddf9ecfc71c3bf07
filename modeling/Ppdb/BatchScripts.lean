import Ppdb.LineEditing
import Ppdb.PythonText
import Ppdb.UnicodeEscapes

/-!
Scripts for the line replacement tool: one edit on each line, its content with
the escapes of a string literal. Every edit can be written as such a line, and
a script does to the lines of the file what its edits say, one after the other,
up to the first line that is wrong or the first write that fails. A content with
half of a surrogate pair can be read but not written, neither to the file nor to
its backup.
-/

namespace Ppdb.BatchScripts

open TerminatedPieces LineEditing PythonText UnicodeEscapes

/-- What the version of Unicode decides: the decimal digits beyond ASCII, and the
characters by their names. -/
structure CharacterData where
  digit : Char → Option (Fin 10)
  named : List UInt8 → Option Char

structure Edit where
  start : ℤ
  stop : ℤ
  content : Text
  deriving DecidableEq, Repr

/-- What a line of a script asks for. In the second kind `before` is what comes
before the first surrogate of the content. -/
inductive Command
  | edit (e : Edit)
  | unencodable (start stop : ℤ) (before : Text)
  deriving DecidableEq, Repr

inductive Complaint
  | invalidRange (line : ℕ) (range : Text)
  | invalidNumbers (line : ℕ) (range : Text)
  | encodeError (line : ℕ)
  | osError
  | backupError
  deriving DecidableEq, Repr

def commands (script : Text) : List Text :=
  (splitlines script).map fun l => l.takeWhile fun c => !isBoundary c

def digitLimit : ℕ := 4300

section Tool
variable (u : CharacterData)

/-- The code points of the content. One whose escapes are wrong is taken as it is. -/
def decodeContent (content : Text) : List ℕ :=
  (unicodeEscape u.named .plain (rawUnicodeEscape content)).getD (content.map Char.toNat)

def parseCommand (line : ℕ) (cmd : Text) : Except Complaint (Option Command) :=
  let cmd := strip cmd
  if cmd = [] then .ok none
  else if ':' ∉ cmd then .ok none
  else
    let range := cmd.takeWhile fun c => c ≠ ':'
    let content := (cmd.dropWhile fun c => c ≠ ':').tail
    if ',' ∉ range then .error (.invalidRange line range)
    else
      match range.splitOn ',' with
      | [first, last] =>
        match int u.digit digitLimit (strip first), int u.digit digitLimit (strip last) with
        | some start, some stop =>
          let points := decodeContent u content
          if Encodable points then .ok (some (.edit ⟨start, stop, points.map Char.ofNat⟩))
          else
            let before := points.takeWhile fun n => n.isValidChar
            .ok (some (.unencodable start stop (before.map Char.ofNat)))
        | _, _ => .error (.invalidNumbers line range)
      | _ => .error (.invalidNumbers line range)

def carryOut (w : Write) (d : Disk) : Command → Disk × Outcome
  | .edit e => replaceLines w d e.start e.stop e.content
  | .unencodable start stop before => replaceUnencodable w d start stop before

/-- The loop of `process_batch_input` from one line on -/
def runCommands (writes : ℕ → Write) : ℕ → List Text → Disk → Disk × Option Complaint
  | _, [], d => (d, none)
  | line, cmd :: cmds, d =>
    match parseCommand u line cmd with
    | .error e => (d, some e)
    | .ok none => runCommands writes (line + 1) cmds d
    | .ok (some command) =>
      match carryOut (writes line) d command with
      | (d, .ok) => runCommands writes (line + 1) cmds d
      | (d, .osError) => (d, some .osError)
      | (d, .backupError) => (d, some .backupError)
      | (d, .encodeError) => (d, some (.encodeError line))

/-- `process_batch_input`, given how the write for each line goes -/
def processBatchInput (writes : ℕ → Write) (d : Disk) (script : Text) : Disk × Option Complaint :=
  runCommands u writes 1 (commands script) (ensureFileExists d)

/-! ### What a script says -/

def complaintOf (line : ℕ) (cmd : Text) : Option Complaint :=
  match parseCommand u line cmd with
  | .error e => some e
  | .ok (some (.unencodable _ _ _)) => some (.encodeError line)
  | .ok _ => none

/-- The edits up to the first line that is wrong, and what is wrong with it -/
def readCommands : ℕ → List Text → List Edit × Option Complaint
  | _, [] => ([], none)
  | line, cmd :: cmds =>
    match parseCommand u line cmd with
    | .error e => ([], some e)
    | .ok none => readCommands (line + 1) cmds
    | .ok (some (.edit e)) =>
      (e :: (readCommands (line + 1) cmds).1, (readCommands (line + 1) cmds).2)
    | .ok (some (.unencodable _ _ _)) => ([], some (.encodeError line))

def readScript (script : Text) : List Edit × Option Complaint :=
  readCommands u 1 (commands script)

end Tool

def writeEdit (e : Edit) : Text :=
  decimal e.start ++ ',' :: (decimal e.stop ++ ':' :: e.content.flatMap (quote isSpace))

def writeScript (edits : List Edit) : Text := (edits.map fun e => writeEdit e ++ ['\n']).flatten

def edited (lines : List Text) (e : Edit) : List Text :=
  replaced lines (clamp lines.length (wrap lines.length e.start))
    (clamp lines.length (wrap lines.length e.stop)) (contentLines (universalNewlines e.content))

def Convertible (e : Edit) : Prop :=
  (Nat.toDigits 10 e.start.natAbs).length ≤ digitLimit ∧
    (Nat.toDigits 10 e.stop.natAbs).length ≤ digitLimit

variable {u : CharacterData} {e : Edit} {edits : List Edit} {t l : Text} {lines : List Text}
  {d : Disk}

/-! ### Reading a script that was written -/

theorem isSpace_of_boundary {c : Char} (h : isBoundary c = true) : isSpace c = true := by
  unfold isBoundary at h
  unfold isSpace
  simp only [List.contains_eq_mem, List.mem_cons, List.not_mem_nil, or_false,
    decide_eq_true_eq] at h ⊢
  omega

theorem isSpace_lt {c : Char} (h : isSpace c = true) : c.toNat < 65536 := by
  unfold isSpace at h
  simp only [List.contains_eq_mem, List.mem_cons, List.not_mem_nil, or_false,
    decide_eq_true_eq] at h
  omega

theorem isSpace_hexDigit {n k : ℕ} {c : Char} (h : c ∈ latin (hexDigits k n)) :
    isSpace c = false := by
  have hdigit : ∀ v < 16, isSpace (Char.ofNat (hexDigit v).toNat) = false := by decide
  induction k with
  | zero => exact (nomatch h)
  | succ k ih =>
    rcases List.mem_cons.mp h with rfl | h
    · exact hdigit _ (Nat.mod_lt _ (by decide))
    · exact ih h

/-- Nothing that is quoted is white space. -/
theorem isSpace_quote {c x : Char} (h : x ∈ quote isSpace c) : isSpace x = false := by
  unfold quote at h
  split_ifs at h with hslash hspace
  · have hx : x = '\\' := by simpa using h
    rw [hx]
    decide
  · rcases List.mem_cons.mp h with rfl | h
    · decide
    · rcases List.mem_cons.mp h with rfl | h
      · decide
      · exact isSpace_hexDigit h
  · rw [List.mem_singleton.mp h]
    exact Bool.eq_false_iff.mpr hspace

theorem isSpace_writeEdit {c : Char} (h : c ∈ writeEdit e) : isSpace c = false := by
  unfold writeEdit at h
  rcases List.mem_append.mp h with h | h
  · exact isSpace_of_mem_decimal h
  rcases List.mem_cons.mp h with rfl | h
  · decide
  rcases List.mem_append.mp h with h | h
  · exact isSpace_of_mem_decimal h
  rcases List.mem_cons.mp h with rfl | h
  · decide
  obtain ⟨x, _, hx⟩ := List.mem_flatMap.mp h
  exact isSpace_quote hx

theorem splitlines_line (h : ∀ c ∈ l, isBoundary c = false) (t : Text) :
    splitlines (l ++ '\n' :: t) = (l ++ ['\n']) :: splitlines t := by
  induction l with
  | nil => rfl
  | cons c l ih =>
    have hc := h c List.mem_cons_self
    have hne : ∀ cs, c = '\r' → l ++ '\n' :: t = '\n' :: cs → False := by
      intro cs heq _
      subst heq
      exact absurd hc (by decide)
    rw [List.cons_append, splitlines, ih fun x hx => h x (List.mem_cons_of_mem c hx), hc]
    · rfl
    · exact hne

theorem commands_line (h : ∀ c ∈ l, isBoundary c = false) (t : Text) :
    commands (l ++ '\n' :: t) = l :: commands t := by
  unfold commands
  rw [splitlines_line h, List.map_cons]
  congr 1
  rw [List.takeWhile_append_of_pos]
  · simp [isBoundary]
  · intro c hc
    simp [h c hc]

theorem decodeContent_quoted (t : Text) :
    decodeContent u (t.flatMap (quote isSpace)) = t.map Char.toNat := by
  rw [decodeContent, unicodeEscape_quoted fun c hc => isSpace_lt hc]
  rfl

theorem ne_of_mem_decimal {k : ℤ} {c x : Char} (h : c ∈ decimal k)
    (hx : x = ':' ∨ x = ',') : c ≠ x := by
  rintro rfl
  rcases mem_decimal h with heq | hdigit
  · rcases hx with rfl | rfl
    · exact absurd heq (by decide)
    · exact absurd heq (by decide)
  · rcases hx with rfl | rfl
    · exact absurd hdigit (by decide)
    · exact absurd hdigit (by decide)

/-- The line of an edit is read as that edit. -/
theorem parseCommand_writeEdit (h : Convertible e) (line : ℕ) :
    parseCommand u line (writeEdit e) = .ok (some (.edit e)) := by
  obtain ⟨start, stop, content⟩ := e
  have hstrip : strip (writeEdit ⟨start, stop, content⟩) = writeEdit ⟨start, stop, content⟩ :=
    strip_eq_self fun c hc => isSpace_writeEdit hc
  have hfree : ∀ c ∈ decimal start ++ ',' :: decimal stop, c ≠ ':' := by
    intro c hc
    rcases List.mem_append.mp hc with hc | hc
    · exact ne_of_mem_decimal hc (Or.inl rfl)
    · rcases List.mem_cons.mp hc with rfl | hc
      · decide
      · exact ne_of_mem_decimal hc (Or.inl rfl)
  have hsplit : writeEdit ⟨start, stop, content⟩ =
      (decimal start ++ ',' :: decimal stop) ++ ':' :: content.flatMap (quote isSpace) := by
    simp [writeEdit]
  have hrange : (writeEdit ⟨start, stop, content⟩).takeWhile (fun c => c ≠ ':') =
      decimal start ++ ',' :: decimal stop := by
    rw [hsplit, List.takeWhile_append_of_pos fun c hc => by simpa using hfree c hc]
    simp
  have hcontent : ((writeEdit ⟨start, stop, content⟩).dropWhile fun c => c ≠ ':').tail =
      content.flatMap (quote isSpace) := by
    rw [hsplit, List.dropWhile_append_of_pos fun c hc => by simpa using hfree c hc]
    simp
  have hcolon : ':' ∈ writeEdit ⟨start, stop, content⟩ := by simp [hsplit]
  have hnumbers : (decimal start ++ ',' :: decimal stop).splitOn ',' =
      [decimal start, decimal stop] := by
    have hstart : ',' ∉ decimal start := fun hc => ne_of_mem_decimal hc (Or.inr rfl) rfl
    have hstop : ',' ∉ decimal stop := fun hc => ne_of_mem_decimal hc (Or.inr rfl) rfl
    rw [List.splitOn_append_cons_self, List.splitOn_eq_singleton hstart,
      List.splitOn_eq_singleton hstop]
    rfl
  have hbare : ∀ k, strip (decimal k) = decimal k :=
    fun k => strip_eq_self fun c hc => isSpace_of_mem_decimal hc
  have hcomma : ',' ∈ decimal start ++ ',' :: decimal stop := by simp
  simp only [parseCommand, hstrip, hrange, hcontent, hnumbers, hbare, int_decimal h.1,
    int_decimal h.2, decodeContent_quoted, encodable_toNat, ofNat_toNat, hcolon, hcomma,
    not_true_eq_false, if_false, if_true]
  exact if_neg (List.ne_nil_of_mem hcolon)

/-- Every edit can be written, and what is written is read as what was meant. -/
theorem script_roundtrip (h : ∀ e ∈ edits, Convertible e) :
    readScript u (writeScript edits) = (edits, none) := by
  have hread : ∀ line, readCommands u line (commands (writeScript edits)) = (edits, none) := by
    induction edits with
    | nil => exact fun _ => rfl
    | cons e edits ih =>
      intro line
      have hbare : ∀ c ∈ writeEdit e, isBoundary c = false := by
        intro c hc
        by_contra hbad
        have hspace := isSpace_of_boundary (Bool.not_eq_false _ ▸ hbad)
        rw [isSpace_writeEdit hc] at hspace
        cases hspace
      have hline : commands (writeScript (e :: edits)) =
          writeEdit e :: commands (writeScript edits) := by
        rw [writeScript, List.map_cons, List.flatten_cons, List.append_assoc, List.singleton_append]
        exact commands_line hbare _
      rw [hline, readCommands, parseCommand_writeEdit (h e List.mem_cons_self)]
      simp only [ih (fun x hx => h x (List.mem_cons_of_mem e hx)) (line + 1)]
  exact hread 1

def plainData : CharacterData := ⟨fun _ => none, fun _ => none⟩

/-- Two edits, the first of which deletes a line. -/
theorem script_roundtrip_two :
    readScript plainData (writeScript [⟨3, 3, []⟩, ⟨-1, 0, " a\\n\n".toList⟩]) =
      ([⟨3, 3, []⟩, ⟨-1, 0, " a\\n\n".toList⟩], none) := by
  refine script_roundtrip fun e he => ?_
  rcases List.mem_cons.mp he with rfl | he
  · constructor <;> decide
  · obtain rfl := List.mem_singleton.mp he
    constructor <;> decide

/-! ### What a script does to the file -/

theorem universalNewlines_idem (t : Text) :
    universalNewlines (universalNewlines t) = universalNewlines t :=
  universalNewlines_of_not_mem (not_mem_universalNewlines t)

theorem universalNewlines_eq_nil : universalNewlines t = [] ↔ t = [] := by
  unfold universalNewlines replaceCr
  rw [List.map_eq_nil_iff]
  fun_cases replaceCrlf t with
  | case1 cs => simp
  | case2 c cs _ => simp
  | case3 => simp

/-- The line breaks of the content are translated as those of a file are. -/
theorem normalizeLineEndings_universal (t : Text) :
    normalizeLineEndings (universalNewlines t) = normalizeLineEndings t := by
  have hidem : replaceCr (replaceCrlf (universalNewlines t)) = universalNewlines t :=
    universalNewlines_idem t
  have hsame : replaceCr (replaceCrlf t) = universalNewlines t := rfl
  unfold normalizeLineEndings
  by_cases hnil : t = []
  · rw [hnil]
    rfl
  · simp only [universalNewlines_eq_nil, if_neg hnil, hidem, hsame]

theorem newLines_universal (lines : List Text) (start stop : ℤ) (content : Text) :
    newLines lines start stop (universalNewlines content) = newLines lines start stop content := by
  unfold newLines
  rw [normalizeLineEndings_universal]

/-- What an edit writes is read as the edited lines. -/
theorem readlines_edited (hlines : ∀ l ∈ lines, IsLine l) (e : Edit) :
    readlines (newLines lines e.start e.stop e.content).flatten = edited lines e := by
  rw [← newLines_universal]
  exact readlines_newLines hlines (not_mem_universalNewlines _) e.start e.stop

theorem isLine_edited (hlines : ∀ l ∈ lines, IsLine l) (e : Edit) :
    ∀ l ∈ edited lines e, IsLine l := by
  have hclosed := closed_close (p := isNewline) (t := '\n') rfl (universalNewlines e.content)
  have hfree := not_mem_close (not_mem_universalNewlines e.content)
  intro l hl
  unfold edited replaced at hl
  rcases List.mem_append.mp hl with hl | hl
  · rcases List.mem_append.mp hl with hl | hl
    · exact hlines l (List.mem_of_mem_take hl)
    · refine ⟨isPiece_of_mem hclosed l hl, fun hmem => hfree ?_⟩
      rw [← flatten_splitAfter (p := isNewline) (close isNewline '\n' _)]
      exact List.mem_flatten.mpr ⟨l, hl, hmem⟩
  · exact hlines l (List.mem_of_mem_drop hl)

theorem lines_ensureFileExists (d : Disk) : (ensureFileExists d).lines = d.lines := by
  unfold ensureFileExists Disk.lines
  cases hfile : d.file with
  | none => rfl
  | some t => simp [hfile]

theorem backup_ensureFileExists (d : Disk) : (ensureFileExists d).backup = d.backup := by
  unfold ensureFileExists
  cases d.file with
  | none => rfl
  | some t => rfl

/-- A write that succeeds leaves the edited lines in the file, and one that fails
leaves them in the backup, unless that fails as well. -/
inductive Done (d : Disk) (e : Edit) : Write → Disk × Outcome → Prop
  | ok {d' : Disk} (hlines : d'.lines = edited d.lines e) (hbackup : d'.backup = d.backup) :
      Done d e .done (d', .ok)
  | osError {left backup : Text} (hbackup : readlines backup = edited d.lines e) :
      Done d e (.failed left) (⟨some left, some backup⟩, .osError)
  | backupError (left : Text) (backup : Option Text) :
      Done d e (.lost left backup) (⟨some left, backup⟩, .backupError)

theorem replaceLines_done (hlines : ∀ l ∈ d.lines, IsLine l) (w : Write) (e : Edit) :
    Done d e w (replaceLines w d e.start e.stop e.content) := by
  have hread := readlines_edited hlines e
  rw [← lines_ensureFileExists d] at hread
  cases w with
  | done => exact .ok (hread.trans (by rw [lines_ensureFileExists])) (backup_ensureFileExists d)
  | failed left => exact .osError (hread.trans (by rw [lines_ensureFileExists]))
  | lost left backup => exact .backupError left backup

def Complaint.OfWrite : Complaint → Prop
  | .encodeError _ => True
  | .osError => True
  | .backupError => True
  | _ => False

/-- Where a script stands when it ends: the edits done, and those left. -/
structure Ended (u : CharacterData) (writes : ℕ → Write) (cmds : List Text) (d d' : Disk)
    (edits : List Edit) (wrong r : Option Complaint) (done rest : List Edit) : Prop where
  order : edits = done ++ rest
  failed : r = some .osError → done ≠ [] ∧ ∃ line left backup, writes line = .failed left ∧
    d' = ⟨some left, some backup⟩ ∧ readlines backup = done.foldl edited d.lines
  lost : r = some .backupError →
    ∃ line left backup, writes line = .lost left backup ∧ d' = ⟨some left, backup⟩
  unencodable : ∀ line, r = some (.encodeError line) → rest = [] ∧ wrong = r ∧
    ∃ cmd start stop before, cmd ∈ cmds ∧
      parseCommand u line cmd = .ok (some (.unencodable start stop before)) ∧
      (writes line = .done → ∃ pieces, Precede (done.foldl edited d.lines) start stop before pieces ∧
        d' = ⟨some pieces.flatten, some pieces.flatten⟩)
  finished : (∀ c, r = some c → ¬ c.OfWrite) →
    rest = [] ∧ r = wrong ∧ d'.lines = done.foldl edited d.lines ∧ d'.backup = d.backup

theorem parseCommand_not_ofWrite {line : ℕ} {cmd : Text} {c : Complaint}
    (h : parseCommand u line cmd = .error c) : ¬ c.OfWrite := by
  unfold parseCommand at h
  dsimp only at h
  repeat' split at h
  all_goals cases h
  all_goals exact id

section Run
variable {writes : ℕ → Write} {cmd : Text} {cmds : List Text} {d' : Disk} {wrong r : Option Complaint}
  {done rest : List Edit}

/-- A complaint about the form of a line is made before anything is written. -/
theorem ended_error {c : Complaint} (hform : ¬ c.OfWrite) :
    Ended u writes cmds d d [] (some c) (some c) [] [] where
  order := rfl
  failed h := by
    cases h
    exact absurd trivial hform
  lost h := by
    cases h
    exact absurd trivial hform
  unencodable _ h := by
    cases h
    exact absurd trivial hform
  finished _ := ⟨rfl, rfl, rfl, rfl⟩

/-- The rest of a script, after lines that ask for nothing. -/
theorem Ended.skip (h : Ended u writes cmds d d' edits wrong r done rest) :
    Ended u writes (cmd :: cmds) d d' edits wrong r done rest := by
  refine ⟨h.order, h.failed, h.lost, fun line hr => ?_, h.finished⟩
  obtain ⟨hrest, hwrong, cmd', start, stop, before, hmem, hparse⟩ := h.unencodable line hr
  exact ⟨hrest, hwrong, cmd', start, stop, before, List.mem_cons_of_mem _ hmem, hparse⟩

/-- The rest of a script, after an edit that has been done. -/
theorem Ended.cons {d₁ : Disk} (h : Ended u writes cmds d₁ d' edits wrong r done rest)
    (hlines : d₁.lines = edited d.lines e) (hbackup : d₁.backup = d.backup) :
    Ended u writes (cmd :: cmds) d d' (e :: edits) wrong r (e :: done) rest := by
  have hskip : Ended u writes (cmd :: cmds) d₁ d' edits wrong r done rest := h.skip
  obtain ⟨horder, hfailed, hlost, hcut, hfinished⟩ := hskip
  rw [hlines] at hfailed hcut hfinished
  refine ⟨congrArg (List.cons e) horder, fun hr => ⟨List.cons_ne_nil _ _, (hfailed hr).2⟩, hlost,
    hcut, fun hr => ?_⟩
  obtain ⟨hrest, hwrong, hdone, hkept⟩ := hfinished hr
  exact ⟨hrest, hwrong, hdone, hkept.trans hbackup⟩

/-- A write that has failed ends the script. -/
theorem ended_failed {line : ℕ} {left backup : Text} (hwrite : writes line = .failed left)
    (hback : readlines backup = edited d.lines e) (edits : List Edit) (wrong : Option Complaint) :
    Ended u writes cmds d ⟨some left, some backup⟩ (e :: edits) wrong (some .osError) [e] edits where
  order := rfl
  failed _ := ⟨List.cons_ne_nil _ _, line, left, backup, hwrite, rfl, hback⟩
  lost h := by cases h
  unencodable _ h := by cases h
  finished h := absurd trivial (h _ rfl)

theorem ended_lost {line : ℕ} {left : Text} {backup : Option Text}
    (hwrite : writes line = .lost left backup) (edits : List Edit) (wrong : Option Complaint) :
    Ended u writes cmds d ⟨some left, backup⟩ edits wrong (some .backupError) [] edits where
  order := rfl
  failed h := by cases h
  lost _ := ⟨line, left, backup, hwrite, rfl⟩
  unencodable _ h := by cases h
  finished h := absurd trivial (h _ rfl)

/-- So does a content that cannot be encoded. -/
theorem ended_unencodable {line : ℕ} {start stop : ℤ} {before : Text}
    (hparse : parseCommand u line cmd = .ok (some (.unencodable start stop before)))
    (hdone : writes line = .done →
      d' = ⟨some (linesBefore d.lines start stop before).flatten,
        some (linesBefore d.lines start stop before).flatten⟩) :
    Ended u writes (cmd :: cmds) d d' [] (some (.encodeError line)) (some (.encodeError line)) []
      [] where
  order := rfl
  failed h := by cases h
  lost h := by cases h
  unencodable n h := by
    cases h
    exact ⟨rfl, rfl, cmd, start, stop, before, List.mem_cons_self, hparse, fun hw =>
      ⟨_, precede_linesBefore d.lines start stop before, hdone hw⟩⟩
  finished h := absurd trivial (h _ rfl)

end Run

theorem runCommands_ended (writes : ℕ → Write) (cmds : List Text) (line : ℕ)
    (hlines : ∀ l ∈ d.lines, IsLine l) :
    ∃ done rest, Ended u writes cmds d (runCommands u writes line cmds d).1
      (readCommands u line cmds).1 (readCommands u line cmds).2
      (runCommands u writes line cmds d).2 done rest := by
  induction cmds generalizing line d with
  | nil =>
    refine ⟨[], [], rfl, fun h => ?_, fun h => ?_, fun _ h => ?_, fun _ => ⟨rfl, rfl, rfl, rfl⟩⟩
    · cases h
    · cases h
    · cases h
  | cons cmd cmds ih =>
    unfold runCommands readCommands
    cases hparse : parseCommand u line cmd with
    | error e => exact ⟨[], [], ended_error (parseCommand_not_ofWrite hparse)⟩
    | ok command =>
      cases command with
      | none =>
        obtain ⟨done, rest, hended⟩ := ih (line + 1) hlines
        exact ⟨done, rest, hended.skip⟩
      | some command =>
        cases command with
        | edit e =>
          have hdone := replaceLines_done hlines (writes line) e
          dsimp only [carryOut]
          generalize replaceLines (writes line) d e.start e.stop e.content = out at hdone
          generalize hwrite : writes line = w at hdone
          cases hdone with
          | ok hread hbackup =>
            have hlines' := isLine_edited hlines e
            rw [← hread] at hlines'
            obtain ⟨done, rest, hended⟩ := ih (line + 1) hlines'
            exact ⟨e :: done, rest, hended.cons hread hbackup⟩
          | osError hbackup => exact ⟨[e], _, ended_failed hwrite hbackup _ _⟩
          | backupError left backup => exact ⟨[], _, ended_lost hwrite _ _⟩
        | unencodable start stop before =>
          dsimp only [carryOut, replaceUnencodable]
          have hsame : readlines ((ensureFileExists d).file.getD []) = d.lines :=
            lines_ensureFileExists d
          rw [hsame]
          cases hwrite : writes line with
          | done => exact ⟨[], [], ended_unencodable hparse fun _ => rfl⟩
          | failed left =>
            refine ⟨[], [], ended_unencodable hparse fun hw => ?_⟩
            rw [hw] at hwrite
            cases hwrite
          | lost left backup => exact ⟨[], [], ended_lost hwrite _ _⟩

/-- A script is read up to the first line that is wrong. -/
theorem readCommands_stops {c : Complaint} (cmds : List Text) (line : ℕ)
    (h : (readCommands u line cmds).2 = some c) :
    ∃ pre cmd post, cmds = pre ++ cmd :: post ∧ complaintOf u (line + pre.length) cmd = some c ∧
      readCommands u line pre = ((readCommands u line cmds).1, none) := by
  induction cmds generalizing line with
  | nil => cases h
  | cons cmd cmds ih =>
    have hlater : (readCommands u (line + 1) cmds).2 = some c → ∃ pre bad post,
        cmds = pre ++ bad :: post ∧ complaintOf u (line + (pre.length + 1)) bad = some c ∧
        readCommands u (line + 1) pre = ((readCommands u (line + 1) cmds).1, none) := by
      intro hnext
      obtain ⟨pre, bad, post, hcmds, hbad, hread⟩ := ih (line + 1) hnext
      rw [Nat.add_right_comm] at hbad
      exact ⟨pre, bad, post, hcmds, hbad, hread⟩
    unfold readCommands at h ⊢
    cases hparse : parseCommand u line cmd with
    | error e =>
      rw [hparse] at h
      exact ⟨[], cmd, cmds, rfl, by simpa [complaintOf, hparse] using h, rfl⟩
    | ok command =>
      rw [hparse] at h
      cases command with
      | none =>
        obtain ⟨pre, bad, post, hcmds, hbad, hread⟩ := hlater h
        exact ⟨cmd :: pre, bad, post, congrArg (List.cons cmd) hcmds, hbad, by simp [hparse, hread]⟩
      | some command =>
        cases command with
        | edit e =>
          obtain ⟨pre, bad, post, hcmds, hbad, hread⟩ := hlater h
          exact ⟨cmd :: pre, bad, post, congrArg (List.cons cmd) hcmds, hbad,
            by simp [hparse, hread]⟩
        | unencodable start stop before =>
          exact ⟨[], cmd, cmds, rfl, by simpa [complaintOf, hparse] using h, rfl⟩

/-- However a script ends, the edits done so far are in the file, or in the
backup if a write has failed; none is done twice, skipped or out of order. A
script that is wrong is done up to the line that the complaint names. -/
theorem batch_edits (u : CharacterData) (hlines : ∀ l ∈ d.lines, l.getLast? = some '\n')
    (writes : ℕ → Write) (script : Text) :
    (∃ done rest, Ended u writes (commands script) d (processBatchInput u writes d script).1
      (readScript u script).1 (readScript u script).2 (processBatchInput u writes d script).2
      done rest) ∧
    ∀ c, (readScript u script).2 = some c → ∃ pre cmd post, commands script = pre ++ cmd :: post ∧
      complaintOf u (1 + pre.length) cmd = some c ∧
      readCommands u 1 pre = ((readScript u script).1, none) := by
  have hsame := lines_ensureFileExists d
  have hpieces : ∀ l ∈ (ensureFileExists d).lines, IsLine l := by
    rw [hsame]
    exact Disk.isLine hlines
  obtain ⟨done, rest, horder, hfailed, hlost, hcut, hfinished⟩ :=
    runCommands_ended (u := u) writes (commands script) 1 hpieces
  rw [hsame] at hfailed hcut hfinished
  rw [backup_ensureFileExists] at hfinished
  exact ⟨⟨done, rest, horder, hfailed, hlost, hcut, hfinished⟩, fun c => readCommands_stops _ 1⟩

/-- The second line of the script has no numbers. -/
theorem batch_edits_wrong :
    readScript plainData "1,1:x\nfirst,last:y\n".toList =
        ([⟨1, 1, "x".toList⟩], some (.invalidNumbers 2 "first,last".toList)) ∧
      ∃ done rest, Ended plainData (fun _ => .done) (commands "1,1:x\nfirst,last:y\n".toList)
        ⟨some "b\n".toList, none⟩
        (processBatchInput plainData (fun _ => .done) ⟨some "b\n".toList, none⟩
          "1,1:x\nfirst,last:y\n".toList).1
        (readScript plainData "1,1:x\nfirst,last:y\n".toList).1
        (readScript plainData "1,1:x\nfirst,last:y\n".toList).2
        (processBatchInput plainData (fun _ => .done) ⟨some "b\n".toList, none⟩
          "1,1:x\nfirst,last:y\n".toList).2 done rest :=
  ⟨by decide,
    (batch_edits plainData (d := ⟨some "b\n".toList, none⟩) (by decide) (fun _ => .done) _).1⟩

/-- Half of a surrogate pair as the content of the only line: nothing is written
to the file after it has been truncated, and nothing to the backup. -/
example : processBatchInput plainData (fun _ => .done) ⟨some "b\n".toList, none⟩
    "1,1:\\ud800".toList = (⟨some [], some []⟩, some (.encodeError 1)) := by decide

end Ppdb.BatchScripts
