import Ppdb.CommandTables

/-!
The main program: its global options, which come before the command, and the
dispatch of what follows them.
-/

namespace Ppdb.GlobalOptions

open CStrings CommandTables ErrorCodes
open HashOperations (CString)

def levelNone : ℤ := 0

def levelTrace : ℤ := 5

/-- "log-level" -/
def logLevel : List UInt8 := [108, 111, 103, 45, 108, 101, 118, 101, 108]

inductive Rejection
  | emptyValue
  | unknownOption
  | invalidFormat
  | notANumber
  | outOfRange
  deriving DecidableEq

/-- The loop over the global options: the last level given so far, and the
arguments from the command on. -/
def parseOptions (logLevelStr : Option (List UInt8)) :
    List CString → Except Rejection (Option (List UInt8) × List CString)
  | [] => .ok (logLevelStr, [])
  | arg :: rest =>
    if arg.bytes[0]? ≠ some 45 ∨ arg.bytes[1]? ≠ some 45 then .ok (logLevelStr, arg :: rest)
    else
      let option := arg.bytes.drop 2
      match strchr 61 option with
      | none => .error .invalidFormat
      | some value =>
        let nameLen := option.length - value.length
        let value := value.tail
        if strncmp nameLen (option ++ [0]) (logLevel ++ [0]) = 0 then
          if value = [] then .error .emptyValue else parseOptions (some value) rest
        else .error .unknownOption

/-- The level that the configuration is given. -/
def parseLevel : Option (List UInt8) → Except Rejection ℤ
  | none => .ok levelNone
  | some logLevelStr =>
    let (level, rest) := strtol logLevelStr
    if rest ≠ [] ∨ rest.length = logLevelStr.length then .error .notANumber
    else if levelNone ≤ level ∧ level ≤ levelTrace then .ok level
    else .error .outOfRange

inductive Handler
  | rinetd
  | help
  deriving DecidableEq

/-- What the program does: the log level with which the infrastructure layer is
initialised, the command line passed on, the handlers called, and the exit code. -/
structure Outcome where
  initialized : Option ℤ
  command : Option (List CString)
  calls : List (Handler × ℤ × List CString)
  code : ℕ

/-- The program once its options are known: `infra_init_with_config` succeeds or
not, and the handlers answer for themselves. -/
def execute (served : Bool) (run : Handler → ℤ → List CString → ErrorCode) (level : ℤ)
    (rest : List CString) : Outcome :=
  if served = false then ⟨some level, none, [], 1⟩
  else
    match polyCmdlineInit Handler.rinetd with
    | (t, .ok) =>
      match polyCmdlineRegister t (some (helpCmd .help)) with
      | (t, .ok) =>
        if rest = [] then ⟨some level, none, [], 1⟩
        else
          match polyCmdlineExecute run t rest.length rest with
          | (calls, .ok) => ⟨some level, some rest, calls, 0⟩
          | (calls, _) => ⟨some level, some rest, calls, 1⟩
      | (_, _) => ⟨some level, none, [], 1⟩
    | (_, _) => ⟨some level, none, [], 1⟩

def main (served : Bool) (run : Handler → ℤ → List CString → ErrorCode) (argv : List CString) :
    Outcome :=
  match parseOptions none argv.tail with
  | .error _ => ⟨none, none, [], 1⟩
  | .ok (logLevelStr, rest) =>
    match parseLevel logLevelStr with
    | .error _ => ⟨none, none, [], 1⟩
    | .ok level => execute served run level rest

/-! ### The options that are meant, and those that are accepted -/

def IsOption (arg : CString) : Prop := [45, 45] <+: arg.bytes

instance (arg : CString) : Decidable (IsOption arg) :=
  inferInstanceAs (Decidable ([45, 45] <+: arg.bytes))

def globals (args : List CString) : List CString := args.takeWhile (IsOption ·)

def remaining (args : List CString) : List CString := args.dropWhile (IsOption ·)

def optionBytes (name value : List UInt8) : List UInt8 := [45, 45] ++ name ++ 61 :: value

/-- Every option has one of the names and a value, and the value of the last one
is a level; without options the level is 0. -/
def Accepted (Name : List UInt8 → Prop) (Level : List UInt8 → ℤ → Prop) (args : List CString)
    (level : ℤ) : Prop :=
  (∀ arg ∈ globals args, ∃ name value,
    Name name ∧ value ≠ [] ∧ arg.bytes = optionBytes name value) ∧
  match (globals args).getLast? with
  | none => level = levelNone
  | some arg => ∃ name value, Name name ∧ arg.bytes = optionBytes name value ∧ Level value level

def IsLevel (value : List UInt8) (level : ℤ) : Prop :=
  Decimal value level ∧ levelNone ≤ level ∧ level ≤ levelTrace

/-- The options that the program documents. -/
def Documented : List CString → ℤ → Prop := Accepted (· = logLevel) IsLevel

/-- The same with the name cut short and blanks before the level. -/
def Tolerated : List CString → ℤ → Prop :=
  Accepted (· <+: logLevel) fun value level =>
    ∃ blanks v, value = blanks ++ v ∧ (∀ c ∈ blanks, isSpace c = true) ∧ IsLevel v level

/-- Tolerated options, one of them not under its full name or the last level
behind a blank. -/
def Lax (args : List CString) : Prop :=
  (∃ level, Tolerated args level) ∧
    ((∃ arg ∈ globals args, ∀ value, arg.bytes ≠ optionBytes logLevel value) ∨
      ∃ arg ∈ (globals args).getLast?, ∃ c value,
        isSpace c = true ∧ arg.bytes = optionBytes logLevel (c :: value))

/-- The program accepts what is documented, takes the level from it and passes
on the other arguments; it ends before the initialisation otherwise. -/
structure MainRight (served : Bool) (run : Handler → ℤ → List CString → ErrorCode)
    (argv : List CString) : Prop where
  accepts : ∀ level, (main served run argv).initialized = some level ↔ Documented argv.tail level
  passesOn : served = true → (main served run argv).initialized ≠ none →
    (main served run argv).command =
      if remaining argv.tail = [] then none else some (remaining argv.tail)
  rejects : (main served run argv).initialized = none →
    (main served run argv).command = none ∧ (main served run argv).calls = [] ∧
      (main served run argv).code = 1

variable {served : Bool} {run : Handler → ℤ → List CString → ErrorCode} {arg : CString}
  {args argv rest : List CString} {str str' : Option (List UInt8)}
  {name value name' value' : List UInt8} {level : ℤ}

/-! ### Single options -/

theorem isOption_iff : IsOption arg ↔ ¬ (arg.bytes[0]? ≠ some 45 ∨ arg.bytes[1]? ≠ some 45) := by
  unfold IsOption
  rcases arg.bytes with _ | ⟨a, _ | ⟨b, t⟩⟩
  · simp
  · simp
  · simp [List.cons_prefix_cons, eq_comm]

theorem isOption_of_bytes (h : arg.bytes = optionBytes name value) : IsOption arg := by
  unfold IsOption
  rw [h, optionBytes, List.append_assoc]
  exact List.prefix_append _ _

theorem separator_not_mem (h : name <+: logLevel) : (61 : UInt8) ∉ name ∧ (0 : UInt8) ∉ name := by
  constructor
  · exact fun hmem => absurd (h.subset hmem) (by decide)
  · exact fun hmem => absurd (h.subset hmem) (by decide)

/-- Name and value of an option are told apart by the first '='. -/
theorem optionBytes_inj (hname : (61 : UInt8) ∉ name) (hname' : (61 : UInt8) ∉ name')
    (h : optionBytes name value = optionBytes name' value') : name = name' ∧ value = value' := by
  unfold optionBytes at h
  rw [List.append_assoc, List.append_assoc] at h
  have htail := List.append_cancel_left h
  have hfound := strchr_append hname value
  rw [htail, strchr_append hname'] at hfound
  injection hfound with hvalue
  injection hvalue with _ hvalue
  subst hvalue
  exact ⟨List.append_cancel_right htail, rfl⟩

theorem parseOptions_tolerated (hname : name <+: logLevel) (hvalue : value ≠ [])
    (h : arg.bytes = optionBytes name value) :
    parseOptions str (arg :: rest) = parseOptions (some value) rest := by
  have hopt := isOption_iff.mp (isOption_of_bytes h)
  have hdrop : arg.bytes.drop 2 = name ++ 61 :: value := by
    rw [h]
    rfl
  have hlength : (name ++ 61 :: value).length - (61 :: value).length = name.length := by
    rw [List.length_append]
    omega
  have hequal : strncmp name.length (name ++ 61 :: value ++ [0]) (logLevel ++ [0]) = 0 := by
    rw [List.append_assoc]
    exact (strncmp_eq_zero_iff (separator_not_mem hname).2 (by decide) _).mpr hname
  rw [parseOptions, if_neg hopt, hdrop]
  dsimp only
  rw [strchr_append (separator_not_mem hname).1]
  dsimp only
  rw [hlength, if_pos hequal]
  exact if_neg hvalue

theorem parseOptions_rejects (hopt : IsOption arg)
    (hnot : ∀ name value, name <+: logLevel → value ≠ [] → arg.bytes ≠ optionBytes name value) :
    ∃ e, parseOptions str (arg :: rest) = .error e := by
  rw [parseOptions, if_neg (isOption_iff.mp hopt)]
  dsimp only
  cases hfind : strchr 61 (arg.bytes.drop 2) with
  | none => exact ⟨_, rfl⟩
  | some t =>
    obtain ⟨name, value, hname, hdrop, rfl⟩ := strchr_eq_some hfind
    dsimp only
    have hlength : (arg.bytes.drop 2).length - (61 :: value).length = name.length := by
      rw [hdrop, List.length_append]
      omega
    have hzero : (0 : UInt8) ∉ name := by
      intro hmem
      apply arg.noNul
      apply List.mem_of_mem_drop (i := 2)
      rw [hdrop]
      exact List.mem_append_left _ hmem
    have hbytes : arg.bytes = optionBytes name value := by
      obtain ⟨t, ht⟩ := hopt
      rw [← ht] at hdrop ⊢
      have hrest : t = name ++ 61 :: value := hdrop
      rw [hrest]
      rfl
    rw [hlength, hdrop, List.append_assoc]
    by_cases hleads : name <+: logLevel
    · have hempty : value = [] := by
        by_contra hne
        exact hnot name value hleads hne hbytes
      rw [if_pos ((strncmp_eq_zero_iff hzero (by decide) _).mpr hleads)]
      exact ⟨_, if_pos hempty⟩
    · rw [if_neg (mt (strncmp_eq_zero_iff hzero (by decide) _).mp hleads)]
      exact ⟨_, rfl⟩

/-! ### The loop -/

def TakesOption (arg : CString) : Prop :=
  ∃ name value, name <+: logLevel ∧ value ≠ [] ∧ arg.bytes = optionBytes name value

def LastValue (str str' : Option (List UInt8)) (options : List CString) : Prop :=
  match options.getLast? with
  | none => str' = str
  | some arg => ∃ name value,
    name <+: logLevel ∧ arg.bytes = optionBytes name value ∧ str' = some value

theorem lastValue_cons (hname : name <+: logLevel) (h : arg.bytes = optionBytes name value)
    (options : List CString) :
    LastValue str str' (arg :: options) ↔ LastValue (some value) str' options := by
  unfold LastValue
  cases options with
  | nil =>
    constructor
    · rintro ⟨name', value', hname', hbytes, rfl⟩
      have hsame : optionBytes name value = optionBytes name' value' := h.symm.trans hbytes
      obtain ⟨_, rfl⟩ :=
        optionBytes_inj (separator_not_mem hname).1 (separator_not_mem hname').1 hsame
      rfl
    · intro heq
      exact ⟨name, value, hname, h, heq⟩
  | cons b options =>
    rw [List.getLast?_cons_cons]
    cases hlast : (b :: options).getLast? with
    | none => cases List.getLast?_eq_none_iff.mp hlast
    | some last => exact Iff.rfl

theorem globals_cons (h : IsOption arg) (args : List CString) :
    globals (arg :: args) = arg :: globals args ∧ remaining (arg :: args) = remaining args :=
  ⟨List.takeWhile_cons_of_pos (decide_eq_true h), List.dropWhile_cons_of_pos (decide_eq_true h)⟩

theorem globals_stop (h : ¬ IsOption arg) (args : List CString) :
    globals (arg :: args) = [] ∧ remaining (arg :: args) = arg :: args := by
  have hno : ¬ decide (IsOption arg) = true := by simpa using h
  exact ⟨List.takeWhile_cons_of_neg hno, List.dropWhile_cons_of_neg hno⟩

theorem parseOptions_ok_iff : parseOptions str args = .ok (str', rest) ↔
    rest = remaining args ∧ (∀ arg ∈ globals args, TakesOption arg) ∧
      LastValue str str' (globals args) := by
  induction args generalizing str with
  | nil =>
    constructor
    · intro h
      cases h
      exact ⟨rfl, fun _ hmem => (nomatch hmem), rfl⟩
    · rintro ⟨rfl, _, hlast⟩
      cases hlast
      rfl
  | cons arg args ih =>
    by_cases hopt : IsOption arg
    · obtain ⟨hglobals, hremaining⟩ := globals_cons hopt args
      rw [hglobals, hremaining]
      by_cases htakes : TakesOption arg
      · obtain ⟨name, value, hname, hvalue, hbytes⟩ := id htakes
        rw [parseOptions_tolerated hname hvalue hbytes, ih, lastValue_cons hname hbytes,
          List.forall_mem_cons, and_iff_right htakes]
      · obtain ⟨e, hrejects⟩ : ∃ e, parseOptions str (arg :: args) = .error e :=
          parseOptions_rejects hopt
            fun name value hname hvalue hbytes => htakes ⟨name, value, hname, hvalue, hbytes⟩
        rw [hrejects]
        refine iff_of_false (by simp) ?_
        rintro ⟨_, hall, _⟩
        exact htakes (hall arg List.mem_cons_self)
    · obtain ⟨hglobals, hremaining⟩ := globals_stop hopt args
      have hstop : arg.bytes[0]? ≠ some 45 ∨ arg.bytes[1]? ≠ some 45 := by
        by_contra hno
        exact hopt (isOption_iff.mpr hno)
      rw [hglobals, hremaining, parseOptions, if_pos hstop]
      constructor
      · intro h
        cases h
        exact ⟨rfl, fun _ hmem => (nomatch hmem), rfl⟩
      · rintro ⟨rfl, _, hlast⟩
        cases hlast
        rfl

/-! ### The level -/

theorem clampLong_level_iff (n : ℤ) :
    levelNone ≤ clampLong n ∧ clampLong n ≤ levelTrace ↔ levelNone ≤ n ∧ n ≤ levelTrace := by
  unfold clampLong levelNone levelTrace
  omega

theorem clampLong_of_level {n : ℤ} (h : levelNone ≤ n ∧ n ≤ levelTrace) : clampLong n = n := by
  unfold levelNone levelTrace at h
  unfold clampLong
  omega

def TakesLevel (value : List UInt8) (level : ℤ) : Prop :=
  ∃ blanks v, value = blanks ++ v ∧ (∀ c ∈ blanks, isSpace c = true) ∧ IsLevel v level

theorem parseLevel_ok_iff (hvalue : value ≠ []) :
    parseLevel (some value) = .ok level ↔ TakesLevel value level := by
  unfold parseLevel
  constructor
  · intro h
    dsimp only at h
    by_cases hend : (strtol value).2 ≠ [] ∨ (strtol value).2.length = value.length
    · rw [if_pos hend] at h
      cases h
    rw [if_neg hend] at h
    by_cases hrange : levelNone ≤ (strtol value).1 ∧ (strtol value).1 ≤ levelTrace
    · rw [if_pos hrange] at h
      cases h
      obtain ⟨blanks, v, n, hsplit, hblanks, hdec, hread⟩ :=
        decimal_of_strtol hvalue (not_not.mp (not_or.mp hend).1)
      rw [hread] at hrange ⊢
      have hlevel := (clampLong_level_iff n).mp hrange
      rw [clampLong_of_level hlevel]
      exact ⟨blanks, v, hsplit, hblanks, hdec, hlevel⟩
    · rw [if_neg hrange] at h
      cases h
  · rintro ⟨blanks, v, hsplit, hblanks, hdec, hlevel⟩
    have hread : strtol value = (level, []) := by
      rw [hsplit, strtol_decimal hblanks hdec, clampLong_of_level hlevel]
    have hend : ¬ (([] : List UInt8) ≠ [] ∨ ([] : List UInt8).length = value.length) := by
      rintro (hne | hlength)
      · exact hne rfl
      · exact hvalue (List.length_eq_zero_iff.mp hlength.symm)
    dsimp only
    rw [hread]
    dsimp only
    rw [if_neg hend, if_pos hlevel]

/-! ### The program -/

theorem tolerated_iff : Tolerated args level ↔
    (∀ arg ∈ globals args, TakesOption arg) ∧
      ∃ str, LastValue none str (globals args) ∧ parseLevel str = .ok level := by
  unfold Tolerated Accepted LastValue
  refine and_congr_right fun hall => ?_
  cases hlast : (globals args).getLast? with
  | none =>
    constructor
    · rintro rfl
      exact ⟨none, rfl, rfl⟩
    · rintro ⟨str, rfl, hlevel⟩
      injection hlevel with hlevel
      exact hlevel.symm
  | some arg =>
    dsimp only
    constructor
    · rintro ⟨name, value, hname, hbytes, hlevel⟩
      have hvalue : value ≠ [] := by
        obtain ⟨blanks, v, rfl, _, hdec, _⟩ := hlevel
        obtain ⟨c, t, rfl, _⟩ := hdec.head
        simp
      exact ⟨some value, ⟨name, value, hname, hbytes, rfl⟩, (parseLevel_ok_iff hvalue).mpr hlevel⟩
    · rintro ⟨str, ⟨name, value, hname, hbytes, rfl⟩, hlevel⟩
      obtain ⟨name', value', hname', hvalue', hbytes'⟩ := hall arg (List.mem_of_getLast? hlast)
      obtain ⟨_, rfl⟩ := optionBytes_inj (separator_not_mem hname).1 (separator_not_mem hname').1
        (hbytes.symm.trans hbytes')
      exact ⟨name, value, hname, hbytes, (parseLevel_ok_iff hvalue').mp hlevel⟩

theorem execute_initialized (level : ℤ) (rest : List CString) :
    (execute served run level rest).initialized = some level := by
  unfold execute
  split
  · rfl
  split
  · split
    · split
      · rfl
      · split
        · rfl
        · rfl
    · rfl
  · rfl

/-- The two commands of the program are registered without fail. -/
theorem execute_served (hserved : served = true) (level : ℤ) (rest : List CString) :
    (execute served run level rest).command = if rest = [] then none else some rest := by
  have hinit : polyCmdlineInit Handler.rinetd = (⟨[rinetdCmd Handler.rinetd]⟩, .ok) := rfl
  have hhelp : polyCmdlineRegister ⟨[rinetdCmd Handler.rinetd]⟩ (some (helpCmd .help)) =
      (⟨[rinetdCmd Handler.rinetd, helpCmd .help]⟩, .ok) := rfl
  unfold execute
  rw [if_neg (by simp [hserved]), hinit]
  dsimp only
  rw [hhelp]
  dsimp only
  by_cases hrest : rest = []
  · rw [if_pos hrest, if_pos hrest]
  · rw [if_neg hrest, if_neg hrest]
    split
    · rfl
    · rfl

/-- Either the options are refused, or the program goes on with the level and
the remaining arguments. -/
theorem main_cases (served : Bool) (run : Handler → ℤ → List CString → ErrorCode)
    (argv : List CString) :
    (main served run argv = ⟨none, none, [], 1⟩ ∧ ∀ level, ¬ Tolerated argv.tail level) ∨
    ∃ level, (∀ level', Tolerated argv.tail level' ↔ level = level') ∧
      main served run argv = execute served run level (remaining argv.tail) := by
  unfold main
  cases hparse : parseOptions none argv.tail with
  | error e =>
    left
    refine ⟨rfl, fun level htolerated => ?_⟩
    obtain ⟨hall, str, hlast, _⟩ := tolerated_iff.mp htolerated
    have hok := parseOptions_ok_iff.mpr ⟨rfl, hall, hlast⟩
    rw [hparse] at hok
    cases hok
  | ok parsed =>
    obtain ⟨str, rest⟩ := parsed
    obtain ⟨rfl, hall, hlast⟩ := parseOptions_ok_iff.mp hparse
    have hlevels : ∀ level, Tolerated argv.tail level ↔ parseLevel str = .ok level := by
      intro level
      rw [tolerated_iff]
      constructor
      · rintro ⟨_, str', hlast', hlevel⟩
        have hsame := parseOptions_ok_iff.mpr ⟨rfl, hall, hlast'⟩
        rw [hparse] at hsame
        cases hsame
        exact hlevel
      · exact fun hlevel => ⟨hall, str, hlast, hlevel⟩
    dsimp only
    cases hlevel : parseLevel str with
    | error e =>
      left
      refine ⟨rfl, fun level htolerated => ?_⟩
      rw [(hlevels level).mp htolerated] at hlevel
      cases hlevel
    | ok level =>
      right
      refine ⟨level, fun level' => ?_, rfl⟩
      rw [hlevels, hlevel]
      exact ⟨fun h => by injection h, fun h => by rw [h]⟩

theorem main_initialized_iff :
    (main served run argv).initialized = some level ↔ Tolerated argv.tail level := by
  rcases main_cases served run argv with ⟨heq, hno⟩ | ⟨level', hlevel, heq⟩
  · rw [heq]
    exact iff_of_false (by simp) (hno level)
  · rw [heq, execute_initialized, hlevel, Option.some.injEq]

theorem level_of_main (h : (main served run argv).initialized = some level) :
    levelNone ≤ level ∧ level ≤ levelTrace := by
  obtain ⟨_, hlast⟩ := main_initialized_iff.mp h
  split at hlast
  · rw [hlast]
    decide
  · obtain ⟨_, _, _, _, _, _, _, _, _, hlevel⟩ := hlast
    exact hlevel

/-! ### What is documented and what is accepted -/

theorem tolerated_of_documented (h : Documented args level) : Tolerated args level := by
  unfold Documented Tolerated Accepted at *
  obtain ⟨hall, hlast⟩ := h
  refine ⟨?_, ?_⟩
  · intro arg harg
    obtain ⟨name, value, rfl, hvalue, hbytes⟩ := hall arg harg
    exact ⟨_, value, List.prefix_refl _, hvalue, hbytes⟩
  · cases hget : (globals args).getLast? with
    | none =>
      rw [hget] at hlast
      exact hlast
    | some arg =>
      rw [hget] at hlast
      obtain ⟨name, value, rfl, hbytes, hlevel⟩ := hlast
      exact ⟨_, value, List.prefix_refl _, hbytes, [], value, rfl, by simp, hlevel⟩

theorem documented_of_not_lax (h : Tolerated args level) (hnot : ¬ Lax args) :
    Documented args level := by
  have hstrict := mt (And.intro ⟨level, h⟩) hnot
  rw [not_or] at hstrict
  obtain ⟨hnames, hblanks⟩ := hstrict
  -- an option that is tolerated and has the full name somehow has it as its name
  have hfull : ∀ arg ∈ globals args, ∀ name value, name <+: logLevel →
      arg.bytes = optionBytes name value → name = logLevel := by
    intro arg harg name value hname hbytes
    obtain ⟨value', hbytes'⟩ : ∃ value', arg.bytes = optionBytes logLevel value' := by
      by_contra hno
      exact hnames ⟨arg, harg, fun value' heq => hno ⟨value', heq⟩⟩
    exact (optionBytes_inj (separator_not_mem hname).1 (by decide)
      (hbytes.symm.trans hbytes')).1
  unfold Documented Tolerated Accepted at *
  obtain ⟨hall, hlast⟩ := h
  refine ⟨?_, ?_⟩
  · intro arg harg
    obtain ⟨name, value, hname, hvalue, hbytes⟩ := hall arg harg
    exact ⟨name, value, hfull arg harg name value hname hbytes, hvalue, hbytes⟩
  · cases hget : (globals args).getLast? with
    | none =>
      rw [hget] at hlast
      exact hlast
    | some arg =>
      rw [hget] at hlast
      obtain ⟨name, value, hname, hbytes, blanks, v, rfl, hspace, hlevel⟩ := hlast
      have hname' := hfull arg (List.mem_of_getLast? hget) name _ hname hbytes
      cases blanks with
      | nil => exact ⟨name, v, hname', hbytes, hlevel⟩
      | cons c blanks =>
        exfalso
        refine hblanks ⟨arg, hget, c, blanks ++ v, hspace c List.mem_cons_self, ?_⟩
        rw [hbytes, hname']
        rfl

theorem not_documented_of_lax (h : Lax args) (level : ℤ) : ¬ Documented args level := by
  rintro ⟨hall, hlast⟩
  rcases h.2 with ⟨arg, harg, hno⟩ | ⟨arg, harg, c, value, hspace, hbytes⟩
  · obtain ⟨name, value, rfl, _, hbytes⟩ := hall arg harg
    exact hno value hbytes
  · have hget : (globals args).getLast? = some arg := harg
    rw [hget] at hlast
    obtain ⟨name, value', rfl, hbytes', hdec, _⟩ := hlast
    obtain ⟨_, rfl⟩ := optionBytes_inj (by decide) (by decide) (hbytes.symm.trans hbytes')
    obtain ⟨c', t, heq, hc'⟩ := hdec.head
    injection heq with hsame _
    rw [hsame, hc'] at hspace
    cases hspace

theorem main_right (hnot : ¬ Lax argv.tail) : MainRight served run argv where
  accepts level := by
    rw [main_initialized_iff]
    exact ⟨fun h => documented_of_not_lax h hnot, tolerated_of_documented⟩
  passesOn hserved hon := by
    rcases main_cases served run argv with ⟨heq, _⟩ | ⟨level, _, heq⟩
    · rw [heq] at hon
      exact absurd rfl hon
    · rw [heq]
      exact execute_served hserved level _
  rejects hoff := by
    rcases main_cases served run argv with ⟨heq, _⟩ | ⟨level, _, heq⟩
    · rw [heq]
      exact ⟨rfl, rfl, rfl⟩
    · rw [heq, execute_initialized] at hoff
      cases hoff

theorem main_lax (hlax : Lax argv.tail) : ¬ MainRight served run argv := by
  intro hright
  obtain ⟨level, htolerated⟩ := hlax.1
  have hdocumented := (hright.accepts level).mp (main_initialized_iff.mpr htolerated)
  exact not_documented_of_lax hlax level hdocumented

/-- The program does what is documented on exactly the command lines whose
options are not lax. -/
theorem mainRight_iff (served : Bool) (run : Handler → ℤ → List CString → ErrorCode)
    (argv : List CString) : MainRight served run argv ↔ ¬ Lax argv.tail :=
  ⟨fun hright hlax => main_lax hlax hright, main_right⟩

/-- `ppdb --=3 help` -/
def emptyName : List CString :=
  [⟨[112, 112, 100, 98], by decide⟩, ⟨[45, 45, 61, 51], by decide⟩,
    ⟨[104, 101, 108, 112], by decide⟩]

/-- The empty name is taken for "log-level". -/
theorem empty_name_accepted : ¬ MainRight true (fun _ _ _ => .ok) emptyName ∧
    (main true (fun _ _ _ => .ok) emptyName).initialized = some 3 := by
  have hrun : (main true (fun _ _ _ => .ok) emptyName).initialized = some 3 := by decide
  refine ⟨main_lax ⟨⟨3, main_initialized_iff.mp hrun⟩, Or.inl ?_⟩, hrun⟩
  refine ⟨⟨[45, 45, 61, 51], by decide⟩, by decide, ?_⟩
  intro value heq
  have hhead := congrArg (fun bytes : List UInt8 => bytes[2]?) heq
  exact absurd hhead (by simp [optionBytes, logLevel])

end Ppdb.GlobalOptions
