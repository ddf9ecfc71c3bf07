import Ppdb.GlobalOptions
import Ppdb.RinetdContext

/-!
The program as a process: its two handlers on the context that a process starts
with. Nothing on the way to a handler initialises the forwarding service, so
that of its operations only the one that changes nothing can succeed.
-/

namespace Ppdb.ProgramExit

open CommandTables ErrorCodes GlobalOptions
open HashOperations (CString)
open RinetdContext (Context rinetdCmdHandler startService stopService parseConfigFile)

def toString (s : CString) : String := String.ofList (s.bytes.map fun b => Char.ofNat b.toNat)

/-- `help_cmd_handler` prints; the commands that it asks for are there. -/
def helpCmdHandler (_argc : ℤ) (_argv : List CString) : ErrorCode := .ok

def handle (ctx : Context) (handles : ℕ → ℕ) : Handler → ℤ → List CString → Context × ErrorCode
  | .rinetd, _, argv => rinetdCmdHandler ctx handles (argv.map toString)
  | .help, argc, argv => (ctx, helpCmdHandler argc argv)

/-- The process from its start: `g_context` is zero. -/
def program (served : Bool) (handles : ℕ → ℕ) (argv : List CString) : Outcome :=
  main served (fun h argc args => (handle Context.zero handles h argc args).2) argv

/-- "rinetd" -/
def rinetdName : List UInt8 := [114, 105, 110, 101, 116, 100]

/-- "help" -/
def helpName : List UInt8 := [104, 101, 108, 112]

/-- "--status" -/
def statusOption : List UInt8 := [45, 45, 115, 116, 97, 116, 117, 115]

def AsksOnly (command : List CString) : Prop :=
  ∃ cmd rest, command = cmd :: rest ∧
    (cmd.bytes = helpName ∨
      cmd.bytes = rinetdName ∧ ∃ arg ∈ rest.head?, arg.bytes = statusOption)

variable {served : Bool} {handles : ℕ → ℕ} {argv rest : List CString} {s : CString}

theorem toString_eq_iff (s' : CString) : toString s = toString s' ↔ s.bytes = s'.bytes := by
  unfold toString
  rw [String.ofList_inj]
  refine ⟨fun h => ?_, fun h => by rw [h]⟩
  apply List.map_injective_iff.mpr _ h
  intro a b hab
  have hvalid : ∀ c : UInt8, (Char.ofNat c.toNat).toNat = c.toNat := by
    intro c
    have hlt := c.toNat_lt
    have hchar : c.toNat.isValidChar := Or.inl (by omega)
    unfold Char.ofNat
    rw [dif_pos hchar]
    rfl
  have hnat := congrArg Char.toNat hab
  rw [hvalid, hvalid] at hnat
  exact UInt8.toNat_inj.mp hnat

theorem toString_status : toString s = "--status" ↔ s.bytes = statusOption :=
  toString_eq_iff ⟨statusOption, by decide⟩

/-- On a context that is not initialised only the status can be asked for, and
nothing changes. -/
theorem rinetdCmdHandler_zero (argv : List String) :
    (rinetdCmdHandler Context.zero handles argv).1 = Context.zero ∧
      ((rinetdCmdHandler Context.zero handles argv).2 = .ok ↔
        ∃ name rest, argv = name :: "--status" :: rest) := by
  have hstart : startService Context.zero handles = (Context.zero, .notSupported) := rfl
  have hstop : stopService Context.zero = (Context.zero, .notSupported) := rfl
  have hconfig : ∀ path, parseConfigFile Context.zero (some path) = .notSupported := fun _ => rfl
  match argv with
  | [] => exact ⟨rfl, by simp [rinetdCmdHandler]⟩
  | [_] => exact ⟨rfl, by simp [rinetdCmdHandler]⟩
  | name :: cmd :: rest =>
    unfold rinetdCmdHandler
    rw [hstart, hstop]
    by_cases hstatus : cmd = "--status"
    · subst hstatus
      exact ⟨rfl, iff_of_true rfl ⟨name, rest, rfl⟩⟩
    · have hno : ¬ ∃ name' rest', name :: cmd :: rest = name' :: "--status" :: rest' := by
        intro ⟨name', rest', heq⟩
        injection heq with _ heq
        injection heq with heq
        exact hstatus heq
      dsimp only
      split_ifs
      · exact ⟨rfl, iff_of_false (by simp) hno⟩
      · exact ⟨rfl, iff_of_false (by simp) hno⟩
      · cases rest with
        | nil => exact ⟨rfl, iff_of_false (by simp) hno⟩
        | cons path rest =>
          dsimp only
          rw [hconfig]
          exact ⟨rfl, iff_of_false (by simp) hno⟩
      · exact ⟨rfl, iff_of_false (by simp) hno⟩

theorem handle_zero (h : Handler) (argc : ℤ) (args : List CString) :
    (handle Context.zero handles h argc args).1 = Context.zero := by
  cases h with
  | rinetd => exact (rinetdCmdHandler_zero _).1
  | help => rfl

theorem status_iff {cmd : CString} (argc : ℤ) :
    (handle Context.zero handles .rinetd argc (cmd :: rest)).2 = .ok ↔
      ∃ arg ∈ rest.head?, arg.bytes = statusOption := by
  refine (rinetdCmdHandler_zero _).2.trans ?_
  cases rest with
  | nil => simp
  | cons arg rest => simp [toString_status]

def commandTable : Table Handler := ⟨[rinetdCmd .rinetd, helpCmd .help]⟩

section Execute
variable {run : Handler → ℤ → List CString → ErrorCode}

theorem execute_code (hserved : served = true) (level : ℤ) (hrest : rest ≠ []) :
    (execute served run level rest).code =
      if (polyCmdlineExecute run commandTable rest.length rest).2 = .ok then 0 else 1 := by
  have hinit : polyCmdlineInit Handler.rinetd = (⟨[rinetdCmd Handler.rinetd]⟩, .ok) := rfl
  have hhelp : polyCmdlineRegister ⟨[rinetdCmd Handler.rinetd]⟩ (some (helpCmd .help)) =
      (commandTable, .ok) := rfl
  unfold execute
  rw [if_neg (by simp [hserved]), hinit]
  dsimp only
  rw [hhelp]
  dsimp only
  rw [if_neg hrest]
  cases hcall : polyCmdlineExecute run commandTable rest.length rest with
  | mk calls code => cases code <;> rfl

theorem dispatch_ok_iff (cmd : CString) (args : List CString) :
    (polyCmdlineExecute run commandTable (cmd :: args).length (cmd :: args)).2 = .ok ↔
      cmd.bytes = helpName ∧ run .help (cmd :: args).length (cmd :: args) = .ok ∨
        cmd.bytes = rinetdName ∧ run .rinetd (cmd :: args).length (cmd :: args) = .ok := by
  have hdispatch : Dispatches commandTable commandTable.commands :=
    dispatches_of_distinct (by decide)
  have hargc : (1 : ℤ) ≤ (cmd :: args).length := by simp
  by_cases hhelp : cmd.bytes = helpName
  · have hne : cmd.bytes ≠ rinetdName := by
      rw [hhelp]
      decide
    rw [hdispatch.found run _ cmd args (helpCmd .help) hargc (by simp [commandTable]) hhelp.symm]
    simp only [hhelp, true_and, hhelp ▸ hne, false_and, or_false]
    rfl
  by_cases hrinetd : cmd.bytes = rinetdName
  · rw [hdispatch.found run _ cmd args (rinetdCmd .rinetd) hargc (by simp [commandTable])
      hrinetd.symm]
    have hne : rinetdName ≠ helpName := by decide
    simp only [hrinetd, hne, false_and, true_and, false_or]
    rfl
  · rw [hdispatch.missing run _ cmd args hargc]
    · simp [hhelp, hrinetd]
    · intro c hc htext
      rcases List.mem_cons.mp hc with rfl | hc
      · exact hrinetd htext.symm
      · cases List.mem_singleton.mp hc
        exact hhelp htext.symm

/-- The command decides on the exit code once both commands are registered. -/
theorem execute_code_iff (level : ℤ) :
    (execute served run level rest).code = 0 ↔ served = true ∧ ∃ cmd args, rest = cmd :: args ∧
      (cmd.bytes = helpName ∧ run .help rest.length rest = .ok ∨
        cmd.bytes = rinetdName ∧ run .rinetd rest.length rest = .ok) := by
  by_cases hserved : served = true
  · rw [and_iff_right hserved]
    cases rest with
    | nil =>
      have hcode : (execute served run level []).code = 1 := by
        rw [hserved]
        rfl
      rw [hcode]
      exact iff_of_false (by decide) fun ⟨_, _, heq, _⟩ => nomatch heq
    | cons cmd args =>
      rw [execute_code hserved level (List.cons_ne_nil _ _)]
      have hcommand := @dispatch_ok_iff run cmd args
      constructor
      · intro hcode
        refine ⟨cmd, args, rfl, hcommand.mp ?_⟩
        by_contra hne
        rw [if_neg hne] at hcode
        cases hcode
      · intro ⟨cmd', args', heq, hok⟩
        cases heq
        exact if_pos (hcommand.mpr hok)
  · have hcode : (execute served run level rest).code = 1 := by
      unfold execute
      rw [if_pos (by simpa using hserved)]
    rw [hcode]
    exact iff_of_false (by decide) fun h => hserved h.1

end Execute

/-- The process ends with 0 exactly if the layer is initialised, the options
are accepted, and the command asks for something to be printed; whatever is
asked for, the service is as it was. -/
theorem program_prints (served : Bool) (handles : ℕ → ℕ) (argv : List CString) :
    ((program served handles argv).code = 0 ↔
      served = true ∧ (∃ level, Tolerated argv.tail level) ∧ AsksOnly (remaining argv.tail)) ∧
    ∀ c ∈ (program served handles argv).calls,
      (handle Context.zero handles c.1 c.2.1 c.2.2).1 = Context.zero := by
  refine ⟨?_, fun c _ => handle_zero c.1 c.2.1 c.2.2⟩
  unfold program
  rcases main_cases served (fun h argc args => (handle Context.zero handles h argc args).2) argv
    with ⟨heq, hno⟩ | ⟨level, hlevel, heq⟩
  · rw [heq]
    exact iff_of_false (by decide) fun h => h.2.1.elim hno
  · rw [heq, execute_code_iff]
    refine and_congr_right fun _ => ?_
    rw [and_iff_right ⟨level, (hlevel level).mpr rfl⟩]
    unfold AsksOnly
    constructor
    · intro ⟨cmd, args, hrest, hor⟩
      refine ⟨cmd, args, hrest, ?_⟩
      rw [hrest] at hor
      exact hor.imp (fun h => h.1) fun h => ⟨h.1, (status_iff _).mp h.2⟩
    · intro ⟨cmd, args, hrest, hor⟩
      refine ⟨cmd, args, hrest, ?_⟩
      rw [hrest]
      exact hor.imp (fun h => ⟨h, rfl⟩) fun h => ⟨h.1, (status_iff _).mpr h.2⟩

end Ppdb.ProgramExit
