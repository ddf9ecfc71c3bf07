import Mathlib.Data.List.Nodup
import Ppdb.CStrings
import Ppdb.ErrorCodes
import Ppdb.HashOperations
import Ppdb.Transitions

/-!
The table of commands of the command line framework: registrations up to its
capacity, and the dispatch of a command line to the handler of its command.
-/

namespace Ppdb.CommandTables

open CStrings ErrorCodes Transitions
open HashOperations (CString)

def maxCount : ℕ := 32

def maxName : ℕ := 32

/-- An array of `POLY_CMD_MAX_NAME` characters that holds a string. -/
@[ext]
structure Name where
  bytes : List UInt8
  length_eq : bytes.length = maxName
  terminated : 0 ∈ bytes

instance : DecidableEq Name := fun _ _ => decidable_of_iff _ Name.ext_iff.symm

def Name.ofBytes (s : List UInt8) (h : s.length < maxName) : Name where
  bytes := s ++ List.replicate (maxName - s.length) 0
  length_eq := by
    rw [List.length_append, List.length_replicate]
    omega
  terminated := by
    apply List.mem_append_right
    exact List.mem_replicate.mpr ⟨by omega, rfl⟩

/-- What registration and dispatch need of `poly_cmd_t`. -/
structure Command (H : Type) where
  name : Name
  handler : H
  deriving DecidableEq

/-- `poly_cmdline_t`, without what is behind the last command -/
structure Table (H : Type) where
  commands : List (Command H)

variable {H : Type}

def polyCmdlineCleanup : Table H × ErrorCode := (⟨[]⟩, .ok)

def polyCmdlineRegister (t : Table H) : Option (Command H) → Table H × ErrorCode
  | none => (t, .invalidParam)
  | some cmd =>
    if maxCount ≤ t.commands.length then (t, .noMemory)
    else if t.commands.any fun c => strcmp c.name.bytes cmd.name.bytes = 0 then (t, .existing)
    else (⟨t.commands ++ [cmd]⟩, .ok)

/-- The command "rinetd" with its handler -/
def rinetdCmd (handler : H) : Command H where
  name := Name.ofBytes [114, 105, 110, 101, 116, 100] (by decide)
  handler := handler

def polyCmdlineInit (rinetdCmdHandler : H) : Table H × ErrorCode :=
  polyCmdlineRegister ⟨[]⟩ (some (rinetdCmd rinetdCmdHandler))

/-- `poly_cmdline_execute`: the calls of handlers that it makes, and its result.
The null pointer is the array without arguments. -/
def polyCmdlineExecute (run : H → ℤ → List CString → ErrorCode) (t : Table H) (argc : ℤ) :
    List CString → List (H × ℤ × List CString) × ErrorCode
  | [] => ([], .invalidParam)
  | cmdName :: rest =>
    if argc < 1 then ([], .invalidParam)
    else
      match t.commands.find? fun c => strcmp c.name.bytes (cmdName.bytes ++ [0]) = 0 with
      | none => ([], .notFound)
      | some c =>
        ([(c.handler, argc, cmdName :: rest)], run c.handler argc (cmdName :: rest))

def Command.text (cmd : Command H) : List UInt8 := CStrings.text cmd.name.bytes

inductive Call (H : Type)
  | init
  | register (cmd : Option (Command H))
  | cleanup

/-- The table, and the registrations accepted since it was last cleared. -/
structure History (H : Type) where
  table : Table H
  accepted : List (Command H)

def perform (rinetdCmdHandler : H) (s : History H) : Call H → History H
  | .init => ⟨(polyCmdlineInit rinetdCmdHandler).1, [rinetdCmd rinetdCmdHandler]⟩
  | .register cmd =>
    let r := polyCmdlineRegister s.table cmd
    ⟨r.1, s.accepted ++ if r.2 = .ok then cmd.toList else []⟩
  | .cleanup => ⟨(polyCmdlineCleanup (H := H)).1, []⟩

abbrev Run (rinetdCmdHandler : H) : History H → Prop :=
  Reachable ⟨⟨[]⟩, []⟩ (fun s c => some (perform rinetdCmdHandler s c)) fun _ _ => True

/-- Exactly the command called for is run, on the command line as it is. -/
structure Dispatches (t : Table H) (accepted : List (Command H)) : Prop where
  found : ∀ (run : H → ℤ → List CString → ErrorCode) (argc : ℤ) (cmdName : CString)
    (rest : List CString) (cmd : Command H), 1 ≤ argc → cmd ∈ accepted →
    cmd.text = cmdName.bytes → polyCmdlineExecute run t argc (cmdName :: rest) =
      ([(cmd.handler, argc, cmdName :: rest)], run cmd.handler argc (cmdName :: rest))
  missing : ∀ (run : H → ℤ → List CString → ErrorCode) (argc : ℤ) (cmdName : CString)
    (rest : List CString), 1 ≤ argc → (∀ cmd ∈ accepted, cmd.text ≠ cmdName.bytes) →
    polyCmdlineExecute run t argc (cmdName :: rest) = ([], .notFound)

structure TableRight (s : History H) : Prop where
  count : s.table.commands.length ≤ maxCount
  distinct : (s.table.commands.map Command.text).Nodup
  ordered : s.table.commands = s.accepted
  rejected : ∀ cmd, (polyCmdlineRegister s.table cmd).2 ≠ .ok →
    (polyCmdlineRegister s.table cmd).1 = s.table
  dispatches : Dispatches s.table s.accepted

variable {t : Table H} {s : History H}

/-! ### Names -/

theorem strcmp_names_iff (c cmd : Command H) :
    strcmp c.name.bytes cmd.name.bytes = 0 ↔ c.text = cmd.text :=
  strcmp_eq_zero_iff c.name.terminated cmd.name.terminated

theorem strcmp_argument_iff (c : Command H) (arg : CString) :
    strcmp c.name.bytes (arg.bytes ++ [0]) = 0 ↔ c.text = arg.bytes := by
  rw [strcmp_eq_zero_iff c.name.terminated (by simp), text_terminated arg.noNul]
  rfl

/-! ### Registration -/

/-- A registration that is accepted is put last, under a name of its own. -/
theorem register_cases (t : Table H) (cmd : Option (Command H)) :
    (∃ c, cmd = some c ∧ t.commands.length < maxCount ∧ c.text ∉ t.commands.map Command.text ∧
      polyCmdlineRegister t cmd = (⟨t.commands ++ [c]⟩, .ok)) ∨
    ∃ e, e ≠ .ok ∧ polyCmdlineRegister t cmd = (t, e) := by
  cases cmd with
  | none => exact Or.inr ⟨_, by simp, rfl⟩
  | some c =>
    unfold polyCmdlineRegister
    dsimp only
    by_cases hfull : maxCount ≤ t.commands.length
    · rw [if_pos hfull]
      exact Or.inr ⟨_, by simp, rfl⟩
    rw [if_neg hfull]
    by_cases hknown : (t.commands.any fun d => strcmp d.name.bytes c.name.bytes = 0) = true
    · rw [if_pos hknown]
      exact Or.inr ⟨_, by simp, rfl⟩
    · rw [if_neg hknown]
      refine Or.inl ⟨c, rfl, Nat.not_le.mp hfull, ?_, rfl⟩
      rw [List.mem_map]
      rintro ⟨d, hd, htext⟩
      apply hknown
      rw [List.any_eq_true]
      exact ⟨d, hd, decide_eq_true ((strcmp_names_iff d c).mpr htext)⟩

theorem register_rejected (cmd : Option (Command H)) (h : (polyCmdlineRegister t cmd).2 ≠ .ok) :
    (polyCmdlineRegister t cmd).1 = t := by
  rcases register_cases t cmd with ⟨c, _, _, _, heq⟩ | ⟨e, _, heq⟩
  · rw [heq] at h
    exact absurd rfl h
  · rw [heq]

/-! ### Runs -/

/-- What holds after every call. -/
structure Kept (s : History H) : Prop where
  count : s.table.commands.length ≤ maxCount
  distinct : (s.table.commands.map Command.text).Nodup
  ordered : s.table.commands = s.accepted

theorem kept_empty : Kept (⟨⟨[]⟩, []⟩ : History H) := ⟨Nat.zero_le _, List.nodup_nil, rfl⟩

theorem Kept.register (h : Kept s) (cmd : Option (Command H)) :
    Kept ⟨(polyCmdlineRegister s.table cmd).1,
      s.accepted ++ if (polyCmdlineRegister s.table cmd).2 = .ok then cmd.toList else []⟩ := by
  rcases register_cases s.table cmd with ⟨c, rfl, hroom, hnew, heq⟩ | ⟨e, hne, heq⟩
  · rw [heq]
    refine ⟨?_, ?_, ?_⟩
    · rw [List.length_append]
      exact hroom
    · rw [List.map_append, List.nodup_append_comm]
      exact List.nodup_cons.mpr ⟨hnew, h.distinct⟩
    · rw [if_pos rfl, ← h.ordered]
      rfl
  · rw [heq, if_neg hne, List.append_nil]
    exact ⟨h.count, h.distinct, h.ordered⟩

theorem Kept.perform (h : Kept s) (rinetdCmdHandler : H) (c : Call H) :
    Kept (perform rinetdCmdHandler s c) := by
  cases c with
  | init =>
    have hinit : polyCmdlineInit rinetdCmdHandler = (⟨[rinetdCmd rinetdCmdHandler]⟩, .ok) := rfl
    have hkept := kept_empty.register (some (rinetdCmd rinetdCmdHandler))
    unfold CommandTables.perform
    rw [hinit]
    exact hkept
  | register cmd => exact h.register cmd
  | cleanup => exact kept_empty

theorem kept_of_run {rinetdCmdHandler : H} (h : Run rinetdCmdHandler s) : Kept s := by
  apply h.invariant kept_empty
  intro s c s' hkept _ hstep
  cases hstep
  exact hkept.perform rinetdCmdHandler c

/-! ### Dispatch -/

theorem dispatches_of_distinct (hdistinct : (t.commands.map Command.text).Nodup) :
    Dispatches t t.commands where
  found run argc cmdName rest cmd hargc hmem htext := by
    have hfind : t.commands.find?
        (fun c => strcmp c.name.bytes (cmdName.bytes ++ [0]) = 0) = some cmd := by
      cases hfind : t.commands.find? fun c => strcmp c.name.bytes (cmdName.bytes ++ [0]) = 0 with
      | none =>
        have hne := List.find?_eq_none.mp hfind cmd hmem
        rw [decide_eq_true_iff, strcmp_argument_iff] at hne
        exact absurd htext hne
      | some c =>
        have hc := List.find?_some hfind
        rw [decide_eq_true_iff, strcmp_argument_iff, ← htext] at hc
        have hsame := List.inj_on_of_nodup_map hdistinct (List.mem_of_find?_eq_some hfind) hmem hc
        rw [hsame]
    unfold polyCmdlineExecute
    dsimp only
    rw [if_neg (by omega), hfind]
  missing run argc cmdName rest hargc hnone := by
    have hfind : t.commands.find?
        (fun c => strcmp c.name.bytes (cmdName.bytes ++ [0]) = 0) = none := by
      rw [List.find?_eq_none]
      intro c hc
      rw [decide_eq_true_iff, strcmp_argument_iff]
      exact hnone c hc
    unfold polyCmdlineExecute
    dsimp only
    rw [if_neg (by omega), hfind]

/-- In every run the table is the list of the registrations accepted since it
was last cleared, under distinct names, and dispatch follows it. -/
theorem commandTable_right {rinetdCmdHandler : H} (h : Run rinetdCmdHandler s) : TableRight s := by
  have hkept := kept_of_run h
  refine ⟨hkept.count, hkept.distinct, hkept.ordered, fun cmd => register_rejected cmd, ?_⟩
  rw [← hkept.ordered]
  exact dispatches_of_distinct hkept.distinct

/-- The command "help" of the main program -/
def helpCmd (handler : H) : Command H where
  name := Name.ofBytes [104, 101, 108, 112] (by decide)
  handler := handler

/-- The table of the main program: "rinetd" and "help". -/
theorem commandTable_right_help : ∃ s, Run 1 s ∧ s.table.commands.length = 2 ∧
    polyCmdlineExecute (fun _ _ _ => .ok) s.table 1 [⟨[104, 101, 108, 112], by decide⟩] =
      ([(2, 1, [⟨[104, 101, 108, 112], by decide⟩])], .ok) := by
  have hinit : Run 1 _ := Reachable.init.step (a := .init) trivial rfl
  have hboth : Run 1 _ := hinit.step (a := .register (some (helpCmd 2))) trivial rfl
  refine ⟨_, hboth, by decide, ?_⟩
  have hdispatches := (commandTable_right hboth).dispatches
  exact hdispatches.found _ 1 _ [] (helpCmd 2) (by decide) (by decide) (by decide)

end Ppdb.CommandTables
