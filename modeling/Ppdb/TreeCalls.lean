import Ppdb.TreeMaps

/-!
Sequences of calls on a tree created empty. A call is performed with a bound
on its iterations, and a larger bound changes nothing once there is a result,
so that a run can be computed.
-/

namespace Ppdb.TreeCalls

open ErrorCodes ColoredTrees TreeOperations EventualResults

/-- A call, with the reply of the allocator where memory is asked for. -/
inductive Call
  | insert (reply : ℕ) (key : ℤ) (value : ℕ)
  | remove (key : ℤ)
  | find (key : ℤ)
  | clear
  deriving DecidableEq, Repr

inductive Answer
  | code (e : ErrorCode)
  | value (v : ℕ)
  | nothing
  deriving DecidableEq, Repr

def perform (fuel : ℕ) (s : State) : Call → Except Fault (State × Answer)
  | .insert reply key value =>
    (infraRbtreeInsert fuel reply s key value).map fun r => (r.1, Answer.code r.2)
  | .remove key => (infraRbtreeRemove fuel s key).map fun r => (r.1, Answer.value r.2)
  | .find key => (infraRbtreeFind fuel s key).map fun v => (s, Answer.value v)
  | .clear => (infraRbtreeClear fuel s).map fun s => (s, Answer.nothing)

def Admissible (s : State) : Call → Prop
  | .insert reply _ _ => s.heap reply = none
  | _ => True

/-- A run from the empty tree, latest call first, of calls that `allowed` admits. -/
inductive Run (allowed : State → Call → Prop) : List (Call × Answer) → State → Prop
  | create : Run allowed [] infraRbtreeCreate
  | call {past : List (Call × Answer)} {s s' : State} {call : Call} {answer : Answer}
      (hpast : Run allowed past s) (hadmissible : Admissible s call) (hallowed : allowed s call)
      (hrun : Settles (fun fuel => perform fuel s call) (.ok (s', answer))) :
      Run allowed ((call, answer) :: past) s'

/-! ### Larger bounds -/

section Extends
variable (s : State) (key : ℤ)

theorem search_extends (parent current n : ℕ) : Extends .outOfFuel (search key n s parent current)
    (search key (n + 1) s parent current) := by
  induction n generalizing parent current with
  | zero => exact extends_of_error
  | succ n ih =>
    unfold search
    exact (Extends.refl _).ite ((Extends.refl _).bind fun m =>
      (ih _ _).ite ((ih _ _).ite (Extends.refl _)))

theorem fixInsertLoop_extends (node n : ℕ) : Extends .outOfFuel (fixInsertLoop n s node)
    (fixInsertLoop (n + 1) s node) := by
  induction n generalizing s node with
  | zero => exact extends_of_error
  | succ n ih =>
    unfold fixInsertLoop
    exact (Extends.refl _).ite ((Extends.refl _).bind fun m => (Extends.refl _).bind fun p =>
      Extends.ite ((Extends.refl _).bind fun q => (Extends.refl _).bind fun r => ih _ _)
        (Extends.refl _))

theorem fixDeleteLoop_extends (node n : ℕ) : Extends .outOfFuel (fixDeleteLoop n s node)
    (fixDeleteLoop (n + 1) s node) := by
  induction n generalizing s node with
  | zero => exact extends_of_error
  | succ n ih =>
    unfold fixDeleteLoop
    exact (Extends.refl _).ite ((Extends.refl _).bind fun m =>
      Extends.ite ((Extends.refl _).bind fun q => (Extends.refl _).bind fun r => ih _ _)
        (Extends.refl _))

theorem leftmost_extends (y n : ℕ) : Extends .outOfFuel (leftmost n s y) (leftmost (n + 1) s y) := by
  induction n generalizing y with
  | zero => exact extends_of_error
  | succ n ih =>
    unfold leftmost
    exact (Extends.refl _).bind fun m => (ih _).ite (Extends.refl _)

theorem clearNode_extends (node n : ℕ) : Extends .outOfFuel (clearNode n s node)
    (clearNode (n + 1) s node) := by
  induction n generalizing s node with
  | zero => exact extends_of_error
  | succ n ih =>
    unfold clearNode
    exact (Extends.refl _).ite ((Extends.refl _).bind fun m => (ih _ _).bind fun s =>
      (Extends.refl _).bind fun m => (ih _ _).bind fun s => Extends.refl _)

theorem fixDelete_extends (node n : ℕ) : Extends .outOfFuel (fixDelete n s node)
    (fixDelete (n + 1) s node) :=
  (fixDeleteLoop_extends s node n).bind fun _ => Extends.refl _

theorem splice_extends (node y n : ℕ) : Extends .outOfFuel (splice n s node y)
    (splice (n + 1) s node y) := by
  unfold splice
  refine (Extends.refl _).bind fun m => (Extends.refl _).bind fun s => (Extends.refl _).bind ?_
  intro s
  exact Extends.ite ((Extends.refl _).bind fun s => (fixDelete_extends _ _ _).ite (Extends.refl _))
    ((fixDelete_extends _ _ _).ite (Extends.refl _))

theorem perform_extends (call : Call) (n : ℕ) :
    Extends .outOfFuel (perform n s call) (perform (n + 1) s call) := by
  cases call with
  | insert i key value =>
    refine Extends.map ?_ _
    refine (Extends.refl _).ite ((search_extends _ _ _ _ _).bind ?_)
    intro r
    exact (Extends.refl _).ite ((Extends.refl _).bind fun s =>
      ((fixInsertLoop_extends _ _ _).bind fun s => Extends.refl _).bind fun s => Extends.refl _)
  | remove key =>
    refine Extends.map ((search_extends _ _ _ _ _).bind ?_) _
    intro r
    refine (Extends.refl _).ite ((Extends.refl _).bind fun m => Extends.ite ?_ ?_)
    · exact (Extends.refl _).bind fun y => (splice_extends _ _ _ _).bind fun s => Extends.refl _
    · exact (leftmost_extends _ _ _).bind fun y =>
        (splice_extends _ _ _ _).bind fun s => Extends.refl _
  | find key => exact ((search_extends _ _ _ _ _).bind fun r => Extends.refl _).map _
  | clear => exact ((clearNode_extends _ _ _).bind fun s => Extends.refl _).map _

end Extends

instance (s : State) : (call : Call) → Decidable (Admissible s call)
  | .insert reply _ _ => inferInstanceAs (Decidable (s.heap reply = none))
  | .remove _ => inferInstanceAs (Decidable True)
  | .find _ => inferInstanceAs (Decidable True)
  | .clear => inferInstanceAs (Decidable True)

def exec (fuel : ℕ) : List Call → Option (List (Call × Answer) × State)
  | [] => some ([], infraRbtreeCreate)
  | call :: calls => match exec fuel calls with
    | none => none
    | some (past, s) =>
      if Admissible s call then
        match perform fuel s call with
        | .ok (s', answer) => some ((call, answer) :: past, s')
        | .error _ => none
      else none

/-- What has been computed is a run of these calls. -/
theorem run_of_exec {allowed : State → Call → Prop} {n : ℕ} {calls : List Call}
    {past : List (Call × Answer)} {s : State} (h : exec n calls = some (past, s))
    (hallowed : ∀ s, ∀ call ∈ calls, allowed s call) :
    Run allowed past s ∧ past.map Prod.fst = calls := by
  induction calls generalizing past s with
  | nil =>
    injection h with h
    injection h with hpast hs
    rw [← hpast, ← hs]
    exact ⟨Run.create, rfl⟩
  | cons call calls ih =>
    cases hexec : exec n calls with
    | none => simp [exec, hexec] at h
    | some r =>
      obtain ⟨past₁, s₁⟩ := r
      obtain ⟨hrun₁, hcalls₁⟩ :=
        ih hexec fun s call hcall => hallowed s call (List.mem_cons_of_mem _ hcall)
      by_cases hadmissible : Admissible s₁ call
      · cases hperform : perform n s₁ call with
        | error e => simp [exec, hexec, hadmissible, hperform] at h
        | ok r =>
          obtain ⟨s₂, answer⟩ := r
          simp only [exec, hexec, if_pos hadmissible, hperform, Option.some.injEq,
            Prod.mk.injEq] at h
          rw [← h.1, ← h.2]
          refine ⟨Run.call hrun₁ hadmissible (hallowed s₁ call List.mem_cons_self)
            (settles_of_extends (perform_extends s₁ call) hperform (by simp)), ?_⟩
          rw [List.map_cons, hcalls₁]
      · simp [exec, hexec, hadmissible] at h

/-- A run whose last state has passed a test. -/
theorem exists_run {allowed : State → Call → Prop} (n : ℕ) (calls : List Call) (P : State → Bool)
    (h : (exec n calls).any (fun r => P r.2) = true)
    (hallowed : ∀ s, ∀ call ∈ calls, allowed s call) :
    ∃ past s, Run allowed past s ∧ past.map Prod.fst = calls ∧ P s = true := by
  cases hexec : exec n calls with
  | none => simp [hexec] at h
  | some r =>
    obtain ⟨past, s⟩ := r
    rw [hexec] at h
    obtain ⟨hrun, hcalls⟩ := run_of_exec hexec hallowed
    exact ⟨past, s, hrun, hcalls, h⟩

def isNullDeref {α : Type} : Except Fault α → Bool
  | .error .nullDeref => true
  | _ => false

theorem eq_of_isNullDeref {α : Type} {r : Except Fault α} (h : isNullDeref r = true) :
    r = .error .nullDeref := by
  unfold isNullDeref at h
  split at h
  · rfl
  · cases h

end Ppdb.TreeCalls
