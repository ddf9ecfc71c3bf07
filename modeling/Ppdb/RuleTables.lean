import Ppdb.RinetdContext
import Ppdb.Transitions

/-!
The table of rules over any sequence of additions and removals. Removed rules
stay as disabled entries, and only the removal of the last entry makes the
table shorter; the enabled entries have distinct sources throughout.
-/

namespace Ppdb.RuleTables

open CStrings ErrorCodes RinetdContext Transitions

inductive Call
  | add (rule : Option Rule)
  | remove (index : ℤ)

def answer (ctx : Context) : Call → Context × ErrorCode
  | .add rule => rinetdAddRule ctx rule
  | .remove index => rinetdRemoveRule ctx index

/-- Tables that calls make of the one in `ctx`. -/
abbrev TableRun (ctx : Context) : Context → Prop :=
  Reachable ctx (fun ctx c => some (answer ctx c).1) (fun _ _ => True)

def source (r : Rule) : List UInt8 × ℤ := (text r.srcAddr.bytes, r.srcPort)

def IsEmpty (ctx : Context) : Prop :=
  ctx.running = false ∧ ctx.ruleCount = 0 ∧ ∀ i, (ctx.rules i).enabled = false

structure Table (ctx : Context) : Prop where
  idle : ctx.running = false
  fits : ctx.ruleCount ≤ maxRules
  beyond : ∀ i, ctx.ruleCount ≤ i → (ctx.rules i).enabled = false
  distinct : ∀ i j, (ctx.rules i).enabled = true → (ctx.rules j).enabled = true →
    source (ctx.rules i) = source (ctx.rules j) → i = j

/-- What a call of `rinetd_add_rule` promises. -/
def AddRight (ctx : Context) (rule : Rule) (after : Context) (e : ErrorCode) : Prop :=
  (e = .existing ↔ ctx.ruleCount < maxRules ∧
    ∃ i, (ctx.rules i).enabled = true ∧ source (ctx.rules i) = source rule) ∧
  (e = .ok → after.ruleCount = ctx.ruleCount + 1 ∧ after.rules ctx.ruleCount = rule ∧
    ∀ i, i ≠ ctx.ruleCount → after.rules i = ctx.rules i)

/-- What a call of `rinetd_remove_rule` promises. -/
def RemoveRight (ctx : Context) (index : ℤ) (after : Context) (e : ErrorCode) : Prop :=
  e = .ok → ∃ i : ℕ, index = i ∧ i < ctx.ruleCount ∧
    after.rules i = { ctx.rules i with enabled := false } ∧
    (∀ j, j ≠ i → after.rules j = ctx.rules j) ∧
    after.ruleCount = (if i + 1 = ctx.ruleCount then ctx.ruleCount - 1 else ctx.ruleCount) ∧
    ((ctx.rules i).enabled = true →
      ∀ j, (after.rules j).enabled = true → source (after.rules j) ≠ source (ctx.rules i))

def AnswerRight (ctx : Context) (c : Call) : Prop :=
  ((answer ctx c).2 ≠ .ok → (answer ctx c).1 = ctx) ∧
  match c with
  | .add none => True
  | .add (some rule) => AddRight ctx rule (answer ctx c).1 (answer ctx c).2
  | .remove index => RemoveRight ctx index (answer ctx c).1 (answer ctx c).2

variable {ctx ctx' : Context} {rule : Rule} {i j : ℕ}

/-! ### Sources -/

theorem sameSource_iff (r rule : Rule) : sameSource r rule = true ↔ source r = source rule := by
  unfold sameSource source
  rw [Bool.and_eq_true, decide_eq_true_iff, decide_eq_true_iff,
    strcmp_eq_zero_iff r.srcAddr.terminated rule.srcAddr.terminated, Prod.mk.injEq]
  exact and_comm

/-- The search goes over the entries in use; the others are disabled. -/
theorem isDuplicate_iff (h : Table ctx) (rule : Rule) : isDuplicate ctx rule = true ↔
    ∃ i, (ctx.rules i).enabled = true ∧ source (ctx.rules i) = source rule := by
  simp only [isDuplicate, List.any_eq_true, List.mem_range, Bool.and_eq_true, sameSource_iff]
  constructor
  · rintro ⟨i, _, hi⟩
    exact ⟨i, hi⟩
  · rintro ⟨i, henabled, hsource⟩
    refine ⟨i, ?_, henabled, hsource⟩
    by_contra hbeyond
    rw [h.beyond i (not_lt.mp hbeyond)] at henabled
    cases henabled

/-! ### The two calls -/

theorem rinetdAddRule_room (hroom : ctx.ruleCount < maxRules) (hnew : isDuplicate ctx rule = false) :
    rinetdAddRule ctx (some rule) = ({ ctx with
      rules := Function.update ctx.rules ctx.ruleCount rule
      ruleCount := ctx.ruleCount + 1 }, .ok) := by
  simp [rinetdAddRule, not_le.mpr hroom, hnew]

theorem rinetdAddRule_spec (ctx : Context) (rule : Rule) :
    (maxRules ≤ ctx.ruleCount ∧ rinetdAddRule ctx (some rule) = (ctx, .noMemory)) ∨
    (ctx.ruleCount < maxRules ∧ isDuplicate ctx rule = true ∧
      rinetdAddRule ctx (some rule) = (ctx, .existing)) ∨
    (ctx.ruleCount < maxRules ∧ isDuplicate ctx rule = false ∧
      rinetdAddRule ctx (some rule) = ({ ctx with
        rules := Function.update ctx.rules ctx.ruleCount rule
        ruleCount := ctx.ruleCount + 1 }, .ok)) := by
  by_cases hfull : maxRules ≤ ctx.ruleCount
  · exact Or.inl ⟨hfull, by simp [rinetdAddRule, hfull]⟩
  · have hroom := not_le.mp hfull
    cases hdup : isDuplicate ctx rule with
    | true => exact Or.inr (Or.inl ⟨hroom, rfl, by simp [rinetdAddRule, hfull, hdup]⟩)
    | false => exact Or.inr (Or.inr ⟨hroom, rfl, rinetdAddRule_room hroom hdup⟩)

theorem rinetdRemoveRule_spec (h : ctx.running = false) (index : ℤ) :
    rinetdRemoveRule ctx index = (ctx, .invalidParam) ∨
    ∃ i : ℕ, index = i ∧ i < ctx.ruleCount ∧
      rinetdRemoveRule ctx index = ({ ctx with
        rules := Function.update ctx.rules i { ctx.rules i with enabled := false }
        ruleCount := if i + 1 = ctx.ruleCount then ctx.ruleCount - 1 else ctx.ruleCount }, .ok) := by
  by_cases hout : index < 0 ∨ (ctx.ruleCount : ℤ) ≤ index
  · exact Or.inl (if_pos hout)
  · rw [not_or, Int.not_lt, Int.not_le] at hout
    obtain ⟨i, rfl⟩ := Int.eq_ofNat_of_zero_le hout.1
    refine Or.inr ⟨i, rfl, Int.ofNat_lt.mp hout.2, ?_⟩
    have hin : ¬ ((i : ℤ) < 0 ∨ (ctx.ruleCount : ℤ) ≤ i) := by omega
    rw [rinetdRemoveRule, if_neg hin, h]
    simp

theorem enabled_of_removed (henabled :
    (Function.update ctx.rules i { ctx.rules i with enabled := false } j).enabled = true) :
    j ≠ i ∧ (ctx.rules j).enabled = true := by
  by_cases hji : j = i
  · rw [hji, Function.update_self] at henabled
    cases henabled
  · rw [Function.update_of_ne hji] at henabled
    exact ⟨hji, henabled⟩

/-! ### The invariant -/

theorem Table.of_empty (h : IsEmpty ctx) : Table ctx := by
  obtain ⟨hidle, hcount, hnone⟩ := h
  refine ⟨hidle, ?_, fun i _ => hnone i, ?_⟩
  · rw [hcount]
    exact Nat.zero_le _
  · intro i j hi
    rw [hnone i] at hi
    cases hi

theorem Table.add (h : Table ctx) (hroom : ctx.ruleCount < maxRules)
    (hnew : isDuplicate ctx rule = false) : Table { ctx with
      rules := Function.update ctx.rules ctx.ruleCount rule
      ruleCount := ctx.ruleCount + 1 } := by
  have hfresh : ∀ i, (ctx.rules i).enabled = true → source (ctx.rules i) ≠ source rule := by
    intro i henabled hsource
    rw [(isDuplicate_iff h rule).mpr ⟨i, henabled, hsource⟩] at hnew
    cases hnew
  refine ⟨h.idle, hroom, ?_, ?_⟩
  · intro i hi
    have hne : i ≠ ctx.ruleCount := by
      change ctx.ruleCount + 1 ≤ i at hi
      omega
    show (Function.update ctx.rules ctx.ruleCount rule i).enabled = false
    rw [Function.update_of_ne hne]
    exact h.beyond i (Nat.le_of_succ_le hi)
  · intro i j hi hj hsource
    dsimp only at hi hj hsource
    by_cases hic : i = ctx.ruleCount
    · by_cases hjc : j = ctx.ruleCount
      · rw [hic, hjc]
      · rw [hic, Function.update_self, Function.update_of_ne hjc] at hsource
        rw [Function.update_of_ne hjc] at hj
        exact absurd hsource.symm (hfresh j hj)
    · rw [Function.update_of_ne hic] at hi hsource
      by_cases hjc : j = ctx.ruleCount
      · rw [hjc, Function.update_self] at hsource
        exact absurd hsource (hfresh i hi)
      · rw [Function.update_of_ne hjc] at hj hsource
        exact h.distinct i j hi hj hsource

theorem Table.remove (h : Table ctx) (i : ℕ) : Table { ctx with
      rules := Function.update ctx.rules i { ctx.rules i with enabled := false }
      ruleCount := if i + 1 = ctx.ruleCount then ctx.ruleCount - 1 else ctx.ruleCount } := by
  refine ⟨h.idle, ?_, ?_, ?_⟩
  · have hfits := h.fits
    dsimp only
    split <;> omega
  · intro j hj
    cases henabled : (Function.update ctx.rules i { ctx.rules i with enabled := false } j).enabled with
    | false => rfl
    | true =>
      obtain ⟨_, hold⟩ := enabled_of_removed henabled
      have hbeyond : ctx.ruleCount ≤ j := by
        dsimp only at hj
        split at hj <;> omega
      rw [h.beyond j hbeyond] at hold
      cases hold
  · intro j k hj hk hsource
    obtain ⟨hji, hj⟩ := enabled_of_removed hj
    obtain ⟨hki, hk⟩ := enabled_of_removed hk
    dsimp only at hsource
    rw [Function.update_of_ne hji, Function.update_of_ne hki] at hsource
    exact h.distinct j k hj hk hsource

theorem Table.keep (h : Table ctx) (c : Call) : Table (answer ctx c).1 := by
  cases c with
  | add rule =>
    cases rule with
    | none => exact h
    | some rule =>
      rcases rinetdAddRule_spec ctx rule with ⟨_, heq⟩ | ⟨_, _, heq⟩ | ⟨hroom, hnew, heq⟩
      · rwa [answer, heq]
      · rwa [answer, heq]
      · rw [answer, heq]
        exact h.add hroom hnew
  | remove index =>
    rcases rinetdRemoveRule_spec h.idle index with heq | ⟨i, _, _, heq⟩
    · rwa [answer, heq]
    · rw [answer, heq]
      exact h.remove i

theorem table_of_run (hempty : IsEmpty ctx) (h : TableRun ctx ctx') : Table ctx' := by
  apply h.invariant (Table.of_empty hempty)
  intro t c t' ht _ hstep
  injection hstep with hstep
  rw [← hstep]
  exact ht.keep c

/-! ### Every call -/

theorem Table.addRight (h : Table ctx) (rule : Rule) :
    AddRight ctx rule (rinetdAddRule ctx (some rule)).1 (rinetdAddRule ctx (some rule)).2 := by
  rcases rinetdAddRule_spec ctx rule with ⟨hfull, heq⟩ | ⟨hroom, hdup, heq⟩ | ⟨hroom, hnew, heq⟩
  · rw [heq]
    refine ⟨iff_of_false (by simp) ?_, by simp⟩
    rintro ⟨hroom, _⟩
    exact absurd hfull (not_le.mpr hroom)
  · rw [heq]
    exact ⟨iff_of_true rfl ⟨hroom, (isDuplicate_iff h rule).mp hdup⟩, by simp⟩
  · rw [heq]
    refine ⟨iff_of_false (by simp) ?_, fun _ => ⟨rfl, Function.update_self _ _ _, ?_⟩⟩
    · rintro ⟨_, htaken⟩
      rw [(isDuplicate_iff h rule).mpr htaken] at hnew
      cases hnew
    · intro i hi
      exact Function.update_of_ne hi _ _

theorem Table.removeRight (h : Table ctx) (index : ℤ) :
    RemoveRight ctx index (rinetdRemoveRule ctx index).1 (rinetdRemoveRule ctx index).2 := by
  rcases rinetdRemoveRule_spec h.idle index with heq | ⟨i, hindex, hi, heq⟩
  · rw [heq]
    intro hok
    cases hok
  · rw [heq]
    intro _
    refine ⟨i, hindex, hi, Function.update_self _ _ _, fun j hj => Function.update_of_ne hj _ _,
      rfl, ?_⟩
    intro hwas j hj hsource
    obtain ⟨hji, hold⟩ := enabled_of_removed hj
    dsimp only at hsource
    rw [Function.update_of_ne hji] at hsource
    exact hji (h.distinct j i hold hwas hsource)

theorem Table.answerRight (h : Table ctx) (c : Call) : AnswerRight ctx c := by
  cases c with
  | add rule =>
    cases rule with
    | none => exact ⟨fun _ => rfl, trivial⟩
    | some rule =>
      refine ⟨?_, h.addRight rule⟩
      intro hfailed
      rcases rinetdAddRule_spec ctx rule with ⟨_, heq⟩ | ⟨_, _, heq⟩ | ⟨_, _, heq⟩
      · rw [answer, heq]
      · rw [answer, heq]
      · rw [answer, heq] at hfailed
        exact absurd rfl hfailed
  | remove index =>
    refine ⟨?_, h.removeRight index⟩
    intro hfailed
    rcases rinetdRemoveRule_spec h.idle index with heq | ⟨i, _, _, heq⟩
    · rw [answer, heq]
    · rw [answer, heq] at hfailed
      exact absurd rfl hfailed

/-- In every table that calls on an empty one make, the enabled entries have
distinct sources and every further call does what it promises. -/
theorem table_right (hempty : IsEmpty ctx) (h : TableRun ctx ctx') :
    (∀ i j, (ctx'.rules i).enabled = true → (ctx'.rules j).enabled = true →
      source (ctx'.rules i) = source (ctx'.rules j) → i = j) ∧
    ∀ c, AnswerRight ctx' c := by
  have htable := table_of_run hempty h
  exact ⟨htable.distinct, htable.answerRight⟩

theorem isEmpty_zero : IsEmpty Context.zero := ⟨rfl, rfl, fun _ => rfl⟩

def ruleOn (port : ℤ) : Rule := ⟨Address.zero, port, Address.zero, 0, true⟩

/-- One rule is added, and a second one at the same source refused. -/
theorem table_right_one :
    ∃ ctx, TableRun Context.zero ctx ∧ ctx.ruleCount = 1 ∧ AnswerRight ctx (.add (some (ruleOn 1))) := by
  obtain ⟨ctx, hrun, hcount⟩ : ∃ ctx, TableRun Context.zero ctx ∧ decide (ctx.ruleCount = 1) = true :=
    exists_reachable [.add (some (ruleOn 1))] _ (by decide)
  exact ⟨ctx, hrun, of_decide_eq_true hcount, (table_right isEmpty_zero hrun).2 _⟩

/-- The first of two rules is removed and added again as the third: the first
entry can be removed once more, and the third keeps its source. -/
theorem removed_source_is_enabled :
    ∃ ctx, TableRun Context.zero ctx ∧ (rinetdRemoveRule ctx 0).2 = .ok ∧
      ((rinetdRemoveRule ctx 0).1.rules 2).enabled = true ∧
      source ((rinetdRemoveRule ctx 0).1.rules 2) = source (ctx.rules 0) := by
  obtain ⟨ctx, hrun, hctx⟩ : ∃ ctx, TableRun Context.zero ctx ∧
      decide ((rinetdRemoveRule ctx 0).2 = .ok ∧
        ((rinetdRemoveRule ctx 0).1.rules 2).enabled = true ∧
        source ((rinetdRemoveRule ctx 0).1.rules 2) = source (ctx.rules 0)) = true :=
    exists_reachable [.add (some (ruleOn 1)), .add (some (ruleOn 2)), .remove 0,
      .add (some (ruleOn 1))] _ (by decide)
  exact ⟨ctx, hrun, of_decide_eq_true hctx⟩

end Ppdb.RuleTables
