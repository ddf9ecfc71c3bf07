import Ppdb.RuleTables
import Mathlib.Data.Finset.Card
import Mathlib.Data.Finset.Image

/-!
What becomes of the room of removed rules. Only the removal of the last entry
makes room; a rule removed before it leaves an entry that nothing uses again,
and in the end the table is full although rules are missing.
-/

namespace Ppdb.RuleCapacity

open ErrorCodes RinetdContext Transitions RuleTables

def present (ctx : Context) : List ℕ :=
  (List.range ctx.ruleCount).filter fun i => (ctx.rules i).enabled

/-- A new rule is refused for lack of room only if there are as many rules. -/
def CapacityRight (ctx : Context) : Prop :=
  ∀ rule, rule.enabled = true →
    (∀ i, (ctx.rules i).enabled = true → source (ctx.rules i) ≠ source rule) →
    (rinetdAddRule ctx (some rule)).2 = .noMemory → maxRules ≤ (present ctx).length

def AddsEnabled (_ : Context) : Call → Prop
  | .add (some rule) => rule.enabled = true
  | _ => True

def RemovesLast (ctx : Context) : Call → Prop
  | .remove index => 0 ≤ index → index < ctx.ruleCount → index + 1 = ctx.ruleCount
  | _ => True

def step (ctx : Context) (c : Call) : Option Context := some (answer ctx c).1

/-- All entries are those of rules that are present. -/
structure Packed (ctx : Context) : Prop where
  table : Table ctx
  enabled : ∀ i, i < ctx.ruleCount → (ctx.rules i).enabled = true

variable {init ctx ctx' : Context} {c : Call} {i k : ℕ} {rule : Rule}

/-! ### Without holes -/

theorem Packed.of_empty (h : IsEmpty ctx) : Packed ctx := by
  refine ⟨Table.of_empty h, ?_⟩
  intro i hi
  rw [h.2.1] at hi
  cases hi

theorem Packed.step (h : Packed ctx) (hadds : AddsEnabled ctx c) (hlast : RemovesLast ctx c)
    (hstep : step ctx c = some ctx') : Packed ctx' := by
  obtain rfl := Option.some.inj hstep
  refine ⟨h.table.keep c, ?_⟩
  cases c with
  | add rule =>
    cases rule with
    | none => exact h.enabled
    | some rule =>
      rcases rinetdAddRule_spec ctx rule with ⟨_, heq⟩ | ⟨_, _, heq⟩ | ⟨_, _, heq⟩
      · rw [answer, heq]
        exact h.enabled
      · rw [answer, heq]
        exact h.enabled
      · rw [answer, heq]
        intro i hi
        dsimp only at hi ⊢
        rcases Nat.lt_succ_iff_lt_or_eq.mp hi with hlt | rfl
        · rw [Function.update_of_ne (Nat.ne_of_lt hlt)]
          exact h.enabled i hlt
        · rw [Function.update_self]
          exact hadds
  | remove index =>
    rcases rinetdRemoveRule_spec h.table.idle index with heq | ⟨k, rfl, hk, heq⟩
    · rw [answer, heq]
      exact h.enabled
    · have hend : k + 1 = ctx.ruleCount := by
        have := hlast (Int.natCast_nonneg k) (Int.ofNat_lt.mpr hk)
        omega
      rw [answer, heq]
      intro i hi
      dsimp only at hi ⊢
      rw [if_pos hend] at hi
      rw [Function.update_of_ne (by omega)]
      exact h.enabled i (by omega)

theorem Packed.capacityRight (h : Packed ctx) : CapacityRight ctx := by
  intro rule _ _ hfull
  have hall : present ctx = List.range ctx.ruleCount :=
    List.filter_eq_self.mpr fun i hi => h.enabled i (List.mem_range.mp hi)
  rw [hall, List.length_range]
  rcases rinetdAddRule_spec ctx rule with ⟨hcount, _⟩ | ⟨_, _, heq⟩ | ⟨_, _, heq⟩
  · exact hcount
  · rw [heq] at hfull
    cases hfull
  · rw [heq] at hfull
    cases hfull

/-! ### With a hole -/

/-- A rule on a port that no entry has. -/
theorem exists_unused (h : Table ctx) : ∃ rule : Rule, rule.enabled = true ∧
    ∀ i, (ctx.rules i).enabled = true → source (ctx.rules i) ≠ source rule := by
  let used : Finset ℤ := (Finset.range ctx.ruleCount).image fun i => (ctx.rules i).srcPort
  let ports : Finset ℤ := (Finset.range (maxRules + 1)).image fun n : ℕ => (n : ℤ)
  have hports : ports.card = maxRules + 1 := by
    rw [Finset.card_image_of_injective _ fun _ _ h => Int.natCast_inj.mp h,
      Finset.card_range]
  have hused : used.card ≤ maxRules :=
    Finset.card_image_le.trans ((Finset.card_range _).le.trans h.fits)
  obtain ⟨port, _, hport⟩ := Finset.exists_mem_notMem_of_card_lt_card
    (show used.card < ports.card by omega)
  refine ⟨ruleOn port, rfl, ?_⟩
  intro i hi hsource
  have hin : i < ctx.ruleCount := by
    by_contra hbeyond
    rw [h.beyond i (not_lt.mp hbeyond)] at hi
    cases hi
  apply hport
  exact Finset.mem_image.mpr ⟨i, Finset.mem_range.mpr hin, congrArg Prod.snd hsource⟩

/-- The table can be filled up, and a hole in it stays. -/
theorem exists_full (h : Table ctx) (hi : i < ctx.ruleCount)
    (hhole : (ctx.rules i).enabled = false) (hk : ctx.ruleCount + k = maxRules) :
    ∃ t, Reachable ctx step AddsEnabled t ∧ Table t ∧ t.ruleCount = maxRules ∧
      i < t.ruleCount ∧ (t.rules i).enabled = false := by
  induction k generalizing ctx with
  | zero => exact ⟨ctx, Reachable.init, h, hk, hi, hhole⟩
  | succ k ih =>
    obtain ⟨rule, henabled, hunused⟩ := exists_unused h
    have hroom : ctx.ruleCount < maxRules := by omega
    have hnew : isDuplicate ctx rule = false := by
      rw [← Bool.not_eq_true, isDuplicate_iff h rule]
      rintro ⟨j, hj, hsource⟩
      exact hunused j hj hsource
    have hfirst : Reachable ctx step AddsEnabled { ctx with
        rules := Function.update ctx.rules ctx.ruleCount rule
        ruleCount := ctx.ruleCount + 1 } := by
      refine Reachable.init.step (a := .add (some rule)) henabled ?_
      rw [step, answer, rinetdAddRule_room hroom hnew]
    have hkept : (Function.update ctx.rules ctx.ruleCount rule i).enabled = false := by
      rwa [Function.update_of_ne (Nat.ne_of_lt hi)]
    obtain ⟨t, hrest, hfull⟩ := ih (h.add hroom hnew) (Nat.lt_succ_of_lt hi) hkept
      (by rw [← hk]; exact Nat.succ_add_eq_add_succ _ _)
    exact ⟨t, hfirst.trans hrest, hfull⟩

/-- A full table with a hole refuses a new rule. -/
theorem not_capacityRight (h : Table ctx) (hfull : ctx.ruleCount = maxRules)
    (hi : i < ctx.ruleCount) (hhole : (ctx.rules i).enabled = false) : ¬ CapacityRight ctx := by
  intro hright
  obtain ⟨rule, henabled, hunused⟩ := exists_unused h
  have hrefused : (rinetdAddRule ctx (some rule)).2 = .noMemory := by
    rw [rinetdAddRule, if_pos hfull.ge]
  have hmany := hright rule henabled hunused hrefused
  have hfewer : (present ctx).length < (List.range ctx.ruleCount).length := by
    apply List.length_filter_lt_length_iff_exists.mpr
    exact ⟨i, List.mem_range.mpr hi, by simp [hhole]⟩
  rw [List.length_range, hfull] at hfewer
  exact absurd hmany (not_le.mpr hfewer)

/-- A removal before the last entry leaves a hole. -/
theorem hole_of_removal (h : Table ctx) (hnot : ¬ RemovesLast ctx c)
    (hstep : step ctx c = some ctx') :
    ∃ i, i < ctx'.ruleCount ∧ (ctx'.rules i).enabled = false := by
  obtain rfl := Option.some.inj hstep
  cases c with
  | add rule => exact absurd trivial hnot
  | remove index =>
    simp only [RemovesLast, Classical.not_imp] at hnot
    obtain ⟨hpos, hin, hnotLast⟩ := hnot
    rcases rinetdRemoveRule_spec h.idle index with heq | ⟨i, rfl, hi, heq⟩
    · rw [rinetdRemoveRule, if_neg (by omega), h.idle] at heq
      cases congrArg Prod.snd heq
    · have hinner : i + 1 ≠ ctx.ruleCount := by omega
      rw [answer, heq]
      refine ⟨i, ?_, ?_⟩
      · dsimp only
        rw [if_neg hinner]
        exact hi
      · dsimp only
        rw [Function.update_self]

/-- As long as only last entries are removed, a new rule is refused for lack of
room only if the table is full of rules; once another one has been removed, the
table can become full without them. -/
theorem capacity_right (hempty : IsEmpty init)
    (hrun : Reachable init step (fun ctx c => AddsEnabled ctx c ∧ RemovesLast ctx c) ctx) :
    CapacityRight ctx ∧ ∀ c ctx', ¬ RemovesLast ctx c → step ctx c = some ctx' →
      ∃ t, Reachable ctx' step AddsEnabled t ∧ ¬ CapacityRight t := by
  have hpacked : Packed ctx := hrun.invariant (Packed.of_empty hempty)
    fun _ _ _ h hadmitted hstep => h.step hadmitted.1 hadmitted.2 hstep
  refine ⟨hpacked.capacityRight, ?_⟩
  intro c ctx' hnot hstep
  have htable : Table ctx' := by
    obtain rfl := Option.some.inj hstep
    exact hpacked.table.keep c
  obtain ⟨i, hi, hhole⟩ := hole_of_removal hpacked.table hnot hstep
  obtain ⟨k, hk⟩ := Nat.exists_eq_add_of_le htable.fits
  obtain ⟨t, hreach, ht, hfull, hin, hstays⟩ := exists_full htable hi hhole hk.symm
  exact ⟨t, hreach, not_capacityRight ht hfull hin hstays⟩

instance (ctx : Context) (c : Call) : Decidable (AddsEnabled ctx c) := by
  unfold AddsEnabled
  split
  all_goals infer_instance

instance (ctx : Context) (c : Call) : Decidable (RemovesLast ctx c) := by
  unfold RemovesLast
  split
  all_goals infer_instance

/-- Two rules are added and the second one is removed. -/
theorem capacity_right_two : ∃ ctx, ctx.ruleCount = 1 ∧ CapacityRight ctx := by
  obtain ⟨ctx, hrun, hcount⟩ : ∃ ctx, Reachable Context.zero step
      (fun ctx c => AddsEnabled ctx c ∧ RemovesLast ctx c) ctx ∧
      decide (ctx.ruleCount = 1) = true :=
    exists_reachable [.add (some (ruleOn 1)), .add (some (ruleOn 2)), .remove 1] _ (by decide)
  exact ⟨ctx, of_decide_eq_true hcount, (capacity_right isEmpty_zero hrun).1⟩

/-- The first of 32 rules is removed, and there is no room for another one. -/
theorem room_not_recovered : ∃ ctx, Reachable Context.zero step AddsEnabled ctx ∧
    ¬ CapacityRight ctx := by
  obtain ⟨ctx, hrun, hctx⟩ : ∃ ctx, Reachable Context.zero step AddsEnabled ctx ∧
      decide (ctx.ruleCount = maxRules ∧ (ctx.rules 0).enabled = false) = true :=
    exists_reachable ((List.range maxRules).map (fun i => .add (some (ruleOn i))) ++ [.remove 0])
      _ (by decide +kernel)
  obtain ⟨hfull, hhole⟩ := of_decide_eq_true hctx
  have htable : Table ctx := hrun.invariant (Table.of_empty isEmpty_zero)
    fun _ c _ h _ hstep => by rw [← Option.some.inj hstep]; exact h.keep c
  exact ⟨ctx, hrun, not_capacityRight htable hfull (by rw [hfull]; decide) hhole⟩

end Ppdb.RuleCapacity
