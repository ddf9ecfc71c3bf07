import Ppdb.TreeCalls

/-!
Every run behaves as a finite map, whatever the colours, and a run whose
removals keep the tree red-black never follows a null pointer. The one way to
lose the red-black condition is to take out a childless black node below the
root, for which `infra_rbtree_remove` has no repair.
-/

namespace Ppdb.TreeRuns

open ColoredTrees ColorTree RedBlackTrees TreeOperations TreeRepresentation TreeMaps TreeCalls
  EventualResults SortedMaps

/-! ### The map -/

def effect : Call → (ℤ → Option ℕ) → ℤ → Option ℕ
  | .insert reply key value, m => if reply = 0 then m else Function.update m key (some value)
  | .remove key, m => Function.update m key none
  | .find _, m => m
  | .clear, _ => fun _ => none

/-- What a call answers, the null pointer for a key that is absent. -/
def reply : Call → (ℤ → Option ℕ) → Answer
  | .insert reply _ _, _ => .code (if reply = 0 then .noMemory else .ok)
  | .remove key, m => .value ((m key).getD 0)
  | .find key, m => .value ((m key).getD 0)
  | .clear, _ => .nothing

/-- The value of the latest insertion of each key that no removal of the key
and no clearing follows. -/
def latest : List (Call × Answer) → ℤ → Option ℕ
  | [] => fun _ => none
  | (call, _) :: past => effect call (latest past)

def Truthful : List (Call × Answer) → Prop
  | [] => True
  | (call, answer) :: past => answer = reply call (latest past) ∧ Truthful past

/-- One call, on a tree of any colours. -/
theorem perform_holds {s : State} {t : EntryTree} (h : Holds s t) {m : ℤ → Option ℕ}
    (hm : Denotes (contents t) m) {call : Call} (hadmissible : Admissible s call) :
    Settles (fun fuel => perform fuel s call) (.error .nullDeref) ∨
    ∃ s' t', Settles (fun fuel => perform fuel s call) (.ok (s', reply call m)) ∧ Holds s' t' ∧
      Denotes (contents t') (effect call m) := by
  cases call with
  | insert i key value =>
    by_cases hi : i = 0
    · refine Or.inr ⟨s, t, (settles_const _).of_eq fun fuel => ?_, h, ?_⟩
      · simp only [perform, infraRbtreeInsert, hi, reply, if_true]
        rfl
      · simpa [effect, hi] using hm
    · have hreply : reply (.insert i key value) m = .code .ok := by simp [reply, hi]
      have heffect : effect (.insert i key value) m = Function.update m key (some value) := by
        simp [effect, hi]
      rw [hreply, heffect]
      rcases insert_holds h hi hadmissible hm with hfault | ⟨s', t', hrun, hholds, hmap⟩
      · exact Or.inl (hfault.map (Except.map fun r => (r.1, Answer.code r.2)))
      · exact Or.inr ⟨s', t', hrun.map (Except.map fun r => (r.1, Answer.code r.2)), hholds, hmap⟩
  | remove key =>
    rcases remove_holds h hm with hfault | ⟨s', t', hrun, hholds, hmap⟩
    · exact Or.inl (hfault.map (Except.map fun r => (r.1, Answer.value r.2)))
    · exact Or.inr ⟨s', t', hrun.map (Except.map fun r => (r.1, Answer.value r.2)), hholds, hmap⟩
  | find key =>
    exact Or.inr ⟨s, t, (find_holds h hm).map (Except.map fun v => (s, Answer.value v)), h, hm⟩
  | clear =>
    obtain ⟨s', hrun, hholds⟩ := clear_holds h
    exact Or.inr ⟨s', leaf, hrun.map (Except.map fun s => (s, Answer.nothing)), hholds, denotes_nil⟩

/-- What a run has made of the map. -/
theorem run_holds {allowed : State → Call → Prop} {past : List (Call × Answer)} {s : State}
    (h : Run allowed past s) :
    ∃ t, Holds s t ∧ Denotes (contents t) (latest past) ∧ Truthful past := by
  induction h with
  | create => exact ⟨leaf, create_holds, denotes_nil, trivial⟩
  | call _ hadmissible _ hrun ih =>
    obtain ⟨t, hholds, hmap, htruth⟩ := ih
    rcases perform_holds hholds hmap hadmissible with hfault | ⟨s₁, t₁, hrun₁, hholds₁, hmap₁⟩
    · cases hfault.unique hrun
    · have heq := hrun₁.unique hrun
      injection heq with heq
      injection heq with hs hanswer
      rw [← hs]
      exact ⟨t₁, hholds₁, hmap₁, hanswer.symm, htruth⟩

/-- The outcome of a run without a null pointer is that of a finite map. -/
theorem run_refines_map {allowed : State → Call → Prop} {past : List (Call × Answer)} {s : State}
    (h : Run allowed past s) :
    ∃ t, Holds s t ∧ Denotes (contents t) (latest past) ∧ Truthful past ∧
      ∀ call, Admissible s call →
        Settles (fun fuel => perform fuel s call) (.error .nullDeref) ∨
        ∃ s', Settles (fun fuel => perform fuel s call) (.ok (s', reply call (latest past))) := by
  obtain ⟨t, hholds, hmap, htruth⟩ := run_holds h
  refine ⟨t, hholds, hmap, htruth, ?_⟩
  intro call hadmissible
  exact (perform_holds hholds hmap hadmissible).imp_right fun ⟨s', _, hrun, _⟩ => ⟨s', hrun⟩

theorem run_refines_map_small : ∃ past s, Run (fun _ _ => True) past s ∧
    past.map Prod.fst = [.find 2, .remove 1, .insert 7 2 30, .insert 4 3 20, .insert 5 2 10,
      .insert 6 1 40] ∧
    ∃ t, Holds s t ∧ Denotes (contents t) (latest past) ∧ Truthful past ∧
      ∀ call, Admissible s call →
        Settles (fun fuel => perform fuel s call) (.error .nullDeref) ∨
        ∃ s', Settles (fun fuel => perform fuel s call) (.ok (s', reply call (latest past))) := by
  obtain ⟨past, s, hrun, hcalls, _⟩ := exists_run 9 [.find 2, .remove 1, .insert 7 2 30,
    .insert 4 3 20, .insert 5 2 10, .insert 6 1 40] (fun s => s.size == 2) (by decide +kernel)
    fun _ _ _ => trivial
  exact ⟨past, s, hrun, hcalls, run_refines_map hrun⟩

/-! ### Runs on red-black trees -/

/-- A removal takes out no childless black node but the root. -/
def Gentle (s : State) : Call → Prop
  | .remove key => ∀ t, Represents s t → Spares key t
  | _ => True

/-- One call on a red-black tree: it does not fault, and if it is gentle it
leaves a red-black tree. -/
theorem perform_redBlack {s : State} {t : EntryTree} (h : Holds s t) {m : ℤ → Option ℕ}
    (hm : Denotes (contents t) m) (hred : RedBlack t) {call : Call}
    (hadmissible : Admissible s call) :
    ∃ s' answer t', Settles (fun fuel => perform fuel s call) (.ok (s', answer)) ∧ Holds s' t' ∧
      (Gentle s call → RedBlack t') := by
  cases call with
  | insert i key value =>
    by_cases hi : i = 0
    · refine ⟨s, .code .noMemory, t, (settles_const _).of_eq ?_, h, fun _ => hred⟩
      intro fuel
      simp only [perform, infraRbtreeInsert, hi, if_true]
      rfl
    · rcases hseek : seek Entry.key key [] t with ⟨ctx, u⟩
      cases u with
      | node c a l r =>
        obtain ⟨s', hrun, hholds, _⟩ := insert_overwrites h hi hadmissible hseek
        refine ⟨s', _, _, hrun.map (Except.map fun r => (r.1, Answer.code r.2)), hholds, ?_⟩
        intro _
        rw [← plug_of_seek _ hseek] at hred
        exact (redBlack_relabel (d := .left) a _).mp hred
      | leaf =>
        obtain ⟨s', t', hrun, hholds, hred', _⟩ := insert_adds h hred hi hadmissible hseek
        exact ⟨s', _, t', hrun.map (Except.map fun r => (r.1, Answer.code r.2)), hholds,
          fun _ => hred'⟩
  | remove key =>
    obtain ⟨s', v, t', hrun, hholds, hiff⟩ := remove_redBlack_iff h hred key
    exact ⟨s', _, t', hrun.map (Except.map fun r => (r.1, Answer.value r.2)), hholds,
      fun hgentle => hiff.mpr (hgentle t h.represents)⟩
  | find key =>
    exact ⟨s, _, t, (find_holds h hm).map (Except.map fun v => (s, Answer.value v)), h,
      fun _ => hred⟩
  | clear =>
    obtain ⟨s', hrun, hholds⟩ := clear_holds h
    exact ⟨s', _, leaf, hrun.map (Except.map fun s => (s, Answer.nothing)), hholds,
      fun _ => redBlack_leaf⟩

/-- Gentle runs keep the tree red-black. -/
theorem run_redBlack {past : List (Call × Answer)} {s : State} (h : Run Gentle past s) :
    ∃ t, Holds s t ∧ RedBlack t := by
  induction h with
  | create => exact ⟨leaf, create_holds, redBlack_leaf⟩
  | call hpast hadmissible hgentle hrun ih =>
    obtain ⟨t, hholds, hred⟩ := ih
    obtain ⟨u, hholds', hmap, _⟩ := run_holds hpast
    rw [hholds'.represents.unique hholds.represents] at hmap
    obtain ⟨s₁, answer, t₁, hrun₁, hholds₁, hkeep⟩ :=
      perform_redBlack hholds hmap hred hadmissible
    have heq := hrun₁.unique hrun
    injection heq with heq
    injection heq with hs
    rw [← hs]
    exact ⟨t₁, hholds₁, hkeep hgentle⟩

theorem Run.mono {P Q : State → Call → Prop} {past : List (Call × Answer)} {s : State}
    (h : Run P past s) (hPQ : ∀ s call, P s call → Q s call) : Run Q past s := by
  induction h with
  | create => exact Run.create
  | call _ hadmissible hallowed hrun ih => exact Run.call ih hadmissible (hPQ _ _ hallowed) hrun

/-- A state in which a tree has been found by testing. -/
theorem represents_of_test {s : State} {t : EntryTree}
    (h : decide (s.root = addr t ∧ Shows s.heap t 0) = true)
    (hids : ((inorder t).map Entry.id).Nodup ∧ 0 ∉ (inorder t).map Entry.id) : Represents s t :=
  ⟨(of_decide_eq_true h).1, (of_decide_eq_true h).2, hids.1, hids.2⟩

/-! ### Removal after insertions -/

def InsertsOnly (_ : State) : Call → Prop
  | .insert reply _ _ => reply ≠ 0
  | _ => False

theorem gentle_of_insertsOnly (s : State) (call : Call) (h : InsertsOnly s call) :
    Gentle s call := by
  cases call with
  | remove key => exact absurd h id
  | _ => trivial

/-- Insertions build a red-black tree; removing a key from it leaves one
exactly when no childless black node but the root is taken out. -/
theorem remove_after_inserts {past : List (Call × Answer)} {s : State}
    (h : Run InsertsOnly past s) (key : ℤ) :
    ∃ t s' v, Holds s t ∧ RedBlack t ∧
      Settles (fun fuel => infraRbtreeRemove fuel s key) (.ok (s', v)) ∧
      ((∃ t', Holds s' t' ∧ RedBlack t') ↔ Spares key t) := by
  obtain ⟨t, hholds, hred⟩ := run_redBlack (Run.mono h gentle_of_insertsOnly)
  obtain ⟨s', v, t', hrun, hholds', hiff⟩ := remove_redBlack_iff hholds hred key
  refine ⟨t, s', v, hholds, hred, hrun, ?_⟩
  rw [← hiff]
  constructor
  · rintro ⟨u, hu, hured⟩
    rwa [hu.represents.unique hholds'.represents] at hured
  · exact fun hred' => ⟨t', hholds', hred'⟩

def fourKeys : List Call :=
  [.insert 4 4 40, .insert 3 3 30, .insert 2 2 20, .insert 1 1 10]

def fourTree : EntryTree :=
  node .black ⟨2, 2, 20⟩ (node .black ⟨1, 1, 10⟩ leaf leaf)
    (node .black ⟨3, 3, 30⟩ leaf (node .red ⟨4, 4, 40⟩ leaf leaf))

theorem fourKeys_run : ∃ past s, Run InsertsOnly past s ∧ Represents s fourTree := by
  have hallowed : ∀ s, ∀ call ∈ fourKeys, InsertsOnly s call := by
    intro s
    simp [fourKeys, InsertsOnly]
  obtain ⟨past, s, hrun, _, htest⟩ := exists_run 9 fourKeys
    (fun s => decide (s.root = addr fourTree ∧ Shows s.heap fourTree 0)) (by decide +kernel) hallowed
  exact ⟨past, s, hrun, represents_of_test htest (by decide)⟩

theorem remove_after_inserts_four : ∃ past s, Run InsertsOnly past s ∧
    ∃ t s' v, Holds s t ∧ RedBlack t ∧
      Settles (fun fuel => infraRbtreeRemove fuel s 3) (.ok (s', v)) ∧
      ((∃ t', Holds s' t' ∧ RedBlack t') ↔ Spares 3 t) := by
  obtain ⟨past, s, hrun, _⟩ := fourKeys_run
  exact ⟨past, s, hrun, remove_after_inserts hrun 3⟩

/-- The key 1 is in a childless black node: its removal is not repaired. -/
theorem remove_unbalances : ∃ past s s' v, Run InsertsOnly past s ∧
    Settles (fun fuel => infraRbtreeRemove fuel s 1) (.ok (s', v)) ∧
    ¬ ∃ t', Holds s' t' ∧ RedBlack t' := by
  obtain ⟨past, s, hrun, hfour⟩ := fourKeys_run
  obtain ⟨t, hholds, hred⟩ := run_redBlack (Run.mono hrun gentle_of_insertsOnly)
  have ht : t = fourTree := hholds.represents.unique hfour
  obtain ⟨s', v, t', hremove, hholds', hiff⟩ := remove_redBlack_iff hholds hred 1
  refine ⟨past, s, s', v, hrun, hremove, ?_⟩
  rintro ⟨u, hu, hured⟩
  rw [hu.represents.unique hholds'.represents, hiff, ht] at hured
  exact absurd hured (by decide)

/-! ### Null pointers -/

/-- After a gentle run no call follows a null pointer. -/
theorem run_never_faults {past : List (Call × Answer)} {s : State} (h : Run Gentle past s)
    {call : Call} (hadmissible : Admissible s call) :
    ∃ s' answer, Settles (fun fuel => perform fuel s call) (.ok (s', answer)) := by
  obtain ⟨t, hholds, hred⟩ := run_redBlack h
  obtain ⟨u, hholds', hmap, _⟩ := run_holds h
  rw [hholds'.represents.unique hholds.represents] at hmap
  obtain ⟨s', answer, _, hrun, _⟩ := perform_redBlack hholds hmap hred hadmissible
  exact ⟨s', answer, hrun⟩

/-- The removal of 3 takes out a black node with a child, and is followed by
that of 1. -/
theorem run_never_faults_four : ∃ past s, Run Gentle past s ∧
    ∃ s' answer, Settles (fun fuel => perform fuel s (.remove 1)) (.ok (s', answer)) := by
  obtain ⟨past, s, hrun, hfour⟩ := fourKeys_run
  have hgentle := Run.mono hrun gentle_of_insertsOnly
  have hspares : Gentle s (.remove 3) := by
    intro t ht
    rw [ht.unique hfour]
    decide
  obtain ⟨t, hholds, hred⟩ := run_redBlack hgentle
  obtain ⟨s₁, v, _, hremove, _⟩ := remove_redBlack_iff hholds hred 3
  have hnext : Run Gentle ((.remove 3, .value v) :: past) s₁ :=
    Run.call hgentle trivial hspares (hremove.map (Except.map fun r => (r.1, Answer.value r.2)))
  exact ⟨_, s₁, hnext, run_never_faults hnext trivial⟩

def tenCalls : List Call :=
  [.remove 0, .insert 8 6 60, .insert 7 7 70, .remove 5, .insert 6 2 20, .insert 5 4 40,
    .insert 4 5 50, .insert 3 1 10, .insert 2 3 30, .insert 1 0 0]

/-- After the ten calls the removal of 1 follows a null pointer. -/
theorem remove_follows_null : ∃ past s, Run (fun _ _ => True) past s ∧
    past.map Prod.fst = tenCalls ∧
    Settles (fun fuel => perform fuel s (.remove 1)) (.error .nullDeref) := by
  obtain ⟨past, s, hrun, hcalls, htest⟩ := exists_run 9 tenCalls
    (fun s => isNullDeref (perform 9 s (.remove 1))) (by decide +kernel) fun _ _ _ => trivial
  exact ⟨past, s, hrun, hcalls,
    settles_of_extends (perform_extends s _) (eq_of_isNullDeref htest) (by simp)⟩

end Ppdb.TreeRuns
