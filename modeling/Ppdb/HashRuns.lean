import Ppdb.HashMaps

/-!
Sequences of calls on a hash table from its creation on. Whatever keys collide
and whichever requests for memory are refused, the table is a finite map.
-/

namespace Ppdb.HashRuns

open ErrorCodes SizeArithmetic HashOperations BucketedMaps SortedMaps HashChains HashMaps EventualResults

/-- A call, with the replies of the allocator where memory is asked for; a key
that is `none` is the null pointer. -/
inductive Call
  | put (nodeReply keyReply : ℕ) (key : Option CString) (value : ℕ)
  | get (key : Option CString)
  | remove (key : Option CString)
  | clear
  deriving DecidableEq

inductive Answer
  | code (e : ErrorCode)
  | value (v : ℕ)
  | nothing
  deriving DecidableEq, Repr

def perform (fuel : ℕ) (s : State) : Call → Except Fault (State × Answer)
  | .put nodeReply keyReply key value =>
    (infraHashPut fuel nodeReply keyReply s key value).map fun r => (r.1, Answer.code r.2)
  | .get key => (infraHashGet fuel s key).map fun v => (s, Answer.value v)
  | .remove key => (infraHashRemove fuel s key).map fun r => (r.1, Answer.value r.2)
  | .clear => (infraHashClear fuel s).map fun s => (s, Answer.nothing)

/-- The allocator refuses a request or hands out memory not in use. -/
def Admissible (s : State) : Call → Prop
  | .put nodeReply keyReply _ _ =>
    (nodeReply ≠ 0 → s.nodes nodeReply = none ∧ nodeReply < sizeModulus) ∧
    (keyReply ≠ 0 → s.strings keyReply = none)
  | _ => True

instance (s : State) : (call : Call) → Decidable (Admissible s call)
  | .put nodeReply keyReply _ _ => inferInstanceAs (Decidable
      ((nodeReply ≠ 0 → s.nodes nodeReply = none ∧ nodeReply < sizeModulus) ∧
        (keyReply ≠ 0 → s.strings keyReply = none)))
  | .get _ => inferInstanceAs (Decidable True)
  | .remove _ => inferInstanceAs (Decidable True)
  | .clear => inferInstanceAs (Decidable True)

/-- A run on a table created with the capacity, latest call first. -/
inductive Run (capacity : ℕ) : List (Call × Answer) → State → Prop
  | create {tableReply bucketsReply : ℕ} {garbage : ℕ → ℕ} {s : State}
      (hcreate : infraHashCreate tableReply bucketsReply garbage capacity = .ok (some s, .ok)) :
      Run capacity [] s
  | call {past : List (Call × Answer)} {s s' : State} {call : Call} {answer : Answer}
      (hpast : Run capacity past s) (hadmissible : Admissible s call)
      (hrun : Settles (fun fuel => perform fuel s call) (.ok (s', answer))) :
      Run capacity ((call, answer) :: past) s'

/-- The value of the latest successful put of each key that no removal of the
key and no clearing follows. -/
def latest : List (Call × Answer) → CString → Option ℕ
  | [] => fun _ => none
  | (.put _ _ (some key) value, .code .ok) :: past =>
    Function.update (latest past) key (some value)
  | (.remove (some key), _) :: past => Function.update (latest past) key none
  | (.clear, _) :: _ => fun _ => none
  | _ :: past => latest past

/-- What a call answers; a put needs memory only for a key not in the map. -/
def reply : Call → (CString → Option ℕ) → Answer
  | .put _ _ none _, _ => .code .invalidParam
  | .put nodeReply keyReply (some key) _, m =>
    .code (if m key = none ∧ (nodeReply = 0 ∨ keyReply = 0) then .noMemory else .ok)
  | .get key, m => .value ((key.bind m).getD 0)
  | .remove key, m => .value ((key.bind m).getD 0)
  | .clear, _ => .nothing

def Truthful : List (Call × Answer) → Prop
  | [] => True
  | (call, answer) :: past => answer = reply call (latest past) ∧ Truthful past

/-! ### Creation -/

theorem initBuckets_ok (count i : ℕ) (buckets : List ℕ) (h : i + count = buckets.length)
    (hdone : ∀ j < i, buckets.getD j 0 = 0) :
    ∃ filled, initBuckets count i buckets = .ok filled ∧ filled.length = buckets.length ∧
      ∀ j, filled.getD j 0 = 0 := by
  induction count generalizing i buckets with
  | zero =>
    refine ⟨buckets, rfl, rfl, fun j => ?_⟩
    by_cases hj : j < i
    · exact hdone j hj
    · exact List.getD_eq_default _ _ (by omega)
  | succ count ih =>
    have hi : i < buckets.length := by omega
    obtain ⟨filled, hrun, hlength, hzero⟩ := ih (i + 1) (buckets.set i 0)
      (by rw [List.length_set]; omega) (fun j hj => by
        by_cases hji : j = i
        · simp [hji, hi]
        · rw [List.getD_eq_getElem?_getD, List.getElem?_set_ne (Ne.symm hji),
            ← List.getD_eq_getElem?_getD]
          exact hdone j (by omega))
    refine ⟨filled, ?_, hlength.trans (List.length_set), hzero⟩
    rw [initBuckets, if_pos hi, hrun]

/-- A table whose array of buckets was allocated in full gets null pointers there. -/
theorem create_cleared {capacity tableReply bucketsReply : ℕ} (garbage : ℕ → ℕ)
    (hpos : 1 ≤ capacity) (hcapacity : 8 * capacity < sizeModulus) (htable : tableReply ≠ 0)
    (hbuckets : bucketsReply ≠ 0) :
    ∃ filled, infraHashCreate tableReply bucketsReply garbage capacity =
        .ok (some ⟨filled, 0, capacity, fun _ => none, fun _ => none⟩, .ok) ∧
      filled.length = capacity ∧ ∀ j, filled.getD j 0 = 0 := by
  have hlength : ((List.range (mulSize 8 capacity / 8)).map garbage).length = capacity := by
    rw [List.length_map, List.length_range, mulSize, Nat.mod_eq_of_lt hcapacity]
    omega
  obtain ⟨filled, hrun, hfilled, hzero⟩ := initBuckets_ok capacity 0
    ((List.range (mulSize 8 capacity / 8)).map garbage) (by omega) (by simp)
  have hne : capacity ≠ 0 := by omega
  refine ⟨filled, ?_, hfilled.trans hlength, hzero⟩
  simp only [infraHashCreate, hne, htable, hbuckets, if_false, hrun, ok_bind]

/-- It is created empty. -/
theorem create_holds {capacity tableReply bucketsReply : ℕ} (garbage : ℕ → ℕ)
    (hpos : 1 ≤ capacity) (hcapacity : 8 * capacity < sizeModulus) (htable : tableReply ≠ 0)
    (hbuckets : bucketsReply ≠ 0) :
    ∃ s, infraHashCreate tableReply bucketsReply garbage capacity = .ok (some s, .ok) ∧
      s.capacity = capacity ∧ Holds s fun _ => [] := by
  obtain ⟨filled, hrun, hlength, hzero⟩ :=
    create_cleared garbage hpos hcapacity htable hbuckets
  refine ⟨_, hrun, rfl, ⟨?_, ?_⟩, placed_nil, hpos, ?_, ?_⟩
  · exact hlength
  · intro i _
    have hhead : filled.getD i 0 = 0 := hzero i
    rw [hhead]
    exact chain_nil
  · simp [entries_nil]
  · simp [entries_nil]

/-! ### Calls and runs -/

/-- One call on a table that denotes the map: it ends, answers as the map asks,
and leaves a table that denotes the new map. -/
theorem perform_holds {s : State} {past : List (Call × Answer)} (h : Denoted s (latest past))
    {call : Call} (hadmissible : Admissible s call) :
    ∃ s', Settles (fun fuel => perform fuel s call) (.ok (s', reply call (latest past))) ∧
      s'.capacity = s.capacity ∧ Denoted s' (latest ((call, reply call (latest past)) :: past)) ∧
      (reply call (latest past) = .code .noMemory → s' = s) := by
  obtain ⟨chains, hholds, hm⟩ := id h
  cases call with
  | put nodeReply keyReply key value =>
    cases key with
    | none => exact ⟨s, settles_const _, rfl, h, fun _ => rfl⟩
    | some key =>
      cases hk : latest past key with
      | some w =>
        have hreply : reply (.put nodeReply keyReply (some key) value) (latest past) = .code .ok := by
          simp [reply, hk]
        obtain ⟨s', hrun, hcapacity, hdenoted⟩ :=
          put_overwrites hholds hm hk nodeReply keyReply value
        rw [hreply]
        exact ⟨s', hrun.map (Except.map fun r => (r.1, Answer.code r.2)), hcapacity, hdenoted,
          fun hcode => by cases hcode⟩
      | none =>
        by_cases hmemory : nodeReply = 0 ∨ keyReply = 0
        · have hreply : reply (.put nodeReply keyReply (some key) value) (latest past) =
              .code .noMemory := by
            simp [reply, hk, hmemory]
          have hrun := put_refused hholds hm hk nodeReply keyReply value
            (fun hne => (hadmissible.1 hne).1) hmemory
          rw [hreply]
          exact ⟨s, hrun.map (Except.map fun r => (r.1, Answer.code r.2)), rfl, h, fun _ => rfl⟩
        · have hreply : reply (.put nodeReply keyReply (some key) value) (latest past) =
              .code .ok := by
            simp [reply, hmemory]
          obtain ⟨hnode, hkey⟩ := not_or.mp hmemory
          obtain ⟨s', hrun, hcapacity, hdenoted⟩ := put_adds hholds hm hk value
            (hadmissible.1 hnode).1 (hadmissible.2 hkey) hnode hkey (hadmissible.1 hnode).2
          rw [hreply]
          exact ⟨s', hrun.map (Except.map fun r => (r.1, Answer.code r.2)), hcapacity, hdenoted,
            fun hcode => by cases hcode⟩
  | get key =>
    cases key with
    | none => exact ⟨s, settles_const _, rfl, h, fun _ => rfl⟩
    | some key =>
      exact ⟨s, (get_settles hholds hm key).map (Except.map fun v => (s, Answer.value v)), rfl, h,
        fun _ => rfl⟩
  | remove key =>
    cases key with
    | none => exact ⟨s, settles_const _, rfl, h, fun _ => rfl⟩
    | some key =>
      cases hk : latest past key with
      | none =>
        have hrun := remove_absent hholds hm hk
        refine ⟨s, ?_, rfl, ?_, fun _ => rfl⟩
        · simp only [reply, Option.bind_some, hk]
          exact hrun.map (Except.map fun r => (r.1, Answer.value r.2))
        · have hsame : Function.update (latest past) key none = latest past := by
            rw [← hk, Function.update_eq_self]
          simpa only [latest, hsame] using h
      | some v =>
        obtain ⟨s', hrun, hcapacity, hdenoted⟩ := remove_takes hholds hm hk
        refine ⟨s', ?_, hcapacity, hdenoted, fun hcode => by cases hcode⟩
        simp only [reply, Option.bind_some, hk]
        exact hrun.map (Except.map fun r => (r.1, Answer.value r.2))
  | clear =>
    obtain ⟨s', hrun, hcapacity, hdenoted⟩ := clear_settles hholds
    exact ⟨s', hrun.map (Except.map fun s => (s, Answer.nothing)), hcapacity, hdenoted,
      fun hcode => by cases hcode⟩

theorem run_holds {capacity : ℕ} (hcapacity : 8 * capacity < sizeModulus)
    {past : List (Call × Answer)} {s : State} (h : Run capacity past s) :
    s.capacity = capacity ∧ Denoted s (latest past) ∧ Truthful past := by
  induction h with
  | @create tableReply bucketsReply garbage s hcreate =>
    have hpos : 1 ≤ capacity := by
      by_contra hzero
      simp [infraHashCreate, Nat.lt_one_iff.mp (Nat.lt_of_not_le hzero)] at hcreate
    have htable : tableReply ≠ 0 := by
      rintro rfl
      simp [infraHashCreate, Nat.ne_of_gt hpos] at hcreate
    have hbuckets : bucketsReply ≠ 0 := by
      rintro rfl
      simp [infraHashCreate, Nat.ne_of_gt hpos, htable] at hcreate
    obtain ⟨s', hcreate', hcap, hholds⟩ :=
      create_holds garbage hpos hcapacity htable hbuckets
    have heq := hcreate'.symm.trans hcreate
    simp only [Except.ok.injEq, Prod.mk.injEq, Option.some.injEq, and_true] at heq
    rw [← heq]
    exact ⟨hcap, ⟨_, hholds, reads_nil⟩, trivial⟩
  | call _ hadmissible hrun ih =>
    obtain ⟨hcap, hdenoted, htruth⟩ := ih
    obtain ⟨s₁, hrun₁, hcap₁, hdenoted₁, _⟩ := perform_holds hdenoted hadmissible
    have heq := hrun₁.unique hrun
    simp only [Except.ok.injEq, Prod.mk.injEq] at heq
    obtain ⟨rfl, rfl⟩ := heq
    exact ⟨hcap₁.trans hcap, hdenoted₁, rfl, htruth⟩

/-- In every state that a run reaches, the entries met in the buckets are a
finite map with the values of the latest puts: no key occurs twice, each is in
the bucket of its hash, and `size` counts them. Every call that follows ends
with the answer of that map, and one that lacks memory changes nothing. -/
theorem hash_refines_finite_map {capacity : ℕ} (hcapacity : 8 * capacity < sizeModulus)
    {past : List (Call × Answer)} {s : State} (h : Run capacity past s) :
    (∃ chains, s.capacity = capacity ∧ Represents s chains ∧
      (∀ i < capacity, ∀ e ∈ chains i, hashString e.key % capacity = i) ∧
      ((entries capacity chains).map Entry.key).Nodup ∧
      s.size = (entries capacity chains).length ∧
      Denotes ((entries capacity chains).map fun e => (e.key, e.value)) (latest past)) ∧
    Truthful past ∧
    ∀ call, Admissible s call →
      ∃ s', Settles (fun fuel => perform fuel s call) (.ok (s', reply call (latest past))) ∧
        (reply call (latest past) = .code .noMemory → s' = s) := by
  obtain ⟨hcap, hdenoted, htruth⟩ := run_holds hcapacity h
  obtain ⟨chains, hholds, hm⟩ := id hdenoted
  refine ⟨⟨chains, hcap, hholds.represents, ?_, ?_, ?_, ?_⟩, htruth, ?_⟩
  · intro i hi e he
    rw [← hcap]
    exact hholds.placed.place i (hcap ▸ hi) e he
  · rw [← hcap]
    exact hholds.placed.nodup_keys
  · rw [← hcap]
    exact hholds.size
  · rw [← hcap]
    exact hholds.placed.denotes (index_lt hholds.pos) hm
  · intro call hadmissible
    obtain ⟨s', hrun, _, _, hsame⟩ := perform_holds hdenoted hadmissible
    exact ⟨s', hrun, hsame⟩

def letter (n : Fin 26) : CString := ⟨[97 + UInt8.ofNat n], by revert n; decide⟩

/-- Two keys of one bucket, an overwriting, a request refused and a removal. -/
theorem hash_refines_finite_map_colliding : ∃ past s, Run 1 past s ∧ past.length = 5 ∧
    (∃ chains, s.capacity = 1 ∧ Represents s chains ∧
      (∀ i < 1, ∀ e ∈ chains i, hashString e.key % 1 = i) ∧
      ((entries 1 chains).map Entry.key).Nodup ∧
      s.size = (entries 1 chains).length ∧
      Denotes ((entries 1 chains).map fun e => (e.key, e.value)) (latest past)) ∧
    Truthful past ∧
    ∀ call, Admissible s call →
      ∃ s', Settles (fun fuel => perform fuel s call) (.ok (s', reply call (latest past))) ∧
        (reply call (latest past) = .code .noMemory → s' = s) := by
  have hcreated := @Run.create 1 1 2 (fun _ => 9) _ rfl
  have hfirst := hcreated.call (by decide : Admissible _ (.put 3 4 (some (letter 0)) 7))
    (settles_of_ge 4 fun fuel => rfl)
  have hsecond := hfirst.call (by decide : Admissible _ (.put 5 6 (some (letter 1)) 8))
    (settles_of_ge 4 fun fuel => rfl)
  have hagain := hsecond.call (by decide : Admissible _ (.put 0 0 (some (letter 0)) 9))
    (settles_of_ge 4 fun fuel => rfl)
  have hrefused := hagain.call (by decide : Admissible _ (.put 7 0 (some (letter 2)) 1))
    (settles_of_ge 4 fun fuel => rfl)
  have hremoved := hrefused.call (by decide : Admissible _ (.remove (some (letter 0))))
    (settles_of_ge 4 fun fuel => rfl)
  exact ⟨_, _, hremoved, rfl, hash_refines_finite_map (by norm_num [sizeModulus]) hremoved⟩

end Ppdb.HashRuns
