import Ppdb.HashOperations
import Ppdb.LinkedSegments
import Ppdb.BucketedMaps

/-!
The chains of a hash table. An entry is a node with its copy of the key; the
entries met from the head of a bucket form its chain. Since the key of an entry
tells its bucket, entries of all chains have nodes and key copies of their own.
-/

namespace Ppdb.HashChains

open SizeArithmetic HashOperations LinkedSegments BucketedMaps EventualResults

/-- What a node in memory stands for. -/
structure Entry where
  id : ℕ
  keyId : ℕ
  key : CString
  value : ℕ
  deriving DecidableEq

def next (s : State) (p : ℕ) : ℕ := ((s.nodes p).map Node.next).getD 0

/-- The entry is in memory. -/
structure Stored (s : State) (e : Entry) : Prop where
  node : s.nodes e.id = some ⟨e.keyId, e.value, next s e.id⟩
  string : s.strings e.keyId = some e.key

/-- The entries met from `p` on. -/
structure Chain (s : State) (p : ℕ) (es : List Entry) : Prop where
  segment : Segment (next s) 0 p (es.map Entry.id)
  stored : ∀ e ∈ es, Stored s e

/-- Each bucket is the head of its chain. -/
structure Represents (s : State) (chains : ℕ → List Entry) : Prop where
  length : s.buckets.length = s.capacity
  chain : ∀ i < s.capacity, Chain s (s.buckets.getD i 0) (chains i)

variable {s s' : State} {e : Entry} {es before after : List Entry} {p i : ℕ} {key : CString}
  {chains : ℕ → List Entry}

theorem next_of_node {a : ℕ} {n : Node} (h : s.nodes a = some n) : next s a = n.next := by
  rw [next, h]
  rfl

theorem next_congr {a : ℕ} (h : s'.nodes a = s.nodes a) : next s' a = next s a := by
  rw [next, next, h]

theorem Stored.congr (h : Stored s e) (hnode : s'.nodes e.id = s.nodes e.id)
    (hstring : s'.strings e.keyId = s.strings e.keyId) : Stored s' e := by
  refine ⟨?_, hstring.trans h.string⟩
  rw [hnode, next_congr hnode]
  exact h.node

/-- A chain depends on its own nodes and key copies only. -/
theorem Chain.congr (h : Chain s p es) (hnode : ∀ e ∈ es, s'.nodes e.id = s.nodes e.id)
    (hstring : ∀ e ∈ es, s'.strings e.keyId = s.strings e.keyId) : Chain s' p es := by
  constructor
  · apply h.segment.congr
    intro a ha
    obtain ⟨e, he, rfl⟩ := List.mem_map.mp ha
    exact next_congr (hnode e he)
  · intro e he
    exact (h.stored e he).congr (hnode e he) (hstring e he)

theorem chain_nil : Chain s 0 [] := ⟨rfl, fun _ he => absurd he List.not_mem_nil⟩

theorem chain_cons : Chain s p (e :: es) ↔
    p = e.id ∧ e.id ≠ 0 ∧ Stored s e ∧ Chain s (next s e.id) es := by
  constructor
  · rintro ⟨⟨hp, hne, hrest⟩, hstored⟩
    exact ⟨hp, hne, hstored e List.mem_cons_self, hrest, fun e' he' =>
      hstored e' (List.mem_cons_of_mem e he')⟩
  · rintro ⟨hp, hne, hstored, hrest⟩
    refine ⟨⟨hp, hne, hrest.segment⟩, ?_⟩
    intro e' he'
    rcases List.mem_cons.mp he' with rfl | he'
    · exact hstored
    · exact hrest.stored e' he'

theorem Stored.node_ok (h : Stored s e) :
    s.node e.id = .ok ⟨e.keyId, e.value, next s e.id⟩ := by
  rw [State.node, h.node]

theorem Stored.string_ok (h : Stored s e) : s.string e.keyId = .ok e.key := by
  rw [State.string, h.string]

theorem Represents.bucket_ok (h : Represents s chains) (hi : i < s.capacity) :
    s.bucket i = .ok (s.buckets.getD i 0) := by
  have hlt : i < s.buckets.length := by rwa [h.length]
  rw [State.bucket, List.getElem?_eq_getElem hlt, List.getD_eq_getElem _ _ hlt]

/-! ### Keys -/

/-- Two strings compare equal only if they are the same. -/
theorem strcmp_eq_zero_iff (a b : CString) : strcmp a b = 0 ↔ a = b := by
  obtain ⟨a, ha⟩ := a
  obtain ⟨b, hb⟩ := b
  rw [strcmp, CStrings.strcmp_eq_zero_iff (by simp) (by simp), CStrings.text_terminated ha,
    CStrings.text_terminated hb, CString.mk.injEq]

/-! ### The search -/

theorem scan_cons (h : Chain s p (e :: es)) (fuel prev : ℕ) : scan key (fuel + 1) s prev p =
    if e.key = key then .ok (prev, e.id) else scan key fuel s e.id (next s e.id) := by
  obtain ⟨hp, hne, hstored, _⟩ := chain_cons.mp h
  subst hp
  simp only [scan, if_neg hne, hstored.node_ok, hstored.string_ok, ok_bind, strcmp_eq_zero_iff]

/-- A key that no entry has is not found. -/
theorem scan_absent (h : Chain s p es) (habsent : ∀ e ∈ es, e.key ≠ key) (prev : ℕ) :
    ∃ last, Settles (fun fuel => scan key fuel s prev p) (.ok (last, 0)) := by
  induction es generalizing p prev with
  | nil =>
    have hp : p = 0 := h.segment
    refine ⟨prev, Settles.succ ((settles_const _).of_eq fun fuel => ?_)⟩
    rw [scan, if_pos hp]
  | cons e es ih =>
    obtain ⟨_, _, _, hrest⟩ := chain_cons.mp h
    obtain ⟨last, hlast⟩ := ih hrest (fun e' he' => habsent e' (List.mem_cons_of_mem e he')) e.id
    refine ⟨last, Settles.succ (hlast.of_eq fun fuel => ?_)⟩
    rw [scan_cons h, if_neg (habsent e List.mem_cons_self)]

/-- A key is found at the first entry that has it, with the one before. -/
theorem scan_found (h : Chain s p (before ++ e :: after)) (hbefore : ∀ c ∈ before, c.key ≠ e.key)
    (prev : ℕ) : Settles (fun fuel => scan e.key fuel s prev p)
      (.ok ((before.map Entry.id).getLastD prev, e.id)) := by
  induction before generalizing p prev with
  | nil =>
    refine Settles.succ ((settles_const _).of_eq fun fuel => ?_)
    rw [scan_cons h, if_pos rfl]
    rfl
  | cons c before ih =>
    obtain ⟨_, _, _, hrest⟩ := chain_cons.mp h
    have hfound := ih hrest (fun d hd => hbefore d (List.mem_cons_of_mem c hd)) c.id
    rw [List.map_cons, List.getLastD_cons]
    refine Settles.succ (hfound.of_eq fun fuel => ?_)
    rw [List.cons_append] at h
    rw [scan_cons h, if_neg (hbefore c List.mem_cons_self)]

end Ppdb.HashChains
