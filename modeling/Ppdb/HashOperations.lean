import Ppdb.CStrings
import Ppdb.ErrorCodes
import Ppdb.EventualResults
import Ppdb.SizeArithmetic
import Mathlib.Logic.Function.Basic

/-!
The hash table of the data structure module, function by function: an array of
buckets, each the head of a singly linked list of nodes, and a copy of each key
in memory of its own. Reading memory that holds no node or no string, and
indexing past the array, are faults. A key is a C string, given by its bytes
before the terminator. Loops carry a bound on their iterations. The counter
`size` is a `size_t`.
-/

namespace Ppdb.HashOperations

open ErrorCodes SizeArithmetic

/-- A string in memory: the bytes before the terminator. -/
structure CString where
  bytes : List UInt8
  noNul : 0 ∉ bytes
  deriving DecidableEq

structure Node where
  key : ℕ
  value : ℕ
  next : ℕ
  deriving DecidableEq, Repr

/-- `infra_hash_t`, with the nodes and the copies of keys in memory, 0 being the
null pointer. -/
structure State where
  buckets : List ℕ
  size : ℕ
  capacity : ℕ
  nodes : ℕ → Option Node
  strings : ℕ → Option CString

inductive Fault
  /-- an access to memory that holds no node, or no string -/
  | wild
  /-- an access past the array of buckets -/
  | outOfBounds
  | outOfFuel
  deriving DecidableEq, Repr

namespace State

def node (s : State) (p : ℕ) : Except Fault Node :=
  match s.nodes p with
  | none => .error .wild
  | some n => .ok n

def string (s : State) (p : ℕ) : Except Fault CString :=
  match s.strings p with
  | none => .error .wild
  | some k => .ok k

def bucket (s : State) (i : ℕ) : Except Fault ℕ :=
  match s.buckets[i]? with
  | none => .error .outOfBounds
  | some p => .ok p

def putNode (s : State) (p : ℕ) (n : Option Node) : State :=
  { s with nodes := Function.update s.nodes p n }

def putString (s : State) (p : ℕ) (k : Option CString) : State :=
  { s with strings := Function.update s.strings p k }

def setBucket (s : State) (i p : ℕ) : Except Fault State := do
  let _ ← s.bucket i
  .ok { s with buckets := s.buckets.set i p }

def freeNode (s : State) (p : ℕ) : Except Fault State := do
  let _ ← s.node p
  .ok (s.putNode p none)

def freeString (s : State) (p : ℕ) : Except Fault State := do
  let _ ← s.string p
  .ok (s.putString p none)

end State

/-- A `char` converted to `int` and added to a `size_t`: negative values wrap. -/
def charSize (c : UInt8) : ℕ := if c.toNat < 128 then c.toNat else sizeModulus - 256 + c.toNat

def hashStep (hash : ℕ) (c : UInt8) : ℕ :=
  addSize (addSize (hash <<< 5 % sizeModulus) hash) (charSize c)

def hashString (str : CString) : ℕ := str.bytes.foldl hashStep 5381

def strcmp (a b : CString) : ℤ := CStrings.strcmp (a.bytes ++ [0]) (b.bytes ++ [0])

/-- `for (i = 0; i < capacity; i++) (*hash)->buckets[i] = NULL`, with `count`
iterations left from `i` on. -/
def initBuckets : (count i : ℕ) → List ℕ → Except Fault (List ℕ)
  | 0, _, buckets => .ok buckets
  | count + 1, i, buckets =>
    if i < buckets.length then initBuckets count (i + 1) (buckets.set i 0)
    else .error .outOfBounds

/-- `infra_hash_create`. The replies are the addresses of the table and of the
array, or null; the array arrives with arbitrary contents, one pointer for
every eight bytes asked for. -/
def infraHashCreate (tableReply bucketsReply : ℕ) (garbage : ℕ → ℕ) (capacity : ℕ) :
    Except Fault (Option State × ErrorCode) :=
  if capacity = 0 then .ok (none, .invalidParam)
  else if tableReply = 0 then .ok (none, .noMemory)
  else if bucketsReply = 0 then .ok (none, .noMemory)
  else do
    let buckets := (List.range (mulSize 8 capacity / 8)).map garbage
    let buckets ← initBuckets capacity 0 buckets
    .ok (some ⟨buckets, 0, capacity, fun _ => none, fun _ => none⟩, .ok)

/-- The search along a bucket, for the entry with the key and the one before
it. -/
def scan (key : CString) : (fuel : ℕ) → State → (prev entry : ℕ) → Except Fault (ℕ × ℕ)
  | 0, _, _, _ => .error .outOfFuel
  | fuel + 1, s, prev, entry =>
    if entry = 0 then .ok (prev, 0)
    else do
      let n ← s.node entry
      let k ← s.string n.key
      if strcmp k key = 0 then .ok (prev, entry) else scan key fuel s entry n.next

def State.index (s : State) (key : CString) : ℕ := hashString key % s.capacity

def infraStrdup (reply : ℕ) (s : State) (key : CString) : State × ℕ :=
  if reply = 0 then (s, 0) else (s.putString reply (some key), reply)

/-- The part of `infra_hash_put` that creates an entry. -/
def putEntry (nodeReply keyReply : ℕ) (s : State) (index : ℕ) (key : CString) (value : ℕ) :
    Except Fault (State × ErrorCode) :=
  if nodeReply = 0 then .ok (s, .noMemory)
  else do
    let s := s.putNode nodeReply (some ⟨0, 0, 0⟩)
    let (s, k) := infraStrdup keyReply s key
    if k = 0 then
      let s ← s.freeNode nodeReply
      .ok (s, .noMemory)
    else
      let head ← s.bucket index
      let s := s.putNode nodeReply (some ⟨k, value, head⟩)
      let s ← s.setBucket index nodeReply
      .ok ({ s with size := addSize s.size 1 }, .ok)

def infraHashPut (fuel nodeReply keyReply : ℕ) (s : State) (key : Option CString) (value : ℕ) :
    Except Fault (State × ErrorCode) :=
  match key with
  | none => .ok (s, .invalidParam)
  | some key => do
    let head ← s.bucket (s.index key)
    let (_, entry) ← scan key fuel s 0 head
    if entry ≠ 0 then
      let n ← s.node entry
      .ok (s.putNode entry (some { n with value := value }), .ok)
    else putEntry nodeReply keyReply s (s.index key) key value

def infraHashGet (fuel : ℕ) (s : State) (key : Option CString) : Except Fault ℕ :=
  match key with
  | none => .ok 0
  | some key => do
    let head ← s.bucket (s.index key)
    let (_, entry) ← scan key fuel s 0 head
    if entry = 0 then .ok 0
    else
      let n ← s.node entry
      .ok n.value

def unlink (s : State) (index prev next : ℕ) : Except Fault State :=
  if prev = 0 then s.setBucket index next
  else do
    let p ← s.node prev
    .ok (s.putNode prev (some { p with next := next }))

def infraHashRemove (fuel : ℕ) (s : State) (key : Option CString) : Except Fault (State × ℕ) :=
  match key with
  | none => .ok (s, 0)
  | some key => do
    let head ← s.bucket (s.index key)
    let (prev, entry) ← scan key fuel s 0 head
    if entry = 0 then .ok (s, 0)
    else
      let n ← s.node entry
      let s ← unlink s (s.index key) prev n.next
      let s ← s.freeString n.key
      let s ← s.freeNode entry
      .ok ({ s with size := subSize s.size 1 }, n.value)

/-- The inner loop of `infra_hash_clear`: the entries from `entry` on are freed. -/
def clearEntries : (fuel : ℕ) → State → (entry : ℕ) → Except Fault State
  | 0, _, _ => .error .outOfFuel
  | fuel + 1, s, entry =>
    if entry = 0 then .ok s
    else do
      let n ← s.node entry
      let s ← s.freeString n.key
      let s ← s.freeNode entry
      clearEntries fuel s n.next

/-- The outer loop of `infra_hash_clear`, with `count` buckets left from `i` on. -/
def clearBuckets (fuel : ℕ) : (count i : ℕ) → State → Except Fault State
  | 0, _, s => .ok s
  | count + 1, i, s => do
    let head ← s.bucket i
    let s ← clearEntries fuel s head
    let s ← s.setBucket i 0
    clearBuckets fuel count (i + 1) s

def infraHashClear (fuel : ℕ) (s : State) : Except Fault State := do
  let s ← clearBuckets fuel s.capacity 0 s
  .ok { s with size := 0 }

end Ppdb.HashOperations
