import Ppdb.ColoredTrees
import Ppdb.ErrorCodes
import Ppdb.EventualResults

/-!
The red-black tree of the data structure module, function by function, over a
heap of nodes with parent links. Reading through the null pointer and reading
an address that holds no node are faults. The source writes its rotations and
both repairs twice, once for each side; here each is one definition with the
side as a parameter. Loops carry a bound on their iterations. The counter
`size` is a number of nodes in memory and cannot reach 2^64.
-/

namespace Ppdb.TreeOperations

open ColoredTrees ErrorCodes

structure Node where
  key : ℤ
  value : ℕ
  color : Color
  parent : ℕ
  left : ℕ
  right : ℕ
  deriving DecidableEq, Repr

/-- `infra_rbtree_t` and the nodes in memory, 0 being the null pointer. -/
structure State where
  root : ℕ
  size : ℕ
  heap : ℕ → Option Node

inductive Fault
  | nullDeref
  /-- an access to, or a release of, memory that holds no node -/
  | wild
  | outOfFuel
  deriving DecidableEq, Repr

namespace Node

def child (n : Node) : Side → ℕ
  | .left => n.left
  | .right => n.right

def setChild (d : Side) (p : ℕ) (n : Node) : Node :=
  match d with
  | .left => { n with left := p }
  | .right => { n with right := p }

def setParent (p : ℕ) (n : Node) : Node := { n with parent := p }

def setColor (c : Color) (n : Node) : Node := { n with color := c }

end Node

namespace State

def node (s : State) (p : ℕ) : Except Fault Node :=
  if p = 0 then .error .nullDeref
  else match s.heap p with
    | none => .error .wild
    | some n => .ok n

def put (s : State) (p : ℕ) (n : Option Node) : State :=
  { s with heap := Function.update s.heap p n }

def modify (s : State) (p : ℕ) (f : Node → Node) : Except Fault State := do
  let n ← s.node p
  .ok (s.put p (some (f n)))

def free (s : State) (p : ℕ) : Except Fault State := do
  let _ ← s.node p
  .ok (s.put p none)

end State

def infraRbtreeCreate : State := ⟨0, 0, fun _ => none⟩

def createNode (reply : ℕ) (s : State) (key : ℤ) (value : ℕ) : State :=
  s.put reply (some ⟨key, value, .red, 0, 0, 0⟩)

/-- The link that leads to `node`, in its parent or at the root, is set to
`new`. The parent's child on the side `d` is compared first. -/
def replaceChild (d : Side) (s : State) (node new : ℕ) : Except Fault State := do
  let parent := (← s.node node).parent
  if parent = 0 then .ok { s with root := new }
  else
    if node = (← s.node parent).child d then s.modify parent (Node.setChild d new)
    else s.modify parent (Node.setChild d.flip new)

def adopt (s : State) (child parent : ℕ) : Except Fault State :=
  if child ≠ 0 then s.modify child (Node.setParent parent) else .ok s

def rotate (d : Side) (s : State) (node : ℕ) : Except Fault State := do
  let pivot := (← s.node node).child d.flip
  let inner := (← s.node pivot).child d
  let s ← s.modify node (Node.setChild d.flip inner)
  let s ← adopt s inner node
  let s ← s.modify pivot (Node.setParent (← s.node node).parent)
  let s ← replaceChild d s node pivot
  let s ← s.modify pivot (Node.setChild d node)
  s.modify node (Node.setParent pivot)

def rotateLeft : State → ℕ → Except Fault State := rotate .left

def rotateRight : State → ℕ → Except Fault State := rotate .right

/-! ### Insertion -/

def isRed (s : State) (p : ℕ) : Except Fault Bool :=
  if p = 0 then .ok false
  else do
    let n ← s.node p
    .ok (n.color = .red)

/-- An inner node is brought out by a rotation of its parent. -/
def turnOut (d : Side) (s : State) (node : ℕ) : Except Fault (State × ℕ) := do
  let parent := (← s.node node).parent
  if node = (← s.node parent).child d.flip then
    let s ← rotate d s parent
    .ok (s, parent)
  else .ok (s, node)

def raiseParent (d : Side) (s : State) (node : ℕ) : Except Fault State := do
  let parent := (← s.node node).parent
  let s ← s.modify parent (Node.setColor .black)
  let grand := (← s.node parent).parent
  let s ← s.modify grand (Node.setColor .red)
  rotate d.flip s grand

/-- The body of the loop of `fix_insert` for a parent on the side `d`. -/
def fixInsertSide (d : Side) (s : State) (node : ℕ) : Except Fault (State × ℕ) := do
  let parent := (← s.node node).parent
  let grand := (← s.node parent).parent
  let uncle := (← s.node grand).child d.flip
  if ← isRed s uncle then
    let s ← s.modify parent (Node.setColor .black)
    let s ← s.modify uncle (Node.setColor .black)
    let s ← s.modify grand (Node.setColor .red)
    .ok (s, grand)
  else
    let (s, node) ← turnOut d s node
    let s ← raiseParent d s node
    .ok (s, node)

def fixInsertLoop : ℕ → State → ℕ → Except Fault State
  | 0, _, _ => .error .outOfFuel
  | fuel + 1, s, node =>
    if node = s.root then .ok s
    else do
      let parent := (← s.node node).parent
      let p ← s.node parent
      if p.color = .red then
        let d := if parent = (← s.node p.parent).left then Side.left else Side.right
        let (s, node) ← fixInsertSide d s node
        fixInsertLoop fuel s node
      else .ok s

def fixInsert (fuel : ℕ) (s : State) (node : ℕ) : Except Fault State := do
  let s ← fixInsertLoop fuel s node
  s.modify s.root (Node.setColor .black)

/-- The search by key of `insert`, `find` and `remove`: the node that has the
key, or null with the last node passed. -/
def search (key : ℤ) : ℕ → State → ℕ → ℕ → Except Fault (ℕ × ℕ)
  | 0, _, _, _ => .error .outOfFuel
  | fuel + 1, s, parent, current =>
    if current = 0 then .ok (parent, 0)
    else do
      let n ← s.node current
      if key < n.key then search key fuel s current n.left
      else if n.key < key then search key fuel s current n.right
      else .ok (parent, current)

def link (s : State) (parent node : ℕ) (key : ℤ) : Except Fault State := do
  let s ← s.modify node (Node.setParent parent)
  if parent = 0 then .ok { s with root := node }
  else
    let p ← s.node parent
    if key < p.key then s.modify parent (Node.setChild .left node)
    else s.modify parent (Node.setChild .right node)

def infraRbtreeInsert (fuel reply : ℕ) (s : State) (key : ℤ) (value : ℕ) :
    Except Fault (State × ErrorCode) :=
  if reply = 0 then .ok (s, .noMemory)
  else do
    let s := createNode reply s key value
    let (parent, current) ← search key fuel s 0 s.root
    if current ≠ 0 then
      let s ← s.modify current (fun n => { n with value := value })
      let s ← s.free reply
      .ok (s, .ok)
    else
      let s ← link s parent reply key
      let s ← fixInsert fuel s reply
      .ok ({ s with size := s.size + 1 }, .ok)

def infraRbtreeFind (fuel : ℕ) (s : State) (key : ℤ) : Except Fault ℕ := do
  let (_, node) ← search key fuel s 0 s.root
  if node = 0 then .ok 0
  else
    let n ← s.node node
    .ok n.value

/-! ### Removal -/

/-- A red sibling is exchanged for a black one by a rotation of the parent. -/
def blackSibling (d : Side) (s : State) (node : ℕ) : Except Fault (State × ℕ) := do
  let parent := (← s.node node).parent
  let sibling := (← s.node parent).child d.flip
  if (← s.node sibling).color = .red then
    let s ← s.modify sibling (Node.setColor .black)
    let s ← s.modify parent (Node.setColor .red)
    let s ← rotate d s parent
    let parent := (← s.node node).parent
    let sibling := (← s.node parent).child d.flip
    .ok (s, sibling)
  else .ok (s, sibling)

/-- Both children of the sibling are black; neither is tested for null. -/
def bothBlack (d : Side) (s : State) (sibling : ℕ) : Except Fault Bool := do
  let n ← s.node sibling
  if (← s.node (n.child d)).color = .black then
    let far ← s.node (n.child d.flip)
    .ok (far.color = .black)
  else .ok false

/-- If the far child of the sibling is black, its near child is brought up. -/
def redFar (d : Side) (s : State) (node sibling : ℕ) : Except Fault (State × ℕ) := do
  let n ← s.node sibling
  if (← s.node (n.child d.flip)).color = .black then
    let s ← s.modify (n.child d) (Node.setColor .black)
    let s ← s.modify sibling (Node.setColor .red)
    let s ← rotate d.flip s sibling
    let parent := (← s.node node).parent
    let sibling := (← s.node parent).child d.flip
    .ok (s, sibling)
  else .ok (s, sibling)

/-- The body of the loop of `fix_delete` for a node on the side `d`. -/
def fixDeleteSide (d : Side) (s : State) (node : ℕ) : Except Fault (State × ℕ) := do
  let (s, sibling) ← blackSibling d s node
  if ← bothBlack d s sibling then
    let s ← s.modify sibling (Node.setColor .red)
    let n ← s.node node
    .ok (s, n.parent)
  else
    let (s, sibling) ← redFar d s node sibling
    let parent := (← s.node node).parent
    let s ← s.modify sibling (Node.setColor (← s.node parent).color)
    let s ← s.modify parent (Node.setColor .black)
    let s ← s.modify ((← s.node sibling).child d.flip) (Node.setColor .black)
    let s ← rotate d s parent
    .ok (s, s.root)

def fixDeleteLoop : ℕ → State → ℕ → Except Fault (State × ℕ)
  | 0, _, _ => .error .outOfFuel
  | fuel + 1, s, node =>
    if node = s.root then .ok (s, node)
    else do
      let n ← s.node node
      if n.color = .black then
        let d := if node = (← s.node n.parent).left then Side.left else Side.right
        let (s, node) ← fixDeleteSide d s node
        fixDeleteLoop fuel s node
      else .ok (s, node)

def fixDelete (fuel : ℕ) (s : State) (node : ℕ) : Except Fault State := do
  let (s, node) ← fixDeleteLoop fuel s node
  s.modify node (Node.setColor .black)

def leftmost : ℕ → State → ℕ → Except Fault ℕ
  | 0, _, _ => .error .outOfFuel
  | fuel + 1, s, y => do
    let n ← s.node y
    if n.left ≠ 0 then leftmost fuel s n.left else .ok y

/-- The node `y` is taken out of the tree; its key and value go to `node`. -/
def splice (fuel : ℕ) (s : State) (node y : ℕ) : Except Fault State := do
  let n ← s.node y
  let x := if n.left ≠ 0 then n.left else n.right
  let s ← adopt s x n.parent
  let s ← replaceChild .left s y x
  let s ← if y ≠ node then
      s.modify node (fun m => { m with key := n.key, value := n.value })
    else .ok s
  if n.color = .black ∧ x ≠ 0 then fixDelete fuel s x else .ok s

def infraRbtreeRemove (fuel : ℕ) (s : State) (key : ℤ) : Except Fault (State × ℕ) := do
  let (_, node) ← search key fuel s 0 s.root
  if node = 0 then .ok (s, 0)
  else
    let n ← s.node node
    let y ← if n.left = 0 ∨ n.right = 0 then .ok node else leftmost fuel s n.right
    let s ← splice fuel s node y
    let s ← s.free y
    .ok ({ s with size := s.size - 1 }, n.value)

def clearNode : ℕ → State → ℕ → Except Fault State
  | 0, _, _ => .error .outOfFuel
  | fuel + 1, s, node =>
    if node = 0 then .ok s
    else do
      let s ← clearNode fuel s (← s.node node).left
      let s ← clearNode fuel s (← s.node node).right
      s.free node

def infraRbtreeClear (fuel : ℕ) (s : State) : Except Fault State := do
  let s ← clearNode fuel s s.root
  .ok { s with root := 0, size := 0 }

end Ppdb.TreeOperations
