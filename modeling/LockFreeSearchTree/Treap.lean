import LockFreeSearchTree.BinTree
import Mathlib.Data.List.Sort
import Mathlib.Data.Rat.Floor
import Mathlib.Logic.Function.Basic

/-! # The array treap

The treap of `treap.cpp`: at most `TREAP_NODES` values in the slots of one array, linked by
slot indices.

* **Indices.** A `TreapIndex` is `NullNode` (`none`, the source's `-1`) or a slot number.
  Every access of `nodes[]` goes through `get` and `modify`, which fail outside
  `0, …, TREAP_NODES`; slot `TREAP_NODES` is the `ControlNode`.
* **Faults.** A method ends in one of the source's exceptions (`Exn`, with its text), in
  undefined behaviour (an index outside the array), or in `outOfFuel` when a `while` loop does
  not end within `loopFuel` rounds.
* **Environment.** `Env` is what a treap operation draws from outside: the weights handed out
  by `weightDist(randEngine)`, all strictly between the two `int` limits (`Weight`), and what
  the calls of `Treap::New` throw when the pool has no element left.
* **Mirror images.** `rightRotate` and `leftRotate` are `rotate` on the two sides. -/

namespace LockFreeSearchTree

open BinTree

/-! ### Constants, exceptions and the environment -/

/-- Capacity of a treap. -/
def TREAP_NODES : ℕ := 64

/-- `numeric_limits<int>::min()`. -/
def NegInfinity : ℤ := -2 ^ 31

/-- `numeric_limits<int>::max()`. -/
def PosInfinity : ℤ := 2 ^ 31 - 1

/-- The exceptions of the source, with their texts. -/
inductive Exn where
  | outOfRange (what : String)
  | logicError (what : String)
  | invalidArgument (what : String)
deriving DecidableEq, Repr

/-- The ways an operation can fail to return. -/
inductive Fault where
  | exn (e : Exn)
  | undefinedBehaviour
  | outOfFuel
deriving DecidableEq, Repr

@[simp] theorem ok_bind {ε α β : Type} (a : α) (f : α → Except ε β) : (Except.ok a >>= f) = f a := rfl

@[simp] theorem error_bind {ε α β : Type} (e : ε) (f : α → Except ε β) :
    ((Except.error e : Except ε α) >>= f) = .error e := rfl

/-- One step of a computation that does not fail. -/
theorem bind_eq {ε α β : Type} {x : Except ε α} {a : α} {f : α → Except ε β} {r : Except ε β} (hx : x = .ok a)
    (hf : f a = r) : (x >>= f) = r := by
  rw [hx]
  exact hf

/-- The weights `weightDist` draws. -/
abbrev Weight := { w : ℤ // NegInfinity < w ∧ w < PosInfinity }

theorem zero_drawn : NegInfinity < 0 ∧ 0 < PosInfinity := by decide

/-- The weights still to be drawn and the outcomes of the calls of `Treap::New`. -/
structure Env where
  /-- The `n`-th weight drawn. -/
  draws : ℕ → Weight
  drawn : ℕ
  /-- What the `n`-th call of `Treap::New` throws, if it throws. -/
  news : ℕ → Option Exn
  allocated : ℕ

/-- Operations that draw weights or take treaps from the pool. -/
abbrev TreapM := ExceptT Fault (StateM Env)

/-- The next weight. -/
def drawWeight : TreapM ℤ :=
  fun env => (.ok (env.draws env.drawn).1, { env with drawn := env.drawn + 1 })

/-- An operation on the array alone. -/
def liftArray {α : Type} (x : Except Fault α) : TreapM α := fun env => (x, env)

/-! ### The data -/

/-- `typedef int TreapIndex`, with `NullNode` for `-1`. -/
abbrev TreapIndex := Option ℕ

abbrev NullNode : TreapIndex := none

/-- The extra slot beyond the capacity of the treap. -/
def ControlNode : TreapIndex := some TREAP_NODES

/-- A slot of the array. -/
structure TreapNode where
  val : ℤ := 0
  weight : ℤ := 0
  parent : TreapIndex := NullNode
  left : TreapIndex := NullNode
  right : TreapIndex := NullNode
deriving DecidableEq, Repr, Inhabited

namespace TreapNode

/-- The link on a side. -/
def child (n : TreapNode) : Side → TreapIndex
  | .left => n.left
  | .right => n.right

/-- Set the link to the parent. -/
def withParent (n : TreapNode) (i : TreapIndex) : TreapNode := { n with parent := i }

/-- Set the link on a side. -/
def setChild (n : TreapNode) : Side → TreapIndex → TreapNode
  | .left, i => { n with left := i }
  | .right, i => { n with right := i }

variable (n : TreapNode) (d : Side) (i : TreapIndex)

@[simp] theorem child_setChild : (n.setChild d i).child d = i := by cases d <;> rfl
@[simp] theorem child_other_setChild : (n.setChild d i).child d.other = n.child d.other := by cases d <;> rfl
@[simp] theorem child_setChild_other : (n.setChild d.other i).child d = n.child d := by cases d <;> rfl
theorem setChild_of_child_eq (h : n.child d = i) : n.setChild d i = n := by cases d <;> cases h <;> rfl
@[simp] theorem parent_setChild : (n.setChild d i).parent = n.parent := by cases d <;> rfl
@[simp] theorem val_setChild : (n.setChild d i).val = n.val := by cases d <;> rfl
@[simp] theorem weight_setChild : (n.setChild d i).weight = n.weight := by cases d <;> rfl
@[simp] theorem child_withParent : (n.withParent i).child d = n.child d := by cases d <;> rfl
@[simp] theorem left_withParent : (n.withParent i).left = n.left := rfl
@[simp] theorem right_withParent : (n.withParent i).right = n.right := rfl
@[simp] theorem parent_withParent : (n.withParent i).parent = i := rfl
@[simp] theorem val_withParent : (n.withParent i).val = n.val := rfl
@[simp] theorem weight_withParent : (n.withParent i).weight = n.weight := rfl

end TreapNode

/-- A treap: the number of slots in use, the slots and the index of the root. -/
structure Treap where
  size : ℕ := 0
  nodes : ℕ → TreapNode := fun _ => {}
  root : TreapIndex := NullNode

namespace Treap

/-- The treap of a fresh pool element. -/
def empty : Treap := {}

/-- Read `nodes[i]`. -/
def get (t : Treap) : TreapIndex → Except Fault TreapNode
  | some k => if k ≤ TREAP_NODES then .ok (t.nodes k) else .error .undefinedBehaviour
  | none => .error .undefinedBehaviour

/-- The treap with slot `k` overwritten. -/
def put (t : Treap) (k : ℕ) (n : TreapNode) : Treap := { t with nodes := Function.update t.nodes k n }

@[simp] theorem put_size (t : Treap) (k : ℕ) (n : TreapNode) : (t.put k n).size = t.size := rfl

@[simp] theorem put_root (t : Treap) (k : ℕ) (n : TreapNode) : (t.put k n).root = t.root := rfl

@[simp] theorem put_same (t : Treap) (k : ℕ) (n : TreapNode) : (t.put k n).nodes k = n := by simp [put]

theorem put_ne (t : Treap) {k s : ℕ} (n : TreapNode) (h : s ≠ k) : (t.put k n).nodes s = t.nodes s := by
  simp [put, h]

/-- Overwrite `nodes[i]`. -/
def modify (t : Treap) (i : TreapIndex) (f : TreapNode → TreapNode) : Except Fault Treap :=
  match i with
  | some k => if k ≤ TREAP_NODES then .ok (t.put k (f (t.nodes k))) else .error .undefinedBehaviour
  | none => .error .undefinedBehaviour

theorem get_some (t : Treap) {k : ℕ} (h : k ≤ TREAP_NODES) : t.get (some k) = .ok (t.nodes k) := by
  simp [get, h]

theorem modify_some (t : Treap) {k : ℕ} (f : TreapNode → TreapNode) (h : k ≤ TREAP_NODES) :
    t.modify (some k) f = .ok (t.put k (f (t.nodes k))) := by
  simp [modify, h]

/-- A bound on the rounds of every loop over the array. -/
def loopFuel : ℕ := TREAP_NODES + 2

/-! ### Links and rotations -/

/-- `nodes[parentIndex].left == oldIndex ? nodes[parentIndex].left : nodes[parentIndex].right`
becomes `newIndex`. -/
def relink (t : Treap) (parentIndex oldIndex newIndex : TreapIndex) : Except Fault Treap := do
  if (← t.get parentIndex).left = oldIndex then
    t.modify parentIndex (fun n => { n with left := newIndex })
  else
    t.modify parentIndex (fun n => { n with right := newIndex })

/-- The same, where the root has no parent to relink. -/
def hookUp (t : Treap) (parentIndex oldIndex newIndex : TreapIndex) : Except Fault Treap :=
  if parentIndex = NullNode then .ok { t with root := newIndex }
  else t.relink parentIndex oldIndex newIndex

/-- Set the parent of a node that may be missing. -/
def setParent (t : Treap) (index parentIndex : TreapIndex) : Except Fault Treap :=
  if index = NullNode then .ok t else t.modify index (fun n => n.withParent parentIndex)

theorem setParent_some (t : Treap) {k : ℕ} (q : TreapIndex) (h : k ≤ TREAP_NODES) :
    t.setParent (some k) q = .ok (t.put k ((t.nodes k).withParent q)) := by
  simp [setParent, modify_some t _ h]

def moveNode (t : Treap) (srcIndex dstIndex : TreapIndex) : Except Fault Treap :=
  if srcIndex = dstIndex then .ok t else do
    let src ← t.get srcIndex
    let leftIndex := src.left
    let rightIndex := src.right
    let parentIndex := src.parent
    -- transfer the node over
    let t ← t.modify dstIndex (fun _ => src)
    -- fix the children's pointers and the parent
    let t ← t.setParent leftIndex dstIndex
    let t ← t.setParent rightIndex dstIndex
    t.hookUp parentIndex srcIndex dstIndex

/-- Rotate `index` down, its child on side `d` up. -/
def rotate (d : Side) (t : Treap) (index : TreapIndex) : Except Fault Treap := do
  let parentIndex := (← t.get index).parent
  let upIndex := (← t.get index).child d
  let innerIndex := (← t.get upIndex).child d.other
  -- move the target down
  let t ← t.modify index (fun n => n.withParent upIndex)
  let t ← t.modify upIndex (fun n => n.setChild d.other index)
  -- hook the child up to the target's old parent (or the root)
  let t ← t.modify upIndex (fun n => n.withParent parentIndex)
  let t ← t.hookUp parentIndex index upIndex
  -- move any orphaned nodes below the target
  let t ← t.modify index (fun n => n.setChild d innerIndex)
  t.setParent innerIndex index

def rightRotate (t : Treap) (index : TreapIndex) : Except Fault Treap := t.rotate .left index

def leftRotate (t : Treap) (index : TreapIndex) : Except Fault Treap := t.rotate .right index

/-! ### Sifting -/

def moveUpLoop : ℕ → Treap → TreapIndex → Except Fault Treap
  | 0, _, _ => .error .outOfFuel
  | fuel + 1, t, index => do
      let n ← t.get index
      let parentIndex := n.parent
      if parentIndex = NullNode then return t
      let parent ← t.get parentIndex
      if n.weight ≥ parent.weight then return t
      if index = parent.left then
        moveUpLoop fuel (← t.rightRotate parentIndex) index
      else
        moveUpLoop fuel (← t.leftRotate parentIndex) index

def moveUp (t : Treap) (index : TreapIndex) : Except Fault Treap := moveUpLoop loopFuel t index

def moveDownLoop : ℕ → Treap → TreapIndex → Except Fault Treap
  | 0, _, _ => .error .outOfFuel
  | fuel + 1, t, index => do
      let leftIndex := (← t.get index).left
      let rightIndex := (← t.get index).right
      if leftIndex = NullNode ∧ rightIndex = NullNode then
        return t
      else if leftIndex ≠ NullNode ∧ rightIndex ≠ NullNode then
        if (← t.get leftIndex).weight < (← t.get rightIndex).weight then
          moveDownLoop fuel (← t.rightRotate index) index
        else
          moveDownLoop fuel (← t.leftRotate index) index
      else if leftIndex ≠ NullNode then
        moveDownLoop fuel (← t.rightRotate index) index
      else
        moveDownLoop fuel (← t.leftRotate index) index

def moveDown (t : Treap) (index : TreapIndex) : Except Fault Treap := moveDownLoop loopFuel t index

/-! ### Searching -/

def bstInsertLoop : ℕ → Treap → TreapIndex → TreapIndex → Except Fault Treap
  | 0, _, _, _ => .error .outOfFuel
  | fuel + 1, t, index, searchIndex => do
      let s ← t.get searchIndex
      if s.val > (← t.get index).val then
        if s.left = NullNode then do
          let t ← t.modify searchIndex (fun n => { n with left := index })
          t.modify index (fun n => n.withParent searchIndex)
        else
          bstInsertLoop fuel t index s.left
      else
        if s.right = NullNode then do
          let t ← t.modify searchIndex (fun n => { n with right := index })
          t.modify index (fun n => n.withParent searchIndex)
        else
          bstInsertLoop fuel t index s.right

def bstInsert (t : Treap) (index : TreapIndex) : Except Fault Treap :=
  bstInsertLoop loopFuel t index t.root

def bstFindLoop : ℕ → Treap → ℤ → TreapIndex → Except Fault TreapIndex
  | 0, _, _, _ => .error .outOfFuel
  | fuel + 1, t, val, searchIndex =>
      if searchIndex = NullNode then .ok NullNode else do
        let n ← t.get searchIndex
        if n.val = val then
          return searchIndex
        else if n.val > val then
          bstFindLoop fuel t val n.left
        else
          bstFindLoop fuel t val n.right

def bstFind (t : Treap) (val : ℤ) : Except Fault TreapIndex := bstFindLoop loopFuel t val t.root

def contains (t : Treap) (val : ℤ) : Except Fault Bool := do
  let foundIndex ← t.bstFind val
  return foundIndex ≠ NullNode

/-- The loop of `rangeQuery` on the stack `nodesToCheck`, its top first. -/
def rangeQueryLoop (t : Treap) (min max : ℤ) : ℕ → List TreapIndex → List ℤ → Except Fault (List ℤ)
  | _, [], values => .ok values
  | 0, _ :: _, _ => .error .outOfFuel
  | fuel + 1, currentIndex :: nodesToCheck, values => do
      let n ← t.get currentIndex
      let currentVal := n.val
      let values := if currentVal ≥ min ∧ currentVal ≤ max then values ++ [currentVal] else values
      let nodesToCheck := if currentVal ≥ min ∧ n.left ≠ NullNode then n.left :: nodesToCheck else nodesToCheck
      let nodesToCheck := if currentVal ≤ max ∧ n.right ≠ NullNode then n.right :: nodesToCheck else nodesToCheck
      rangeQueryLoop t min max fuel nodesToCheck values

def rangeQuery (t : Treap) (min max : ℤ) : Except Fault (List ℤ) :=
  if t.root = NullNode then .ok [] else t.rangeQueryLoop min max loopFuel [t.root] []

def getSize (t : Treap) : ℕ := t.size

def getMaxValueLoop : ℕ → Treap → TreapIndex → Except Fault ℤ
  | 0, _, _ => .error .outOfFuel
  | fuel + 1, t, tempIndex => do
      let n ← t.get tempIndex
      if n.right ≠ NullNode then getMaxValueLoop fuel t n.right else return n.val

def getMaxValue (t : Treap) : Except Fault ℤ :=
  if t.size = 0 then .error (.exn (.logicError "Cannot get the maximum value of an empty treap"))
  else getMaxValueLoop loopFuel t t.root

/-! ### Insertion and removal -/

def createNewNode (t : Treap) (val : ℤ) : TreapM (TreapIndex × Treap) := do
  let newNodeIndex : TreapIndex := some t.size
  let weight ← drawWeight
  let t ← liftArray ({ t with size := t.size + 1 }.modify newNodeIndex
    (fun _ => { val := val, weight := weight, parent := NullNode, left := NullNode, right := NullNode }))
  return (newNodeIndex, t)

def insert (t : Treap) (val : ℤ) : TreapM Treap := do
  if t.size = TREAP_NODES then
    throw (.exn (.outOfRange "Treap is full"))
  let (newNodeIndex, t) ← t.createNewNode val
  if t.size = 1 then
    -- the first node of the treap is its root
    return { t with root := newNodeIndex }
  let t ← liftArray (t.bstInsert newNodeIndex)
  liftArray (t.moveUp newNodeIndex)

def remove (t : Treap) (val : ℤ) : Except Fault (Bool × Treap) := do
  let foundIndex ← t.bstFind val
  if foundIndex = NullNode then
    return (false, t)
  -- move the target down to a leaf and cut it off
  let t ← t.moveDown foundIndex
  let parentIndex := (← t.get foundIndex).parent
  let t ← t.hookUp parentIndex foundIndex NullNode
  -- the last slot in use fills the gap
  let t ← t.moveNode (some (t.size - 1)) foundIndex
  return (true, { t with size := t.size - 1 })

/-- `Treap::New()`. -/
def New : TreapM Treap := fun env =>
  match env.news env.allocated with
  | some e => (.error (.exn e), { env with allocated := env.allocated + 1 })
  | none => (.ok empty, { env with allocated := env.allocated + 1 })

/-- `Treap::New(other)`: a pool element assigned from `other`. -/
def NewCopy (other : Treap) : TreapM Treap := do
  let _ ← New
  return other

def immutableInsert (t : Treap) (val : ℤ) : TreapM Treap := do
  let newTreap ← NewCopy t
  newTreap.insert val

/-- The new treap and the value stored in `*success`. -/
def immutableRemove (t : Treap) (val : ℤ) : TreapM (Treap × Bool) := do
  let newTreap ← NewCopy t
  let (success, newTreap) ← liftArray (newTreap.remove val)
  return (newTreap, success)

def sequentialInsert (t : Treap) (val : ℤ) : TreapM Treap := t.insert val

def sequentialRemove (t : Treap) (val : ℤ) : Except Fault (Bool × Treap) := t.remove val

/-! ### Transfer, merge and split -/

structure TreapTransferInfo where
  isLeftChild : Bool
  newParentIndex : TreapIndex
  originalIndex : TreapIndex
deriving DecidableEq, Repr

/-- The loop of `transferNodesFrom` on the stack `nodesToTransfer`, its top first; `transferRoot`
is unset (`NullNode`) until the first node has been transferred. -/
def transferLoop (other : Treap) : ℕ → List TreapTransferInfo → TreapIndex → Treap → TreapM (TreapIndex × Treap)
  | _, [], transferRoot, t => return (transferRoot, t)
  | 0, _ :: _, _, _ => throw .outOfFuel
  | fuel + 1, currentInfo :: nodesToTransfer, transferRoot, t => do
      let original ← liftArray (other.get currentInfo.originalIndex)
      let (newIndex, t) ← t.createNewNode original.val
      let (transferRoot, t) ← liftArray (
        if currentInfo.newParentIndex ≠ NullNode then do
          let t ← t.modify newIndex (fun n => n.withParent currentInfo.newParentIndex)
          let t ← t.modify currentInfo.newParentIndex (fun n =>
            if currentInfo.isLeftChild then { n with left := newIndex } else { n with right := newIndex })
          return (transferRoot, t)
        else return (newIndex, t))
      let nodesToTransfer := if original.left ≠ NullNode then
        ⟨true, newIndex, original.left⟩ :: nodesToTransfer else nodesToTransfer
      let nodesToTransfer := if original.right ≠ NullNode then
        ⟨false, newIndex, original.right⟩ :: nodesToTransfer else nodesToTransfer
      transferLoop other fuel nodesToTransfer transferRoot t

def transferNodesFrom (t other : Treap) (rootIndex : TreapIndex) : TreapM (TreapIndex × Treap) := do
  if rootIndex = NullNode then
    throw (.exn (.invalidArgument "Root node index to transfer from is Null"))
  transferLoop other loopFuel [⟨false, NullNode, rootIndex⟩] NullNode t

/-- The conversion of a `double` to `int`: truncation toward zero. -/
def toInt (x : ℚ) : ℤ := x.num.tdiv x.den

/-- `values.at(i)`. -/
def vectorAt (values : List ℤ) (i : ℕ) : Except Fault ℤ :=
  match values[i]? with
  | some v => .ok v
  | none => .error (.exn (.outOfRange "vector::at"))

/-- The values of the slots in use, sorted. -/
def sortedValues (t : Treap) : List ℤ :=
  ((List.range t.size).map (fun i => (t.nodes i).val)).insertionSort (· ≤ ·)

def getMedianVal (t : Treap) : Except Fault ℤ :=
  if t.size = 0 then
    .error (.exn (.logicError "Cannot calculate median of a Treap with no elements"))
  else do
    let values := t.sortedValues
    if t.size % 2 = 0 then
      let low ← vectorAt values (t.size / 2 - 1)
      let high ← vectorAt values (t.size / 2)
      -- the cast binds to the first quotient only; the sum is converted on return
      return toInt ((toInt ((low : ℚ) / 2) : ℚ) + (high : ℚ) / 2)
    else
      vectorAt values (t.size / 2)

/-- The part of `merge` that joins the two transferred trees: a dummy node above both moves down
to a leaf and is cut off. -/
def joinRoots (mergedTreap : Treap) (leftRootIndex rightRootIndex : TreapIndex) : Except Fault Treap := do
  let leftRootVal := (← mergedTreap.get leftRootIndex).val
  let rightRootVal := (← mergedTreap.get rightRootIndex).val
  let avgVal := toInt ((leftRootVal : ℚ) / 2 + (rightRootVal : ℚ) / 2)
  let t ← mergedTreap.modify ControlNode (fun _ =>
    { val := avgVal, weight := NegInfinity, parent := NullNode, left := leftRootIndex, right := rightRootIndex })
  let t ← t.modify leftRootIndex (fun n => n.withParent ControlNode)
  let t ← t.modify rightRootIndex (fun n => n.withParent ControlNode)
  let t ← { t with root := ControlNode }.moveDown ControlNode
  let controlParentIndex := (← t.get ControlNode).parent
  t.relink controlParentIndex ControlNode NullNode

def merge (left right : Treap) : TreapM Treap := do
  let newSize := left.size + right.size
  if newSize > TREAP_NODES then
    throw (.exn (.invalidArgument ("Merging these treaps would overflow the new treap. (Sizes: " ++
      toString left.size ++ ", " ++ toString right.size ++ ")")))
  let mergedTreap ← New
  if newSize = 0 then
    return mergedTreap
  if right.root = NullNode then
    let (newRoot, mergedTreap) ← mergedTreap.transferNodesFrom left left.root
    liftArray ({ mergedTreap with root := newRoot }.modify newRoot (fun n => n.withParent NullNode))
  else if left.root = NullNode then
    let (newRoot, mergedTreap) ← mergedTreap.transferNodesFrom right right.root
    liftArray ({ mergedTreap with root := newRoot }.modify newRoot (fun n => n.withParent NullNode))
  else
    let (leftRootIndex, mergedTreap) ← mergedTreap.transferNodesFrom left left.root
    let (rightRootIndex, mergedTreap) ← mergedTreap.transferNodesFrom right right.root
    liftArray (mergedTreap.joinRoots leftRootIndex rightRootIndex)

/-- The part of `split` that prepares `workingTreap`: a dummy node of least weight is inserted and
moves up to the root. -/
def insertControl (workingTreap : Treap) (splitVal : ℤ) : Except Fault Treap := do
  let t ← workingTreap.modify ControlNode (fun _ =>
    { val := splitVal, weight := NegInfinity, parent := NullNode, left := NullNode, right := NullNode })
  let t ← t.bstInsert ControlNode
  t.moveUp ControlNode

/-- The treap of one side of a split: empty, or the transfer of a subtree. -/
def splitSide (t workingTreap : Treap) (index : TreapIndex) : TreapM Treap :=
  if index ≠ NullNode then do
    let (newRoot, t) ← t.transferNodesFrom workingTreap index
    return { t with root := newRoot }
  else return t

/-- The split value and the two treaps stored in `*left` and `*right`. -/
def split (t : Treap) : TreapM (ℤ × Treap × Treap) := do
  if t.size = 0 then
    throw (.exn (.logicError "An empty treap cannot be split"))
  let left ← New
  let right ← New
  let splitVal ← liftArray t.getMedianVal
  let workingTreap ← liftArray (t.insertControl splitVal)
  let leftIndex := (← liftArray (workingTreap.get ControlNode)).left
  let left ← left.splitSide workingTreap leftIndex
  let rightIndex := (← liftArray (workingTreap.get ControlNode)).right
  let right ← right.splitSide workingTreap rightIndex
  return (splitVal, left, right)

end Treap

end LockFreeSearchTree
