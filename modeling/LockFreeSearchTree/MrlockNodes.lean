import LockFreeSearchTree.Linearizable
import LockFreeSearchTree.MrlockInvariant

/-! # The nodes of the tree behind one lock

The tree of `mrlocktree.cpp` on the heap: nodes that are created, linked by pointers and deleted, and
the methods as programs over these operations.

* **Heap.** A pointer is a number, `NULL` being `0`; `new` hands out a new address, and after `delete`
  nothing is at the address any more.  To access a node that is not there, or to delete one, is undefined
  behaviour.
* **Operations.** An operation does not fail but says what went wrong, so that the exceptions of the treaps
  and of the pool are results, too.  -/

namespace LockFreeSearchTree.MrlockHeap

open Concurrent

abbrev Ptr := ℕ

def NULL : Ptr := 0

/-- `MrlockTree::Node`, with the values its fields have at first. -/
structure Node where
  isRoute : Bool := true
  val : ℤ
  treap : Option Treap := none
  left : Ptr := NULL
  right : Ptr := NULL

/-- The field `head`, the nodes that exist, the next address and what the treaps draw from. -/
structure Heap where
  head : Ptr
  nodes : Ptr → Option Node
  next : Ptr
  env : Env

namespace Heap

def set (h : Heap) (p : Ptr) (n : Option Node) : Heap := { h with nodes := Function.update h.nodes p n }

/-- The heap with one more node. -/
def alloc (h : Heap) (n : Node) : Heap := { h.set h.next (some n) with next := h.next + 1 }

end Heap

/-! ### Operations -/

inductive Op where
  | loadHead
  | storeHead (p : Ptr)
  | read (p : Ptr)
  | storeIsRoute (p : Ptr) (b : Bool)
  | storeVal (p : Ptr) (v : ℤ)
  | storeTreap (p : Ptr) (t : Option Treap)
  | storeLeft (p q : Ptr)
  | storeRight (p q : Ptr)
  | new (val : ℤ)
  | delete (p : Ptr)
  | newTreap
  | immutableInsert (t : Treap) (val : ℤ)
  | immutableRemove (t : Treap) (val : ℤ)
  | split (t : Treap)
  | merge (left right : Treap)

/-- What an operation returns. -/
abbrev Op.Ret : Op → Type
  | loadHead | new _ => Ptr
  | storeHead _ => Unit
  | read _ => Except Fault Node
  | storeIsRoute _ _ | storeVal _ _ | storeTreap _ _ | storeLeft _ _ | storeRight _ _ | delete _ => Except Fault Unit
  | newTreap | immutableInsert _ _ | merge _ _ => Except Fault Treap
  | immutableRemove _ _ => Except Fault (Treap × Bool)
  | split _ => Except Fault (ℤ × Treap × Treap)

/-- A change of the node at `p`. -/
def change (h : Heap) (p : Ptr) (f : Node → Option Node) : Except Fault Unit × Heap :=
  match h.nodes p with
  | some n => (.ok (), h.set p (f n))
  | none => (.error .undefinedBehaviour, h)

/-- An operation of the treaps. -/
def onEnv {α : Type} (h : Heap) (m : TreapM α) : Except Fault α × Heap := ((m h.env).1, { h with env := (m h.env).2 })

def exec : (o : Op) → Heap → o.Ret × Heap
  | .loadHead, h => (h.head, h)
  | .storeHead p, h => ((), { h with head := p })
  | .read p, h => (match h.nodes p with
      | some n => .ok n
      | none => .error .undefinedBehaviour, h)
  | .storeIsRoute p b, h => change h p fun n => some { n with isRoute := b }
  | .storeVal p v, h => change h p fun n => some { n with val := v }
  | .storeTreap p t, h => change h p fun n => some { n with treap := t }
  | .storeLeft p q, h => change h p fun n => some { n with left := q }
  | .storeRight p q, h => change h p fun n => some { n with right := q }
  | .new val, h => (h.next, h.alloc { val := val })
  | .delete p, h => if p = NULL then (.ok (), h) else change h p fun _ => none
  | .newTreap, h => onEnv h Treap.New
  | .immutableInsert t val, h => onEnv h (t.immutableInsert val)
  | .immutableRemove t val, h => onEnv h (t.immutableRemove val)
  | .split t, h => onEnv h t.split
  | .merge left right, h => onEnv h (Treap.merge left right)

abbrev HeapM := Prog Op Op.Ret Fault

def loadHead : HeapM Ptr := Prog.perform Op.loadHead
def storeHead (p : Ptr) : HeapM Unit := Prog.perform (Op.storeHead p)
def new (val : ℤ) : HeapM Ptr := Prog.perform (Op.new val)
def read (p : Ptr) : HeapM Node := do Prog.ofExcept (← Prog.perform (Op.read p))
def storeIsRoute (p : Ptr) (b : Bool) : HeapM Unit := do Prog.ofExcept (← Prog.perform (Op.storeIsRoute p b))
def storeVal (p : Ptr) (v : ℤ) : HeapM Unit := do Prog.ofExcept (← Prog.perform (Op.storeVal p v))
def storeTreap (p : Ptr) (t : Option Treap) : HeapM Unit := do Prog.ofExcept (← Prog.perform (Op.storeTreap p t))
def storeLeft (p q : Ptr) : HeapM Unit := do Prog.ofExcept (← Prog.perform (Op.storeLeft p q))
def storeRight (p q : Ptr) : HeapM Unit := do Prog.ofExcept (← Prog.perform (Op.storeRight p q))
def delete (p : Ptr) : HeapM Unit := do Prog.ofExcept (← Prog.perform (Op.delete p))
def newTreap : HeapM Treap := do Prog.ofExcept (← Prog.perform Op.newTreap)
def immutableInsert (t : Treap) (val : ℤ) : HeapM Treap := do Prog.ofExcept (← Prog.perform (Op.immutableInsert t val))
def immutableRemove (t : Treap) (val : ℤ) : HeapM (Treap × Bool) := do
  Prog.ofExcept (← Prog.perform (Op.immutableRemove t val))
def split (t : Treap) : HeapM (ℤ × Treap × Treap) := do Prog.ofExcept (← Prog.perform (Op.split t))
def merge (left right : Treap) : HeapM Treap := do Prog.ofExcept (← Prog.perform (Op.merge left right))

/-- The treap a node points to. -/
def treapOf (p : Ptr) : HeapM Treap := do
  match (← read p).treap with
  | some t => return t
  | none => .raise .undefinedBehaviour

/-! ### Methods -/

/-- `MrlockTree::MrlockTree`, but for the lock. -/
def create : HeapM Unit := do
  let head ← new MrlockTree.Empty
  storeHead head
  let treap ← newTreap
  storeTreap head (some treap)
  storeIsRoute head false

/-- The search for a base node, as `insert` and `lookup` do it. -/
def find (val : ℤ) : ℕ → Ptr → HeapM Ptr
  | 0, _ => .raise .outOfFuel
  | fuel + 1, temp => do
      if (← read temp).isRoute then
        if (← read temp).val ≥ val then find val fuel (← read temp).left
        else find val fuel (← read temp).right
      else return temp

/-- The split at the end of `insert`. -/
def splitBase (temp : Ptr) : HeapM Unit := do
  let left ← new MrlockTree.Empty
  storeIsRoute left false
  let right ← new MrlockTree.Empty
  storeIsRoute right false
  let (splitVal, leftTreap, rightTreap) ← split (← treapOf temp)
  storeTreap left (some leftTreap)
  storeTreap right (some rightTreap)
  storeVal temp splitVal
  storeIsRoute temp true
  storeLeft temp left
  storeRight temp right
  storeTreap temp none

/-- What `insert` does at the base node it has found. -/
def insertAt (val : ℤ) (temp : Ptr) : HeapM Unit := do
  let treap ← immutableInsert (← treapOf temp) val
  storeTreap temp (some treap)
  if (← treapOf temp).getSize ≥ MrlockTree.TreapSplitThreshold then splitBase temp
  else return ()

def insert (fuel : ℕ) (val : ℤ) : HeapM Unit := do
  insertAt val (← find val fuel (← loadHead))

/-- The search of `remove`, which keeps the parent. -/
def findWithParent (val : ℤ) : ℕ → Ptr → Ptr → HeapM (Ptr × Ptr)
  | 0, _, _ => .raise .outOfFuel
  | fuel + 1, temp, tempParent => do
      if (← read temp).isRoute then
        if (← read temp).val ≥ val then findWithParent val fuel (← read temp).left temp
        else findWithParent val fuel (← read temp).right temp
      else return (temp, tempParent)

def mergeIsPossible (tempParent : Ptr) : HeapM Bool := do
  if tempParent = NULL then return false
  else if (← read (← read tempParent).left).isRoute then return false
  else return ! (← read (← read tempParent).right).isRoute

/-- The merge of the two children of `tempParent`, if they are small enough. -/
def mergeBases (tempParent : Ptr) : HeapM Unit := do
  let left ← treapOf (← read tempParent).left
  let right ← treapOf (← read tempParent).right
  if left.getSize + right.getSize ≤ MrlockTree.TreapMergeThreshold then do
    let treap ← merge left right
    storeTreap tempParent (some treap)
    storeIsRoute tempParent false
    delete (← read tempParent).left
    storeLeft tempParent NULL
    delete (← read tempParent).right
    storeRight tempParent NULL
  else return ()

/-- The merge at the end of `remove`. -/
def mergeIfPossible (tempParent : Ptr) : HeapM Unit := do
  if ← mergeIsPossible tempParent then mergeBases tempParent
  else return ()

/-- What `remove` does at the base node it has found. -/
def removeAt (val : ℤ) (temp tempParent : Ptr) : HeapM Bool := do
  let (treap, success) ← immutableRemove (← treapOf temp) val
  storeTreap temp (some treap)
  mergeIfPossible tempParent
  return success

def remove (fuel : ℕ) (val : ℤ) : HeapM Bool := do
  let (temp, tempParent) ← findWithParent val fuel (← loadHead) NULL
  removeAt val temp tempParent

def lookup (fuel : ℕ) (val : ℤ) : HeapM Bool := do
  let temp ← find val fuel (← loadHead)
  Prog.ofExcept ((← treapOf temp).contains val)

/-- The loop of `rangeQuery` on the stack `nodesToCheck`, its top first. -/
def rangeQueryLoop (low high : ℤ) : ℕ → List Ptr → List ℤ → HeapM (List ℤ)
  | _, [], result => return result
  | 0, _ :: _, _ => .raise .outOfFuel
  | fuel + 1, temp :: nodesToCheck, result => do
      if ¬ (← read temp).isRoute then do
        let values ← Prog.ofExcept ((← treapOf temp).rangeQuery low high)
        rangeQueryLoop low high fuel nodesToCheck (result ++ values)
      else do
        let n ← read temp
        let nodesToCheck := if n.val ≥ low then n.left :: nodesToCheck else nodesToCheck
        let nodesToCheck := if n.val ≤ high then n.right :: nodesToCheck else nodesToCheck
        rangeQueryLoop low high fuel nodesToCheck result

def rangeQuery (fuel : ℕ) (low high : ℤ) : HeapM (List ℤ) := do
  rangeQueryLoop low high fuel [← loadHead] []

/-- The loop of `MrlockTree::~MrlockTree` on the stack `nodeStack`, its top first. -/
def destroyLoop : ℕ → List Ptr → HeapM Unit
  | _, [] => return ()
  | 0, _ :: _ => .raise .outOfFuel
  | fuel + 1, currentNode :: nodeStack => do
      let n ← read currentNode
      let nodeStack := if n.left ≠ NULL then n.left :: nodeStack else nodeStack
      let nodeStack := if n.right ≠ NULL then n.right :: nodeStack else nodeStack
      delete currentNode
      destroyLoop fuel nodeStack

/-- `MrlockTree::~MrlockTree`. -/
def destroy (fuel : ℕ) : HeapM Unit := do
  let head ← loadHead
  if head ≠ NULL then destroyLoop fuel [head]
  else return ()

/-- The program of a call. -/
def body (fuel : ℕ) : Call → HeapM Result
  | .insert val => do
      insert fuel val
      return .void
  | .remove val => do
      return .bool (← remove fuel val)
  | .lookup val => do
      return .bool (← lookup fuel val)
  | .rangeQuery low high => do
      return .vector (← rangeQuery fuel low high)

/-- The heap before the constructor. -/
def empty (env : Env) : Heap := ⟨NULL, fun _ => none, NULL + 1, env⟩

end LockFreeSearchTree.MrlockHeap
