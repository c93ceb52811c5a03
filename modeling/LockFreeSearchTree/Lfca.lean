import LockFreeSearchTree.Interleaving
import LockFreeSearchTree.SearchTree
import LockFreeSearchTree.Treap

/-! # The lock-free tree

The tree of `lfca.cpp`: the nodes on the heap, the atomic operations on them, and the functions of
the source as programs over these operations.

* **Memory.** A pointer is a number, the special pointers of `lfca.h` being the first ones; the
  pool hands out the addresses from `firstPtr` on.  A node has the fields of the source: the ones
  that are not atomic are `Plain`.  Dereferencing anything that was not allocated is undefined
  behaviour.
* **Pools.** `New` is called where the source calls it, and throws what the pool throws; the call
  counts in any case (`Pools`).  A node is private until it is published, so it gets its address once
  its fields are set (`new`); `New(other)` loads the atomic fields of `other` one by one before.
* **Operations.** Every load, store and compare-exchange of an atomic field is one operation
  (`Op`), performed on behalf of a call of `complete_join` or not (`Access.caller`).  Reading the
  plain fields of a node is one operation, too.  Treaps never change once a node points to them; the
  operations that draw weights or take treaps from the pool are one operation each (`PoolOp`).
* **Loops.** Loops and recursive calls take fuel and end in `outOfFuel` when it is used up. -/

namespace LockFreeSearchTree

open BinTree Concurrent

namespace Lfca

/-! ### Constants -/

abbrev Ptr := ℕ

def nullptr : Ptr := 0
def NOT_FOUND : Ptr := 1
def PREPARING : Ptr := 0
def DONE : Ptr := 1
def ABORTED : Ptr := 2

/-- The first address of the pool. -/
def firstPtr : Ptr := 3

def CONT_CONTRIB : ℤ := 250
def LOW_CONT_CONTRIB : ℤ := 1
def RANGE_CONTRIB : ℤ := 100
def HIGH_CONT : ℤ := 1000
def LOW_CONT : ℤ := -1000

inductive ContentionInfo where
  | contended
  | uncontened
  | noinfo
deriving DecidableEq, Repr

inductive NodeType where
  | route
  | normal
  | joinMain
  | joinNeighbor
  | range
deriving DecidableEq, Repr

/-! ### Memory -/

/-- The fields of a node that are not atomic. -/
structure Plain where
  key : ℤ := 0
  data : Option Treap := none
  stat : ℤ := 0
  parent : Ptr := nullptr
  neigh1 : Ptr := nullptr
  gparent : Ptr := nullptr
  otherb : Ptr := nullptr
  mainNode : Ptr := nullptr
  lo : ℤ := 0
  hi : ℤ := 0
  storage : Ptr := nullptr
  type : NodeType := .route

structure Node extends Plain where
  left : Ptr := nullptr
  right : Ptr := nullptr
  valid : Bool := true
  joinId : Ptr := nullptr
  neigh2 : Ptr := PREPARING

/-- `rs`; `result` is `none` where the source has `NOT_SET`. -/
structure Rs where
  result : Option (List ℤ) := none
  moreThanOneBase : Bool := false

/-- The atomic pointers of a node. -/
inductive Field where
  | child (d : Side)
  | joinId
  | neigh2
deriving DecidableEq, Repr

/-- The plain pointers that are set after a node has been published. -/
inductive PlainField where
  | gparent
  | otherb
  | neigh1
deriving DecidableEq, Repr

namespace Node

def get (n : Node) : Field → Ptr
  | .child .left => n.left
  | .child .right => n.right
  | .joinId => n.joinId
  | .neigh2 => n.neigh2

def set (n : Node) : Field → Ptr → Node
  | .child .left, p => { n with left := p }
  | .child .right, p => { n with right := p }
  | .joinId, p => { n with joinId := p }
  | .neigh2, p => { n with neigh2 := p }

def assign (n : Node) : PlainField → Ptr → Node
  | .gparent, p => { n with gparent := p }
  | .otherb, p => { n with otherb := p }
  | .neigh1, p => { n with neigh1 := p }

end Node

/-- The pools of nodes, result storages and treaps: `nodes n` and `stores n` say what the `n`-th call of
`New` throws, if it throws. -/
structure Pools where
  nodes : ℕ → Option Exn
  nodesTaken : ℕ := 0
  stores : ℕ → Option Exn
  storesTaken : ℕ := 0
  env : Env

/-- The root pointer, the heap and the pools. -/
structure Shared where
  root : Ptr
  nodes : Ptr → Node
  next : Ptr
  stores : Ptr → Rs
  nextStore : Ptr
  pools : Pools

namespace Shared

def Allocated (s : Shared) (p : Ptr) : Prop := firstPtr ≤ p ∧ p < s.next

def AllocatedStore (s : Shared) (p : Ptr) : Prop := firstPtr ≤ p ∧ p < s.nextStore

instance (s : Shared) (p : Ptr) : Decidable (s.Allocated p) := inferInstanceAs (Decidable (_ ∧ _))

instance (s : Shared) (p : Ptr) : Decidable (s.AllocatedStore p) := inferInstanceAs (Decidable (_ ∧ _))

/-- The heap with the node at `p` changed. -/
def update (s : Shared) (p : Ptr) (f : Node → Node) : Shared :=
  { s with nodes := Function.update s.nodes p (f (s.nodes p)) }

/-- The heap with one more node. -/
def alloc (s : Shared) (n : Node) : Shared :=
  { s with nodes := Function.update s.nodes s.next n, next := s.next + 1 }

/-- The heap with the result storage at `p` changed. -/
def updateStore (s : Shared) (p : Ptr) (f : Rs → Rs) : Shared :=
  { s with stores := Function.update s.stores p (f (s.stores p)) }

end Shared

/-! ### Operations -/

/-- The operations on the pools, which may throw. -/
inductive PoolOp where
  /-- `node::New()`. -/
  | node
  /-- `rs::New()`. -/
  | rs
  | insert (t : Treap) (val : ℤ)
  | remove (t : Treap) (val : ℤ)
  | split (t : Treap)
  | merge (left right : Treap)

namespace PoolOp

abbrev Val : PoolOp → Type
  | node | rs => Unit
  | insert _ _ | merge _ _ => Treap
  | remove _ _ => Treap × Bool
  | split _ => ℤ × Treap × Treap

/-- What a call of `New` throws, if anything. -/
def thrown : Option Exn → Except Fault Unit
  | some e => .error (.exn e)
  | none => .ok ()

/-- An operation on treaps. -/
def onTreaps {α : Type} (P : Pools) (m : TreapM α) : Except Fault α × Pools := ((m P.env).1, { P with env := (m P.env).2 })

def exec (P : Pools) : (o : PoolOp) → Except Fault o.Val × Pools
  | node => (thrown (P.nodes P.nodesTaken), { P with nodesTaken := P.nodesTaken + 1 })
  | rs => (thrown (P.stores P.storesTaken), { P with storesTaken := P.storesTaken + 1 })
  | insert t val => onTreaps P (t.immutableInsert val)
  | remove t val => onTreaps P (t.immutableRemove val)
  | split t => onTreaps P t.split
  | merge left right => onTreaps P (Treap.merge left right)

end PoolOp

inductive Op where
  | loadRoot
  | casRoot (expected desired : Ptr)
  | plain (n : Ptr)
  | assign (n : Ptr) (f : PlainField) (p : Ptr)
  | load (n : Ptr) (f : Field)
  | store (n : Ptr) (f : Field) (p : Ptr)
  | cas (n : Ptr) (f : Field) (expected desired : Ptr)
  | loadValid (n : Ptr)
  | storeValid (n : Ptr) (b : Bool)
  /-- What the operation returns or throws. -/
  | pool (o : PoolOp)
  /-- Nodes from the pool with their fields set, the first at the address the list is computed for. -/
  | new (nodes : Ptr → List Node)
  /-- A result storage from the pool. -/
  | newRs
  | loadResult (s : Ptr)
  | casResult (s : Ptr) (result : List ℤ)
  | loadMore (s : Ptr)
  | storeMore (s : Ptr) (b : Bool)

/-- What an operation returns. -/
abbrev Op.Ret : Op → Type
  | loadRoot | load _ _ | new _ | newRs => Ptr
  | pool o => Except Fault o.Val
  | casRoot _ _ | cas _ _ _ _ | loadValid _ | casResult _ _ | loadMore _ => Bool
  | plain _ => Plain
  | assign _ _ _ | store _ _ _ | storeValid _ _ | storeMore _ _ => Unit
  | loadResult _ => Option (List ℤ)

/-- An access to the node at `p`. -/
def onNode {α : Type} (s : Shared) (p : Ptr) (x : α × Shared) : Except Fault (α × Shared) :=
  if s.Allocated p then .ok x else .error .undefinedBehaviour

/-- An access to the result storage at `p`. -/
def onStore {α : Type} (s : Shared) (p : Ptr) (x : α × Shared) : Except Fault (α × Shared) :=
  if s.AllocatedStore p then .ok x else .error .undefinedBehaviour

def Op.exec (s : Shared) : (o : Op) → Except Fault (o.Ret × Shared)
  | loadRoot => .ok (s.root, s)
  | casRoot expected desired =>
      .ok (if s.root = expected then (true, { s with root := desired }) else (false, s))
  | plain n => onNode s n ((s.nodes n).toPlain, s)
  | assign n f p => onNode s n ((), s.update n (fun d => d.assign f p))
  | load n f => onNode s n ((s.nodes n).get f, s)
  | store n f p => onNode s n ((), s.update n (fun d => d.set f p))
  | cas n f expected desired =>
      onNode s n (if (s.nodes n).get f = expected then (true, s.update n (fun d => d.set f desired)) else (false, s))
  | loadValid n => onNode s n ((s.nodes n).valid, s)
  | storeValid n b => onNode s n ((), s.update n (fun d => { d with valid := b }))
  | pool o => .ok ((o.exec s.pools).1, { s with pools := (o.exec s.pools).2 })
  | new nodes => .ok (s.next, (nodes s.next).foldl Shared.alloc s)
  | newRs => .ok (s.nextStore, { s with nextStore := s.nextStore + 1 })
  | loadResult p => onStore s p ((s.stores p).result, s)
  | casResult p result => onStore s p (match (s.stores p).result with
      | none => (true, s.updateStore p (fun r => { r with result := some result }))
      | some _ => (false, s))
  | loadMore p => onStore s p ((s.stores p).moreThanOneBase, s)
  | storeMore p b => onStore s p ((), s.updateStore p (fun r => { r with moreThanOneBase := b }))

/-- An operation, and the node whose `complete_join` performs it, if one does. -/
structure Access where
  op : Op
  caller : Option Ptr := none

abbrev Access.Ret (a : Access) : Type := a.op.Ret

def exec (a : Access) (s : Shared) : Except Fault (a.Ret × Shared) := a.op.exec s

abbrev LfcaM := Prog Access Access.Ret Fault

/-- Perform an operation. -/
def perform (o : Op) : LfcaM o.Ret := Prog.perform (⟨o, none⟩ : Access)

/-- Perform an operation in a call of `complete_join(m)`. -/
def performBy (m : Ptr) (o : Op) : LfcaM o.Ret := Prog.perform (⟨o, some m⟩ : Access)

def loadRoot : LfcaM Ptr := perform .loadRoot
def plain (n : Ptr) : LfcaM Plain := perform (.plain n)
def load (n : Ptr) (f : Field) : LfcaM Ptr := perform (.load n f)
def store (n : Ptr) (f : Field) (p : Ptr) : LfcaM Unit := perform (.store n f p)
def cas (n : Ptr) (f : Field) (expected desired : Ptr) : LfcaM Bool := perform (.cas n f expected desired)
def loadValid (n : Ptr) : LfcaM Bool := perform (.loadValid n)
def loadMore (s : Ptr) : LfcaM Bool := perform (.loadMore s)
def casResult (s : Ptr) (result : List ℤ) : LfcaM Bool := perform (.casResult s result)
def loadResult (s : Ptr) : LfcaM (Option (List ℤ)) := perform (.loadResult s)

/-- An operation on the pools, which throws what it throws. -/
def fromPool (o : PoolOp) : LfcaM o.Val := do Prog.ofExcept (← perform (.pool o))

/-- The node that `node::New()` has returned before, once its fields have been assigned. -/
def new (n : Node) : LfcaM Ptr := perform (.new fun _ => [n])

/-- `node::New(*other)`, but for the address. -/
def copyOf (other : Ptr) : LfcaM Node := do
  fromPool .node
  let p ← plain other
  let left ← load other (.child .left)
  let right ← load other (.child .right)
  let valid ← loadValid other
  let joinId ← load other .joinId
  let neigh2 ← load other .neigh2
  return { p with left := left, right := right, valid := valid, joinId := joinId, neigh2 := neigh2 }

/-- `node::New(*other)` and the assignments to the fields of the copy. -/
def newCopy (other : Ptr) (f : Node → Node) : LfcaM Ptr := do new (f (← copyOf other))

/-- `rs::New()`. -/
def newRs : LfcaM Ptr := do
  fromPool .rs
  perform .newRs

/-- The treap a base node points to. -/
def dataOf (n : Ptr) : LfcaM Treap := do
  match (← plain n).data with
  | some t => return t
  | none => .raise .undefinedBehaviour

/-- `*s->result.load()`. -/
def derefResult (s : Ptr) : LfcaM (List ℤ) := do
  match ← loadResult s with
  | some values => return values
  | none => .raise .undefinedBehaviour

/-! ### Helper functions -/

/-- Follow the pointers on a side until there is none. -/
def outermost (d : Side) : ℕ → Ptr → LfcaM Ptr
  | 0, _ => .raise .outOfFuel
  | fuel + 1, temp => do
      if (← load temp (.child d)) ≠ nullptr then
        outermost d fuel (← load temp (.child d))
      else return temp

def leftmost (fuel : ℕ) (n : Ptr) : LfcaM Ptr := outermost .left fuel n

def rightmost (fuel : ℕ) (n : Ptr) : LfcaM Ptr := outermost .right fuel n

/-- `try_replace`, on behalf of `complete_join(m)` if `caller` is `some m`. -/
def tryReplace (caller : Option Ptr) (b newB : Ptr) : LfcaM Bool := do
  let parent := (← plain b).parent
  if parent = nullptr then
    Prog.perform (⟨.casRoot b newB, caller⟩ : Access)
  else if (← load parent (.child .left)) = b then
    Prog.perform (⟨.cas parent (.child .left) b newB, caller⟩ : Access)
  else if (← load parent (.child .right)) = b then
    Prog.perform (⟨.cas parent (.child .right) b newB, caller⟩ : Access)
  else return false

def isReplaceable (n : Ptr) : LfcaM Bool := do
  let p ← plain n
  match p.type with
  | .normal => return true
  | .joinMain => return (← load n .neigh2) = ABORTED
  | .joinNeighbor => do
      let neigh2local ← load p.mainNode .neigh2
      return neigh2local = ABORTED ∨ neigh2local = DONE
  | .range => return (← loadResult p.storage).isSome
  | .route => return false

def newStat (n : Ptr) (info : ContentionInfo) : LfcaM ℤ := do
  let p ← plain n
  let more ← if p.type = .range then loadMore p.storage else pure false
  let rangeSub := if more then RANGE_CONTRIB else 0
  if info = .contended ∧ p.stat ≤ HIGH_CONT then
    return p.stat + CONT_CONTRIB - rangeSub
  else if info = .uncontened ∧ p.stat ≥ LOW_CONT then
    return p.stat - LOW_CONT_CONTRIB - rangeSub
  else
    return p.stat

/-! ### Searching -/

def findBaseNode : ℕ → Ptr → ℤ → LfcaM Ptr
  | 0, _, _ => .raise .outOfFuel
  | fuel + 1, n, i => do
      let p ← plain n
      if p.type = .route then
        if i ≤ p.key then
          findBaseNode fuel (← load n (.child .left)) i
        else
          findBaseNode fuel (← load n (.child .right)) i
      else return n

/-- The loop of `find_base_stack`; stacks are lists, their top first. -/
def findBaseStackLoop : ℕ → Ptr → ℤ → List Ptr → LfcaM (Ptr × List Ptr)
  | 0, _, _, _ => .raise .outOfFuel
  | fuel + 1, n, i, s => do
      let p ← plain n
      if p.type = .route then
        if i < p.key then
          findBaseStackLoop fuel (← load n (.child .left)) i (n :: s)
        else
          findBaseStackLoop fuel (← load n (.child .right)) i (n :: s)
      else return (n, n :: s)

def findBaseStack (fuel : ℕ) (n : Ptr) (i : ℤ) : LfcaM (Ptr × List Ptr) := findBaseStackLoop fuel n i []

def leftmostAndStack : ℕ → Ptr → List Ptr → LfcaM (Ptr × List Ptr)
  | 0, _, _ => .raise .outOfFuel
  | fuel + 1, n, s => do
      if (← plain n).type = .route then
        leftmostAndStack fuel (← load n (.child .left)) (n :: s)
      else return (n, n :: s)

/-- The loop of `find_next_base_stack`. -/
def findNextBaseLoop (fuel : ℕ) (beGreaterThan : ℤ) : List Ptr → LfcaM (Ptr × List Ptr)
  | [] => return (nullptr, [])
  | t :: s => do
      if (← loadValid t) ∧ (← plain t).key > beGreaterThan then
        leftmostAndStack fuel (← load t (.child .right)) (t :: s)
      else
        findNextBaseLoop fuel beGreaterThan s

def findNextBaseStack (fuel : ℕ) : List Ptr → LfcaM (Ptr × List Ptr)
  | [] => .raise .undefinedBehaviour
  | [_] => return (nullptr, [])
  | base :: t :: s => do
      if (← load t (.child .left)) = base then
        leftmostAndStack fuel (← load t (.child .right)) (t :: s)
      else do
        let beGreaterThan := (← plain t).key
        findNextBaseLoop fuel beGreaterThan (t :: s)

/-- The loop of `parent_of`. -/
def parentOfLoop : ℕ → Ptr → Ptr → Ptr → LfcaM Ptr
  | 0, _, _, _ => .raise .outOfFuel
  | fuel + 1, n, prevNode, currNode => do
      let curr ← plain currNode
      if currNode ≠ n ∧ curr.type = .route then
        if (← plain n).key < curr.key then
          parentOfLoop fuel n currNode (← load currNode (.child .left))
        else
          parentOfLoop fuel n currNode (← load currNode (.child .right))
      else if curr.type ≠ .route then
        return NOT_FOUND
      else
        return prevNode

def parentOf (fuel : ℕ) (n : Ptr) : LfcaM Ptr := do
  parentOfLoop fuel n nullptr (← loadRoot)

/-! ### Contention adaptation -/

/-- Give up a join after the neighbor has been replaced. -/
def abortJoin (m : Ptr) : LfcaM Ptr := do
  store m .neigh2 ABORTED
  return nullptr

/-- `joinedp`, the parent of the merged node. -/
def joinedParent (otherb n1 gparent : Ptr) : LfcaM Ptr := do
  if otherb = n1 then return gparent else return (← plain n1).parent

/-- The merge of the treaps of the main node and its neighbor; the main node has the smaller values
if it is the left child. -/
def mergeData (m n1 : Ptr) : Side → LfcaM Treap
  | .left => do fromPool (.merge (← dataOf m) (← dataOf n1))
  | .right => do fromPool (.merge (← dataOf n1) (← dataOf m))

/-- The last part of `secure_join`, after the join has been entered in the two routes. -/
def publishJoin (m n1 : Ptr) (side : Side) (gparent : Ptr) : LfcaM Ptr := do
  let parent := (← plain m).parent
  perform (.assign m .gparent gparent)
  let otherb ← load parent (.child side.other)
  perform (.assign m .otherb otherb)
  perform (.assign m .neigh1 n1)
  let joinedp ← joinedParent otherb n1 gparent
  let copy ← copyOf n1
  let merged ← mergeData m n1 side
  let newNeigh2 ← new { copy with type := .joinNeighbor, parent := joinedp, mainNode := m, data := some merged }
  if ← cas m .neigh2 PREPARING newNeigh2 then
    return m
  else do
    if gparent ≠ nullptr then store gparent .joinId nullptr
    store parent .joinId nullptr
    abortJoin m

/-- The part of `secure_join` that enters the join in the parent and the grandparent. -/
def enterJoin (fuel : ℕ) (m n1 : Ptr) (side : Side) : LfcaM Ptr := do
  let parent := (← plain m).parent
  if ¬ (← cas parent .joinId nullptr m) then abortJoin m
  else do
    let gparent ← parentOf fuel parent
    if gparent = NOT_FOUND then do
      store parent .joinId nullptr
      abortJoin m
    else if gparent ≠ nullptr then do
      if ← cas gparent .joinId nullptr m then publishJoin m n1 side gparent
      else do
        store parent .joinId nullptr
        abortJoin m
    else publishJoin m n1 side gparent

/-- `secure_join`; `side` is the side of its parent that `b` is on. -/
def secureJoin (fuel : ℕ) (b : Ptr) (side : Side) : LfcaM Ptr := do
  let parent := (← plain b).parent
  let n0 ← outermost side fuel (← load parent (.child side.other))
  if ¬ (← isReplaceable n0) then return nullptr
  else if (← dataOf b).getSize + (← dataOf n0).getSize > TREAP_NODES then return nullptr
  else do
    let m ← newCopy b (fun n => { n with type := .joinMain })
    if ¬ (← cas parent (.child side) b m) then return nullptr
    else do
      let n1 ← newCopy n0 (fun n => { n with type := .joinNeighbor, mainNode := m })
      if ¬ (← tryReplace none n0 n1) then abortJoin m
      else enterJoin fuel m n1 side

def completeJoin (m : Ptr) : LfcaM Unit := do
  let n2 ← load m .neigh2
  if n2 = DONE then return ()
  else do
    let p ← plain m
    let _ ← tryReplace (some m) p.neigh1 n2
    performBy m (.storeValid p.parent false)
    let replacement := if p.otherb = p.neigh1 then n2 else p.otherb
    if p.gparent = nullptr then do
      let _ ← performBy m (.casRoot p.parent replacement)
    else if (← load p.gparent (.child .left)) = p.parent then do
      let _ ← performBy m (.cas p.gparent (.child .left) p.parent replacement)
      let _ ← performBy m (.cas p.gparent .joinId m nullptr)
    else if (← load p.gparent (.child .right)) = p.parent then do
      let _ ← performBy m (.cas p.gparent (.child .right) p.parent replacement)
      let _ ← performBy m (.cas p.gparent .joinId m nullptr)
    performBy m (.store m .neigh2 DONE)

def lowContentionAdaptation (fuel : ℕ) (b : Ptr) : LfcaM Unit := do
  let parent := (← plain b).parent
  if parent = nullptr then return ()
  else if (← load parent (.child .left)) = b then do
    let m ← secureJoin fuel b .left
    if m ≠ nullptr then completeJoin m else return ()
  else if (← load parent (.child .right)) = b then do
    let m ← secureJoin fuel b .right
    if m ≠ nullptr then completeJoin m else return ()
  else return ()

/-- The route node of a split and its two base nodes, at consecutive addresses. -/
def splitNodes (splitVal : ℤ) (left right : Treap) (r : Ptr) : List Node :=
  [{ type := .route, valid := true, key := splitVal, left := r + 1, right := r + 2 },
   { type := .normal, parent := r, stat := 0, data := some left },
   { type := .normal, parent := r, stat := 0, data := some right }]

def highContentionAdaptation (b : Ptr) : LfcaM Unit := do
  let data ← dataOf b
  if data.getSize < 2 then return ()
  else do
    fromPool .node
    let (splitVal, leftTreap, rightTreap) ← fromPool (.split data)
    fromPool .node
    fromPool .node
    let r ← perform (.new (splitNodes splitVal leftTreap rightTreap))
    let _ ← tryReplace none b r

def adaptIfNeeded (fuel : ℕ) (b : Ptr) : LfcaM Unit := do
  if ¬ (← isReplaceable b) then return ()
  else if (← newStat b .noinfo) > HIGH_CONT then highContentionAdaptation b
  else if (← newStat b .noinfo) < LOW_CONT then lowContentionAdaptation fuel b
  else return ()

/-! ### Range queries and helping -/

def newRangeBase (b : Ptr) (lo hi : ℤ) (s : Ptr) : LfcaM Ptr :=
  newCopy b (fun n => { n with lo := lo, hi := hi, storage := s })

def replaceTop (s : List Ptr) (n : Ptr) : List Ptr := n :: s.tail

/-- The values of the base nodes `done` in the range. -/
def collectValues (lo hi : ℤ) : List Ptr → LfcaM (List ℤ)
  | [] => return []
  | b :: done => do
      let values ← Prog.ofExcept ((← dataOf b).rangeQuery lo hi)
      return values ++ (← collectValues lo hi done)

/-- The end of `all_in_range`: the result is published, if none has been before. -/
def publishResult (lo hi : ℤ) (myS : Ptr) (done : List Ptr) : LfcaM (List ℤ) := do
  let res ← collectValues lo hi done
  if ← casResult myS res then do
    if done.length > 1 then perform (.storeMore myS true)
    derefResult myS
  else derefResult myS

mutual

def helpIfNeeded : ℕ → Ptr → LfcaM Unit
  | 0, _ => .raise .outOfFuel
  | fuel + 1, n => do
      let p ← plain n
      let n := if p.type = .joinNeighbor then p.mainNode else n
      let p ← plain n
      match p.type with
      | .joinMain =>
          if (← load n .neigh2) = PREPARING then do
            let _ ← cas n .neigh2 PREPARING ABORTED
          else if (← load n .neigh2) > ABORTED then completeJoin n
          else return ()
      | .range =>
          if (← loadResult p.storage).isNone then do
            let _ ← allInRange fuel p.lo p.hi p.storage
          else return ()
      | _ => return ()

/-- `all_in_range` from the label `find_first`. -/
def allInRange : ℕ → ℤ → ℤ → Ptr → LfcaM (List ℤ)
  | 0, _, _, _ => .raise .outOfFuel
  | fuel + 1, lo, hi, helpS => do
      let (b, s) ← findBaseStack fuel (← loadRoot) lo
      let p ← plain b
      if helpS ≠ nullptr then
        if p.type ≠ .range ∨ helpS ≠ p.storage then derefResult helpS
        else findRemaining fuel lo hi helpS b s []
      else if ← isReplaceable b then do
        let myS ← newRs
        let n ← newRangeBase b lo hi myS
        if ¬ (← tryReplace none b n) then allInRange fuel lo hi helpS
        else findRemaining fuel lo hi myS b (replaceTop s n) []
      else if p.type = .range ∧ p.hi ≥ hi then allInRange fuel p.lo p.hi p.storage
      else do
        helpIfNeeded fuel b
        allInRange fuel lo hi helpS

/-- The loop of `all_in_range` that finds the remaining base nodes. -/
def findRemaining : ℕ → ℤ → ℤ → Ptr → Ptr → List Ptr → List Ptr → LfcaM (List ℤ)
  | 0, _, _, _, _, _, _ => .raise .outOfFuel
  | fuel + 1, lo, hi, myS, b, s, done => do
      let done := done ++ [b]
      let data ← dataOf b
      if data.getSize ≠ 0 then
        if (← Prog.ofExcept data.getMaxValue) ≥ hi then publishResult lo hi myS done
        else findNextBaseNode fuel lo hi myS s s done
      else findNextBaseNode fuel lo hi myS s s done

/-- `all_in_range` from the label `find_next_base_node`. -/
def findNextBaseNode : ℕ → ℤ → ℤ → Ptr → List Ptr → List Ptr → List Ptr → LfcaM (List ℤ)
  | 0, _, _, _, _, _, _ => .raise .outOfFuel
  | fuel + 1, lo, hi, myS, backupS, s, done => do
      let (b, s) ← findNextBaseStack fuel s
      if b = nullptr then publishResult lo hi myS done
      else do
        if (← loadResult myS).isSome then derefResult myS
        else do
          let p ← plain b
          if p.type = .range ∧ p.storage = myS then findRemaining fuel lo hi myS b s done
          else if ← isReplaceable b then do
            let n ← newRangeBase b lo hi myS
            if ← tryReplace none b n then findRemaining fuel lo hi myS b (replaceTop s n) done
            else findNextBaseNode fuel lo hi myS backupS backupS done
          else do
            helpIfNeeded fuel b
            findNextBaseNode fuel lo hi myS backupS backupS done

end

/-! ### The public interface -/

def treapInsert (treap : Treap) (val : ℤ) : LfcaM (Treap × Bool) := do
  let newTreap ← fromPool (.insert treap val)
  return (newTreap, true)

def treapRemove (treap : Treap) (val : ℤ) : LfcaM (Treap × Bool) := fromPool (.remove treap val)

/-- The loop of `do_update`; `placed` is what is done with the fuel left once the new base node has replaced
the old one. -/
def updateLoop {β : Type} (u : Treap → ℤ → LfcaM (Treap × Bool)) (i : ℤ) (placed : ℕ → Ptr → Bool → LfcaM β) :
    ℕ → ContentionInfo → LfcaM β
  | 0, _ => .raise .outOfFuel
  | fuel + 1, contInfo => do
      let base ← findBaseNode fuel (← loadRoot) i
      let data ← dataOf base
      if data.getSize ≥ TREAP_NODES then do
        highContentionAdaptation base
        updateLoop u i placed fuel contInfo
      else if ← isReplaceable base then do
        fromPool .node
        let parent := (← plain base).parent
        let (newData, res) ← u data i
        let stat ← newStat base contInfo
        let newb ← new { type := .normal, parent := parent, data := some newData, stat := stat }
        if ← tryReplace none base newb then placed fuel newb res
        else do
          helpIfNeeded fuel base
          updateLoop u i placed fuel .contended
      else do
        helpIfNeeded fuel base
        updateLoop u i placed fuel .contended

/-- The loop of `do_update`, which adapts the new base node and returns. -/
def doUpdateLoop (u : Treap → ℤ → LfcaM (Treap × Bool)) (i : ℤ) : ℕ → ContentionInfo → LfcaM Bool :=
  updateLoop u i fun fuel newb res => do
    adaptIfNeeded fuel newb
    return res

def doUpdate (fuel : ℕ) (u : Treap → ℤ → LfcaM (Treap × Bool)) (i : ℤ) : LfcaM Bool := doUpdateLoop u i fuel .uncontened

def insert (fuel : ℕ) (i : ℤ) : LfcaM Unit := do
  let _ ← doUpdate fuel treapInsert i

def remove (fuel : ℕ) (i : ℤ) : LfcaM Bool := doUpdate fuel treapRemove i

def lookup (fuel : ℕ) (i : ℤ) : LfcaM Bool := do
  let base ← findBaseNode fuel (← loadRoot) i
  Prog.ofExcept ((← dataOf base).contains i)

def rangeQuery (fuel : ℕ) (lo hi : ℤ) : LfcaM (List ℤ) := allInRange fuel lo hi nullptr

/-- The program of a call. -/
def body (fuel : ℕ) : Call → LfcaM Result
  | .insert i => do
      insert fuel i
      return .void
  | .remove i => do
      return .bool (← remove fuel i)
  | .lookup i => do
      return .bool (← lookup fuel i)
  | .rangeQuery lo hi => do
      return .vector (← rangeQuery fuel lo hi)

/-- The state `LfcaTree::LfcaTree` leaves: one base node with an empty treap. -/
structure Initial (s : Shared) : Prop where
  root : s.root = firstPtr
  node : s.nodes firstPtr = { type := .normal, data := some Treap.empty }
  next : s.next = firstPtr + 1
  nextStore : s.nextStore = firstPtr
  stores : ∀ p, s.stores p = {}

end Lfca

end LockFreeSearchTree
