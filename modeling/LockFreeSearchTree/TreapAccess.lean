import LockFreeSearchTree.Discipline
import LockFreeSearchTree.TreapUpdate

/-! # The accesses of treap operations

The operations of `Treap.lean` as programs over single accesses to `nodes[]`, draws of weights and
calls of `Treap::New`, so that the indices used in a run can be spoken about.

* `ArrayOp` are these operations, with the meaning `Treap.get`, `Treap.modify`, `drawWeight` and
  `Treap.New` give them.  A copy of a whole treap (`operator=`) uses no index.
* For every operation `X` of the treap there is a program `XM`, and `XM_computes` says that its runs
  are those of `X` (`Computes`). -/

namespace LockFreeSearchTree

open Concurrent

namespace Treap

/-- One access to `nodes[]` of a treap, one draw, one call of `Treap::New`. -/
inductive ArrayOp where
  | get (t : Treap) (i : TreapIndex)
  | modify (t : Treap) (i : TreapIndex) (f : TreapNode → TreapNode)
  | draw
  | new

namespace ArrayOp

/-- What an operation returns. -/
abbrev Ret : ArrayOp → Type
  | get _ _ => TreapNode
  | modify _ _ _ | new => Treap
  | draw => ℤ

end ArrayOp

/-- The outcome of an operation, without the environment a failure leaves. -/
def outcome {α : Type} (m : TreapM α) (env : Env) : Except Fault (α × Env) :=
  match m env with
  | (.ok a, env') => .ok (a, env')
  | (.error e, _) => .error e

def ArrayOp.exec : (o : ArrayOp) → Env → Except Fault (o.Ret × Env)
  | get t i, env => outcome (liftArray (t.get i)) env
  | modify t i f, env => outcome (liftArray (t.modify i f)) env
  | draw, env => outcome drawWeight env
  | new, env => outcome New env

abbrev ArrayM := Prog ArrayOp ArrayOp.Ret Fault

def performM (o : ArrayOp) : ArrayM o.Ret := Prog.perform o

def getM (t : Treap) (i : TreapIndex) : ArrayM TreapNode := performM (.get t i)
def modifyM (t : Treap) (i : TreapIndex) (f : TreapNode → TreapNode) : ArrayM Treap := performM (.modify t i f)
def drawWeightM : ArrayM ℤ := performM .draw
def NewM : ArrayM Treap := performM .new

/-! ### Programs for an operation -/

/-- The runs of `p` are those of `m`. -/
def Computes {α : Type} (p : ArrayM α) (m : TreapM α) : Prop := ∀ env, p.run ArrayOp.exec env = outcome m env

namespace Computes

variable {α β : Type} {p q : ArrayM α} {m m' : TreapM α} {x y : Except Fault α}

theorem pure {a : α} : Computes (Pure.pure a) (Pure.pure a) := fun _ => rfl

theorem raise {e : Fault} : Computes (.raise e : ArrayM α) (throw e) := fun _ => rfl

theorem ret {a : α} : Computes (Pure.pure a) (liftArray (.ok a)) := fun _ => rfl

theorem fail {e : Fault} : Computes (.raise e : ArrayM α) (liftArray (.error e)) := fun _ => rfl

theorem bind {f : α → ArrayM β} {g : α → TreapM β} (h : Computes p m) (hf : ∀ a, Computes (f a) (g a)) :
    Computes (p >>= f) (m >>= g) := by
  intro env
  rw [Prog.run_bind, h env]
  unfold outcome
  rcases hm : m env with ⟨e | a, env'⟩
  · rw [TreapM.bind_error hm]
  · rw [TreapM.bind_ok hm]
    exact hf a env'

/-- The same for operations on the array alone. -/
theorem bindArray {f : α → ArrayM β} {g : α → Except Fault β} (h : Computes p (liftArray x))
    (hf : ∀ a, Computes (f a) (liftArray (g a))) : Computes (p >>= f) (liftArray (x >>= g)) := by
  have hlift : liftArray (x >>= g) = liftArray x >>= fun a => liftArray (g a) := by
    cases x <;> rfl
  rw [hlift]
  exact bind h hf

theorem ite {c : Prop} [Decidable c] (hp : Computes p m) (hq : Computes q m') :
    Computes (if c then p else q) (if c then m else m') := by
  split_ifs
  · exact hp
  · exact hq

theorem iteArray {c : Prop} [Decidable c] (hp : Computes p (liftArray x)) (hq : Computes q (liftArray y)) :
    Computes (if c then p else q) (liftArray (if c then x else y)) := by
  split_ifs
  · exact hp
  · exact hq

end Computes

theorem performM_computes {o : ArrayOp} {m : TreapM o.Ret} (h : ∀ env, o.exec env = outcome m env) :
    Computes (performM o) m := by
  intro env
  rw [← h env]
  unfold performM Prog.perform
  simp only [Prog.run]
  cases o.exec env <;> rfl

theorem getM_computes (t : Treap) (i : TreapIndex) : Computes (getM t i) (liftArray (t.get i)) :=
  performM_computes fun _ => rfl

theorem modifyM_computes (t : Treap) (i : TreapIndex) (f : TreapNode → TreapNode) :
    Computes (modifyM t i f) (liftArray (t.modify i f)) :=
  performM_computes fun _ => rfl

theorem drawWeightM_computes : Computes drawWeightM drawWeight := performM_computes fun _ => rfl

theorem NewM_computes : Computes NewM New := performM_computes fun _ => rfl

/-! ### Links and rotations -/

def relinkM (t : Treap) (parentIndex oldIndex newIndex : TreapIndex) : ArrayM Treap := do
  if (← getM t parentIndex).left = oldIndex then
    modifyM t parentIndex (fun n => { n with left := newIndex })
  else
    modifyM t parentIndex (fun n => { n with right := newIndex })

def hookUpM (t : Treap) (parentIndex oldIndex newIndex : TreapIndex) : ArrayM Treap :=
  if parentIndex = NullNode then return { t with root := newIndex }
  else relinkM t parentIndex oldIndex newIndex

def setParentM (t : Treap) (index parentIndex : TreapIndex) : ArrayM Treap :=
  if index = NullNode then return t else modifyM t index (fun n => n.withParent parentIndex)

def moveNodeM (t : Treap) (srcIndex dstIndex : TreapIndex) : ArrayM Treap :=
  if srcIndex = dstIndex then return t else do
    let src ← getM t srcIndex
    let t ← modifyM t dstIndex (fun _ => src)
    let t ← setParentM t src.left dstIndex
    let t ← setParentM t src.right dstIndex
    hookUpM t src.parent srcIndex dstIndex

def rotateM (d : BinTree.Side) (t : Treap) (index : TreapIndex) : ArrayM Treap := do
  let parentIndex := (← getM t index).parent
  let upIndex := (← getM t index).child d
  let innerIndex := (← getM t upIndex).child d.other
  let t ← modifyM t index (fun n => n.withParent upIndex)
  let t ← modifyM t upIndex (fun n => n.setChild d.other index)
  let t ← modifyM t upIndex (fun n => n.withParent parentIndex)
  let t ← hookUpM t parentIndex index upIndex
  let t ← modifyM t index (fun n => n.setChild d innerIndex)
  setParentM t innerIndex index

variable (t : Treap) (i j k : TreapIndex)

theorem relinkM_computes : Computes (relinkM t i j k) (liftArray (t.relink i j k)) :=
  .bindArray (getM_computes t i) fun _ => .iteArray (modifyM_computes t i _) (modifyM_computes t i _)

theorem hookUpM_computes : Computes (hookUpM t i j k) (liftArray (t.hookUp i j k)) :=
  .iteArray .ret (relinkM_computes t i j k)

theorem setParentM_computes : Computes (setParentM t i j) (liftArray (t.setParent i j)) :=
  .iteArray .ret (modifyM_computes t i _)

theorem moveNodeM_computes : Computes (moveNodeM t i j) (liftArray (t.moveNode i j)) := by
  refine .iteArray .ret (.bindArray (getM_computes t i) fun src => .bindArray (modifyM_computes t j _) fun t => ?_)
  refine .bindArray (setParentM_computes t _ j) fun t => .bindArray (setParentM_computes t _ j) fun t => ?_
  exact hookUpM_computes t _ i j

theorem rotateM_computes (d : BinTree.Side) : Computes (rotateM d t i) (liftArray (t.rotate d i)) := by
  refine .bindArray (getM_computes t i) fun n => .bindArray (getM_computes t i) fun n' => ?_
  refine .bindArray (getM_computes t _) fun up => .bindArray (modifyM_computes t i _) fun t => ?_
  refine .bindArray (modifyM_computes t _ _) fun t => .bindArray (modifyM_computes t _ _) fun t => ?_
  refine .bindArray (hookUpM_computes t _ i _) fun t => .bindArray (modifyM_computes t i _) fun t => ?_
  exact setParentM_computes t _ i

/-! ### Sifting and searching -/

def moveUpLoopM : ℕ → Treap → TreapIndex → ArrayM Treap
  | 0, _, _ => .raise .outOfFuel
  | fuel + 1, t, index => do
      let n ← getM t index
      let parentIndex := n.parent
      if parentIndex = NullNode then return t
      let parent ← getM t parentIndex
      if n.weight ≥ parent.weight then return t
      if index = parent.left then
        moveUpLoopM fuel (← rotateM .left t parentIndex) index
      else
        moveUpLoopM fuel (← rotateM .right t parentIndex) index

def moveDownLoopM : ℕ → Treap → TreapIndex → ArrayM Treap
  | 0, _, _ => .raise .outOfFuel
  | fuel + 1, t, index => do
      let leftIndex := (← getM t index).left
      let rightIndex := (← getM t index).right
      if leftIndex = NullNode ∧ rightIndex = NullNode then
        return t
      else if leftIndex ≠ NullNode ∧ rightIndex ≠ NullNode then
        if (← getM t leftIndex).weight < (← getM t rightIndex).weight then
          moveDownLoopM fuel (← rotateM .left t index) index
        else
          moveDownLoopM fuel (← rotateM .right t index) index
      else if leftIndex ≠ NullNode then
        moveDownLoopM fuel (← rotateM .left t index) index
      else
        moveDownLoopM fuel (← rotateM .right t index) index

def bstInsertLoopM : ℕ → Treap → TreapIndex → TreapIndex → ArrayM Treap
  | 0, _, _, _ => .raise .outOfFuel
  | fuel + 1, t, index, searchIndex => do
      let s ← getM t searchIndex
      if s.val > (← getM t index).val then
        if s.left = NullNode then do
          let t ← modifyM t searchIndex (fun n => { n with left := index })
          modifyM t index (fun n => n.withParent searchIndex)
        else
          bstInsertLoopM fuel t index s.left
      else
        if s.right = NullNode then do
          let t ← modifyM t searchIndex (fun n => { n with right := index })
          modifyM t index (fun n => n.withParent searchIndex)
        else
          bstInsertLoopM fuel t index s.right

def bstFindLoopM : ℕ → Treap → ℤ → TreapIndex → ArrayM TreapIndex
  | 0, _, _, _ => .raise .outOfFuel
  | fuel + 1, t, val, searchIndex =>
      if searchIndex = NullNode then return NullNode else do
        let n ← getM t searchIndex
        if n.val = val then
          return searchIndex
        else if n.val > val then
          bstFindLoopM fuel t val n.left
        else
          bstFindLoopM fuel t val n.right

def rangeQueryLoopM (t : Treap) (min max : ℤ) : ℕ → List TreapIndex → List ℤ → ArrayM (List ℤ)
  | _, [], values => return values
  | 0, _ :: _, _ => .raise .outOfFuel
  | fuel + 1, currentIndex :: nodesToCheck, values => do
      let n ← getM t currentIndex
      let currentVal := n.val
      let values := if currentVal ≥ min ∧ currentVal ≤ max then values ++ [currentVal] else values
      let nodesToCheck := if currentVal ≥ min ∧ n.left ≠ NullNode then n.left :: nodesToCheck else nodesToCheck
      let nodesToCheck := if currentVal ≤ max ∧ n.right ≠ NullNode then n.right :: nodesToCheck else nodesToCheck
      rangeQueryLoopM t min max fuel nodesToCheck values

def getMaxValueLoopM : ℕ → Treap → TreapIndex → ArrayM ℤ
  | 0, _, _ => .raise .outOfFuel
  | fuel + 1, t, tempIndex => do
      let n ← getM t tempIndex
      if n.right ≠ NullNode then getMaxValueLoopM fuel t n.right else return n.val

variable (fuel : ℕ)

theorem moveUpLoopM_computes : Computes (moveUpLoopM fuel t i) (liftArray (moveUpLoop fuel t i)) := by
  induction fuel generalizing t with
  | zero => exact .fail
  | succ fuel ih =>
      refine .bindArray (getM_computes t i) fun n => .iteArray .ret (.bindArray (getM_computes t _) fun p => ?_)
      refine .iteArray .ret (.iteArray ?_ ?_)
      · exact .bindArray (rotateM_computes t _ .left) fun t => ih t
      · exact .bindArray (rotateM_computes t _ .right) fun t => ih t

theorem moveDownLoopM_computes : Computes (moveDownLoopM fuel t i) (liftArray (moveDownLoop fuel t i)) := by
  induction fuel generalizing t with
  | zero => exact .fail
  | succ fuel ih =>
      have hleft : Computes (rotateM .left t i >>= fun t => moveDownLoopM fuel t i)
          (liftArray (t.rotate .left i >>= fun t => moveDownLoop fuel t i)) :=
        .bindArray (rotateM_computes t i .left) fun t => ih t
      have hright : Computes (rotateM .right t i >>= fun t => moveDownLoopM fuel t i)
          (liftArray (t.rotate .right i >>= fun t => moveDownLoop fuel t i)) :=
        .bindArray (rotateM_computes t i .right) fun t => ih t
      refine .bindArray (getM_computes t i) fun n => .bindArray (getM_computes t i) fun n' => .iteArray .ret ?_
      refine .iteArray ?_ (.iteArray hleft hright)
      exact .bindArray (getM_computes t _) fun l => .bindArray (getM_computes t _) fun r => .iteArray hleft hright

theorem bstInsertLoopM_computes : Computes (bstInsertLoopM fuel t i j) (liftArray (bstInsertLoop fuel t i j)) := by
  induction fuel generalizing j with
  | zero => exact .fail
  | succ fuel ih =>
      refine .bindArray (getM_computes t j) fun s => .bindArray (getM_computes t i) fun n => .iteArray ?_ ?_
      · exact .iteArray (.bindArray (modifyM_computes t j _) fun t => modifyM_computes t i _) (ih _)
      · exact .iteArray (.bindArray (modifyM_computes t j _) fun t => modifyM_computes t i _) (ih _)

theorem bstFindLoopM_computes (val : ℤ) : Computes (bstFindLoopM fuel t val i) (liftArray (bstFindLoop fuel t val i)) := by
  induction fuel generalizing i with
  | zero => exact .fail
  | succ fuel ih =>
      refine .iteArray .ret (.bindArray (getM_computes t i) fun n => .iteArray .ret ?_)
      exact .iteArray (ih _) (ih _)

theorem rangeQueryLoopM_computes (min max : ℤ) (st : List TreapIndex) (values : List ℤ) :
    Computes (rangeQueryLoopM t min max fuel st values) (liftArray (t.rangeQueryLoop min max fuel st values)) := by
  induction fuel generalizing st values with
  | zero =>
      cases st with
      | nil => exact .ret
      | cons i st => exact .fail
  | succ fuel ih =>
      cases st with
      | nil => exact .ret
      | cons i st => exact .bindArray (getM_computes t i) fun n => ih _ _

theorem getMaxValueLoopM_computes : Computes (getMaxValueLoopM fuel t i) (liftArray (getMaxValueLoop fuel t i)) := by
  induction fuel generalizing i with
  | zero => exact .fail
  | succ fuel ih => exact .bindArray (getM_computes t i) fun n => .iteArray (ih _) .ret

/-! ### Queries and updates -/

def moveUpM (t : Treap) (index : TreapIndex) : ArrayM Treap := moveUpLoopM loopFuel t index

def moveDownM (t : Treap) (index : TreapIndex) : ArrayM Treap := moveDownLoopM loopFuel t index

def bstInsertM (t : Treap) (index : TreapIndex) : ArrayM Treap := bstInsertLoopM loopFuel t index t.root

def bstFindM (t : Treap) (val : ℤ) : ArrayM TreapIndex := bstFindLoopM loopFuel t val t.root

def containsM (t : Treap) (val : ℤ) : ArrayM Bool := do
  let foundIndex ← bstFindM t val
  return foundIndex ≠ NullNode

def rangeQueryM (t : Treap) (min max : ℤ) : ArrayM (List ℤ) :=
  if t.root = NullNode then return [] else rangeQueryLoopM t min max loopFuel [t.root] []

def getMaxValueM (t : Treap) : ArrayM ℤ :=
  if t.size = 0 then .raise (.exn (.logicError "Cannot get the maximum value of an empty treap"))
  else getMaxValueLoopM loopFuel t t.root

def createNewNodeM (t : Treap) (val : ℤ) : ArrayM (TreapIndex × Treap) := do
  let newNodeIndex : TreapIndex := some t.size
  let weight ← drawWeightM
  let t ← modifyM { t with size := t.size + 1 } newNodeIndex
    (fun _ => { val := val, weight := weight, parent := NullNode, left := NullNode, right := NullNode })
  return (newNodeIndex, t)

def insertM (t : Treap) (val : ℤ) : ArrayM Treap := do
  if t.size = TREAP_NODES then
    .raise (.exn (.outOfRange "Treap is full"))
  else
    let (newNodeIndex, t) ← createNewNodeM t val
    if t.size = 1 then
      return { t with root := newNodeIndex }
    else
      let t ← bstInsertM t newNodeIndex
      moveUpM t newNodeIndex

def removeM (t : Treap) (val : ℤ) : ArrayM (Bool × Treap) := do
  let foundIndex ← bstFindM t val
  if foundIndex = NullNode then
    return (false, t)
  let t ← moveDownM t foundIndex
  let parentIndex := (← getM t foundIndex).parent
  let t ← hookUpM t parentIndex foundIndex NullNode
  let t ← moveNodeM t (some (t.size - 1)) foundIndex
  return (true, { t with size := t.size - 1 })

def NewCopyM (other : Treap) : ArrayM Treap := do
  let _ ← NewM
  return other

def immutableInsertM (t : Treap) (val : ℤ) : ArrayM Treap := do
  let newTreap ← NewCopyM t
  insertM newTreap val

def immutableRemoveM (t : Treap) (val : ℤ) : ArrayM (Treap × Bool) := do
  let newTreap ← NewCopyM t
  let (success, newTreap) ← removeM newTreap val
  return (newTreap, success)

theorem moveUpM_computes : Computes (moveUpM t i) (liftArray (t.moveUp i)) := moveUpLoopM_computes t i loopFuel

theorem moveDownM_computes : Computes (moveDownM t i) (liftArray (t.moveDown i)) := moveDownLoopM_computes t i loopFuel

theorem bstInsertM_computes : Computes (bstInsertM t i) (liftArray (t.bstInsert i)) :=
  bstInsertLoopM_computes t i t.root loopFuel

variable (val : ℤ)

theorem bstFindM_computes : Computes (bstFindM t val) (liftArray (t.bstFind val)) :=
  bstFindLoopM_computes t t.root loopFuel val

theorem containsM_computes : Computes (containsM t val) (liftArray (t.contains val)) :=
  .bindArray (bstFindM_computes t val) fun _ => .ret

theorem rangeQueryM_computes (min max : ℤ) : Computes (rangeQueryM t min max) (liftArray (t.rangeQuery min max)) :=
  .iteArray .ret (rangeQueryLoopM_computes t loopFuel min max [t.root] [])

theorem getMaxValueM_computes : Computes (getMaxValueM t) (liftArray t.getMaxValue) :=
  .iteArray .fail (getMaxValueLoopM_computes t t.root loopFuel)

theorem createNewNodeM_computes : Computes (createNewNodeM t val) (t.createNewNode val) :=
  .bind drawWeightM_computes fun _ => .bind (modifyM_computes _ _ _) fun _ => .pure

theorem insertM_computes : Computes (insertM t val) (t.insert val) := by
  unfold insertM Treap.insert
  refine .ite .raise (.bind (createNewNodeM_computes t val) fun r => .ite .pure ?_)
  exact .bind (bstInsertM_computes r.2 r.1) fun t => moveUpM_computes t r.1

theorem removeM_computes : Computes (removeM t val) (liftArray (t.remove val)) := by
  refine .bindArray (bstFindM_computes t val) fun found => .iteArray .ret ?_
  refine .bindArray (moveDownM_computes t found) fun t => .bindArray (getM_computes t found) fun n => ?_
  refine .bindArray (hookUpM_computes t _ found _) fun t => .bindArray (moveNodeM_computes t _ found) fun t => ?_
  exact .ret

theorem NewCopyM_computes : Computes (NewCopyM t) (NewCopy t) := .bind NewM_computes fun _ => .pure

theorem immutableInsertM_computes : Computes (immutableInsertM t val) (t.immutableInsert val) :=
  .bind (NewCopyM_computes t) fun t => insertM_computes t val

theorem immutableRemoveM_computes : Computes (immutableRemoveM t val) (t.immutableRemove val) :=
  .bind (NewCopyM_computes t) fun t => .bind (removeM_computes t val) fun _ => .pure

/-! ### Transfer, merge and split -/

def transferLoopM (other : Treap) : ℕ → List TreapTransferInfo → TreapIndex → Treap → ArrayM (TreapIndex × Treap)
  | _, [], transferRoot, t => return (transferRoot, t)
  | 0, _ :: _, _, _ => .raise .outOfFuel
  | fuel + 1, currentInfo :: nodesToTransfer, transferRoot, t => do
      let original ← getM other currentInfo.originalIndex
      let (newIndex, t) ← createNewNodeM t original.val
      let (transferRoot, t) ← (
        if currentInfo.newParentIndex ≠ NullNode then do
          let t ← modifyM t newIndex (fun n => n.withParent currentInfo.newParentIndex)
          let t ← modifyM t currentInfo.newParentIndex (fun n =>
            if currentInfo.isLeftChild then { n with left := newIndex } else { n with right := newIndex })
          return (transferRoot, t)
        else return (newIndex, t))
      let nodesToTransfer := if original.left ≠ NullNode then
        ⟨true, newIndex, original.left⟩ :: nodesToTransfer else nodesToTransfer
      let nodesToTransfer := if original.right ≠ NullNode then
        ⟨false, newIndex, original.right⟩ :: nodesToTransfer else nodesToTransfer
      transferLoopM other fuel nodesToTransfer transferRoot t

def transferNodesFromM (t other : Treap) (rootIndex : TreapIndex) : ArrayM (TreapIndex × Treap) :=
  if rootIndex = NullNode then
    .raise (.exn (.invalidArgument "Root node index to transfer from is Null"))
  else transferLoopM other loopFuel [⟨false, NullNode, rootIndex⟩] NullNode t

/-- The values of the first slots, read one after another. -/
def valuesM (t : Treap) : ℕ → ArrayM (List ℤ)
  | 0 => return []
  | n + 1 => do
      let values ← valuesM t n
      let node ← getM t (some n)
      return values ++ [node.val]

def getMedianValM (t : Treap) : ArrayM ℤ :=
  if t.size = 0 then
    .raise (.exn (.logicError "Cannot calculate median of a Treap with no elements"))
  else do
    let values ← valuesM t t.size
    let values := values.insertionSort (· ≤ ·)
    if t.size % 2 = 0 then
      let low ← Prog.ofExcept (vectorAt values (t.size / 2 - 1))
      let high ← Prog.ofExcept (vectorAt values (t.size / 2))
      return toInt ((toInt ((low : ℚ) / 2) : ℚ) + (high : ℚ) / 2)
    else
      Prog.ofExcept (vectorAt values (t.size / 2))

def joinRootsM (mergedTreap : Treap) (leftRootIndex rightRootIndex : TreapIndex) : ArrayM Treap := do
  let leftRootVal := (← getM mergedTreap leftRootIndex).val
  let rightRootVal := (← getM mergedTreap rightRootIndex).val
  let avgVal := toInt ((leftRootVal : ℚ) / 2 + (rightRootVal : ℚ) / 2)
  let t ← modifyM mergedTreap ControlNode (fun _ =>
    { val := avgVal, weight := NegInfinity, parent := NullNode, left := leftRootIndex, right := rightRootIndex })
  let t ← modifyM t leftRootIndex (fun n => n.withParent ControlNode)
  let t ← modifyM t rightRootIndex (fun n => n.withParent ControlNode)
  let t ← moveDownM { t with root := ControlNode } ControlNode
  let controlParentIndex := (← getM t ControlNode).parent
  relinkM t controlParentIndex ControlNode NullNode

def mergeM (left right : Treap) : ArrayM Treap :=
  let newSize := left.size + right.size
  if newSize > TREAP_NODES then
    .raise (.exn (.invalidArgument ("Merging these treaps would overflow the new treap. (Sizes: " ++
      toString left.size ++ ", " ++ toString right.size ++ ")")))
  else do
    let mergedTreap ← NewM
    if newSize = 0 then
      return mergedTreap
    if right.root = NullNode then
      let (newRoot, mergedTreap) ← transferNodesFromM mergedTreap left left.root
      modifyM { mergedTreap with root := newRoot } newRoot (fun n => n.withParent NullNode)
    else if left.root = NullNode then
      let (newRoot, mergedTreap) ← transferNodesFromM mergedTreap right right.root
      modifyM { mergedTreap with root := newRoot } newRoot (fun n => n.withParent NullNode)
    else
      let (leftRootIndex, mergedTreap) ← transferNodesFromM mergedTreap left left.root
      let (rightRootIndex, mergedTreap) ← transferNodesFromM mergedTreap right right.root
      joinRootsM mergedTreap leftRootIndex rightRootIndex

def insertControlM (workingTreap : Treap) (splitVal : ℤ) : ArrayM Treap := do
  let t ← modifyM workingTreap ControlNode (fun _ =>
    { val := splitVal, weight := NegInfinity, parent := NullNode, left := NullNode, right := NullNode })
  let t ← bstInsertM t ControlNode
  moveUpM t ControlNode

def splitSideM (t workingTreap : Treap) (index : TreapIndex) : ArrayM Treap :=
  if index ≠ NullNode then do
    let (newRoot, t) ← transferNodesFromM t workingTreap index
    return { t with root := newRoot }
  else return t

def splitM (t : Treap) : ArrayM (ℤ × Treap × Treap) :=
  if t.size = 0 then
    .raise (.exn (.logicError "An empty treap cannot be split"))
  else do
    let left ← NewM
    let right ← NewM
    let splitVal ← getMedianValM t
    let workingTreap ← insertControlM t splitVal
    let leftIndex := (← getM workingTreap ControlNode).left
    let left ← splitSideM left workingTreap leftIndex
    let rightIndex := (← getM workingTreap ControlNode).right
    let right ← splitSideM right workingTreap rightIndex
    return (splitVal, left, right)

variable (other : Treap)

theorem transferLoopM_computes (st : List TreapTransferInfo) (rt : TreapIndex) :
    Computes (transferLoopM other fuel st rt t) (transferLoop other fuel st rt t) := by
  induction fuel generalizing st rt t with
  | zero =>
      cases st with
      | nil => exact .pure
      | cons info st => exact .raise
  | succ fuel ih =>
      cases st with
      | nil => exact .pure
      | cons info st =>
          refine .bind (getM_computes other _) fun original => .bind (createNewNodeM_computes t _) fun r => ?_
          refine .bind (.iteArray ?_ .ret) fun r' => ih _ _ _
          exact .bindArray (modifyM_computes r.2 _ _) fun t => .bindArray (modifyM_computes t _ _) fun t => .ret

theorem transferNodesFromM_computes : Computes (transferNodesFromM t other i) (t.transferNodesFrom other i) :=
  .ite .raise (transferLoopM_computes t loopFuel other _ _)

theorem valuesM_computes {n : ℕ} (h : n ≤ TREAP_NODES + 1) :
    Computes (valuesM t n) (liftArray (.ok ((List.range n).map fun i => (t.nodes i).val))) := by
  induction n with
  | zero => exact .ret
  | succ n ih =>
      have hbind : (.ok ((List.range (n + 1)).map fun i => (t.nodes i).val) : Except Fault (List ℤ)) = (do
          let values ← .ok ((List.range n).map fun i => (t.nodes i).val)
          let node ← t.get (some n)
          return values ++ [node.val]) := by
        rw [ok_bind, get_some t (by omega), List.range_succ, List.map_append]
        rfl
      rw [hbind]
      exact .bindArray (ih (by omega)) fun values => .bindArray (getM_computes t _) fun _ => .ret

theorem ofExcept_computes {α : Type} (x : Except Fault α) : Computes (Prog.ofExcept x) (liftArray x) := by
  cases x with
  | ok a => exact .ret
  | error e => exact .fail

theorem getMedianValM_computes (h : t.size ≤ TREAP_NODES) : Computes (getMedianValM t) (liftArray t.getMedianVal) := by
  refine .iteArray .fail ?_
  -- the values are read before they are sorted
  refine .bindArray (g := fun values => if t.size % 2 = 0 then do
      let low ← vectorAt (values.insertionSort (· ≤ ·)) (t.size / 2 - 1)
      let high ← vectorAt (values.insertionSort (· ≤ ·)) (t.size / 2)
      return toInt ((toInt ((low : ℚ) / 2) : ℚ) + (high : ℚ) / 2)
    else vectorAt (values.insertionSort (· ≤ ·)) (t.size / 2)) (valuesM_computes t (Nat.le_succ_of_le h)) fun values => ?_
  refine .iteArray ?_ (ofExcept_computes _)
  exact .bindArray (ofExcept_computes _) fun low => .bindArray (ofExcept_computes _) fun high => .ret

theorem joinRootsM_computes : Computes (joinRootsM t i j) (liftArray (t.joinRoots i j)) := by
  refine .bindArray (getM_computes t i) fun l => .bindArray (getM_computes t j) fun r => ?_
  refine .bindArray (modifyM_computes t _ _) fun t => .bindArray (modifyM_computes t i _) fun t => ?_
  refine .bindArray (modifyM_computes t j _) fun t => .bindArray (moveDownM_computes _ _) fun t => ?_
  exact .bindArray (getM_computes t _) fun n => relinkM_computes t _ _ _

theorem mergeM_computes (left right : Treap) : Computes (mergeM left right) (merge left right) := by
  refine .ite .raise (.bind NewM_computes fun merged => .ite .pure ?_)
  have hone : ∀ u : Treap, Computes (do
        let (newRoot, t) ← transferNodesFromM merged u u.root
        modifyM { t with root := newRoot } newRoot (fun n => n.withParent NullNode)) (do
        let (newRoot, t) ← merged.transferNodesFrom u u.root
        liftArray ({ t with root := newRoot }.modify newRoot (fun n => n.withParent NullNode))) := fun u =>
    .bind (transferNodesFromM_computes merged _ u) fun _ => modifyM_computes _ _ _
  refine .ite (hone left) (.ite (hone right) ?_)
  refine .bind (transferNodesFromM_computes merged _ left) fun l => ?_
  exact .bind (transferNodesFromM_computes _ _ right) fun r => joinRootsM_computes _ _ _

theorem insertControlM_computes : Computes (insertControlM t val) (liftArray (t.insertControl val)) := by
  refine .bindArray (modifyM_computes t _ _) fun t => .bindArray (bstInsertM_computes t _) fun t => ?_
  exact moveUpM_computes t _

theorem splitSideM_computes : Computes (splitSideM t other i) (t.splitSide other i) :=
  .ite (.bind (transferNodesFromM_computes t i other) fun _ => .pure) .pure

theorem splitM_computes (h : t.size ≤ TREAP_NODES) : Computes (splitM t) t.split := by
  refine .ite .raise (.bind NewM_computes fun left => .bind NewM_computes fun right => ?_)
  refine .bind (getMedianValM_computes t h) fun splitVal => .bind (insertControlM_computes t splitVal) fun working => ?_
  refine .bind (getM_computes working _) fun n => .bind (splitSideM_computes left _ working) fun left => ?_
  refine .bind (getM_computes working _) fun n' => .bind (splitSideM_computes right _ working) fun right => ?_
  exact .pure

end Treap

end LockFreeSearchTree
