import LockFreeSearchTree.Treap
import LockFreeSearchTree.SearchTree

/-! # The tree behind one lock

The tree of `mrlocktree.cpp`.  Every public method holds the tree's only lock from its first to
its last line, so the calls run one at a time and each of them is a function of the tree and of
the environment its treaps draw from.

* **Nodes.** A node of the source is a route node with two children and no treap, or a base node
  with a treap and no children; `Node` has one constructor for either, with the field `val` in both.
* **Exceptions.** A call may throw after it has changed the tree, so `insert` and `remove` give
  back the tree in that case too. -/

namespace LockFreeSearchTree

namespace MrlockTree

/-- `const int Empty`. -/
def Empty : ℤ := NegInfinity

def TreapSplitThreshold : ℕ := TREAP_NODES

def TreapMergeThreshold : ℕ := TREAP_NODES / 2

/-- `MrlockTree::Node`: `isRoute` is the constructor. -/
inductive Node where
  | base (val : ℤ) (treap : Treap)
  | route (val : ℤ) (left right : Node)

namespace Node

def isRoute : Node → Bool
  | base _ _ => false
  | route _ _ _ => true

/-- The number of nodes below and including a node. -/
def count : Node → ℕ
  | base _ _ => 1
  | route _ l r => l.count + r.count + 1

end Node

/-- What a call that changes the tree leaves: its outcome, the tree and the environment. -/
abbrev Update (α : Type) := Except Fault α × Node × Env

/-- Put the tree an update leaves below a route node. -/
def Update.below {α : Type} (f : Node → Node) (u : Update α) : Update α := (u.1, f u.2.1, u.2.2)

/-- `MrlockTree::MrlockTree`. -/
def new (env : Env) : Update Unit :=
  match Treap.New env with
  | (.error e, env) => (.error e, .base Empty Treap.empty, env)
  | (.ok treap, env) => (.ok (), .base Empty treap, env)

/-- The split of a base node whose treap has become too large. -/
def splitBase (val : ℤ) (treap : Treap) (env : Env) : Update Unit :=
  match treap.split env with
  | (.error e, env) => (.error e, .base val treap, env)
  | (.ok (splitVal, left, right), env) => (.ok (), .route splitVal (.base Empty left) (.base Empty right), env)

def insert (val : ℤ) : Node → Env → Update Unit
  | .route key left right, env =>
      if key ≥ val then (insert val left env).below (fun left => .route key left right)
      else (insert val right env).below (fun right => .route key left right)
  | .base old treap, env =>
      match treap.immutableInsert val env with
      | (.error e, env) => (.error e, .base old treap, env)
      | (.ok treap, env) =>
          -- if inserting causes the treap to become too large, split it in two
          if treap.getSize ≥ TreapSplitThreshold then splitBase old treap env
          else (.ok (), .base old treap, env)

/-- The merge of two sibling base nodes that are small enough, into their parent. -/
def mergeBases : Node → Env → Update Unit
  | .route key (.base lval left) (.base rval right), env =>
      if left.getSize + right.getSize ≤ TreapMergeThreshold then
        match Treap.merge left right env with
        | (.error e, env) => (.error e, .route key (.base lval left) (.base rval right), env)
        | (.ok treap, env) => (.ok (), .base key treap, env)
      else (.ok (), .route key (.base lval left) (.base rval right), env)
  | node, env => (.ok (), node, env)

/-- What `remove` does at the node the removal was made below: `tempParent`, if it was made in one
of its children. -/
def afterRemove (child : Node) (u : Update Bool) : Update Bool :=
  if child.isRoute then u
  else match u with
    | (.error e, node, env) => (.error e, node, env)
    | (.ok success, node, env) =>
        match mergeBases node env with
        | (.error e, node, env) => (.error e, node, env)
        | (.ok _, node, env) => (.ok success, node, env)

def remove (val : ℤ) : Node → Env → Update Bool
  | .route key left right, env =>
      if key ≥ val then afterRemove left ((remove val left env).below (fun left => .route key left right))
      else afterRemove right ((remove val right env).below (fun right => .route key left right))
  | .base old treap, env =>
      match treap.immutableRemove val env with
      | (.error e, env) => (.error e, .base old treap, env)
      | (.ok (treap, success), env) => (.ok success, .base old treap, env)

def lookup (val : ℤ) : Node → Except Fault Bool
  | .route key left right => if key ≥ val then lookup val left else lookup val right
  | .base _ treap => treap.contains val

/-- The loop of `rangeQuery` on the stack `nodesToCheck`, its top first. -/
def rangeQueryLoop (low high : ℤ) : ℕ → List Node → List ℤ → Except Fault (List ℤ)
  | _, [], result => .ok result
  | 0, _ :: _, _ => .error .outOfFuel
  | fuel + 1, .base _ treap :: nodesToCheck, result => do
      let values ← treap.rangeQuery low high
      rangeQueryLoop low high fuel nodesToCheck (result ++ values)
  | fuel + 1, .route key left right :: nodesToCheck, result =>
      let nodesToCheck := if key ≥ low then left :: nodesToCheck else nodesToCheck
      let nodesToCheck := if key ≤ high then right :: nodesToCheck else nodesToCheck
      rangeQueryLoop low high fuel nodesToCheck result

def rangeQuery (low high : ℤ) (head : Node) : Except Fault (List ℤ) :=
  rangeQueryLoop low high head.count [head] []

/-! ### Runs -/

/-- The tree and what its treaps draw from. -/
structure State where
  head : Node
  env : Env

/-- The call `c` in the state `s`: its result or the exception it ends in, and the state it leaves. -/
def call (s : State) : Call → Except Fault Result × State
  | .insert val => match insert val s.head s.env with
      | (r, head, env) => (r.map (fun _ => .void), ⟨head, env⟩)
  | .remove val => match remove val s.head s.env with
      | (r, head, env) => (r.map .bool, ⟨head, env⟩)
  | .lookup val => ((lookup val s.head).map .bool, s)
  | .rangeQuery low high => ((rangeQuery low high s.head).map .vector, s)

/-- A call, whatever it ends in. -/
def Calls (s : State) (l : Call × Except Fault Result) (s' : State) : Prop := call s l.1 = (l.2, s')

/-- A call that returns. -/
def Returns (s : State) (l : Call × Result) (s' : State) : Prop := call s l.1 = (.ok l.2, s')

/-- The state after the constructor has returned. -/
def Initial (s : State) : Prop := ∃ env, new env = (.ok (), s.head, s.env)

/-- The state some calls leave. -/
def after (s : State) (cs : List Call) : State := cs.foldl (fun s c => (call s c).2) s

/-- How they end, one after another. -/
def outcomes (s : State) : List Call → List (Call × Except Fault Result)
  | [] => []
  | c :: cs => (c, (call s c).1) :: outcomes (call s c).2 cs

theorem run_after (s : State) (cs : List Call) : Transition.Run Calls s (outcomes s cs) (after s cs) := by
  induction cs generalizing s with
  | nil => exact .nil
  | cons c cs ih => exact (ih (call s c).2).cons rfl

/-- Calls that return, with their results. -/
theorem run_returns {s : State} {ls : List (Call × Result)}
    (h : outcomes s (ls.map Prod.fst) = ls.map fun l => (l.1, .ok l.2)) :
    Transition.Run Returns s ls (after s (ls.map Prod.fst)) := by
  induction ls generalizing s with
  | nil => exact .nil
  | cons l ls ih =>
      obtain ⟨hl, hls⟩ := List.cons.inj h
      exact (ih hls).cons (Prod.ext (Prod.mk.inj hl).2 rfl)

/-- Some calls, each of which leaves a state with the property. -/
def keeps (P : State → Bool) (s : State) : List Call → Bool
  | [] => true
  | c :: cs => P (call s c).2 && keeps P (call s c).2 cs

theorem run_keeps {P : State → Bool} {s : State} {cs : List Call} (h : keeps P s cs = true) :
    Transition.Run (fun s l s' => Calls s l s' ∧ P s' = true) s (outcomes s cs) (after s cs) := by
  induction cs generalizing s with
  | nil => exact .nil
  | cons c cs ih =>
      obtain ⟨hc, hcs⟩ := (Bool.and_eq_true _ _).mp h
      exact (ih hcs).cons ⟨rfl, hc⟩

end MrlockTree

end LockFreeSearchTree
