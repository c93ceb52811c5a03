import LockFreeSearchTree.Runs
import Mathlib.Data.Multiset.Basic
import Mathlib.Data.Multiset.Filter

/-! # Search trees

The interface of `searchtree.h`, and what a search tree is for: a multiset of integers that the
calls read and update.  `Stored` is the step relation of this multiset, labelled by calls and
their results; both trees are compared with it. -/

namespace LockFreeSearchTree

/-- The calls of `SearchTree`. -/
inductive Call where
  | insert (val : ℤ)
  | remove (val : ℤ)
  | lookup (val : ℤ)
  | rangeQuery (low high : ℤ)
deriving DecidableEq, Repr

/-- What a call returns. -/
inductive Result where
  | void
  | bool (b : Bool)
  | vector (values : List ℤ)
deriving DecidableEq, Repr

/-- A call on the multiset `ms` that returns leaves the multiset `ms'`. -/
def Stored (ms : Multiset ℤ) : Call × Result → Multiset ℤ → Prop
  | (.insert val, .void), ms' => ms' = val ::ₘ ms
  | (.remove val, .bool success), ms' => (success = true ↔ val ∈ ms) ∧ ms' = ms.erase val
  | (.lookup val, .bool found), ms' => (found = true ↔ val ∈ ms) ∧ ms' = ms
  | (.rangeQuery low high, .vector values), ms' =>
      (values : Multiset ℤ) = ms.filter (fun v => low ≤ v ∧ v ≤ high) ∧ ms' = ms
  | _, _ => False

end LockFreeSearchTree
