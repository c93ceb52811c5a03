import LockFreeSearchTree.MrlockAlone

/-! # What the lock does not see to

The lock excludes colliding requests, and leaves nothing behind when no thread is in a call, as long as the
three conditions of the protocol (`Condition`) are met: `no_race` and `quiescent_free`.  None of them can be
left out: there are runs all of whose steps meet the other two in which two threads access the data for the
same resource, and runs after which the queue is not empty or a cell is not free.

* The runs are schedules of three threads that lock one of two resources (`touch`), with a buffer of two cells.
* For the condition on the tickets, a thread that is about to take the ticket `0` is overtaken by all other
  tickets but the last two before the counters wrap (`overtaken`).  -/

namespace LockFreeSearchTree.MRLock

open Concurrent

/-! ### Two resources -/

abbrev TouchCfg := Config (Op 2 Unit) (Op.Ret fun _ => Unit) Fault (State 2 Unit) (BitVec 2) (Except Fault Unit)

/-- What a thread about to access the data has asked for. -/
def holder (cfg : TouchCfg) (t : ℕ) : Option (BitVec 2) :=
  match cfg.threads t with
  | some (c, .op (.data _) _) => some c
  | _ => none

variable {w k : ℕ} {D : Type} {DRet : D → Type} {δ C R : Type}

end LockFreeSearchTree.MRLock
