import LockFreeSearchTree.Interleaving
import LockFreeSearchTree.Treap
import Mathlib.Data.Nat.Bitwise

/-! # The multi-resource lock

The lock of `mrlock.h` and the bit sets of `bitset.h` it is asked with.

* **Requests.** A ring buffer of cells holds the requests in the order of their tickets.  A cell has a
  sequence number, which says whether it is free for a ticket or taken by it, and the resources that are
  asked for.  A thread holds its resources as soon as no earlier request it collides with is left.
* **Bits.** A `uint64_t` and the array of a `Bitset` of at most 32 resources are one machine word, and
  so is the type of `m_bits` here: every access to it is one operation.
* **Operations.** Every load, store and compare-exchange is one operation, in the order of the source.  A
  `compare_exchange_weak` may fail although the value is the expected one (`spurious`).
* **Data.** What the lock protects is another set of operations `D`, performed between `Lock` and
  `Unlock` (`scopedMrLock`). -/

namespace LockFreeSearchTree

open Concurrent

/-! ### Bit sets -/

/-- `WORD_INDEX`. -/
def WORD_INDEX (index : ℤ) : ℤ := index >>> (5 : ℕ)

/-- `BIT_INDEX`. -/
def BIT_INDEX (index : ℕ) : ℕ := index &&& 0x1f

/-- The word `0x80000000 >> BIT_INDEX(INDEX)`. -/
def bitMask (index : ℕ) : BitVec 32 := 0x80000000#32 >>> BIT_INDEX index

/-- The class `Bitset` after its first `Resize`; `m_words` is the length of `bits`. -/
structure Bitset where
  size : ℤ
  bits : List (BitVec 32)
deriving DecidableEq, Repr

namespace Bitset

/-- What `memset` makes of a word: every byte is the last one of `flag`, which is `0` or `~0`. -/
def fill (flag : Bool) : BitVec 32 := if flag then BitVec.allOnes 32 else 0

/-- `Resize(size, flag)` for `size ≥ 0`; a set of size `0` has no words. -/
def Resize (size : ℤ) (flag : Bool := false) : Bitset :=
  ⟨size, List.replicate (WORD_INDEX (size - 1) + 1).toNat (fill flag)⟩

/-- `Set(pos)` for `pos ≥ 0`. -/
def Set (b : Bitset) (pos : ℕ) : Bitset :=
  { b with bits := b.bits.modify (WORD_INDEX pos).toNat (· ||| bitMask pos) }

end Bitset

namespace MRLock

/-! ### The buffer -/

structure Cell (w : ℕ) where
  sequence : BitVec 32
  bits : BitVec w
deriving DecidableEq

/-- The loop of the constructor that finds the size of the buffer. -/
def bufferSizeLoop (maxThreads : BitVec 32) : ℕ → BitVec 32 → Except Fault (BitVec 32)
  | 0, _ => .error .outOfFuel
  | fuel + 1, bufferSize =>
      if bufferSize ≤ maxThreads then bufferSizeLoop maxThreads fuel (bufferSize <<< 1) else .ok bufferSize

/-- The size of the buffer on a machine with `maxThreads` hardware threads. -/
def bufferSize (maxThreads : BitVec 32) : Except Fault (BitVec 32) := bufferSizeLoop maxThreads 32 2

end MRLock

/-- The fields of `MRLock`; `spurious n` says whether the `n`-th `compare_exchange_weak` fails without
a reason. -/
structure MRLock (w : ℕ) where
  buffer : BitVec 32 → MRLock.Cell w
  head : BitVec 32
  tail : BitVec 32
  spurious : ℕ → Bool
  attempts : ℕ

namespace MRLock

variable {w : ℕ}

/-- The constructor, once the size of the buffer is known. -/
def new (spurious : ℕ → Bool) : MRLock w where
  buffer i := ⟨i, BitVec.allOnes w⟩
  head := 0
  tail := 0
  spurious := spurious
  attempts := 0

def setSequence (l : MRLock w) (i : BitVec 32) (seq : BitVec 32) : MRLock w :=
  { l with buffer := Function.update l.buffer i { l.buffer i with sequence := seq } }

def setBits (l : MRLock w) (i : BitVec 32) (bits : BitVec w) : MRLock w :=
  { l with buffer := Function.update l.buffer i { l.buffer i with bits := bits } }

/-- The next `compare_exchange_weak` finds `actual` and may succeed. -/
def Succeeds (l : MRLock w) (actual expected : BitVec 32) : Prop := actual = expected ∧ l.spurious l.attempts = false

instance (l : MRLock w) (actual expected : BitVec 32) : Decidable (l.Succeeds actual expected) :=
  inferInstanceAs (Decidable (_ ∧ _))

/-! ### Operations -/

inductive Op (w : ℕ) (D : Type) where
  | loadTail
  | casTail (expected desired : BitVec 32)
  | loadHead
  | casHead (expected desired : BitVec 32)
  | loadSequence (i : BitVec 32)
  | storeSequence (i seq : BitVec 32)
  | loadBits (i : BitVec 32)
  | storeBits (i : BitVec 32) (bits : BitVec w)
  /-- An operation on what the lock protects. -/
  | data (o : D)

section Programs

variable {D : Type} (DRet : D → Type)

/-- What an operation returns. -/
abbrev Op.Ret : Op w D → Type
  | .loadTail | .loadHead | .loadSequence _ => BitVec 32
  | .casTail _ _ | .casHead _ _ => Bool
  | .loadBits _ => BitVec w
  | .storeSequence _ _ | .storeBits _ _ => Unit
  | .data o => DRet o

/-- The lock and what it protects. -/
structure State (w : ℕ) (δ : Type) where
  lock : MRLock w
  data : δ

variable {DRet} {δ : Type}

/-- An access to the lock. -/
def onLock {α : Type} (s : State w δ) (x : α × MRLock w) : Except Fault (α × State w δ) := .ok (x.1, { s with lock := x.2 })

/-- The operations; `dexec` is the meaning of those on the data. -/
def exec (dexec : (o : D) → δ → DRet o × δ) : (o : Op w D) → State w δ → Except Fault (o.Ret DRet × State w δ)
  | .loadTail, s => onLock s (s.lock.tail, s.lock)
  | .casTail expected desired, s =>
      onLock s (if s.lock.Succeeds s.lock.tail expected then
        (true, { s.lock with tail := desired, attempts := s.lock.attempts + 1 })
      else (false, { s.lock with attempts := s.lock.attempts + 1 }))
  | .loadHead, s => onLock s (s.lock.head, s.lock)
  | .casHead expected desired, s =>
      onLock s (if s.lock.Succeeds s.lock.head expected then
        (true, { s.lock with head := desired, attempts := s.lock.attempts + 1 })
      else (false, { s.lock with attempts := s.lock.attempts + 1 }))
  | .loadSequence i, s => onLock s ((s.lock.buffer i).sequence, s.lock)
  | .storeSequence i seq, s => onLock s ((), s.lock.setSequence i seq)
  | .loadBits i, s => onLock s ((s.lock.buffer i).bits, s.lock)
  | .storeBits i bits, s => onLock s ((), s.lock.setBits i bits)
  | .data o, s => .ok ((dexec o s.data).1, { s with data := (dexec o s.data).2 })

abbrev LockM (w : ℕ) (DRet : D → Type) := Prog (Op w D) (Op.Ret DRet) Fault

def perform (o : Op w D) : LockM w DRet (o.Ret DRet) := Prog.perform o

/-- A program on the data. -/
def onData {α : Type} : Prog D DRet Fault α → LockM w DRet α
  | .ret a => .ret a
  | .raise e => .raise e
  | .op o k => .op (.data o) (fun r => onData (k r))

/-! ### Locking -/

variable (mask : BitVec 32)

/-- The loop of `Lock` that enqueues the request at the tail. -/
def enqueue : ℕ → LockM w DRet (BitVec 32)
  | 0 => .raise .outOfFuel
  | fuel + 1 => do
      let pos ← perform .loadTail
      let seq ← perform (.loadSequence (pos &&& mask))
      let dif := seq.toInt - pos.toInt
      if dif = 0 then do
        if ← perform (.casTail pos (pos + 1)) then return pos
        else enqueue fuel
      else enqueue fuel

/-- The loop of `Lock` that spins on all previous requests. -/
def spin (pos : BitVec 32) (resources : BitVec w) : ℕ → BitVec 32 → LockM w DRet Unit
  | 0, _ => .raise .outOfFuel
  | fuel + 1, spinPos =>
      if spinPos ≠ pos then do
        let seq ← perform (.loadSequence (spinPos &&& mask))
        if pos - seq > mask then spin pos resources fuel (spinPos + 1)
        else do
          let bits ← perform (.loadBits (spinPos &&& mask))
          if bits &&& resources = 0 then spin pos resources fuel (spinPos + 1)
          else spin pos resources fuel spinPos
      else return ()

def lock (fuel : ℕ) (resources : BitVec w) : LockM w DRet (BitVec 32) := do
  let pos ← enqueue mask fuel
  perform (.storeBits (pos &&& mask) resources)
  perform (.storeSequence (pos &&& mask) (pos + 1))
  let spinPos ← perform .loadHead
  spin mask pos resources fuel spinPos
  return pos

/-! ### Unlocking -/

/-- A cell that has been dequeued becomes free for the ticket of the next round. -/
def recycle (pos : BitVec 32) : LockM w DRet Unit := do
  perform (.storeBits (pos &&& mask) (BitVec.allOnes w))
  perform (.storeSequence (pos &&& mask) (pos + mask + 1))

/-- The body of the loop of `Unlock`, for a cell without bits. -/
def tryDequeue (pos : BitVec 32) : LockM w DRet Unit := do
  let seq ← perform (.loadSequence (pos &&& mask))
  let dif := seq.toInt - (pos + 1).toInt
  if dif = 0 then do
    if ← perform (.casHead pos (pos + 1)) then recycle mask pos
    else return ()
  else return ()

/-- The loop of `Unlock` that dequeues the cells that have been released. -/
def dequeue : ℕ → BitVec 32 → LockM w DRet Unit
  | 0, _ => .raise .outOfFuel
  | fuel + 1, pos => do
      if (← perform (.loadBits (pos &&& mask))) = 0 then do
        tryDequeue mask pos
        dequeue fuel (← perform .loadHead)
      else return ()

def unlock (fuel : ℕ) (handle : BitVec 32) : LockM w DRet Unit := do
  perform (.storeBits (handle &&& mask) 0)
  dequeue mask fuel (← perform .loadHead)

/-! ### Critical sections -/

/-- What `~ScopedMrLock` does after the end of the scope, reached or left by an exception; a scope that
does not come to its end keeps the lock. -/
def leave {α : Type} (fuel : ℕ) (handle : BitVec 32) : Except Fault α → LockM w DRet (Except Fault α)
  | .error .outOfFuel => .raise .outOfFuel
  | r => do
      unlock mask fuel handle
      return r

/-- The rest of a scope that holds the lock. -/
def critical {α : Type} (fuel : ℕ) (handle : BitVec 32) (scope : Prog D DRet Fault α) : LockM w DRet (Except Fault α) := do
  leave mask fuel handle (← (onData scope).attempt)

/-- A scope with a `ScopedMrLock`. -/
def scopedMrLock {α : Type} (fuel : ℕ) (resources : BitVec w) (scope : Prog D DRet Fault α) :
    LockM w DRet (Except Fault α) := do
  critical mask fuel (← lock mask fuel resources) scope

end Programs

end MRLock

end LockFreeSearchTree
