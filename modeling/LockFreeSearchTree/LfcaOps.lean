import LockFreeSearchTree.LfcaShape

/-! # The operations of a function that runs alone

What the operations of the lock-free tree and its small functions do in a program that runs alone,
as conditions on the state (`Meets`).  `Admits F s` says that `F` holds of what the pools throw,
`Fueled F n fuel` that `fuel` is enough for `n` rounds unless `F` holds of a lack of fuel: with `F`
true of everything the results are about calls that return, with `F` false they say that calls
return. -/

namespace LockFreeSearchTree

open BinTree Concurrent Concurrent.Prog

namespace Lfca

variable {F : Fault → Prop} {s s' : Shared}

/-- `F` holds of everything the pools throw. -/
def Admits (F : Fault → Prop) (s : Shared) : Prop := ∀ x, s.pools.Throws x → F (.exn x)

theorem Admits.extends (h : Admits F s) (he : s.Extends s') : Admits F s' := fun x hx => h x (he.pools.throws.mp hx)

/-- The fuel is enough for `n` rounds, or a lack of fuel is one of the faults `F`. -/
def Fueled (F : Fault → Prop) (n fuel : ℕ) : Prop := F .outOfFuel ∨ n < fuel

theorem Fueled.le {m n fuel : ℕ} (h : Fueled F n fuel) (hm : m ≤ n) : Fueled F m fuel := h.imp_right (hm.trans_lt ·)

theorem Fueled.pred {m n fuel : ℕ} (h : Fueled F n (fuel + 1)) (hm : m < n) : Fueled F m fuel :=
  h.imp_right (fun h => by omega)

theorem Fueled.zero {n : ℕ} (h : Fueled F n 0) : F .outOfFuel := h.elim id (fun h => absurd h (Nat.not_lt_zero _))

/-! ### Atomic operations -/

section Atomic

theorem meets_loadRoot {Q : Ptr → Shared → Prop} : Meets exec F loadRoot s Q ↔ Q s.root s :=
  meets_perform (by rfl)

theorem meets_casRoot {caller : Option Ptr} {e d : Ptr} {Q : Bool → Shared → Prop} (h : s.root = e) :
    Meets exec F (Prog.perform (⟨.casRoot e d, caller⟩ : Access)) s Q ↔ Q true { s with root := d } :=
  meets_perform (by simp [exec, Op.exec, h])

variable {n : Ptr} (hn : s.Allocated n)
include hn

theorem meets_plain {Q : Plain → Shared → Prop} : Meets exec F (plain n) s Q ↔ Q (s.nodes n).toPlain s :=
  meets_perform (by simp [exec, Op.exec, onNode, hn])

theorem meets_load {f : Field} {Q : Ptr → Shared → Prop} :
    Meets exec F (load n f) s Q ↔ Q ((s.nodes n).get f) s :=
  meets_perform (by simp [exec, Op.exec, onNode, hn])

theorem meets_loadValid {Q : Bool → Shared → Prop} : Meets exec F (loadValid n) s Q ↔ Q (s.nodes n).valid s :=
  meets_perform (by simp [exec, Op.exec, onNode, hn])

theorem meets_assign {f : PlainField} {p : Ptr} {Q : Unit → Shared → Prop} :
    Meets exec F (perform (.assign n f p)) s Q ↔ Q () (s.update n (fun d => d.assign f p)) :=
  meets_perform (by simp [exec, Op.exec, onNode, hn])

theorem meets_storeBy {caller : Option Ptr} {f : Field} {p : Ptr} {Q : Unit → Shared → Prop} :
    Meets exec F (Prog.perform (⟨.store n f p, caller⟩ : Access)) s Q ↔ Q () (s.update n (fun d => d.set f p)) :=
  meets_perform (by simp [exec, Op.exec, onNode, hn])

theorem meets_store {f : Field} {p : Ptr} {Q : Unit → Shared → Prop} :
    Meets exec F (store n f p) s Q ↔ Q () (s.update n (fun d => d.set f p)) := meets_storeBy hn

theorem meets_storeValid {caller : Option Ptr} {b : Bool} {Q : Unit → Shared → Prop} :
    Meets exec F (Prog.perform (⟨.storeValid n b, caller⟩ : Access)) s Q ↔
      Q () (s.update n (fun d => { d with valid := b })) :=
  meets_perform (by simp [exec, Op.exec, onNode, hn])

theorem meets_casBy {caller : Option Ptr} {f : Field} {e d : Ptr} {Q : Bool → Shared → Prop}
    (h : (s.nodes n).get f = e) :
    Meets exec F (Prog.perform (⟨.cas n f e d, caller⟩ : Access)) s Q ↔ Q true (s.update n (fun x => x.set f d)) :=
  meets_perform (by simp [exec, Op.exec, onNode, hn, h])

theorem meets_casBy_ne {caller : Option Ptr} {f : Field} {e d : Ptr} {Q : Bool → Shared → Prop}
    (h : (s.nodes n).get f ≠ e) :
    Meets exec F (Prog.perform (⟨.cas n f e d, caller⟩ : Access)) s Q ↔ Q false s :=
  meets_perform (by simp [exec, Op.exec, onNode, hn, h])

theorem meets_cas {f : Field} {e d : Ptr} {Q : Bool → Shared → Prop} (h : (s.nodes n).get f = e) :
    Meets exec F (cas n f e d) s Q ↔ Q true (s.update n (fun x => x.set f d)) := meets_casBy hn h

theorem meets_cas_ne {f : Field} {e d : Ptr} {Q : Bool → Shared → Prop} (h : (s.nodes n).get f ≠ e) :
    Meets exec F (cas n f e d) s Q ↔ Q false s := meets_casBy_ne hn h

theorem meets_dataOf {t : Treap} {Q : Treap → Shared → Prop} (h : (s.nodes n).data = some t) :
    Meets exec F (dataOf n) s Q ↔ Q t s := by
  unfold dataOf
  rw [meets_bind, meets_plain hn]
  simp only [h]
  rfl

end Atomic

section Stores

variable {p : Ptr} (hp : s.AllocatedStore p)
include hp

theorem meets_loadResult {Q : Option (List ℤ) → Shared → Prop} :
    Meets exec F (loadResult p) s Q ↔ Q (s.stores p).result s :=
  meets_perform (by simp [exec, Op.exec, onStore, hp])

theorem meets_casResult {values : List ℤ} {Q : Bool → Shared → Prop} (h : (s.stores p).result = none) :
    Meets exec F (casResult p values) s Q ↔ Q true (s.updateStore p (fun r => { r with result := some values })) :=
  meets_perform (by simp [exec, Op.exec, onStore, hp, h])

theorem meets_storeMore {b : Bool} {Q : Unit → Shared → Prop} :
    Meets exec F (perform (.storeMore p b)) s Q ↔ Q () (s.updateStore p (fun r => { r with moreThanOneBase := b })) :=
  meets_perform (by simp [exec, Op.exec, onStore, hp])

theorem meets_derefResult {values : List ℤ} {Q : List ℤ → Shared → Prop} (h : (s.stores p).result = some values) :
    Meets exec F (derefResult p) s Q ↔ Q values s := by
  unfold derefResult
  rw [meets_bind, meets_loadResult hp, h]
  rfl

end Stores

section Pools

theorem meets_new {n : Node} {Q : Ptr → Shared → Prop} : Meets exec F (new n) s Q ↔ Q s.next (s.alloc n) :=
  meets_perform rfl

theorem meets_news {nodes : Ptr → List Node} {Q : Ptr → Shared → Prop} :
    Meets exec F (perform (.new nodes)) s Q ↔ Q s.next ((nodes s.next).foldl Shared.alloc s) :=
  meets_perform rfl

variable (hF : Admits F s)
include hF

/-- An operation on the pools. -/
theorem fromPool_meets {o : PoolOp} {R : o.Val → Prop} {Q : o.Val → Shared → Prop} (ho : o.Gives R)
    (hQ : ∀ a P, R a → s.pools.Same P → Q a { s with pools := P }) : Meets exec F (fromPool o) s Q := by
  obtain ⟨hsame, h⟩ := ho s.pools
  unfold fromPool
  rw [meets_bind]
  have hexec : exec ⟨.pool o, none⟩ s = .ok ((o.exec s.pools).1, { s with pools := (o.exec s.pools).2 }) := rfl
  refine (meets_perform hexec).mpr ?_
  rcases h with ⟨a, ha, hR⟩ | ⟨x, hx, hthrows⟩
  · rw [ha]
    exact hQ a _ hR hsame
  · rw [hx]
    exact hF x hthrows

theorem copyOf_meets {p : Ptr} {Q : Node → Shared → Prop} (hp : s.Allocated p)
    (hQ : ∀ P, s.pools.Same P → Q (s.nodes p) { s with pools := P }) : Meets exec F (copyOf p) s Q := by
  unfold copyOf
  rw [meets_bind]
  refine fromPool_meets hF PoolOp.gives_node fun _ P _ hsame => ?_
  have hp' : Shared.Allocated { s with pools := P } p := hp
  simp only [meets_bind, meets_plain hp', meets_load hp', meets_loadValid hp']
  exact hQ P hsame

theorem newCopy_meets {p : Ptr} {f : Node → Node} {Q : Ptr → Shared → Prop} (hp : s.Allocated p)
    (hQ : ∀ P, s.pools.Same P → Q s.next (Shared.alloc { s with pools := P } (f (s.nodes p)))) :
    Meets exec F (newCopy p f) s Q := by
  unfold newCopy
  rw [meets_bind]
  exact copyOf_meets hF hp fun P hsame => meets_new.mpr (hQ P hsame)

theorem newRs_meets {Q : Ptr → Shared → Prop}
    (hQ : ∀ P, s.pools.Same P → Q s.nextStore { s with pools := P, nextStore := s.nextStore + 1 }) :
    Meets exec F newRs s Q := by
  unfold newRs
  rw [meets_bind]
  exact fromPool_meets hF PoolOp.gives_rs fun _ P _ hsame => (meets_perform rfl).mpr (hQ P hsame)

end Pools

end Lfca

end LockFreeSearchTree
