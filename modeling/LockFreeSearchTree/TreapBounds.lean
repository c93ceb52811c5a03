import LockFreeSearchTree.TreapAccess
import LockFreeSearchTree.TreapRuns

/-! # Treap operations stay in their array

Which slots the operations use on the way, read off the programs of `TreapAccess.lean`.

* **Slots.** `Inside dummy` says that an access uses a slot below `TREAP_NODES`, or, where `dummy`
  holds, the slot `TREAP_NODES` for a node of the weight of the dummy node, which no other node has.
* **Links.** In a `Closed` treap all links of the slots in use lead to slots in use, so the accesses
  of an operation that follows links are inside.  Every operation on links keeps a treap closed,
  also in the middle of an operation and with the dummy node linked in.
* **Transfers** take the next free slot for every node, which is a slot below `TREAP_NODES` as long
  as the subtrees that are still to be copied fit.
* `operations_inside` puts the operations together. -/

namespace LockFreeSearchTree

open BinTree Concurrent

namespace Treap

/-! ### Slots -/

/-- The node `n` is in a slot it may be in. -/
def SlotFor (dummy : Prop) (k : ℕ) (n : TreapNode) : Prop :=
  k < TREAP_NODES ∨ dummy ∧ k = TREAP_NODES ∧ n.weight = NegInfinity

/-- The slot an access uses, if its index is not `NullNode`. -/
def ArrayOp.Permitted (dummy : Prop) : ArrayOp → Prop
  | .get t i => ∀ k, i = some k → SlotFor dummy k (t.nodes k)
  | .modify t i f => ∀ k, i = some k → SlotFor dummy k (f (t.nodes k))
  | _ => True

/-- The access uses a slot of the array. -/
def ArrayOp.Inside (dummy : Prop) : ArrayOp → Prop
  | .get t i => ∃ k, i = some k ∧ SlotFor dummy k (t.nodes k)
  | .modify t i f => ∃ k, i = some k ∧ SlotFor dummy k (f (t.nodes k))
  | _ => True

/-- An access that uses an index of the array is inside where it is permitted. -/
theorem ArrayOp.Permitted.inside {dummy : Prop} {o : ArrayOp} (h : o.Permitted dummy) {env : Env}
    (hexec : o.exec env ≠ .error .undefinedBehaviour) : o.Inside dummy := by
  cases o with
  | get t i =>
      cases i with
      | none => exact absurd rfl hexec
      | some k => exact ⟨k, rfl, h k rfl⟩
  | modify t i f =>
      cases i with
      | none => exact absurd rfl hexec
      | some k => exact ⟨k, rfl, h k rfl⟩
  | draw => trivial
  | new => trivial

/-- All accesses are permitted, and what the program returns satisfies `post`. -/
abbrev Uses {α : Type} (dummy : Prop) (p : ArrayM α) (post : α → Prop) : Prop :=
  Prog.Performs ArrayOp.exec (ArrayOp.Permitted dummy) p post

variable {dummy : Prop} {t : Treap} {i j : TreapIndex} {n : ℕ}

theorem outcome_ok {α : Type} {m : TreapM α} {env env' : Env} {a : α} (h : outcome m env = .ok (a, env')) :
    m env = (.ok a, env') := by
  unfold outcome at h
  split at h
  · rename_i b env₁ hm
    cases h
    exact hm
  · cases h

theorem getM_slot (h : ∀ k, i = some k → SlotFor dummy k (t.nodes k)) :
    Uses dummy (getM t i) (fun d => ∃ k, i = some k ∧ d = t.nodes k) := by
  refine Prog.Performs.perform (o := ArrayOp.get t i) h fun env d env' hexec => ?_
  have hget : t.get i = .ok d := congrArg Prod.fst (outcome_ok hexec)
  unfold get at hget
  split at hget
  · split_ifs at hget
    exact ⟨_, rfl, (Except.ok.inj hget).symm⟩
  · cases hget

theorem modifyM_slot {f : TreapNode → TreapNode} (h : ∀ k, i = some k → SlotFor dummy k (f (t.nodes k))) :
    Uses dummy (modifyM t i f) (fun t' => ∃ k, i = some k ∧ t' = t.put k (f (t.nodes k))) := by
  refine Prog.Performs.perform (o := ArrayOp.modify t i f) h fun env t' env' hexec => ?_
  have hmod : t.modify i f = .ok t' := congrArg Prod.fst (outcome_ok hexec)
  unfold modify at hmod
  split at hmod
  · split_ifs at hmod
    exact ⟨_, rfl, (Except.ok.inj hmod).symm⟩
  · cases hmod

theorem drawWeightM_uses : Uses dummy drawWeightM (fun _ => True) :=
  Prog.Performs.perform (o := ArrayOp.draw) trivial fun _ _ _ _ => trivial

theorem NewM_uses : Uses dummy NewM (· = empty) := by
  refine Prog.Performs.perform (o := ArrayOp.new) trivial fun env u env' hexec => ?_
  exact (New_yields.of_ok (outcome_ok hexec)).1

/-! ### Closed treaps -/

/-- An index is unset, names one of the first `n` slots, or the dummy node. -/
def Ref (dummy : Prop) (n : ℕ) : TreapIndex → Prop
  | none => True
  | some k => k < n ∨ dummy ∧ k = TREAP_NODES

theorem null_ref : Ref dummy n NullNode := trivial

/-- The links of a node are such indices. -/
structure Links (dummy : Prop) (n : ℕ) (d : TreapNode) : Prop where
  parent : Ref dummy n d.parent
  left : Ref dummy n d.left
  right : Ref dummy n d.right

/-- The first `n` slots of the treap and the dummy node are linked with one another only. -/
structure Closed (dummy : Prop) (n : ℕ) (t : Treap) : Prop where
  size : t.size = n
  bound : n ≤ TREAP_NODES
  root : Ref dummy n t.root
  links : ∀ k, Ref dummy n (some k) → Links dummy n (t.nodes k)
  light : dummy → (t.nodes TREAP_NODES).weight = NegInfinity

theorem Links.child {d : TreapNode} (h : Links dummy n d) (side : Side) : Ref dummy n (d.child side) := by
  cases side with
  | left => exact h.left
  | right => exact h.right

theorem Links.withParent {d : TreapNode} (h : Links dummy n d) (hi : Ref dummy n i) : Links dummy n (d.withParent i) :=
  ⟨hi, h.left, h.right⟩

theorem Links.setChild {d : TreapNode} (h : Links dummy n d) (side : Side) (hi : Ref dummy n i) :
    Links dummy n (d.setChild side i) := by
  cases side with
  | left => exact ⟨h.parent, hi, h.right⟩
  | right => exact ⟨h.parent, h.left, hi⟩

namespace Closed

variable (h : Closed dummy n t)

include h

theorem slot {k : ℕ} (hk : Ref dummy n (some k)) {d : TreapNode} (hw : dummy → d.weight = (t.nodes k).weight) :
    SlotFor dummy k d := by
  cases hk with
  | inl hlt => exact .inl (lt_of_lt_of_le hlt h.bound)
  | inr hd =>
      refine .inr ⟨hd.1, hd.2, ?_⟩
      rw [hw hd.1, hd.2]
      exact h.light hd.1

theorem setRoot (hi : Ref dummy n i) : Closed dummy n { t with root := i } :=
  ⟨h.size, h.bound, hi, h.links, h.light⟩

theorem put {k : ℕ} {d : TreapNode} (hd : Links dummy n d) (hw : dummy → d.weight = (t.nodes k).weight) :
    Closed dummy n (t.put k d) := by
  refine ⟨h.size, h.bound, h.root, fun q hq => ?_, fun hdum => ?_⟩
  · by_cases hqk : q = k
    · rw [hqk, put_same]
      exact hd
    · rw [put_ne _ _ hqk]
      exact h.links q hq
  · by_cases hk : TREAP_NODES = k
    · subst hk
      rw [put_same, hw hdum]
      exact h.light hdum
    · rw [put_ne _ _ hk]
      exact h.light hdum

theorem getM (hi : Ref dummy n i) : Uses dummy (getM t i) (Links dummy n) := by
  refine (getM_slot fun k hk => ?_).mono fun d hd => ?_
  · subst hk
    exact h.slot hi fun _ => rfl
  · obtain ⟨k, rfl, rfl⟩ := hd
    exact h.links k hi

theorem modifyM {f : TreapNode → TreapNode} (hi : Ref dummy n i) (hf : ∀ d, Links dummy n d → Links dummy n (f d))
    (hw : dummy → ∀ d, (f d).weight = d.weight) : Uses dummy (modifyM t i f) (Closed dummy n) := by
  refine (modifyM_slot fun k hk => ?_).mono fun t' ht' => ?_
  · subst hk
    exact h.slot hi fun hd => hw hd _
  · obtain ⟨k, rfl, rfl⟩ := ht'
    exact h.put (hf _ (h.links k hi)) fun hd => hw hd _

/-! ### Links, rotations and searches of closed treaps -/

theorem relinkM {k : TreapIndex} (hi : Ref dummy n i) (hk : Ref dummy n k) :
    Uses dummy (relinkM t i j k) (Closed dummy n) := by
  refine .bind (h.getM hi) fun d _ => .ite (fun _ => ?_) fun _ => ?_
  · exact h.modifyM hi (fun d hd => hd.setChild .left hk) fun _ _ => rfl
  · exact h.modifyM hi (fun d hd => hd.setChild .right hk) fun _ _ => rfl

theorem hookUpM {k : TreapIndex} (hi : Ref dummy n i) (hk : Ref dummy n k) :
    Uses dummy (hookUpM t i j k) (Closed dummy n) :=
  .ite (fun _ => .pure (h.setRoot hk)) fun _ => h.relinkM hi hk

theorem setParentM (hi : Ref dummy n i) (hj : Ref dummy n j) : Uses dummy (setParentM t i j) (Closed dummy n) :=
  .ite (fun _ => .pure h) fun _ => h.modifyM hi (fun _ hd => hd.withParent hj) fun _ _ => rfl

theorem rotateM (d : Side) (hi : Ref dummy n i) : Uses dummy (rotateM d t i) (Closed dummy n) := by
  refine .bind (h.getM hi) fun x hx => .bind (h.getM hi) fun x' hx' => ?_
  have hup := hx'.child d
  refine .bind (h.getM hup) fun y hy => .bind (h.modifyM hi (fun _ hd => hd.withParent hup) fun _ _ => rfl) fun t₁ h₁ => ?_
  refine .bind (h₁.modifyM hup (fun _ hd => hd.setChild d.other hi) fun _ _ => TreapNode.weight_setChild _ _ _) fun t₂ h₂ => ?_
  refine .bind (h₂.modifyM hup (fun _ hd => hd.withParent hx.parent) fun _ _ => rfl) fun t₃ h₃ => ?_
  refine .bind (h₃.hookUpM hx.parent hup) fun t₄ h₄ => ?_
  refine .bind (h₄.modifyM hi (fun _ hd => hd.setChild d (hy.child d.other)) fun _ _ => TreapNode.weight_setChild _ _ _)
    fun t₅ h₅ => ?_
  exact h₅.setParentM (hy.child d.other) hi

end Closed

variable (fuel : ℕ)

theorem Closed.moveUpLoopM (h : Closed dummy n t) (hi : Ref dummy n i) :
    Uses dummy (moveUpLoopM fuel t i) (Closed dummy n) := by
  induction fuel generalizing t with
  | zero => exact .raise
  | succ fuel ih =>
      refine .bind (h.getM hi) fun x hx => .ite (fun _ => .pure h) fun _ => .bind (h.getM hx.parent) fun p hp => ?_
      refine .ite (fun _ => .pure h) fun _ => .ite (fun _ => ?_) fun _ => ?_
      · exact .bind (h.rotateM .left hx.parent) fun t' h' => ih h'
      · exact .bind (h.rotateM .right hx.parent) fun t' h' => ih h'

theorem Closed.moveDownLoopM (h : Closed dummy n t) (hi : Ref dummy n i) :
    Uses dummy (moveDownLoopM fuel t i) (Closed dummy n) := by
  induction fuel generalizing t with
  | zero => exact .raise
  | succ fuel ih =>
      have hrot : ∀ d, Uses dummy (Treap.rotateM d t i >>= fun t => Treap.moveDownLoopM fuel t i) (Closed dummy n) :=
        fun d => .bind (h.rotateM d hi) fun t' h' => ih h'
      refine .bind (h.getM hi) fun x hx => .bind (h.getM hi) fun x' hx' => .ite (fun _ => .pure h) fun _ => ?_
      refine .ite (fun _ => ?_) fun _ => .ite (fun _ => hrot .left) fun _ => hrot .right
      refine .bind (h.getM hx.left) fun l _ => .bind (h.getM hx'.right) fun r _ => ?_
      exact .ite (fun _ => hrot .left) fun _ => hrot .right

theorem Closed.bstInsertLoopM (h : Closed dummy n t) (hi : Ref dummy n i) (hj : Ref dummy n j) :
    Uses dummy (bstInsertLoopM fuel t i j) (Closed dummy n) := by
  induction fuel generalizing j with
  | zero => exact .raise
  | succ fuel ih =>
      have hlink : ∀ d, Uses dummy (do
          let t ← Treap.modifyM t j (fun x => x.setChild d i)
          Treap.modifyM t i (fun x => x.withParent j)) (Closed dummy n) := by
        intro d
        refine .bind (h.modifyM hj (fun _ hx => hx.setChild d hi) fun _ _ => TreapNode.weight_setChild _ _ _) fun t' h' => ?_
        exact h'.modifyM hi (fun _ hx => hx.withParent hj) fun _ _ => rfl
      refine .bind (h.getM hj) fun s hs => .bind (h.getM hi) fun x hx => .ite (fun _ => ?_) fun _ => ?_
      · exact .ite (fun _ => hlink .left) fun _ => ih hs.left
      · exact .ite (fun _ => hlink .right) fun _ => ih hs.right

theorem Closed.bstFindLoopM (h : Closed dummy n t) (val : ℤ) (hi : Ref dummy n i) :
    Uses dummy (bstFindLoopM fuel t val i) (Ref dummy n) := by
  induction fuel generalizing i with
  | zero => exact .raise
  | succ fuel ih =>
      refine .ite (fun _ => .pure trivial) fun _ => .bind (h.getM hi) fun x hx => .ite (fun _ => .pure hi) fun _ => ?_
      exact .ite (fun _ => ih hx.left) fun _ => ih hx.right

theorem Closed.rangeQueryLoopM (h : Closed dummy n t) (min max : ℤ) {st : List TreapIndex} (hst : ∀ i ∈ st, Ref dummy n i)
    (values : List ℤ) : Uses dummy (rangeQueryLoopM t min max fuel st values) (fun _ => True) := by
  induction fuel generalizing st values with
  | zero =>
      cases st with
      | nil => exact .pure trivial
      | cons i st => exact .raise
  | succ fuel ih =>
      cases st with
      | nil => exact .pure trivial
      | cons i st =>
          have hpush : ∀ {c : Prop} [Decidable c] {q : TreapIndex} {st : List TreapIndex}, Ref dummy n q →
              (∀ i ∈ st, Ref dummy n i) → ∀ i ∈ (if c then q :: st else st), Ref dummy n i := by
            intro c _ q st hq hst
            split_ifs
            · exact List.forall_mem_cons.mpr ⟨hq, hst⟩
            · exact hst
          refine .bind (h.getM (hst i List.mem_cons_self)) fun x hx => ih ?_ _
          exact hpush hx.right (hpush hx.left fun q hq => hst q (List.mem_cons_of_mem _ hq))

theorem Closed.getMaxValueLoopM (h : Closed dummy n t) (hi : Ref dummy n i) :
    Uses dummy (getMaxValueLoopM fuel t i) (fun _ => True) := by
  induction fuel generalizing i with
  | zero => exact .raise
  | succ fuel ih => exact .bind (h.getM hi) fun x hx => .ite (fun _ => ih hx.right) fun _ => .pure trivial

theorem Closed.containsM (h : Closed dummy n t) (val : ℤ) : Uses dummy (containsM t val) (fun _ => True) :=
  .bind (h.bstFindLoopM loopFuel val h.root) fun _ _ => .pure trivial

theorem Closed.rangeQueryM (h : Closed dummy n t) (min max : ℤ) : Uses dummy (rangeQueryM t min max) (fun _ => True) := by
  refine .ite (fun _ => .pure trivial) fun _ => h.rangeQueryLoopM loopFuel min max (fun i hi => ?_) []
  rw [List.mem_singleton.mp hi]
  exact h.root

theorem Closed.getMaxValueM (h : Closed dummy n t) : Uses dummy (getMaxValueM t) (fun _ => True) :=
  .ite (fun _ => .raise) fun _ => h.getMaxValueLoopM loopFuel h.root

/-! ### Insertion and removal -/

theorem Ref.mono {m : ℕ} (h : Ref dummy n i) (hnm : n ≤ m) : Ref dummy m i := by
  cases i with
  | none => trivial
  | some k =>
      cases h with
      | inl hlt => exact .inl (lt_of_lt_of_le hlt hnm)
      | inr hd => exact .inr hd

theorem Ref.weaken (h : Ref False n i) : Ref dummy n i := by
  cases i with
  | none => trivial
  | some k =>
      cases h with
      | inl hlt => exact .inl hlt
      | inr hd => exact hd.1.elim

theorem Ref.lt {k : ℕ} (h : Ref False n (some k)) : k < n := by
  cases h with
  | inl hlt => exact hlt
  | inr hd => exact hd.1.elim

/-- A new node without links in the next free slot. -/
theorem Closed.grow (h : Closed False n t) (hn : n < TREAP_NODES) (val w : ℤ) :
    Closed False (n + 1) (({ t with size := t.size + 1 } : Treap).put t.size ⟨val, w, NullNode, NullNode, NullNode⟩) := by
  refine ⟨congrArg (· + 1) h.size, hn, h.root.mono (Nat.le_succ n), fun k hk => ?_, fun hd => hd.elim⟩
  by_cases hkn : k = t.size
  · rw [hkn, put_same]
    exact ⟨trivial, trivial, trivial⟩
  · rw [put_ne _ _ hkn]
    have hlt : k < n := by
      have h₁ := hk.lt
      have h₂ := h.size
      omega
    obtain ⟨hp, hl, hr⟩ := h.links k (.inl hlt)
    exact ⟨hp.mono (Nat.le_succ n), hl.mono (Nat.le_succ n), hr.mono (Nat.le_succ n)⟩

/-- `createNewNode` uses the next free slot. -/
theorem Closed.createNewNodeM (h : Closed False n t) (hn : n < TREAP_NODES) (val : ℤ) :
    Uses False (createNewNodeM t val) (fun r => r.1 = some n ∧ Closed False (n + 1) r.2) := by
  refine .bind drawWeightM_uses fun w _ => .bind (modifyM_slot fun k hk => ?_) fun t' ht' => .pure ⟨by rw [h.size], ?_⟩
  · cases hk
    exact .inl (by rw [h.size]; exact hn)
  · obtain ⟨k, hk, rfl⟩ := ht'
    cases hk
    exact h.grow hn val w

theorem Closed.insertM (h : Closed False n t) (val : ℤ) : Uses False (insertM t val) (fun _ => True) := by
  refine .ite (fun _ => .raise) fun hfull => ?_
  have hn : n < TREAP_NODES := lt_of_le_of_ne h.bound fun he => hfull (h.size.trans he)
  refine .bind (h.createNewNodeM hn val) fun r hr => .ite (fun _ => .pure trivial) fun _ => ?_
  obtain ⟨hi, ht⟩ := hr
  have hi' : Ref False (n + 1) r.1 := by
    rw [hi]
    exact .inl (Nat.lt_succ_self n)
  refine .bind (ht.bstInsertLoopM loopFuel hi' ht.root) fun t' ht' => ?_
  exact (ht'.moveUpLoopM loopFuel hi').mono fun _ _ => trivial

theorem Closed.moveNodeM (h : Closed False n t) (hi : Ref False n i) (hj : Ref False n j) :
    Uses False (moveNodeM t i j) (Closed False n) := by
  refine .ite (fun _ => .pure h) fun _ => .bind (h.getM hi) fun src hsrc => ?_
  refine .bind (h.modifyM hj (fun _ _ => hsrc) fun hd => hd.elim) fun t₁ h₁ => ?_
  refine .bind (h₁.setParentM hsrc.left hj) fun t₂ h₂ => .bind (h₂.setParentM hsrc.right hj) fun t₃ h₃ => ?_
  exact h₃.hookUpM hsrc.parent hj

theorem Closed.removeM (h : Closed False n t) (val : ℤ) : Uses False (removeM t val) (fun _ => True) := by
  refine .bind (h.bstFindLoopM loopFuel val h.root) fun found hfound => .ite (fun _ => .pure trivial) fun hne => ?_
  obtain ⟨k, rfl⟩ := Option.ne_none_iff_exists'.mp hne
  refine .bind (h.moveDownLoopM loopFuel hfound) fun t₁ h₁ => .bind (h₁.getM hfound) fun x hx => ?_
  refine .bind (h₁.hookUpM hx.parent null_ref) fun t₂ h₂ => ?_
  -- there is a last slot, since one has been found
  have hlast : Ref False n (some (t₂.size - 1)) := .inl (by
    have h₃ := hfound.lt
    rw [h₂.size]
    omega)
  exact .bind (h₂.moveNodeM hlast hfound) fun _ _ => .pure trivial

theorem NewCopyM_uses : Uses dummy (NewCopyM t) (· = t) := .bind NewM_uses fun _ _ => .pure rfl

theorem Closed.immutableInsertM (h : Closed False n t) (val : ℤ) : Uses False (immutableInsertM t val) (fun _ => True) := by
  refine .bind NewCopyM_uses fun t' ht' => ?_
  rw [ht']
  exact h.insertM val

theorem Closed.immutableRemoveM (h : Closed False n t) (val : ℤ) : Uses False (immutableRemoveM t val) (fun _ => True) := by
  refine .bind NewCopyM_uses fun t' ht' => ?_
  rw [ht']
  exact .bind (h.removeM val) fun _ _ => .pure trivial

/-! ### Transfers -/

/-- The loop of `transferNodesFrom` on a stack whose top is the subtree `S`; the other subtrees are
copied by what follows. -/
theorem transferLoopM_uses {other : Treap} : ∀ {S : SlotTree} {p : TreapIndex} {t : Treap} {n : ℕ} {q rt : TreapIndex} {b : Bool}
    {fuel : ℕ} {st : List TreapTransferInfo} {post : TreapIndex × Treap → Prop}, Spans other.nodes p S →
    (∀ s ∈ S.labels, s < TREAP_NODES) → Closed False n t → n + S.labels.length ≤ TREAP_NODES → Ref False n q → Ref False n rt →
    (∀ rt' t', Ref False (n + S.labels.length) rt' → Closed False (n + S.labels.length) t' →
      Uses False (transferLoopM other fuel st rt' t') post) →
    Uses False (transferLoopM other (S.labels.length + fuel) ((if top S ≠ NullNode then [⟨b, q, top S⟩] else []) ++ st) rt t) post
  | .leaf u, p, t, n, q, rt, b, fuel, st, post, _, _, ht, _, _, hrt, hk => by
      rw [labels_leaf, List.length_nil, Nat.zero_add]
      exact hk rt t hrt ht
  | .node l x r, p, t, n, q, rt, b, fuel, st, post, hS, hslots, ht, hsize, hq, hrt, hk => by
      obtain ⟨_, _, hl, hr, hSl, hSr⟩ := hS
      have hlen : (node l x r).labels.length = r.labels.length + l.labels.length + 1 := by
        simp only [labels_node, List.length_append, List.length_cons]
        omega
      rw [hlen] at hsize hk
      have hfuel : (node l x r).labels.length + fuel = r.labels.length + (l.labels.length + fuel) + 1 := by
        rw [hlen]
        omega
      have hpush : ∀ (i : TreapIndex) (b : Bool) (j : TreapIndex) (st : List TreapTransferInfo),
          (if i ≠ NullNode then ⟨b, j, i⟩ :: st else st) = (if i ≠ NullNode then [⟨b, j, i⟩] else []) ++ st := by
        intro i b j st
        split_ifs <;> rfl
      simp only [labels_node, List.mem_append, List.mem_cons] at hslots
      have hnew : Ref False (n + 1) (some n) := .inl (Nat.lt_succ_self n)
      rw [hfuel, top_node, if_pos (by simp), List.singleton_append]
      -- the new node is linked below its parent
      have hlink : ∀ {t₁ : Treap}, Closed False (n + 1) t₁ → Uses False (
          if q ≠ NullNode then do
            let t ← modifyM t₁ (some n) (fun d => d.withParent q)
            let t ← modifyM t q (fun d => if b then { d with left := some n } else { d with right := some n })
            return (rt, t)
          else return (some n, t₁)) (fun r => Ref False (n + 1) r.1 ∧ Closed False (n + 1) r.2) := by
        intro t₁ ht₁
        refine .ite (fun _ => ?_) fun _ => .pure ⟨hnew, ht₁⟩
        have hq' := hq.mono (Nat.le_succ n)
        refine .bind (ht₁.modifyM hnew (fun _ hd => hd.withParent hq') fun _ _ => rfl) fun t₂ ht₂ => ?_
        refine .bind (ht₂.modifyM hq' (fun d hd => ?_) fun hd => hd.elim) fun t₃ ht₃ => .pure ⟨hrt.mono (Nat.le_succ n), ht₃⟩
        split_ifs
        · exact hd.setChild .left hnew
        · exact hd.setChild .right hnew
      refine .bind (getM_slot fun k hk => ?_) fun original ho => ?_
      · cases hk
        exact .inl (hslots x (.inr (.inl rfl)))
      obtain ⟨_, he, rfl⟩ := ho
      cases he
      refine .bind (ht.createNewNodeM (by omega) _) fun r' hr' => ?_
      obtain ⟨i, t₁⟩ := r'
      obtain ⟨rfl, ht₁⟩ := hr'
      refine .bind (hlink ht₁) fun r' hr' => ?_
      obtain ⟨rt', t₂⟩ := r'
      obtain ⟨hrt', ht₂⟩ := hr'
      simp only [hl, hr]
      rw [hpush (top r) false (some n) _, hpush (top l) true (some n) st]
      refine transferLoopM_uses hSr (fun s hs => hslots s (.inr (.inr hs))) ht₂ (by omega) hnew hrt' fun rt₃ t₃ hrt₃ ht₃ => ?_
      have hnew₃ : Ref False (n + 1 + r.labels.length) (some n) := .inl (by omega)
      refine transferLoopM_uses hSl (fun s hs => hslots s (.inl hs)) ht₃ (by omega) hnew₃ hrt₃ fun rt₄ t₄ hrt₄ ht₄ => ?_
      have hsum : n + 1 + r.labels.length + l.labels.length = n + (r.labels.length + l.labels.length + 1) := by omega
      rw [hsum] at hrt₄ ht₄
      exact hk rt₄ t₄ hrt₄ ht₄

/-- `transferNodesFrom` uses the next free slots, if there are enough. -/
theorem transferNodesFromM_uses {other : Treap} {S : SlotTree} {p : TreapIndex} (hS : Spans other.nodes p S)
    (hslots : ∀ s ∈ S.labels, s < TREAP_NODES) (ht : Closed False n t) (hsize : n + S.labels.length ≤ TREAP_NODES) :
    Uses False (transferNodesFromM t other (top S)) (fun r => Ref False (n + S.labels.length) r.1 ∧
      Closed False (n + S.labels.length) r.2) := by
  refine .ite (fun _ => .raise) fun hne => ?_
  have hfuel : loopFuel = S.labels.length + (loopFuel - S.labels.length) := by
    unfold loopFuel
    omega
  have h : Uses False (transferLoopM other (S.labels.length + (loopFuel - S.labels.length))
      ((if top S ≠ NullNode then [⟨false, NullNode, top S⟩] else []) ++ []) NullNode t)
      (fun r => Ref False (n + S.labels.length) r.1 ∧ Closed False (n + S.labels.length) r.2) :=
    transferLoopM_uses hS hslots ht hsize trivial trivial fun rt' t' hrt' ht' => by
      cases loopFuel - S.labels.length <;> exact .pure ⟨hrt', ht'⟩
  rw [← hfuel, if_pos hne] at h
  exact h

theorem empty_closed : Closed False 0 empty :=
  ⟨rfl, Nat.zero_le _, trivial, fun k hk => absurd hk.lt (Nat.not_lt_zero k), fun h => h.elim⟩

/-- A subtree of one treap in a new one. -/
theorem splitSideM_uses {other : Treap} {S : SlotTree} {p : TreapIndex} (hS : Spans other.nodes p S)
    (hslots : ∀ s ∈ S.labels, s < TREAP_NODES) (hsize : S.labels.length ≤ TREAP_NODES) :
    Uses False (splitSideM empty other (top S)) (fun _ => True) := by
  refine .ite (fun _ => ?_) fun _ => .pure trivial
  exact .bind (transferNodesFromM_uses hS hslots empty_closed (by rw [Nat.zero_add]; exact hsize)) fun _ _ => .pure trivial

/-! ### Merge and split -/

/-- The dummy node in its slot. -/
theorem Closed.addDummy (h : Closed False n t) (val : ℤ) (hi : Ref False n i) (hj : Ref False n j) :
    Uses True (Treap.modifyM t ControlNode (fun _ => ⟨val, NegInfinity, NullNode, i, j⟩)) (Closed True n) := by
  refine (modifyM_slot fun k hk => ?_).mono fun t' ht' => ?_
  · cases hk
    exact .inr ⟨trivial, rfl, rfl⟩
  · obtain ⟨k, hk, rfl⟩ := ht'
    cases hk
    refine ⟨h.size, h.bound, h.root.weaken, fun k hk => ?_, fun _ => by rw [put_same]⟩
    by_cases hkc : k = TREAP_NODES
    · rw [hkc, put_same]
      exact ⟨trivial, hi.weaken, hj.weaken⟩
    · rw [put_ne _ _ hkc]
      have hlt : k < n := hk.resolve_right fun hc => hkc hc.2
      obtain ⟨hp, hl, hr⟩ := h.links k (.inl hlt)
      exact ⟨hp.weaken, hl.weaken, hr.weaken⟩

theorem Uses.weaken {α : Type} {p : ArrayM α} {post : α → Prop} (h : Uses False p post) : Uses dummy p post := by
  have hslot : ∀ {k : ℕ} {d : TreapNode}, SlotFor False k d → SlotFor dummy k d := by
    intro k d hk
    cases hk with
    | inl hlt => exact .inl hlt
    | inr hd => exact hd.1.elim
  refine Prog.Performs.weaken h fun o ho => ?_
  cases o with
  | get t i => exact fun k hk => hslot (ho k hk)
  | modify t i f => exact fun k hk => hslot (ho k hk)
  | draw => trivial
  | new => trivial

theorem control_ref : Ref True n ControlNode := .inr ⟨trivial, rfl⟩

theorem Closed.joinRootsM (h : Closed False n t) (hi : Ref False n i) (hj : Ref False n j) :
    Uses True (joinRootsM t i j) (fun _ => True) := by
  refine .bind (h.getM hi).weaken fun l _ => .bind (h.getM hj).weaken fun r _ => .bind (h.addDummy _ hi hj) fun t₁ h₁ => ?_
  refine .bind (h₁.modifyM hi.weaken (fun _ hd => hd.withParent control_ref) fun _ _ => rfl) fun t₂ h₂ => ?_
  refine .bind (h₂.modifyM hj.weaken (fun _ hd => hd.withParent control_ref) fun _ _ => rfl) fun t₃ h₃ => ?_
  refine .bind ((h₃.setRoot control_ref).moveDownLoopM loopFuel control_ref) fun t₄ h₄ => ?_
  exact .bind (h₄.getM control_ref) fun d hd => (h₄.relinkM hd.parent null_ref).mono fun _ _ => trivial

/-- A linked treap whose linked slots are the first `n` ones is closed. -/
theorem Linked.closed {T : SlotTree} (hL : t.Linked T) (hp : T.labels.Perm (List.range t.size)) (hsize : t.size ≤ TREAP_NODES) :
    Closed False t.size t := by
  have hmem : ∀ {k}, k ∈ T.labels → k < t.size := fun hk => List.mem_range.mp (hp.mem_iff.mp hk)
  refine ⟨rfl, hsize, ?_, fun k hk => ?_, fun h => h.elim⟩
  · rw [hL.1]
    cases T with
    | leaf u => trivial
    | node l s r => exact .inl (hmem (by simp))
  · have hk' : k ∈ T.labels := hp.mem_iff.mpr (List.mem_range.mpr hk.lt)
    have hchild : ∀ d, Ref False t.size ((t.nodes k).child d) := by
      intro d
      cases hc : (t.nodes k).child d with
      | none => trivial
      | some q =>
          obtain ⟨C, s, a, b, rfl⟩ := hL.exists_child hk' hc
          exact .inl (hmem (mem_labels_plug.mpr (.inl (by simp))))
    refine ⟨?_, hchild .left, hchild .right⟩
    cases hq : (t.nodes k).parent with
    | none => trivial
    | some q => exact .inl (hmem ((hL.parent_iff hk').mp hq).1)

theorem Stores.closed {vs : List ℤ} (h : t.Stores vs) : Closed False t.size t := by
  obtain ⟨T, hL, hp, hsize, _⟩ := h
  exact hL.closed hp hsize

theorem mergeM_uses {l r : Treap} {vs ws : List ℤ} (hl : l.Stores vs) (hr : r.Stores ws) :
    Uses True (mergeM l r) (fun _ => True) := by
  obtain ⟨Tl, hLl, hpl, hsl, _⟩ := hl
  obtain ⟨Tr, hLr, hpr, hsr, _⟩ := hr
  have hslots : ∀ {u : Treap} {T : SlotTree}, T.labels.Perm (List.range u.size) → u.size ≤ TREAP_NODES →
      ∀ s ∈ T.labels, s < TREAP_NODES := by
    intro u T hp hs s hm
    exact lt_of_lt_of_le (List.mem_range.mp (hp.mem_iff.mp hm)) hs
  have hlen : ∀ {u : Treap} {T : SlotTree}, T.labels.Perm (List.range u.size) → T.labels.length = u.size := by
    intro u T hp
    rw [hp.length_eq, List.length_range]
  have htransfer : ∀ {u t : Treap} {T : SlotTree} {n : ℕ}, u.Linked T → T.labels.Perm (List.range u.size) →
      Closed False n t → n + u.size ≤ TREAP_NODES →
      Uses True (transferNodesFromM t u u.root) (fun q => Ref False (n + u.size) q.1 ∧ Closed False (n + u.size) q.2) := by
    intro u t T n hL hp ht hn
    have hu : u.size ≤ TREAP_NODES := by omega
    rw [hL.1, ← hlen hp]
    rw [← hlen hp] at hn
    exact (transferNodesFromM_uses hL.2.1 (hslots hp hu) ht hn).weaken
  have hone : ∀ {u : Treap} {T : SlotTree}, u.Linked T → T.labels.Perm (List.range u.size) → u.size ≤ TREAP_NODES →
      Uses True (transferNodesFromM empty u u.root >>= fun q =>
        modifyM { q.2 with root := q.1 } q.1 (fun d => d.withParent NullNode)) (fun _ => True) := by
    intro u T hL hp hs
    refine .bind (htransfer hL hp empty_closed (by omega)) fun q hq => ?_
    have hmod : Uses False _ _ := (hq.2.setRoot hq.1).modifyM hq.1 (fun _ hd => hd.withParent null_ref) fun h => h.elim
    exact hmod.weaken.mono fun _ _ => trivial
  refine .ite (fun _ => .raise) fun hsize => .bind NewM_uses fun t ht => .ite (fun _ => .pure trivial) fun _ => ?_
  subst ht
  refine .ite (fun _ => hone hLl hpl hsl) fun _ => .ite (fun _ => hone hLr hpr hsr) fun _ => ?_
  refine .bind (htransfer hLl hpl empty_closed (by omega)) fun q hq => ?_
  refine .bind (htransfer hLr hpr hq.2 (by omega)) fun q' hq' => ?_
  exact hq'.2.joinRootsM (hq.1.mono (by omega)) hq'.1

theorem valuesM_uses (hn : n ≤ TREAP_NODES) : Uses False (valuesM t n) (fun _ => True) := by
  induction n with
  | zero => exact .pure trivial
  | succ n ih =>
      refine .bind (ih (by omega)) fun _ _ => .bind (getM_slot fun k hk => ?_) fun _ _ => .pure trivial
      cases hk
      exact .inl hn

theorem getMedianValM_uses (hsize : t.size ≤ TREAP_NODES) : Uses False (getMedianValM t) (fun _ => True) := by
  have hat : ∀ x : Except Fault ℤ, Uses False (Prog.ofExcept x) (fun _ => True) := by
    intro x
    cases x with
    | ok v => exact .pure trivial
    | error e => exact .raise
  refine .ite (fun _ => .raise) fun _ => .bind (valuesM_uses hsize) fun _ _ => .ite (fun _ => ?_) fun _ => hat _
  exact .bind (hat _) fun _ _ => .bind (hat _) fun _ _ => .pure trivial

theorem Closed.insertControlM (h : Closed False n t) (val : ℤ) : Uses True (insertControlM t val) (Closed True n) := by
  refine .bind (h.addDummy val null_ref null_ref) fun t₁ h₁ => .bind (h₁.bstInsertLoopM loopFuel control_ref h₁.root) fun t₂ h₂ => ?_
  exact h₂.moveUpLoopM loopFuel control_ref

theorem splitM_uses {vs : List ℤ} (h : t.Stores vs) : Uses True (splitM t) (fun _ => True) := by
  have hclosed := h.closed
  obtain ⟨T, hL, hp, hsize, hw, _⟩ := h
  refine .ite (fun _ => .raise) fun hne => .bind NewM_uses fun l hl => .bind NewM_uses fun r hr => ?_
  subst hl hr
  refine .bind (getMedianValM_uses hsize).weaken fun m _ => ?_
  -- the working treap is the one of the specification
  have hroot : t.root ≠ NullNode := fun he => by
    have hlen := hp.length_eq
    rw [List.length_range] at hlen
    rw [hL.1] at he
    rw [top_eq_null he] at hlen
    exact hne hlen.symm
  obtain ⟨w, hrun, hlink, _⟩ := insertControl_spec m hL hp hsize hw hroot
  have hwork : Uses True (insertControlM t m) (fun t' => Closed True t.size t' ∧ t' = w) := by
    refine (hclosed.insertControlM m).of_run fun env t' env' hr => ⟨((hclosed.insertControlM m) env).2 t' env' hr, ?_⟩
    rw [insertControlM_computes, hrun] at hr
    cases hr
    rfl
  refine .bind hwork fun t' ht' => ?_
  obtain ⟨hcl, rfl⟩ := ht'
  obtain ⟨_, _, hl, hr, hSL, hSR⟩ := hlink.2.1
  have hlab := labels_cut (fun s => m < t.vals s) T
  generalize cut (fun s => m < t.vals s) T = parts at *
  obtain ⟨L, R⟩ := parts
  have hlen : L.labels.length + R.labels.length = t.size := by
    rw [← List.length_append, hlab, hp.length_eq, List.length_range]
  have hslots : ∀ s ∈ L.labels ++ R.labels, s < TREAP_NODES := by
    intro s hs
    rw [hlab] at hs
    exact lt_of_lt_of_le (List.mem_range.mp (hp.mem_iff.mp hs)) hsize
  have hlenL : L.labels.length ≤ TREAP_NODES := by omega
  have hlenR : R.labels.length ≤ TREAP_NODES := by omega
  have hget : Uses True (getM t' ControlNode) (fun d => d = t'.nodes TREAP_NODES) := by
    refine (getM_slot fun k hk => ?_).mono fun d hd => ?_
    · cases hk
      exact .inr ⟨trivial, rfl, hcl.light trivial⟩
    · obtain ⟨k, hk, rfl⟩ := hd
      cases hk
      rfl
  refine .bind hget fun d hd => ?_
  rw [hd, hl]
  refine .bind (splitSideM_uses hSL (fun s hs => hslots s (List.mem_append_left _ hs)) hlenL).weaken fun _ _ => ?_
  refine .bind hget fun d hd => ?_
  rw [hd, hr]
  refine .bind (splitSideM_uses hSR (fun s hs => hslots s (List.mem_append_right _ hs)) hlenR).weaken fun _ _ => ?_
  exact .pure trivial

/-! ### Whole runs -/

/-- The operation returns, or it throws what is documented or what the pool throws. -/
def Ends {α : Type} (documented : Exn → Prop) (m : TreapM α) : Prop :=
  ∀ env, (∃ a env', m env = (.ok a, env')) ∨
    ∃ x env', m env = (.error (.exn x), env') ∧ (documented x ∨ ∃ k, env.news k = some x)

/-- An operation `m` whose accesses `p` performs: it returns or throws what is documented or what
the pool throws, and all indices on the way are inside the array. -/
structure RunsInside {α : Type} (dummy : Prop) (documented : Exn → Prop) (p : ArrayM α) (m : TreapM α) : Prop where
  computes : Computes p m
  ends : Ends documented m
  inside : ∀ env, ∀ o ∈ p.performed ArrayOp.exec env, o.Inside dummy

/-- An operation that ends without undefined behaviour uses no `NullNode`. -/
theorem Uses.runsInside {α : Type} {p : ArrayM α} {m : TreapM α} {post : α → Prop} {documented : Exn → Prop}
    (h : Uses dummy p post) (hc : Computes p m) (hends : Ends documented m) : RunsInside dummy documented p m := by
  refine ⟨hc, hends, fun env o ho => ?_⟩
  obtain ⟨env₁, hexec⟩ := Prog.exec_of_mem_performed ArrayOp.exec ho
  have hdefined : o.exec env₁ ≠ .error .undefinedBehaviour := by
    intro hub
    obtain ⟨x, hx⟩ | ⟨e, he, hrun⟩ := hexec
    · cases hx.symm.trans hub
    · cases he.symm.trans hub
      rw [hc env] at hrun
      unfold outcome at hrun
      obtain ⟨a, env', hm⟩ | ⟨x, env', hm, _⟩ := hends env
      · rw [hm] at hrun
        cases hrun
      · rw [hm] at hrun
        cases hrun
  exact ((h env).1 o ho).inside hdefined

theorem ends_of_yields {α : Type} {m : TreapM α} {Q : α → Prop} {documented : Exn → Prop} (h : Yields m Q) :
    Ends documented m := by
  intro env
  obtain ⟨env', _, ⟨a, ha, _⟩ | ⟨x, k, hx, hk⟩⟩ := h env
  · exact .inl ⟨a, env', ha⟩
  · exact .inr ⟨x, env', hx, .inr ⟨k, hk⟩⟩

theorem ends_of_ok {α : Type} {x : Except Fault α} {a : α} {documented : Exn → Prop} (h : x = .ok a) :
    Ends documented (liftArray x) := fun env => .inl ⟨a, env, by rw [h]; rfl⟩

/-- Every operation on reached treaps ends, with the exceptions documented, and uses only slots of
the array on the way; only `split` and `merge` use the slot `TREAP_NODES`, and only for a node of the
weight of the dummy node. -/
theorem operations_inside {t l r : Treap} (ht : Reached t) (hl : Reached l) (hr : Reached r) (v min max : ℤ) :
    RunsInside False (fun x => t.size = TREAP_NODES ∧ x = .outOfRange "Treap is full") (immutableInsertM t v)
      (t.immutableInsert v) ∧
    RunsInside False (fun _ => False) (immutableRemoveM t v) (t.immutableRemove v) ∧
    RunsInside False (fun _ => False) (containsM t v) (liftArray (t.contains v)) ∧
    RunsInside False (fun _ => False) (rangeQueryM t min max) (liftArray (t.rangeQuery min max)) ∧
    RunsInside False (fun x => t.size = 0 ∧ x = .logicError "Cannot get the maximum value of an empty treap") (getMaxValueM t)
      (liftArray t.getMaxValue) ∧
    RunsInside True (fun x => t.size = 0 ∧ x = .logicError "An empty treap cannot be split") (splitM t) t.split ∧
    RunsInside True (fun x => TREAP_NODES < l.size + r.size ∧
      x = .invalidArgument ("Merging these treaps would overflow the new treap. (Sizes: " ++ toString l.size ++ ", " ++
        toString r.size ++ ")")) (mergeM l r) (merge l r) := by
  obtain ⟨vs, hst, _⟩ := ht.stores
  obtain ⟨ls, hstl, _⟩ := hl.stores
  obtain ⟨rs, hstr, _⟩ := hr.stores
  have hc := hst.closed
  have hempty : ¬ t.size = 0 → vs ≠ [] := fun hz he => hz (by rw [← hst.length, he]; rfl)
  refine ⟨?_, ?_, ?_, ?_, ?_, ?_, ?_⟩
  · refine (hc.immutableInsertM v).runsInside (immutableInsertM_computes t v) fun env => ?_
    by_cases hfull : t.size = TREAP_NODES
    · obtain ⟨env', _, ⟨t', ht', rfl⟩ | ⟨x, k, hx, hk⟩⟩ := NewCopy_yields t env
      · exact .inr ⟨_, env', (TreapM.bind_ok ht').trans (insert_full v hfull env'), .inl ⟨hfull, rfl⟩⟩
      · exact .inr ⟨x, env', TreapM.bind_error hx, .inr ⟨k, hk⟩⟩
    · exact ends_of_yields (immutableInsert_yields v hst (lt_of_le_of_ne hst.size_le hfull)) env
  · exact (hc.immutableRemoveM v).runsInside (immutableRemoveM_computes t v) (ends_of_yields (immutableRemove_yields v hst))
  · obtain ⟨b, hb, _⟩ := contains_spec v hst
    exact (hc.containsM v).runsInside (containsM_computes t v) (ends_of_ok hb)
  · obtain ⟨ws, hws, _⟩ := rangeQuery_stores min max hst
    exact (hc.rangeQueryM min max).runsInside (rangeQueryM_computes t min max) (ends_of_ok hws)
  · refine hc.getMaxValueM.runsInside (getMaxValueM_computes t) fun env => ?_
    by_cases hz : t.size = 0
    · exact .inr ⟨_, env, by rw [getMaxValue, if_pos hz]; rfl, .inl ⟨hz, rfl⟩⟩
    · obtain ⟨m, _, hm⟩ := getMaxValue_spec hst (hempty hz)
      exact ends_of_ok hm env
  · refine (splitM_uses hst).runsInside (splitM_computes t hst.size_le) fun env => ?_
    by_cases hz : t.size = 0
    · exact .inr ⟨_, env, split_empty hz env, .inl ⟨hz, rfl⟩⟩
    · exact ends_of_yields (split_yields hst (hempty hz)) env
  · refine (mergeM_uses hstl hstr).runsInside (mergeM_computes l r) fun env => ?_
    by_cases hsize : TREAP_NODES < l.size + r.size
    · exact .inr ⟨_, env, merge_overflow hsize env, .inl ⟨hsize, rfl⟩⟩
    · exact ends_of_yields (merge_yields hstl hstr (not_lt.mp hsize)) env

theorem operations_inside_fill :
    RunsInside True (fun x => TREAP_NODES < (fill [4, 1] (poolEnv fun _ => ⟨0, zero_drawn⟩)).1.size +
        (fill [9, 4] (poolEnv fun _ => ⟨0, zero_drawn⟩)).1.size ∧
      x = .invalidArgument ("Merging these treaps would overflow the new treap. (Sizes: " ++
        toString (fill [4, 1] (poolEnv fun _ => ⟨0, zero_drawn⟩)).1.size ++ ", " ++
        toString (fill [9, 4] (poolEnv fun _ => ⟨0, zero_drawn⟩)).1.size ++ ")"))
      (mergeM (fill [4, 1] (poolEnv fun _ => ⟨0, zero_drawn⟩)).1 (fill [9, 4] (poolEnv fun _ => ⟨0, zero_drawn⟩)).1)
      (merge (fill [4, 1] (poolEnv fun _ => ⟨0, zero_drawn⟩)).1 (fill [9, 4] (poolEnv fun _ => ⟨0, zero_drawn⟩)).1) :=
  (operations_inside .empty (fill_reached [4, 1] _) (fill_reached [9, 4] _) 0 0 0).2.2.2.2.2.2

end Treap

end LockFreeSearchTree
