import LockFreeSearchTree.Lfca

/-! # What joins rely on

The invariant of the lock-free tree under any interleaving of its functions, as far as joins need it,
and what a step of one thread spares the others.

* **Graph.** The pointers between the nodes and their plain fields (`Graph`); a `Slot` is the root or a
  child pointer.  The ghost value notes which thread has taken a node from the pool, and which route
  nodes have been unlinked (`Ghost`).
* **Joins.** A join is undecided until its main node has `neigh2` set to the merged node; from then on
  it is final.  As long as the parent of a final join has not been unlinked, the join is entered in the
  parent and in the grandparent, and the parent is where the join has found it (`Secured`).
* **Steps.** `Spares u` says what a step of another thread leaves the thread `u`. -/

namespace LockFreeSearchTree

open BinTree Concurrent

namespace Lfca

/-! ### Graphs -/

/-- The plain fields that are never assigned after a node has been published. -/
def Plain.bare (p : Plain) : Plain := { p with gparent := nullptr, otherb := nullptr, neigh1 := nullptr }

def Plain.assign (p : Plain) : PlainField → Ptr → Plain
  | .gparent, q => { p with gparent := q }
  | .otherb, q => { p with otherb := q }
  | .neigh1, q => { p with neigh1 := q }

@[simp] theorem Plain.bare_assign (p : Plain) (f : PlainField) (q : Ptr) : (p.assign f q).bare = p.bare := by
  cases f <;> rfl

/-- The root, the plain fields of the nodes and the pointers between them. -/
structure Graph where
  root : Ptr
  next : Ptr
  plain : Ptr → Plain
  get : Ptr → Field → Ptr

def Shared.graph (s : Shared) : Graph := ⟨s.root, s.next, fun p => (s.nodes p).toPlain, fun p f => (s.nodes p).get f⟩

/-- A place a pointer to a node of the tree is in. -/
inductive Slot where
  | root
  | child (q : Ptr) (d : Side)
deriving DecidableEq

namespace Graph

variable (v : Graph)

def Allocated (p : Ptr) : Prop := firstPtr ≤ p ∧ p < v.next

instance (p : Ptr) : Decidable (v.Allocated p) := inferInstanceAs (Decidable (_ ∧ _))

def HasType (p : Ptr) (k : NodeType) : Prop := v.Allocated p ∧ (v.plain p).type = k

instance (p : Ptr) (k : NodeType) : Decidable (v.HasType p k) := inferInstanceAs (Decidable (_ ∧ _))

def BaseNode (p : Ptr) : Prop := v.Allocated p ∧ (v.plain p).type ≠ .route

/-- What the slot points to. -/
def look : Slot → Ptr
  | .root => v.root
  | .child q d => v.get q (.child d)

/-- The slot is the root, or that of a node from the pool. -/
def On : Slot → Prop
  | .root => True
  | .child q _ => v.Allocated q

def set (q : Ptr) (f : Field) (p : Ptr) : Graph :=
  { v with get := Function.update v.get q (Function.update (v.get q) f p) }

def put (p : Ptr) : Slot → Graph
  | .root => { v with root := p }
  | .child q d => v.set q (.child d) p

def assign (m : Ptr) (f : PlainField) (q : Ptr) : Graph :=
  { v with plain := Function.update v.plain m ((v.plain m).assign f q) }

/-- The merged node of the join `m` has been set. -/
def Merged (m : Ptr) : Prop := v.HasType (v.get m .neigh2) .joinNeighbor ∧ (v.plain (v.get m .neigh2)).mainNode = m

instance (m : Ptr) : Decidable (v.Merged m) := inferInstanceAs (Decidable (_ ∧ _))

def Undecided (m : Ptr) : Prop := v.get m .neigh2 = PREPARING ∨ v.get m .neigh2 = ABORTED

def Final (m : Ptr) : Prop := v.Merged m ∨ v.get m .neigh2 = DONE

/-- The slot is one the join `m` has found its parent in, if its grandparent is `gparent`. -/
def Over (m : Ptr) : Slot → Prop
  | .root => (v.plain m).gparent = nullptr
  | .child q _ => (v.plain m).gparent = q ∧ q ≠ nullptr

variable {v}

theorem Allocated.ne_null {p : Ptr} (h : v.Allocated p) : p ≠ nullptr := by
  rintro rfl
  exact absurd h.1 (by decide)

theorem Merged.neigh2_ne {m : Ptr} (h : v.Merged m) :
    v.get m .neigh2 ≠ PREPARING ∧ v.get m .neigh2 ≠ ABORTED ∧ v.get m .neigh2 ≠ DONE := by
  obtain ⟨⟨⟨h, _⟩, _⟩, _⟩ := h
  refine ⟨?_, ?_, ?_⟩ <;> intro he <;> rw [he] at h <;> exact absurd h (by decide)

theorem Undecided.not_final {m : Ptr} (h : v.Undecided m) : ¬ v.Final m := by
  rintro (hm | hd)
  · obtain ⟨h₁, h₂, _⟩ := hm.neigh2_ne
    exact h.elim h₁ h₂
  · unfold Undecided at h
    rw [hd] at h
    exact absurd h (by decide)

theorem BaseNode.ne_route {p q : Ptr} (h : v.BaseNode p) (hq : v.HasType q .route) : p ≠ q := by
  rintro rfl
  exact h.2 hq.2

theorem HasType.base {p : Ptr} {k : NodeType} (h : v.HasType p k) (hk : k ≠ .route) : v.BaseNode p := ⟨h.1, h.2 ▸ hk⟩

/-! ### Changes of a slot -/

theorem look_put (σ τ : Slot) (p : Ptr) : (v.put p σ).look τ = if τ = σ then p else v.look τ := by
  cases σ with
  | root => cases τ <;> simp [put, look]
  | child q d =>
      cases τ with
      | root => simp [put, look, set]
      | child q' d' =>
          by_cases hq : q' = q
          · subst hq
            by_cases hd : d' = d
            · subst hd
              simp [put, look, set]
            · simp [put, look, set, hd]
          · simp [put, look, set, hq]

theorem look_put_self (σ : Slot) (p : Ptr) : (v.put p σ).look σ = p := by rw [look_put, if_pos rfl]

theorem look_put_ne {σ τ : Slot} (p : Ptr) (h : τ ≠ σ) : (v.put p σ).look τ = v.look τ := by rw [look_put, if_neg h]

@[simp] theorem next_put (σ : Slot) (p : Ptr) : (v.put p σ).next = v.next := by cases σ <;> rfl

@[simp] theorem plain_put (σ : Slot) (p : Ptr) : (v.put p σ).plain = v.plain := by cases σ <;> rfl

theorem get_put {σ : Slot} {p q : Ptr} {f : Field} (h : ∀ d, f ≠ .child d) : (v.put p σ).get q f = v.get q f := by
  cases σ with
  | root => rfl
  | child q' d =>
      by_cases hq : q = q'
      · subst hq
        simp [put, set, h d]
      · simp [put, set, hq]

@[simp] theorem next_set (q : Ptr) (f : Field) (p : Ptr) : (v.set q f p).next = v.next := rfl

@[simp] theorem plain_set (q : Ptr) (f : Field) (p : Ptr) : (v.set q f p).plain = v.plain := rfl

theorem get_set_self (q : Ptr) (f : Field) (p : Ptr) : (v.set q f p).get q f = p := by simp [set]

theorem get_set_ne {q q' : Ptr} {f f' : Field} (p : Ptr) (h : q' ≠ q ∨ f' ≠ f) : (v.set q f p).get q' f' = v.get q' f' := by
  by_cases hq : q' = q
  · subst hq
    simp [set, h.resolve_left (by simp)]
  · simp [set, hq]

theorem look_set {q p : Ptr} {f : Field} (h : ∀ d, f ≠ .child d) (σ : Slot) : (v.set q f p).look σ = v.look σ := by
  cases σ with
  | root => rfl
  | child q' d => exact get_set_ne p (.inr (h d).symm)

@[simp] theorem next_assign (m : Ptr) (f : PlainField) (q : Ptr) : (v.assign m f q).next = v.next := rfl

@[simp] theorem get_assign (m : Ptr) (f : PlainField) (q : Ptr) : (v.assign m f q).get = v.get := rfl

@[simp] theorem look_assign (m : Ptr) (f : PlainField) (q : Ptr) : (v.assign m f q).look = v.look := by
  funext σ
  cases σ <;> rfl

theorem plain_assign_ne {m p : Ptr} (f : PlainField) (q : Ptr) (h : p ≠ m) : (v.assign m f q).plain p = v.plain p :=
  Function.update_of_ne h _ _

theorem plain_assign_self (m : Ptr) (f : PlainField) (q : Ptr) : (v.assign m f q).plain m = (v.plain m).assign f q :=
  Function.update_self _ _ _

theorem bare_assign (m p : Ptr) (f : PlainField) (q : Ptr) : ((v.assign m f q).plain p).bare = (v.plain p).bare := by
  by_cases h : p = m
  · rw [h, plain_assign_self, Plain.bare_assign]
  · rw [plain_assign_ne f q h]

end Graph

/-! ### The invariant -/

/-- The thread that has taken each node from the pool, and the route nodes that have been unlinked. -/
structure Ghost where
  owner : Ptr → ℕ
  retired : Ptr → Prop

/-- A slot of the tree, or of a subtree that is yet to be linked. -/
def Live (v : Graph) (g : Ghost) : Slot → Prop
  | .root => True
  | .child q _ => v.Allocated q ∧ ¬ g.retired q

/-- The join `m` is entered in its parent and grandparent, and these are linked as it has found them. -/
structure Secured (v : Graph) (g : Ghost) (m : Ptr) : Prop where
  parentLock : v.get (v.plain m).parent .joinId = m
  grandLock : (v.plain m).gparent ≠ nullptr → v.get (v.plain m).gparent .joinId = m
  slot : ∃ σ, v.Over m σ ∧ Live v g σ ∧ v.look σ = (v.plain m).parent
  sibling : v.HasType (v.plain m).otherb .route → ∃ d, v.get (v.plain m).parent (.child d) = (v.plain m).otherb

/-- What is known of a join whose merged node has been set. -/
structure Joined (v : Graph) (g : Ghost) (m : Ptr) : Prop where
  parent : v.HasType (v.plain m).parent .route
  overSlot : ∀ σ, v.Over m σ → v.On σ
  distinct : (v.plain m).gparent ≠ (v.plain m).parent
  otherb : v.Allocated (v.plain m).otherb
  neigh1 : v.BaseNode (v.plain m).neigh1
  done : v.get m .neigh2 = DONE → g.retired (v.plain m).parent
  unlinked : g.retired (v.plain m).parent → ∀ σ, v.Over m σ → v.look σ ≠ (v.plain m).parent
  secured : ¬ g.retired (v.plain m).parent → Secured v g m
  /-- The merged node is another one than the neighbor. -/
  merged : v.get m .neigh2 ≠ (v.plain m).neigh1

structure Inv (v : Graph) (g : Ghost) : Prop where
  root : v.Allocated v.root
  inner : ∀ q d, v.HasType q .route → v.Allocated (v.get q (.child d))
  leaf : ∀ q d, v.BaseNode q → v.get q (.child d) = nullptr
  normal : ∀ b, v.HasType b .normal → v.get b .neigh2 = PREPARING
  phase : ∀ m, v.HasType m .joinMain → v.Undecided m ∨ v.Final m
  joined : ∀ m, v.HasType m .joinMain → v.Final m → Joined v g m
  unique : ∀ σ τ, Live v g σ → Live v g τ → v.HasType (v.look σ) .route → v.look σ = v.look τ → σ = τ
  live : ∀ σ, Live v g σ → ¬ g.retired (v.look σ)
  retired : ∀ p, g.retired p → v.HasType p .route ∧
    ∃ m, v.HasType m .joinMain ∧ v.Final m ∧ (v.plain m).parent = p ∧ v.get p .joinId = m

/-- What may become of `neigh2` of the node `m`; only its owner may set the merged node. -/
def Moves (v v' : Graph) (mine : Prop) (m : Ptr) : Prop :=
  v'.get m .neigh2 = v.get m .neigh2 ∨ v.HasType m .joinMain ∧
    (v.get m .neigh2 = PREPARING ∧ (v'.get m .neigh2 = ABORTED ∨ ¬ mine ∧ v'.Merged m) ∨
      v.Merged m ∧ v'.get m .neigh2 = DONE)

/-- What a step of another thread leaves the thread `u`. -/
structure Spares (u : ℕ) (v : Graph) (g : Ghost) (v' : Graph) (g' : Ghost) : Prop where
  next : v.next ≤ v'.next
  bare : ∀ p, v.Allocated p → (v'.plain p).bare = (v.plain p).bare
  notes : ∀ m, v.Allocated m → g.owner m = u ∨ v.Final m → v'.plain m = v.plain m
  owner : ∀ p, v.Allocated p → g'.owner p = g.owner p
  neigh2 : ∀ m, v.Allocated m → Moves v v' (g.owner m = u) m
  lock : ∀ q m, v.Allocated q → v.get q .joinId = m → v.HasType m .joinMain → g.owner m = u → v.Undecided m →
    v'.get q .joinId = m
  retired : ∀ p, g.retired p → g'.retired p
  retires : ∀ p, g'.retired p → g.retired p ∨
    ∃ m, v.HasType m .joinMain ∧ v.Final m ∧ (v.plain m).parent = p ∧ v.get p .joinId = m
  link : ∀ σ, Live v g σ → v.HasType (v.look σ) .route → v'.look σ = v.look σ ∨ g'.retired (v.look σ) ∧
    ∀ q d, σ = .child q d → v.HasType (v.get q .joinId) .joinMain ∧ v.Final (v.get q .joinId)
  fresh : ∀ r, v.HasType r .route → g.owner r = u → (∀ σ, v.On σ → v.look σ ≠ r) → ∀ σ, v'.On σ → v'.look σ ≠ r

variable {v v' : Graph} {g g' : Ghost} {u t : ℕ} {m n p q r : Ptr} {σ τ : Slot}

theorem Live.on (h : Live v g σ) : v.On σ := by
  cases σ with
  | root => trivial
  | child q d => exact h.1

theorem Inv.look_allocated (h : Inv v g) (hσ : v.On σ) (hne : v.look σ ≠ nullptr) : v.Allocated (v.look σ) := by
  cases σ with
  | root => exact h.root
  | child q d =>
      by_cases hq : (v.plain q).type = .route
      · exact h.inner q d ⟨hσ, hq⟩
      · exact absurd (h.leaf q d ⟨hσ, hq⟩) hne

/-- A node that has a child is a route node. -/
theorem Inv.route_of_child {d : Side} (h : Inv v g) (hq : v.Allocated q) (hc : v.Allocated (v.get q (.child d))) :
    v.HasType q .route := by
  by_contra hr
  have hl := h.leaf q d ⟨hq, fun ht => hr ⟨hq, ht⟩⟩
  rw [hl] at hc
  exact hc.ne_null rfl

/-- The slots a join may have found its parent in are all live if one is. -/
theorem Graph.Over.live (hσ : v.Over m σ) (hτ : v.Over m τ) (h : Live v g τ) : Live v g σ := by
  cases σ with
  | root => trivial
  | child q d =>
      cases τ with
      | root => exact absurd (hσ.1.symm.trans hτ) hσ.2
      | child q' d' =>
          have hq : q' = q := hτ.1.symm.trans hσ.1
          exact hq ▸ h

end Lfca

end LockFreeSearchTree
