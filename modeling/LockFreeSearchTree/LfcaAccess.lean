import LockFreeSearchTree.LfcaDecision
import LockFreeSearchTree.LfcaErrors

/-! # The accesses of the lock-free tree

What a thread of the lock-free tree may access, in any interleaving: the rules for the single
operations, given what is known of all runs from `LfcaDecision.lean` and `LfcaErrors.lean`.

* **Nodes.** `Proper` says of the plain fields of a node what the source relies on when it follows
  them: a base node has a treap, its parent is a route node or it is the root, and a neighbor in a
  join has a main node.  No node is ever marked as part of a range query, and the statistics stay
  near the bounds at which they are acted on.
* **Progress.** Nodes keep the fields that are not assigned after they have been published, the main
  node of a join that is on keeps all its fields, and results stay set (`Progress`).
* **Accesses.** `Op.Accesses` says which node or result storage an operation accesses; the operation
  is undefined behaviour if that has not been allocated. -/

namespace LockFreeSearchTree

open BinTree Concurrent

namespace Lfca

variable {v v' : Graph} {s₀ s s' : Shared} {n p q m b : Ptr} {t : Treap}

/-! ### Nodes -/

/-- The statistics are adjusted by one step beyond the bounds at which a base node is adapted. -/
def StatBound (x : ℤ) : Prop := LOW_CONT - LOW_CONT_CONTRIB ≤ x ∧ x ≤ HIGH_CONT + CONT_CONTRIB

/-- What the functions of the source rely on in the fields of a node. -/
structure Proper (v : Graph) (d : Plain) : Prop where
  type : d.type ≠ .range
  data : d.type ≠ .route → d.data ≠ none
  parent : d.type ≠ .route → d.parent = nullptr ∨ v.HasType d.parent .route
  inner : d.type = .joinMain → d.parent ≠ nullptr
  mainNode : d.type = .joinNeighbor → v.HasType d.mainNode .joinMain
  stat : StatBound d.stat

/-- All nodes are proper. -/
structure WellMade (s : Shared) : Prop where
  nodes : ∀ p, s.Allocated p → Proper s.graph (s.graph.plain p)
  nextStore : firstPtr ≤ s.nextStore

/-- How the nodes and the result storages develop. -/
structure Progress (s s' : Shared) : Prop where
  next : s.next ≤ s'.next
  bare : ∀ p, s.Allocated p → (s'.graph.plain p).bare = (s.graph.plain p).bare
  final : ∀ m, s.graph.HasType m .joinMain → s.graph.Final m → s'.graph.Final m ∧ s'.graph.plain m = s.graph.plain m
  nextStore : s.nextStore ≤ s'.nextStore
  results : ∀ p, (s.stores p).result ≠ none → (s'.stores p).result ≠ none

namespace Progress

theorem refl (s : Shared) : Progress s s := ⟨le_refl _, fun _ _ => rfl, fun _ _ h => ⟨h, rfl⟩, le_refl _, fun _ h => h⟩

theorem allocated (h : Progress s s') (hp : s.Allocated p) : s'.Allocated p := ⟨hp.1, hp.2.trans_le h.next⟩

theorem hasType {k : NodeType} (h : Progress s s') (hp : s.graph.HasType p k) : s'.graph.HasType p k :=
  ⟨h.allocated hp.1, (bare_type (h.bare p hp.1)).trans hp.2⟩

theorem baseNode (h : Progress s s') (hp : s.graph.BaseNode p) : s'.graph.BaseNode p :=
  ⟨h.allocated hp.1, fun ht => hp.2 ((bare_type (h.bare p hp.1)).symm.trans ht)⟩

theorem reads {a : Plain} (h : Progress s s') (hp : Reads p a s.graph) : Reads p a s'.graph :=
  ⟨h.allocated hp.1, (h.bare p hp.1).trans hp.2⟩

theorem trans {s'' : Shared} (h : Progress s s') (h' : Progress s' s'') : Progress s s'' where
  next := h.next.trans h'.next
  bare := fun p hp => (h'.bare p (h.allocated hp)).trans (h.bare p hp)
  final := fun m hm hf => by
    obtain ⟨hf', hp⟩ := h.final m hm hf
    obtain ⟨hf'', hp'⟩ := h'.final m (h.hasType hm) hf'
    exact ⟨hf'', hp'.trans hp⟩
  nextStore := h.nextStore.trans h'.nextStore
  results := fun p hp => h'.results p (h.results p hp)

theorem allocatedStore (h : Progress s s') (hp : s.AllocatedStore p) : s'.AllocatedStore p := ⟨hp.1, hp.2.trans_le h.nextStore⟩

end Progress

theorem Proper.progress {d : Plain} (h : Proper s.graph d) (hle : Progress s s') : Proper s'.graph d where
  type := h.type
  data := h.data
  parent := fun ht => (h.parent ht).imp_right hle.hasType
  inner := h.inner
  mainNode := fun ht => hle.hasType (h.mainNode ht)
  stat := h.stat

/-- The fields that may be assigned later do not matter. -/
theorem Proper.of_bare {d d' : Plain} (h : Proper v d) (hb : d'.bare = d.bare) : Proper v d' := by
  have hd : Proper v d.bare := ⟨h.type, h.data, h.parent, h.inner, h.mainNode, h.stat⟩
  rw [← hb] at hd
  exact ⟨hd.type, hd.data, hd.parent, hd.inner, hd.mainNode, hd.stat⟩

/-! ### The discipline -/

/-- Undefined behaviour is to be excluded, given the protocol of the joins and the sizes of the treaps. -/
def safety (s₀ : Shared) : Discipline Access Shared Fault where
  known := fun s => (∃ g, Inv s.graph g) ∧ Steady s₀ s
  moves := fun s s' => ∃ u g g', Inv s.graph g ∧ Spares u s.graph g s'.graph g'
  ready := fun a _ => a.op.Guarded
  inv := WellMade
  le := Progress
  le_refl := Progress.refl
  le_trans := Progress.trans
  fault := fun e => e ≠ .undefinedBehaviour

/-- A program that does not run into undefined behaviour, and whose result satisfies `post`. -/
abbrev Safe {α : Type} (s₀ : Shared) (p : LfcaM α) (post : α → Shared → Prop) (s : Shared) : Prop :=
  Follows exec (safety s₀) p post s

section Nodes

variable (h : (safety s₀).Good s)

include h

theorem node_proper (hp : s.Allocated p) : Proper s.graph (s.graph.plain p) := h.inv.nodes p hp

theorem root_allocated : s.graph.Allocated s.graph.root := by
  obtain ⟨g, hi⟩ := h.known.1
  exact hi.root

theorem child_allocated (d : Side) (hp : s.graph.HasType p .route) : s.graph.Allocated (s.graph.get p (.child d)) := by
  obtain ⟨g, hi⟩ := h.known.1
  exact hi.inner p d hp

/-- A node with a child is a route node. -/
theorem route_of_child {d : Side} (hp : s.Allocated p) (hne : s.graph.get p (.child d) ≠ nullptr) :
    s.graph.HasType p .route := by
  obtain ⟨g, hi⟩ := h.known.1
  by_contra hr
  exact hne (hi.leaf p d ⟨hp, fun ht => hr ⟨hp, ht⟩⟩)

theorem base_of_leaf {d : Side} (hp : s.Allocated p) (hnull : s.graph.get p (.child d) = nullptr) : s.graph.BaseNode p :=
  ⟨hp, fun ht => (child_allocated h d ⟨hp, ht⟩).ne_null hnull⟩

end Nodes

/-! ### Operations -/

/-- The node or the result storage that the operation accesses has been allocated. -/
def Op.Accesses (s : Shared) : Op → Prop
  | .plain n | .assign n _ _ | .load n _ | .store n _ _ | .cas n _ _ _ | .loadValid n | .storeValid n _ => s.Allocated n
  | .loadResult p | .casResult p _ | .loadMore p | .storeMore p _ => s.AllocatedStore p
  | _ => True

theorem Op.Accesses.progress {o : Op} (h : o.Accesses s) (hle : Progress s s') : o.Accesses s' := by
  cases o with
  | plain | assign | load | store | cas | loadValid | storeValid => exact hle.allocated h
  | loadResult | casResult | loadMore | storeMore => exact hle.allocatedStore h
  | _ => trivial

theorem onNode_allocated {α : Type} {x : α × Shared} (h : s.Allocated p) : onNode s p x = .ok x := if_pos h

theorem onStore_allocated {α : Type} {x : α × Shared} (h : s.AllocatedStore p) : onStore s p x = .ok x := if_pos h

/-- An operation that accesses what has been allocated does not fail, unless it takes something from a pool. -/
theorem Op.Simple.succeeds {o : Op} (h : o.Simple) (ha : o.Accesses s) (e : Fault) : o.exec s ≠ .error e := by
  cases o with
  | loadRoot | casRoot => exact fun he => by cases he
  | plain | assign | load | store | cas | loadValid | storeValid =>
      intro he
      cases (onNode_allocated ha).symm.trans he
  | loadResult | casResult | loadMore | storeMore =>
      intro he
      cases (onStore_allocated ha).symm.trans he
  | _ => exact h.elim

/-- The simple operations leave the results of range queries set. -/
theorem Op.Simple.stores {o : Op} (h : o.Simple) {r : o.Ret} (hexec : o.exec s = .ok (r, s')) :
    s'.nextStore = s.nextStore ∧ ∀ p, (s.stores p).result ≠ none → (s'.stores p).result ≠ none := by
  have hsame : s'.nextStore = s.nextStore ∧ s'.stores = s.stores →
      s'.nextStore = s.nextStore ∧ ∀ p, (s.stores p).result ≠ none → (s'.stores p).result ≠ none := by
    rintro ⟨hn, hst⟩
    rw [hst]
    exact ⟨hn, fun _ hp => hp⟩
  have hupdate : ∀ {q : Ptr} {f : Rs → Rs}, ((s.stores q).result ≠ none → (f (s.stores q)).result ≠ none) →
      ∀ p, (s.stores p).result ≠ none → ((s.updateStore q f).stores p).result ≠ none := by
    intro q f hf p hp
    by_cases hpq : p = q
    · subst hpq
      simpa [Shared.updateStore] using hf hp
    · simpa [Shared.updateStore, hpq] using hp
  cases o with
  | loadRoot =>
      cases hexec
      exact hsame ⟨rfl, rfl⟩
  | casRoot expected desired =>
      simp only [Op.exec] at hexec
      split_ifs at hexec <;> cases hexec <;> exact hsame ⟨rfl, rfl⟩
  | plain | assign | load | store | loadValid | storeValid =>
      cases (onNode_ok hexec).2
      exact hsame ⟨rfl, rfl⟩
  | cas n f expected desired =>
      have he := (onNode_ok hexec).2
      split_ifs at he <;> cases he <;> exact hsame ⟨rfl, rfl⟩
  | loadResult | loadMore =>
      cases onStore_ok hexec
      exact hsame ⟨rfl, rfl⟩
  | casResult q result =>
      have he := onStore_ok hexec
      split at he <;> cases he
      · exact ⟨rfl, hupdate (f := fun r => { r with result := some result }) fun _ => by simp⟩
      · exact hsame ⟨rfl, rfl⟩
  | storeMore q more =>
      cases onStore_ok hexec
      exact ⟨rfl, hupdate (f := fun r => { r with moreThanOneBase := more }) fun hne => hne⟩
  | _ => exact h.elim

theorem progress_of_moves (h : (safety s₀).moves s s') (hnext : s.nextStore ≤ s'.nextStore)
    (hres : ∀ p, (s.stores p).result ≠ none → (s'.stores p).result ≠ none) : Progress s s' := by
  obtain ⟨u, g, g', hi, hsp⟩ := h
  exact ⟨hsp.next, hsp.bare, fun m hm hf => ⟨hsp.final hm.1 hf, hsp.notes m hm.1 (.inr hf)⟩, hnext, hres⟩

theorem WellMade.progress (h : WellMade s) (hle : Progress s s')
    (hnew : ∀ p, s'.Allocated p → ¬ s.Allocated p → Proper s'.graph (s'.graph.plain p)) : WellMade s' := by
  refine ⟨fun p hp => ?_, h.nextStore.trans hle.nextStore⟩
  by_cases ha : s.Allocated p
  · exact ((h.nodes p ha).progress hle).of_bare (hle.bare p ha)
  · exact hnew p hp ha

/-- An operation that takes nothing from a pool, where it accesses what has been allocated. -/
theorem Op.Simple.safe {o : Op} (h : o.Simple) (ha : o.Accesses s) {caller : Option Ptr} {post : o.Ret → Shared → Prop}
    (hpost : ∀ s' r s'' s₃, Progress s s' → (safety s₀).Good s' → o.exec s' = .ok (r, s'') → Progress s'' s₃ →
      (safety s₀).Good s₃ → post r s₃) : Safe s₀ (Prog.perform (⟨o, caller⟩ : Access)) post s := by
  refine Follows.perform fun s' hle hs' _ => ⟨trivial, fun e he => ?_, fun r s'' hexec hknown hmoves => ?_⟩
  · exact absurd he (h.succeeds (ha.progress hle) e)
  · obtain ⟨hnext, hres⟩ := h.stores hexec
    have hle' := progress_of_moves hmoves hnext.ge hres
    have hsame : s''.next = s'.next := ((h.exec s').2 r s'' hexec).next
    refine ⟨hs'.inv.progress hle' fun p hp hold => absurd hp ?_, hle', fun s₃ hle₃ hs₃ => hpost s' r s'' s₃ hle hs' hexec hle₃ hs₃⟩
    unfold Shared.Allocated at hold ⊢
    rwa [hsame]

/-- An operation of whose result nothing is needed. -/
theorem Op.Simple.access {o : Op} (h : o.Simple) (ha : o.Accesses s) {caller : Option Ptr} :
    Safe s₀ (Prog.perform (⟨o, caller⟩ : Access)) (fun _ _ => True) s := h.safe ha fun _ _ _ _ _ _ _ _ _ => trivial

theorem loadRoot_safe : Safe s₀ loadRoot (fun r s => s.Allocated r) s := by
  refine Op.Simple.safe (o := .loadRoot) trivial trivial fun s' r s'' s₃ _ hs' hexec hle _ => ?_
  cases hexec
  exact hle.allocated (root_allocated hs')

theorem plain_safe (hn : s.Allocated n) : Safe s₀ (plain n) (fun a s => Reads n a s.graph ∧ Proper s.graph a) s := by
  refine Op.Simple.safe (o := .plain n) trivial hn fun s' a s'' s₃ _ hs' hexec hle _ => ?_
  obtain ⟨hn', he⟩ := onNode_ok hexec
  cases he
  exact ⟨hle.reads ⟨hn', rfl⟩, (node_proper hs' hn').progress hle⟩

/-- All fields of the main node of a join that is on. -/
theorem mainNode_safe (hm : s.graph.HasType m .joinMain) (hf : s.graph.Final m) :
    Safe s₀ (plain m) (fun a s => s.graph.Final m ∧ s.graph.plain m = a) s := by
  refine Op.Simple.safe (o := .plain m) trivial hm.1 fun s' a s'' s₃ hle hs' hexec hle' _ => ?_
  obtain ⟨_, he⟩ := onNode_ok hexec
  cases he
  exact hle'.final m (hle.hasType hm) (hle.final m hm hf).1

theorem load_safe {f : Field} (hn : s.Allocated n) : Safe s₀ (load n f) (fun _ _ => True) s :=
  Op.Simple.access (o := .load n f) trivial hn

theorem loadChild_safe {d : Side} (hn : s.graph.HasType n .route) : Safe s₀ (load n (.child d)) (fun r s => s.Allocated r) s := by
  refine Op.Simple.safe (o := .load n (.child d)) trivial hn.1 fun s' r s'' s₃ hle hs' hexec hle' _ => ?_
  obtain ⟨_, he⟩ := onNode_ok hexec
  cases he
  exact hle'.allocated (child_allocated hs' d (hle.hasType hn))

theorem allocs_stores (ns : List Node) (s : Shared) : (ns.foldl Shared.alloc s).stores = s.stores ∧
    (ns.foldl Shared.alloc s).nextStore = s.nextStore := by
  induction ns generalizing s with
  | nil => exact ⟨rfl, rfl⟩
  | cons d ns ih => exact ih (s.alloc d)

/-- Nodes from the pool that are proper once they are all there. -/
theorem news_safe {nodes : Ptr → List Node} (h : ∀ s' s'', Progress s s' → Progress s' s'' → firstPtr ≤ s'.next →
      (∀ i d, (nodes s'.next)[i]? = some d → Reads (s'.next + i) d.toPlain s''.graph) →
      ∀ d ∈ nodes s'.next, Proper s''.graph d.toPlain) :
    Safe s₀ (perform (.new nodes)) (fun r s => ∀ i d, (nodes r)[i]? = some d → Reads (r + i) d.toPlain s.graph) s := by
  refine Follows.perform fun s' hle hs' _ => ⟨trivial, fun e he => (by cases he), fun r s'' hexec hknown hmoves => ?_⟩
  cases hexec
  obtain ⟨_, hnext, hold, hnodes⟩ := allocs (nodes s'.next) s'
  obtain ⟨hstores, hnextStore⟩ := allocs_stores (nodes s'.next) s'
  have hle' := progress_of_moves hmoves hnextStore.ge fun p hp => by rwa [hstores]
  have hpos : firstPtr ≤ s'.next := hs'.known.2.next
  have hreads : ∀ i d, (nodes s'.next)[i]? = some d →
      Reads (s'.next + i) d.toPlain ((nodes s'.next).foldl Shared.alloc s').graph := by
    intro i d hd
    refine ⟨⟨Nat.le_add_right_of_le hpos, ?_⟩, congrArg (fun d : Node => d.toPlain.bare) (hnodes i d hd)⟩
    show s'.next + i < ((nodes s'.next).foldl Shared.alloc s').next
    rw [hnext]
    exact Nat.add_lt_add_left (List.getElem?_eq_some_iff.mp hd).1 _
  refine ⟨hs'.inv.progress hle' fun p hp hnot => ?_, hle', fun s₃ hle₃ _ i d hd => hle₃.reads (hreads i d hd)⟩
  obtain ⟨i, rfl⟩ := Nat.exists_eq_add_of_le (not_lt.mp fun hlt => hnot ⟨hp.1, hlt⟩)
  have hi : i < (nodes s'.next).length := by
    have hlt := hp.2
    rw [hnext] at hlt
    exact Nat.lt_of_add_lt_add_left hlt
  have hd := List.getElem?_eq_getElem hi
  exact (h s' _ hle hle' hpos hreads _ (List.getElem_mem hi)).of_bare (hreads i _ hd).2

/-- One new node. -/
theorem new_safe {d : Node} (hd : Proper s.graph d.toPlain) : Safe s₀ (new d) (fun r s => Reads r d.toPlain s.graph) s := by
  refine Follows.mono (news_safe fun s' s'' hle hle' _ _ d' hd' => ?_) fun r s' _ _ h => h 0 d rfl
  cases List.mem_singleton.mp hd'
  exact hd.progress (hle.trans hle')

/-- An operation on the pools. -/
theorem fromPool_safe {o : PoolOp} {Q : o.Val → Prop} (hs : (safety s₀).Good s) (ho : (Op.pool o).Guarded → o.Gives Q) :
    Safe s₀ (fromPool o) (fun r _ => Q r) s := by
  refine fromPool_follows hs (fun _ hready => ⟨trivial, ho hready⟩) (fun s P hs _ hmoves => ?_) fun _ _ _ _ h => by cases h
  have hle := progress_of_moves hmoves (le_refl _) fun p hp => hp
  exact ⟨hs.inv.progress hle fun p hp hnot => absurd hp hnot, hle⟩

theorem node_safe (hs : (safety s₀).Good s) : Safe s₀ (fromPool .node) (fun _ _ => True) s :=
  fromPool_safe hs fun _ => PoolOp.gives_node

/-- An operation on a treap; where it is performed, it is within its guard. -/
theorem treap_safe {o : PoolOp} {f : TreapM o.Val} {Q : o.Val → Prop} (hs : (safety s₀).Good s)
    (ho : ∀ P, o.exec P = PoolOp.onTreaps P f) (hf : (Op.pool o).Guarded → Yields f Q) :
    Safe s₀ (fromPool o) (fun r _ => Q r) s := fromPool_safe hs fun hg => PoolOp.gives_of_yields ho (hf hg)

theorem newRs_safe (hs : (safety s₀).Good s) : Safe s₀ newRs (fun r s => s.AllocatedStore r) s := by
  refine .bind hs (fromPool_safe hs fun _ => PoolOp.gives_rs) fun _ _ _ _ _ => Follows.perform fun s' hle hs' _ => ?_
  refine ⟨trivial, fun e he => (by cases he), fun r s'' hexec hknown hmoves => ?_⟩
  cases hexec
  have hle' := progress_of_moves hmoves (Nat.le_succ _) fun p hp => hp
  refine ⟨hs'.inv.progress hle' fun p hp hnot => absurd hp hnot, hle', fun s₃ hle₃ _ => hle₃.allocatedStore ?_⟩
  exact ⟨hs'.inv.nextStore, Nat.lt_succ_self _⟩

end Lfca

end LockFreeSearchTree
