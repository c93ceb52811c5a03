import LockFreeSearchTree.TreapSplit

/-! # Treaps reached by their operations

* **Reading the array.** `tree` is the tree of slots linked from the root, `slots` lists them in
  order, `inOrder` their values; all are read off the links alone.
* **Reachability.** `Reached t`: some sequence of operations makes `t` from the empty treap, with
  any weights drawn on the way; two treaps are merged only where their sizes fit and no value of
  the left one is above one of the right one.  `ReachedBy` restricts the splits and merges.
* **Results.** A reached treap stores its values in order (`Reached.stores`); from this follow its
  well-formedness and what insertion, removal, search, range queries, split, merge and the median
  do on it.  `transferNodesFrom` copies subtrees of any linked treap. -/

namespace LockFreeSearchTree

open BinTree

namespace Treap

/-! ### Reading the array -/

/-- The tree of slots linked below an index. -/
def treeBelow (t : Treap) : ℕ → TreapIndex → SlotTree
  | fuel + 1, some k => .node (t.treeBelow fuel (t.nodes k).left) k (t.treeBelow fuel (t.nodes k).right)
  | _, _ => .leaf ()

/-- The tree of slots linked from the root. -/
def tree (t : Treap) : SlotTree := t.treeBelow loopFuel t.root

/-- The tree of slots linked from a slot. -/
def subtree (t : Treap) (k : ℕ) : SlotTree := t.treeBelow loopFuel (some k)

/-- The slots linked from the root, in order. -/
def slots (t : Treap) : List ℕ := t.tree.labels

/-- The values of a treap, in order. -/
def inOrder (t : Treap) : List ℤ := t.slots.map t.vals

theorem treeBelow_eq {t : Treap} {T : SlotTree} : ∀ {fuel : ℕ} {p : TreapIndex}, Spans t.nodes p T →
    T.labels.length < fuel → t.treeBelow fuel (top T) = T := by
  induction T with
  | leaf u =>
      intro fuel p _ _
      cases fuel <;> rfl
  | node l s r ihl ihr =>
      intro fuel p h hf
      obtain ⟨f, rfl⟩ : ∃ f, fuel = f + 1 := ⟨fuel - 1, by omega⟩
      obtain ⟨_, _, hl, hr, hSl, hSr⟩ := h
      simp only [labels_node, List.length_append, List.length_cons] at hf
      rw [top_node, treeBelow, hl, hr, ihl hSl (by omega), ihr hSr (by omega)]

theorem Linked.tree {t : Treap} {T : SlotTree} (h : t.Linked T) : t.tree = T := by
  unfold Treap.tree
  rw [h.1]
  exact treeBelow_eq h.2.1 (Linked.length_le_of_subtree (C := []) h)

theorem Linked.slots {t : Treap} {T : SlotTree} (h : t.Linked T) : t.slots = T.labels := by
  rw [Treap.slots, h.tree]

theorem Stores.inOrder {t : Treap} {vs : List ℤ} (h : t.Stores vs) : t.inOrder = vs := by
  obtain ⟨T, hL, _, _, _, rfl⟩ := h
  rw [Treap.inOrder, hL.slots]

/-- The array of `t` is a search tree of the slots in use. -/
structure WellFormed (t : Treap) : Prop where
  size_le : t.size ≤ TREAP_NODES
  root_null : t.root = NullNode ↔ t.size = 0
  /-- Exactly the slots in use are linked, each once. -/
  slots_perm : t.slots.Perm (List.range t.size)
  parent_null : ∀ k < t.size, (t.nodes k).parent = NullNode ↔ t.root = some k
  parent_some : ∀ k < t.size, ∀ p, (t.nodes k).parent = some p ↔ p < t.size ∧ ∃ d, (t.nodes p).child d = some k
  control : t.root ≠ ControlNode ∧
    ∀ k < t.size, (t.nodes k).parent ≠ ControlNode ∧ ∀ d, (t.nodes k).child d ≠ ControlNode
  sorted : Sorted t.inOrder

/-! ### Links of a linked tree -/

theorem Linked.parent {t : Treap} {C : SlotCtx} {l r : SlotTree} {k : ℕ} (h : t.Linked (plug C (node l k r))) :
    (t.nodes k).parent = ctxTop C :=
  (linked_plug.mp h).2.1.2.1

theorem Linked.child {t : Treap} {C : SlotCtx} {l r : SlotTree} {k : ℕ} (d : Side)
    (h : t.Linked (plug C (on d l k r))) : (t.nodes k).child d = top l :=
  (spans_on.mp (linked_plug.mp h).2.1).2.2.1

/-- The children of a slot are linked below it. -/
theorem Linked.exists_child {t : Treap} {T : SlotTree} {p k : ℕ} {d : Side} (h : t.Linked T) (hp : p ∈ T.labels)
    (hk : (t.nodes p).child d = some k) : ∃ C s a b, T = plug (⟨d, p, s⟩ :: C) (node a k b) := by
  obtain ⟨C, l, r, rfl⟩ := exists_plug_of_mem_labels hp
  cases d with
  | left =>
      have htop : top l = some k := (h.child .left).symm.trans hk
      cases l with
      | leaf u => cases htop
      | node a x b =>
          cases htop
          exact ⟨C, r, a, b, rfl⟩
  | right =>
      have htop : top r = some k := (Linked.child .right (l := r) (r := l) h).symm.trans hk
      cases r with
      | leaf u => cases htop
      | node a x b =>
          cases htop
          exact ⟨C, l, a, b, rfl⟩

/-- The parent field of a linked slot is the inverse of the child links. -/
theorem Linked.parent_iff {t : Treap} {T : SlotTree} {k p : ℕ} (h : t.Linked T) (hk : k ∈ T.labels) :
    (t.nodes k).parent = some p ↔ p ∈ T.labels ∧ ∃ d, (t.nodes p).child d = some k := by
  constructor
  · intro hp
    obtain ⟨C, l, r, rfl⟩ := exists_plug_of_mem_labels hk
    cases C with
    | nil => cases h.parent.symm.trans hp
    | cons F C =>
        cases h.parent.symm.trans hp
        refine ⟨mem_labels_plug.mpr (.inr (mem_ctxLabels_cons.mpr (.inl rfl))), F.side, ?_⟩
        exact Linked.child (C := C) F.side h
  · rintro ⟨hp, d, hd⟩
    obtain ⟨C, s, a, b, rfl⟩ := h.exists_child hp hd
    exact h.parent

theorem Linked.parent_null_iff {t : Treap} {T : SlotTree} {k : ℕ} (h : t.Linked T) (hk : k ∈ T.labels) :
    (t.nodes k).parent = NullNode ↔ t.root = some k := by
  constructor
  · intro hp
    obtain ⟨C, l, r, rfl⟩ := exists_plug_of_mem_labels hk
    cases C with
    | nil => exact h.1
    | cons F C => cases h.parent.symm.trans hp
  · intro hroot
    cases T with
    | leaf u => cases hk
    | node l s r =>
        cases h.1.symm.trans hroot
        exact h.2.1.2.1

/-- Where values are stored in order, the array is a search tree. -/
theorem Stores.wellFormed {t : Treap} {vs : List ℤ} (h : t.Stores vs) (ho : Sorted vs) : t.WellFormed := by
  have hin := h.inOrder
  have hroot := h.root_eq_null
  obtain ⟨T, hL, hp, hsize, _, rfl⟩ := h
  have hmem : ∀ k, k ∈ T.labels ↔ k < t.size := fun k => by rw [hp.mem_iff, List.mem_range]
  have hnotC : ∀ k < t.size, some k ≠ ControlNode := fun k hk he => by
    have : k = TREAP_NODES := Option.some.inj he
    omega
  constructor
  · exact hsize
  · exact hroot
  · rw [hL.slots]
    exact hp
  · exact fun k hk => hL.parent_null_iff ((hmem k).mpr hk)
  · intro k hk p
    rw [hL.parent_iff ((hmem k).mpr hk), hmem]
  · constructor
    · rw [hL.1]
      cases T with
      | leaf u => simp [ControlNode]
      | node l s r => exact hnotC s ((hmem s).mp (by simp))
    · intro k hk
      constructor
      · intro he
        have := (hL.parent_iff ((hmem k).mpr hk)).mp he
        exact absurd rfl (hnotC _ ((hmem _).mp this.1))
      · intro d he
        obtain ⟨C, s, a, b, rfl⟩ := hL.exists_child ((hmem k).mpr hk) he
        exact absurd rfl (hnotC TREAP_NODES ((hmem _).mp (mem_labels_plug.mpr (.inl (by simp)))))
  · rw [hin]
    exact ho

theorem Linked.subtree {t : Treap} {C : SlotCtx} {l r : SlotTree} {k : ℕ} (h : t.Linked (plug C (node l k r))) :
    t.subtree k = node l k r :=
  treeBelow_eq (linked_plug.mp h).2.1 (Linked.length_le_of_subtree h)

/-! ### Reachability -/

/-- The treaps some sequence of operations makes from the empty one, where a treap is split, or
two are merged, only in environments the two predicates allow. -/
inductive ReachedBy (Splits : Treap → Env → Prop) (Merges : Treap → Treap → Env → Prop) : Treap → Prop
  | empty : ReachedBy Splits Merges empty
  | immutableInsert {t t' : Treap} {v : ℤ} {env env' : Env} : ReachedBy Splits Merges t →
      t.immutableInsert v env = (.ok t', env') → ReachedBy Splits Merges t'
  | immutableRemove {t t' : Treap} {v : ℤ} {success : Bool} {env env' : Env} : ReachedBy Splits Merges t →
      t.immutableRemove v env = (.ok (t', success), env') → ReachedBy Splits Merges t'
  | sequentialInsert {t t' : Treap} {v : ℤ} {env env' : Env} : ReachedBy Splits Merges t →
      t.sequentialInsert v env = (.ok t', env') → ReachedBy Splits Merges t'
  | sequentialRemove {t t' : Treap} {v : ℤ} {success : Bool} : ReachedBy Splits Merges t →
      t.sequentialRemove v = .ok (success, t') → ReachedBy Splits Merges t'
  | splitLeft {t l r : Treap} {s : ℤ} {env env' : Env} : ReachedBy Splits Merges t → Splits t env →
      t.split env = (.ok (s, l, r), env') → ReachedBy Splits Merges l
  | splitRight {t l r : Treap} {s : ℤ} {env env' : Env} : ReachedBy Splits Merges t → Splits t env →
      t.split env = (.ok (s, l, r), env') → ReachedBy Splits Merges r
  | merge {l r t : Treap} {env env' : Env} : ReachedBy Splits Merges l → ReachedBy Splits Merges r →
      l.size + r.size ≤ TREAP_NODES → (∀ v ∈ l.values, ∀ w ∈ r.values, v ≤ w) → Merges l r env →
      merge l r env = (.ok t, env') → ReachedBy Splits Merges t

/-- The treaps some sequence of operations makes from the empty one. -/
abbrev Reached : Treap → Prop := ReachedBy (fun _ _ => True) (fun _ _ _ => True)

/-- What one insertion preserves. -/
theorem Stores.insert {t t' : Treap} {vs : List ℤ} {v : ℤ} {env env' : Env} (h : t.Stores vs) (ho : Sorted vs)
    (hrun : t.insert v env = (.ok t', env')) : ∃ ws, t'.Stores ws ∧ Sorted ws := by
  by_cases hfull : t.size = TREAP_NODES
  · rw [insert_full v hfull] at hrun
    cases hrun
  · have hlt : t.size < TREAP_NODES := lt_of_le_of_ne h.size_le hfull
    obtain ⟨⟨as, bs, rfl, hst, hord⟩, _⟩ := (insert_yields v h hlt).of_ok hrun
    exact ⟨_, hst, Sorted.insert ho (hord ho).1 (hord ho).2⟩

/-- What one removal preserves. -/
theorem Stores.remove {t t' : Treap} {vs : List ℤ} {v : ℤ} {success : Bool} (h : t.Stores vs) (ho : Sorted vs)
    (hrun : t.remove v = .ok (success, t')) : ∃ ws, t'.Stores ws ∧ Sorted ws := by
  obtain ⟨b, t₁, ht₁, htrue, hfalse⟩ := remove_spec v h
  cases ht₁.symm.trans hrun
  cases success with
  | true =>
      obtain ⟨as, bs, rfl, hst⟩ := htrue rfl
      exact ⟨_, hst, Sorted.erase ho⟩
  | false =>
      obtain ⟨rfl, _⟩ := hfalse rfl
      exact ⟨vs, h, ho⟩

/-- What one split preserves. -/
theorem Stores.split {t l r : Treap} {vs : List ℤ} {s : ℤ} {env env' : Env} (h : t.Stores vs) (ho : Sorted vs)
    (hrun : t.split env = (.ok (s, l, r), env')) :
    ∃ ls rs, vs = ls ++ rs ∧ l.Stores ls ∧ r.Stores rs ∧ Sorted ls ∧ Sorted rs := by
  by_cases hne : vs = []
  · have hz : t.size = 0 := by rw [← h.length, hne]; rfl
    rw [split_empty hz] at hrun
    cases hrun
  · obtain ⟨⟨ls, rs, rfl, hl, hr, _⟩, _⟩ := (split_yields h hne).of_ok hrun
    obtain ⟨hol, hor, _⟩ := List.pairwise_append.mp ho
    exact ⟨ls, rs, rfl, hl, hr, hol, hor⟩

/-- What one merge preserves. -/
theorem Stores.merge {l r t : Treap} {vs ws : List ℤ} {env env' : Env} (hl : l.Stores vs) (hr : r.Stores ws)
    (hol : Sorted vs) (hor : Sorted ws) (hsize : l.size + r.size ≤ TREAP_NODES)
    (hle : ∀ v ∈ l.values, ∀ w ∈ r.values, v ≤ w) (hrun : merge l r env = (.ok t, env')) :
    t.Stores (vs ++ ws) ∧ Sorted (vs ++ ws) := by
  refine ⟨((merge_yields hl hr hsize).of_ok hrun).1, List.pairwise_append.mpr ⟨hol, hor, fun v hv w hw => ?_⟩⟩
  apply hle v
  · rw [hl.values]
    exact hv
  · rw [hr.values]
    exact hw

section

variable {Splits : Treap → Env → Prop} {Merges : Treap → Treap → Env → Prop}

theorem immutableInsert_ok {t t' : Treap} {v : ℤ} {env env' : Env} (h : t.immutableInsert v env = (.ok t', env')) :
    ∃ env₁, t.insert v env₁ = (.ok t', env') := by
  obtain ⟨env₁, _, ⟨t₁, ht₁, rfl⟩ | ⟨e, n, he, _⟩⟩ := NewCopy_yields t env
  · exact ⟨env₁, (TreapM.bind_ok ht₁).symm.trans h⟩
  · cases (TreapM.bind_error he).symm.trans h

theorem immutableRemove_ok {t t' : Treap} {v : ℤ} {success : Bool} {env env' : Env}
    (h : t.immutableRemove v env = (.ok (t', success), env')) : t.remove v = .ok (success, t') := by
  obtain ⟨env₁, _, ⟨t₁, ht₁, rfl⟩ | ⟨e, n, he, _⟩⟩ := NewCopy_yields t env
  · have hrun := (TreapM.bind_ok ht₁).symm.trans h
    cases hr : t₁.remove v with
    | ok r =>
        have := (TreapM.bind_lift hr env₁).symm.trans hrun
        cases this
        rfl
    | error e =>
        cases (TreapM.bind_error (by rw [hr]; rfl)).symm.trans hrun
  · cases (TreapM.bind_error he).symm.trans h

/-- Every sequence of operations leaves the values stored in order. -/
theorem ReachedBy.stores {t : Treap} (h : ReachedBy Splits Merges t) : ∃ vs, t.Stores vs ∧ Sorted vs := by
  induction h with
  | empty => exact ⟨[], empty_stores, .nil⟩
  | immutableInsert _ hrun ih =>
      obtain ⟨vs, hst, ho⟩ := ih
      obtain ⟨env₁, hins⟩ := immutableInsert_ok hrun
      exact hst.insert ho hins
  | immutableRemove _ hrun ih =>
      obtain ⟨vs, hst, ho⟩ := ih
      exact hst.remove ho (immutableRemove_ok hrun)
  | sequentialInsert _ hrun ih =>
      obtain ⟨vs, hst, ho⟩ := ih
      exact hst.insert ho hrun
  | sequentialRemove _ hrun ih =>
      obtain ⟨vs, hst, ho⟩ := ih
      exact hst.remove ho hrun
  | splitLeft _ _ hrun ih =>
      obtain ⟨vs, hst, ho⟩ := ih
      obtain ⟨ls, rs, _, hl, _, hol, _⟩ := hst.split ho hrun
      exact ⟨ls, hl, hol⟩
  | splitRight _ _ hrun ih =>
      obtain ⟨vs, hst, ho⟩ := ih
      obtain ⟨ls, rs, _, _, hr, _, hor⟩ := hst.split ho hrun
      exact ⟨rs, hr, hor⟩
  | merge _ _ hsize hle _ hrun ihl ihr =>
      obtain ⟨vs, hl, hol⟩ := ihl
      obtain ⟨ws, hr, hor⟩ := ihr
      obtain ⟨hst, ho⟩ := hl.merge hr hol hor hsize hle hrun
      exact ⟨vs ++ ws, hst, ho⟩

end

/-- A reached treap stores what the walk of its links lists. -/
theorem Reached.stores_inOrder {t : Treap} (h : Reached t) : t.Stores t.inOrder ∧ Sorted t.inOrder := by
  obtain ⟨vs, hst, ho⟩ := ReachedBy.stores h
  rw [hst.inOrder]
  exact ⟨hst, ho⟩

/-! ### Filling a treap -/

/-- An environment with an unlimited pool. -/
def poolEnv (draws : ℕ → Weight) : Env := ⟨draws, 0, fun _ => none, 0⟩

/-- The values inserted one after another, the last one of the list first; where an insertion
throws, the treap stays. -/
def fill : List ℤ → Env → Treap × Env
  | [], env => (empty, env)
  | v :: vs, env =>
      match (fill vs env).1.immutableInsert v (fill vs env).2 with
      | (.ok t, env') => (t, env')
      | (.error _, env') => ((fill vs env).1, env')

theorem fill_reached {Splits : Treap → Env → Prop} {Merges : Treap → Treap → Env → Prop} (vs : List ℤ) (env : Env) :
    ReachedBy Splits Merges (fill vs env).1 := by
  induction vs with
  | nil => exact .empty
  | cons v vs ih =>
      unfold fill
      split
      · next t env' hrun => exact .immutableInsert ih hrun
      · exact ih

/-- Any values that fit are the values of a reached treap. -/
theorem fill_values {vs : List ℤ} {env : Env} (hu : env.Unlimited) (hlen : vs.length ≤ TREAP_NODES) :
    (fill vs env).1.values = (vs : Multiset ℤ) ∧ (fill vs env).2.Unlimited := by
  induction vs with
  | nil => exact ⟨rfl, hu⟩
  | cons v vs ih =>
      simp only [List.length_cons] at hlen
      obtain ⟨hv, hu'⟩ := ih (by omega)
      have hreached : Reached (fill vs env).1 := fill_reached vs env
      obtain ⟨ws, hst, -⟩ := hreached.stores
      have hsize : (fill vs env).1.size < TREAP_NODES := by
        have h₁ := congrArg Multiset.card (hst.values.symm.trans hv)
        rw [Multiset.coe_card, Multiset.coe_card, hst.length] at h₁
        omega
      obtain ⟨t', env', hrun, hu₁, as, bs, rfl, hst', -⟩ := (immutableInsert_yields v hst hsize).returns hu'
      unfold fill
      rw [hrun]
      refine ⟨?_, hu₁⟩
      rw [hst'.values, ← Multiset.cons_coe, ← hv, hst.values]
      exact Multiset.coe_eq_coe.mpr List.perm_middle

/-! ### Well-formed treaps -/

/-- Every reached treap is well formed. -/
theorem reached_wellFormed {t : Treap} (h : Reached t) : t.WellFormed :=
  h.stores_inOrder.1.wellFormed h.stores_inOrder.2

theorem reached_wellFormed_fill : (fill [4, 7, 4, 1] (poolEnv fun _ => ⟨0, zero_drawn⟩)).1.WellFormed :=
  reached_wellFormed (fill_reached _ _)

/-! ### Transferred subtrees -/

/-- `t'` is `t` with a copy of the subtree of `other` at slot `x` in its next free slots. -/
structure TransfersTo (other : Treap) (x : ℕ) (t t' : Treap) : Prop where
  size : t'.size = t.size + (other.subtree x).labels.length
  root : t'.root = t.root
  /-- Exactly the new slots are linked from slot `t.size`. -/
  slots : (t'.subtree t.size).labels.Perm (List.range' t.size (other.subtree x).labels.length)
  spans : Spans t'.nodes NullNode (t'.subtree t.size)
  parent : (t'.nodes t.size).parent = NullNode
  /-- The same shape, and the same value at every position. -/
  copies : (t'.subtree t.size).relabel t'.vals = (other.subtree x).relabel other.vals
  frame : ∀ s, s ∉ List.range' t.size (other.subtree x).labels.length → t'.nodes s = t.nodes s

/-- `transferNodesFrom` copies the subtree at any slot of a linked treap, if its slots fit. -/
theorem transferNodesFrom_copies {other t : Treap} {T : SlotTree} {x : ℕ} (hL : other.Linked T) (hx : x ∈ T.labels)
    (hsize : t.size + (other.subtree x).labels.length ≤ TREAP_NODES) (env : Env) :
    ∃ t' env', t.transferNodesFrom other (some x) env = (.ok (some t.size, t'), env') ∧ TransfersTo other x t t' := by
  obtain ⟨C, l, r, rfl⟩ := exists_plug_of_mem_labels hx
  have hsub := hL.subtree
  rw [hsub] at hsize
  obtain ⟨t', env', U, -, -, hrun, hU, hheld, htop⟩ :=
    transferNodesFrom_spec env (linked_plug.mp hL).2.1 (by simp) hsize
  have hlen := held_length hheld
  have hU' : t'.subtree t.size = U := by
    unfold Treap.subtree
    rw [← htop]
    apply treeBelow_eq hU.spans
    unfold loopFuel
    omega
  have hlabels := hU.labels
  rw [hlen] at hlabels
  refine ⟨t', env', hrun, ?_⟩
  constructor
  · rw [hsub, hU.size, hlen]
  · exact hU.root
  · rw [hsub, hU']
    exact hlabels
  · rw [hU']
    exact hU.spans
  · cases U with
    | leaf u => cases htop
    | node a s b =>
        cases htop
        exact hU.spans.2.1
  · have hcopy := congrArg (relabel Prod.fst) hheld
    rw [held, relabel_relabel, copied_relabel] at hcopy
    rw [hsub, hU']
    exact hcopy
  · intro s hs
    rw [hsub, ← hlabels.mem_iff] at hs
    exact hU.frame s (by simp) hs

theorem transferNodesFrom_copies_fill : ∃ t' env',
    empty.transferNodesFrom (fill [4, 7, 4, 1] (poolEnv fun _ => ⟨0, zero_drawn⟩)).1 (some 0) (poolEnv fun _ => ⟨0, zero_drawn⟩) =
      (.ok (some 0, t'), env') ∧ t'.root = NullNode := by
  have hreached : Reached (fill [4, 7, 4, 1] (poolEnv fun _ => ⟨0, zero_drawn⟩)).1 := fill_reached _ _
  obtain ⟨⟨T, hL, hp, -⟩, -⟩ := hreached.stores_inOrder
  have hx : 0 < (fill [4, 7, 4, 1] (poolEnv fun _ => ⟨0, zero_drawn⟩)).1.size := by decide +kernel
  obtain ⟨t', env', hrun, ht'⟩ := transferNodesFrom_copies (t := empty) hL (hp.mem_iff.mpr (List.mem_range.mpr hx))
    (by decide +kernel) (poolEnv fun _ => ⟨0, zero_drawn⟩)
  exact ⟨t', env', hrun, ht'.root⟩

/-! ### The multiset of values -/

/-- Insertion, removal and search on a reached treap are those of a multiset of at most
`TREAP_NODES` values. -/
theorem reached_multiset {t : Treap} (h : Reached t) (v : ℤ) :
    (t.size < TREAP_NODES → Yields (t.immutableInsert v) (fun t' => t'.values = v ::ₘ t.values)) ∧
    Yields (t.immutableRemove v) (fun r => (r.2 = true ↔ v ∈ t.values) ∧
      (v ∈ t.values → v ::ₘ r.1.values = t.values) ∧ (v ∉ t.values → r.1.values = t.values)) ∧
    t.contains v = .ok (decide (v ∈ t.values)) := by
  obtain ⟨vs, hst, ho⟩ := h.stores
  have hmem : v ∈ t.values ↔ v ∈ vs := by rw [hst.values, Multiset.mem_coe]
  refine ⟨fun hsize => ?_, ?_, ?_⟩
  · apply (immutableInsert_yields v hst hsize).mono
    rintro t' ⟨as, bs, rfl, hst', -⟩
    rw [hst'.values, hst.values, Multiset.cons_coe]
    exact Multiset.coe_eq_coe.mpr List.perm_middle
  · apply (immutableRemove_yields v hst).mono
    rintro ⟨t', success⟩ ⟨htrue, hfalse⟩
    rw [hmem]
    cases success with
    | true =>
        obtain ⟨as, bs, rfl, hst'⟩ := htrue rfl
        refine ⟨by simp, fun _ => ?_, fun hn => absurd (by simp) hn⟩
        rw [hst'.values, hst.values, Multiset.cons_coe]
        exact Multiset.coe_eq_coe.mpr List.perm_middle.symm
    | false =>
        obtain ⟨hsame, hn⟩ := hfalse rfl
        exact ⟨by simpa using hn ho, fun hm => absurd hm (hn ho), fun _ => congrArg Treap.values hsame⟩
  · obtain ⟨b, hb, _, hiff⟩ := contains_spec v hst
    rw [hb]
    congr 1
    rw [Bool.eq_iff_iff, hiff ho, decide_eq_true_iff, hmem]

theorem reached_multiset_fill :
    (fill [4, 7, 4, 1] (poolEnv fun _ => ⟨0, zero_drawn⟩)).1.contains 7 = .ok true := by
  have h := (reached_multiset (fill_reached [4, 7, 4, 1] (poolEnv fun _ => ⟨0, zero_drawn⟩)) 7).2.2
  rw [(fill_values (fun _ => rfl) (by decide)).1] at h
  exact h

/-! ### Split -/

/-- `split` cuts a reached treap at the key it returns. -/
theorem split_partitions {t : Treap} (h : Reached t) (hne : t.size ≠ 0) :
    Yields t.split (fun r => r.2.1.values = t.values.filter (· ≤ r.1) ∧ r.2.2.values = t.values.filter (r.1 < ·) ∧
      r.2.1.WellFormed ∧ r.2.2.WellFormed ∧ r.2.1.inOrder ++ r.2.2.inOrder = t.inOrder) := by
  obtain ⟨vs, hst, ho⟩ := h.stores
  have hne' : vs ≠ [] := fun he => hne (by rw [← hst.length, he]; rfl)
  apply (split_yields hst hne').mono
  rintro ⟨s, l, r⟩ ⟨ls, rs, rfl, hl, hr, hord⟩
  obtain ⟨hol, hor, _⟩ := List.pairwise_append.mp ho
  obtain ⟨_, hls, hrs⟩ := hord ho
  refine ⟨?_, ?_, hl.wellFormed hol, hr.wellFormed hor, by rw [hl.inOrder, hr.inOrder, hst.inOrder]⟩
  · have hkeep : (ls : Multiset ℤ).filter (· ≤ s) = ls := Multiset.filter_eq_self.mpr hls
    have hdrop : (rs : Multiset ℤ).filter (· ≤ s) = 0 :=
      Multiset.filter_eq_nil.mpr fun v hv => not_le.mpr (hrs v hv)
    rw [hl.values, hst.values, ← Multiset.coe_add, Multiset.filter_add, hkeep, hdrop, add_zero]
  · have hdrop : (ls : Multiset ℤ).filter (s < ·) = 0 :=
      Multiset.filter_eq_nil.mpr fun v hv => not_lt.mpr (hls v hv)
    have hkeep : (rs : Multiset ℤ).filter (s < ·) = rs := Multiset.filter_eq_self.mpr hrs
    rw [hr.values, hst.values, ← Multiset.coe_add, Multiset.filter_add, hkeep, hdrop, zero_add]

theorem split_partitions_fill :
    Yields (fill [4, 7, 4, 1] (poolEnv fun _ => ⟨0, zero_drawn⟩)).1.split (fun r => r.2.1.WellFormed ∧ r.2.2.WellFormed) := by
  apply (split_partitions (fill_reached [4, 7, 4, 1] _) (by decide +kernel)).mono
  exact fun r hr => ⟨hr.2.2.1, hr.2.2.2.1⟩

/-- `split` halves distinct values: the left treap gets the lower half of them, or one more. -/
theorem split_balanced {t : Treap} (h : Reached t) (hlen : 3 ≤ t.size) (hnd : t.values.Nodup) :
    Yields t.split (fun r => (r.2.1.size = t.size / 2 ∨ r.2.1.size = t.size / 2 + 1) ∧
      r.2.1.size + r.2.2.size = t.size ∧ r.2.1.values + r.2.2.values = t.values ∧
      (0 < r.2.1.size ∧ r.2.1.size < t.size) ∧ 0 < r.2.2.size ∧ r.2.2.size < t.size) := by
  obtain ⟨vs, hst, ho⟩ := h.stores
  have hsize := hst.length
  have hne : vs ≠ [] := fun he => by
    rw [he] at hsize
    rw [← hsize] at hlen
    exact absurd hlen (by decide)
  rw [hst.values, Multiset.coe_nodup] at hnd
  apply (split_yields hst hne).mono
  rintro ⟨s, l, r⟩ ⟨ls, rs, rfl, hl, hr, hord⟩
  obtain ⟨hmed, hls, hrs⟩ := hord ho
  simp only at hl hr hmed hls hrs ⊢
  rw [hmed] at hls hrs
  have hhalf := length_le_medianOf ho hnd (by omega) hls hrs
  rw [hsize, hl.length] at hhalf
  have hsum : l.size + r.size = t.size := by
    rw [← hl.length, ← hr.length, ← hsize, List.length_append]
  exact ⟨hhalf, hsum, by rw [hl.values, hr.values, hst.values, Multiset.coe_add], by omega, by omega⟩

theorem split_balanced_fill :
    Yields (fill [4, -7, 5, 1] (poolEnv fun _ => ⟨0, zero_drawn⟩)).1.split (fun r => 0 < r.2.1.size ∧ 0 < r.2.2.size) := by
  have hnd : (fill [4, -7, 5, 1] (poolEnv fun _ => ⟨0, zero_drawn⟩)).1.values.Nodup := by
    rw [(fill_values (fun _ => rfl) (by decide)).1]
    decide
  apply (split_balanced (fill_reached [4, -7, 5, 1] _) (by decide +kernel) hnd).mono
  exact fun r hr => ⟨hr.2.2.2.1.1, hr.2.2.2.2.1⟩

/-! ### Range queries -/

/-- `rangeQuery` on a reached treap is the filter of its values, each copy once. -/
theorem rangeQuery_filters {t : Treap} (h : Reached t) (min max : ℤ) :
    ∃ ws, t.rangeQuery min max = .ok ws ∧ (ws : Multiset ℤ) = t.values.filter (fun v => min ≤ v ∧ v ≤ max) := by
  obtain ⟨vs, hst, ho⟩ := h.stores
  obtain ⟨ws, hrun, hws⟩ := rangeQuery_stores min max hst
  refine ⟨ws, hrun, ?_⟩
  rw [hst.values]
  exact hws ho

theorem rangeQuery_filters_fill : ∃ ws,
    (fill [4, 7, 4, 1] (poolEnv fun _ => ⟨0, zero_drawn⟩)).1.rangeQuery 2 5 = .ok ws ∧ (ws : Multiset ℤ) = {4, 4} := by
  obtain ⟨ws, hrun, hws⟩ := rangeQuery_filters (fill_reached [4, 7, 4, 1] (poolEnv fun _ => ⟨0, zero_drawn⟩)) 2 5
  rw [(fill_values (fun _ => rfl) (by decide)).1] at hws
  exact ⟨ws, hrun, hws⟩

/-! ### Merge -/

/-- `merge` concatenates two reached treaps, and throws only where their sizes do not fit. -/
theorem merge_concatenates {l r : Treap} (hl : Reached l) (hr : Reached r) :
    ((∀ v ∈ l.values, ∀ w ∈ r.values, v ≤ w) → l.size + r.size ≤ TREAP_NODES →
      Yields (merge l r) (fun t => t.WellFormed ∧ t.inOrder = l.inOrder ++ r.inOrder ∧ t.size = l.size + r.size ∧
        TREAP_NODES ∉ t.slots)) ∧
    ∀ env : Env, (∀ n what, env.news n ≠ some (.invalidArgument what)) →
      ((∃ what, (merge l r env).1 = .error (.exn (.invalidArgument what))) ↔ TREAP_NODES < l.size + r.size) := by
  obtain ⟨vs, hsl, hol⟩ := hl.stores
  obtain ⟨ws, hsr, hor⟩ := hr.stores
  constructor
  · intro hle hsize env
    obtain ⟨env', hs, ⟨t, hrun, _⟩ | he⟩ := merge_yields hsl hsr hsize env
    · obtain ⟨hst, ho⟩ := hsl.merge hsr hol hor hsize hle hrun
      have hwf := hst.wellFormed ho
      refine ⟨env', hs, .inl ⟨t, hrun, hwf, by rw [hst.inOrder, hsl.inOrder, hsr.inOrder], ?_, fun hm => ?_⟩⟩
      · rw [← hst.length, ← hsl.length, ← hsr.length, List.length_append]
      · have := List.mem_range.mp (hwf.slots_perm.mem_iff.mp hm)
        exact absurd hwf.size_le (by omega)
    · exact ⟨env', hs, .inr he⟩
  · intro env hpool
    by_cases hsize : TREAP_NODES < l.size + r.size
    · apply iff_of_true _ hsize
      exact ⟨_, congrArg Prod.fst (merge_overflow hsize env)⟩
    · refine iff_of_false ?_ hsize
      rintro ⟨what, herr⟩
      obtain ⟨env', _, ⟨t, hrun, _⟩ | ⟨e, n, hrun, hn⟩⟩ := merge_yields hsl hsr (by omega) env
      · rw [hrun] at herr
        cases herr
      · rw [hrun] at herr
        cases herr
        exact hpool n what hn

theorem merge_concatenates_fill :
    Yields (merge (fill [4, 1] (poolEnv fun _ => ⟨0, zero_drawn⟩)).1 (fill [9, 4] (poolEnv fun _ => ⟨0, zero_drawn⟩)).1)
      (fun t => t.size = 4) := by
  apply ((merge_concatenates (fill_reached [4, 1] _) (fill_reached [9, 4] _)).1 ?_ ?_).mono
  · intro t ht
    have hsize : (fill [4, 1] (poolEnv fun _ => ⟨0, zero_drawn⟩)).1.size +
        (fill [9, 4] (poolEnv fun _ => ⟨0, zero_drawn⟩)).1.size = 4 := by decide +kernel
    exact ht.2.2.1.trans hsize
  · rw [(fill_values (fun _ => rfl) (by decide)).1, (fill_values (fun _ => rfl) (by decide)).1]
    simp
  · decide +kernel

/-! ### The median -/

/-- `getMedianVal` returns the middle value, or the average of the two middle values truncated
towards zero. -/
def MedianInMiddle (t : Treap) : Prop :=
  ∃ m, t.getMedianVal = .ok m ∧
    (t.size % 2 = 1 → m = t.sortedValues.getD (t.size / 2) 0) ∧
    (t.size % 2 = 0 → m = (t.sortedValues.getD (t.size / 2 - 1) 0 + t.sortedValues.getD (t.size / 2) 0).tdiv 2 ∧
      t.sortedValues.getD (t.size / 2 - 1) 0 ≤ m ∧ m ≤ t.sortedValues.getD (t.size / 2) 0)

theorem medianInMiddle_iff {t : Treap} (h : Reached t) (hne : t.size ≠ 0) :
    t.MedianInMiddle ↔ t.size % 2 = 1 ∨
      KeepsAverage (t.sortedValues.getD (t.size / 2 - 1) 0) (t.sortedValues.getD (t.size / 2) 0) := by
  obtain ⟨vs, hst, ho⟩ := h.stores
  have hlen := hst.length
  obtain ⟨m, hm, hmed⟩ := getMedianVal_spec hst (fun he => hne (by rw [← hlen, he]; rfl))
  have hmed := hmed ho
  unfold MedianInMiddle
  rw [hst.sortedValues ho, ← hlen]
  by_cases hodd : vs.length % 2 = 1
  · refine iff_of_true ⟨m, hm, fun _ => ?_, fun heven => by omega⟩ (.inl hodd)
    rw [hmed, medianOf, if_neg (by omega)]
  · have hle := ho.getD_le (i := vs.length / 2 - 1) (j := vs.length / 2) (by omega) (by omega)
    rw [medianOf, if_pos (by omega)] at hmed
    rw [← middle_eq_average_iff hle, or_iff_right hodd, ← hmed]
    constructor
    · rintro ⟨m', hm', -, heven⟩
      cases hm'.symm.trans hm
      exact (heven (by omega)).1
    · intro he
      refine ⟨m, hm, fun h1 => absurd h1 hodd, fun _ => ⟨he, ?_⟩⟩
      rw [he]
      exact average_mem hle

theorem medianInMiddle_iff_fill : (fill [7, 4, 4, 1] (poolEnv fun _ => ⟨0, zero_drawn⟩)).1.MedianInMiddle :=
  (medianInMiddle_iff (fill_reached _ _) (by decide +kernel)).mpr (.inr (.inl (by decide +kernel)))

/-- The median of two copies of 3 is 2. -/
theorem median_fails_equal : ∃ t : Treap, Reached t ∧ t.size ≠ 0 ∧ t.sortedValues = [3, 3] ∧ t.getMedianVal = .ok 2 ∧
    ¬ t.MedianInMiddle := by
  have hm : (fill [3, 3] (poolEnv fun _ => ⟨0, zero_drawn⟩)).1.getMedianVal = .ok 2 := by decide +kernel
  have hs : (fill [3, 3] (poolEnv fun _ => ⟨0, zero_drawn⟩)).1.sortedValues = [3, 3] := by decide +kernel
  have hz : (fill [3, 3] (poolEnv fun _ => ⟨0, zero_drawn⟩)).1.size = 2 := by decide +kernel
  refine ⟨_, fill_reached _ _, by rw [hz]; decide, hs, hm, ?_⟩
  rintro ⟨m, hm', -, heven⟩
  cases hm.symm.trans hm'
  have := heven (by rw [hz])
  rw [hs, hz] at this
  exact absurd this.1 (by decide)

end Treap

end LockFreeSearchTree
