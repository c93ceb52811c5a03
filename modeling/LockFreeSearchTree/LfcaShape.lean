import LockFreeSearchTree.Lfca
import LockFreeSearchTree.LeafTree
import LockFreeSearchTree.TreapSplit

/-! # The tree on the heap

What the pointers of the lock-free tree mean while no call is running, and the effect of its
operations on this.

* **Trees.** A `Tree` has the route nodes and the base nodes with their addresses, the keys and
  the values of the treaps.  `Shape s T`: the nodes reachable from the root of `s` are `T`, the
  parent field of every base node being the address of the route node above it.
* **Contexts.** `PathLinks` and `Links` are the two halves of this around and inside a hole
  (`links_plug`); `Shared.redirect` is the assignment of the pointer to a hole, which is all
  `try_replace` does.
* **Pools.** `Throws P x`: one of the pools throws `x`, now or later.  `Gives o Q`: whatever the pools
  throw, the operation `o` on them throws nothing else, and what it returns satisfies `Q`.
* **Runs.** `Extends s s'` is what every function keeps when it runs alone. -/

namespace LockFreeSearchTree

open BinTree Concurrent

namespace Lfca

/-! ### Pools -/

namespace Pools

variable {P P' P'' : Pools} {x : Exn}

/-- Pools that throw the same. -/
structure Same (P P' : Pools) : Prop where
  nodes : P'.nodes = P.nodes
  stores : P'.stores = P.stores
  env : P.env.Same P'.env

theorem Same.refl (P : Pools) : P.Same P := ⟨rfl, rfl, .refl _⟩

theorem Same.trans (h : P.Same P') (h' : P'.Same P'') : P.Same P'' :=
  ⟨h'.nodes.trans h.nodes, h'.stores.trans h.stores, h.env.trans h'.env⟩

/-- One of the pools throws `x`. -/
def Throws (P : Pools) (x : Exn) : Prop :=
  (∃ n, P.env.news n = some x) ∨ (∃ n, P.nodes n = some x) ∨ ∃ n, P.stores n = some x

theorem Same.throws (h : P.Same P') : P'.Throws x ↔ P.Throws x := by
  unfold Throws
  rw [h.nodes, h.stores, h.env.2]

end Pools

namespace PoolOp

/-- From all pools, the operation returns a value satisfying `Q` or throws what the pools throw. -/
def Gives (o : PoolOp) (Q : o.Val → Prop) : Prop :=
  ∀ P, P.Same (o.exec P).2 ∧
    ((∃ a, (o.exec P).1 = .ok a ∧ Q a) ∨ ∃ x, (o.exec P).1 = .error (.exn x) ∧ P.Throws x)

theorem gives_node : Gives .node (fun _ => True) := by
  intro P
  refine ⟨⟨rfl, rfl, .refl _⟩, ?_⟩
  cases h : P.nodes P.nodesTaken with
  | none => exact .inl ⟨(), congrArg thrown h, trivial⟩
  | some x => exact .inr ⟨x, congrArg thrown h, .inr (.inl ⟨_, h⟩)⟩

theorem gives_rs : Gives .rs (fun _ => True) := by
  intro P
  refine ⟨⟨rfl, rfl, .refl _⟩, ?_⟩
  cases h : P.stores P.storesTaken with
  | none => exact .inl ⟨(), congrArg thrown h, trivial⟩
  | some x => exact .inr ⟨x, congrArg thrown h, .inr (.inr ⟨_, h⟩)⟩

/-- An operation on treaps. -/
theorem gives_of_yields {o : PoolOp} {m : TreapM o.Val} {Q : o.Val → Prop} (ho : ∀ P, o.exec P = onTreaps P m)
    (hm : Yields m Q) : o.Gives Q := by
  intro P
  rw [ho]
  obtain ⟨env, hsame, h⟩ := hm P.env
  have henv : env = (m P.env).2 := by
    rcases h with ⟨a, ha, _⟩ | ⟨x, n, hx, _⟩
    · rw [ha]
    · rw [hx]
  rw [henv] at hsame
  refine ⟨⟨rfl, rfl, hsame⟩, ?_⟩
  rcases h with ⟨a, ha, hQ⟩ | ⟨x, n, hx, hn⟩
  · exact .inl ⟨a, congrArg Prod.fst ha, hQ⟩
  · exact .inr ⟨x, congrArg Prod.fst hx, .inl ⟨n, hn⟩⟩

end PoolOp

/-! ### Trees -/

/-- A base node: its address, the values of its treap and its statistics. -/
structure Base where
  ptr : Ptr
  vals : List ℤ
  stat : ℤ

/-- A route node: its address and its key. -/
structure Route where
  ptr : Ptr
  key : ℤ

abbrev Tree := BinTree Base Route

abbrev Path := Ctx Base Route

/-- The address of the root of a tree. -/
def top : Tree → Ptr
  | .leaf b => b.ptr
  | .node _ r _ => r.ptr

/-- The address of the node above a hole. -/
def holder : Path → Ptr
  | [] => nullptr
  | F :: _ => F.label.ptr

/-- The addresses of the nodes in order. -/
def ptrs (T : Tree) : List Ptr := T.walk (fun b => [b.ptr]) (fun r => [r.ptr])

/-- The addresses of the nodes around a hole. -/
def pathPtrs (C : Path) : List Ptr := ctxWalk (fun b => [b.ptr]) (fun r => [r.ptr]) C

@[simp] theorem top_leaf (b : Base) : top (.leaf b) = b.ptr := rfl

@[simp] theorem top_node (l : Tree) (r : Route) (t : Tree) : top (.node l r t) = r.ptr := rfl

@[simp] theorem top_on (d : Side) (l : Tree) (r : Route) (t : Tree) : top (on d l r t) = r.ptr := by cases d <;> rfl

@[simp] theorem holder_nil : holder [] = nullptr := rfl

@[simp] theorem holder_cons (F : Frame Base Route) (C : Path) : holder (F :: C) = F.label.ptr := rfl

@[simp] theorem ptrs_leaf (b : Base) : ptrs (.leaf b) = [b.ptr] := rfl

@[simp] theorem ptrs_node (l : Tree) (r : Route) (t : Tree) : ptrs (.node l r t) = ptrs l ++ r.ptr :: ptrs t := by
  simp [ptrs]

theorem mem_ptrs_on {d : Side} {l t : Tree} {r : Route} {p : Ptr} :
    p ∈ ptrs (on d l r t) ↔ p = r.ptr ∨ p ∈ ptrs l ∨ p ∈ ptrs t := by
  rw [ptrs, mem_walk_on, List.mem_singleton]
  rfl

theorem nodup_ptrs_on {d : Side} {l t : Tree} {r : Route} : (ptrs (on d l r t)).Nodup ↔
    r.ptr ∉ ptrs l ∧ r.ptr ∉ ptrs t ∧ (ptrs l).Nodup ∧ (ptrs t).Nodup ∧ (ptrs l).Disjoint (ptrs t) := by
  cases d <;>
    simp only [on, ptrs_node, List.nodup_append', List.nodup_cons, List.disjoint_cons_right]
  · tauto
  · rw [List.disjoint_comm]; tauto

theorem mem_ptrs_plug {C : Path} {t : Tree} {p : Ptr} : p ∈ ptrs (plug C t) ↔ p ∈ ptrs t ∨ p ∈ pathPtrs C :=
  mem_walk_plug

theorem mem_pathPtrs_cons {F : Frame Base Route} {C : Path} {p : Ptr} :
    p ∈ pathPtrs (F :: C) ↔ p = F.label.ptr ∨ p ∈ ptrs F.sibling ∨ p ∈ pathPtrs C := by
  rw [pathPtrs, mem_ctxWalk_cons, List.mem_singleton]
  rfl

theorem nodup_ptrs_plug {C : Path} {t : Tree} :
    (ptrs (plug C t)).Nodup ↔ (ptrs t).Nodup ∧ (pathPtrs C).Nodup ∧ (ptrs t).Disjoint (pathPtrs C) :=
  nodup_walk_plug

theorem nodup_pathPtrs_cons {F : Frame Base Route} {C : Path} :
    (pathPtrs (F :: C)).Nodup ↔ F.label.ptr ∉ ptrs F.sibling ∧ F.label.ptr ∉ pathPtrs C ∧ (ptrs F.sibling).Nodup ∧
      (pathPtrs C).Nodup ∧ (ptrs F.sibling).Disjoint (pathPtrs C) := by
  rw [pathPtrs, (ctxWalk_cons_perm _ _ F C).nodup_iff, List.singleton_append, List.nodup_cons, List.nodup_append',
    List.mem_append, not_or]
  exact ⟨fun ⟨⟨h₁, h₂⟩, h₃, h₄, h₅⟩ => ⟨h₁, h₂, h₃, h₄, h₅⟩, fun ⟨h₁, h₂, h₃, h₄, h₅⟩ => ⟨⟨h₁, h₂⟩, h₃, h₄, h₅⟩⟩

theorem top_mem (T : Tree) : top T ∈ ptrs T := by cases T <;> simp

theorem top_plug_mem {D : Path} (h : D ≠ []) (t : Tree) : top (plug D t) ∈ pathPtrs D := by
  induction D generalizing t with
  | nil => exact absurd rfl h
  | cons F D ih =>
      rw [plug_cons]
      rcases eq_or_ne D [] with rfl | hD
      · exact mem_pathPtrs_cons.mpr (.inl (by simp))
      · exact mem_pathPtrs_cons.mpr (.inr (.inr (ih hD _)))

theorem top_plug_congr {D : Path} (h : D ≠ []) (t u : Tree) : top (plug D t) = top (plug D u) := by
  induction D generalizing t u with
  | nil => exact absurd rfl h
  | cons F D ih =>
      rcases eq_or_ne D [] with rfl | hD
      · simp
      · exact ih hD _ _

theorem holder_mem {C : Path} (h : C ≠ []) : holder C ∈ pathPtrs C := by
  cases C with
  | nil => exact absurd rfl h
  | cons F C => exact mem_pathPtrs_cons.mpr (.inl rfl)

theorem ne_nil_of_holder {C : Path} (h : holder C ≠ nullptr) : C ≠ [] := fun he => h (he ▸ rfl)

theorem labels_sublist (T : Tree) : (T.labels.map Route.ptr).Sublist (ptrs T) := by
  induction T with
  | leaf b => simp
  | node l r t ihl iht =>
      rw [labels_node, ptrs_node, List.map_append, List.map_cons]
      exact ihl.append (iht.cons_cons _)

theorem leaves_sublist (T : Tree) : (T.leaves.map Base.ptr).Sublist (ptrs T) := by
  induction T with
  | leaf b => simp
  | node l r t ihl iht =>
      rw [leaves_node, ptrs_node, List.map_append]
      exact ihl.append (iht.cons _)

theorem mem_ptrs_of_leaf {T : Tree} {b : Base} (h : b ∈ T.leaves) : b.ptr ∈ ptrs T :=
  (leaves_sublist T).subset (List.mem_map_of_mem h)

theorem mem_ptrs_of_label {T : Tree} {r : Route} (h : r ∈ T.labels) : r.ptr ∈ ptrs T :=
  (labels_sublist T).subset (List.mem_map_of_mem h)

theorem mem_pathPtrs_of_leaf {C : Path} {b : Base} (h : b ∈ ctxLeaves C) : b.ptr ∈ pathPtrs C := by
  induction C with
  | nil => cases h
  | cons F C ih =>
      rw [mem_pathPtrs_cons]
      exact (mem_ctxLeaves_cons.mp h).elim (fun h => .inr (.inl (mem_ptrs_of_leaf h))) (fun h => .inr (.inr (ih h)))

theorem mem_pathPtrs_of_label {C : Path} {r : Route} (h : r ∈ ctxLabels C) : r.ptr ∈ pathPtrs C := by
  induction C with
  | nil => cases h
  | cons F C ih =>
      rw [mem_pathPtrs_cons]
      rcases mem_ctxLabels_cons.mp h with rfl | h | h
      · exact .inl rfl
      · exact .inr (.inl (mem_ptrs_of_label h))
      · exact .inr (.inr (ih h))

theorem label_eq_of_ptr {T : Tree} (h : (ptrs T).Nodup) {r r' : Route} (hr : r ∈ T.labels) (hr' : r' ∈ T.labels)
    (he : r.ptr = r'.ptr) : r = r' := List.inj_on_of_nodup_map ((labels_sublist T).nodup h) hr hr' he

theorem nodup_labels {T : Tree} (h : (ptrs T).Nodup) : T.labels.Nodup := ((labels_sublist T).nodup h).of_map

/-! ### Links -/

/-- The fields of a node that the shape of the tree depends on. -/
def Node.links (n : Node) : NodeType × ℤ × Option Treap × ℤ × Ptr × Ptr × Ptr :=
  (n.type, n.key, n.data, n.stat, n.parent, n.left, n.right)

namespace Node

variable (n : Node)

@[simp] theorem get_set (f : Field) (p : Ptr) : (n.set f p).get f = p := by
  cases f with
  | child d => cases d <;> rfl
  | joinId => rfl
  | neigh2 => rfl

theorem get_set_ne {f f' : Field} (p : Ptr) (h : f' ≠ f) : (n.set f p).get f' = n.get f' := by
  cases f with
  | child d =>
      cases d <;> cases f' with
      | child d' => cases d' <;> first | rfl | exact absurd rfl h
      | joinId => rfl
      | neigh2 => rfl
  | joinId => cases f' with
      | child d' => cases d' <;> rfl
      | joinId => exact absurd rfl h
      | neigh2 => rfl
  | neigh2 => cases f' with
      | child d' => cases d' <;> rfl
      | joinId => rfl
      | neigh2 => exact absurd rfl h

@[simp] theorem toPlain_set (f : Field) (p : Ptr) : (n.set f p).toPlain = n.toPlain := by
  cases f with
  | child d => cases d <;> rfl
  | joinId => rfl
  | neigh2 => rfl

@[simp] theorem valid_set (f : Field) (p : Ptr) : (n.set f p).valid = n.valid := by
  cases f with
  | child d => cases d <;> rfl
  | joinId => rfl
  | neigh2 => rfl

@[simp] theorem joinId_set_child (d : Side) (p : Ptr) : (n.set (.child d) p).joinId = n.joinId := by cases d <;> rfl

@[simp] theorem neigh2_set_child (d : Side) (p : Ptr) : (n.set (.child d) p).neigh2 = n.neigh2 := by cases d <;> rfl

@[simp] theorem links_set_joinId (p : Ptr) : (n.set .joinId p).links = n.links := rfl

@[simp] theorem links_set_neigh2 (p : Ptr) : (n.set .neigh2 p).links = n.links := rfl

@[simp] theorem links_assign (f : PlainField) (p : Ptr) : (n.assign f p).links = n.links := by cases f <;> rfl

@[simp] theorem get_assign (f : PlainField) (p : Ptr) (g : Field) : (n.assign f p).get g = n.get g := by
  cases g with
  | child d => cases f <;> cases d <;> rfl
  | joinId => cases f <;> rfl
  | neigh2 => cases f <;> rfl

@[simp] theorem valid_assign (f : PlainField) (p : Ptr) : (n.assign f p).valid = n.valid := by cases f <;> rfl

end Node

namespace Shared

variable (s : Shared)

@[simp] theorem allocated_update (p : Ptr) (f : Node → Node) (q : Ptr) :
    (s.update p f).Allocated q ↔ s.Allocated q := Iff.rfl

theorem Allocated.alloc {s : Shared} {p : Ptr} (h : s.Allocated p) (n : Node) : (s.alloc n).Allocated p :=
  ⟨h.1, Nat.lt_succ_of_lt h.2⟩

@[simp] theorem nodes_update (p : Ptr) (f : Node → Node) : (s.update p f).nodes p = f (s.nodes p) := by simp [update]

theorem nodes_update_ne {p q : Ptr} (f : Node → Node) (h : q ≠ p) : (s.update p f).nodes q = s.nodes q := by
  simp [update, h]

/-- What an update of a node does not change about it. -/
theorem update_keeps {α : Type} {f : Node → Node} (g : Node → α) (hg : ∀ n, g (f n) = g n) (p q : Ptr) :
    g ((s.update p f).nodes q) = g (s.nodes q) := by
  rcases eq_or_ne q p with rfl | hne
  · rw [nodes_update, hg]
  · rw [nodes_update_ne _ _ hne]

@[simp] theorem stores_updateStore (p : Ptr) (f : Rs → Rs) : (s.updateStore p f).stores p = f (s.stores p) := by
  simp [updateStore]

@[simp] theorem allocatedStore_updateStore (p : Ptr) (f : Rs → Rs) (q : Ptr) :
    (s.updateStore p f).AllocatedStore q ↔ s.AllocatedStore q := Iff.rfl

@[simp] theorem next_alloc (n : Node) : (s.alloc n).next = s.next + 1 := rfl

@[simp] theorem nodes_alloc (n : Node) : (s.alloc n).nodes s.next = n := by simp [alloc]

theorem nodes_alloc_ne {q : Ptr} (n : Node) (h : q ≠ s.next) : (s.alloc n).nodes q = s.nodes q := by simp [alloc, h]

theorem Allocated.ne_next {s : Shared} {p : Ptr} (h : s.Allocated p) : p ≠ s.next := Nat.ne_of_lt h.2

theorem Allocated.nodes_alloc {s : Shared} {p : Ptr} (h : s.Allocated p) (n : Node) :
    (s.alloc n).nodes p = s.nodes p := s.nodes_alloc_ne n h.ne_next

theorem Allocated.ne_null {s : Shared} {p : Ptr} (h : s.Allocated p) : p ≠ nullptr := fun he => by
  have := h.1
  rw [he] at this
  exact absurd this (by decide)

/-- What every function keeps when it runs alone. -/
structure Extends (s s' : Shared) : Prop where
  next : s.next ≤ s'.next
  nextStore : s.nextStore ≤ s'.nextStore
  pools : s.pools.Same s'.pools
  plain : ∀ p, s.Allocated p → (s'.nodes p).toPlain = (s.nodes p).toPlain
  neigh2 : ∀ p, s.Allocated p → (s'.nodes p).neigh2 = (s.nodes p).neigh2

namespace Extends

variable {s s' s'' : Shared}

theorem allocated (h : s.Extends s') {p : Ptr} (hp : s.Allocated p) : s'.Allocated p :=
  ⟨hp.1, hp.2.trans_le h.next⟩

theorem refl (s : Shared) : s.Extends s :=
  ⟨le_rfl, le_rfl, .refl _, fun _ _ => rfl, fun _ _ => rfl⟩

theorem trans (h : s.Extends s') (h' : s'.Extends s'') : s.Extends s'' where
  next := h.next.trans h'.next
  nextStore := h.nextStore.trans h'.nextStore
  pools := h.pools.trans h'.pools
  plain := fun p hp => (h'.plain p (h.allocated hp)).trans (h.plain p hp)
  neigh2 := fun p hp => (h'.neigh2 p (h.allocated hp)).trans (h.neigh2 p hp)

theorem alloc (h : s.Extends s') (n : Node) : s.Extends (s'.alloc n) where
  next := h.next.trans (Nat.le_succ _)
  nextStore := h.nextStore
  pools := h.pools
  plain := fun p hp => by rw [(h.allocated hp).nodes_alloc]; exact h.plain p hp
  neigh2 := fun p hp => by rw [(h.allocated hp).nodes_alloc]; exact h.neigh2 p hp

/-- The atomic fields of any node but `neigh2` may change. -/
theorem update (h : s.Extends s') (p : Ptr) {f : Node → Node} (hp : ∀ n, (f n).toPlain = n.toPlain)
    (hn : ∀ n, (f n).neigh2 = n.neigh2) : s.Extends (s'.update p f) where
  next := h.next
  nextStore := h.nextStore
  pools := h.pools
  plain := fun q hq => by
    rcases eq_or_ne q p with rfl | hne
    · rw [nodes_update, hp, h.plain q hq]
    · rw [nodes_update_ne _ _ hne, h.plain q hq]
  neigh2 := fun q hq => by
    rcases eq_or_ne q p with rfl | hne
    · rw [nodes_update, hn, h.neigh2 q hq]
    · rw [nodes_update_ne _ _ hne, h.neigh2 q hq]

/-- A node that is not one of the old ones may change in any way. -/
theorem update_new (h : s.Extends s') {p : Ptr} (f : Node → Node) (hp : s.next ≤ p) : s.Extends (s'.update p f) where
  next := h.next
  nextStore := h.nextStore
  pools := h.pools
  plain := fun q hq => by rw [nodes_update_ne _ _ (hq.2.trans_le hp).ne, h.plain q hq]
  neigh2 := fun q hq => by rw [nodes_update_ne _ _ (hq.2.trans_le hp).ne, h.neigh2 q hq]

theorem withPools (h : s.Extends s') {P : Pools} (hP : s'.pools.Same P) : s.Extends { s' with pools := P } where
  next := h.next
  nextStore := h.nextStore
  pools := h.pools.trans hP
  plain := h.plain
  neigh2 := h.neigh2

theorem updateStore (h : s.Extends s') (p : Ptr) (f : Rs → Rs) : s.Extends (s'.updateStore p f) :=
  ⟨h.1, h.2, h.3, h.4, h.5⟩

theorem newRs (h : s.Extends s') : s.Extends { s' with nextStore := s'.nextStore + 1 } :=
  ⟨h.1, h.2.trans (Nat.le_succ _), h.3, h.4, h.5⟩

theorem withRoot (h : s.Extends s') (p : Ptr) : s.Extends { s' with root := p } := ⟨h.1, h.2, h.3, h.4, h.5⟩

end Extends

/-- The pointer to the hole of `C` assigned. -/
def redirect (s : Shared) (C : Path) (p : Ptr) : Shared :=
  match C with
  | [] => { s with root := p }
  | F :: _ => s.update F.label.ptr (fun n => n.set (.child F.side) p)

section Redirect

theorem redirect_cons (F : Frame Base Route) (C : Path) (p : Ptr) :
    s.redirect (F :: C) p = s.update F.label.ptr (fun n => n.set (.child F.side) p) := rfl

variable (C : Path) (p q : Ptr)

@[simp] theorem allocated_redirect : (s.redirect C p).Allocated q ↔ s.Allocated q := by cases C <;> rfl

@[simp] theorem next_redirect : (s.redirect C p).next = s.next := by cases C <;> rfl

@[simp] theorem pools_redirect : (s.redirect C p).pools = s.pools := by cases C <;> rfl

@[simp] theorem stores_redirect : (s.redirect C p).stores = s.stores := by cases C <;> rfl

@[simp] theorem nextStore_redirect : (s.redirect C p).nextStore = s.nextStore := by cases C <;> rfl

variable {C}

theorem nodes_redirect_ne_holder {q : Ptr} (h : q ≠ holder C) : (s.redirect C p).nodes q = s.nodes q := by
  cases C with
  | nil => rfl
  | cons F C =>
      rw [redirect_cons]
      exact s.nodes_update_ne _ h

theorem nodes_redirect_ne {q : Ptr} (h : q ∉ pathPtrs C) : (s.redirect C p).nodes q = s.nodes q := by
  cases C with
  | nil => rfl
  | cons F C => exact s.nodes_redirect_ne_holder p (fun he => h (mem_pathPtrs_cons.mpr (.inl he)))

theorem root_redirect (h : C ≠ []) : (s.redirect C p).root = s.root := by
  cases C with
  | nil => exact absurd rfl h
  | cons F C => rfl

/-- Only child pointers are assigned. -/
theorem nodes_redirect : (s.redirect C p).nodes q = s.nodes q ∨
    ∃ d, (s.redirect C p).nodes q = (s.nodes q).set (.child d) p := by
  cases C with
  | nil => exact .inl rfl
  | cons F C =>
      rw [redirect_cons]
      rcases eq_or_ne q F.label.ptr with rfl | hne
      · exact .inr ⟨F.side, s.nodes_update _ _⟩
      · exact .inl (s.nodes_update_ne _ hne)

@[simp] theorem toPlain_redirect : ((s.redirect C p).nodes q).toPlain = (s.nodes q).toPlain := by
  obtain h | ⟨d, h⟩ := s.nodes_redirect p q (C := C) <;> simp [h]

@[simp] theorem neigh2_redirect : ((s.redirect C p).nodes q).neigh2 = (s.nodes q).neigh2 := by
  obtain h | ⟨d, h⟩ := s.nodes_redirect p q (C := C) <;> simp [h]

@[simp] theorem joinId_redirect : ((s.redirect C p).nodes q).joinId = (s.nodes q).joinId := by
  obtain h | ⟨d, h⟩ := s.nodes_redirect p q (C := C) <;> simp [h]

@[simp] theorem valid_redirect : ((s.redirect C p).nodes q).valid = (s.nodes q).valid := by
  obtain h | ⟨d, h⟩ := s.nodes_redirect p q (C := C) <;> simp [h]

theorem Extends.redirect {s s' : Shared} (h : s.Extends s') (C : Path) (p : Ptr) : s.Extends (s'.redirect C p) := by
  cases C with
  | nil => exact h.withRoot p
  | cons F C => exact h.update _ (fun n => n.toPlain_set _ _) (fun n => n.neigh2_set_child _ _)

end Redirect

end Shared

/-! ### Links -/

/-- The route node `r`, with `p` on side `d` and `q` on the other. -/
structure RouteAt (s : Shared) (d : Side) (r : Route) (p q : Ptr) : Prop where
  allocated : s.Allocated r.ptr
  type : (s.nodes r.ptr).type = .route
  key : (s.nodes r.ptr).key = r.key
  near : (s.nodes r.ptr).get (.child d) = p
  far : (s.nodes r.ptr).get (.child d.other) = q

/-- The base node `b` below the node `p`. -/
structure BaseAt (s : Shared) (b : Base) (p : Ptr) : Prop where
  allocated : s.Allocated b.ptr
  type : (s.nodes b.ptr).type ≠ .route
  stores : ∃ t, (s.nodes b.ptr).data = some t ∧ t.Stores b.vals
  stat : (s.nodes b.ptr).stat = b.stat
  parent : (s.nodes b.ptr).parent = p
  leaf : ∀ d, (s.nodes b.ptr).get (.child d) = nullptr

/-- The nodes reachable through a pointer of the node `p` are `T`. -/
def Links (s : Shared) : Ptr → Tree → Prop
  | p, .leaf b => BaseAt s b p
  | _, .node l r t => RouteAt s .left r (top l) (top t) ∧ Links s r.ptr l ∧ Links s r.ptr t

/-- The nodes around a hole are `C`; the pointer to the hole is `p`. -/
def PathLinks (s : Shared) : Path → Ptr → Prop
  | [], p => s.root = p
  | F :: C, p => RouteAt s F.side F.label p (top F.sibling) ∧ Links s F.label.ptr F.sibling ∧ PathLinks s C F.label.ptr

theorem RouteAt.flip {s : Shared} {d : Side} {r : Route} {p q : Ptr} (h : RouteAt s d r p q) :
    RouteAt s d.other r q p := ⟨h.allocated, h.type, h.key, h.far, by rw [Side.other_other]; exact h.near⟩

theorem links_on {s : Shared} {d : Side} {l t : Tree} {r : Route} {p : Ptr} :
    Links s p (on d l r t) ↔ RouteAt s d r (top l) (top t) ∧ Links s r.ptr l ∧ Links s r.ptr t := by
  cases d with
  | left => rfl
  | right => exact ⟨fun ⟨h, hl, ht⟩ => ⟨h.flip, ht, hl⟩, fun ⟨h, hl, ht⟩ => ⟨h.flip, ht, hl⟩⟩

/-- The node above a route node does not matter. -/
theorem links_plug_cons {s : Shared} {G : Frame Base Route} {D : Path} {t : Tree} {p q : Ptr}
    (h : Links s p (plug (G :: D) t)) : Links s q (plug (G :: D) t) := by
  induction D generalizing G t with
  | nil => exact links_on.mpr (links_on.mp h)
  | cons G' D ih => exact ih h

theorem links_plug {s : Shared} {C : Path} {t : Tree} :
    (s.root = top (plug C t) ∧ Links s nullptr (plug C t)) ↔ PathLinks s C (top t) ∧ Links s (holder C) t := by
  induction C generalizing t with
  | nil => rfl
  | cons F C ih =>
      rw [plug_cons, ih, top_on, links_on, PathLinks, holder_cons]
      tauto

/-- The nodes reachable from the root are `T`, each through one pointer. -/
structure Shape (s : Shared) (T : Tree) : Prop where
  root : s.root = top T
  links : Links s nullptr T
  nodup : (ptrs T).Nodup

theorem shape_plug {s : Shared} {C : Path} {t : Tree} :
    Shape s (plug C t) ↔ PathLinks s C (top t) ∧ Links s (holder C) t ∧ (ptrs (plug C t)).Nodup :=
  ⟨fun h => ⟨(links_plug.mp ⟨h.root, h.links⟩).1, (links_plug.mp ⟨h.root, h.links⟩).2, h.nodup⟩,
    fun ⟨hC, ht, hn⟩ => ⟨(links_plug.mpr ⟨hC, ht⟩).1, (links_plug.mpr ⟨hC, ht⟩).2, hn⟩⟩

/-! ### Frames -/

/-- Nothing the shape of the tree depends on changes in the node `p`. -/
def Keeps (s s' : Shared) (p : Ptr) : Prop :=
  (s.Allocated p → s'.Allocated p) ∧ (s'.nodes p).links = (s.nodes p).links

theorem Keeps.get_child {s s' : Shared} {p : Ptr} (h : Keeps s s' p) (d : Side) :
    (s'.nodes p).get (.child d) = (s.nodes p).get (.child d) := by
  have hl := h.2
  simp only [Node.links, Prod.mk.injEq] at hl
  obtain ⟨_, _, _, _, _, hl, hr⟩ := hl
  cases d
  · exact hl
  · exact hr

theorem Keeps.of_nodes_eq {s s' : Shared} {p : Ptr} (ha : s.Allocated p → s'.Allocated p) (h : s'.nodes p = s.nodes p) :
    Keeps s s' p := ⟨ha, by rw [h]⟩

theorem Keeps.update (s : Shared) {f : Node → Node} (hf : ∀ n, (f n).links = n.links) (p q : Ptr) :
    Keeps s (s.update p f) q := ⟨id, s.update_keeps Node.links hf p q⟩

theorem Keeps.alloc {s : Shared} {p : Ptr} (h : s.Allocated p) (n : Node) : Keeps s (s.alloc n) p :=
  .of_nodes_eq (fun h => h.alloc n) (h.nodes_alloc n)

theorem Keeps.type {s s' : Shared} {p : Ptr} (h : Keeps s s' p) : (s'.nodes p).type = (s.nodes p).type := by
  have hl := h.2
  simp only [Node.links, Prod.mk.injEq] at hl
  exact hl.1

theorem RouteAt.congr {s s' : Shared} {d : Side} {r : Route} {p q : Ptr} (h : RouteAt s d r p q)
    (hk : Keeps s s' r.ptr) : RouteAt s' d r p q := by
  have hl := hk.2
  simp only [Node.links, Prod.mk.injEq] at hl
  exact ⟨hk.1 h.allocated, by rw [hl.1, h.type], by rw [hl.2.1, h.key], by rw [hk.get_child, h.near],
    by rw [hk.get_child, h.far]⟩

theorem BaseAt.congr {s s' : Shared} {b : Base} {p : Ptr} (h : BaseAt s b p) (hk : Keeps s s' b.ptr) :
    BaseAt s' b p := by
  have hl := hk.2
  simp only [Node.links, Prod.mk.injEq] at hl
  exact ⟨hk.1 h.allocated, by rw [hl.1]; exact h.type, by rw [hl.2.2.1]; exact h.stores,
    by rw [hl.2.2.2.1, h.stat], by rw [hl.2.2.2.2.1, h.parent], fun d => by rw [hk.get_child, h.leaf]⟩

theorem Links.congr {s s' : Shared} {T : Tree} {p : Ptr} (h : Links s p T) (hk : ∀ q ∈ ptrs T, Keeps s s' q) :
    Links s' p T := by
  induction T generalizing p with
  | leaf b => exact BaseAt.congr h (hk _ (by simp))
  | node l r t ihl iht =>
      obtain ⟨hr, hl, ht⟩ := h
      exact ⟨hr.congr (hk _ (by simp)), ihl hl (fun q hq => hk q (by simp [hq])), iht ht (fun q hq => hk q (by simp [hq]))⟩

theorem PathLinks.congr {s s' : Shared} {C : Path} {p : Ptr} (h : PathLinks s C p) (hroot : s'.root = s.root)
    (hk : ∀ q ∈ pathPtrs C, Keeps s s' q) : PathLinks s' C p := by
  induction C generalizing p with
  | nil => exact hroot.trans h
  | cons F C ih =>
      obtain ⟨hr, ht, hC⟩ := h
      exact ⟨hr.congr (hk _ (mem_pathPtrs_cons.mpr (.inl rfl))),
        ht.congr (fun q hq => hk q (mem_pathPtrs_cons.mpr (.inr (.inl hq)))),
        ih hC (fun q hq => hk q (mem_pathPtrs_cons.mpr (.inr (.inr hq))))⟩

theorem Shape.congr {s s' : Shared} {T : Tree} (h : Shape s T) (hroot : s'.root = s.root)
    (hk : ∀ q ∈ ptrs T, Keeps s s' q) : Shape s' T := ⟨hroot.trans h.root, h.links.congr hk, h.nodup⟩

theorem Links.allocated {s : Shared} {T : Tree} {p q : Ptr} (h : Links s p T) (hq : q ∈ ptrs T) : s.Allocated q := by
  induction T generalizing p with
  | leaf b =>
      rw [ptrs_leaf, List.mem_singleton] at hq
      exact hq ▸ BaseAt.allocated h
  | node l r t ihl iht =>
      obtain ⟨hr, hl, ht⟩ := h
      rw [ptrs_node, List.mem_append, List.mem_cons] at hq
      rcases hq with hq | rfl | hq
      · exact ihl hl hq
      · exact hr.allocated
      · exact iht ht hq

theorem Shape.allocated {s : Shared} {T : Tree} {q : Ptr} (h : Shape s T) (hq : q ∈ ptrs T) : s.Allocated q :=
  h.links.allocated hq

theorem Shape.next_notMem {s : Shared} {T : Tree} (h : Shape s T) : s.next ∉ ptrs T :=
  fun hm => (h.allocated hm).ne_next rfl

theorem Shape.alloc {s : Shared} {T : Tree} (h : Shape s T) (n : Node) : Shape (s.alloc n) T :=
  h.congr rfl fun _ hp => .alloc (h.allocated hp) n

/-- An assignment of the pointer to the hole. -/
theorem PathLinks.redirect {s : Shared} {C : Path} {p : Ptr} (h : PathLinks s C p) (hn : (pathPtrs C).Nodup) (q : Ptr) :
    PathLinks (s.redirect C q) C q := by
  cases C with
  | nil => rfl
  | cons F C =>
      obtain ⟨hr, ht, hC⟩ := h
      obtain ⟨h₁, h₂, -, -, -⟩ := nodup_pathPtrs_cons.mp hn
      have hne : ∀ x, x ≠ F.label.ptr → Keeps s (s.redirect (F :: C) q) x := fun x hx =>
        .of_nodes_eq id (by rw [Shared.redirect_cons]; exact s.nodes_update_ne _ hx)
      refine ⟨⟨hr.allocated, ?_, ?_, ?_, ?_⟩, ht.congr (fun x hx => hne x (fun he => h₁ (he ▸ hx))),
        hC.congr rfl (fun x hx => hne x (fun he => h₂ (he ▸ hx)))⟩
      · rw [Shared.redirect_cons, s.nodes_update, Node.toPlain_set, hr.type]
      · rw [Shared.redirect_cons, s.nodes_update, Node.toPlain_set, hr.key]
      · rw [Shared.redirect_cons, s.nodes_update, Node.get_set]
      · rw [Shared.redirect_cons, s.nodes_update, Node.get_set_ne _ _ (by simp), hr.far]

theorem PathLinks.shape_redirect {s : Shared} {C : Path} {p : Ptr} {u : Tree} (h : PathLinks s C p)
    (hnC : (pathPtrs C).Nodup) (hu : Links s (holder C) u) (hn : (ptrs u).Nodup) (hd : ∀ p ∈ ptrs u, p ∉ pathPtrs C) :
    Shape (s.redirect C (top u)) (plug C u) :=
  shape_plug.mpr ⟨h.redirect hnC _,
    hu.congr (fun p hp => .of_nodes_eq (s.allocated_redirect _ _ _).mpr (s.nodes_redirect_ne _ (hd p hp))),
    nodup_ptrs_plug.mpr ⟨hn, hnC, fun p hp => hd p hp⟩⟩

theorem Shape.redirect {s : Shared} {C : Path} {t u : Tree} (h : Shape s (plug C t)) (hu : Links s (holder C) u)
    (hn : (ptrs u).Nodup) (hd : ∀ p ∈ ptrs u, p ∉ pathPtrs C) : Shape (s.redirect C (top u)) (plug C u) :=
  (shape_plug.mp h).1.shape_redirect (nodup_ptrs_plug.mp h.nodup).2.1 hu hn hd

end Lfca

end LockFreeSearchTree
