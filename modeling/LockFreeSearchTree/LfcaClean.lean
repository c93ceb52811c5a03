import LockFreeSearchTree.LfcaOps

/-! # The tree while no call is running

* **Invariant.** `Clean s T`: the tree of `s` is `T`, no route node takes part in a join, and every
  base node is `Settled`: replaceable, and not the main node of a join that goes on.  Base nodes of
  type `range` do not occur.
* **Replacements.** Every change of the tree but the last part of a join replaces a base node by
  new nodes (`Clean.graft`).
* **Functions.** What `try_replace`, `is_replaceable`, `new_stat`, `find_base_node` and
  `high_contention_adaptation` do in a clean tree. -/

namespace LockFreeSearchTree

open BinTree Concurrent Concurrent.Prog

namespace Lfca

variable {F : Fault → Prop} {s s' : Shared} {T : Tree} {C : Path} {b : Base}

/-! ### The invariant -/

/-- The base node at `p` can be replaced, and a copy of it can become the main node of a join. -/
structure Settled (s : Shared) (p : Ptr) : Prop where
  neigh2 : (s.nodes p).neigh2 = PREPARING ∨ (s.nodes p).neigh2 = ABORTED
  replaceable : match (s.nodes p).type with
    | .normal => True
    | .joinMain => (s.nodes p).neigh2 = ABORTED
    | .joinNeighbor => s.Allocated (s.nodes p).mainNode ∧
        ((s.nodes (s.nodes p).mainNode).neigh2 = ABORTED ∨ (s.nodes (s.nodes p).mainNode).neigh2 = DONE)
    | _ => False

/-- The result storages not handed out yet are as constructed. -/
structure FreshStores (s : Shared) : Prop where
  first : firstPtr ≤ s.nextStore
  unused : ∀ p, s.nextStore ≤ p → s.stores p = {}

/-- No route node of the tree takes part in a join. -/
structure Neat (s : Shared) (T : Tree) : Prop where
  shape : Shape s T
  routes : ∀ r ∈ T.labels, (s.nodes r.ptr).valid = true ∧ (s.nodes r.ptr).joinId = nullptr
  stores : FreshStores s

/-- No node of the tree takes part in a join. -/
structure Clean (s : Shared) (T : Tree) : Prop extends Neat s T where
  bases : ∀ b ∈ T.leaves, Settled s b.ptr
  calm : ∀ b ∈ T.leaves, b.stat ≤ 0

theorem Settled.extends {p : Ptr} (h : Settled s p) (hp : s.Allocated p) (he : s.Extends s') : Settled s' p := by
  obtain ⟨hn, hr⟩ := h
  have hpl := he.plain p hp
  have hne := he.neigh2 p hp
  refine ⟨by rw [hne]; exact hn, ?_⟩
  rw [hpl, hne]
  split at hr
  · trivial
  · exact hr
  · exact ⟨he.allocated hr.1, by rw [he.neigh2 _ hr.1]; exact hr.2⟩
  · exact hr.elim

theorem Settled.type_ne_range {p : Ptr} (h : Settled s p) : (s.nodes p).type ≠ .range := fun he => by
  have hr := h.replaceable
  rw [he] at hr
  exact hr

theorem Shape.base (h : Shape s (plug C (leaf b))) : BaseAt s b (holder C) := (shape_plug.mp h).2.1

theorem Shape.base_of_mem (h : Shape s T) (hb : b ∈ T.leaves) : ∃ p, BaseAt s b p := by
  obtain ⟨C, rfl⟩ := exists_plug_of_mem_leaves hb
  exact ⟨_, h.base⟩

theorem Shape.route_of_mem (h : Shape s T) {r : Route} (hr : r ∈ T.labels) : ∃ p q, RouteAt s .left r p q := by
  obtain ⟨C, l, t, rfl⟩ := exists_plug_of_mem_labels hr
  exact ⟨_, _, (shape_plug.mp h).2.1.1⟩

/-- The pools are no part of the tree. -/
theorem Neat.withPools (h : Neat s T) (P : Pools) : Neat { s with pools := P } T where
  shape := h.shape.congr rfl fun _ _ => .of_nodes_eq id rfl
  routes := h.routes
  stores := ⟨h.stores.first, h.stores.unused⟩

theorem Clean.withPools (h : Clean s T) (P : Pools) : Clean { s with pools := P } T where
  toNeat := h.toNeat.withPools P
  bases := fun b hb => ⟨(h.bases b hb).neigh2, (h.bases b hb).replaceable⟩
  calm := h.calm

/-- New nodes in the place of old ones. -/
theorem Neat.graft {t u : Tree} (h : Neat s (plug C t)) (hroot : s'.root = s.root) (he : s.Extends s')
    (hold : ∀ p, s.Allocated p → s'.nodes p = s.nodes p) (hu : Links s' (holder C) u) (hn : (ptrs u).Nodup)
    (hnew : ∀ p ∈ ptrs u, ¬ s.Allocated p)
    (hroutes : ∀ r ∈ u.labels, (s'.nodes r.ptr).valid = true ∧ (s'.nodes r.ptr).joinId = nullptr)
    (hstores : FreshStores s') : Neat (s'.redirect C (top u)) (plug C u) where
  shape := by
    have hs : Shape s' (plug C t) := h.shape.congr hroot fun p hp =>
      .of_nodes_eq he.allocated (hold p (h.shape.allocated hp))
    exact hs.redirect hu hn (fun p hp hC => hnew p hp (h.shape.allocated (mem_ptrs_plug.mpr (.inr hC))))
  routes := by
    intro r hr
    rw [Shared.valid_redirect, Shared.joinId_redirect]
    rcases mem_labels_plug.mp hr with hr | hr
    · exact hroutes r hr
    · have hr' := mem_labels_plug (t := t) |>.mpr (.inr hr)
      rw [hold _ (h.shape.allocated (mem_ptrs_of_label hr'))]
      exact h.routes r hr'
  stores := by
    refine ⟨?_, ?_⟩
    · rw [Shared.nextStore_redirect]
      exact hstores.first
    · rw [Shared.nextStore_redirect, Shared.stores_redirect]
      exact hstores.unused

theorem Clean.graft {t u : Tree} (h : Clean s (plug C t)) (hroot : s'.root = s.root) (he : s.Extends s')
    (hold : ∀ p, s.Allocated p → s'.nodes p = s.nodes p) (hu : Links s' (holder C) u) (hn : (ptrs u).Nodup)
    (hnew : ∀ p ∈ ptrs u, ¬ s.Allocated p)
    (hroutes : ∀ r ∈ u.labels, (s'.nodes r.ptr).valid = true ∧ (s'.nodes r.ptr).joinId = nullptr)
    (hstores : FreshStores s') (hbases : ∀ b ∈ u.leaves, Settled s' b.ptr ∧ b.stat ≤ 0) :
    Clean (s'.redirect C (top u)) (plug C u) where
  toNeat := h.toNeat.graft hroot he hold hu hn hnew hroutes hstores
  bases := by
    intro b hb
    rcases mem_leaves_plug.mp hb with hb | hb
    · exact (hbases b hb).1.extends (hu.allocated (mem_ptrs_of_leaf hb)) ((Shared.Extends.refl _).redirect _ _)
    · have hb' := mem_leaves_plug (t := t) |>.mpr (.inr hb)
      exact (h.bases b hb').extends (h.shape.allocated (mem_ptrs_of_leaf hb')) (he.redirect _ _)
  calm := by
    intro b hb
    rcases mem_leaves_plug.mp hb with hb | hb
    · exact (hbases b hb).2
    · exact h.calm b (mem_leaves_plug (t := t) |>.mpr (.inr hb))

/-- A copy of a base node in its place. -/
structure CopyOf (x y : Node) : Prop where
  type : x.type ≠ .route
  data : x.data = y.data
  stat : x.stat = y.stat
  parent : x.parent = y.parent
  child : ∀ d, x.get (.child d) = y.get (.child d)

theorem BaseAt.copy {p : Ptr} {x : Node} (h : BaseAt s b p) (hx : CopyOf x (s.nodes b.ptr)) :
    BaseAt (s.alloc x) ⟨s.next, b.vals, b.stat⟩ p where
  allocated := ⟨h.allocated.1.trans h.allocated.2.le, Nat.lt_succ_self _⟩
  type := by rw [Shared.nodes_alloc]; exact hx.type
  stores := by rw [Shared.nodes_alloc, hx.data]; exact h.stores
  stat := by rw [Shared.nodes_alloc, hx.stat, h.stat]
  parent := by rw [Shared.nodes_alloc, hx.parent, h.parent]
  leaf := fun d => by rw [Shared.nodes_alloc, hx.child, h.leaf]

theorem Neat.copy {x : Node} (h : Neat s (plug C (leaf b))) (hx : CopyOf x (s.nodes b.ptr)) :
    Neat ((s.alloc x).redirect C s.next) (plug C (leaf ⟨s.next, b.vals, b.stat⟩)) :=
  h.graft (u := leaf ⟨s.next, b.vals, b.stat⟩) rfl ((Shared.Extends.refl s).alloc x) (fun _ hp => hp.nodes_alloc x)
    (h.shape.base.copy hx) (by simp) (fun p hp hs => hs.ne_next (by simpa using hp)) (by simp)
    ⟨h.stores.first, h.stores.unused⟩

theorem Clean.copy {x : Node} (h : Clean s (plug C (leaf b))) (hx : CopyOf x (s.nodes b.ptr))
    (hs : Settled (s.alloc x) s.next) : Clean ((s.alloc x).redirect C s.next) (plug C (leaf ⟨s.next, b.vals, b.stat⟩)) :=
  h.graft (u := leaf ⟨s.next, b.vals, b.stat⟩) rfl ((Shared.Extends.refl s).alloc x) (fun _ hp => hp.nodes_alloc x)
    (h.shape.base.copy hx) (by simp) (fun p hp hs => hs.ne_next (by simpa using hp)) (by simp)
    ⟨h.stores.first, h.stores.unused⟩ fun b' hb' => by
      rw [leaves_leaf, List.mem_singleton] at hb'
      rw [hb']
      exact ⟨hs, h.calm b (mem_leaves_plug.mpr (.inl (by simp)))⟩

/-- A copy that only differs in the fields of range queries is as settled as the original. -/
theorem Settled.copy {p : Ptr} {x : Node} (h : Settled s p) (hp : s.Allocated p) (ht : x.type = (s.nodes p).type)
    (hn : x.neigh2 = (s.nodes p).neigh2) (hm : x.mainNode = (s.nodes p).mainNode) : Settled (s.alloc x) s.next := by
  have h' := h.extends hp ((Shared.Extends.refl s).alloc x)
  obtain ⟨hn', hr'⟩ := h'
  rw [hp.nodes_alloc] at hn' hr'
  refine ⟨by rw [Shared.nodes_alloc, hn]; exact hn', ?_⟩
  rw [Shared.nodes_alloc, ht, hn, hm]
  exact hr'

/-- A new base node of type `normal` in the place of another. -/
theorem Clean.put {t : Treap} {vs : List ℤ} {stat : ℤ} (h : Clean s (plug C (leaf b))) (ht : t.Stores vs) (hstat : stat ≤ 0) :
    Clean ((s.alloc { type := .normal, parent := holder C, data := some t, stat := stat }).redirect C s.next)
      (plug C (leaf ⟨s.next, vs, stat⟩)) := by
  have hb := h.shape.base
  set x : Node := { type := .normal, parent := holder C, data := some t, stat := stat }
  have hx : (s.alloc x).nodes s.next = x := Shared.nodes_alloc _ x
  refine h.graft (u := leaf ⟨s.next, vs, stat⟩) rfl ((Shared.Extends.refl s).alloc x) (fun p hp => hp.nodes_alloc x) ?_ (by simp)
    (fun p hp hs => hs.ne_next (by simpa using hp)) (by simp) ⟨h.stores.first, h.stores.unused⟩ fun b' hb' => ?_
  · exact ⟨⟨hb.allocated.1.trans hb.allocated.2.le, Nat.lt_succ_self _⟩, by simp [hx, x], ⟨t, by rw [hx], ht⟩, by rw [hx],
      by rw [hx], fun d => by rw [hx]; cases d <;> rfl⟩
  · rw [leaves_leaf, List.mem_singleton] at hb'
    rw [hb']
    refine ⟨⟨?_, ?_⟩, hstat⟩
    · rw [hx]
      exact .inl rfl
    · rw [hx]
      trivial

/-! ### Functions -/

/-- `try_replace` on a base node of the tree. -/
theorem meets_tryReplace {caller : Option Ptr} {q : Ptr} {Q : Bool → Shared → Prop} (h : Shape s (plug C (leaf b))) :
    Meets exec F (tryReplace caller b.ptr q) s Q ↔ Q true (s.redirect C q) := by
  obtain ⟨hC, -, hn⟩ := shape_plug.mp h
  have hb := h.base
  unfold tryReplace
  rw [meets_bind, meets_plain hb.allocated]
  have hp := hb.parent
  generalize (s.nodes b.ptr).toPlain.parent = parent at hp ⊢
  subst hp
  cases C with
  | nil => exact meets_casRoot hC
  | cons G C =>
      obtain ⟨d, r, t⟩ := G
      obtain ⟨hr, ht, -⟩ := hC
      simp only [top_leaf] at hr ht
      have hne : top t ≠ b.ptr := fun he => by
        rw [nodup_ptrs_plug] at hn
        exact hn.2.2 (by simp) (mem_pathPtrs_cons.mpr (.inr (.inl (he ▸ top_mem t))))
      dsimp only [holder_cons]
      rw [if_neg hr.allocated.ne_null, meets_bind, meets_load hr.allocated]
      cases d with
      | left =>
          rw [if_pos hr.near]
          exact meets_casBy hr.allocated hr.near
      | right =>
          have hfar : (s.nodes r.ptr).get (.child .left) = top t := hr.far
          rw [hfar, if_neg hne, meets_bind, meets_load hr.allocated, if_pos hr.near]
          exact meets_casBy hr.allocated hr.near

theorem meets_isReplaceable {p : Ptr} {Q : Bool → Shared → Prop} (hp : s.Allocated p) (h : Settled s p) :
    Meets exec F (isReplaceable p) s Q ↔ Q true s := by
  have hr := h.replaceable
  unfold isReplaceable
  simp only [meets_bind, meets_plain hp]
  split at hr
  case h_1 ht => simp only [ht, meets_pure]
  case h_2 ht => simp only [ht, meets_bind, meets_load hp, Node.get, hr, meets_pure, decide_true]
  case h_3 ht =>
    have hd : (s.nodes (s.nodes p).mainNode).get .neigh2 = ABORTED ∨ (s.nodes (s.nodes p).mainNode).get .neigh2 = DONE :=
      hr.2
    simp only [ht, meets_bind, meets_load hr.1, meets_pure, hd, decide_true]
  case h_4 => exact hr.elim

/-- The value of `new_stat` for a node that is not of type `range`. -/
def nextStat (stat : ℤ) (info : ContentionInfo) : ℤ :=
  if info = .contended ∧ stat ≤ HIGH_CONT then stat + CONT_CONTRIB
  else if info = .uncontened ∧ stat ≥ LOW_CONT then stat - LOW_CONT_CONTRIB else stat

theorem nextStat_le {stat : ℤ} {info : ContentionInfo} (h : stat ≤ 0) (hi : info ≠ .contended) :
    nextStat stat info ≤ 0 := by
  unfold nextStat LOW_CONT_CONTRIB
  simp only [hi, false_and, ↓reduceIte]
  split_ifs <;> omega

theorem meets_newStat {p : Ptr} {info : ContentionInfo} {Q : ℤ → Shared → Prop} (hp : s.Allocated p)
    (ht : (s.nodes p).type ≠ .range) : Meets exec F (newStat p info) s Q ↔ Q (nextStat (s.nodes p).stat info) s := by
  unfold newStat nextStat
  simp only [meets_bind, meets_plain hp, if_neg ht, meets_pure, Bool.false_eq_true, ↓reduceIte, sub_zero]
  split_ifs <;> rfl

/-- `find_base_node` goes left exactly at the keys that are at least `i`. -/
theorem findBaseNode_meets {p : Ptr} {i : ℤ} {fuel : ℕ} {Q : Ptr → Shared → Prop} (h : Links s p T)
    (hf : Fueled F T.height fuel) (hQ : Q (seek (fun r => i ≤ r.key) T).ptr s) :
    Meets exec F (findBaseNode fuel (top T) i) s Q := by
  induction T generalizing p fuel with
  | leaf b =>
      cases fuel with
      | zero => exact hf.zero
      | succ fuel =>
          have hb : BaseAt s b p := h
          unfold findBaseNode
          simp only [top_leaf, meets_bind, meets_plain hb.allocated, hb.type, ↓reduceIte, meets_pure]
          exact hQ
  | node l r t ihl iht =>
      cases fuel with
      | zero => exact hf.zero
      | succ fuel =>
          obtain ⟨hr, hl, ht⟩ := h
          unfold findBaseNode
          simp only [top_node, meets_bind, meets_plain hr.allocated, hr.type, hr.key, ↓reduceIte]
          unfold seek at hQ
          split_ifs at hQ ⊢ with hi
          · simp only [meets_bind, meets_load hr.allocated, hr.near]
            exact ihl hl (hf.pred (by simp only [height]; omega)) hQ
          · have hfar : (s.nodes r.ptr).get (.child .right) = top t := hr.far
            simp only [meets_bind, meets_load hr.allocated, hfar]
            exact iht ht (hf.pred (by simp only [height]; omega)) hQ

/-- The heap after the three nodes of a split have been allocated. -/
theorem alloc_splitNodes (s : Shared) (key : ℤ) (lt rt : Treap) :
    ∃ s', (splitNodes key lt rt s.next).foldl Shared.alloc s = s' ∧ s.Extends s' ∧ s'.next = s.next + 3 ∧
      s'.root = s.root ∧ s'.stores = s.stores ∧ s'.nextStore = s.nextStore ∧
      (∀ p, s.Allocated p → s'.nodes p = s.nodes p) ∧
      s'.nodes s.next = { type := .route, valid := true, key := key, left := s.next + 1, right := s.next + 2 } ∧
      s'.nodes (s.next + 1) = { type := .normal, parent := s.next, stat := 0, data := some lt } ∧
      s'.nodes (s.next + 2) = { type := .normal, parent := s.next, stat := 0, data := some rt } := by
  refine ⟨_, rfl, (((Shared.Extends.refl s).alloc _).alloc _).alloc _, rfl, rfl, rfl, rfl, fun p hp => ?_, ?_, ?_, ?_⟩
  all_goals simp only [splitNodes, List.foldl_cons, List.foldl_nil]
  · rw [((hp.alloc _).alloc _).nodes_alloc, (hp.alloc _).nodes_alloc, hp.nodes_alloc]
  · rw [Shared.nodes_alloc_ne _ _ (by simp [add_assoc]), Shared.nodes_alloc_ne _ _ (by simp), Shared.nodes_alloc]
  · rw [Shared.nodes_alloc_ne _ _ (by simp)]
    exact Shared.nodes_alloc _ _
  · exact Shared.nodes_alloc _ _

/-- A split of the values `vs` at `key`. -/
structure SplitAt (vs : List ℤ) (key : ℤ) (ls rs : List ℤ) : Prop where
  append : vs = ls ++ rs
  key_eq : Sorted vs → key = medianOf vs
  left_le : Sorted vs → ∀ v ∈ ls, v ≤ key
  right_gt : Sorted vs → ∀ v ∈ rs, key < v

/-- `high_contention_adaptation` on a base node of the tree. -/
theorem highContentionAdaptation_meets {Q : Unit → Shared → Prop} (h : Clean s (plug C (leaf b))) (hF : Admits F s)
    (hsmall : b.vals.length < 2 → Q () s)
    (hsplit : 2 ≤ b.vals.length → ∀ s' l r t, s.Extends s' → Clean s' (plug C (node (leaf l) r (leaf t))) →
      SplitAt b.vals r.key l.vals t.vals → Q () s') :
    Meets exec F (highContentionAdaptation b.ptr) s Q := by
  have hb := h.shape.base
  obtain ⟨data, hdata, hst⟩ := hb.stores
  have hlen := hst.length
  unfold highContentionAdaptation
  rw [meets_bind, meets_dataOf hb.allocated hdata, Treap.getSize]
  split_ifs with hsize
  · exact hsmall (by omega)
  have hne : b.vals ≠ [] := fun he => by
    rw [he, List.length_nil] at hlen
    omega
  -- the pools hand out the route node, the treaps and the base nodes
  have hpools : ∀ {P : Pools}, s.pools.Same P → s.Extends { s with pools := P } := fun hsame =>
    (Shared.Extends.refl s).withPools hsame
  rw [meets_bind]
  refine fromPool_meets hF PoolOp.gives_node fun _ P₁ _ h₁ => ?_
  rw [meets_bind]
  refine fromPool_meets (hF.extends (hpools h₁)) (PoolOp.gives_of_yields (fun _ => rfl) (Treap.split_yields hst hne)) ?_
  rintro ⟨key, lt, rt⟩ P₂ ⟨ls, rs, hvs, hl, hr, hkey⟩ h₂
  simp only at hl hr hkey h₂ ⊢
  rw [meets_bind]
  refine fromPool_meets (hF.extends (hpools (h₁.trans h₂))) PoolOp.gives_node fun _ P₃ _ h₃ => ?_
  rw [meets_bind]
  refine fromPool_meets (hF.extends (hpools ((h₁.trans h₂).trans h₃))) PoolOp.gives_node fun _ P₄ _ h₄ => ?_
  have he₁ : s.Extends { s with pools := P₄ } := hpools (((h₁.trans h₂).trans h₃).trans h₄)
  rw [meets_bind, meets_news]
  obtain ⟨s₂, hs₂, he₂, hnext, hroot, hstores, hnextStore, hold, hroute, hleft, hright⟩ :=
    alloc_splitNodes { s with pools := P₄ } key lt rt
  simp only at hs₂ ⊢
  rw [hs₂]
  replace he₂ := he₁.trans he₂
  simp only at hnext hroot hstores hnextStore hroute hleft hright
  have hfirst : firstPtr ≤ s.next := hb.allocated.1.trans hb.allocated.2.le
  have hsettled : ∀ p, (s₂.nodes p).type = .normal → (s₂.nodes p).neigh2 = PREPARING → Settled s₂ p :=
    fun p ht hn => ⟨.inl hn, by rw [ht]; trivial⟩
  rw [meets_bind, meets_tryReplace (h.shape.congr hroot fun p hp =>
    .of_nodes_eq he₂.allocated (hold p (h.shape.allocated hp)))]
  refine hsplit (by omega) _ ⟨s.next + 1, ls, 0⟩ ⟨s.next, key⟩ ⟨s.next + 2, rs, 0⟩ (he₂.redirect _ _) ?_
    ⟨hvs, fun ho => (hkey ho).1, fun ho => (hkey ho).2.1, fun ho => (hkey ho).2.2⟩
  have halloc : ∀ p, s.next ≤ p → p < s.next + 3 → s₂.Allocated p := fun p hp hp' =>
    ⟨hfirst.trans hp, by rw [hnext]; exact hp'⟩
  refine h.graft (t := leaf b) (u := node (leaf ⟨s.next + 1, ls, 0⟩) ⟨s.next, key⟩ (leaf ⟨s.next + 2, rs, 0⟩))
    hroot he₂ hold ⟨⟨halloc _ (by simp) (by simp), ?_, ?_, ?_, ?_⟩, ?_, ?_⟩ (by simp) ?_ ?_ ?_ ?_
  · rw [hroute]
  · rw [hroute]
  · rw [hroute]; rfl
  · rw [hroute]; rfl
  · exact ⟨halloc _ (by simp) (by simp), by simp [hleft], ⟨lt, by rw [hleft], hl⟩, by rw [hleft], by rw [hleft],
      fun d => by rw [hleft]; cases d <;> rfl⟩
  · exact ⟨halloc _ (by simp) (by simp), by simp [hright], ⟨rt, by rw [hright], hr⟩, by rw [hright], by rw [hright],
      fun d => by rw [hright]; cases d <;> rfl⟩
  · intro p hp hs
    simp only [ptrs_node, ptrs_leaf, List.cons_append, List.nil_append, List.mem_cons, List.not_mem_nil, or_false] at hp
    rcases hp with rfl | rfl | rfl <;> simp [Shared.Allocated] at hs
  · intro r hr
    simp only [labels_node, labels_leaf, List.nil_append, List.mem_singleton] at hr
    rw [hr, hroute]
    exact ⟨rfl, rfl⟩
  · exact ⟨by rw [hnextStore]; exact h.stores.first, by rw [hnextStore, hstores]; exact h.stores.unused⟩
  · intro b hb
    simp only [leaves_node, leaves_leaf, List.cons_append, List.nil_append, List.mem_cons, List.not_mem_nil, or_false] at hb
    rcases hb with rfl | rfl
    · exact ⟨hsettled _ (by rw [hleft]) (by rw [hleft]), le_rfl⟩
    · exact ⟨hsettled _ (by rw [hright]) (by rw [hright]), le_rfl⟩

end Lfca

end LockFreeSearchTree
