import LockFreeSearchTree.LfcaClean

/-! # Joins

What `low_contention_adaptation` does to a clean tree.

* **Stages.** Once `secure_join` has replaced the base node and its neighbor, the tree is
  `Joining` until the join is given up (`Joining.abort`) or the merged node is published
  (`Published`); the joins entered in the route nodes are `Locks`.
* **Outcomes.** A join that is given up leaves copies of base nodes, one that is completed takes
  the base node and its parent out of the tree; both are steps of `Rearranges`. -/

namespace LockFreeSearchTree

open BinTree Concurrent Concurrent.Prog

namespace Lfca

variable {F : Fault → Prop} {s₀ s s' : Shared} {T : Tree} {C D : Path} {b m n : Base} {r : Route} {d : Side}

/-! ### Changes of the tree that keep its values -/

/-- The values of a base node on side `d` and of its neighbor in order. -/
def joined : Side → List ℤ → List ℤ → List ℤ
  | .left, vs, ws => vs ++ ws
  | .right, vs, ws => ws ++ vs

/-- A base node is copied, or joined with its neighbor. -/
inductive Rearranges : Tree → Tree → Prop
  | copy {C : Path} {b b' : Base} (vals : b'.vals = b.vals) : Rearranges (plug C (leaf b)) (plug C (leaf b'))
  | join {C D : Path} {d : Side} {b n m : Base} {r : Route} (side : ∀ G ∈ D, G.side = d)
      (vals : m.vals = joined d b.vals n.vals) :
      Rearranges (plug C (on d (leaf b) r (plug D (leaf n)))) (plug C (plug D (leaf m)))

/-! ### Walks -/

/-- The loop of `leftmost` and `rightmost` on a tree. -/
theorem outermost_meets {p : Ptr} {fuel : ℕ} {Q : Ptr → Shared → Prop} (h : Links s p T)
    (hf : Fueled F T.height fuel) (hQ : Q (seek (fun _ => d = .left) T).ptr s) :
    Meets exec F (outermost d fuel (top T)) s Q := by
  induction T generalizing p fuel with
  | leaf b =>
      cases fuel with
      | zero => exact hf.zero
      | succ fuel =>
          have hb : BaseAt s b p := h
          unfold outermost
          rw [top_leaf, meets_bind, meets_load hb.allocated, if_neg (by simp [hb.leaf])]
          exact hQ
  | node l r t ihl iht =>
      cases fuel with
      | zero => exact hf.zero
      | succ fuel =>
          obtain ⟨hr, hl, ht⟩ := h
          unfold outermost
          unfold seek at hQ
          rw [top_node, meets_bind, meets_load hr.allocated]
          cases d with
          | left =>
              rw [if_pos (by rw [hr.near]; exact (hl.allocated (top_mem l)).ne_null), meets_bind, meets_load hr.allocated,
                hr.near]
              exact ihl hl (hf.pred (by simp only [height]; omega)) hQ
          | right =>
              have hfar : (s.nodes r.ptr).get (.child .right) = top t := hr.far
              rw [if_pos (by rw [hfar]; exact (ht.allocated (top_mem t)).ne_null), meets_bind, meets_load hr.allocated, hfar]
              exact iht ht (hf.pred (by simp only [height]; omega)) hQ

/-- The loop of `parent_of` returns the parent of the route node, or does not find it; it does if
the key of the route node leads to it. -/
theorem parentOfLoop_meets {t : Tree} {fuel : ℕ} {Q : Ptr → Shared → Prop} (h : Shape s (plug C t))
    (hr : s.Allocated r.ptr) (hk : (s.nodes r.ptr).key = r.key) (hf : Fueled F t.height fuel)
    (hfound : ∀ C' l' r' t', plug C' (node l' r' t') = plug C t → r'.ptr = r.ptr → Q (holder C') s)
    (hnot : (r ∈ t.labels → ¬ Searchable Route.key t) → Q NOT_FOUND s) :
    Meets exec F (parentOfLoop fuel r.ptr (holder C) (top t)) s Q := by
  induction t generalizing C fuel with
  | leaf b =>
      cases fuel with
      | zero => exact hf.zero
      | succ fuel =>
          have hb := h.base
          unfold parentOfLoop
          rw [top_leaf, meets_bind, meets_plain hb.allocated, if_neg (fun hh => hb.type hh.2), if_pos hb.type]
          exact hnot (by simp)
  | node l r' t ihl iht =>
      cases fuel with
      | zero => exact hf.zero
      | succ fuel =>
          obtain ⟨hr', hl, ht⟩ := (shape_plug.mp h).2.1
          unfold parentOfLoop
          rw [top_node, meets_bind, meets_plain hr'.allocated]
          rcases eq_or_ne r'.ptr r.ptr with he | hne
          · rw [if_neg (fun hh => hh.1 he), if_neg (fun hh => hh hr'.type)]
            exact hfound C l r' t rfl he
          · rw [if_pos ⟨hne, hr'.type⟩, meets_bind, meets_plain hr, hk, hr'.key]
            -- if the keys are searchable, the route node is on the side the search goes to
            have hside : r ∈ (node l r' t).labels → r ∈ l.labels ∨ r ∈ t.labels := by
              intro hm
              rw [labels_node, List.mem_append, List.mem_cons] at hm
              rcases hm with hm | rfl | hm
              · exact .inl hm
              · exact absurd rfl hne
              · exact .inr hm
            split_ifs with hlt
            · rw [meets_bind, meets_load hr'.allocated, hr'.near]
              apply ihl (C := ⟨.left, r', t⟩ :: C) h (hf.pred (by simp only [height]; omega)) hfound
              intro hl'
              apply hnot
              rintro hm ⟨hsl, _, _, hst⟩
              rcases hside hm with hm | hm
              · exact hl' hm hsl
              · exact absurd hlt (not_lt.mpr (hst r hm))
            · have hfar : (s.nodes r'.ptr).get (.child .right) = top t := hr'.far
              rw [meets_bind, meets_load hr'.allocated, hfar]
              apply iht (C := ⟨.right, r', l⟩ :: C) h (hf.pred (by simp only [height]; omega)) hfound
              intro ht'
              apply hnot
              rintro hm ⟨_, hst, hsl, _⟩
              rcases hside hm with hm | hm
              · exact absurd (hsl r hm) hlt
              · exact ht' hm hst

theorem parentOf_meets {l t : Tree} {fuel : ℕ} {Q : Ptr → Shared → Prop} (h : Shape s (plug C (on d l r t)))
    (hf : Fueled F (plug C (on d l r t)).height fuel) (hfound : Q (holder C) s)
    (hnot : ¬ Searchable Route.key (plug C (on d l r t)) → Q NOT_FOUND s) :
    Meets exec F (parentOf fuel r.ptr) s Q := by
  obtain ⟨l', t', he⟩ : ∃ l' t', on d l r t = node l' r t' := by cases d <;> exact ⟨_, _, rfl⟩
  rw [he] at h hf hnot
  have hmem : ∀ (C : Path) (l t : Tree) (q : Route), q ∈ (plug C (node l q t)).labels := fun C l t q =>
    mem_labels_plug.mpr (.inl (by simp))
  have hr := (shape_plug.mp h).2.1.1
  unfold parentOf
  rw [meets_bind, meets_loadRoot, h.root]
  refine parentOfLoop_meets (C := []) h hr.allocated hr.key hf (fun C' l'' r' t'' hC' hp => ?_)
    (fun hh => hnot (hh (hmem _ _ _ _)))
  have hr' : r' = r := label_eq_of_ptr h.nodup (show r' ∈ labels (plug C (node l' r t')) from hC' ▸ hmem _ _ _ _)
    (hmem _ _ _ _) hp
  subst hr'
  rw [(plug_node_inj hC' (hC' ▸ nodup_labels h.nodup)).1]
  exact hfound

/-! ### Stages -/

/-- The base node `m` is on side `d` of the route node `r`, and the other child of `r` ends on that
side in the base node `n`. -/
abbrev pair (C : Path) (d : Side) (m : Base) (r : Route) (D : Path) (n : Base) : Tree :=
  plug C (on d (leaf m) r (plug D (leaf n)))

theorem mem_leaves_pair : b ∈ (pair C d m r D n).leaves ↔ b = m ∨ b = n ∨ b ∈ ctxLeaves C ∨ b ∈ ctxLeaves D := by
  rw [mem_leaves_plug, mem_leaves_on, mem_leaves_plug, leaves_leaf, leaves_leaf, List.mem_singleton, List.mem_singleton]
  tauto

theorem plug_neighbor : plug (D ++ ⟨d.other, r, leaf m⟩ :: C) (leaf n) = pair C d m r D n := by
  rw [plug_append, plug_cons, on_other]

theorem searchable_pair (h : Searchable Route.key (pair C d m r D n)) (m' n' : Base) :
    Searchable Route.key (pair C d m' r D n') := by
  have h' : Searchable Route.key (pair C d m' r D n) := Searchable.setLeaf (C := ⟨d, r, plug D (leaf n)⟩ :: C) h m'
  rw [← plug_neighbor] at h' ⊢
  exact h'.setLeaf n'

theorem holder_neighbor : holder (D ++ ⟨d.other, r, leaf m⟩ :: C) = if D = [] then r.ptr else holder D := by
  cases D <;> rfl

/-- The route nodes of `T` are valid, and the join entered in the one at `p` is `f p`. -/
def Locks (s : Shared) (T : Tree) (f : Ptr → Ptr) : Prop :=
  ∀ r ∈ T.labels, (s.nodes r.ptr).valid = true ∧ (s.nodes r.ptr).joinId = f r.ptr

theorem Locks.congr {f : Ptr → Ptr} (h : Locks s T f)
    (hk : ∀ r ∈ T.labels, (s'.nodes r.ptr).valid = (s.nodes r.ptr).valid ∧ (s'.nodes r.ptr).joinId = (s.nodes r.ptr).joinId) :
    Locks s' T f := fun r hr => by
  rw [(hk r hr).1, (hk r hr).2]
  exact h r hr

theorem Locks.of_eq {f g : Ptr → Ptr} (h : Locks s T f) (hf : ∀ r ∈ T.labels, f r.ptr = g r.ptr) : Locks s T g :=
  fun r hr => hf r hr ▸ h r hr

theorem Locks.update {f : Ptr → Ptr} (h : Locks s T f) (p q : Ptr) :
    Locks (s.update p (fun n => n.set .joinId q)) T (Function.update f p q) := fun r hr => by
  rw [s.update_keeps Node.valid (fun n => n.valid_set _ _)]
  refine ⟨(h r hr).1, ?_⟩
  rcases eq_or_ne r.ptr p with he | hne
  · rw [he, s.nodes_update, Function.update_self]
    rfl
  · rw [s.nodes_update_ne _ hne, Function.update_of_ne hne]
    exact (h r hr).2

/-- The base node `m` and its neighbor `n` have been placed for a join that began in `s₀`. -/
structure Joining (s₀ s : Shared) (C : Path) (d : Side) (m : Base) (r : Route) (D : Path) (n : Base) : Prop where
  ext : s₀.Extends s
  new : s₀.next ≤ m.ptr
  shape : Shape s (pair C d m r D n)
  stores : FreshStores s
  others : ∀ b ∈ (pair C d m r D n).leaves, b ≠ m → b ≠ n → s₀.Allocated b.ptr ∧ Settled s₀ b.ptr
  calm : ∀ b ∈ (pair C d m r D n).leaves, b.stat ≤ 0
  mainType : (s.nodes m.ptr).type = .joinMain
  neighborType : (s.nodes n.ptr).type = .joinNeighbor
  neighborMain : (s.nodes n.ptr).mainNode = m.ptr
  neighborNeigh2 : (s.nodes n.ptr).neigh2 = PREPARING ∨ (s.nodes n.ptr).neigh2 = ABORTED

namespace Joining

theorem main (h : Joining s₀ s C d m r D n) : BaseAt s m r.ptr :=
  (links_on.mp (shape_plug.mp h.shape).2.1).2.1

theorem route (h : Joining s₀ s C d m r D n) : RouteAt s d r m.ptr (top (plug D (leaf n))) :=
  (links_on.mp (shape_plug.mp h.shape).2.1).1

theorem neighbor (h : Joining s₀ s C d m r D n) : BaseAt s n (if D = [] then r.ptr else holder D) := by
  have hs := h.shape
  rw [← plug_neighbor] at hs
  rw [← holder_neighbor]
  exact hs.base

theorem neighbor_ne (h : Joining s₀ s C d m r D n) : n.ptr ≠ m.ptr := fun he => by
  have := h.neighborType
  rw [he, h.mainType] at this
  cases this

theorem mainMem (_ : Joining s₀ s C d m r D n) : m.ptr ∈ ptrs (pair C d m r D n) :=
  mem_ptrs_plug.mpr (.inl (mem_ptrs_on.mpr (.inr (.inl (by simp)))))

theorem neighbor_leaf (_ : Joining s₀ s C d m r D n) : n ∈ (pair C d m r D n).leaves :=
  mem_leaves_pair.mpr (.inr (.inl rfl))

theorem neighborMem (h : Joining s₀ s C d m r D n) : n.ptr ∈ ptrs (pair C d m r D n) :=
  mem_ptrs_of_leaf h.neighbor_leaf

theorem congr (h : Joining s₀ s C d m r D n) (he : s₀.Extends s') (hroot : s'.root = s.root)
    (hk : ∀ p ∈ ptrs (pair C d m r D n), Keeps s s' p) (hstores : FreshStores s')
    (hmain : (s'.nodes n.ptr).mainNode = (s.nodes n.ptr).mainNode)
    (hneigh2 : (s'.nodes n.ptr).neigh2 = (s.nodes n.ptr).neigh2) : Joining s₀ s' C d m r D n where
  ext := he
  new := h.new
  shape := h.shape.congr hroot hk
  stores := hstores
  others := h.others
  calm := h.calm
  mainType := by rw [(hk _ h.mainMem).type, h.mainType]
  neighborType := by rw [(hk _ h.neighborMem).type, h.neighborType]
  neighborMain := by rw [hmain, h.neighborMain]
  neighborNeigh2 := by rw [hneigh2]; exact h.neighborNeigh2

theorem lock (h : Joining s₀ s C d m r D n) (p q : Ptr) :
    Joining s₀ (s.update p (fun n => n.set .joinId q)) C d m r D n :=
  h.congr (h.ext.update p (fun n => n.toPlain_set _ _) (fun _ => rfl)) rfl
    (fun _ _ => .update s (fun n => n.links_set_joinId q) _ _) ⟨h.stores.first, h.stores.unused⟩
    (s.update_keeps (fun n => n.mainNode) (fun n => by simp) _ _) (s.update_keeps (fun n => n.neigh2) (fun _ => by rfl) _ _)

theorem assign (h : Joining s₀ s C d m r D n) (f : PlainField) (q : Ptr) :
    Joining s₀ (s.update m.ptr (fun n => n.assign f q)) C d m r D n :=
  h.congr (h.ext.update_new _ h.new) rfl (fun _ _ => .update s (fun n => n.links_assign f q) _ _)
    ⟨h.stores.first, h.stores.unused⟩ (by rw [s.nodes_update_ne _ h.neighbor_ne]) (by rw [s.nodes_update_ne _ h.neighbor_ne])

theorem setNeigh2 (h : Joining s₀ s C d m r D n) (q : Ptr) :
    Joining s₀ (s.update m.ptr (fun n => n.set .neigh2 q)) C d m r D n :=
  h.congr (h.ext.update_new _ h.new) rfl (fun _ _ => .update s (fun n => n.links_set_neigh2 q) _ _)
    ⟨h.stores.first, h.stores.unused⟩ (by rw [s.nodes_update_ne _ h.neighbor_ne]) (by rw [s.nodes_update_ne _ h.neighbor_ne])

/-- A join that is given up leaves a clean tree. -/
theorem abort {Q : Ptr → Shared → Prop} (h : Joining s₀ s C d m r D n)
    (hl : Locks s (pair C d m r D n) (fun _ => nullptr))
    (hQ : ∀ s', s₀.Extends s' → Clean s' (pair C d m r D n) → Q nullptr s') :
    Meets exec F (abortJoin m.ptr) s Q := by
  unfold abortJoin
  rw [meets_bind, meets_store h.main.allocated, meets_pure]
  have h' := h.setNeigh2 ABORTED
  have hm : ((s.update m.ptr (fun n => n.set .neigh2 ABORTED)).nodes m.ptr).neigh2 = ABORTED := by
    rw [s.nodes_update]
    rfl
  refine hQ _ h'.ext ⟨⟨h'.shape, hl.congr fun r _ => ⟨?_, ?_⟩, h'.stores⟩, fun b hb => ?_, h'.calm⟩
  · exact s.update_keeps Node.valid (fun _ => by rfl) _ _
  · exact s.update_keeps Node.joinId (fun _ => by rfl) _ _
  · rcases eq_or_ne b m with rfl | hbm
    · exact ⟨.inr hm, by rw [h'.mainType]; exact hm⟩
    · rcases eq_or_ne b n with rfl | hbn
      · refine ⟨h'.neighborNeigh2, ?_⟩
        rw [h'.neighborType, h'.neighborMain]
        exact ⟨h'.main.allocated, .inl hm⟩
      · obtain ⟨ha, hs⟩ := h.others b hb hbm hbn
        exact hs.extends ha h'.ext

/-- The join is taken out of the route node before it is given up. -/
theorem release {f : Ptr → Ptr} {Q : Ptr → Shared → Prop} (h : Joining s₀ s C d m r D n)
    (hl : Locks s (pair C d m r D n) f)
    (hf : ∀ q ∈ (pair C d m r D n).labels, q.ptr ≠ r.ptr → f q.ptr = nullptr)
    (hQ : ∀ s', s₀.Extends s' → Clean s' (pair C d m r D n) → Q nullptr s') :
    Meets exec F (do store r.ptr .joinId nullptr; abortJoin m.ptr) s Q := by
  rw [meets_bind, meets_store h.route.allocated]
  refine (h.lock r.ptr nullptr).abort ((hl.update r.ptr nullptr).of_eq fun q hq => ?_) hQ
  rcases eq_or_ne q.ptr r.ptr with he | hne
  · rw [he, Function.update_self]
  · rw [Function.update_of_ne hne, hf q hq hne]

/-- A new node changes nothing. -/
theorem alloc (h : Joining s₀ s C d m r D n) (x : Node) : Joining s₀ (s.alloc x) C d m r D n :=
  h.congr (h.ext.alloc x) rfl (fun _ hp => .alloc (h.shape.allocated hp) x) ⟨h.stores.first, h.stores.unused⟩
    (by rw [h.neighbor.allocated.nodes_alloc]) (by rw [h.neighbor.allocated.nodes_alloc])

theorem withPools {P : Pools} (h : Joining s₀ s C d m r D n) (hP : s.pools.Same P) :
    Joining s₀ { s with pools := P } C d m r D n :=
  h.congr (h.ext.withPools hP) rfl (fun _ _ => .of_nodes_eq id rfl) ⟨h.stores.first, h.stores.unused⟩ rfl rfl

/-- The pools may have changed before the join began. -/
theorem ofPools {P : Pools} (h : Joining { s₀ with pools := P } s C d m r D n) (hP : s₀.pools.Same P) :
    Joining s₀ s C d m r D n where
  ext := ((Shared.Extends.refl s₀).withPools hP).trans h.ext
  new := h.new
  shape := h.shape
  stores := h.stores
  others := fun b hb hbm hbn => by
    obtain ⟨ha, hs⟩ := h.others b hb hbm hbn
    exact ⟨ha, hs.neigh2, hs.replaceable⟩
  calm := h.calm
  mainType := h.mainType
  neighborType := h.neighborType
  neighborMain := h.neighborMain
  neighborNeigh2 := h.neighborNeigh2

end Joining

/-- The join entered in the route nodes around `r`. -/
def heldBy (m : Base) (r : Route) (C : Path) (p : Ptr) : Ptr := if p = r.ptr ∨ p = holder C then m.ptr else nullptr

/-- What `secure_join` notes in the main node. -/
structure Noted (s : Shared) (C : Path) (m : Base) (D : Path) (n : Base) : Prop where
  gparent : (s.nodes m.ptr).gparent = holder C
  otherb : (s.nodes m.ptr).otherb = top (plug D (leaf n))
  neigh1 : (s.nodes m.ptr).neigh1 = n.ptr

theorem Joining.note {f : Ptr → Ptr} (h : Joining s₀ s C d m r D n) (hl : Locks s (pair C d m r D n) f) :
    ∃ s', ((s.update m.ptr (fun x => x.assign .gparent (holder C))).update m.ptr
        (fun x => x.assign .otherb (top (plug D (leaf n))))).update m.ptr (fun x => x.assign .neigh1 n.ptr) = s' ∧
      Joining s₀ s' C d m r D n ∧ Locks s' (pair C d m r D n) f ∧ Noted s' C m D n ∧
      (s'.nodes m.ptr).neigh2 = (s.nodes m.ptr).neigh2 := by
  refine ⟨_, rfl, ((h.assign _ _).assign _ _).assign _ _, hl.congr fun q _ => ⟨?_, ?_⟩, ⟨?_, ?_, ?_⟩, ?_⟩
  · rw [Shared.update_keeps _ Node.valid (by simp), Shared.update_keeps _ Node.valid (by simp),
      Shared.update_keeps _ Node.valid (by simp)]
  · rw [Shared.update_keeps _ Node.joinId (fun n => n.get_assign _ _ .joinId),
      Shared.update_keeps _ Node.joinId (fun n => n.get_assign _ _ .joinId),
      Shared.update_keeps _ Node.joinId (fun n => n.get_assign _ _ .joinId)]
  all_goals
    rw [Shared.nodes_update, Shared.nodes_update, Shared.nodes_update]
    rfl

/-- The merged node `n'` of the join has been published. -/
structure Published (s₀ s : Shared) (C : Path) (d : Side) (m : Base) (r : Route) (D : Path) (n n' : Base) : Prop
    extends Joining s₀ s C d m r D n, Noted s C m D n where
  locks : Locks s (pair C d m r D n) (heldBy m r C)
  neigh2 : (s.nodes m.ptr).neigh2 = n'.ptr
  merged : BaseAt s n' (if D = [] then holder C else holder D)
  fresh : n'.ptr ∉ ptrs (pair C d m r D n)
  mergedType : (s.nodes n'.ptr).type = .joinNeighbor
  mergedMain : (s.nodes n'.ptr).mainNode = m.ptr
  mergedNeigh2 : (s.nodes n'.ptr).neigh2 = PREPARING ∨ (s.nodes n'.ptr).neigh2 = ABORTED
  mergedStat : n'.stat ≤ 0

theorem Joining.top_eq_iff (h : Joining s₀ s C d m r D n) : top (plug D (leaf n)) = n.ptr ↔ D = [] := by
  refine ⟨fun he => by_contra fun hD => ?_, fun hD => by rw [hD]; rfl⟩
  have hn := (nodup_ptrs_on.mp (nodup_ptrs_plug.mp h.shape.nodup).1).2.2.2.1
  rw [nodup_ptrs_plug] at hn
  exact hn.2.2 (show n.ptr ∈ ptrs (leaf n) by simp) (he ▸ top_plug_mem hD _)

theorem Joining.joinedParent_meets {Q : Ptr → Shared → Prop} (h : Joining s₀ s C d m r D n)
    (hQ : Q (if D = [] then holder C else holder D) s) :
    Meets exec F (joinedParent (top (plug D (leaf n))) n.ptr (holder C)) s Q := by
  unfold joinedParent
  split_ifs with ht
  · rw [if_pos (h.top_eq_iff.mp ht)] at hQ
    exact hQ
  · have hD := fun hD => ht (h.top_eq_iff.mpr hD)
    rw [if_neg hD] at hQ
    rw [meets_bind, meets_plain h.neighbor.allocated, meets_pure, h.neighbor.parent, if_neg hD]
    exact hQ

theorem Joining.mergeData_meets {Q : Treap → Shared → Prop} (h : Joining s₀ s C d m r D n) (hF : Admits F s)
    (hsize : m.vals.length + n.vals.length ≤ TREAP_NODES)
    (hQ : ∀ t P, t.Stores (joined d m.vals n.vals) → s.pools.Same P → Q t { s with pools := P }) :
    Meets exec F (mergeData m.ptr n.ptr d) s Q := by
  obtain ⟨tm, htm, hstm⟩ := h.main.stores
  obtain ⟨tn, htn, hstn⟩ := h.neighbor.stores
  have hlm := hstm.length
  have hln := hstn.length
  cases d with
  | left =>
      unfold mergeData
      rw [meets_bind, meets_dataOf h.main.allocated htm, meets_bind, meets_dataOf h.neighbor.allocated htn]
      exact fromPool_meets hF (PoolOp.gives_of_yields (fun _ => rfl) (Treap.merge_yields hstm hstn (by omega))) hQ
  | right =>
      unfold mergeData
      rw [meets_bind, meets_dataOf h.neighbor.allocated htn, meets_bind, meets_dataOf h.main.allocated htm]
      exact fromPool_meets hF (PoolOp.gives_of_yields (fun _ => rfl) (Treap.merge_yields hstn hstm (by omega))) hQ

/-- The last part of `secure_join`. -/
theorem publishJoin_meets {Q : Ptr → Shared → Prop} (h : Joining s₀ s C d m r D n)
    (hl : Locks s (pair C d m r D n) (heldBy m r C))
    (hm : (s.nodes m.ptr).neigh2 = PREPARING ∨ (s.nodes m.ptr).neigh2 = ABORTED)
    (hsize : m.vals.length + n.vals.length ≤ TREAP_NODES) (hF : Admits F s₀)
    (hgive : (s.nodes m.ptr).neigh2 = ABORTED → ∀ s', s₀.Extends s' → Clean s' (pair C d m r D n) → Q nullptr s')
    (hpub : ∀ s' n', Published s₀ s' C d m r D n n' →
      n'.vals = joined d m.vals n.vals → Q m.ptr s') :
    Meets exec F (publishJoin m.ptr n.ptr d (holder C)) s Q := by
  unfold publishJoin
  rw [meets_bind, meets_plain h.main.allocated]
  have hp := h.main.parent
  generalize (s.nodes m.ptr).toPlain.parent = parent at hp ⊢
  subst hp
  dsimp only
  have h₁ := h.assign .gparent (holder C)
  rw [meets_bind, meets_assign h.main.allocated, meets_bind, meets_load h₁.route.allocated, h₁.route.far, meets_bind,
    meets_assign h₁.main.allocated, meets_bind, meets_assign (h₁.assign _ _).main.allocated]
  obtain ⟨s₁, hs₁, h₁, hl₁, hnote, hm₁⟩ := h.note hl
  rw [hs₁]
  rw [← hm₁] at hm hgive
  clear hs₁ hm₁ hl h
  rw [meets_bind]
  refine h₁.joinedParent_meets ?_
  rw [meets_bind]
  refine copyOf_meets (hF.extends h₁.ext) h₁.neighbor.allocated fun P₁ hP₁ => ?_
  rw [meets_bind]
  have h₁' := h₁.withPools hP₁
  refine h₁'.mergeData_meets (hF.extends h₁'.ext) hsize fun t P ht hP => ?_
  rw [meets_bind, meets_new]
  set x : Node := { s₁.nodes n.ptr with
    type := .joinNeighbor, parent := if D = [] then holder C else holder D, mainNode := m.ptr, data := some t }
  have hold : ∀ p, s₁.Allocated p → (Shared.alloc { s₁ with pools := P } x).nodes p = s₁.nodes p :=
    fun p hp => Shared.Allocated.nodes_alloc (s := { s₁ with pools := P }) hp x
  have hl₂ : Locks (Shared.alloc { s₁ with pools := P } x) (pair C d m r D n) (heldBy m r C) := hl₁.congr fun q hq => by
    rw [hold _ (h₁.shape.allocated (mem_ptrs_of_label hq))]
    exact ⟨rfl, rfl⟩
  have hnew : (Shared.alloc { s₁ with pools := P } x).nodes s₁.next = x := Shared.nodes_alloc _ _
  have h₂ := (h₁'.withPools hP).alloc x
  rw [← hold _ h₁.main.allocated] at hm hgive
  have hnote₂ : Noted (Shared.alloc { s₁ with pools := P } x) C m D n := by
    obtain ⟨h₁', h₂', h₃'⟩ := hnote
    refine ⟨?_, ?_, ?_⟩ <;> rw [hold _ h₁.main.allocated] <;> assumption
  have hx : s₁.next < (Shared.alloc { s₁ with pools := P } x).next := Nat.lt_succ_self _
  generalize Shared.alloc { s₁ with pools := P } x = s₂ at *
  rw [meets_bind]
  rcases hm with hm | hm
  · have hg : (s₂.nodes m.ptr).get .neigh2 = PREPARING := hm
    rw [meets_cas h₂.main.allocated hg, if_pos rfl, meets_pure]
    have hne : s₁.next ≠ m.ptr := fun he => (h₁.main.allocated.ne_next he.symm)
    have hnew₂ : (s₂.update m.ptr (fun x => x.set .neigh2 s₁.next)).nodes s₁.next = x := by
      rw [Shared.nodes_update_ne _ _ hne, hnew]
    have hb := h₁.neighbor
    refine hpub _ ⟨s₁.next, joined d m.vals n.vals, n.stat⟩ ⟨h₂.setNeigh2 _, ⟨?_, ?_, ?_⟩, hl₂.congr fun q _ => ⟨?_, ?_⟩, ?_,
      ⟨⟨hb.allocated.1.trans hb.allocated.2.le, hx⟩, ?_, ⟨t, ?_, ht⟩, ?_, ?_, ?_⟩, h₁.shape.next_notMem, ?_, ?_, ?_, ?_⟩ rfl
    · rw [Shared.nodes_update, Node.toPlain_set, hnote₂.gparent]
    · rw [Shared.nodes_update, Node.toPlain_set, hnote₂.otherb]
    · rw [Shared.nodes_update, Node.toPlain_set, hnote₂.neigh1]
    · exact Shared.update_keeps _ Node.valid (fun _ => by rfl) _ _
    · exact Shared.update_keeps _ Node.joinId (fun _ => by rfl) _ _
    · rw [Shared.nodes_update]; rfl
    all_goals simp only [hnew₂]
    · simp [x]
    · rfl
    · exact hb.stat
    · rfl
    · exact hb.leaf
    · rfl
    · rfl
    · exact h₁.neighborNeigh2
    · exact h₁.calm n h₁.neighbor_leaf
  · have hgive := hgive hm
    have hg : (s₂.nodes m.ptr).get .neigh2 ≠ PREPARING := by
      rw [show (s₂.nodes m.ptr).get .neigh2 = ABORTED from hm]
      decide
    rw [meets_cas_ne h₂.main.allocated hg, if_neg Bool.false_ne_true]
    split_ifs with hC
    · rw [meets_bind, meets_store (h₂.shape.allocated (mem_ptrs_plug.mpr (.inr (holder_mem (ne_nil_of_holder hC)))))]
      refine (h₂.lock _ _).release (hl₂.update _ _) (fun q _ hq => ?_) hgive
      rcases eq_or_ne q.ptr (holder C) with he | hne
      · rw [he, Function.update_self]
      · rw [Function.update_of_ne hne, heldBy, if_neg (by tauto)]
    · refine h₂.release hl₂ (fun q hq hqr => ?_) hgive
      rw [heldBy, if_neg]
      rintro (he | he)
      · exact hqr he
      · exact (h₂.shape.allocated (mem_ptrs_of_label hq)).ne_null (he.trans (not_not.mp hC))

/-! ### The end of a join -/

/-- The route node above a hole takes part in no join any more. -/
def Shared.release (s : Shared) (C : Path) : Shared :=
  match C with
  | [] => s
  | G :: _ => s.update G.label.ptr (fun x => x.set .joinId nullptr)

namespace Shared

theorem release_cons (s : Shared) (G : Frame Base Route) (C : Path) :
    s.release (G :: C) = s.update G.label.ptr (fun x => x.set .joinId nullptr) := rfl

theorem release_keeps {α : Type} (s : Shared) (p : Ptr) (g : Node → α) (hg : ∀ x : Node, g (x.set .joinId nullptr) = g x) :
    g ((s.release C).nodes p) = g (s.nodes p) := by
  cases C with
  | nil => rfl
  | cons G C => exact s.update_keeps g hg _ _

theorem root_release (s : Shared) (C : Path) : (s.release C).root = s.root := by cases C <;> rfl

theorem stores_release (s : Shared) (C : Path) : (s.release C).stores = s.stores := by cases C <;> rfl

theorem nextStore_release (s : Shared) (C : Path) : (s.release C).nextStore = s.nextStore := by cases C <;> rfl

theorem allocated_release (s : Shared) (C : Path) (p : Ptr) : (s.release C).Allocated p ↔ s.Allocated p := by
  cases C <;> rfl

theorem joinId_release (s : Shared) (h : C ≠ []) : ((s.release C).nodes (holder C)).joinId = nullptr := by
  cases C with
  | nil => exact absurd rfl h
  | cons G C =>
      rw [release_cons, holder_cons, nodes_update]
      rfl

theorem joinId_release_ne (s : Shared) {p : Ptr} (h : p ≠ holder C) :
    ((s.release C).nodes p).joinId = (s.nodes p).joinId := by
  cases C with
  | nil => rfl
  | cons G C =>
      rw [holder_cons] at h
      rw [release_cons, nodes_update_ne _ _ h]

theorem Extends.release (h : s₀.Extends s) (C : Path) : s₀.Extends (s.release C) := by
  cases C with
  | nil => exact h
  | cons G C =>
      rw [release_cons]
      exact h.update _ (fun _ => rfl) (fun _ => rfl)

end Shared

theorem label_of_joined {n' : Base} {q : Route} (hn : (ptrs (pair C d m r D n)).Nodup)
    (hq : q ∈ (plug C (plug D (leaf n'))).labels) : q ∈ (pair C d m r D n).labels ∧ q.ptr ≠ r.ptr := by
  obtain ⟨hon, -, hd⟩ := nodup_ptrs_plug.mp hn
  obtain ⟨-, hr, -⟩ := nodup_ptrs_on.mp hon
  rcases mem_labels_plug.mp hq with hq | hq
  · have hq' : q ∈ (plug D (leaf n)).labels :=
      mem_labels_plug.mpr (.inr ((mem_labels_plug.mp hq).resolve_left (by simp)))
    exact ⟨mem_labels_plug.mpr (.inl (mem_labels_on.mpr (.inr (.inr hq')))),
      fun he => hr (he ▸ mem_ptrs_of_label hq')⟩
  · exact ⟨mem_labels_plug.mpr (.inr hq),
      fun he => hd (mem_ptrs_on.mpr (.inl rfl)) (he ▸ mem_pathPtrs_of_label hq)⟩

theorem leaf_of_joined {n' : Base} (hn : (ptrs (pair C d m r D n)).Nodup)
    (hb : b ∈ (plug C (plug D (leaf n'))).leaves) : b = n' ∨ b ∈ (pair C d m r D n).leaves ∧ b ≠ m ∧ b ≠ n := by
  obtain ⟨hon, -, hd⟩ := nodup_ptrs_plug.mp hn
  obtain ⟨-, -, -, hD, hm⟩ := nodup_ptrs_on.mp hon
  have hmem : n.ptr ∈ ptrs (plug D (leaf n)) := mem_ptrs_plug.mpr (.inl (by simp))
  rcases mem_leaves_plug.mp hb with hb | hb
  · rcases mem_leaves_plug.mp hb with hb | hb
    · exact .inl (by simpa using hb)
    · have hp := mem_pathPtrs_of_leaf hb
      refine .inr ⟨?_, ?_, ?_⟩
      · exact mem_leaves_plug.mpr (.inl (mem_leaves_on.mpr (.inr (mem_leaves_plug.mpr (.inr hb)))))
      · rintro rfl
        exact hm (by simp) (mem_ptrs_plug.mpr (.inr hp))
      · rintro rfl
        exact (nodup_ptrs_plug.mp hD).2.2 (by simp) hp
  · have hp := mem_pathPtrs_of_leaf hb
    refine .inr ⟨mem_leaves_plug.mpr (.inr hb), ?_, ?_⟩
    · rintro rfl
      exact hd (mem_ptrs_on.mpr (.inr (.inl (by simp)))) hp
    · rintro rfl
      exact hd (mem_ptrs_on.mpr (.inr (.inr hmem))) hp

namespace Published

variable {n' : Base}

/-- The heap when the parent of the main node has been unlinked. -/
def unlinked (s : Shared) (C : Path) (d : Side) (m : Base) (r : Route) (D : Path) (n' : Base) : Shared :=
  ((s.redirect (D ++ ⟨d.other, r, leaf m⟩ :: C) n'.ptr).update r.ptr (fun x => { x with valid := false })).redirect C
    (top (plug D (leaf n')))

/-- The nodes above the parent of the main node are the old ones when the parent is about to be
unlinked. -/
theorem pathLinks_invalid (h : Published s₀ s C d m r D n n') :
    PathLinks ((s.redirect (D ++ ⟨d.other, r, leaf m⟩ :: C) n'.ptr).update r.ptr (fun x => { x with valid := false })) C
      r.ptr := by
  obtain ⟨hC, -, hn⟩ := shape_plug.mp h.shape
  rw [top_on] at hC
  have hdC := (nodup_ptrs_plug.mp hn).2.2
  have hne : ∀ p ∈ pathPtrs C, p ≠ holder (D ++ ⟨d.other, r, leaf m⟩ :: C) := fun p hp he => by
    rw [holder_neighbor] at he
    split_ifs at he with hD
    · exact hdC (mem_ptrs_on.mpr (.inl rfl)) (he ▸ hp)
    · refine hdC (mem_ptrs_on.mpr (.inr (.inr (mem_ptrs_plug.mpr (.inr (holder_mem hD)))))) ?_
      exact he ▸ hp
  have hredirect : PathLinks (s.redirect (D ++ ⟨d.other, r, leaf m⟩ :: C) n'.ptr) C r.ptr :=
    hC.congr (s.root_redirect _ (by simp)) fun p hp =>
      .of_nodes_eq (s.allocated_redirect _ _ _).mpr (s.nodes_redirect_ne_holder _ (hne p hp))
  exact hredirect.congr rfl fun p _ => .update _ (fun _ => by rfl) _ _

theorem shape_unlinked (h : Published s₀ s C d m r D n n') :
    Shape (unlinked s C d m r D n') (plug C (plug D (leaf n'))) := by
  have hs := h.shape
  obtain ⟨hnon, hnC, hdC⟩ := nodup_ptrs_plug.mp hs.nodup
  obtain ⟨-, -, -, hnD, -⟩ := nodup_ptrs_on.mp hnon
  obtain ⟨-, hnD', -⟩ := nodup_ptrs_plug.mp hnD
  have hfresh := h.fresh
  simp only [mem_ptrs_plug, mem_ptrs_on, not_or] at hfresh
  obtain ⟨⟨hfr, -, -, hfD⟩, hfC⟩ := hfresh
  have hC₂ := h.pathLinks_invalid
  set s₁ := s.redirect (D ++ ⟨d.other, r, leaf m⟩ :: C) n'.ptr
  have hk : ∀ p, Keeps s₁ (s₁.update r.ptr (fun x => { x with valid := false })) p := fun p =>
    .update s₁ (fun _ => by rfl) _ _
  have hU : Links s₁ (holder C) (plug D (leaf n')) := by
    have hm := h.merged
    cases D with
    | nil =>
        refine BaseAt.congr hm (.of_nodes_eq (s.allocated_redirect _ _ _).mpr (s.nodes_redirect_ne_holder _ ?_))
        rw [holder_neighbor, if_pos rfl]
        exact hfr
    | cons G D =>
        rw [if_neg (by simp)] at hm
        have hs' := hs
        have hfr' := h.fresh
        rw [← plug_neighbor] at hs' hfr'
        have hs₁ := hs'.redirect (u := leaf n') hm (by simp) fun p hp hpC => by
          rw [ptrs_leaf, List.mem_singleton] at hp
          exact hfr' (mem_ptrs_plug.mpr (.inr (hp ▸ hpC)))
        rw [plug_neighbor] at hs₁
        exact links_plug_cons (links_on.mp (shape_plug.mp hs₁).2.1).2.2
  refine hC₂.shape_redirect hnC (hU.congr fun p _ => hk p) ?_ ?_
  · exact nodup_ptrs_plug.mpr ⟨by simp, hnD', by simpa using hfD⟩
  · intro p hp hpC
    rcases mem_ptrs_plug.mp hp with hp | hp
    · rw [ptrs_leaf, List.mem_singleton] at hp
      exact hfC (hp ▸ hpC)
    · exact hdC (mem_ptrs_on.mpr (.inr (.inr (mem_ptrs_plug.mpr (.inr hp))))) hpC

theorem toPlain_unlinked (p : Ptr) : ((unlinked s C d m r D n').nodes p).toPlain = (s.nodes p).toPlain := by
  rw [unlinked, Shared.toPlain_redirect, Shared.update_keeps _ (fun x => x.toPlain) (fun _ => by rfl),
    Shared.toPlain_redirect]

theorem neigh2_unlinked (p : Ptr) : ((unlinked s C d m r D n').nodes p).neigh2 = (s.nodes p).neigh2 := by
  rw [unlinked, Shared.neigh2_redirect, Shared.update_keeps _ Node.neigh2 (fun _ => by rfl), Shared.neigh2_redirect]

theorem joinId_unlinked (p : Ptr) : ((unlinked s C d m r D n').nodes p).joinId = (s.nodes p).joinId := by
  rw [unlinked, Shared.joinId_redirect, Shared.update_keeps _ Node.joinId (fun _ => by rfl), Shared.joinId_redirect]

theorem valid_unlinked {p : Ptr} (h : p ≠ r.ptr) : ((unlinked s C d m r D n').nodes p).valid = (s.nodes p).valid := by
  rw [unlinked, Shared.valid_redirect, Shared.nodes_update_ne _ _ h, Shared.valid_redirect]

theorem extends_unlinked (h : Published s₀ s C d m r D n n') : s₀.Extends (unlinked s C d m r D n') :=
  ((h.ext.redirect _ _).update _ (fun _ => by rfl) (fun _ => by rfl)).redirect _ _

/-- The heap at the end of the join. -/
def finished (s : Shared) (C : Path) (d : Side) (m : Base) (r : Route) (D : Path) (n' : Base) : Shared :=
  ((unlinked s C d m r D n').release C).update m.ptr (fun x => x.set .neigh2 DONE)

theorem allocated_finished (p : Ptr) : (finished s C d m r D n').Allocated p ↔ s.Allocated p := by
  rw [finished, Shared.allocated_update, Shared.allocated_release, unlinked, Shared.allocated_redirect,
    Shared.allocated_update, Shared.allocated_redirect]

theorem stores_finished (h : FreshStores s) : FreshStores (finished s C d m r D n') := by
  have hs : (finished s C d m r D n').stores = s.stores ∧ (finished s C d m r D n').nextStore = s.nextStore := by
    unfold finished
    constructor
    · show ((unlinked s C d m r D n').release C).stores = s.stores
      rw [Shared.stores_release, unlinked, Shared.stores_redirect]
      exact Shared.stores_redirect _ _ _
    · show ((unlinked s C d m r D n').release C).nextStore = s.nextStore
      rw [Shared.nextStore_release, unlinked, Shared.nextStore_redirect]
      exact Shared.nextStore_redirect _ _ _
  exact ⟨by rw [hs.2]; exact h.first, by rw [hs.1, hs.2]; exact h.unused⟩

theorem extends_finished (h : Published s₀ s C d m r D n n') : s₀.Extends (finished s C d m r D n') :=
  (h.extends_unlinked.release C).update_new _ h.new

theorem clean_finished (h : Published s₀ s C d m r D n n') :
    Clean (finished s C d m r D n') (plug C (plug D (leaf n'))) := by
  have hkeeps : ∀ {α : Type} (g : Node → α) (p : Ptr), (∀ (x : Node) q, g (x.set .joinId q) = g x) →
      (∀ (x : Node) q, g (x.set .neigh2 q) = g x) →
      g ((finished s C d m r D n').nodes p) = g ((unlinked s C d m r D n').nodes p) := fun g p hj hn => by
    rw [finished, Shared.update_keeps _ g (fun x => hn x _), Shared.release_keeps _ _ g (fun x => hj x _)]
  have hplain : ∀ p, ((finished s C d m r D n').nodes p).toPlain = (s.nodes p).toPlain := fun p => by
    rw [hkeeps (fun x => x.toPlain) p (fun _ _ => rfl) (fun _ _ => rfl), toPlain_unlinked]
  have hneigh2 : ∀ p, p ≠ m.ptr → ((finished s C d m r D n').nodes p).neigh2 = (s.nodes p).neigh2 := fun p hp => by
    rw [finished, Shared.nodes_update_ne _ _ hp, Shared.release_keeps _ _ Node.neigh2 (fun _ => rfl), neigh2_unlinked]
  have hdone : ((finished s C d m r D n').nodes m.ptr).neigh2 = DONE := by
    rw [finished, Shared.nodes_update]
    rfl
  have hnm : n'.ptr ≠ m.ptr := fun he => h.fresh (he ▸ h.mainMem)
  refine ⟨⟨h.shape_unlinked.congr ?_ (fun p _ => ⟨?_, hkeeps Node.links p (fun _ _ => rfl) (fun _ _ => rfl)⟩), ?_, ?_⟩, ?_, ?_⟩
  · exact Shared.root_release _ _
  · exact (Shared.allocated_release _ _ _).mpr
  · intro q hq
    obtain ⟨hq, hqr⟩ := label_of_joined h.shape.nodup hq
    have ha := h.shape.allocated (mem_ptrs_of_label hq)
    refine ⟨?_, ?_⟩
    · rw [hkeeps Node.valid _ (fun _ _ => rfl) (fun _ _ => rfl), valid_unlinked hqr]
      exact (h.locks q hq).1
    · rw [finished, Shared.update_keeps _ Node.joinId (fun _ => by rfl)]
      rcases eq_or_ne q.ptr (holder C) with he | hne
      · rw [he]
        exact Shared.joinId_release _ (fun hC => ha.ne_null (by rw [he, hC]; rfl))
      · rw [Shared.joinId_release_ne _ hne, joinId_unlinked, (h.locks q hq).2, heldBy, if_neg (by tauto)]
  · exact stores_finished h.stores
  · intro b hb
    rcases leaf_of_joined h.shape.nodup hb with rfl | ⟨hb, hbm, hbn⟩
    · refine ⟨by rw [hneigh2 _ hnm]; exact h.mergedNeigh2, ?_⟩
      rw [hplain, h.mergedType, h.mergedMain]
      exact ⟨(allocated_finished _).mpr h.main.allocated, .inr hdone⟩
    · obtain ⟨ha, hs⟩ := h.others b hb hbm hbn
      exact hs.extends ha h.extends_finished
  · intro b hb
    rcases leaf_of_joined h.shape.nodup hb with rfl | ⟨hb, -, -⟩
    · exact h.mergedStat
    · exact h.calm b hb

/-- `complete_join` on a join whose merged node has been published. -/
theorem completeJoin_meets {Q : Unit → Shared → Prop} (h : Published s₀ s C d m r D n n')
    (hQ : ∀ s', s₀.Extends s' → Clean s' (plug C (plug D (leaf n'))) → Q () s') :
    Meets exec F (completeJoin m.ptr) s Q := by
  have hm := h.main
  have hdone : n'.ptr ≠ DONE := fun he => absurd (he ▸ h.merged.allocated.1) (by decide)
  have hneigh2 : (s.nodes m.ptr).get .neigh2 = n'.ptr := h.neigh2
  unfold completeJoin
  rw [meets_bind, meets_load hm.allocated, hneigh2, if_neg hdone, meets_bind, meets_plain hm.allocated]
  have hparent := hm.parent
  have hnote := h.toNoted
  obtain ⟨hgparent, hotherb, hneigh1⟩ := hnote
  generalize (s.nodes m.ptr).toPlain = p at hparent hgparent hotherb hneigh1 ⊢
  obtain ⟨_, _, _, parent, neigh1, gparent, otherb, _⟩ := p
  simp only at hparent hgparent hotherb hneigh1
  subst hparent hgparent hotherb hneigh1
  dsimp only
  have hs := h.shape
  rw [← plug_neighbor] at hs
  have hrep : (if top (plug D (leaf n)) = n.ptr then n'.ptr else top (plug D (leaf n))) = top (plug D (leaf n')) := by
    split_ifs with he
    · rw [h.top_eq_iff.mp he]
      rfl
    · exact top_plug_congr (fun hD => he (h.top_eq_iff.mpr hD)) _ _
  have hC := h.pathLinks_invalid
  have hend : ∀ {s₁ : Shared}, s₁ = (unlinked s C d m r D n').release C → Meets exec F
      (Prog.perform (⟨.store m.ptr .neigh2 DONE, some m.ptr⟩ : Access)) s₁ Q := fun hs₁ => by
    rw [hs₁, meets_storeBy]
    · exact hQ _ h.extends_finished h.clean_finished
    · exact ((allocated_finished m.ptr).mpr hm.allocated)
  rw [meets_bind, meets_tryReplace hs, hrep, meets_bind, performBy, meets_storeValid
    ((s.allocated_redirect _ _ _).mpr h.route.allocated)]
  cases C with
  | nil =>
      rw [if_pos holder_nil, meets_bind, performBy, meets_casRoot hC]
      exact hend rfl
  | cons G C =>
      obtain ⟨hg, -, -⟩ := hC
      have hne : holder (G :: C) ≠ nullptr := by
        rw [holder_cons]
        exact hg.allocated.ne_null
      have hmem : G.label ∈ (pair (G :: C) d m r D n).labels :=
        mem_labels_plug.mpr (.inr (mem_ctxLabels_cons.mpr (.inl rfl)))
      have hjoin : ((unlinked s (G :: C) d m r D n').nodes G.label.ptr).get .joinId = m.ptr := by
        refine (joinId_unlinked _).trans ?_
        rw [(h.locks _ hmem).2, heldBy, if_pos (.inr rfl)]
      have hcas : Meets exec F (do
          let _ ← performBy m.ptr (.cas G.label.ptr .joinId m.ptr nullptr)
          performBy m.ptr (.store m.ptr .neigh2 DONE)) (unlinked s (G :: C) d m r D n') Q := by
        have hga : (unlinked s (G :: C) d m r D n').Allocated G.label.ptr :=
          (Shared.allocated_redirect _ _ _ _).mpr hg.allocated
        rw [meets_bind, performBy, meets_casBy hga hjoin]
        exact hend rfl
      have hfar : top G.sibling ≠ r.ptr := fun he => by
        have hd := (nodup_ptrs_plug.mp h.shape.nodup).2.2
        exact hd (mem_ptrs_on.mpr (.inl rfl)) (mem_pathPtrs_cons.mpr (.inr (.inl (he ▸ top_mem _))))
      have hnear := hg.near
      rw [if_neg hne, meets_bind, holder_cons, meets_load hg.allocated]
      cases hside : G.side with
      | left =>
          rw [hside] at hnear
          rw [if_pos hnear, meets_bind, performBy, meets_casBy hg.allocated hnear]
          simp only [unlinked, Shared.redirect_cons, hside] at hcas
          exact hcas
      | right =>
          have hleft := hg.far
          rw [hside] at hnear hleft
          rw [show Side.right.other = .left from rfl] at hleft
          rw [hleft, if_neg hfar, meets_bind, meets_load hg.allocated, if_pos hnear, meets_bind, performBy,
            meets_casBy hg.allocated hnear]
          simp only [unlinked, Shared.redirect_cons, hside] at hcas
          exact hcas

end Published

/-! ### The beginning of a join -/

/-- `secure_join` has replaced the base node and its neighbor. -/
theorem joining_of_clean {s₁ s₂ : Shared} (h : Clean s (pair C d b r D n))
    (hs₁ : s₁ = (s.alloc { s.nodes b.ptr with type := .joinMain }).redirect (⟨d, r, plug D (leaf n)⟩ :: C) s.next)
    (hs₂ : s₂ = (s₁.alloc { s₁.nodes n.ptr with type := .joinNeighbor, mainNode := s.next }).redirect
      (D ++ ⟨d.other, r, leaf ⟨s.next, b.vals, b.stat⟩⟩ :: C) s₁.next) :
    Shape (s₁.alloc { s₁.nodes n.ptr with type := .joinNeighbor, mainNode := s.next })
        (plug (D ++ ⟨d.other, r, leaf ⟨s.next, b.vals, b.stat⟩⟩ :: C) (leaf n)) ∧
      Joining s s₂ C d ⟨s.next, b.vals, b.stat⟩ r D ⟨s₁.next, n.vals, n.stat⟩ ∧
      Locks s₂ (pair C d ⟨s.next, b.vals, b.stat⟩ r D ⟨s₁.next, n.vals, n.stat⟩) (fun _ => nullptr) ∧
      (s₂.nodes s.next).neigh2 = (s.nodes b.ptr).neigh2 := by
  have hb : b ∈ (pair C d b r D n).leaves := mem_leaves_pair.mpr (.inl rfl)
  have hn : n ∈ (pair C d b r D n).leaves := mem_leaves_pair.mpr (.inr (.inl rfl))
  have hba := h.shape.allocated (mem_ptrs_of_leaf hb)
  have hna := h.shape.allocated (mem_ptrs_of_leaf hn)
  have h₁ : Neat s₁ (pair C d ⟨s.next, b.vals, b.stat⟩ r D n) := by
    rw [hs₁]
    refine Neat.copy (C := ⟨d, r, plug D (leaf n)⟩ :: C) h.toNeat ⟨by simp, rfl, rfl, rfl, fun e => by cases e <;> rfl⟩
  have hnext : s₁.next = s.next + 1 := by rw [hs₁, Shared.next_redirect]; rfl
  have hplain₁ : ∀ p, s.Allocated p → (s₁.nodes p).toPlain = (s.nodes p).toPlain := fun p hp => by
    rw [hs₁, Shared.toPlain_redirect, hp.nodes_alloc]
  have hneigh₁ : ∀ p, s.Allocated p → (s₁.nodes p).neigh2 = (s.nodes p).neigh2 := fun p hp => by
    rw [hs₁, Shared.neigh2_redirect, hp.nodes_alloc]
  have he₁ : s.Extends s₁ := by
    rw [hs₁]
    exact ((Shared.Extends.refl s).alloc _).redirect _ _
  rw [← plug_neighbor] at h₁
  set x : Node := { s₁.nodes n.ptr with type := .joinNeighbor, mainNode := s.next } with hx
  have h₂ : Neat s₂ (pair C d ⟨s.next, b.vals, b.stat⟩ r D ⟨s₁.next, n.vals, n.stat⟩) := by
    rw [hs₂, ← plug_neighbor]
    exact h₁.copy ⟨by simp [hx], rfl, rfl, rfl, fun e => by cases e <;> rfl⟩
  have hm : (s₂.nodes s.next).toPlain = { (s.nodes b.ptr).toPlain with type := .joinMain } ∧
      (s₂.nodes s.next).neigh2 = (s.nodes b.ptr).neigh2 := by
    have hne : s.next ≠ s₁.next := by rw [hnext]; exact (Nat.lt_succ_self _).ne
    rw [hs₂, Shared.toPlain_redirect, Shared.neigh2_redirect, Shared.nodes_alloc_ne _ _ hne, hs₁,
      Shared.toPlain_redirect, Shared.neigh2_redirect, Shared.nodes_alloc]
    exact ⟨rfl, rfl⟩
  have hn₂ : (s₂.nodes s₁.next).toPlain = x.toPlain ∧ (s₂.nodes s₁.next).neigh2 = (s.nodes n.ptr).neigh2 := by
    rw [hs₂, Shared.toPlain_redirect, Shared.neigh2_redirect, Shared.nodes_alloc, ← hneigh₁ _ hna]
    exact ⟨rfl, rfl⟩
  refine ⟨h₁.shape.congr rfl fun p hp => .alloc (h₁.shape.allocated hp) x, ⟨?_, le_rfl, h₂.shape, h₂.stores, ?_, ?_, ?_, ?_, ?_, ?_⟩,
    h₂.routes, ?_⟩
  · rw [hs₂]
    exact (he₁.alloc _).redirect _ _
  · intro b' hb' hbm hbn
    have hb'' : b' ∈ (pair C d b r D n).leaves :=
      mem_leaves_pair.mpr (.inr (.inr (((mem_leaves_pair.mp hb').resolve_left hbm).resolve_left hbn)))
    exact ⟨h.shape.allocated (mem_ptrs_of_leaf hb''), h.bases b' hb''⟩
  · intro b' hb'
    rcases mem_leaves_pair.mp hb' with rfl | rfl | hb'
    · exact h.calm b hb
    · exact h.calm n hn
    · exact h.calm b' (mem_leaves_pair.mpr (.inr (.inr hb')))
  · rw [hm.1]
  · rw [hn₂.1]
  · rw [hn₂.1]
  · rw [hn₂.2]
    exact (h.bases n hn).neigh2
  · exact hm.2

/-- The join is entered in the route nodes and published, or given up. -/
theorem enterJoin_meets {s₀ : Shared} {fuel : ℕ} {Q : Ptr → Shared → Prop} (h : Joining s₀ s C d m r D n)
    (hl : Locks s (pair C d m r D n) (fun _ => nullptr))
    (hm : (s.nodes m.ptr).neigh2 = PREPARING ∨ (s.nodes m.ptr).neigh2 = ABORTED)
    (hsize : m.vals.length + n.vals.length ≤ TREAP_NODES) (hF : Admits F s₀)
    (hf : Fueled F (pair C d m r D n).height fuel)
    (hgive : (Searchable Route.key (pair C d m r D n) → (s.nodes m.ptr).neigh2 = ABORTED) →
      ∀ s', s₀.Extends s' → Clean s' (pair C d m r D n) → Q nullptr s')
    (hpub : ∀ s' n', Published s₀ s' C d m r D n n' → n'.vals = joined d m.vals n.vals → Q m.ptr s') :
    Meets exec F (enterJoin fuel m.ptr n.ptr d) s Q := by
  have hr : r ∈ (pair C d m r D n).labels := mem_labels_plug.mpr (.inl (mem_labels_on.mpr (.inl rfl)))
  have hj : (s.nodes r.ptr).get .joinId = nullptr := (hl r hr).2
  unfold enterJoin
  rw [meets_bind, meets_plain h.main.allocated]
  have hp := h.main.parent
  generalize (s.nodes m.ptr).toPlain.parent = parent at hp ⊢
  subst hp
  dsimp only
  rw [meets_bind, meets_cas h.route.allocated hj, if_neg (by simp), meets_bind]
  have h₁ := h.lock r.ptr m.ptr
  have hl₁ := hl.update r.ptr m.ptr
  rw [← s.update_keeps (f := fun x => x.set .joinId m.ptr) Node.neigh2 (fun _ => by rfl) r.ptr m.ptr] at hm hgive
  have hf₁ : ∀ q ∈ (pair C d m r D n).labels, q.ptr ≠ r.ptr →
      Function.update (fun _ => nullptr) r.ptr m.ptr q.ptr = nullptr := fun q _ hq => Function.update_of_ne hq _ _
  refine parentOf_meets h₁.shape hf ?_ ?_
  · have hnf : holder C ≠ NOT_FOUND := fun he => by
      cases C with
      | nil => cases he
      | cons G C =>
          have ha := h₁.shape.allocated (mem_ptrs_plug.mpr (.inr (holder_mem (List.cons_ne_nil G C))))
          rw [he] at ha
          exact absurd ha.1 (by decide)
    rw [if_neg hnf]
    generalize s.update r.ptr (fun x => x.set .joinId m.ptr) = s₁ at *
    split_ifs with hC
    · obtain ⟨G, C, rfl⟩ := List.exists_cons_of_ne_nil (ne_nil_of_holder hC)
      have hg : G.label ∈ (pair (G :: C) d m r D n).labels :=
        mem_labels_plug.mpr (.inr (mem_ctxLabels_cons.mpr (.inl rfl)))
      have hgr : G.label.ptr ≠ r.ptr := fun he =>
        (nodup_ptrs_plug.mp h₁.shape.nodup).2.2 (mem_ptrs_on.mpr (.inl rfl)) (mem_pathPtrs_cons.mpr (.inl he.symm))
      have hjg : (s₁.nodes G.label.ptr).get .joinId = nullptr := (hl₁ _ hg).2.trans (hf₁ _ hg hgr)
      rw [holder_cons, meets_bind, meets_cas (h₁.shape.allocated (mem_ptrs_of_label hg)) hjg, if_pos rfl]
      refine publishJoin_meets (h₁.lock G.label.ptr m.ptr) ((hl₁.update G.label.ptr m.ptr).of_eq fun q hq => ?_)
        (by rw [Shared.update_keeps _ Node.neigh2 (fun _ => by rfl)]; exact hm) hsize hF
        (by rw [Shared.update_keeps _ Node.neigh2 (fun _ => by rfl)]; exact fun hm => hgive fun _ => hm) hpub
      simp only [Function.update_apply, heldBy, holder_cons]
      by_cases hqr : q.ptr = r.ptr
      · simp [hqr]
      · by_cases hqg : q.ptr = G.label.ptr <;> simp [hqr, hqg]
    · refine publishJoin_meets h₁ (hl₁.of_eq fun q hq => ?_) hm hsize hF (fun hm => hgive fun _ => hm) hpub
      have hq := (h₁.shape.allocated (mem_ptrs_of_label hq)).ne_null
      simp only [Function.update_apply, heldBy, not_not.mp hC, hq, or_false]
  · intro hkeys
    rw [if_pos rfl]
    exact h₁.release hl₁ hf₁ (hgive fun h => absurd h hkeys)

/-- `secure_join` on a base node whose neighbor is `n`.  A join that fits is given up only if keys
are out of order, or if the base node has been part of a join. -/
theorem secureJoin_meets {fuel : ℕ} {Q : Ptr → Shared → Prop} (h : Clean s (pair C d b r D n)) (hF : Admits F s)
    (hf : Fueled F (pair C d b r D n).height fuel) (hD : seek (fun _ => d = .left) (plug D (leaf n)) = n)
    (hsame : TREAP_NODES < b.vals.length + n.vals.length → Q nullptr s)
    (hgive : (Searchable Route.key (pair C d b r D n) → (s.nodes b.ptr).neigh2 = ABORTED) →
      ∀ s' m n₁, s.Extends s' → Clean s' (pair C d m r D n₁) → m.vals = b.vals → n₁.vals = n.vals → Q nullptr s')
    (hpub : b.vals.length + n.vals.length ≤ TREAP_NODES → ∀ s' m n₁ n', Published s s' C d m r D n₁ n' →
      n'.vals = joined d b.vals n.vals → Q m.ptr s') :
    Meets exec F (secureJoin fuel b.ptr d) s Q := by
  have hb : b ∈ (pair C d b r D n).leaves := mem_leaves_pair.mpr (.inl rfl)
  have hn : n ∈ (pair C d b r D n).leaves := mem_leaves_pair.mpr (.inr (.inl rfl))
  obtain ⟨hr, hbase, hsib⟩ := links_on.mp (shape_plug.mp h.shape).2.1
  have hbase : BaseAt s b r.ptr := hbase
  have hna := h.shape.allocated (mem_ptrs_of_leaf hn)
  unfold secureJoin
  rw [meets_bind, meets_plain hbase.allocated]
  have hp := hbase.parent
  generalize (s.nodes b.ptr).toPlain.parent = parent at hp ⊢
  subst hp
  dsimp only
  rw [meets_bind, meets_load hr.allocated, hr.far, meets_bind]
  refine outermost_meets hsib (hf.le ?_) ?_
  · refine le_trans ?_ (height_le_plug C _)
    rw [height_on]
    omega
  obtain ⟨tb, htb, hstb⟩ := hbase.stores
  obtain ⟨p, hneigh⟩ := h.shape.base_of_mem hn
  obtain ⟨tn, htn, hstn⟩ := hneigh.stores
  rw [hD, meets_bind, meets_isReplaceable hna (h.bases n hn), if_neg (by simp), meets_bind,
    meets_dataOf hbase.allocated htb, meets_bind, meets_dataOf hna htn]
  split_ifs with hsize
  · simp only [Treap.getSize] at hsize
    exact hsame (by rw [hstb.length, hstn.length]; exact hsize)
  have hlb := hstb.length
  have hln := hstn.length
  simp only [Treap.getSize] at hsize
  rw [meets_bind]
  refine newCopy_meets hF hbase.allocated fun P₁ hP₁ => ?_
  have he₁ : s.Extends { s with pools := P₁ } := (Shared.Extends.refl s).withPools hP₁
  have hra : Shared.Allocated { s with pools := P₁ } r.ptr := hr.allocated
  rw [meets_bind, meets_cas (hra.alloc _) (by rw [hra.nodes_alloc]; exact hr.near), if_neg (by simp), meets_bind]
  refine newCopy_meets (hF.extends ((he₁.alloc _).update _ (fun _ => by simp) fun _ => by simp)) ⟨hna.1, Nat.lt_succ_of_lt hna.2⟩
    fun P hP => ?_
  have hP : s.pools.Same P := hP₁.trans hP
  -- the tree after both copies does not depend on when the pools have been asked
  suffices hrest : ∀ s₁, (Shared.alloc { s with pools := P } { s.nodes b.ptr with type := .joinMain }).update r.ptr
      (fun x => x.set (.child d) s.next) = s₁ → Meets exec F (do
        if ¬ (← tryReplace none n.ptr s₁.next) then abortJoin s.next
        else enterJoin fuel s.next s₁.next d)
      (s₁.alloc { s₁.nodes n.ptr with type := .joinNeighbor, mainNode := s.next }) Q from hrest _ rfl
  intro s₁ hs₁
  generalize hs₂ : (s₁.alloc { s₁.nodes n.ptr with type := .joinNeighbor, mainNode := s.next }).redirect
    (D ++ ⟨d.other, r, leaf ⟨s.next, b.vals, b.stat⟩⟩ :: C) s₁.next = s₂
  obtain ⟨hshape, h₂, hl₂, hm₂⟩ := joining_of_clean (h.withPools P) hs₁.symm hs₂.symm
  have h₂ := h₂.ofPools hP
  rw [meets_bind, meets_tryReplace hshape, hs₂, if_neg (by simp)]
  refine enterJoin_meets h₂ hl₂ (hm₂ ▸ (h.bases b hb).neigh2) (by simp only; omega) hF (hf.le (le_of_eq ?_))
    (fun hm s' he hc => hgive (fun hkeys => hm₂ ▸ hm (searchable_pair hkeys _ _)) s' _ _ he hc rfl rfl)
    (fun s' n' hp hv => hpub (by omega) s' _ _ n' hp hv)
  refine height_plug_congr C ?_
  rw [height_on, height_on, height_plug_congr D (t := leaf (⟨s₁.next, n.vals, n.stat⟩ : Base)) (u := leaf n) rfl]
  rfl

/-- What `low_contention_adaptation` does on a base node whose neighbor is `n`. -/
theorem lowContentionAdaptation_pair {fuel : ℕ} {Q : Unit → Shared → Prop} (h : Clean s (pair C d b r D n))
    (hF : Admits F s) (hf : Fueled F (pair C d b r D n).height fuel) (hD : ∀ G ∈ D, G.side = d)
    (hsame : TREAP_NODES < b.vals.length + n.vals.length → Q () s)
    (hgive : (Searchable Route.key (pair C d b r D n) → (s.nodes b.ptr).neigh2 = ABORTED) →
      ∀ s' m n₁, s.Extends s' → Clean s' (pair C d m r D n₁) → m.vals = b.vals → n₁.vals = n.vals → Q () s')
    (hjoin : b.vals.length + n.vals.length ≤ TREAP_NODES → ∀ s' m, s.Extends s' → Clean s' (plug C (plug D (leaf m))) →
      m.vals = joined d b.vals n.vals → Q () s') :
    Meets exec F (lowContentionAdaptation fuel b.ptr) s Q := by
  have hb : BaseAt s b r.ptr := (links_on.mp (shape_plug.mp h.shape).2.1).2.1
  have hr := (links_on.mp (shape_plug.mp h.shape).2.1).1
  simp only [top_leaf] at hr
  have hne : top (plug D (leaf n)) ≠ b.ptr := fun he =>
    (nodup_ptrs_on.mp (nodup_ptrs_plug.mp h.shape.nodup).1).2.2.2.2 (by simp) (he ▸ top_mem _)
  have hn : seek (fun _ => d = .left) (plug D (leaf n)) = n := by
    have hfollows : Follows (fun _ => d = .left) D := by
      intro G hG
      rw [hD G hG]
    exact hfollows.seek_plug (leaf n)
  have hsecure : Meets exec F (do
      let m ← secureJoin fuel b.ptr d
      if m ≠ nullptr then completeJoin m else return ()) s Q := by
    rw [meets_bind]
    refine secureJoin_meets h hF hf hn hsame (fun hcond s' m n₁ he hc hm hn => hgive hcond s' m n₁ he hc hm hn)
      (fun hsize s' m n₁ n' hp hv => ?_)
    rw [if_pos hp.main.allocated.ne_null]
    exact hp.completeJoin_meets fun s'' he hc => hjoin hsize s'' n' he hc hv
  unfold lowContentionAdaptation
  rw [meets_bind, meets_plain hb.allocated]
  have hp := hb.parent
  generalize (s.nodes b.ptr).toPlain.parent = parent at hp ⊢
  subst hp
  dsimp only
  rw [if_neg hr.allocated.ne_null, meets_bind, meets_load hr.allocated]
  cases d with
  | left =>
      rw [if_pos hr.near]
      exact hsecure
  | right =>
      have hfar : (s.nodes r.ptr).get (.child .left) = top (plug D (leaf n)) := hr.far
      rw [hfar, if_neg hne, meets_bind, meets_load hr.allocated, if_pos hr.near]
      exact hsecure

/-- A base node below a route node has a neighbor. -/
theorem exists_pair (d : Side) (r : Route) (t : Tree) (C : Path) (b : Base) :
    ∃ D n, plug (⟨d, r, t⟩ :: C) (leaf b) = pair C d b r D n ∧ ∀ G ∈ D, G.side = d := by
  refine ⟨descend (fun _ => d = .left) t [], seek (fun _ => d = .left) t, ?_, ?_⟩
  · rw [plug_cons]
    unfold pair
    rw [plug_descend]
    rfl
  · intro G hG
    exact (side_of_mem_descend Iff.rfl hG).resolve_right List.not_mem_nil

/-- `low_contention_adaptation` on a base node of the tree. -/
theorem lowContentionAdaptation_meets {fuel : ℕ} {Q : Unit → Shared → Prop} (h : Clean s (plug C (leaf b)))
    (hF : Admits F s) (hf : Fueled F (plug C (leaf b)).height fuel)
    (hQ : ∀ s' T', s.Extends s' → Clean s' T' → Relation.ReflTransGen Rearranges (plug C (leaf b)) T' → Q () s') :
    Meets exec F (lowContentionAdaptation fuel b.ptr) s Q := by
  cases C with
  | nil =>
      have hb := h.shape.base
      unfold lowContentionAdaptation
      rw [meets_bind, meets_plain hb.allocated]
      have hp := hb.parent
      generalize (s.nodes b.ptr).toPlain.parent = parent at hp ⊢
      subst hp
      exact hQ s _ (.refl s) h .refl
  | cons G C =>
      obtain ⟨d, r, t⟩ := G
      obtain ⟨D, n, he, hD⟩ := exists_pair d r t C b
      rw [he] at h hf hQ
      refine lowContentionAdaptation_pair h hF hf hD ?_ ?_ ?_
      · intro _
        exact hQ s _ (.refl s) h .refl
      · intro _ s' m n₁ he hc hm hn
        have hcopy := Rearranges.copy (C := ⟨d, r, plug D (leaf n)⟩ :: C) hm
        have hcopy' := Rearranges.copy (C := D ++ ⟨d.other, r, leaf m⟩ :: C) hn
        rw [plug_neighbor, plug_neighbor] at hcopy'
        exact hQ s' _ he hc ((Relation.ReflTransGen.single hcopy).tail hcopy')
      · intro _ s' m he hc hv
        exact hQ s' _ he hc (.single (.join hD hv))

end Lfca

end LockFreeSearchTree
