import LockFreeSearchTree.LfcaJoin

/-! # Updates

What `do_update` does to a clean tree.

* **Placing.** The loop places a new base node and then adapts it (`doUpdateLoop_eq`), so what it does
  follows from what `placeUpdate` does, the loop that only returns the new base node.
* **Room.** If the base node the search ends in has room, the first round of the loop replaces it by
  one with the new values and returns (`doUpdateLoop_room`).
* **Full base nodes.** A full base node is split first, and the loop goes on with the tree after the
  split (`doUpdateLoop_full`); a call that returns has split until there was room
  (`doUpdateLoop_meets`). -/

namespace LockFreeSearchTree

open BinTree Concurrent Concurrent.Prog

namespace Lfca

variable {F : Fault → Prop} {s s' : Shared} {T : Tree} {C : Path} {b : Base}

/-- `adapt_if_needed` on a base node that was not contended. -/
theorem adaptIfNeeded_meets {fuel : ℕ} {Q : Unit → Shared → Prop} (h : Clean s (plug C (leaf b)))
    (hF : Admits F s) (hf : Fueled F (plug C (leaf b)).height fuel)
    (hQ : ∀ s' T', s.Extends s' → Clean s' T' → Relation.ReflTransGen Rearranges (plug C (leaf b)) T' → Q () s') :
    Meets exec F (adaptIfNeeded fuel b.ptr) s Q := by
  have hb := h.shape.base
  have hmem : b ∈ (plug C (leaf b)).leaves := mem_leaves_plug.mpr (.inl (by simp))
  have hset := h.bases b hmem
  have hstat : nextStat (s.nodes b.ptr).stat .noinfo = b.stat := by
    rw [hb.stat]
    simp [nextStat]
  have hcalm := h.calm b hmem
  unfold adaptIfNeeded
  rw [meets_bind, meets_isReplaceable hb.allocated hset, if_neg (by simp), meets_bind,
    meets_newStat hb.allocated hset.type_ne_range, hstat, if_neg (by unfold HIGH_CONT; omega), meets_bind,
    meets_newStat hb.allocated hset.type_ne_range, hstat]
  split_ifs
  · exact lowContentionAdaptation_meets h hF hf hQ
  · exact hQ s _ (.refl s) h .refl

/-! ### The two updates -/

/-- The outcome of an insertion into a treap with the values `vs`. -/
def Inserted (i : ℤ) (vs vs' : List ℤ) (res : Bool) : Prop :=
  res = true ∧ ∃ as bs, vs = as ++ bs ∧ vs' = as ++ i :: bs ∧ (Sorted vs → (∀ x ∈ as, x ≤ i) ∧ ∀ x ∈ bs, i < x)

/-- The outcome of a removal from a treap with the values `vs`. -/
def Removed (i : ℤ) (vs vs' : List ℤ) (res : Bool) : Prop :=
  (res = true ∧ ∃ as bs, vs = as ++ i :: bs ∧ vs' = as ++ bs) ∨ (res = false ∧ vs' = vs ∧ (Sorted vs → i ∉ vs))

/-- On treaps with room, `u` with the value `i` has the outcome `P`. -/
def Applies (u : Treap → ℤ → LfcaM (Treap × Bool)) (i : ℤ) (P : List ℤ → List ℤ → Bool → Prop) : Prop :=
  ∀ {F : Fault → Prop} {s : Shared} {t : Treap} {vs : List ℤ} {Q : Treap × Bool → Shared → Prop}, Admits F s →
    t.Stores vs → vs.length < TREAP_NODES →
    (∀ R t' vs' res, s.pools.Same R → t'.Stores vs' → P vs vs' res → Q (t', res) { s with pools := R }) →
    Meets exec F (u t i) s Q

theorem treapInsert_applies (i : ℤ) : Applies treapInsert i (Inserted i) := by
  intro F s t vs Q hF ht hlen hQ
  have hsize := ht.length
  unfold treapInsert
  rw [meets_bind]
  refine fromPool_meets hF (PoolOp.gives_of_yields (fun _ => rfl) (Treap.immutableInsert_yields i ht (by omega))) ?_
  rintro t' R ⟨as, bs, hvs, hst, ho⟩ hsame
  exact hQ R t' _ true hsame hst ⟨rfl, as, bs, hvs, rfl, ho⟩

theorem treapRemove_applies (i : ℤ) : Applies treapRemove i (Removed i) := by
  intro F s t vs Q hF ht _ hQ
  unfold treapRemove
  refine fromPool_meets hF (PoolOp.gives_of_yields (fun _ => rfl) (Treap.immutableRemove_yields i ht)) ?_
  rintro ⟨t', res⟩ R ⟨htrue, hfalse⟩ hsame
  cases res with
  | true =>
      obtain ⟨as, bs, hvs, hst⟩ := htrue rfl
      exact hQ R t' _ true hsame hst (.inl ⟨rfl, as, bs, hvs, rfl⟩)
  | false =>
      obtain ⟨rfl, hnot⟩ := hfalse rfl
      exact hQ R t' vs false hsame ht (.inr ⟨rfl, rfl, hnot⟩)

/-! ### The loop -/

/-- The base node a search for `i` ends in. -/
def baseFor (i : ℤ) (T : Tree) : Base := seek (fun r => i ≤ r.key) T

/-- The context of this base node. -/
def pathFor (i : ℤ) (T : Tree) : Path := descend (fun r => i ≤ r.key) T []

theorem plug_pathFor (i : ℤ) (T : Tree) : plug (pathFor i T) (leaf (baseFor i T)) = T := plug_descend _ T []

/-- A full base node in the way of an update is split. -/
def ForcedSplit (i : ℤ) (T T' : Tree) : Prop :=
  TREAP_NODES ≤ (baseFor i T).vals.length ∧ ∃ l r t, T' = plug (pathFor i T) (node (leaf l) r (leaf t)) ∧
    SplitAt (baseFor i T).vals r.key l.vals t.vals

/-- The search for `i` in the tree after a split of the base node it ends in. -/
theorem pathFor_follows (i : ℤ) (T : Tree) : Follows (fun r : Route => i ≤ r.key) (pathFor i T) :=
  follows_descend (fun _ h => by cases h)

theorem baseFor_split (i : ℤ) (T : Tree) (l : Base) (r : Route) (t : Base) :
    baseFor i (plug (pathFor i T) (node (leaf l) r (leaf t))) = if i ≤ r.key then l else t :=
  (pathFor_follows i T).seek_plug _

/-- The loop of `do_update` up to the adaptation: the fuel left, the new base node and the result. -/
def placeUpdate (u : Treap → ℤ → LfcaM (Treap × Bool)) (i : ℤ) : ℕ → ContentionInfo → LfcaM (ℕ × Ptr × Bool) :=
  updateLoop u i fun fuel newb res => return (fuel, newb, res)

theorem updateLoop_eq {β : Type} (u : Treap → ℤ → LfcaM (Treap × Bool)) (i : ℤ) (placed : ℕ → Ptr → Bool → LfcaM β) (fuel : ℕ)
    (info : ContentionInfo) :
    updateLoop u i placed fuel info = (do
      let (fuel', newb, res) ← placeUpdate u i fuel info
      placed fuel' newb res) := by
  unfold placeUpdate
  induction fuel generalizing info with
  | zero => rfl
  | succ fuel ih =>
      unfold updateLoop
      simp only [bind_assoc', ite_bind, pure_bind', ih]

theorem doUpdateLoop_eq (u : Treap → ℤ → LfcaM (Treap × Bool)) (i : ℤ) (fuel : ℕ) (info : ContentionInfo) :
    doUpdateLoop u i fuel info = (do
      let (fuel', newb, res) ← placeUpdate u i fuel info
      adaptIfNeeded fuel' newb
      return res) := updateLoop_eq u i _ fuel info

/-- The base node at `p` has taken part in no join. -/
def Unjoined (s : Shared) (p : Ptr) : Prop := (s.nodes p).type = .normal ∧ (s.nodes p).neigh2 = PREPARING

variable {u : Treap → ℤ → LfcaM (Treap × Bool)} {i : ℤ} {P : List ℤ → List ℤ → Bool → Prop}

/-- A round of the loop on a base node with room. -/
theorem placeUpdate_room {fuel : ℕ} {info : ContentionInfo} {Q : ℕ × Ptr × Bool → Shared → Prop} (hu : Applies u i P)
    (h : Clean s T) (hroom : (baseFor i T).vals.length < TREAP_NODES) (hinfo : info ≠ .contended) (hF : Admits F s)
    (hf : Fueled F (T.height + 1) fuel)
    (hQ : ∀ s' b' res, P (baseFor i T).vals b'.vals res → s.Extends s' → Clean s' (plug (pathFor i T) (leaf b')) →
      Unjoined s' b'.ptr → Q (fuel - 1, b'.ptr, res) s') :
    Meets exec F (placeUpdate u i fuel info) s Q := by
  cases fuel with
  | zero => exact hf.zero
  | succ fuel =>
      have hf := hf.pred (Nat.lt_succ_self _)
      have hroot := h.shape.root
      have hsearch : ∀ {Q : Ptr → Shared → Prop}, Q (baseFor i T).ptr s → Meets exec F (findBaseNode fuel (top T) i) s Q :=
        findBaseNode_meets h.shape.links hf
      rw [← plug_pathFor i T] at h
      generalize baseFor i T = b at *
      generalize pathFor i T = C at *
      have hb := h.shape.base
      have hmem : b ∈ (plug C (leaf b)).leaves := mem_leaves_plug.mpr (.inl (by simp))
      obtain ⟨t, ht, hst⟩ := hb.stores
      have hlen := hst.length
      unfold placeUpdate updateLoop
      rw [meets_bind, meets_loadRoot, hroot, meets_bind]
      refine hsearch ?_
      rw [meets_bind, meets_dataOf hb.allocated ht, if_neg (by simp only [Treap.getSize]; omega), meets_bind,
        meets_isReplaceable hb.allocated (h.bases b hmem), if_pos rfl, meets_bind]
      refine fromPool_meets hF PoolOp.gives_node fun _ R₁ _ hsame₁ => ?_
      rw [meets_bind, meets_plain (s := { s with pools := R₁ }) hb.allocated]
      have hp := hb.parent
      generalize (s.nodes b.ptr).toPlain.parent = parent at hp ⊢
      subst hp
      dsimp only
      rw [meets_bind]
      refine hu (hF.extends ((Shared.Extends.refl s).withPools hsame₁)) hst hroom fun R₂ t' vs' res hsame₂ ht' hP => ?_
      have hsame := hsame₁.trans hsame₂
      have he := (Shared.Extends.refl s).withPools hsame
      have htype := (h.bases b hmem).type_ne_range
      have hput := (h.withPools R₂).put ht' (nextStat_le (h.calm b hmem) hinfo)
      rw [← hb.stat] at hput
      dsimp only
      rw [meets_bind, meets_newStat (s := { s with pools := R₂ }) hb.allocated htype, meets_bind, meets_new]
      generalize hx : ({ type := .normal, parent := holder C, data := some t', stat := nextStat (s.nodes b.ptr).stat info } :
        Node) = x at hput ⊢
      have hshape : Shape (Shared.alloc { s with pools := R₂ } x) (plug C (leaf b)) := h.shape.congr rfl fun p hp =>
        Keeps.alloc (s := { s with pools := R₂ }) (h.shape.allocated hp) x
      rw [meets_bind, meets_tryReplace hshape, if_pos rfl]
      refine hQ _ ⟨s.next, vs', _⟩ res hP ((he.alloc x).redirect C s.next) hput ?_
      have hnew : (Shared.alloc { s with pools := R₂ } x).nodes s.next = x := Shared.nodes_alloc _ _
      constructor
      · rw [Shared.toPlain_redirect, hnew, ← hx]
      · rw [Shared.neigh2_redirect, hnew, ← hx]

/-- A round of the loop on a full base node. -/
theorem placeUpdate_full {fuel : ℕ} {info : ContentionInfo} {Q : ℕ × Ptr × Bool → Shared → Prop} (h : Clean s T)
    (hfull : TREAP_NODES ≤ (baseFor i T).vals.length) (hF : Admits F s) (hf : Fueled F (T.height + 1) fuel)
    (hQ : ∀ s' T', s.Extends s' → Clean s' T' → ForcedSplit i T T' → Meets exec F (placeUpdate u i (fuel - 1) info) s' Q) :
    Meets exec F (placeUpdate u i fuel info) s Q := by
  cases fuel with
  | zero => exact hf.zero
  | succ fuel =>
      have hf := hf.pred (Nat.lt_succ_self _)
      have hroot := h.shape.root
      have hsearch : ∀ {Q : Ptr → Shared → Prop}, Q (baseFor i T).ptr s → Meets exec F (findBaseNode fuel (top T) i) s Q :=
        findBaseNode_meets h.shape.links hf
      have hc := h
      rw [← plug_pathFor i T] at hc
      have hb := hc.shape.base
      obtain ⟨t, ht, hst⟩ := hb.stores
      have hlen := hst.length
      unfold placeUpdate updateLoop
      rw [meets_bind, meets_loadRoot, hroot, meets_bind]
      refine hsearch ?_
      rw [meets_bind, meets_dataOf hb.allocated ht, if_pos (by simp only [Treap.getSize]; omega), meets_bind]
      refine highContentionAdaptation_meets hc hF (fun hsmall => ?_) fun _ s' l r t he hs' hsplit => ?_
      · have : TREAP_NODES = 64 := rfl
        omega
      · exact hQ s' _ he hs' ⟨hfull, l, r, t, rfl, hsplit⟩

/-- Splits make room for the update, which then replaces the base node the search ends in by `b'`. -/
structure Placed (i : ℤ) (P : List ℤ → List ℤ → Bool → Prop) (T T₁ : Tree) (b' : Base) (res : Bool) : Prop where
  splits : Relation.ReflTransGen (ForcedSplit i) T T₁
  room : (baseFor i T₁).vals.length < TREAP_NODES
  outcome : P (baseFor i T₁).vals b'.vals res

/-- What a call of `do_update` that returns does to the tree. -/
def Updated (i : ℤ) (P : List ℤ → List ℤ → Bool → Prop) (T : Tree) (res : Bool) (T' : Tree) : Prop :=
  ∃ T₁ b', Relation.ReflTransGen (ForcedSplit i) T T₁ ∧ (baseFor i T₁).vals.length < TREAP_NODES ∧
    P (baseFor i T₁).vals b'.vals res ∧ Relation.ReflTransGen Rearranges (plug (pathFor i T₁) (leaf b')) T'

/-- The loop up to the adaptation, as far as it gets there. -/
theorem placeUpdate_meets {fuel : ℕ} {info : ContentionInfo} (hu : Applies u i P) (hfuel : F .outOfFuel)
    (h : Clean s T) (hinfo : info ≠ .contended) (hF : Admits F s) :
    Meets exec F (placeUpdate u i fuel info) s (fun x s' => s.Extends s' ∧ ∃ T₁ b', x.2.1 = b'.ptr ∧
      Placed i P T T₁ b' x.2.2 ∧ Clean s' (plug (pathFor i T₁) (leaf b')) ∧ Unjoined s' b'.ptr) := by
  induction fuel generalizing s T with
  | zero => exact hfuel
  | succ fuel ih =>
      rcases lt_or_ge (baseFor i T).vals.length TREAP_NODES with hlt | hge
      · exact placeUpdate_room hu h hlt hinfo hF (.inl hfuel) fun s' b' res hP he hs' hb' =>
          ⟨he, T, b', rfl, ⟨.refl, hlt, hP⟩, hs', hb'⟩
      · refine placeUpdate_full h hge hF (.inl hfuel) fun s' T' he hs' hsplit => ?_
        refine (ih hs' (hF.extends he)).mono fun x s'' ⟨he', T₁, b', hx, hp, hs'', hb'⟩ => ?_
        exact ⟨he.trans he', T₁, b', hx, ⟨hp.splits.head hsplit, hp.room, hp.outcome⟩, hs'', hb'⟩

theorem doUpdateLoop_room {fuel : ℕ} {info : ContentionInfo} {Q : Bool → Shared → Prop} (hu : Applies u i P)
    (h : Clean s T) (hroom : (baseFor i T).vals.length < TREAP_NODES) (hinfo : info ≠ .contended) (hF : Admits F s)
    (hf : Fueled F (T.height + 1) fuel)
    (hQ : ∀ s' b' T' res, P (baseFor i T).vals b'.vals res → s.Extends s' → Clean s' T' →
      Relation.ReflTransGen Rearranges (plug (pathFor i T) (leaf b')) T' → Q res s') :
    Meets exec F (doUpdateLoop u i fuel info) s Q := by
  rw [doUpdateLoop_eq, meets_bind]
  refine placeUpdate_room hu h hroom hinfo hF hf fun s' b' res hP he hs' _ => ?_
  have hheight : (plug (pathFor i T) (leaf b')).height = T.height := by
    rw [← height_plug_congr (pathFor i T) (t := leaf (baseFor i T)) (u := leaf b') rfl, plug_pathFor]
  rw [meets_bind]
  refine adaptIfNeeded_meets hs' (hF.extends he) ?_ fun s'' T' he' hs'' hR => ?_
  · rw [hheight]
    exact hf.imp_right fun hf => by omega
  · exact hQ s'' b' T' res hP (he.trans he') hs'' hR

theorem doUpdateLoop_full {fuel : ℕ} {info : ContentionInfo} {Q : Bool → Shared → Prop} (h : Clean s T)
    (hfull : TREAP_NODES ≤ (baseFor i T).vals.length) (hF : Admits F s) (hf : Fueled F (T.height + 1) fuel)
    (hQ : ∀ s' T', s.Extends s' → Clean s' T' → ForcedSplit i T T' → Meets exec F (doUpdateLoop u i (fuel - 1) info) s' Q) :
    Meets exec F (doUpdateLoop u i fuel info) s Q := by
  rw [doUpdateLoop_eq, meets_bind]
  refine placeUpdate_full h hfull hF hf fun s' T' he hs' hsplit => ?_
  have hrest := hQ s' T' he hs' hsplit
  rwa [doUpdateLoop_eq, meets_bind] at hrest

/-- The loop, as far as it returns. -/
theorem doUpdateLoop_meets {fuel : ℕ} {info : ContentionInfo} (hu : Applies u i P) (hfuel : F .outOfFuel)
    (h : Clean s T) (hinfo : info ≠ .contended) (hF : Admits F s) :
    Meets exec F (doUpdateLoop u i fuel info) s (fun res s' => s.Extends s' ∧ ∃ T', Clean s' T' ∧ Updated i P T res T') := by
  rw [doUpdateLoop_eq]
  refine (placeUpdate_meets hu hfuel h hinfo hF).bind fun x s' ⟨he, T₁, b', hx, hp, hs', _⟩ => ?_
  obtain ⟨fuel', newb, res⟩ := x
  cases hx
  rw [meets_bind]
  refine adaptIfNeeded_meets hs' (hF.extends he) (.inl hfuel) fun s'' T' he' hs'' hR => ?_
  exact ⟨he.trans he', T', hs'', T₁, b', hp.splits, hp.room, hp.outcome, hR⟩

end Lfca

end LockFreeSearchTree
