import LockFreeSearchTree.TreapRuns
import Mathlib.Data.Finset.Dedup
import Mathlib.Data.Finset.Order

/-! # Heap order

`HeapOrdered t`: no slot in use weighs less than its parent.  Insertion and removal keep it
(`insert_heapOrdered`, `remove_heapOrdered`), since they sift by comparing weights.  Split and
merge copy trees node by node, and every copy gets a fresh weight: the copies are in heap order
exactly when the weights drawn for them are (`FreshSplit`, `FreshMerge`). -/

namespace LockFreeSearchTree.Treap

open BinTree

/-- Every slot in use weighs at least as much as its parent. -/
def HeapOrdered (t : Treap) : Prop :=
  ∀ k < t.size, ∀ p, (t.nodes k).parent = some p → (t.nodes p).weight ≤ (t.nodes k).weight

/-- The weights the split draws for the copies are in heap order along both of them. -/
def FreshSplit (t : Treap) (env : Env) : Prop :=
  ∀ m, t.getMedianVal = .ok m →
    Heap Prod.snd (copied t.vals env.draws env.drawn (cut (fun s => m < t.vals s) t.tree).1) ∧
    Heap Prod.snd (copied t.vals env.draws (env.drawn + (cut (fun s => m < t.vals s) t.tree).1.labels.length)
      (cut (fun s => m < t.vals s) t.tree).2)

/-- The weights the merge draws for the copies are in heap order along both of them. -/
def FreshMerge (left right : Treap) (env : Env) : Prop :=
  Heap Prod.snd (copied left.vals env.draws env.drawn left.tree) ∧
    Heap Prod.snd (copied right.vals env.draws (env.drawn + left.tree.labels.length) right.tree)

theorem heap_held {t : Treap} {T : SlotTree} : Heap Prod.snd (t.held T) ↔ Heap t.weights T := heap_relabel

/-- Heap order of a linked tree, for any weights, read off the parent fields. -/
theorem heap_linked_iff {t : Treap} {T : SlotTree} (w : ℕ → ℤ) (hL : t.Linked T) :
    Heap w T ↔ ∀ k ∈ T.labels, ∀ p, (t.nodes k).parent = some p → w p ≤ w k := by
  rw [heap_iff]
  constructor
  · intro h k hk p hkp
    obtain ⟨hpT, d, hd⟩ := (hL.parent_iff hk).mp hkp
    obtain ⟨C, s, a, b, he⟩ := hL.exists_child hpT hd
    exact h C ⟨d, p, s⟩ a k b he
  · rintro h C F a k b rfl
    exact h k (mem_labels_plug.mpr (.inl (by simp))) F.label hL.parent

/-- Heap order of the array is heap order of the tree in it. -/
theorem heapOrdered_iff {t : Treap} {T : SlotTree} (hL : t.Linked T) (hp : T.labels.Perm (List.range t.size)) :
    t.HeapOrdered ↔ Heap t.weights T := by
  have hmem : ∀ k, k ∈ T.labels ↔ k < t.size := fun k => by rw [hp.mem_iff, List.mem_range]
  rw [heap_linked_iff t.weights hL]
  exact ⟨fun h k hk => h k ((hmem k).mp hk), fun h k hk => h k ((hmem k).mpr hk)⟩

theorem Holds.heapOrdered_iff {t : Treap} {S : BinTree Unit (ℤ × ℤ)} (h : t.Holds S) :
    t.HeapOrdered ↔ Heap Prod.snd S := by
  obtain ⟨T, hL, hp, _, rfl⟩ := h
  rw [Treap.heapOrdered_iff hL hp, heap_held]

/-! ### Sifting one slot -/

/-- Heap order of a linked subtree. -/
theorem heap_subtree {t : Treap} {C : SlotCtx} {S : SlotTree} {w : ℕ → ℤ} (hL : t.Linked (plug C S))
    (h : ∀ k ∈ S.labels, ∀ p ∈ S.labels, (t.nodes k).parent = some p → w p ≤ w k) : Heap w S := by
  rw [heap_iff]
  rintro C' F a k b rfl
  rw [← plug_append] at hL
  refine h k (mem_labels_plug.mpr (.inl (by simp))) F.label ?_ hL.parent
  exact mem_labels_plug.mpr (.inr (mem_ctxLabels_cons.mpr (.inl rfl)))

/-- The pairs of a parent and a child that sifting `x` relies on: those between the other slots, and
the children of `x` against its parent. -/
structure OrderedBut (t : Treap) (x : ℕ) : Prop where
  others : ∀ k ∈ t.slots, k ≠ x → ∀ p, p ≠ x → (t.nodes k).parent = some p → (t.nodes p).weight ≤ (t.nodes k).weight
  across : ∀ k ∈ t.slots, (t.nodes k).parent = some x → ∀ p, (t.nodes x).parent = some p →
    (t.nodes p).weight ≤ (t.nodes k).weight

/-- The context and the children of `x` are in heap order, each, and to each other. -/
theorem OrderedBut.heaps {t : Treap} {C : SlotCtx} {l r : SlotTree} {x : ℕ} (hL : t.Linked (plug C (node l x r)))
    (h : t.OrderedBut x) :
    Heap t.weights (plug C (leaf ())) ∧ Heap t.weights l ∧ Heap t.weights r ∧
      ∀ F ∈ C, ∀ y ∈ l.labels ++ r.labels, t.weights F.label ≤ t.weights y := by
  obtain ⟨others, across⟩ := h
  rw [hL.slots] at others across
  obtain ⟨hnd, _, hdis⟩ := nodup_labels_plug.mp hL.2.2
  rw [labels_node, List.nodup_append', List.nodup_cons, List.disjoint_cons_right] at hnd
  have hxl : x ∉ l.labels := hnd.2.2.1
  have hxr : x ∉ r.labels := hnd.2.1.1
  have hmem : ∀ k, k ∈ l.labels ++ r.labels → k ∈ (plug C (node l x r)).labels := by
    intro k hk
    rw [mem_labels_plug, labels_node]
    simp only [List.mem_append, List.mem_cons] at hk ⊢
    tauto
  have hl : Heap t.weights l := by
    refine heap_subtree (C := ⟨.left, x, r⟩ :: C) hL fun k hk p hp hkp => ?_
    exact others k (hmem k (List.mem_append_left _ hk)) (fun he => hxl (he ▸ hk)) p (fun he => hxl (he ▸ hp)) hkp
  have hr : Heap t.weights r := by
    refine heap_subtree (C := ⟨.right, x, l⟩ :: C) hL fun k hk p hp hkp => ?_
    exact others k (hmem k (List.mem_append_right _ hk)) (fun he => hxr (he ▸ hk)) p (fun he => hxr (he ▸ hp)) hkp
  cases C with
  | nil => exact ⟨trivial, hl, hr, by simp⟩
  | cons F C =>
      have hparent : (t.nodes x).parent = some F.label := hL.parent
      have hF : F.label ≠ x := fun he => hdis (by simp : x ∈ (node l x r).labels) (mem_ctxLabels_cons.mpr (.inl he.symm))
      -- with the weight of its parent, the slot `x` breaks no pair
      let w := Function.update t.weights x (t.weights F.label)
      have hx : w x = t.weights F.label := Function.update_self ..
      have hne : ∀ s, s ≠ x → w s = t.weights s := fun s hs => Function.update_of_ne hs ..
      have hw : Heap w (plug (F :: C) (node l x r)) := by
        rw [heap_linked_iff w hL]
        intro k hk p hkp
        by_cases hkx : k = x
        · rw [hkx] at hkp ⊢
          cases hparent.symm.trans hkp
          rw [hx, hne _ hF]
        · by_cases hpx : p = x
          · rw [hpx] at hkp ⊢
            rw [hx, hne _ hkx]
            exact across k hk hkp F.label hparent
          · rw [hne _ hpx, hne _ hkx]
            exact others k hk hkx p hpx hkp
      obtain ⟨hC, _, hup⟩ := (heap_plug ()).mp hw
      have hctx : ∀ s ∈ ctxLabels (F :: C), s ≠ x := fun s hs he => hdis (by simp : x ∈ (node l x r).labels) (he ▸ hs)
      refine ⟨(heap_congr fun s hs => hne s ?_).mp hC, hl, hr, fun G hG y hy => ?_⟩
      · rw [mem_labels_plug] at hs
        exact hctx s (hs.resolve_left (by simp))
      · have hGx : G.label ≠ x := hctx _ (label_mem_ctxLabels hG)
        have hyx : y ≠ x := by
          rintro rfl
          exact (List.mem_append.mp hy).elim hxl hxr
        rw [← hne _ hGx, ← hne _ hyx]
        apply hup G hG y
        rw [labels_node]
        simp only [List.mem_append, List.mem_cons] at hy ⊢
        tauto

/-- What sifting keeps: the links of the same slots in the same order are consistent, and nothing
else of the treap changes. -/
structure Resifts (t t' : Treap) : Prop where
  linked : t'.Linked t'.tree
  slots : t'.slots = t.slots
  relinks : Relinks t t' t.slots

theorem Resifts.of_linked {t t' : Treap} {T T' : SlotTree} (hL : t.Linked T) (hL' : t'.Linked T')
    (hlab : T'.labels = T.labels) (hR : Relinks t t' T.labels) : Resifts t t' := by
  refine ⟨by rw [hL'.tree]; exact hL', ?_, ?_⟩
  · rw [hL'.slots, hL.slots, hlab]
  · rw [hL.slots]
    exact hR

/-- `t'` is `t` after `x` has moved up: to the root or below a slot that does not weigh more. -/
structure MovedUp (t t' : Treap) (x : ℕ) : Prop extends Resifts t t' where
  stops : t'.root = some x ∨ ∃ p, (t'.nodes x).parent = some p ∧ (t'.nodes p).weight ≤ (t'.nodes x).weight
  /-- Where at most `x` was lighter than its parent, no slot is. -/
  heap : t.OrderedBut x → (∀ k ∈ t.slots, (t.nodes k).parent = some x → (t.nodes x).weight ≤ (t.nodes k).weight) →
    ∀ k ∈ t'.slots, ∀ p, (t'.nodes k).parent = some p → (t'.nodes p).weight ≤ (t'.nodes k).weight

/-- `t'` is `t` after `x` has moved down to a leaf. -/
structure MovedDown (t t' : Treap) (x : ℕ) : Prop extends Resifts t t' where
  leaf : ∀ d, (t'.nodes x).child d = NullNode
  /-- The other slots are in heap order, where they were before. -/
  heap : t.OrderedBut x → ∀ k ∈ t'.slots, k ≠ x → ∀ p, (t'.nodes k).parent = some p →
    (t'.nodes p).weight ≤ (t'.nodes k).weight

theorem moveUp_repairs {t : Treap} {T : SlotTree} {x : ℕ} (hL : t.Linked T) (hx : x ∈ T.labels) :
    ∃ t', t.moveUp (some x) = .ok t' ∧ MovedUp t t' x := by
  obtain ⟨C, l, r, rfl⟩ := exists_plug_of_mem_labels hx
  obtain ⟨t', hrun, hL', hR⟩ := moveUp_spec hL
  refine ⟨t', hrun, .of_linked hL hL' (labels_siftUp t.weights C l x r) hR, ?_, fun hord hbelow => ?_⟩
  · obtain ⟨C', l', r', he, hstop⟩ := siftUp_stops t.weights C l x r
    rw [he] at hL'
    cases C' with
    | nil => exact .inl hL'.1
    | cons F C' =>
        refine .inr ⟨F.label, hL'.parent, ?_⟩
        rw [hR.weight, hR.weight]
        exact hstop F rfl
  · obtain ⟨hC, hl, hr, hup⟩ := hord.heaps hL
    rw [hL.slots] at hbelow
    have hnode : Heap t.weights (node l x r) := by
      refine heap_subtree hL fun k hk p hp hkp => ?_
      have hkT : k ∈ (plug C (node l x r)).labels := mem_labels_plug.mpr (.inl hk)
      by_cases hpx : p = x
      · rw [hpx] at hkp ⊢
        exact hbelow k hkT hkp
      · by_cases hkx : k = x
        · -- the parent of the root of a subtree is outside of it
          obtain ⟨-, -, hdis⟩ := nodup_labels_plug.mp hL.2.2
          rw [hkx] at hkp
          have htop : (t.nodes x).parent = ctxTop C := hL.parent
          cases C with
          | nil => cases htop.symm.trans hkp
          | cons F C =>
              cases htop.symm.trans hkp
              exact absurd (mem_ctxLabels_cons.mpr (.inl rfl)) (hdis hp)
        · apply hord.others k _ hkx p hpx hkp
          rw [hL.slots]
          exact hkT
    have hheap := (heap_linked_iff t.weights hL').mp (heap_siftUp () hC hnode hup)
    intro k hk p hkp
    rw [hL'.slots] at hk
    rw [hR.weight, hR.weight]
    exact hheap k hk p hkp

theorem moveDown_repairs {t : Treap} {T : SlotTree} {x : ℕ} (hL : t.Linked T) (hx : x ∈ T.labels) :
    ∃ t', t.moveDown (some x) = .ok t' ∧ MovedDown t t' x := by
  obtain ⟨C, l, r, rfl⟩ := exists_plug_of_mem_labels hx
  obtain ⟨t', hrun, hL', hR⟩ := moveDown_spec hL
  have hlab : (plug (sinkCtx t.weights l r ++ C) (node (leaf ()) x (leaf ()))).labels = (plug C (node l x r)).labels := by
    rw [plug_append]
    exact walk_plug_congr C (by
      have := labels_plug_sinkCtx t.weights l r (node (leaf ()) x (leaf ()))
      simpa [labels] using this)
  have hleaf : ∀ d, (t'.nodes x).child d = NullNode := by
    intro d
    have hon : t'.Linked (plug (sinkCtx t.weights l r ++ C) (on d (leaf ()) x (leaf ()))) := by
      cases d <;> exact hL'
    exact hon.child d
  refine ⟨t', hrun, .of_linked hL hL' hlab hR, hleaf, fun hord k hk hkx p hkp => ?_⟩
  obtain ⟨hC, hl, hr, hup⟩ := hord.heaps hL
  rw [hL'.slots] at hk
  -- with a weight not below any other one, the slot `x` breaks no pair
  obtain ⟨M, hM⟩ := Finset.exists_le ((plug C (node l x r)).labels.map t.weights).toFinset
  let w := Function.update t.weights x M
  have hx' : w x = M := Function.update_self ..
  have hne : ∀ s, s ≠ x → w s = t.weights s := fun s hs => Function.update_of_ne hs ..
  obtain ⟨-, -, hdis⟩ := nodup_labels_plug.mp hL'.2.2
  have hctx : ∀ s ∈ ctxLabels (sinkCtx t.weights l r ++ C), s ≠ x := fun s hs he => hdis (by simp) (he ▸ hs)
  have hcut : Heap t.weights (plug (sinkCtx t.weights l r ++ C) (leaf ())) := by
    rw [plug_append, heap_plug ()]
    refine ⟨hC, heap_sinkCtx l r hl hr, fun F hF y hy => hup F hF y ?_⟩
    rwa [labels_plug_sinkCtx, labels_leaf, List.append_nil] at hy
  have hheap : Heap w (plug (sinkCtx t.weights l r ++ C) (node (leaf ()) x (leaf ()))) := by
    rw [heap_plug ()]
    refine ⟨(heap_congr fun s hs => hne s ?_).mpr hcut, by simp [Heap], fun F hF y hy => ?_⟩
    · rw [mem_labels_plug] at hs
      exact hctx s (hs.resolve_left (by simp))
    · have hFlab := label_mem_ctxLabels hF
      obtain rfl : y = x := by simpa using hy
      rw [hne _ (hctx _ hFlab), hx']
      apply hM
      rw [List.mem_toFinset, ← hlab]
      exact List.mem_map_of_mem (mem_labels_plug.mpr (.inr hFlab))
  have hpx : p ≠ x := by
    rintro rfl
    obtain ⟨_, d, hd⟩ := (hL'.parent_iff hk).mp hkp
    cases (hleaf d).symm.trans hd
  have h := (heap_linked_iff w hL').mp hheap k hk p hkp
  rw [hne _ hpx, hne _ hkx] at h
  rw [hR.weight, hR.weight]
  exact h

/-- Sifting ends, keeps the links, the slots and their order, and repairs a heap out of order at the
sifted slot. -/
theorem sifting_repairs {t : Treap} {T : SlotTree} {x : ℕ} (hL : t.Linked T) (hx : x ∈ T.labels) :
    (∃ t', t.moveDown (some x) = .ok t' ∧ MovedDown t t' x) ∧ ∃ t', t.moveUp (some x) = .ok t' ∧ MovedUp t t' x :=
  ⟨moveDown_repairs hL hx, moveUp_repairs hL hx⟩

/-- The slot of the third value sifted in a treap of four. -/
theorem sifting_repairs_fill : ∃ t', (fill [4, 7, 4, 1] (poolEnv fun _ => ⟨0, zero_drawn⟩)).1.moveDown (some 2) = .ok t' ∧
    t'.slots = (fill [4, 7, 4, 1] (poolEnv fun _ => ⟨0, zero_drawn⟩)).1.slots := by
  have hreached : Reached (fill [4, 7, 4, 1] (poolEnv fun _ => ⟨0, zero_drawn⟩)).1 := fill_reached _ _
  obtain ⟨⟨T, hL, hp, -⟩, -⟩ := hreached.stores_inOrder
  have hsize : 2 < (fill [4, 7, 4, 1] (poolEnv fun _ => ⟨0, zero_drawn⟩)).1.size := by decide +kernel
  obtain ⟨⟨t', hrun, hmoved⟩, -⟩ := sifting_repairs hL (hp.mem_iff.mpr (List.mem_range.mpr hsize))
  exact ⟨t', hrun, hmoved.slots⟩

/-! ### Steps -/

/-- Insertion sifts the new slot up until its parent is not heavier. -/
theorem insert_heapOrdered {t t' : Treap} {vs : List ℤ} {v : ℤ} {env env' : Env} (h : t.Stores vs)
    (hheap : t.HeapOrdered) (hrun : t.insert v env = (.ok t', env')) : t'.HeapOrdered := by
  by_cases hfull : t.size = TREAP_NODES
  · rw [insert_full v hfull] at hrun
    cases hrun
  · obtain ⟨T, hL, hp, hsize, _, _⟩ := h
    obtain ⟨⟨hsize', _, _, hkeep, hL'⟩, _⟩ := (insert_links v hL hp (lt_of_le_of_ne hsize hfull)).of_ok hrun
    have hT : Heap t'.weights T := by
      rw [heap_congr fun s hs => (hkeep s hs).2]
      exact (heapOrdered_iff hL hp).mp hheap
    apply (heapOrdered_iff hL' ?_).mpr
    · apply heap_siftUp ()
      · have hd := plug_descend (fun s => t'.vals t.size < t'.vals s) T []
        rw [plug_nil] at hd
        rwa [hd]
      · simp [Heap]
      · simp
    · rw [labels_siftUp, hsize', List.range_succ]
      have hd := plug_descend (fun s => t'.vals t.size < t'.vals s) T []
      rw [plug_nil] at hd
      refine (labels_plug_perm _ _).trans ?_
      have hctx : (ctxLabels (descend (fun s => t'.vals t.size < t'.vals s) T [])).Perm T.labels := by
        have := labels_plug_perm (descend (fun s => t'.vals t.size < t'.vals s) T [])
          (leaf (seek (fun s => t'.vals t.size < t'.vals s) T))
        rw [hd] at this
        exact this.symm
      exact ((hctx.trans hp).cons t.size).trans (List.perm_append_singleton _ _).symm

/-- Removal moves the lighter child up in each round. -/
theorem remove_heapOrdered {t t' : Treap} {vs : List ℤ} {v : ℤ} {success : Bool} (h : t.Stores vs)
    (hheap : t.HeapOrdered) (hrun : t.remove v = .ok (success, t')) : t'.HeapOrdered := by
  obtain ⟨T, hL, hp, hsize, _, _⟩ := h
  obtain ⟨i, hi, hsome, _⟩ := bstFind_spec v hL
  cases i with
  | none =>
      have hnone : t.remove v = .ok (false, t) := by simp [remove, hi, Pure.pure, Except.pure]
      cases hnone.symm.trans hrun
      exact hheap
  | some x =>
      obtain ⟨C, l, r, t₁, T₁, rfl, hrun₁, hL₁, hp₁, _, hheld⟩ := remove_links v hL hp hsize hi (hsome x rfl).1
      cases hrun₁.symm.trans hrun
      rw [heapOrdered_iff hL₁ hp₁, ← heap_held, hheld, heap_held, plug_append, heap_plug ()]
      obtain ⟨hC, ⟨_, _, hl, hr⟩, hF⟩ := (heap_plug ()).mp ((heapOrdered_iff hL hp).mp hheap)
      refine ⟨hC, heap_sinkCtx l r hl hr, fun F hFC y hy => hF F hFC y ?_⟩
      rw [labels_plug_sinkCtx, labels_leaf, List.append_nil, List.mem_append] at hy
      rw [labels_node, List.mem_append, List.mem_cons]
      exact hy.imp_right .inr

/-- The halves of a split are in heap order exactly when the weights drawn for them are. -/
theorem split_heapOrdered_iff {t l r : Treap} {vs : List ℤ} {s : ℤ} {env env' : Env} (h : t.Stores vs)
    (hrun : t.split env = (.ok (s, l, r), env')) : l.HeapOrdered ∧ r.HeapOrdered ↔ t.FreshSplit env := by
  have hne : t.size ≠ 0 := fun hz => by
    rw [split_empty hz] at hrun
    cases hrun
  obtain ⟨m, hm, _⟩ := getMedianVal_spec h fun he => hne (by rw [← h.length, he]; rfl)
  obtain ⟨T, hL, hp, hsize, hw, _⟩ := h
  obtain ⟨_, hl, hr⟩ := (split_links env hL hp hsize hw hne hm).of_ok hrun
  unfold FreshSplit
  rw [hl.heapOrdered_iff, hr.heapOrdered_iff, hL.tree]
  constructor
  · intro hheap m' hm'
    cases hm.symm.trans hm'
    exact hheap
  · exact fun hfresh => hfresh m hm

/-- The node above the two copies sinks as a removed one does. -/
theorem merge_heapOrdered {l r t : Treap} {vs ws : List ℤ} {env env' : Env} (hl : l.Stores vs) (hr : r.Stores ws)
    (hsize : l.size + r.size ≤ TREAP_NODES) (hfresh : FreshMerge l r env) (hrun : merge l r env = (.ok t, env')) :
    t.HeapOrdered := by
  obtain ⟨Tl, hLl, hpl, _, _, _⟩ := hl
  obtain ⟨Tr, hLr, hpr, _, _, _⟩ := hr
  obtain ⟨L, R, hL, hp, _, hheldL, hheldR⟩ := (merge_links env hLl hpl hLr hpr hsize).of_ok hrun
  unfold FreshMerge at hfresh
  rw [hLl.tree, hLr.tree, ← hheldL, ← hheldR, heap_held, heap_held] at hfresh
  rw [heapOrdered_iff hL (by rw [labels_plug_sinkCtx]; simpa using hp)]
  exact heap_sinkCtx L R hfresh.1 hfresh.2

/-! ### Runs -/

/-- Where the weights every split and merge draws are in heap order along the copies, every treap
reached is heap ordered. -/
theorem reachedBy_heapOrdered {t : Treap} (h : ReachedBy FreshSplit FreshMerge t) : t.HeapOrdered := by
  induction h with
  | empty =>
      intro k hk
      exact absurd hk (Nat.not_lt_zero k)
  | immutableInsert h hrun ih =>
      obtain ⟨vs, hst, _⟩ := h.stores
      obtain ⟨env₁, hins⟩ := immutableInsert_ok hrun
      exact insert_heapOrdered hst ih hins
  | immutableRemove h hrun ih =>
      obtain ⟨vs, hst, _⟩ := h.stores
      exact remove_heapOrdered hst ih (immutableRemove_ok hrun)
  | sequentialInsert h hrun ih =>
      obtain ⟨vs, hst, _⟩ := h.stores
      exact insert_heapOrdered hst ih hrun
  | sequentialRemove h hrun ih =>
      obtain ⟨vs, hst, _⟩ := h.stores
      exact remove_heapOrdered hst ih hrun
  | splitLeft h hfresh hrun ih =>
      obtain ⟨vs, hst, _⟩ := h.stores
      exact ((split_heapOrdered_iff hst hrun).mpr hfresh).1
  | splitRight h hfresh hrun ih =>
      obtain ⟨vs, hst, _⟩ := h.stores
      exact ((split_heapOrdered_iff hst hrun).mpr hfresh).2
  | merge hl hr hsize _ hfresh hrun ihl ihr =>
      obtain ⟨vs, hsl, _⟩ := hl.stores
      obtain ⟨ws, hsr, _⟩ := hr.stores
      exact merge_heapOrdered hsl hsr hsize hfresh hrun

/-- Weights in the order they are drawn: 0, -1, -2, … -/
def falling (n : ℕ) : Weight := ⟨-(n % 100 : ℕ), by unfold NegInfinity PosInfinity; omega⟩

/-- Equal weights are in heap order along every copy. -/
theorem reachedBy_heapOrdered_split : ∃ s l r env',
    (fill [4, 3, 2, 1] (poolEnv fun _ => ⟨0, zero_drawn⟩)).1.split (poolEnv fun _ => ⟨0, zero_drawn⟩) =
      (.ok (s, l, r), env') ∧ l.HeapOrdered := by
  have hm : (fill [4, 3, 2, 1] (poolEnv fun _ => ⟨0, zero_drawn⟩)).1.getMedianVal = .ok 2 := by decide +kernel
  have hfresh : (fill [4, 3, 2, 1] (poolEnv fun _ => ⟨0, zero_drawn⟩)).1.FreshSplit (poolEnv fun _ => ⟨0, zero_drawn⟩) := by
    intro m hm'
    cases hm.symm.trans hm'
    decide +kernel
  have hreached : Reached (fill [4, 3, 2, 1] (poolEnv fun _ => ⟨0, zero_drawn⟩)).1 := fill_reached _ _
  have hu : (poolEnv fun _ => ⟨0, zero_drawn⟩).Unlimited := fun _ => rfl
  obtain ⟨⟨s, l, r⟩, env', hrun, -⟩ := (split_yields hreached.stores_inOrder.1 (by decide +kernel)).returns hu
  exact ⟨s, l, r, env', hrun, reachedBy_heapOrdered (.splitLeft (fill_reached _ _) hfresh hrun)⟩

/-- Of the halves of a split of the values 1, 2, 3, the copies of which get falling weights, one is
not in heap order. -/
theorem heapOrdered_fails_split : ∃ s l r env',
    (fill [3, 2, 1] (poolEnv falling)).1.split (fill [3, 2, 1] (poolEnv falling)).2 = (.ok (s, l, r), env') ∧
    Reached l ∧ Reached r ∧ ¬ (l.HeapOrdered ∧ r.HeapOrdered) := by
  have hreached : Reached (fill [3, 2, 1] (poolEnv falling)).1 := fill_reached _ _
  have hm : (fill [3, 2, 1] (poolEnv falling)).1.getMedianVal = .ok 2 := by decide +kernel
  have hst := hreached.stores_inOrder.1
  have hlen : [3, 2, 1].length ≤ TREAP_NODES := by decide
  have hu : (fill [3, 2, 1] (poolEnv falling)).2.Unlimited := (fill_values (fun _ => rfl) hlen).2
  obtain ⟨⟨s, l, r⟩, env', hrun, -⟩ := (split_yields hst (by decide +kernel)).returns hu
  refine ⟨s, l, r, env', hrun, .splitLeft hreached trivial hrun, .splitRight hreached trivial hrun, fun hheap => ?_⟩
  have hfresh := ((split_heapOrdered_iff hst hrun).mp hheap 2 hm).1
  exact absurd hfresh (by decide +kernel)

end LockFreeSearchTree.Treap
