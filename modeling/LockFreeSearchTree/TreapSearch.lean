import LockFreeSearchTree.TreapSift

/-! # Searching the array

The read-only walks of a linked array: `bstFind`, `rangeQuery` and `getMaxValue` never leave
the tree, end within their fuel and return what the tree holds; `bstInsert` links an unlinked
slot at the end of a search.

A search finds what it looks for only where the values are in order (`Ordered`); what it
returns without that is still a value of the tree. -/

namespace LockFreeSearchTree.Treap

open BinTree

/-- The values of the slots. -/
def vals (t : Treap) (s : ℕ) : ℤ := (t.nodes s).val

theorem Relinks.vals {t t' : Treap} {S : List ℕ} (h : Relinks t t' S) : t'.vals = t.vals := funext h.val

/-- The values of a tree of slots do not decrease from left to right. -/
def Ordered (t : Treap) (T : SlotTree) : Prop := T.labels.Pairwise (fun x y => t.vals x ≤ t.vals y)

theorem Linked.length_le_of_subtree {t : Treap} {C : SlotCtx} {T : SlotTree} (h : t.Linked (plug C T)) :
    T.labels.length < loopFuel := by
  have h₁ := h.length_le
  rw [(labels_plug_perm C T).length_eq, List.length_append] at h₁
  unfold loopFuel
  omega

/-! ### Finding a value -/

theorem bstFindLoop_spec {t : Treap} (v : ℤ) : ∀ {T : SlotTree} {fuel : ℕ} {p : TreapIndex},
    Spans t.nodes p T → T.labels.length < fuel →
    ∃ i, bstFindLoop fuel t v (top T) = .ok i ∧ (∀ s, i = some s → s ∈ T.labels ∧ t.vals s = v) ∧
      (i = NullNode → t.Ordered T → ∀ s ∈ T.labels, t.vals s ≠ v)
  | .leaf u, fuel, p, h, hf => by
      obtain ⟨f, rfl⟩ : ∃ f, fuel = f + 1 := ⟨fuel - 1, by omega⟩
      exact ⟨NullNode, rfl, fun s hs => by simp at hs, fun _ _ => by simp⟩
  | .node l b r, fuel, p, h, hf => by
      obtain ⟨f, rfl⟩ : ∃ f, fuel = f + 1 := ⟨fuel - 1, by omega⟩
      obtain ⟨hb, _, hl, hr, hSl, hSr⟩ := h
      simp only [labels_node, List.length_append, List.length_cons] at hf
      simp only [Ordered, labels_node, List.pairwise_append, List.pairwise_cons, List.mem_append, List.mem_cons]
      by_cases heq : t.vals b = v
      · refine ⟨some b, ?_, fun s hs => ?_, fun hn => by simp at hn⟩
        · have heq' : (t.nodes b).val = v := heq
          simp [bstFindLoop, get_some t hb, heq', pure, Except.pure]
        · cases hs
          exact ⟨by tauto, heq⟩
      · have heq' : (t.nodes b).val ≠ v := heq
        by_cases hgt : t.vals b > v
        · obtain ⟨i, hi, hsome, hnone⟩ := bstFindLoop_spec (p := some b) v hSl (by omega : _ < f)
          refine ⟨i, ?_, fun s hs => ?_, fun hn ho s hs => ?_⟩
          · have hgt' : (t.nodes b).val > v := hgt
            simp only [bstFindLoop, top_node, reduceCtorEq, if_false, get_some t hb, ok_bind, heq', hgt', if_true]
            rw [hl, hi]
          · have := hsome s hs
            tauto
          · obtain ⟨hol, ⟨hbr, _⟩, _⟩ := ho
            rcases hs with hs | rfl | hs
            · exact hnone hn hol s hs
            · exact heq
            · have := hbr s hs
              omega
        · obtain ⟨i, hi, hsome, hnone⟩ := bstFindLoop_spec (p := some b) v hSr (by omega : _ < f)
          refine ⟨i, ?_, fun s hs => ?_, fun hn ho s hs => ?_⟩
          · have hgt' : ¬ (t.nodes b).val > v := hgt
            simp only [bstFindLoop, top_node, reduceCtorEq, if_false, get_some t hb, ok_bind, heq', hgt']
            rw [hr, hi]
          · have := hsome s hs
            tauto
          · obtain ⟨_, ⟨_, hor⟩, hlb⟩ := ho
            rcases hs with hs | rfl | hs
            · have := hlb s hs b (by simp)
              omega
            · exact heq
            · exact hnone hn hor s hs

/-- `bstFind` ends at a slot with the value, or at none if the values in order do not contain it. -/
theorem bstFind_spec {t : Treap} {T : SlotTree} (v : ℤ) (h : t.Linked T) :
    ∃ i, t.bstFind v = .ok i ∧ (∀ s, i = some s → s ∈ T.labels ∧ t.vals s = v) ∧
      (i = NullNode → t.Ordered T → ∀ s ∈ T.labels, t.vals s ≠ v) := by
  unfold bstFind
  rw [h.1]
  exact bstFindLoop_spec v h.2.1 (Linked.length_le_of_subtree (C := []) h)

/-! ### Range queries -/

theorem rangeQueryLoop_spec {t : Treap} (min max : ℤ) : ∀ (fuel : ℕ) (Ts : List SlotTree) (acc : List ℤ),
    (∀ T ∈ Ts, top T ≠ NullNode ∧ ∃ p, Spans t.nodes p T) → (Ts.map (fun T => T.labels.length)).sum ≤ fuel →
    t.rangeQueryLoop min max fuel (Ts.map top) acc =
      .ok (acc ++ (Ts.flatMap (rangeWalk t.vals min max)).map t.vals)
  | fuel, [], acc, _, _ => by cases fuel <;> simp [rangeQueryLoop]
  | fuel, .leaf u :: Ts, acc, h, _ => absurd rfl (h _ List.mem_cons_self).1
  | 0, .node l s r :: Ts, acc, _, hf => by simp at hf
  | fuel + 1, .node l s r :: Ts, acc, h, hf => by
      obtain ⟨_, p, hs, _, hl, hr, hSl, hSr⟩ := h _ List.mem_cons_self
      have hTs := fun T hT => h T (List.mem_cons_of_mem _ hT)
      simp only [List.map_cons, List.sum_cons, labels_node, List.length_append, List.length_cons] at hf
      simp only [List.map_cons, top_node, rangeQueryLoop, get_some t hs, ok_bind, hl, hr]
      have hval : (t.nodes s).val = t.vals s := rfl
      rw [hval]
      -- the two children are pushed, if there are any
      have hpush : ∀ (c : Prop) [Decidable c] (T : SlotTree) (is : List TreapIndex),
          (if c ∧ top T ≠ NullNode then top T :: is else is) =
            (if c ∧ top T ≠ NullNode then [T] else []).map top ++ is := by
        intro c _ T is
        split_ifs <;> rfl
      have hwalk : ∀ (c : Prop) [Decidable c] (T : SlotTree),
          (if c ∧ top T ≠ NullNode then [T] else []).flatMap (rangeWalk t.vals min max) =
            if c then rangeWalk t.vals min max T else [] := by
        intro c _ T
        cases T with
        | leaf u => simp [rangeWalk]
        | node l' s' r' => by_cases hc : c <;> simp [hc]
      have hsum : ∀ (c : Prop) [Decidable c] (T : SlotTree),
          ((if c ∧ top T ≠ NullNode then [T] else []).map (fun T => T.labels.length)).sum ≤ T.labels.length := by
        intro c _ T
        split_ifs <;> simp
      rw [hpush, hpush, ← List.map_append, ← List.map_append, rangeQueryLoop_spec min max fuel]
      · simp only [List.flatMap_append, hwalk, List.flatMap_cons, rangeWalk, List.map_append, List.append_assoc]
        split_ifs <;> simp
      · intro T hT
        simp only [List.mem_append] at hT
        rcases hT with hT | hT | hT
        · split_ifs at hT with hc
          · rw [List.mem_singleton.mp hT]
            exact ⟨hc.2, _, hSr⟩
          · cases hT
        · split_ifs at hT with hc
          · rw [List.mem_singleton.mp hT]
            exact ⟨hc.2, _, hSl⟩
          · cases hT
        · exact hTs T hT
      · have h₁ := hsum (t.vals s ≤ max) r
        have h₂ := hsum (t.vals s ≥ min) l
        simp only [List.map_append, List.sum_append]
        omega

/-- `rangeQuery` is the range walk of the tree. -/
theorem rangeQuery_spec {t : Treap} {T : SlotTree} (min max : ℤ) (h : t.Linked T) :
    t.rangeQuery min max = .ok ((rangeWalk t.vals min max T).map t.vals) := by
  unfold rangeQuery
  rw [h.1]
  cases T with
  | leaf u => rfl
  | node l s r =>
      rw [if_neg (by simp)]
      have hlen := Linked.length_le_of_subtree (C := []) h
      have hspec := rangeQueryLoop_spec (t := t) min max loopFuel [node l s r] []
        (fun T hT => by rw [List.mem_singleton.mp hT]; exact ⟨by simp, _, h.2.1⟩)
        (by simp only [List.map_cons, List.map_nil, List.sum_cons, List.sum_nil]; omega)
      simpa using hspec

/-! ### The maximum -/

theorem getMaxValueLoop_spec {t : Treap} : ∀ {r l : SlotTree} {s : ℕ} (fuel : ℕ) {p : TreapIndex},
    Spans t.nodes p (.node l s r) → (node l s r).labels.length ≤ fuel →
    ∃ q ∈ (node l s r).labels.getLast?, getMaxValueLoop fuel t (some s) = .ok (t.vals q)
  | .leaf u, l, s, fuel, p, h, hf => by
      obtain ⟨f, rfl⟩ : ∃ f, fuel = f + 1 := ⟨fuel - 1, by simp at hf; omega⟩
      obtain ⟨hs, _, _, hr, _⟩ := h
      rw [top_leaf] at hr
      exact ⟨s, by simp, by simp [getMaxValueLoop, get_some t hs, hr, pure, Except.pure, vals]⟩
  | .node l' s' r', l, s, fuel, p, h, hf => by
      obtain ⟨f, rfl⟩ : ∃ f, fuel = f + 1 := ⟨fuel - 1, by simp at hf; omega⟩
      obtain ⟨hs, _, _, hr, _, hSr⟩ := h
      rw [top_node] at hr
      obtain ⟨q, hq, hmax⟩ := getMaxValueLoop_spec f hSr (by simp at hf ⊢; omega)
      refine ⟨q, ?_, by simp [getMaxValueLoop, get_some t hs, hr, hmax]⟩
      obtain ⟨ss, hss⟩ := List.getLast?_eq_some_iff.mp hq
      rw [labels_node l s, hss]
      exact List.getLast?_eq_some_iff.mpr ⟨l.labels ++ s :: ss, by simp⟩

/-! ### Linking a slot at the end of a search -/

/-- Linking the slot `x` in an empty hole. -/
theorem attach_spec {t : Treap} {F : Frame Unit ℕ} {C : SlotCtx} {x : ℕ}
    (h : t.Linked (plug (F :: C) (leaf ()))) (hx : x ≤ TREAP_NODES) (hxT : x ∉ ctxLabels (F :: C))
    (hxl : (t.nodes x).left = NullNode) (hxr : (t.nodes x).right = NullNode) :
    ∃ t', (do let t ← t.modify (some F.label) (fun n => n.setChild F.side (some x))
              t.modify (some x) (fun n => n.withParent (some F.label))) = .ok t' ∧
      t'.Linked (plug (F :: C) (node (leaf ()) x (leaf ()))) ∧
      Relinks t t' (x :: ctxLabels (F :: C)) := by
  obtain ⟨⟨hb, hp, hi, ho, hS, hC⟩, _, hnd⟩ := linked_plug.mp h
  have hbx : F.label ≠ x := fun he => hxT (he ▸ mem_ctxLabels_cons.mpr (.inl rfl))
  have hndC := (nodup_labels_plug.mp hnd).2.1
  have hdis : F.label ∉ F.sibling.labels ∧ F.label ∉ ctxLabels C := by
    rw [(ctxLabels_cons_perm F C).nodup_iff, List.nodup_cons, List.mem_append, not_or] at hndC
    exact hndC.1
  let t₁ := t.put F.label ((t.nodes F.label).setChild F.side (some x))
  have hR₁ : Relinks t t₁ (x :: ctxLabels (F :: C)) :=
    (Relinks.refl t _).put (List.mem_cons_of_mem _ (mem_ctxLabels_cons.mpr (.inl rfl))) (by simp) (by simp)
  have hne : ∀ s ∈ ctxLabels (F :: C), s ≠ x := fun s hs he => hxT (he ▸ hs)
  refine ⟨t₁.put x ((t₁.nodes x).withParent (some F.label)), ?_, linked_plug.mpr ⟨⟨hb, ?_, ?_, ?_, ?_, ?_⟩,
    ⟨hx, ?_, ?_, ?_, trivial, trivial⟩, ?_⟩, hR₁.put (by simp) (by simp) (by simp)⟩
  · simp only [modify_some _ _ hb, ok_bind, modify_some _ _ hx]
    rfl
  · rw [put_ne _ _ hbx, put_same]; simpa using hp
  · rw [put_ne _ _ hbx, put_same]; simp
  · rw [put_ne _ _ hbx, put_same]; simpa using ho
  · refine hS.congr (fun s hs => ?_)
    have hs' := mem_ctxLabels_cons (F := F) (C := C).mpr (.inr (.inl hs))
    rw [put_ne _ _ (hne s hs'), put_ne _ _ (fun he : s = F.label => hdis.1 (he ▸ hs))]
  · refine hC.congr (fun s hs => ?_)
    have hs' := mem_ctxLabels_cons (F := F) (C := C).mpr (.inr (.inr hs))
    rw [put_ne _ _ (hne s hs'), put_ne _ _ (fun he : s = F.label => hdis.2 (he ▸ hs))]
  · rw [put_same]; rfl
  · rw [put_same, TreapNode.left_withParent, put_ne _ _ (Ne.symm hbx), hxl]; rfl
  · rw [put_same, TreapNode.right_withParent, put_ne _ _ (Ne.symm hbx), hxr]; rfl
  · rw [nodup_labels_plug]
    refine ⟨by simp, hndC, ?_⟩
    simpa using hxT

theorem bstInsertLoop_spec {t : Treap} {x : ℕ} (hx : x ≤ TREAP_NODES) (hxl : (t.nodes x).left = NullNode)
    (hxr : (t.nodes x).right = NullNode) : ∀ {T : SlotTree} {fuel : ℕ} {C : SlotCtx},
    t.Linked (plug C T) → x ∉ (plug C T).labels → top T ≠ NullNode → T.labels.length ≤ fuel →
    ∃ t', bstInsertLoop fuel t (some x) (top T) = .ok t' ∧
      t'.Linked (plug (descend (fun s => t.vals x < t.vals s) T C) (node (leaf ()) x (leaf ()))) ∧
      Relinks t t' (x :: (plug C T).labels)
  | .leaf u, _, _, _, _, hT, _ => absurd rfl hT
  | .node l b r, fuel, C, h, hxT, _, hf => by
      obtain ⟨f, rfl⟩ : ∃ f, fuel = f + 1 := ⟨fuel - 1, by simp at hf; omega⟩
      simp only [labels_node, List.length_append, List.length_cons] at hf
      obtain ⟨_, ⟨hb, _, hl, hr, _⟩, _⟩ := linked_plug.mp h
      by_cases hlt : t.vals x < t.vals b
      · have hlt' : (t.nodes b).val > (t.nodes x).val := hlt
        have hd : descend (fun s => t.vals x < t.vals s) (node l b r) C =
            descend (fun s => t.vals x < t.vals s) l (⟨.left, b, r⟩ :: C) := by
          rw [descend, if_pos hlt]
        have hmem : ∀ s, s ∈ ctxLabels (⟨.left, b, r⟩ :: C : SlotCtx) → s ∈ (plug C (node l b r)).labels := by
          intro s hs
          rw [mem_ctxLabels_cons] at hs
          simp only [mem_labels_plug, labels_node, List.mem_append, List.mem_cons]
          tauto
        cases l with
        | leaf u =>
            obtain ⟨t', ht', hL, hR⟩ := attach_spec (F := ⟨.left, b, r⟩) h hx (fun hm => hxT (hmem x hm)) hxl hxr
            refine ⟨t', ?_, hd ▸ hL, hR.mono (List.cons_subset_cons x hmem)⟩
            rw [top_leaf] at hl
            simp only [top_node, bstInsertLoop, get_some t hb, get_some t hx, ok_bind, hlt', if_true, hl]
            exact ht'
        | node l' b' r' =>
            obtain ⟨t', ht', hL, hR⟩ := bstInsertLoop_spec hx hxl hxr (C := ⟨.left, b, r⟩ :: C) h hxT (by simp)
              (by omega : _ ≤ f)
            refine ⟨t', ?_, hd ▸ hL, hR⟩
            rw [top_node] at hl ht'
            simp only [top_node, bstInsertLoop, get_some t hb, get_some t hx, ok_bind, hlt', if_true, hl, reduceCtorEq,
              if_false, ht']
      · have hlt' : ¬ (t.nodes b).val > (t.nodes x).val := hlt
        have hd : descend (fun s => t.vals x < t.vals s) (node l b r) C =
            descend (fun s => t.vals x < t.vals s) r (⟨.right, b, l⟩ :: C) := by
          rw [descend, if_neg hlt]
        have hmem : ∀ s, s ∈ ctxLabels (⟨.right, b, l⟩ :: C : SlotCtx) → s ∈ (plug C (node l b r)).labels := by
          intro s hs
          rw [mem_ctxLabels_cons] at hs
          simp only [mem_labels_plug, labels_node, List.mem_append, List.mem_cons]
          tauto
        cases r with
        | leaf u =>
            obtain ⟨t', ht', hL, hR⟩ := attach_spec (F := ⟨.right, b, l⟩) h hx (fun hm => hxT (hmem x hm)) hxl hxr
            refine ⟨t', ?_, hd ▸ hL, hR.mono (List.cons_subset_cons x hmem)⟩
            rw [top_leaf] at hr
            simp only [top_node, bstInsertLoop, get_some t hb, get_some t hx, ok_bind, hlt', if_false, hr, if_true]
            exact ht'
        | node l' b' r' =>
            obtain ⟨t', ht', hL, hR⟩ := bstInsertLoop_spec hx hxl hxr (C := ⟨.right, b, l⟩ :: C) h hxT (by simp)
              (by omega : _ ≤ f)
            refine ⟨t', ?_, hd ▸ hL, hR⟩
            rw [top_node] at hr ht'
            simp only [top_node, bstInsertLoop, get_some t hb, get_some t hx, ok_bind, hlt', hr, reduceCtorEq,
              if_false, ht']

/-- `bstInsert` links an unlinked slot where the search for its value ends. -/
theorem bstInsert_spec {t : Treap} {T : SlotTree} {x : ℕ} (h : t.Linked T) (hT : t.root ≠ NullNode)
    (hx : x ≤ TREAP_NODES) (hxT : x ∉ T.labels) (hxl : (t.nodes x).left = NullNode)
    (hxr : (t.nodes x).right = NullNode) :
    ∃ t', t.bstInsert (some x) = .ok t' ∧
      t'.Linked (plug (descend (fun s => t.vals x < t.vals s) T []) (node (leaf ()) x (leaf ()))) ∧
      Relinks t t' (x :: T.labels) := by
  unfold bstInsert
  rw [h.1] at hT ⊢
  exact bstInsertLoop_spec hx hxl hxr (C := []) h hxT hT (Linked.length_le_of_subtree (C := []) h).le

end LockFreeSearchTree.Treap
