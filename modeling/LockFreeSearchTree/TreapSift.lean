import LockFreeSearchTree.TreapLinks
import Mathlib.Data.List.Perm.Basic
import Mathlib.Data.List.Perm.Subperm

/-! # Sifting in the array

`moveUp` and `moveDown` on the linked array compute `siftUp` and `sinkCtx` on the tree it
holds: the loops of rotations end within their fuel, and the tree they leave is the one the
functions of `Sift.lean` describe (`moveUp_spec`, `moveDown_spec`). -/

namespace LockFreeSearchTree.Treap

open BinTree

/-- The weights of the slots. -/
def weights (t : Treap) (s : ℕ) : ℤ := (t.nodes s).weight

theorem Relinks.weights {t t' : Treap} {S : List ℕ} (h : Relinks t t' S) : t'.weights = t.weights :=
  funext h.weight

/-- There are no more slots than the array has. -/
theorem Linked.length_le {t : Treap} {T : SlotTree} (h : t.Linked T) : T.labels.length ≤ TREAP_NODES + 1 := by
  have hsub : T.labels ⊆ List.range (TREAP_NODES + 1) := fun s hs => by
    have := h.le s hs
    exact List.mem_range.mpr (by omega)
  simpa using (List.Nodup.subperm h.2.2 hsub).length_le

theorem length_ctx_lt {C : SlotCtx} {l r : SlotTree} {x : ℕ} : C.length < (plug C (node l x r)).labels.length := by
  rw [(labels_plug_perm C _).length_eq, List.length_append]
  have hC : C.length ≤ (ctxLabels C).length := by
    induction C with
    | nil => simp
    | cons F C ih =>
        rw [(ctxLabels_cons_perm F C).length_eq]
        simp only [List.length_cons, List.length_append]
        omega
  simp only [labels_node, List.length_append, List.length_cons]
  omega

/-! ### Moving up -/

theorem moveUpLoop_spec {C : SlotCtx} : ∀ {fuel : ℕ} {t : Treap} {l r : SlotTree} {x : ℕ},
    t.Linked (plug C (node l x r)) → C.length < fuel →
    ∃ t', moveUpLoop fuel t (some x) = .ok t' ∧ t'.Linked (siftUp t.weights C l x r) ∧
      Relinks t t' (plug C (node l x r)).labels := by
  induction C with
  | nil =>
      intro fuel t l r x h hf
      obtain ⟨f, rfl⟩ : ∃ f, fuel = f + 1 := ⟨fuel - 1, by simp at hf; omega⟩
      obtain ⟨hx, hp, _⟩ := h.2.1
      refine ⟨t, ?_, h, Relinks.refl t _⟩
      simp [moveUpLoop, get_some t hx, hp, pure, Except.pure]
  | cons F C ih =>
      intro fuel t l r x h hf
      obtain ⟨f, rfl⟩ : ∃ f, fuel = f + 1 := ⟨fuel - 1, by simp at hf; omega⟩
      simp only [List.length_cons] at hf
      obtain ⟨⟨hb, hpb, hchild, hsib, hS, hC⟩, ⟨hx, hpx, hxl, hxr, hSl, hSr⟩, hnd⟩ := linked_plug.mp h
      by_cases hw : t.weights F.label ≤ t.weights x
      · refine ⟨t, ?_, by rw [siftUp, if_pos hw]; exact h, Relinks.refl t _⟩
        have hw' : (t.nodes x).weight ≥ (t.nodes F.label).weight := hw
        simp [moveUpLoop, get_some t hx, get_some t hb, hpx, hw', pure, Except.pure]
      · have hw' : ¬ (t.nodes x).weight ≥ (t.nodes F.label).weight := hw
        have hxs : top F.sibling ≠ some x := fun he => by
          have hdis := (nodup_labels_plug.mp hnd).2.2
          exact hdis (by simp) (mem_ctxLabels_cons.mpr (.inr (.inl (mem_of_top he))))
        obtain ⟨d, b, s⟩ := F
        cases d with
        | left =>
            have hleft : (t.nodes b).left = some x := hchild
            obtain ⟨t₁, ht₁, hL₁, hR₁⟩ := rotate_spec (d := .left) (a := l) (b := r) (c := s) h
            obtain ⟨t', ht', hL', hR'⟩ := ih hL₁ (by omega : C.length < f)
            refine ⟨t', ?_, ?_, hR₁.trans (hR'.mono fun q hq => ?_)⟩
            · simp [moveUpLoop, get_some t hx, get_some t hb, hpx, hw', hleft, rightRotate, ht₁, ht']
            · rw [siftUp, if_neg hw, ← hR₁.weights]
              exact hL'
            · simpa [mem_labels_plug, mem_ctxLabels_cons] using hq
        | right =>
            have hleft : some x ≠ (t.nodes b).left := fun he => hxs (hsib.symm.trans he.symm)
            obtain ⟨t₁, ht₁, hL₁, hR₁⟩ := rotate_spec (d := .right) (a := r) (b := l) (c := s) h
            obtain ⟨t', ht', hL', hR'⟩ := ih hL₁ (by omega : C.length < f)
            refine ⟨t', ?_, ?_, hR₁.trans (hR'.mono fun q hq => ?_)⟩
            · simp [moveUpLoop, get_some t hx, get_some t hb, hpx, hw', hleft, leftRotate, ht₁, ht']
            · rw [siftUp, if_neg hw, ← hR₁.weights]
              exact hL'
            · simpa [mem_labels_plug, mem_ctxLabels_cons] using hq

/-- `moveUp` sifts its node up. -/
theorem moveUp_spec {t : Treap} {C : SlotCtx} {l r : SlotTree} {x : ℕ} (h : t.Linked (plug C (node l x r))) :
    ∃ t', t.moveUp (some x) = .ok t' ∧ t'.Linked (siftUp t.weights C l x r) ∧
      Relinks t t' (plug C (node l x r)).labels := by
  refine moveUpLoop_spec h ?_
  have h₁ := h.length_le
  have h₂ := length_ctx_lt (C := C) (l := l) (r := r) (x := x)
  unfold loopFuel
  omega

/-! ### Moving down -/

theorem moveDownLoop_spec (w : ℕ → ℤ) (l r : SlotTree) : ∀ {fuel : ℕ} {t : Treap} {C : SlotCtx} {x : ℕ},
    t.weights = w → t.Linked (plug C (node l x r)) → l.labels.length + r.labels.length < fuel →
    ∃ t', moveDownLoop fuel t (some x) = .ok t' ∧
      t'.Linked (plug (sinkCtx w l r ++ C) (node (leaf ()) x (leaf ()))) ∧
      Relinks t t' (plug C (node l x r)).labels := by
  fun_induction sinkCtx w l r with
  | case1 =>
      intro fuel t C x hw h hf
      obtain ⟨f, rfl⟩ : ∃ f, fuel = f + 1 := ⟨fuel - 1, by omega⟩
      obtain ⟨_, ⟨hx, _, hxl, hxr, _⟩, _⟩ := linked_plug.mp h
      refine ⟨t, ?_, h, Relinks.refl t _⟩
      rw [top_leaf] at hxl hxr
      simp [moveDownLoop, get_some t hx, hxl, hxr, pure, Except.pure]
  | case2 a y b u ih =>
      intro fuel t C x hw h hf
      obtain ⟨f, rfl⟩ : ∃ f, fuel = f + 1 := ⟨fuel - 1, by omega⟩
      obtain ⟨_, ⟨hx, _, hxl, hxr, _⟩, _⟩ := linked_plug.mp h
      rw [top_leaf] at hxr
      rw [top_node] at hxl
      obtain ⟨t₁, ht₁, hL₁, hR₁⟩ := rotate_spec (d := .left) (a := a) (b := b) (c := .leaf u) h
      obtain ⟨t', ht', hL', hR'⟩ := ih (C := ⟨.right, y, a⟩ :: C) (x := x) (hR₁.weights.trans hw) hL₁
        (show _ < f by simp at hf ⊢; omega)
      refine ⟨t', ?_, by simpa using hL', hR₁.trans (hR'.mono fun q hq => ?_)⟩
      · simp [moveDownLoop, get_some t hx, hxl, hxr, rightRotate, ht₁, ht']
      · simp [mem_labels_plug] at hq ⊢; tauto
  | case3 u c z d ih =>
      intro fuel t C x hw h hf
      obtain ⟨f, rfl⟩ : ∃ f, fuel = f + 1 := ⟨fuel - 1, by omega⟩
      obtain ⟨_, ⟨hx, _, hxl, hxr, _⟩, _⟩ := linked_plug.mp h
      rw [top_leaf] at hxl
      rw [top_node] at hxr
      obtain ⟨t₁, ht₁, hL₁, hR₁⟩ := rotate_spec (d := .right) (a := d) (b := c) (c := .leaf u) h
      obtain ⟨t', ht', hL', hR'⟩ := ih (C := ⟨.left, z, d⟩ :: C) (x := x) (hR₁.weights.trans hw) hL₁
        (show _ < f by simp at hf ⊢; omega)
      refine ⟨t', ?_, by simpa using hL', hR₁.trans (hR'.mono fun q hq => ?_)⟩
      · simp [moveDownLoop, get_some t hx, hxl, hxr, leftRotate, ht₁, ht']
      · simp [mem_labels_plug] at hq ⊢; tauto
  | case4 a y b c z d hlt ih =>
      intro fuel t C x hw h hf
      obtain ⟨f, rfl⟩ : ∃ f, fuel = f + 1 := ⟨fuel - 1, by omega⟩
      obtain ⟨_, ⟨hx, _, hxl, hxr, ⟨hy, _⟩, ⟨hz, _⟩⟩, _⟩ := linked_plug.mp h
      rw [top_node] at hxl hxr
      have hlt' : (t.nodes y).weight < (t.nodes z).weight := by rw [← hw] at hlt; exact hlt
      obtain ⟨t₁, ht₁, hL₁, hR₁⟩ := rotate_spec (d := .left) (a := a) (b := b) (c := node c z d) h
      obtain ⟨t', ht', hL', hR'⟩ := ih (C := ⟨.right, y, a⟩ :: C) (x := x) (hR₁.weights.trans hw) hL₁
        (show _ < f by simp at hf ⊢; omega)
      refine ⟨t', ?_, by simpa using hL', hR₁.trans (hR'.mono fun q hq => ?_)⟩
      · simp [moveDownLoop, get_some t hx, get_some t hy, get_some t hz, hxl, hxr, hlt', rightRotate, ht₁, ht']
      · simp [mem_labels_plug] at hq ⊢; tauto
  | case5 a y b c z d hlt ih =>
      intro fuel t C x hw h hf
      obtain ⟨f, rfl⟩ : ∃ f, fuel = f + 1 := ⟨fuel - 1, by omega⟩
      obtain ⟨_, ⟨hx, _, hxl, hxr, ⟨hy, _⟩, ⟨hz, _⟩⟩, _⟩ := linked_plug.mp h
      rw [top_node] at hxl hxr
      have hlt' : ¬ (t.nodes y).weight < (t.nodes z).weight := by rw [← hw] at hlt; exact hlt
      obtain ⟨t₁, ht₁, hL₁, hR₁⟩ := rotate_spec (d := .right) (a := d) (b := c) (c := node a y b) h
      obtain ⟨t', ht', hL', hR'⟩ := ih (C := ⟨.left, z, d⟩ :: C) (x := x) (hR₁.weights.trans hw) hL₁
        (show _ < f by simp at hf ⊢; omega)
      refine ⟨t', ?_, by simpa using hL', hR₁.trans (hR'.mono fun q hq => ?_)⟩
      · simp [moveDownLoop, get_some t hx, get_some t hy, get_some t hz, hxl, hxr, hlt', leftRotate, ht₁, ht']
      · simp [mem_labels_plug] at hq ⊢; tauto

/-- `moveDown` sinks its node to a leaf. -/
theorem moveDown_spec {t : Treap} {C : SlotCtx} {l r : SlotTree} {x : ℕ} (h : t.Linked (plug C (node l x r))) :
    ∃ t', t.moveDown (some x) = .ok t' ∧
      t'.Linked (plug (sinkCtx t.weights l r ++ C) (node (leaf ()) x (leaf ()))) ∧
      Relinks t t' (plug C (node l x r)).labels := by
  refine moveDownLoop_spec t.weights l r rfl h ?_
  have h₁ := h.length_le
  rw [(labels_plug_perm C _).length_eq] at h₁
  simp only [labels_node, List.length_append, List.length_cons] at h₁
  unfold loopFuel
  omega

end LockFreeSearchTree.Treap
