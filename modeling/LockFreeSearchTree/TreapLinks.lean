import LockFreeSearchTree.Treap
import LockFreeSearchTree.Sift

/-! # The tree in the array

What the redundant links of the node array mean: `Linked t T` says that the slots of `t`
reachable from its root form the binary tree `T` of slot numbers, every parent field being
the inverse of the child links.

* `Spans nodes p T` and `CtxSpans nodes root C i` are the two halves of this for a subtree
  and for the context around it (`linked_plug`).
* `Relinks t t' S` is what every link operation guarantees besides: sizes, values and weights
  stay, and so does every slot outside `S`.
* `hookUp_spec`, `setParent_spec` and `rotate_spec` are the operations on links. -/

namespace LockFreeSearchTree

open BinTree

/-- Trees of slot numbers. -/
abbrev SlotTree := BinTree Unit ℕ

abbrev SlotCtx := Ctx Unit ℕ

namespace Treap

/-- The index of the root of a tree. -/
def top : SlotTree → TreapIndex
  | .leaf _ => NullNode
  | .node _ s _ => some s

@[simp] theorem top_leaf (u : Unit) : top (.leaf u) = NullNode := rfl

@[simp] theorem top_node (l : SlotTree) (s : ℕ) (r : SlotTree) : top (.node l s r) = some s := rfl

@[simp] theorem top_on (d : Side) (l : SlotTree) (s : ℕ) (r : SlotTree) : top (on d l s r) = some s := by
  cases d <;> rfl

theorem mem_of_top {T : SlotTree} {s : ℕ} (h : top T = some s) : s ∈ T.labels := by
  cases T with
  | leaf u => cases h
  | node l x r => cases h; simp

theorem top_eq_null {T : SlotTree} (h : top T = NullNode) : T = .leaf () := by
  cases T with
  | leaf u => rfl
  | node l x r => cases h

/-- The index of the parent of a hole. -/
def ctxTop : SlotCtx → TreapIndex
  | [] => NullNode
  | F :: _ => some F.label

@[simp] theorem ctxTop_nil : ctxTop [] = NullNode := rfl

@[simp] theorem ctxTop_cons (F : Frame Unit ℕ) (C : SlotCtx) : ctxTop (F :: C) = some F.label := rfl

/-- The links below index `top T`, whose parent is `p`, form the tree `T`. -/
def Spans (nodes : ℕ → TreapNode) : TreapIndex → SlotTree → Prop
  | _, .leaf _ => True
  | p, .node l s r => s ≤ TREAP_NODES ∧ (nodes s).parent = p ∧ (nodes s).left = top l ∧
      (nodes s).right = top r ∧ Spans nodes (some s) l ∧ Spans nodes (some s) r

/-- The links above and beside a hole form the context `C`; the hole holds index `i`. -/
def CtxSpans (nodes : ℕ → TreapNode) (root : TreapIndex) : SlotCtx → TreapIndex → Prop
  | [], i => root = i
  | F :: C, i => F.label ≤ TREAP_NODES ∧ (nodes F.label).parent = ctxTop C ∧
      (nodes F.label).child F.side = i ∧ (nodes F.label).child F.side.other = top F.sibling ∧
      Spans nodes (some F.label) F.sibling ∧ CtxSpans nodes root C (some F.label)

/-- The slots linked from the root of `t` form the tree `T`. -/
def Linked (t : Treap) (T : SlotTree) : Prop :=
  t.root = top T ∧ Spans t.nodes NullNode T ∧ T.labels.Nodup

variable {nodes nodes' : ℕ → TreapNode} {root p : TreapIndex}

@[simp] theorem spans_leaf {u : Unit} : Spans nodes p (.leaf u) := trivial

theorem spans_node {l r : SlotTree} {s : ℕ} :
    Spans nodes p (.node l s r) ↔ s ≤ TREAP_NODES ∧ (nodes s).parent = p ∧ (nodes s).left = top l ∧
      (nodes s).right = top r ∧ Spans nodes (some s) l ∧ Spans nodes (some s) r := Iff.rfl

theorem spans_on {d : Side} {l r : SlotTree} {s : ℕ} :
    Spans nodes p (on d l s r) ↔ s ≤ TREAP_NODES ∧ (nodes s).parent = p ∧ (nodes s).child d = top l ∧
      (nodes s).child d.other = top r ∧ Spans nodes (some s) l ∧ Spans nodes (some s) r := by
  cases d
  · rfl
  · simp only [on_right, spans_node, TreapNode.child, Side.other]
    tauto

/-- A tree only depends on its own slots. -/
theorem Spans.congr {T : SlotTree} (h : Spans nodes p T) (he : ∀ s ∈ T.labels, nodes' s = nodes s) :
    Spans nodes' p T := by
  induction T generalizing p with
  | leaf u => trivial
  | node l s r ihl ihr =>
      obtain ⟨hs, hp, hl, hr, hsl, hsr⟩ := h
      have hes : nodes' s = nodes s := he s (by simp)
      refine ⟨hs, by rw [hes, hp], by rw [hes, hl], by rw [hes, hr], ?_, ?_⟩
      · exact ihl hsl (fun x hx => he x (by simp [hx]))
      · exact ihr hsr (fun x hx => he x (by simp [hx]))

theorem CtxSpans.congr {C : SlotCtx} {i : TreapIndex} (h : CtxSpans nodes root C i)
    (he : ∀ s ∈ ctxLabels C, nodes' s = nodes s) : CtxSpans nodes' root C i := by
  induction C generalizing i with
  | nil => exact h
  | cons F C ih =>
      obtain ⟨hb, hp, hi, ho, hs, hC⟩ := h
      have heF : nodes' F.label = nodes F.label := he _ (mem_ctxLabels_cons.mpr (.inl rfl))
      refine ⟨hb, by rw [heF, hp], by rw [heF, hi], by rw [heF, ho], ?_, ?_⟩
      · exact hs.congr (fun x hx => he x (mem_ctxLabels_cons.mpr (.inr (.inl hx))))
      · exact ih hC (fun x hx => he x (mem_ctxLabels_cons.mpr (.inr (.inr hx))))

theorem Spans.le {T : SlotTree} (h : Spans nodes p T) : ∀ s ∈ T.labels, s ≤ TREAP_NODES := by
  induction T generalizing p with
  | leaf u => simp
  | node l s r ihl ihr =>
      obtain ⟨hs, _, _, _, hsl, hsr⟩ := h
      intro x hx
      simp only [labels_node, List.mem_append, List.mem_cons] at hx
      rcases hx with hx | rfl | hx
      · exact ihl hsl x hx
      · exact hs
      · exact ihr hsr x hx

theorem spans_plug {C : SlotCtx} {T : SlotTree} :
    (root = top (plug C T) ∧ Spans nodes NullNode (plug C T)) ↔
      CtxSpans nodes root C (top T) ∧ Spans nodes (ctxTop C) T := by
  induction C generalizing T with
  | nil => rfl
  | cons F C ih =>
      rw [plug_cons, ih, spans_on]
      simp only [CtxSpans, top_on, ctxTop_cons]
      tauto

/-- A linked tree is a linked context around a linked subtree. -/
theorem linked_plug {t : Treap} {C : SlotCtx} {T : SlotTree} :
    t.Linked (plug C T) ↔ CtxSpans t.nodes t.root C (top T) ∧ Spans t.nodes (ctxTop C) T ∧
      (plug C T).labels.Nodup := by
  unfold Linked
  rw [← and_assoc, spans_plug, and_assoc]

theorem Linked.le {t : Treap} {T : SlotTree} (h : t.Linked T) : ∀ s ∈ T.labels, s ≤ TREAP_NODES := h.2.1.le

theorem Linked.congr {t t' : Treap} {T : SlotTree} (h : t.Linked T) (hr : t'.root = t.root)
    (he : ∀ s ∈ T.labels, t'.nodes s = t.nodes s) : t'.Linked T :=
  ⟨hr.trans h.1, h.2.1.congr he, h.2.2⟩

/-! ### Frames -/

/-- `t'` has the sizes, values and weights of `t` and the same slots outside `S`. -/
structure Relinks (t t' : Treap) (S : List ℕ) : Prop where
  size : t'.size = t.size
  val : ∀ s, (t'.nodes s).val = (t.nodes s).val
  weight : ∀ s, (t'.nodes s).weight = (t.nodes s).weight
  frame : ∀ s, s ∉ S → t'.nodes s = t.nodes s

namespace Relinks

variable {t t₁ t₂ : Treap} {S S' : List ℕ}

theorem refl (t : Treap) (S : List ℕ) : Relinks t t S := ⟨rfl, fun _ => rfl, fun _ => rfl, fun _ _ => rfl⟩

theorem trans (h₁ : Relinks t t₁ S) (h₂ : Relinks t₁ t₂ S) : Relinks t t₂ S :=
  ⟨h₂.size.trans h₁.size, fun s => (h₂.val s).trans (h₁.val s), fun s => (h₂.weight s).trans (h₁.weight s),
    fun s hs => (h₂.frame s hs).trans (h₁.frame s hs)⟩

theorem mono (h : Relinks t t₁ S) (hS : ∀ s ∈ S, s ∈ S') : Relinks t t₁ S' :=
  ⟨h.size, h.val, h.weight, fun s hs => h.frame s (fun hm => hs (hS s hm))⟩

theorem setRoot (h : Relinks t t₁ S) (i : TreapIndex) : Relinks t { t₁ with root := i } S :=
  ⟨h.size, h.val, h.weight, h.frame⟩

/-- Rewriting the links of one slot. -/
theorem put (h : Relinks t t₁ S) {k : ℕ} {n : TreapNode} (hk : k ∈ S) (hv : n.val = (t₁.nodes k).val)
    (hw : n.weight = (t₁.nodes k).weight) : Relinks t (t₁.put k n) S := by
  refine ⟨h.size, fun s => ?_, fun s => ?_, fun s hs => ?_⟩
  · rcases eq_or_ne s k with rfl | hne
    · rw [put_same, hv, h.val]
    · rw [put_ne _ _ hne, h.val]
  · rcases eq_or_ne s k with rfl | hne
    · rw [put_same, hw, h.weight]
    · rw [put_ne _ _ hne, h.weight]
  · have hne : s ≠ k := fun he => hs (he ▸ hk)
    rw [put_ne _ _ hne, h.frame s hs]

end Relinks

/-! ### Operations on links -/

/-- Relinking the child of the innermost frame. -/
theorem relink_spec {t : Treap} {F : Frame Unit ℕ} {C : SlotCtx} {x : ℕ} {j : TreapIndex}
    (h : CtxSpans t.nodes t.root (F :: C) (some x)) (hnd : (ctxLabels (F :: C)).Nodup)
    (hx : x ∉ ctxLabels (F :: C)) :
    ∃ t', t.relink (some F.label) (some x) j = .ok t' ∧ CtxSpans t'.nodes t'.root (F :: C) j ∧
      t'.root = t.root ∧ Relinks t t' [F.label] := by
  obtain ⟨hb, hp, hi, ho, hs, hC⟩ := h
  have hxs : top F.sibling ≠ some x := fun he =>
    hx (mem_ctxLabels_cons.mpr (.inr (.inl (mem_of_top he))))
  have hset : t.relink (some F.label) (some x) j =
      .ok (t.put F.label ((t.nodes F.label).setChild F.side j)) := by
    unfold relink
    rw [get_some t hb]
    obtain ⟨d, b, s⟩ := F
    cases d with
    | left =>
        have hi' : (t.nodes b).left = some x := hi
        simp only [ok_bind, hi', if_true, modify_some t _ hb]
        rfl
    | right =>
        have ho' : (t.nodes b).left ≠ some x := fun he => hxs (ho.symm.trans he)
        simp only [ok_bind, ho', if_false, modify_some t _ hb]
        rfl
  have hdis : F.label ∉ F.sibling.labels ∧ F.label ∉ ctxLabels C := by
    rw [(ctxLabels_cons_perm F C).nodup_iff, List.nodup_cons, List.mem_append, not_or] at hnd
    exact hnd.1
  refine ⟨_, hset, ⟨hb, by simp [hp], by simp, by simp [ho], ?_, ?_⟩, rfl, ?_⟩
  · exact hs.congr (fun s hsm => put_ne _ _ (fun he => hdis.1 (he ▸ hsm)))
  · exact hC.congr (fun s hsm => put_ne _ _ (fun he => hdis.2 (he ▸ hsm)))
  · exact (Relinks.refl t _).put (by simp) (by simp) (by simp)

/-- Putting index `j` in a hole that holds `x`. -/
theorem hookUp_spec {t : Treap} {C : SlotCtx} {x : ℕ} (j : TreapIndex)
    (h : CtxSpans t.nodes t.root C (some x)) (hnd : (ctxLabels C).Nodup) (hx : x ∉ ctxLabels C) :
    ∃ t', t.hookUp (ctxTop C) (some x) j = .ok t' ∧ CtxSpans t'.nodes t'.root C j ∧
      Relinks t t' (ctxLabels C) := by
  cases C with
  | nil => exact ⟨{ t with root := j }, rfl, rfl, (Relinks.refl t _).setRoot j⟩
  | cons F C =>
      obtain ⟨t', ht', hC, _, hR⟩ := relink_spec h hnd hx
      refine ⟨t', ht', hC, hR.mono (fun s hs => ?_)⟩
      rw [List.mem_singleton.mp hs]
      exact mem_ctxLabels_cons.mpr (.inl rfl)

/-- Giving a subtree another parent. -/
theorem setParent_spec {t : Treap} {T : SlotTree} (q : TreapIndex)
    (h : Spans t.nodes p T) (hnd : T.labels.Nodup) :
    ∃ t', t.setParent (top T) q = .ok t' ∧ Spans t'.nodes q T ∧ t'.root = t.root ∧
      Relinks t t' T.labels := by
  cases T with
  | leaf u => exact ⟨t, rfl, trivial, rfl, Relinks.refl t _⟩
  | node l s r =>
      obtain ⟨hs, _, hl, hr, hsl, hsr⟩ := h
      rw [labels_node, List.nodup_append', List.nodup_cons, List.disjoint_cons_right] at hnd
      obtain ⟨_, ⟨hsr', _⟩, hsl', _⟩ := hnd
      refine ⟨t.put s ((t.nodes s).withParent q), setParent_some t q hs, ⟨hs, by simp, by simp [hl],
        by simp [hr], ?_, ?_⟩, rfl, (Relinks.refl t _).put (by simp) rfl rfl⟩
      · exact hsl.congr (fun x hx => put_ne _ _ (fun he => hsl' (he ▸ hx)))
      · exact hsr.congr (fun x hx => put_ne _ _ (fun he => hsr' (he ▸ hx)))

/-- A rotation: the child `y` of `x` on side `d` moves up, `x` moves down to the other side. -/
theorem rotate_spec {t : Treap} {C : SlotCtx} {d : Side} {a b c : SlotTree} {x y : ℕ}
    (h : t.Linked (plug C (on d (on d a y b) x c))) :
    ∃ t', t.rotate d (some x) = .ok t' ∧ t'.Linked (plug C (on d a y (on d b x c))) ∧
      Relinks t t' (plug C (on d (on d a y b) x c)).labels := by
  obtain ⟨hC, hS, hnd⟩ := linked_plug.mp h
  obtain ⟨hx, hpx, hnear, hfar, hSy, hSc⟩ := spans_on.mp hS
  obtain ⟨hy, hpy, hya, hyb, hSa, hSb⟩ := spans_on.mp hSy
  rw [top_on] at hnear hC
  have hnd' : (plug C (on d a y (on d b x c))).labels.Nodup := by
    convert hnd using 1
    exact walk_plug_congr C (by cases d <;> simp [on])
  -- the distinctness of all slots involved
  obtain ⟨hndT, hndC, hdisC⟩ := nodup_labels_plug.mp hnd
  obtain ⟨hndY, _, hxY, hxc, hYc⟩ := nodup_labels_on.mp hndT
  obtain ⟨_, hndb, hya', hyb', hab⟩ := nodup_labels_on.mp hndY
  simp only [mem_labels_on, not_or] at hxY
  obtain ⟨hxy, hxa, hxb⟩ := hxY
  have hsub : ∀ s, s = x ∨ s = y ∨ s ∈ a.labels ∨ s ∈ b.labels ∨ s ∈ c.labels →
      s ∈ (on d (on d a y b) x c).labels := by
    intro s hs
    simp only [mem_labels_on]
    tauto
  have hCne : ∀ s, s ∈ ctxLabels C → ∀ s', s' = x ∨ s' = y ∨ s' ∈ a.labels ∨ s' ∈ b.labels ∨ s' ∈ c.labels →
      s ≠ s' := fun s hs s' hs' he => hdisC (hsub s' hs') (he ▸ hs)
  have hYc' : ∀ s, s = y ∨ s ∈ a.labels ∨ s ∈ b.labels → s ∉ c.labels := by
    intro s hs hc
    exact hYc (mem_labels_on.mpr hs) hc
  have hxC : x ∉ ctxLabels C := fun hm => hCne x hm x (.inl rfl) rfl
  have hyC : y ∉ ctxLabels C := fun hm => hCne y hm y (.inr (.inl rfl)) rfl
  -- the first three writes
  let t₃ := ((t.put x ((t.nodes x).withParent (some y))).put y ((t.nodes y).setChild d.other (some x))).put y
    (((t.nodes y).setChild d.other (some x)).withParent (ctxTop C))
  have h₃ : ∀ s, s ≠ x → s ≠ y → t₃.nodes s = t.nodes s := fun s hsx hsy => by
    rw [put_ne _ _ hsy, put_ne _ _ hsy, put_ne _ _ hsx]
  have h₃x : t₃.nodes x = ((t.nodes x).withParent (some y)) := by
    rw [put_ne _ _ hxy, put_ne _ _ hxy, put_same]
  have h₃y : t₃.nodes y = (((t.nodes y).setChild d.other (some x)).withParent (ctxTop C)) := put_same _ _ _
  have hR₃ : Relinks t t₃ [x, y] := by
    have h₁ : Relinks t (t.put x ((t.nodes x).withParent (some y))) [x, y] :=
      (Relinks.refl t _).put (by simp) rfl rfl
    have hy₁ : (t.put x ((t.nodes x).withParent (some y))).nodes y = t.nodes y := put_ne _ _ (Ne.symm hxy)
    have h₂ := h₁.put (k := y) (n := (t.nodes y).setChild d.other (some x)) (by simp) (by simp [hy₁]) (by simp [hy₁])
    exact h₂.put (by simp) (by simp) (by simp)
  have hC₃ : CtxSpans t₃.nodes t₃.root C (some x) :=
    hC.congr (fun s hs => h₃ s (fun he => hxC (he ▸ hs)) (fun he => hyC (he ▸ hs)))
  obtain ⟨t₄, ht₄, hC₄, hR₄⟩ := hookUp_spec (some y) hC₃ hndC hxC
  -- the orphaned subtree
  let t₅ := t₄.put x ((t₄.nodes x).setChild d (top b))
  have h₅ : ∀ s, s ≠ x → s ∉ ctxLabels C → t₅.nodes s = t₃.nodes s := fun s hsx hsC => by
    rw [put_ne _ _ hsx, hR₄.frame s hsC]
  have h₅x : t₅.nodes x = ((t.nodes x).withParent (some y)).setChild d (top b) := by
    rw [put_same, hR₄.frame x hxC, h₃x]
  have hSb₅ : Spans t₅.nodes (some y) b := hSb.congr (fun s hs => by
    have hsx : s ≠ x := fun he => hxb (he ▸ hs)
    have hsy : s ≠ y := fun he => hyb' (he ▸ hs)
    rw [h₅ s hsx (fun hm => hCne s hm s (by tauto) rfl), h₃ s hsx hsy])
  obtain ⟨t₆, ht₆, hSb₆, hr₆, hR₆⟩ := setParent_spec (some x) hSb₅ hndb
  have h₆ : ∀ s, s ∉ b.labels → s ≠ x → s ≠ y → s ∉ ctxLabels C → t₆.nodes s = t.nodes s :=
    fun s hsb hsx hsy hsC => by rw [hR₆.frame s hsb, h₅ s hsx hsC, h₃ s hsx hsy]
  have h₆x : t₆.nodes x = ((t.nodes x).withParent (some y)).setChild d (top b) := by
    rw [hR₆.frame x hxb, h₅x]
  have h₆y : t₆.nodes y = (((t.nodes y).setChild d.other (some x)).withParent (ctxTop C)) := by
    rw [hR₆.frame y hyb', h₅ y (Ne.symm hxy) hyC, h₃y]
  refine ⟨t₆, ?_, linked_plug.mpr ⟨?_, ?_, hnd'⟩, ?_⟩
  · unfold rotate
    simp only [get_some t hx, ok_bind, hpx, hnear, get_some t hy, hyb, modify_some _ _ hx, modify_some _ _ hy,
      put_same, put_ne _ _ (Ne.symm hxy)]
    exact (congrArg (· >>= _) ht₄).trans (by
      simp only [ok_bind]
      exact ht₆)
  · rw [top_on]
    refine (hr₆ ▸ hC₄ : CtxSpans t₄.nodes t₆.root C (some y)).congr (fun s hs => ?_)
    rw [hR₆.frame s (fun hm => hCne s hs s (by tauto) rfl), put_ne _ _ (fun he : s = x => hxC (he ▸ hs))]
  · rw [spans_on, h₆y, spans_on, h₆x]
    refine ⟨hy, rfl, by simpa using hya, by simp, ?_, hx, by simp, by simp, by simpa using hfar, hSb₆, ?_⟩
    · exact hSa.congr (fun s hs => h₆ s (fun hm => hab hs hm) (fun he => hxa (he ▸ hs))
        (fun he => hya' (he ▸ hs)) (fun hm => hCne s hm s (by tauto) rfl))
    · exact hSc.congr (fun s hs => h₆ s (fun hm => hYc' s (by tauto) hs) (fun he => hxc (he ▸ hs))
        (fun he => hYc' y (by tauto) (he ▸ hs)) (fun hm => hCne s hm s (by tauto) rfl))
  · refine ((hR₃.mono ?_).trans (hR₄.mono ?_)).trans
      (((Relinks.refl t₄ _).put (mem_labels_plug.mpr (.inl (hsub x (by tauto)))) (by simp) (by simp)).trans
        (hR₆.mono ?_))
    · intro s hs
      simp only [List.mem_cons, List.not_mem_nil, or_false] at hs
      exact mem_labels_plug.mpr (.inl (hsub s (by tauto)))
    · exact fun s hs => mem_labels_plug.mpr (.inr hs)
    · exact fun s hs => mem_labels_plug.mpr (.inl (hsub s (by tauto)))

end Treap

end LockFreeSearchTree
