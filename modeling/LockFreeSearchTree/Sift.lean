import LockFreeSearchTree.BinTree
import Mathlib.Data.List.Sort
import Mathlib.Algebra.Order.Group.Multiset
import Mathlib.Order.Basic

/-! # Sifting and searching in binary trees

The walks a treap makes through a binary tree, as functions on the tree alone: no array, no
links.

* `siftUp w C l x r` rotates `x`, which has the children `l` and `r` and sits in the context
  `C`, towards the root while its weight is smaller than its parent's.
* `sinkCtx w l r` is the context in which a node with the children `l` and `r` ends after it
  has been rotated down to a leaf, the child of smaller weight moving up in each round.
* `Heap w t`: no label weighs more than one below it.
* `cut p t` parts the labels of `t` in two trees, as sifting a lightest label to the root does.
* `rangeWalk v lo hi t` lists the labels with a key in `[lo, hi]` that a search finds which
  skips left subtrees of keys below `lo` and right subtrees of keys above `hi`.

Sifting keeps the in-order list of labels (`labels_siftUp`, `labels_plug_sinkCtx`), whatever the
weights are, and repairs heap order (`heap_siftUp`, `heap_sinkCtx`); a search in a sorted tree ends between the labels not satisfying its test and those
satisfying it (`exists_descend_split`), and a range walk of a sorted tree skips nothing in the
range (`rangeWalk_perm`). -/

namespace BinTree

variable {β W : Type}

/-! ### Sifting up -/

section Sift

variable [LinearOrder W] (w : β → W)

def siftUp {α : Type} : Ctx α β → BinTree α β → β → BinTree α β → BinTree α β
  | [], l, x, r => node l x r
  | F :: C, l, x, r =>
      if w F.label ≤ w x then plug (F :: C) (node l x r)
      else match F.side with
        | .left => siftUp C l x (node r F.label F.sibling)
        | .right => siftUp C (node F.sibling F.label l) x r

theorem labels_siftUp {α : Type} (C : Ctx α β) (l : BinTree α β) (x : β) (r : BinTree α β) :
    (siftUp w C l x r).labels = (plug C (node l x r)).labels := by
  induction C generalizing l r with
  | nil => rfl
  | cons F C ih =>
      obtain ⟨d, b, s⟩ := F
      unfold siftUp
      split_ifs with h
      · rfl
      · cases d
        · simp only [ih, plug_cons, on_left]
          exact walk_plug_congr C (by simp [walk_node])
        · simp only [ih, plug_cons, on_right]
          exact walk_plug_congr C (by simp [walk_node])

/-- Sifting up ends at the root or below a label that does not weigh more. -/
theorem siftUp_stops {α : Type} (C : Ctx α β) (l : BinTree α β) (x : β) (r : BinTree α β) :
    ∃ C' l' r', siftUp w C l x r = plug C' (node l' x r') ∧ ∀ F ∈ C'.head?, w F.label ≤ w x := by
  induction C generalizing l r with
  | nil => exact ⟨[], l, r, rfl, by simp⟩
  | cons F C ih =>
      obtain ⟨d, b, s⟩ := F
      unfold siftUp
      by_cases h : w b ≤ w x
      · rw [if_pos h]
        exact ⟨_, l, r, rfl, by simpa using h⟩
      · rw [if_neg h]
        cases d with
        | left => exact ih l (node r b s)
        | right => exact ih (node s b l) r

/-! ### Sinking -/

/-- The frames between the place of a node with the children `l` and `r` and the leaf it is
rotated down to. -/
def sinkCtx : BinTree Unit β → BinTree Unit β → Ctx Unit β
  | leaf _, leaf _ => []
  | node a y b, leaf u => sinkCtx b (leaf u) ++ [⟨.right, y, a⟩]
  | leaf u, node c z d => sinkCtx (leaf u) c ++ [⟨.left, z, d⟩]
  | node a y b, node c z d =>
      if w y < w z then sinkCtx b (node c z d) ++ [⟨.right, y, a⟩]
      else sinkCtx (node a y b) c ++ [⟨.left, z, d⟩]
termination_by l r => sizeOf l + sizeOf r

theorem labels_plug_sinkCtx (l r t : BinTree Unit β) :
    (plug (sinkCtx w l r) t).labels = l.labels ++ t.labels ++ r.labels := by
  fun_induction sinkCtx w l r with
  | case1 => simp
  | case2 a y b u ih => simp [plug_append, ih]
  | case3 u c z d ih => simp [plug_append, ih]
  | case4 a y b c z d h ih => simp [plug_append, ih]
  | case5 a y b c z d h ih => simp [plug_append, ih]

end Sift

/-! ### Heap order -/

section Heap

variable {α : Type} [LinearOrder W] (w : β → W)

/-- No label weighs more than one below it. -/
def Heap : BinTree α β → Prop
  | leaf _ => True
  | node l x r => (∀ y ∈ l.labels, w x ≤ w y) ∧ (∀ y ∈ r.labels, w x ≤ w y) ∧ Heap l ∧ Heap r

variable {w}

theorem heap_node {l r : BinTree α β} {x : β} :
    Heap w (node l x r) ↔ (∀ y ∈ l.labels, w x ≤ w y) ∧ (∀ y ∈ r.labels, w x ≤ w y) ∧ Heap w l ∧ Heap w r := Iff.rfl

theorem heap_on {d : Side} {l r : BinTree α β} {x : β} :
    Heap w (on d l x r) ↔ (∀ y ∈ l.labels, w x ≤ w y) ∧ (∀ y ∈ r.labels, w x ≤ w y) ∧ Heap w l ∧ Heap w r := by
  cases d
  · rfl
  · rw [on_right, heap_node]
    tauto

theorem heap_relabel {γ : Type} {f : β → γ} {v : γ → W} {t : BinTree α β} :
    Heap v (t.relabel f) ↔ Heap (fun b => v (f b)) t := by
  induction t with
  | leaf a => rfl
  | node l b r ihl ihr => simp [heap_node, ihl, ihr]

/-- A filled context is in heap order when the context is, the filling is, and no frame weighs more
than a label of the filling. -/
theorem heap_plug (u : α) {C : Ctx α β} {t : BinTree α β} :
    Heap w (plug C t) ↔
      Heap w (plug C (leaf u)) ∧ Heap w t ∧ ∀ F ∈ C, ∀ y ∈ t.labels, w F.label ≤ w y := by
  induction C generalizing t with
  | nil => simp [Heap]
  | cons F C ih =>
      rw [plug_cons, plug_cons, ih, ih (t := on F.side (leaf u) F.label F.sibling), heap_on, heap_on]
      simp only [mem_labels_on, labels_leaf, List.not_mem_nil, false_or, List.forall_mem_cons]
      constructor
      · rintro ⟨hC, ⟨hl, hr, hL, hR⟩, h⟩
        exact ⟨⟨hC, ⟨fun y hy => hy.elim, hr, trivial, hR⟩, fun G hG y hy => h G hG y (hy.imp_right .inr)⟩, hL, hl,
          fun G hG y hy => h G hG y (.inr (.inl hy))⟩
      · rintro ⟨⟨hC, ⟨_, hr, _, hR⟩, h⟩, hL, hl, hG⟩
        refine ⟨hC, ⟨hl, hr, hL, hR⟩, fun G hGC y hy => ?_⟩
        rcases hy with hy | hy | hy
        · exact h G hGC y (.inl hy)
        · exact hG G hGC y hy
        · exact h G hGC y (.inr hy)

theorem heap_congr {w' : β → W} {t : BinTree α β} (h : ∀ y ∈ t.labels, w y = w' y) : Heap w t ↔ Heap w' t := by
  have hw : Heap w t ↔ Heap id (t.relabel w) := (heap_relabel (f := w) (v := id)).symm
  have hw' : Heap w' t ↔ Heap id (t.relabel w') := (heap_relabel (f := w') (v := id)).symm
  rw [hw, hw', relabel_congr h]

/-- Heap order of a tree is heap order of every label and its parent. -/
theorem heap_iff {t : BinTree α β} :
    Heap w t ↔ ∀ C F a x b, t = plug (F :: C) (node a x b) → w F.label ≤ w x := by
  constructor
  · rintro h C F a x b rfl
    exact ((heap_plug (seek (fun _ => True) a)).mp h).2.2 F List.mem_cons_self x (by simp)
  · intro h
    induction t with
    | leaf a => trivial
    | node l x r ihl ihr =>
        have hl := ihl fun C F a y b he => h (C ++ [⟨.left, x, r⟩]) F a y b (by rw [he, ← List.cons_append, plug_append]; rfl)
        have hr := ihr fun C F a y b he => h (C ++ [⟨.right, x, l⟩]) F a y b (by rw [he, ← List.cons_append, plug_append]; rfl)
        refine ⟨fun y hy => ?_, fun y hy => ?_, hl, hr⟩
        · cases l with
          | leaf u => cases hy
          | node a z b =>
              have hz : w x ≤ w z := h [] ⟨.left, x, r⟩ a z b rfl
              simp only [labels_node, List.mem_append, List.mem_cons] at hy
              rcases hy with hy | rfl | hy
              · exact hz.trans (hl.1 y hy)
              · exact hz
              · exact hz.trans (hl.2.1 y hy)
        · cases r with
          | leaf u => cases hy
          | node a z b =>
              have hz : w x ≤ w z := h [] ⟨.right, x, l⟩ a z b rfl
              simp only [labels_node, List.mem_append, List.mem_cons] at hy
              rcases hy with hy | rfl | hy
              · exact hz.trans (hr.1 y hy)
              · exact hz
              · exact hz.trans (hr.2.1 y hy)

instance decidableHeap (w : β → W) : (t : BinTree α β) → Decidable (Heap w t)
  | leaf _ => isTrue trivial
  | node l x r =>
      have := decidableHeap w l
      have := decidableHeap w r
      inferInstanceAs (Decidable ((∀ y ∈ l.labels, w x ≤ w y) ∧ (∀ y ∈ r.labels, w x ≤ w y) ∧ Heap w l ∧ Heap w r))

/-- Sifting up repairs a heap in which only the sifted node may be lighter than its parent. -/
theorem heap_siftUp (u : α) {C : Ctx α β} : ∀ {l r : BinTree α β} {x : β}, Heap w (plug C (leaf u)) →
    Heap w (node l x r) → (∀ F ∈ C, ∀ y ∈ l.labels ++ r.labels, w F.label ≤ w y) → Heap w (siftUp w C l x r) := by
  induction C with
  | nil => exact fun _ h _ => h
  | cons F C ih =>
      intro l r x hC hx hF
      obtain ⟨d, b, s⟩ := F
      rw [plug_cons, heap_plug u, heap_on] at hC
      obtain ⟨hC, ⟨-, hbs, -, hs⟩, hup⟩ := hC
      simp only [mem_labels_on, labels_leaf, List.not_mem_nil, false_or] at hup
      rw [heap_node] at hx
      obtain ⟨hxl, hxr, hl, hr⟩ := hx
      rw [List.forall_mem_cons] at hF
      simp only [List.mem_append] at hF
      obtain ⟨hb, hF⟩ := hF
      unfold siftUp
      split_ifs with hw
      · -- the frame is lighter: the node stays
        rw [plug_cons, heap_plug u, heap_on, heap_node]
        simp only [mem_labels_on, labels_node, List.mem_append, List.mem_cons]
        refine ⟨hC, ⟨fun y hy => ?_, hbs, ⟨hxl, hxr, hl, hr⟩, hs⟩, fun G hG y hy => ?_⟩
        · rcases hy with hy | rfl | hy
          · exact hb y (.inl hy)
          · exact hw
          · exact hb y (.inr hy)
        · rcases hy with rfl | (hy | rfl | hy) | hy
          · exact hup G hG y (.inl rfl)
          · exact hF G hG y (.inl hy)
          · exact (hup G hG b (.inl rfl)).trans hw
          · exact hF G hG y (.inr hy)
          · exact hup G hG y (.inr hy)
      · -- the node is lighter than its parent: both of them change places
        have hxb : w x ≤ w b := (not_le.mp hw).le
        have hxs : ∀ y ∈ s.labels, w x ≤ w y := fun y hy => hxb.trans (hbs y hy)
        cases d with
        | left =>
            apply ih hC
            · rw [heap_node, heap_node]
              simp only [labels_node, List.mem_append, List.mem_cons]
              refine ⟨hxl, fun y hy => ?_, hl, fun y hy => hb y (.inr hy), hbs, hr, hs⟩
              rcases hy with hy | rfl | hy
              · exact hxr y hy
              · exact hxb
              · exact hxs y hy
            · simp only [labels_node, List.mem_append, List.mem_cons]
              intro G hG y hy
              rcases hy with hy | hy | rfl | hy
              · exact hF G hG y (.inl hy)
              · exact hF G hG y (.inr hy)
              · exact hup G hG y (.inl rfl)
              · exact hup G hG y (.inr hy)
        | right =>
            apply ih hC
            · rw [heap_node, heap_node]
              simp only [labels_node, List.mem_append, List.mem_cons]
              refine ⟨fun y hy => ?_, hxr, ⟨hbs, fun y hy => hb y (.inl hy), hs, hl⟩, hr⟩
              rcases hy with hy | rfl | hy
              · exact hxs y hy
              · exact hxb
              · exact hxl y hy
            · simp only [labels_node, List.mem_append, List.mem_cons]
              intro G hG y hy
              rcases hy with (hy | rfl | hy) | hy
              · exact hup G hG y (.inr hy)
              · exact hup G hG y (.inl rfl)
              · exact hF G hG y (.inl hy)
              · exact hF G hG y (.inr hy)

/-- The children of a node that sinks close up to a heap above it. -/
theorem heap_sinkCtx (l r : BinTree Unit β) (hl : Heap w l) (hr : Heap w r) :
    Heap w (plug (sinkCtx w l r) (leaf ())) := by
  fun_induction sinkCtx w l r with
  | case1 => trivial
  | case2 a y b u ih =>
      rw [heap_node] at hl
      rw [plug_append, plug_cons, plug_nil, heap_on, labels_plug_sinkCtx]
      refine ⟨?_, hl.1, ih hl.2.2.2 trivial, hl.2.2.1⟩
      simpa using hl.2.1
  | case3 u c z d ih =>
      rw [heap_node] at hr
      rw [plug_append, plug_cons, plug_nil, heap_on, labels_plug_sinkCtx]
      refine ⟨?_, hr.2.1, ih trivial hr.2.2.1, hr.2.2.2⟩
      simpa using hr.1
  | case4 a y b c z d hlt ih =>
      have hr' := hr
      rw [heap_node] at hl hr'
      rw [plug_append, plug_cons, plug_nil, heap_on, labels_plug_sinkCtx]
      refine ⟨fun q hq => ?_, hl.1, ih hl.2.2.2 hr, hl.2.2.1⟩
      simp only [labels_leaf, List.append_nil, labels_node, List.mem_append, List.mem_cons] at hq
      rcases hq with hq | hq | rfl | hq
      · exact hl.2.1 q hq
      · exact hlt.le.trans (hr'.1 q hq)
      · exact hlt.le
      · exact hlt.le.trans (hr'.2.1 q hq)
  | case5 a y b c z d hlt ih =>
      have hl' := hl
      rw [heap_node] at hl' hr
      have hzy := not_lt.mp hlt
      rw [plug_append, plug_cons, plug_nil, heap_on, labels_plug_sinkCtx]
      refine ⟨fun q hq => ?_, hr.2.1, ih hl hr.2.2.1, hr.2.2.2⟩
      simp only [labels_leaf, List.append_nil, labels_node, List.mem_append, List.mem_cons] at hq
      rcases hq with (hq | rfl | hq) | hq
      · exact hzy.trans (hl'.1 q hq)
      · exact hzy
      · exact hzy.trans (hl'.2.1 q hq)
      · exact hr.1 q hq

/-- With one child missing the other one takes the place of the node. -/
theorem plug_sinkCtx_leaf_left {W : Type} [LinearOrder W] (w : β → W) (r : BinTree Unit β) :
    plug (sinkCtx w (leaf ()) r) (leaf ()) = r := by
  induction r with
  | leaf u => unfold sinkCtx; rfl
  | node c z d ih _ => unfold sinkCtx; rw [plug_append, ih]; rfl

theorem plug_sinkCtx_leaf_right {W : Type} [LinearOrder W] (w : β → W) (l : BinTree Unit β) :
    plug (sinkCtx w l (leaf ())) (leaf ()) = l := by
  induction l with
  | leaf u => unfold sinkCtx; rfl
  | node a y b _ ih => unfold sinkCtx; rw [plug_append, ih]; rfl

end Heap

/-! ### Cutting -/

/-- The labels not satisfying `p` and those satisfying it, as two trees, where the labels
satisfying `p` are the last ones. -/
def cut {α : Type} (p : β → Prop) [DecidablePred p] : BinTree α β → BinTree α β × BinTree α β
  | leaf a => (leaf a, leaf a)
  | node l b r => if p b then ((cut p l).1, node (cut p l).2 b r) else (node l b (cut p r).1, (cut p r).2)

theorem labels_cut {α : Type} (p : β → Prop) [DecidablePred p] (t : BinTree α β) :
    (cut p t).1.labels ++ (cut p t).2.labels = t.labels := by
  induction t with
  | leaf a => rfl
  | node l b r ihl ihr =>
      unfold cut
      split_ifs
      · simp [← ihl]
      · simp [← ihr]

theorem cut_congr {α : Type} {p q : β → Prop} [DecidablePred p] [DecidablePred q] {t : BinTree α β}
    (h : ∀ x ∈ t.labels, p x ↔ q x) : cut p t = cut q t := by
  induction t with
  | leaf a => rfl
  | node l b r ihl ihr =>
      simp only [labels_node, List.mem_append, List.mem_cons] at h
      unfold cut
      simp only [h b (by simp), ihl fun x hx => h x (by simp [hx]), ihr fun x hx => h x (by simp [hx])]

/-- A cut where the labels satisfying `p` are the last ones. -/
theorem cut_spec {α : Type} {p : β → Prop} [DecidablePred p] {t : BinTree α β}
    (h : t.labels.Pairwise (fun x y => p x → p y)) :
    (∀ x ∈ (cut p t).1.labels, ¬ p x) ∧ ∀ x ∈ (cut p t).2.labels, p x := by
  induction t with
  | leaf a => simp [cut]
  | node l b r ihl ihr =>
      rw [labels_node, List.pairwise_append, List.pairwise_cons] at h
      obtain ⟨hl, ⟨hbr, hr⟩, hlb⟩ := h
      unfold cut
      split_ifs with hb
      · refine ⟨(ihl hl).1, fun x hx => ?_⟩
        simp only [labels_node, List.mem_append, List.mem_cons] at hx
        rcases hx with hx | rfl | hx
        · exact (ihl hl).2 x hx
        · exact hb
        · exact hbr x hx hb
      · refine ⟨fun x hx => ?_, (ihr hr).2⟩
        simp only [labels_node, List.mem_append, List.mem_cons] at hx
        rcases hx with hx | rfl | hx
        · exact fun hp => hb (hlb x hx b List.mem_cons_self hp)
        · exact hb
        · exact (ihr hr).1 x hx

/-- The lightest label, sifted up from the end of a search, cuts the tree. -/
theorem siftUp_descend [LinearOrder W] (w : β → W) (p : β → Prop) [DecidablePred p] {t : BinTree Unit β} {x : β} :
    ∀ {C : Ctx Unit β}, (∀ y ∈ t.labels, w x < w y) →
      siftUp w (descend p t C) (leaf ()) x (leaf ()) = siftUp w C (cut p t).1 x (cut p t).2 := by
  induction t with
  | leaf u => exact fun _ => rfl
  | node l b r ihl ihr =>
      intro C h
      simp only [labels_node, List.mem_append, List.mem_cons] at h
      have hb : ¬ w b ≤ w x := not_le.mpr (h b (by simp))
      unfold descend cut
      split_ifs
      · rw [ihl fun y hy => h y (by simp [hy]), siftUp, if_neg hb]
      · rw [ihr fun y hy => h y (by simp [hy]), siftUp, if_neg hb]

/-! ### Searching -/

/-- The labels before and after the end of a search. -/
theorem exists_descend_split {α : Type} (p : β → Prop) [DecidablePred p] (t : BinTree α β) :
    ∃ as bs, t.labels = as ++ bs ∧
      (∀ C s, (plug (descend p t C) s).labels =
        walkBefore (fun _ => []) (fun b => [b]) C ++ (as ++ s.labels ++ bs) ++
          walkAfter (fun _ => []) (fun b => [b]) C) ∧
      (t.labels.Pairwise (fun x y => p x → p y) → (∀ x ∈ as, ¬ p x) ∧ ∀ x ∈ bs, p x) := by
  induction t with
  | leaf u =>
      refine ⟨[], [], rfl, fun C s => ?_, fun _ => by simp⟩
      simp [descend, labels, walk_plug]
  | node l b r ihl ihr =>
      obtain ⟨las, lbs, hl, hlw, hls⟩ := ihl
      obtain ⟨ras, rbs, hr, hrw, hrs⟩ := ihr
      by_cases hb : p b
      · refine ⟨las, lbs ++ b :: r.labels, by simp [hl], fun C s => ?_, fun hs => ?_⟩
        · unfold descend
          rw [if_pos hb, hlw]
          simp [walkBefore, walkAfter, labels]
        · rw [labels_node, List.pairwise_append, List.pairwise_cons] at hs
          obtain ⟨hsl, ⟨hbr, _⟩, _⟩ := hs
          refine ⟨(hls hsl).1, fun x hx => ?_⟩
          rcases List.mem_append.mp hx with hx | hx
          · exact (hls hsl).2 x hx
          · rcases List.mem_cons.mp hx with rfl | hx
            · exact hb
            · exact hbr x hx hb
      · refine ⟨l.labels ++ b :: ras, rbs, by simp [hr], fun C s => ?_, fun hs => ?_⟩
        · unfold descend
          rw [if_neg hb, hrw]
          simp [walkBefore, walkAfter, labels]
        · rw [labels_node, List.pairwise_append, List.pairwise_cons] at hs
          obtain ⟨_, ⟨_, hsr⟩, hlb⟩ := hs
          refine ⟨fun x hx => ?_, (hrs hsr).2⟩
          rcases List.mem_append.mp hx with hx | hx
          · exact fun hp => hb (hlb x hx b List.mem_cons_self hp)
          · rcases List.mem_cons.mp hx with rfl | hx
            · exact hb
            · exact (hrs hsr).1 x hx

/-! ### Range walks -/

section Range

variable {K : Type} [LinearOrder K] (v : β → K) (lo hi : K)

def rangeWalk : BinTree Unit β → List β
  | leaf _ => []
  | node l b r =>
      (if lo ≤ v b ∧ v b ≤ hi then [b] else []) ++
        ((if v b ≤ hi then rangeWalk r else []) ++ (if lo ≤ v b then rangeWalk l else []))

theorem filter_eq_zero_of_lt {s : Multiset β} (h : ∀ b ∈ s, v b < lo) :
    s.filter (fun b => lo ≤ v b ∧ v b ≤ hi) = 0 :=
  Multiset.filter_eq_nil.mpr (fun b hb hr => absurd hr.1 (not_le.mpr (h b hb)))

theorem filter_eq_zero_of_gt {s : Multiset β} (h : ∀ b ∈ s, hi < v b) :
    s.filter (fun b => lo ≤ v b ∧ v b ≤ hi) = 0 :=
  Multiset.filter_eq_nil.mpr (fun b hb hr => absurd hr.2 (not_le.mpr (h b hb)))

/-- A range walk of a sorted tree lists every label in the range exactly once. -/
theorem rangeWalk_perm (t : BinTree Unit β) (hs : t.labels.Pairwise (fun x y => v x ≤ v y)) :
    ((rangeWalk v lo hi t : List β) : Multiset β) = (t.labels : Multiset β).filter (fun b => lo ≤ v b ∧ v b ≤ hi) := by
  induction t with
  | leaf u => simp [rangeWalk]
  | node l b r ihl ihr =>
      rw [labels_node, List.pairwise_append, List.pairwise_cons] at hs
      obtain ⟨hsl, ⟨hbr, hsr⟩, hlb⟩ := hs
      have e : ((node l b r).labels : Multiset β) = {b} + ((r.labels : Multiset β) + (l.labels : Multiset β)) := by
        rw [labels_node, ← Multiset.coe_add, ← Multiset.cons_coe, Multiset.singleton_add, Multiset.add_cons, add_comm]
      rw [e, Multiset.filter_add, Multiset.filter_add]
      simp only [rangeWalk, ← Multiset.coe_add]
      congr 1
      · split_ifs with h <;> simp [Multiset.filter_singleton, h]
      · congr 1
        · split_ifs with h
          · exact ihr hsr
          · rw [filter_eq_zero_of_gt]
            · rfl
            · exact fun x hx => lt_of_lt_of_le (not_le.mp h) (hbr x hx)
        · split_ifs with h
          · exact ihl hsl
          · rw [filter_eq_zero_of_lt]
            · rfl
            · exact fun x hx => lt_of_le_of_lt (hlb x hx b List.mem_cons_self) (not_le.mp h)

end Range

end BinTree
