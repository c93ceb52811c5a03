import LockFreeSearchTree.BinTree
import Mathlib.Algebra.Order.Group.Multiset
import Mathlib.Algebra.BigOperators.Group.Multiset.Basic
import Mathlib.Order.Basic

/-! # Leaf-oriented search trees

Search trees that keep their values in the leaves: an inner node has a key, and a leaf holds any
number of values.  `Routed R t` says that the keys and the leaves of `t` in order separate each
other: values in a leaf are at most the keys after it and above the keys before it, and keys in
order are related by `R`, which is `≤` or `<`.

* In order, the leaves and labels of a tree are its `items`, so `Routed` is a pairwise condition
  on a list and an update of a tree is judged by the items it replaces (`Routed.replace`).
* A search for a value ends in the leaf that holds it (`Routed.seek_eq`), and in a leaf that may
  hold it (`Routed.fits_descend`).
* The three updates of such trees: a leaf gets other values (`Routed.setLeaf`), a leaf is split
  (`Routed.split`), and a leaf and its parent are removed, the values going to the nearest leaf of
  the sibling (`Routed.join`). -/

namespace BinTree

variable {α β K : Type}

/-- The leaves and labels in order. -/
def items (t : BinTree α β) : List (α ⊕ β) := t.walk (fun a => [.inl a]) (fun b => [.inr b])

@[simp] theorem items_leaf (a : α) : (leaf a : BinTree α β).items = [.inl a] := rfl

@[simp] theorem items_node (l : BinTree α β) (b : β) (r : BinTree α β) :
    (node l b r).items = l.items ++ .inr b :: r.items := by
  simp [items]

def itemsBefore (C : Ctx α β) : List (α ⊕ β) := walkBefore (fun a => [.inl a]) (fun b => [.inr b]) C

def itemsAfter (C : Ctx α β) : List (α ⊕ β) := walkAfter (fun a => [.inl a]) (fun b => [.inr b]) C

theorem items_plug (C : Ctx α β) (t : BinTree α β) :
    (plug C t).items = itemsBefore C ++ t.items ++ itemsAfter C := walk_plug _ _ C t

@[simp] theorem itemsBefore_left (b : β) (s : BinTree α β) (C : Ctx α β) :
    itemsBefore (⟨.left, b, s⟩ :: C) = itemsBefore C := rfl

@[simp] theorem itemsBefore_right (b : β) (s : BinTree α β) (C : Ctx α β) :
    itemsBefore (⟨.right, b, s⟩ :: C) = itemsBefore C ++ (s.items ++ [.inr b]) := rfl

@[simp] theorem itemsAfter_left (b : β) (s : BinTree α β) (C : Ctx α β) :
    itemsAfter (⟨.left, b, s⟩ :: C) = .inr b :: s.items ++ itemsAfter C := rfl

@[simp] theorem itemsAfter_right (b : β) (s : BinTree α β) (C : Ctx α β) :
    itemsAfter (⟨.right, b, s⟩ :: C) = itemsAfter C := rfl

theorem inl_mem_items {a : α} {t : BinTree α β} : .inl a ∈ t.items ↔ a ∈ t.leaves := by
  induction t with
  | leaf b => simp
  | node l b r ihl ihr => simp [ihl, ihr]

theorem inr_mem_items {b : β} {t : BinTree α β} : .inr b ∈ t.items ↔ b ∈ t.labels := by
  induction t with
  | leaf a => simp
  | node l c r ihl ihr => simp [ihl, ihr]

theorem mem_itemsBefore_of_frame {C : Ctx α β} {G : Frame α β} (h : G ∈ C) (hs : G.side = .right) :
    .inr G.label ∈ itemsBefore C := by
  induction C with
  | nil => cases h
  | cons F C ih =>
      obtain ⟨d, b, s⟩ := F
      rcases List.mem_cons.mp h with rfl | hC
      · cases hs
        simp
      · cases d
        · exact ih hC
        · exact List.mem_append_left _ (ih hC)

theorem mem_itemsAfter_of_frame {C : Ctx α β} {G : Frame α β} (h : G ∈ C) (hs : G.side = .left) :
    .inr G.label ∈ itemsAfter C := by
  induction C with
  | nil => cases h
  | cons F C ih =>
      obtain ⟨d, b, s⟩ := F
      rcases List.mem_cons.mp h with rfl | hC
      · cases hs
        simp
      · cases d
        · exact List.mem_append_right _ (ih hC)
        · exact ih hC

/-- A context whose frames are all on the left has nothing before its hole. -/
theorem itemsBefore_eq_nil {C : Ctx α β} (h : ∀ F ∈ C, F.side = .left) : itemsBefore C = [] := by
  induction C with
  | nil => rfl
  | cons F C ih =>
      obtain ⟨d, b, s⟩ := F
      cases h _ List.mem_cons_self
      exact ih (fun G hG => h G (List.mem_cons_of_mem _ hG))

theorem itemsAfter_eq_nil {C : Ctx α β} (h : ∀ F ∈ C, F.side = .right) : itemsAfter C = [] := by
  induction C with
  | nil => rfl
  | cons F C ih =>
      obtain ⟨d, b, s⟩ := F
      cases h _ List.mem_cons_self
      exact ih (fun G hG => h G (List.mem_cons_of_mem _ hG))

theorem inl_mem_itemsBefore {a : α} {C : Ctx α β} : .inl a ∈ itemsBefore C ↔ a ∈ leavesBefore C := by
  induction C with
  | nil => simp [itemsBefore, walkBefore]
  | cons F C ih =>
      obtain ⟨_ | _, b, s⟩ := F
      · exact ih
      · simp [ih, inl_mem_items]

/-! ### The sum over the leaves -/

section Total

variable {M : Type} [AddCommMonoid M] (f : α → M)

/-- The sum of `f` over the leaves. -/
def total (t : BinTree α β) : M := (t.leaves.map f).sum

@[simp] theorem total_leaf (a : α) : (leaf a : BinTree α β).total f = f a := by simp [total]

@[simp] theorem total_node (l : BinTree α β) (b : β) (r : BinTree α β) :
    (node l b r).total f = l.total f + r.total f := by simp [total]

@[simp] theorem total_on (d : Side) (l : BinTree α β) (b : β) (r : BinTree α β) :
    (on d l b r).total f = l.total f + r.total f := by
  cases d <;> simp [on, add_comm]

theorem total_plug (C : Ctx α β) (t : BinTree α β) : (plug C t).total f = t.total f + ((ctxLeaves C).map f).sum := by
  unfold total
  rw [((leaves_plug_perm C t).map f).sum_eq, List.map_append, List.sum_append]

theorem mem_total {vals : α → Multiset K} {v : K} {t : BinTree α β} : v ∈ t.total vals ↔ ∃ a ∈ t.leaves, v ∈ vals a := by
  induction t with
  | leaf a => simp
  | node l b r ihl ihr => simp [ihl, ihr, or_and_right, exists_or]

end Total

/-! ### Keys and values in order -/

section Routed

variable [LinearOrder K] (R : K → K → Prop) (key : β → K) (vals : α → Multiset K)

/-- What two items in order satisfy. -/
def Before : α ⊕ β → α ⊕ β → Prop
  | .inl _, .inl _ => True
  | .inl a, .inr b => ∀ v ∈ vals a, v ≤ key b
  | .inr b, .inl a => ∀ v ∈ vals a, key b < v
  | .inr b, .inr b' => R (key b) (key b')

/-- Keys and values separate each other. -/
def Routed (t : BinTree α β) : Prop := t.items.Pairwise (Before R key vals)

/-- `v` may be a value of a leaf in the hole of `C`. -/
def Fits (v : K) (C : Ctx α β) : Prop :=
  (∀ b, .inr b ∈ itemsBefore C → key b < v) ∧ ∀ b, .inr b ∈ itemsAfter C → v ≤ key b

variable {R key vals}

theorem routed_leaf (a : α) : Routed R key vals (leaf a : BinTree α β) := by simp [Routed]

theorem routed_node {l r : BinTree α β} {b : β} : Routed R key vals (node l b r) ↔
    Routed R key vals l ∧ Routed R key vals r ∧ (∀ x ∈ l.items, Before R key vals x (.inr b)) ∧
      (∀ x ∈ r.items, Before R key vals (.inr b) x) ∧ ∀ x ∈ l.items, ∀ y ∈ r.items, Before R key vals x y := by
  unfold Routed
  rw [items_node, List.pairwise_append, List.pairwise_cons]
  simp only [List.mem_cons, forall_eq_or_imp]
  exact ⟨fun ⟨h₁, ⟨h₂, h₃⟩, h₄⟩ => ⟨h₁, h₃, fun x hx => (h₄ x hx).1, h₂, fun x hx => (h₄ x hx).2⟩,
    fun ⟨h₁, h₂, h₃, h₄, h₅⟩ => ⟨h₁, ⟨h₄, h₂⟩, fun x hx => ⟨h₃ x hx, h₅ x hx⟩⟩⟩

theorem routed_plug {C : Ctx α β} {t : BinTree α β} : Routed R key vals (plug C t) ↔
    (itemsBefore C ++ t.items ++ itemsAfter C).Pairwise (Before R key vals) := by
  rw [Routed, items_plug]

theorem Routed.subtree {C : Ctx α β} {t : BinTree α β} (h : Routed R key vals (plug C t)) : Routed R key vals t := by
  rw [routed_plug, List.append_assoc, List.pairwise_append, List.pairwise_append] at h
  exact h.2.1.1

/-- The values of a leaf may be where the leaf is. -/
theorem Routed.fits {C : Ctx α β} {a : α} {v : K} (h : Routed R key vals (plug C (leaf a))) (hv : v ∈ vals a) :
    Fits key v C := by
  rw [routed_plug, List.append_assoc, List.pairwise_append, List.pairwise_append] at h
  obtain ⟨_, ⟨_, _, hafter⟩, hbefore⟩ := h
  exact ⟨fun b hb => hbefore _ hb (.inl a) (by simp) v hv, fun b hb => hafter (.inl a) (by simp) _ hb v hv⟩

/-- The keys after a hole are not below the key of a frame the hole is on the left of. -/
theorem Routed.exists_frame_after (hR : ∀ a b, R a b → a ≤ b) {C : Ctx α β} {t : BinTree α β} {b : β}
    (h : Routed R key vals (plug C t)) (hb : .inr b ∈ itemsAfter C) :
    ∃ G ∈ C, G.side = .left ∧ key G.label ≤ key b := by
  induction C generalizing t with
  | nil => cases hb
  | cons F C ih =>
      obtain ⟨d, b', s⟩ := F
      rw [plug_cons] at h
      cases d with
      | right =>
          obtain ⟨G, hG, hs, hle⟩ := ih h hb
          exact ⟨G, List.mem_cons_of_mem _ hG, hs, hle⟩
      | left =>
          refine ⟨_, List.mem_cons_self, rfl, ?_⟩
          rw [itemsAfter_left, List.cons_append, List.mem_cons, List.mem_append] at hb
          rcases hb with hb | hb | hb
          · cases hb
            exact le_rfl
          · exact hR _ _ ((routed_node.mp h.subtree).2.2.2.1 _ hb)
          · rw [routed_plug, List.append_assoc, List.pairwise_append, List.pairwise_append] at h
            exact hR _ _ (h.2.1.2.2 (.inr b') (by simp [on]) _ hb)

/-- The keys before a hole are not above the key of a frame the hole is on the right of. -/
theorem Routed.exists_frame_before (hR : ∀ a b, R a b → a ≤ b) {C : Ctx α β} {t : BinTree α β} {b : β}
    (h : Routed R key vals (plug C t)) (hb : .inr b ∈ itemsBefore C) :
    ∃ G ∈ C, G.side = .right ∧ key b ≤ key G.label := by
  induction C generalizing t with
  | nil => cases hb
  | cons F C ih =>
      obtain ⟨d, b', s⟩ := F
      rw [plug_cons] at h
      cases d with
      | left =>
          obtain ⟨G, hG, hs, hle⟩ := ih h hb
          exact ⟨G, List.mem_cons_of_mem _ hG, hs, hle⟩
      | right =>
          refine ⟨_, List.mem_cons_self, rfl, ?_⟩
          rw [itemsBefore_right, List.mem_append, List.mem_append, List.mem_singleton] at hb
          rcases hb with hb | hb | hb
          · rw [routed_plug, List.append_assoc, List.pairwise_append] at h
            exact hR _ _ (h.2.2 _ hb (.inr b') (by simp [on]))
          · exact hR _ _ ((routed_node.mp h.subtree).2.2.1 _ hb)
          · cases hb
            exact le_rfl

/-- The values of different leaves are in order. -/
theorem Routed.leaves {t : BinTree α β} (h : Routed R key vals t) :
    t.leaves.Pairwise (fun a c => ∀ v ∈ vals a, ∀ w ∈ vals c, v < w) := by
  induction t with
  | leaf a => simp
  | node l b r ihl ihr =>
      obtain ⟨hl, hr, hlb, hbr, _⟩ := routed_node.mp h
      rw [leaves_node, List.pairwise_append]
      exact ⟨ihl hl, ihr hr, fun a ha c hc v hv w hw =>
        (hlb (.inl a) (inl_mem_items.mpr ha) v hv).trans_lt (hbr (.inl c) (inl_mem_items.mpr hc) w hw)⟩

/-- Other items in the place of `xs` are in order with the rest if each of them is where some item
of `xs` is, or on its own account. -/
theorem Routed.replace {C D : Ctx α β} {t u : BinTree α β} (h : Routed R key vals (plug C t))
    (hD : itemsBefore D ++ u.items ++ itemsAfter D = itemsBefore C ++ u.items ++ itemsAfter C)
    (hu : u.items.Pairwise (Before R key vals))
    (hb : ∀ y ∈ u.items, ∀ x ∈ itemsBefore C, (∀ z ∈ t.items, Before R key vals x z) → Before R key vals x y)
    (ha : ∀ y ∈ u.items, ∀ x ∈ itemsAfter C, (∀ z ∈ t.items, Before R key vals z x) → Before R key vals y x) :
    Routed R key vals (plug D u) := by
  rw [routed_plug] at h ⊢
  rw [hD]
  rw [List.append_assoc, List.pairwise_append, List.pairwise_append] at h ⊢
  obtain ⟨h₁, ⟨_, h₃, h₄⟩, h₅⟩ := h
  refine ⟨h₁, ⟨hu, h₃, fun y hy x hx => ha y hy x hx (fun z hz => h₄ z hz x hx)⟩, fun x hx y hy => ?_⟩
  rcases List.mem_append.mp hy with hy | hy
  · exact hb y hy x hx (fun z hz => h₅ x hx z (List.mem_append_left _ hz))
  · exact h₅ x hx y (List.mem_append_right _ hy)

/-! ### Searching -/

/-- A search for `v` ends where `v` may be. -/
theorem Routed.fits_descend (hR : ∀ a b, R a b → a ≤ b) {t : BinTree α β} (h : Routed R key vals t) (v : K)
    {C : Ctx α β} (hC : Fits key v C) : Fits key v (descend (fun b => v ≤ key b) t C) := by
  induction t generalizing C with
  | leaf a => exact hC
  | node l b r ihl ihr =>
      obtain ⟨hl, hr, hlb, hbr, _⟩ := routed_node.mp h
      unfold descend
      split_ifs with hv
      · refine ihl hl ⟨hC.1, fun b' hb' => ?_⟩
        simp only [itemsAfter_left, List.cons_append, List.mem_cons, Sum.inr.injEq, List.mem_append] at hb'
        rcases hb' with rfl | hb' | hb'
        · exact hv
        · exact hv.trans (hR _ _ (hbr _ hb'))
        · exact hC.2 b' hb'
      · refine ihr hr ⟨fun b' hb' => ?_, hC.2⟩
        simp only [itemsBefore_right, List.mem_append, List.mem_singleton, Sum.inr.injEq] at hb'
        rcases hb' with hb' | hb' | rfl
        · exact hC.1 b' hb'
        · exact (hR _ _ (hlb _ hb')).trans_lt (not_le.mp hv)
        · exact not_le.mp hv

theorem fits_nil (v : K) : Fits key v ([] : Ctx α β) := by simp [Fits, itemsBefore, itemsAfter, walkBefore, walkAfter]

/-- A search for a value ends in the leaf that holds it. -/
theorem Routed.seek_eq {t : BinTree α β} (h : Routed R key vals t) {a : α} {v : K} (ha : a ∈ t.leaves) (hv : v ∈ vals a) :
    seek (fun b => v ≤ key b) t = a := by
  induction t with
  | leaf a' => exact (List.mem_singleton.mp ha).symm
  | node l b r ihl ihr =>
      obtain ⟨hl, hr, hlb, hbr, _⟩ := routed_node.mp h
      unfold seek
      rcases List.mem_append.mp (leaves_node l b r ▸ ha) with ha | ha
      · rw [if_pos (hlb _ (inl_mem_items.mpr ha) v hv)]
        exact ihl hl ha
      · rw [if_neg (not_le.mpr (hbr _ (inl_mem_items.mpr ha) v hv))]
        exact ihr hr ha

/-- A search finds a value exactly if some leaf holds it. -/
theorem Routed.mem_seek_iff {t : BinTree α β} (h : Routed R key vals t) (v : K) :
    v ∈ vals (seek (fun b => v ≤ key b) t) ↔ ∃ a ∈ t.leaves, v ∈ vals a :=
  ⟨fun hv => ⟨_, seek_mem _ t, hv⟩, fun ⟨_, ha, hv⟩ => by rw [h.seek_eq ha hv]; exact hv⟩

/-! ### Updates -/

/-- A leaf gets values that each may be there. -/
theorem Routed.setLeaf {C : Ctx α β} {a a' : α} (h : Routed R key vals (plug C (leaf a)))
    (hv : ∀ v ∈ vals a', v ∈ vals a ∨ Fits key v C) : Routed R key vals (plug C (leaf a')) := by
  refine h.replace rfl (by simp) (fun y hy x hx hxz => ?_) (fun y hy x hx hxz => ?_)
  all_goals
    rw [items_leaf, List.mem_singleton] at hy
    subst hy
    have hxa := hxz (.inl a) (by simp)
  · cases x with
    | inl _ => trivial
    | inr b => exact fun v hm => (hv v hm).elim (hxa v) (fun hf => hf.1 b hx)
  · cases x with
    | inl _ => trivial
    | inr b => exact fun v hm => (hv v hm).elim (hxa v) (fun hf => hf.2 b hx)

/-- Between a leaf and a hole after it there is a key. -/
theorem Routed.exists_key_before {C : Ctx α β} {t : BinTree α β} {a : α} (h : Routed R key vals (plug C t))
    (ha : .inl a ∈ itemsBefore C) : ∃ b, .inr b ∈ itemsBefore C ∧ ∀ v ∈ vals a, v ≤ key b := by
  induction C generalizing t with
  | nil => cases ha
  | cons F C ih =>
      obtain ⟨d, b, s⟩ := F
      cases d with
      | left => exact ih h ha
      | right =>
          rw [itemsBefore_right, List.mem_append, List.mem_append] at ha
          rw [plug_cons, on_right] at h
          rcases ha with ha | ha | ha
          · obtain ⟨b', hb', hle⟩ := ih h ha
            exact ⟨b', List.mem_append_left _ hb', hle⟩
          · exact ⟨b, by simp, (routed_node.mp h.subtree).2.2.1 _ ha⟩
          · simp at ha

/-- Between a hole and a leaf after it there is a key. -/
theorem Routed.exists_key_after {C : Ctx α β} {t : BinTree α β} {a : α} (h : Routed R key vals (plug C t))
    (ha : .inl a ∈ itemsAfter C) : ∃ b, .inr b ∈ itemsAfter C ∧ ∀ v ∈ vals a, key b < v := by
  induction C generalizing t with
  | nil => cases ha
  | cons F C ih =>
      obtain ⟨d, b, s⟩ := F
      cases d with
      | right => exact ih h ha
      | left =>
          rw [itemsAfter_left, List.cons_append, List.mem_cons, List.mem_append] at ha
          rw [plug_cons, on_left] at h
          rcases ha with ha | ha | ha
          · cases ha
          · exact ⟨b, by simp, (routed_node.mp h.subtree).2.2.2.1 _ ha⟩
          · obtain ⟨b', hb', hlt⟩ := ih h ha
            exact ⟨b', by simp [hb'], hlt⟩

/-- A leaf is split at a new key. -/
theorem Routed.split (hR : ∀ a b, R a b → a ≤ b) {C : Ctx α β} {a l r : α} {b : β}
    (h : Routed R key vals (plug C (leaf a)))
    (hl : ∀ v ∈ vals l, v ∈ vals a ∧ v ≤ key b) (hr : ∀ v ∈ vals r, v ∈ vals a ∧ key b < v)
    (hbefore : ∀ b', .inr b' ∈ itemsBefore C → R (key b') (key b))
    (hafter : ∀ b', .inr b' ∈ itemsAfter C → R (key b) (key b')) :
    Routed R key vals (plug C (node (leaf l) b (leaf r))) := by
  have hitems : (node (leaf l) b (leaf r)).items = [.inl l, .inr b, .inl r] := rfl
  refine h.replace rfl ?_ (fun y hy x hx hxz => ?_) (fun y hy x hx hxz => ?_)
  · rw [hitems]
    simp only [List.pairwise_cons, List.mem_cons, List.not_mem_nil, or_false, forall_eq_or_imp, forall_eq,
      IsEmpty.forall_iff, implies_true, List.Pairwise.nil, and_true]
    exact ⟨⟨fun v hv => (hl v hv).2, trivial⟩, fun v hv => (hr v hv).2⟩
  · rw [hitems] at hy
    simp only [List.mem_cons, List.not_mem_nil, or_false] at hy
    have hxa := hxz (.inl a) (by simp)
    cases x with
    | inl a' =>
        obtain ⟨b', hb', hle⟩ := h.exists_key_before hx
        rcases hy with rfl | rfl | rfl
        · trivial
        · exact fun v hv => (hle v hv).trans (hR _ _ (hbefore b' hb'))
        · trivial
    | inr b' =>
        rcases hy with rfl | rfl | rfl
        · exact fun v hv => hxa v (hl v hv).1
        · exact hbefore b' hx
        · exact fun v hv => hxa v (hr v hv).1
  · rw [hitems] at hy
    simp only [List.mem_cons, List.not_mem_nil, or_false] at hy
    have hxa := hxz (.inl a) (by simp)
    cases x with
    | inl a' =>
        obtain ⟨b', hb', hlt⟩ := h.exists_key_after hx
        rcases hy with rfl | rfl | rfl
        · trivial
        · exact fun v hv => (hR _ _ (hafter b' hb')).trans_lt (hlt v hv)
        · trivial
    | inr b' =>
        rcases hy with rfl | rfl | rfl
        · exact fun v hv => hxa v (hl v hv).1
        · exact hafter b' hx
        · exact fun v hv => hxa v (hr v hv).1

/-- The items of a node whose child on side `d` is a leaf, the other child ending on that side in
the leaf `n`. -/
theorem items_join {d : Side} {D : Ctx α β} (hD : ∀ F ∈ D, F.side = d) (a n : α) (b : β) :
    (on d (leaf a) b (plug D (leaf n))).items =
      itemsBefore D ++ (on d (leaf a) b (leaf n)).items ++ itemsAfter D := by
  cases d with
  | left => simp [items_plug, itemsBefore_eq_nil hD]
  | right => simp [items_plug, itemsAfter_eq_nil hD]

/-- A leaf and its parent are removed, its values going to the nearest leaf of the sibling. -/
theorem Routed.join {C D : Ctx α β} {d : Side} {a n m : α} {b : β}
    (h : Routed R key vals (plug C (on d (leaf a) b (plug D (leaf n))))) (hD : ∀ F ∈ D, F.side = d)
    (hm : ∀ v ∈ vals m, v ∈ vals a ∨ v ∈ vals n) : Routed R key vals (plug C (plug D (leaf m))) := by
  have hpair : (itemsBefore C ++ (itemsBefore D ++ (on d (leaf a) b (leaf n)).items ++ itemsAfter D) ++
      itemsAfter C).Pairwise (Before R key vals) := by
    rw [← items_join hD, ← routed_plug]
    exact h
  have hleft : .inl a ∈ (on d (leaf a) b (leaf n)).items := by cases d <;> simp [on]
  have hright : .inl n ∈ (on d (leaf a) b (leaf n)).items := by cases d <;> simp [on]
  rw [routed_plug, items_plug]
  simp only [List.append_assoc, List.pairwise_append, List.mem_append, items_leaf, List.mem_singleton] at hpair ⊢
  obtain ⟨h₁, ⟨h₂, ⟨_, ⟨h₄, h₅, h₆⟩, h₇⟩, h₈⟩, h₉⟩ := hpair
  -- an item in order with both old leaves is in order with the new one
  have hbefore : ∀ x, Before R key vals x (.inl a) → Before R key vals x (.inl n) → Before R key vals x (.inl m) := by
    intro x ha hn
    cases x with
    | inl _ => trivial
    | inr b' => exact fun v hv => (hm v hv).elim (ha v) (hn v)
  have hafter : ∀ x, Before R key vals (.inl a) x → Before R key vals (.inl n) x → Before R key vals (.inl m) x := by
    intro x ha hn
    cases x with
    | inl _ => trivial
    | inr b' => exact fun v hv => (hm v hv).elim (ha v) (hn v)
  refine ⟨h₁, ⟨h₂, ⟨by simp, ⟨h₄, h₅, h₆⟩, ?_⟩, ?_⟩, ?_⟩
  · rintro x rfl y hy
    exact hafter y (h₇ _ hleft y hy) (h₇ _ hright y hy)
  · intro x hx y hy
    rcases hy with rfl | hy
    · exact hbefore x (h₈ x hx _ (.inl hleft)) (h₈ x hx _ (.inl hright))
    · exact h₈ x hx y (.inr hy)
  · intro x hx y hy
    rcases hy with hy | rfl | hy
    · exact h₉ x hx y (.inl hy)
    · exact hbefore x (h₉ x hx _ (.inr (.inl hleft))) (h₉ x hx _ (.inr (.inl hright)))
    · exact h₉ x hx y (.inr (.inr hy))

end Routed

/-! ### Keys that find their labels -/

section Searchable

variable [LinearOrder K] {key : β → K}

/-- Every key is above the keys on its left and not above those on its right. -/
def Searchable (key : β → K) : BinTree α β → Prop
  | leaf _ => True
  | node l b r => Searchable key l ∧ Searchable key r ∧ (∀ c ∈ l.labels, key c < key b) ∧ ∀ c ∈ r.labels, key b ≤ key c

/-- A search for the key `k` leads to the hole of `C`. -/
abbrev Leads (key : β → K) (k : K) (C : Ctx α β) : Prop := Follows (fun b => k < key b) C

theorem searchable_leaf (a : α) : Searchable key (leaf a : BinTree α β) := trivial

theorem searchable_on {d : Side} {t s : BinTree α β} {b : β} : Searchable key (on d t b s) ↔
    Searchable key t ∧ Searchable key s ∧ (∀ c ∈ t.labels, d = .left ↔ key c < key b) ∧
      ∀ c ∈ s.labels, d = .right ↔ key c < key b := by
  cases d with
  | left => simp [on, Searchable]
  | right =>
      simp only [on, Searchable, reduceCtorEq, false_iff, true_iff, not_lt]
      constructor
      · rintro ⟨hs, ht, hsb, htb⟩
        exact ⟨ht, hs, htb, hsb⟩
      · rintro ⟨ht, hs, htb, hsb⟩
        exact ⟨hs, ht, hsb, htb⟩

theorem Searchable.subtree {C : Ctx α β} {t : BinTree α β} (h : Searchable key (plug C t)) : Searchable key t := by
  induction C generalizing t with
  | nil => exact h
  | cons F C ih => exact (searchable_on.mp (ih h)).1

/-- The key of a label leads to it. -/
theorem Searchable.leads {C : Ctx α β} {t : BinTree α β} {c : β} (h : Searchable key (plug C t)) (hc : c ∈ t.labels) :
    Leads key (key c) C := by
  induction C generalizing t with
  | nil =>
      intro F hF
      cases hF
  | cons F C ih =>
      intro G hG
      rcases List.mem_cons.mp hG with rfl | hG
      · exact (searchable_on.mp (h.subtree (C := C))).2.2.1 c hc
      · exact ih h (mem_labels_on.mpr (.inr (.inl hc))) G hG

/-- Another subtree, whose new labels have keys that lead to its place. -/
theorem Searchable.graft {C : Ctx α β} {t u : BinTree α β} (h : Searchable key (plug C t)) (hu : Searchable key u)
    (hc : ∀ c ∈ u.labels, c ∈ t.labels ∨ Leads key (key c) C) : Searchable key (plug C u) := by
  induction C generalizing t u with
  | nil => exact hu
  | cons F C ih =>
      have hleads : ∀ c ∈ u.labels, Leads key (key c) (F :: C) := by
        intro c hm
        rcases hc c hm with hm | hm
        · exact h.leads hm
        · exact hm
      obtain ⟨_, hs, _, hsib⟩ := searchable_on.mp (h.subtree (C := C))
      apply ih h
      · apply searchable_on.mpr
        refine ⟨hu, hs, ?_, hsib⟩
        intro c hm
        exact hleads c hm F List.mem_cons_self
      · intro c hm
        rcases mem_labels_on.mp hm with rfl | hm | hm
        · exact .inl (mem_labels_on.mpr (.inl rfl))
        · exact .inr fun G hG => hleads c hm G (List.mem_cons_of_mem _ hG)
        · exact .inl (mem_labels_on.mpr (.inr (.inr hm)))

/-- Strictly increasing keys find their labels. -/
theorem Routed.searchable {R : K → K → Prop} {vals : α → Multiset K} (hR : ∀ a b, R a b → a < b) {t : BinTree α β}
    (h : Routed R key vals t) : Searchable key t := by
  induction t with
  | leaf a => exact searchable_leaf a
  | node l b r ihl ihr =>
      obtain ⟨hl, hr, hlb, hbr, _⟩ := routed_node.mp h
      refine ⟨ihl hl, ihr hr, ?_, ?_⟩
      · intro c hc
        exact hR _ _ (hlb (.inr c) (inr_mem_items.mpr hc))
      · intro c hc
        exact (hR _ _ (hbr (.inr c) (inr_mem_items.mpr hc))).le

theorem Searchable.setLeaf {C : Ctx α β} {a : α} (h : Searchable key (plug C (leaf a))) (a' : α) :
    Searchable key (plug C (leaf a')) := h.graft (searchable_leaf a') (by simp)

end Searchable

end BinTree
