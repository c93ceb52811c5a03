import LockFreeSearchTree.LfcaRange

/-! # Order in the tree

What the changes of the tree do to its values and to their order.

* **Order.** `Ordered R T`: the keys, in order by `R`, separate the values, and every base node is
  sorted.  It is kept by copies and joins (`Rearranges.ordered`), by updates of the base node a
  search ends in (`Ordered.set`), and by splits at a key that may be there (`Ordered.split`).
* **Full base nodes.** A full base node is `Wedged` for `i` if its median separates nothing: all its
  values and `i` are on one side.  A split of it makes no room, so no call that returns has met one;
  any other split in the way of an update makes room and keeps the keys strictly increasing. -/

namespace LockFreeSearchTree

open BinTree Concurrent

namespace Lfca

variable {R : ℤ → ℤ → Prop} {T T' T₁ : Tree} {C D : Path} {b b' : Base} {i : ℤ}

/-- The keys are in order by `R` and separate the values, and every base node is sorted. -/
structure Ordered (R : ℤ → ℤ → Prop) (T : Tree) : Prop where
  routed : Routed R Route.key Base.values T
  sorted : ∀ b ∈ T.leaves, Sorted b.vals

/-- The values of the tree. -/
abbrev contents (T : Tree) : Multiset ℤ := T.total Base.values

theorem contents_plug (C : Path) (t : Tree) : contents (plug C t) = contents t + ((ctxLeaves C).map Base.values).sum :=
  total_plug _ C t

theorem contents_leaf (b : Base) : contents (leaf b) = b.values := total_leaf _ b

theorem Ordered.leaf_sorted (h : Ordered R (plug C (leaf b))) : Sorted b.vals :=
  h.sorted b (mem_leaves_plug.mpr (.inl (by simp)))

/-- A subtree is replaced by one with sorted base nodes. -/
theorem Ordered.graft {t u : Tree} (h : Ordered R (plug C t)) (hr : Routed R Route.key Base.values (plug C u))
    (hu : ∀ b ∈ u.leaves, Sorted b.vals) : Ordered R (plug C u) := by
  refine ⟨hr, fun b hb => ?_⟩
  rcases mem_leaves_plug.mp hb with hb | hb
  · exact hu b hb
  · exact h.sorted b (mem_leaves_plug.mpr (.inr hb))

/-- A base node gets other values that may be there. -/
theorem Ordered.set (h : Ordered R (plug C (leaf b))) (hs : Sorted b'.vals)
    (hv : ∀ v ∈ b'.vals, v ∈ b.vals ∨ Fits Route.key v C) : Ordered R (plug C (leaf b')) :=
  h.graft (h.routed.setLeaf hv) (by simpa using hs)

/-- The base node a search ends in holds `i` if any base node does. -/
theorem Ordered.mem_baseFor_iff (h : Ordered R T) : i ∈ (baseFor i T).vals ↔ i ∈ contents T := by
  rw [mem_total]
  exact h.routed.mem_seek_iff i

theorem Ordered.baseFor_sorted (h : Ordered R T) : Sorted (baseFor i T).vals := h.sorted _ (seek_mem _ T)

/-- `i` and the values of the base node a search for `i` ends in may be there. -/
theorem Ordered.fits_pathFor (hR : ∀ a b, R a b → a ≤ b) (h : Ordered R T) {v : ℤ} (hv : v = i ∨ v ∈ (baseFor i T).vals) :
    Fits Route.key v (pathFor i T) := by
  rcases hv with rfl | hv
  · exact h.routed.fits_descend hR v (fits_nil v)
  · have hr := h.routed
    rw [← plug_pathFor i T] at hr
    exact hr.fits hv

/-! ### Copies and joins -/

theorem joined_eq (d : Side) (vs ws : List ℤ) : (joined d vs ws : Multiset ℤ) = vs + ws := by
  cases d with
  | left => rfl
  | right => exact (Multiset.coe_add ws vs).symm.trans (add_comm _ _)

theorem Rearranges.contents_eq (h : Rearranges T T') : contents T' = contents T := by
  cases h with
  | copy hv => simp only [contents_plug, total_leaf, Base.values, hv]
  | join hD hv => simp only [contents_plug, total_on, total_leaf, Base.values, hv, joined_eq, add_assoc]

theorem joined_sorted {d : Side} {r : Route} {n : Base} (h : Ordered R (plug C (on d (leaf b) r (plug D (leaf n))))) :
    Sorted (joined d b.vals n.vals) := by
  have hb : Sorted b.vals := h.sorted b (by simp [mem_leaves_plug, mem_leaves_on])
  have hn : Sorted n.vals := h.sorted n (by simp [mem_leaves_plug, mem_leaves_on])
  have hmem : .inl n ∈ (plug D (leaf n)).items := inl_mem_items.mpr (by simp [mem_leaves_plug])
  have hsub := h.routed.subtree
  cases d with
  | left =>
      obtain ⟨_, _, hle, hlt, _⟩ := routed_node.mp hsub
      exact List.pairwise_append.mpr ⟨hb, hn, fun v hv w hw =>
        (hle (.inl b) (by simp) v hv).trans (hlt _ hmem w hw).le⟩
  | right =>
      obtain ⟨_, _, hle, hlt, _⟩ := routed_node.mp hsub
      exact List.pairwise_append.mpr ⟨hn, hb, fun v hv w hw =>
        (hle _ hmem v hv).trans (hlt (.inl b) (by simp) w hw).le⟩

theorem Rearranges.ordered (h : Rearranges T T') (ho : Ordered R T) : Ordered R T' := by
  cases h with
  | copy hv => exact ho.set (hv ▸ ho.leaf_sorted) (fun v h => .inl (hv ▸ h))
  | join hD hv =>
      rename_i C D d b n m r
      have hs := joined_sorted ho
      refine ho.graft (ho.routed.join hD fun v hm => ?_) fun x hx => ?_
      · have hm' : v ∈ (joined d b.vals n.vals : Multiset ℤ) := by rw [← hv]; exact hm
        rwa [joined_eq, Multiset.mem_add] at hm'
      · rcases mem_leaves_plug.mp hx with hx | hx
        · rw [leaves_leaf, List.mem_singleton] at hx
          rw [hx, hv]
          exact hs
        · exact ho.sorted x (by simp [mem_leaves_plug, mem_leaves_on, hx])

theorem Rearranges.searchable (h : Rearranges T T') (hk : Searchable Route.key T) : Searchable Route.key T' := by
  cases h with
  | copy _ => exact hk.setLeaf _
  | join hD _ =>
      apply hk.graft
      · exact (searchable_on.mp hk.subtree).2.1.setLeaf _
      · intro c hc
        left
        rw [mem_labels_on]
        right
        right
        rw [mem_labels_plug] at hc ⊢
        simpa using hc

theorem rearranges_searchable (h : Relation.ReflTransGen Rearranges T T') (hk : Searchable Route.key T) :
    Searchable Route.key T' := by
  induction h with
  | refl => exact hk
  | tail _ hlast ih => exact hlast.searchable ih

theorem rearranges_star (h : Relation.ReflTransGen Rearranges T T') :
    contents T' = contents T ∧ (Ordered R T → Ordered R T') := by
  induction h with
  | refl => exact ⟨rfl, id⟩
  | tail _ hlast ih => exact ⟨hlast.contents_eq.trans ih.1, fun ho => hlast.ordered (ih.2 ho)⟩

/-! ### Splits -/

/-- A base node is split at a key between two values that may be there. -/
theorem Ordered.split (hle : ∀ a b, R a b → a ≤ b) {l t : Base} {r : Route}
    (h : Ordered R (plug C (leaf b))) (hs : SplitAt b.vals r.key l.vals t.vals)
    (hbefore : ∀ q, .inr q ∈ itemsBefore C → R q.key r.key) (hafter : ∀ q, .inr q ∈ itemsAfter C → R r.key q.key) :
    Ordered R (plug C (node (leaf l) r (leaf t))) := by
  have hb := h.leaf_sorted
  have hparts : Sorted l.vals ∧ Sorted t.vals := by
    obtain ⟨hl, ht, _⟩ := List.pairwise_append.mp (hs.append ▸ hb)
    exact ⟨hl, ht⟩
  refine h.graft (h.routed.split hle (fun v hv => ⟨?_, hs.left_le hb v hv⟩) (fun v hv => ⟨?_, hs.right_gt hb v hv⟩)
    hbefore hafter) (by simpa using hparts)
  · show v ∈ (b.vals : Multiset ℤ)
    rw [hs.append]
    exact Multiset.mem_coe.mpr (List.mem_append_left _ hv)
  · show v ∈ (b.vals : Multiset ℤ)
    rw [hs.append]
    exact Multiset.mem_coe.mpr (List.mem_append_right _ hv)

theorem SplitAt.contents_eq {l t : Base} {r : Route} (hs : SplitAt b.vals r.key l.vals t.vals) :
    contents (plug C (node (leaf l) r (leaf t))) = contents (plug C (leaf b)) := by
  simp only [contents_plug, total_node, total_leaf, Base.values]
  rw [hs.append, ← Multiset.coe_add]

/-! ### Full base nodes -/

/-- A split of the sorted values `vs` leaves all of them on the side of `i`. -/
def Wedged (i : ℤ) (vs : List ℤ) : Prop :=
  (∀ v ∈ i :: vs, v ≤ medianOf vs) ∨ ∀ v ∈ i :: vs, medianOf vs < v

theorem not_wedged {vs : List ℤ} (h : ¬ Wedged i vs) :
    (∃ x, (x = i ∨ x ∈ vs) ∧ x ≤ medianOf vs) ∧ ∃ y, (y = i ∨ y ∈ vs) ∧ medianOf vs < y := by
  simp only [Wedged, List.mem_cons, not_or, not_forall, not_le, not_lt, exists_prop] at h
  exact ⟨h.2, h.1⟩

theorem ForcedSplit.contents_eq (h : ForcedSplit i T T') : contents T' = contents T := by
  obtain ⟨_, l, r, t, rfl, hs⟩ := h
  conv_rhs => rw [← plug_pathFor i T]
  exact hs.contents_eq

/-- A split of a wedged base node changes nothing where the search ends. -/
theorem ForcedSplit.wedged (h : ForcedSplit i T T') (hs : Sorted (baseFor i T).vals)
    (hw : Wedged i (baseFor i T).vals) : (baseFor i T').vals = (baseFor i T).vals := by
  obtain ⟨_, l, r, t, rfl, hsplit⟩ := h
  have happ := hsplit.append
  have hkey := hsplit.key_eq hs
  rw [baseFor_split]
  rcases hw with hw | hw
  · rw [if_pos (by rw [hkey]; exact hw i List.mem_cons_self)]
    have hnil : t.vals = [] := List.eq_nil_iff_forall_not_mem.mpr fun v hv => by
      have h₁ := hsplit.right_gt hs v hv
      have h₂ := hw v (by rw [happ]; simp [hv])
      omega
    rw [happ, hnil, List.append_nil]
  · rw [if_neg (by rw [hkey]; exact not_le.mpr (hw i List.mem_cons_self))]
    have hnil : l.vals = [] := List.eq_nil_iff_forall_not_mem.mpr fun v hv => by
      have h₁ := hsplit.left_le hs v hv
      have h₂ := hw v (by rw [happ]; simp [hv])
      omega
    rw [happ, hnil, List.nil_append]

theorem forcedSplits_wedged (h : Relation.ReflTransGen (ForcedSplit i) T T₁) (hs : Sorted (baseFor i T).vals)
    (hw : Wedged i (baseFor i T).vals) : (baseFor i T₁).vals = (baseFor i T).vals := by
  induction h with
  | refl => rfl
  | tail _ hlast ih => rw [hlast.wedged (ih ▸ hs) (ih ▸ hw), ih]

/-- Any other split keeps the order, and makes room. -/
theorem ForcedSplit.ordered (hlt : ∀ a b, a < b → R a b) (hle : ∀ a b, R a b → a ≤ b) (h : ForcedSplit i T T')
    (ho : Ordered R T) (hw : ¬ Wedged i (baseFor i T).vals) : Ordered R T' := by
  obtain ⟨_, l, r, t, rfl, hsplit⟩ := h
  have hkey := hsplit.key_eq ho.baseFor_sorted
  obtain ⟨⟨x, hx, hxle⟩, y, hy, hylt⟩ := not_wedged hw
  rw [← hkey] at hxle hylt
  have hfx := ho.fits_pathFor hle hx
  have hfy := ho.fits_pathFor hle hy
  rw [← plug_pathFor i T] at ho
  exact ho.split hle hsplit (fun q hq => hlt _ _ ((hfx.1 q hq).trans_le hxle))
    (fun q hq => hlt _ _ (hylt.trans_le (hfy.2 q hq)))

theorem ForcedSplit.room (h : ForcedSplit i T T') (ho : Ordered R T) (hw : ¬ Wedged i (baseFor i T).vals) :
    (baseFor i T').vals.length < (baseFor i T).vals.length := by
  obtain ⟨_, l, r, t, rfl, hsplit⟩ := h
  have hs := ho.baseFor_sorted (i := i)
  have happ := hsplit.append
  have hkey := hsplit.key_eq hs
  obtain ⟨⟨x, hx, hxle⟩, y, hy, hylt⟩ := not_wedged hw
  rw [← hkey] at hxle hylt
  have hsum := congrArg List.length happ
  rw [List.length_append] at hsum
  rw [baseFor_split, hsum]
  have hmem : ∀ v, v ∈ (baseFor i T).vals → v ∈ l.vals ∨ v ∈ t.vals := fun v hv => by
    rw [happ] at hv
    exact List.mem_append.mp hv
  split_ifs with hi
  · have hyt : y ∈ t.vals := by
      rcases hy with rfl | hy
      · omega
      · refine (hmem y hy).resolve_left fun hl => ?_
        have := hsplit.left_le hs y hl
        omega
    have := List.length_pos_of_mem hyt
    omega
  · have hxl : x ∈ l.vals := by
      rcases hx with rfl | hx
      · omega
      · refine (hmem x hx).resolve_right fun ht => ?_
        have := hsplit.right_gt hs x ht
        omega
    have := List.length_pos_of_mem hxl
    omega

/-- Splits that end with room where the search ends have met no wedged base node, so they keep what
all other splits keep. -/
theorem forcedSplits_keep {I : Tree → Prop} (hsorted : ∀ T, I T → Sorted (baseFor i T).vals)
    (hI : ∀ T T', ForcedSplit i T T' → ¬ Wedged i (baseFor i T).vals → I T → I T')
    (h : Relation.ReflTransGen (ForcedSplit i) T T₁) (hroom : (baseFor i T₁).vals.length < TREAP_NODES) (hT : I T) :
    I T₁ := by
  induction h using Relation.ReflTransGen.head_induction_on with
  | refl => exact hT
  | head hfirst hrest ih =>
      rename_i T T'
      have hw : ¬ Wedged i (baseFor i T).vals := by
        intro hw
        have h₁ := forcedSplits_wedged (hrest.head hfirst) (hsorted T hT) hw
        have h₂ := hfirst.1
        rw [h₁] at hroom
        omega
      exact ih (hI T T' hfirst hw hT)

theorem forcedSplits_ordered (hlt : ∀ a b, a < b → R a b) (hle : ∀ a b, R a b → a ≤ b)
    (h : Relation.ReflTransGen (ForcedSplit i) T T₁) (hroom : (baseFor i T₁).vals.length < TREAP_NODES)
    (ho : Ordered R T) : contents T₁ = contents T ∧ Ordered R T₁ := by
  apply forcedSplits_keep (I := fun T' => contents T' = contents T ∧ Ordered R T') _ _ h hroom ⟨rfl, ho⟩
  · rintro T ⟨_, ho⟩
    exact ho.baseFor_sorted
  · rintro T T' hsplit hw ⟨hc, ho⟩
    exact ⟨hsplit.contents_eq.trans hc, hsplit.ordered hlt hle ho hw⟩

/-- The key of such a split leads to its route node. -/
theorem ForcedSplit.searchable (h : ForcedSplit i T T') (ho : Ordered (· ≤ ·) T) (hw : ¬ Wedged i (baseFor i T).vals)
    (hk : Searchable Route.key T) : Searchable Route.key T' := by
  obtain ⟨_, l, r, t, rfl, hsplit⟩ := h
  have hkey := hsplit.key_eq ho.baseFor_sorted
  obtain ⟨⟨x, hx, hxle⟩, y, hy, hylt⟩ := not_wedged hw
  rw [← hkey] at hxle hylt
  have hfx := ho.fits_pathFor (fun _ _ h => h) hx
  have hfy := ho.fits_pathFor (fun _ _ h => h) hy
  rw [← plug_pathFor i T] at hk
  apply hk.graft (u := node (leaf l) r (leaf t)) ⟨searchable_leaf l, searchable_leaf t, by simp, by simp⟩
  intro c hc
  right
  intro G hG
  have hc : c = r := by simpa using hc
  subst hc
  cases hs : G.side with
  | left =>
      have := hfy.2 _ (mem_itemsAfter_of_frame hG hs)
      simp only [true_iff]
      omega
  | right =>
      have := hfx.1 _ (mem_itemsBefore_of_frame hG hs)
      simp only [reduceCtorEq, false_iff]
      omega

/-! ### Updates -/

theorem Inserted.spec {vs vs' : List ℤ} {res : Bool} (h : Inserted i vs vs' res) (hs : Sorted vs) :
    (vs' : Multiset ℤ) = i ::ₘ vs ∧ Sorted vs' := by
  obtain ⟨_, as, bs, rfl, rfl, ho⟩ := h
  obtain ⟨hle, hlt⟩ := ho hs
  refine ⟨Multiset.coe_eq_coe.mpr List.perm_middle, ?_⟩
  obtain ⟨has, hbs, hcross⟩ := List.pairwise_append.mp hs
  refine List.pairwise_append.mpr
    ⟨has, List.pairwise_cons.mpr ⟨fun x hx => (hlt x hx).le, hbs⟩, fun x hx y hy => ?_⟩
  rcases List.mem_cons.mp hy with rfl | hy
  · exact hle x hx
  · exact hcross x hx y hy

theorem Removed.spec {vs vs' : List ℤ} {res : Bool} (h : Removed i vs vs' res) (hs : Sorted vs) :
    (res = true ↔ i ∈ vs) ∧ (vs' : Multiset ℤ) = (vs : Multiset ℤ).erase i ∧ Sorted vs' := by
  rcases h with ⟨rfl, as, bs, rfl, rfl⟩ | ⟨rfl, rfl, hnot⟩
  · have hperm : ((as ++ i :: bs : List ℤ) : Multiset ℤ) = i ::ₘ (as ++ bs : List ℤ) :=
      Multiset.coe_eq_coe.mpr List.perm_middle
    have hsub : (as ++ bs).Sublist (as ++ i :: bs) := List.Sublist.append_left (List.sublist_cons_self _ _) _
    exact ⟨by simp, by rw [hperm, Multiset.erase_cons_head], hs.sublist hsub⟩
  · exact ⟨by simp [hnot hs], (Multiset.erase_of_notMem (by simpa using hnot hs)).symm, hs⟩

/-- What an update that returns does to the values of a tree in order. -/
theorem Updated.spec {P : List ℤ → List ℤ → Bool → Prop} {res : Bool} (hlt : ∀ a b, a < b → R a b)
    (hle : ∀ a b, R a b → a ≤ b) (h : Updated i P T res T') (ho : Ordered R T)
    (hP : ∀ vs vs', P vs vs' res → Sorted vs → Sorted vs' ∧ ∀ v ∈ vs', v ∈ vs ∨ v = i) :
    ∃ T₁ b', contents T₁ = contents T ∧ Ordered R T₁ ∧ P (baseFor i T₁).vals b'.vals res ∧ Ordered R T' ∧
      contents T' = contents (plug (pathFor i T₁) (leaf b')) := by
  obtain ⟨T₁, b', hsplits, hroom, hb', hR⟩ := h
  obtain ⟨hc, ho₁⟩ := forcedSplits_ordered hlt hle hsplits hroom ho
  obtain ⟨hs', hv⟩ := hP _ _ hb' ho₁.baseFor_sorted
  have hset : Ordered R (plug (pathFor i T₁) (leaf b')) := by
    refine Ordered.set (b := baseFor i T₁) ?_ hs' fun v hm => (hv v hm).imp id fun he => ho₁.fits_pathFor hle (.inl he)
    rwa [plug_pathFor]
  obtain ⟨hc', ho'⟩ := rearranges_star (R := R) hR
  exact ⟨T₁, b', hc, ho₁, hb', ho' hset, hc'⟩

/-- The keys find their route nodes after an update that returns. -/
theorem Updated.searchable {P : List ℤ → List ℤ → Bool → Prop} {res : Bool} (h : Updated i P T res T')
    (ho : Ordered (· ≤ ·) T) (hk : Searchable Route.key T) : Searchable Route.key T' := by
  obtain ⟨T₁, b', hsplits, hroom, _, hR⟩ := h
  apply rearranges_searchable hR
  obtain ⟨_, hk₁⟩ := forcedSplits_keep (I := fun T => Ordered (· ≤ ·) T ∧ Searchable Route.key T)
    (fun T hT => hT.1.baseFor_sorted)
    (fun T T' hsplit hw hT => ⟨hsplit.ordered (fun _ _ => le_of_lt) (fun _ _ h => h) hT.1 hw, hsplit.searchable hT.1 hw hT.2⟩)
    hsplits hroom ⟨ho, hk⟩
  rw [← plug_pathFor i T₁] at hk₁
  exact hk₁.setLeaf b'

theorem Updated.insert {res : Bool} (hlt : ∀ a b, a < b → R a b) (hle : ∀ a b, R a b → a ≤ b)
    (h : Updated i (Inserted i) T res T') (ho : Ordered R T) : contents T' = i ::ₘ contents T ∧ Ordered R T' := by
  obtain ⟨T₁, b', hc, ho₁, hb', ho', hc'⟩ := h.spec hlt hle ho fun vs vs' hP hs => by
    obtain ⟨hv, hs'⟩ := hP.spec hs
    refine ⟨hs', fun v hm => ?_⟩
    have hm' : v ∈ (vs' : Multiset ℤ) := hm
    rw [hv, Multiset.mem_cons, Multiset.mem_coe] at hm'
    exact hm'.symm
  refine ⟨?_, ho'⟩
  rw [hc', ← hc]
  conv_rhs => rw [← plug_pathFor i T₁]
  simp only [contents_plug, total_leaf, Base.values]
  rw [(hb'.spec ho₁.baseFor_sorted).1, Multiset.cons_add]

theorem Updated.remove {res : Bool} (hlt : ∀ a b, a < b → R a b) (hle : ∀ a b, R a b → a ≤ b)
    (h : Updated i (Removed i) T res T') (ho : Ordered R T) :
    (res = true ↔ i ∈ contents T) ∧ contents T' = (contents T).erase i ∧ Ordered R T' := by
  obtain ⟨T₁, b', hc, ho₁, hb', ho', hc'⟩ := h.spec hlt hle ho fun vs vs' hP hs => by
    obtain ⟨_, hv, hs'⟩ := hP.spec hs
    refine ⟨hs', fun v hm => .inl ?_⟩
    have hm' : v ∈ (vs' : Multiset ℤ) := hm
    rw [hv] at hm'
    exact Multiset.mem_of_mem_erase hm'
  obtain ⟨hres, hv, _⟩ := hb'.spec ho₁.baseFor_sorted
  have hmem := ho₁.mem_baseFor_iff (i := i)
  rw [hc] at hmem
  refine ⟨hres.trans hmem, ?_, ho'⟩
  have hT₁ : contents T₁ = (baseFor i T₁).values + ((ctxLeaves (pathFor i T₁)).map Base.values).sum := by
    conv_lhs => rw [← plug_pathFor i T₁]
    rw [contents_plug, contents_leaf]
  rw [hc', contents_plug, contents_leaf, Base.values, hv, ← hc]
  rcases em (i ∈ (baseFor i T₁).vals) with hi | hi
  · rw [hT₁, Multiset.erase_add_left_pos _ hi]
  · rw [Multiset.erase_of_notMem (show i ∉ contents T₁ by rw [hc]; exact fun h => hi (hmem.mpr h)), hT₁,
      Multiset.erase_of_notMem (by simpa using hi)]

end Lfca

end LockFreeSearchTree
