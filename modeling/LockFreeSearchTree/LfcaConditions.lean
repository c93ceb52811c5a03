import LockFreeSearchTree.LfcaRuns

/-! # What one thread may rely on

The conditions under which searches, range queries and updates of one thread do what they should.

* **Searches** find every value as long as no base node is split at a key above one on whose left it
  is (`Overshoots`): the median of two equal negative odd values is above them (`runs_visible`).
* **Range queries** return the values in their range unless the lower bound is a stored value that
  is also the key of a route node: the search for the first base node goes right at this key
  (`rangeQuery_exact_iff`).
* **Updates** return unless the search ends in a full base node whose median separates neither its
  values nor the value of the update from them (`update_returns_iff`). -/

namespace LockFreeSearchTree

open BinTree Concurrent Concurrent.Prog Transition

namespace Lfca

variable {s s' s₀ : Shared} {T T' : Tree} {C : Path} {b : Base} {i : ℤ} {p : Ptr}

/-! ### Searches -/

/-- The values of a base node in order. -/
def sortedAt (s : Shared) (p : Ptr) : List ℤ :=
  match (s.nodes p).data with
  | some t => t.sortedValues
  | none => []

/-- `find_base_node` leads from the root to `p`. -/
def Finds (s : Shared) (v : ℤ) (p : Ptr) : Prop := ∃ fuel s', (findBaseNode fuel s.root v).run exec s = .ok (p, s')

theorem BaseAt.sortedAt {q : Ptr} (h : BaseAt s b q) (ho : Sorted b.vals) : sortedAt s b.ptr = b.vals := by
  obtain ⟨t, ht, hst⟩ := h.stores
  rw [Lfca.sortedAt, ht]
  exact hst.sortedValues ho

theorem Shape.finds_iff (h : Shape s T) : Finds s i p ↔ p = (baseFor i T).ptr := by
  constructor
  · rintro ⟨fuel, s', hrun⟩
    rw [h.root] at hrun
    exact (findBaseNode_meets (F := fun _ => True) (Q := fun p _ => p = (baseFor i T).ptr) h.links (.inl trivial)
      rfl).of_run hrun
  · rintro rfl
    obtain ⟨p, s', hrun, rfl⟩ := (findBaseNode_meets (F := fun _ => False) (Q := fun p _ => p = (baseFor i T).ptr)
      h.links (.inr (Nat.lt_succ_self _)) rfl).returns
    exact ⟨_, s', h.root ▸ hrun⟩

theorem Shape.mem_contents_iff {v : ℤ} (h : Shape s T) : v ∈ contents T ↔ ∃ q, IsBase s q ∧ v ∈ valuesAt s q := by
  rw [mem_total]
  constructor
  · rintro ⟨b, hb, hv⟩
    obtain ⟨_, hb'⟩ := h.base_of_mem hb
    exact ⟨b.ptr, h.isBase_iff.mpr ⟨b, hb, rfl⟩, hb'.valuesAt ▸ hv⟩
  · rintro ⟨q, hq, hv⟩
    obtain ⟨b, hb, rfl⟩ := h.isBase_iff.mp hq
    obtain ⟨_, hb'⟩ := h.base_of_mem hb
    exact ⟨b, hb, hb'.valuesAt ▸ hv⟩

/-- The search for a value leads to a base node that holds it if some base node in the tree does. -/
def Visible (s : Shared) : Prop :=
  ∀ v, (∃ p, Finds s v p) ∧ ∀ p, Finds s v p → (v ∈ valuesAt s p ↔ ∃ q, IsBase s q ∧ v ∈ valuesAt s q)

theorem visible_of_ordered {R : ℤ → ℤ → Prop} (h : Shape s T) (ho : Ordered R T) : Visible s := by
  intro v
  refine ⟨⟨_, h.finds_iff.mpr rfl⟩, fun p hp => ?_⟩
  rw [h.finds_iff.mp hp]
  obtain ⟨_, hb⟩ := h.base_of_mem (b := baseFor v T) (seek_mem _ T)
  rw [hb.valuesAt, ← h.mem_contents_iff]
  exact ho.mem_baseFor_iff

/-- The two middle values of the base node at `p` are equal, negative and odd, and are the key of a
route node with `p` on its left: the key of a split would be above this key. -/
def Overshoots (s : Shared) (p : Ptr) : Prop :=
  let vs := sortedAt s p
  2 ≤ vs.length ∧ vs.length % 2 = 0 ∧ ∃ a, vs.getD (vs.length / 2 - 1) 0 = a ∧ vs.getD (vs.length / 2) 0 = a ∧
    a < 0 ∧ a % 2 = 1 ∧ ∃ q, IsRoute s q ∧ (s.nodes q).key = a ∧ Below s (s.nodes q).left p

/-- The step does not split such a base node for contention. -/
def Harmless (s : Shared) : Act → Prop
  | .high p => ¬ Overshoots s p
  | _ => True

/-- A base node on the left of a route node. -/
theorem Shape.below_left (h : Shape s (plug C (leaf b))) {G : Frame Base Route} (hG : G ∈ C) (hs : G.side = .left) :
    IsRoute s G.label.ptr ∧ (s.nodes G.label.ptr).key = G.label.key ∧ Below s (s.nodes G.label.ptr).left b.ptr := by
  obtain ⟨C₁, C₂, rfl⟩ := List.append_of_mem hG
  obtain ⟨d, r, t⟩ := G
  cases hs
  rw [plug_append, plug_cons, on_left] at h
  obtain ⟨hr, hl, _⟩ := (shape_plug.mp h).2.1
  have hnear : (s.nodes r.ptr).left = top (plug C₁ (leaf b)) := hr.near
  refine ⟨h.isRoute_iff.mpr ⟨r, mem_labels_plug.mpr (.inl (by simp)), rfl⟩, hr.key, ?_⟩
  show Below s (s.nodes r.ptr).left b.ptr
  rw [hnear]
  exact hl.below (mem_ptrs_of_leaf (mem_leaves_plug.mpr (.inl (by simp))))

/-- A step that meets the condition keeps the keys in order. -/
theorem Changes.ordered {l : Act × Result} (h : Changes T l T') (hs : Shape s T) (hl : Harmless s l.1)
    (ho : Ordered (· ≤ ·) T) : Ordered (· ≤ ·) T' := by
  obtain ⟨a, r⟩ := l
  cases a with
  | call c => exact (Changes.call (l := (c, r)) (fun _ _ => le_of_lt) (fun _ _ h => h) h ho).1
  | low p => exact (rearranges_star (R := (· ≤ ·)) h).2 ho
  | high p =>
      rcases h with rfl | ⟨C, b, l, r, t, rfl, rfl, hlen, rfl, hsplit⟩
      · exact ho
      have hb := ho.leaf_sorted
      have hfits : ∀ v ∈ b.vals, Fits Route.key v C := fun v hv => ho.routed.fits hv
      refine ho.split (fun _ _ h => h) hsplit (fun q hq => ?_) (fun q hq => ?_) <;> rw [hsplit.key_eq hb]
      · exact le_medianOf hb hlen fun v hv => (hfits v hv).1 q hq
      · refine medianOf_le hb hlen (fun v hv => (hfits v hv).2 q hq) fun ⟨heven, h₁, h₂, hneg, hodd⟩ => hl ?_
        -- the nearest key on the right is the middle value, too
        obtain ⟨G, hG, hside, hle⟩ := ho.routed.exists_frame_after (fun _ _ h => h) hq
        have hroute := hs.below_left hG hside
        have hmid : q.key ≤ G.label.key := by
          rw [← h₂]
          exact (hfits _ (getD_mem (by omega))).2 G.label (mem_itemsAfter_of_frame hG hside)
        have hkey : (s.nodes G.label.ptr).key = q.key := hroute.2.1.trans (le_antisymm hle hmid)
        unfold Overshoots
        rw [hs.base.sortedAt hb]
        exact ⟨hlen, heven, q.key, h₁, h₂, hneg, hodd, G.label.ptr, hroute.1, hkey, hroute.2.2⟩

/-- In the runs whose steps meet the condition, every search finds what is stored. -/
theorem runs_visible {ls : List (Act × Result)} (hi : Initial s₀)
    (h : Run (fun s l s' => Steps s l s' ∧ Harmless s l.1) s₀ ls s) : Visible s := by
  obtain ⟨T, hT, ho⟩ := h.invariant (I := fun s => ∃ T, Clean s T ∧ Ordered (· ≤ ·) T)
    (fun s l s' ⟨T, hT, ho⟩ ⟨hstep, hl⟩ => by
      obtain ⟨_, T', hT', hch⟩ := hstep.changes hT
      exact ⟨T', hT', hch.ordered hT.shape hl ho⟩) ⟨_, hi.clean, ordered_initial⟩
  exact visible_of_ordered hT.shape ho

/-- The root is split after two insertions. -/
theorem runs_visible_split :
    Visible (after (afterAll start [.insert 5, .insert 7]) (.high (afterAll start [.insert 5, .insert 7]).root)) := by
  have hsorted : sortedAt (afterAll start [.insert 5, .insert 7]) (afterAll start [.insert 5, .insert 7]).root = [5, 7] := by
    decide +kernel
  have hsplit : Harmless (afterAll start [.insert 5, .insert 7]) (.high (afterAll start [.insert 5, .insert 7]).root) := by
    rintro ⟨_, _, a, h₁, h₂, _⟩
    rw [hsorted] at h₁ h₂
    simp only [List.length_cons, List.length_nil, List.getD_cons_zero, Nat.reduceAdd, Nat.reduceDiv, Nat.reduceSub,
      List.getD_cons_succ] at h₁ h₂
    omega
  have hbase : IsBase (afterAll start [.insert 5, .insert 7]) (afterAll start [.insert 5, .insert 7]).root :=
    ⟨.refl, by decide +kernel⟩
  exact runs_visible start_initial (.snoc (.snoc (.snoc .nil
    ⟨steps_after (a := .call (.insert 5)) (r := .void) trivial (by decide +kernel), trivial⟩)
    ⟨steps_after (a := .call (.insert 7)) (r := .void) trivial (by decide +kernel), trivial⟩)
    ⟨steps_after (r := .void) hbase (by decide +kernel), hsplit⟩)

/-- Where `find_base_node` leads with some fuel. -/
def found (s : Shared) (v : ℤ) : Option Ptr :=
  match (findBaseNode 40 s.root v).run exec s with
  | .ok (p, _) => some p
  | .error _ => none

theorem finds_found {v : ℤ} (h : found s v = some p) : Finds s v p := by
  unfold found at h
  rcases hrun : (findBaseNode 40 s.root v).run exec s with e | ⟨q, s'⟩ <;> rw [hrun] at h
  · cases h
  · cases h
    exact ⟨40, s', hrun⟩

/-- The tree after the insertion of -3, -3 and -2; then its only base node is split at -3 and the left
one of the two at -2, and the right one of the first two is joined with the empty base node between
the keys. -/
def hidden : ℕ → Shared
  | 0 => afterAll start [.insert (-3), .insert (-3), .insert (-2)]
  | 1 => after (hidden 0) (.high (hidden 0).root)
  | 2 => after (hidden 1) (.high (((hidden 1).nodes (hidden 1).root).get (.child .left)))
  | n + 3 => after (hidden (n + 2)) (.low (((hidden (n + 2)).nodes (hidden (n + 2)).root).get (.child .right)))

/-- The search for -2 goes to the left of both keys, the value is on their right. -/
theorem visible_fails_join : ∃ s₀ s ls, Initial s₀ ∧ Run Steps s₀ ls s ∧ ¬ Visible s := by
  have hbase : ∀ k d, ((hidden k).nodes (hidden k).root).get (.child d) ≠ nullptr →
      ((hidden k).nodes (((hidden k).nodes (hidden k).root).get (.child d))).type ≠ .route →
      IsBase (hidden k) (((hidden k).nodes (hidden k).root).get (.child d)) := fun k d hc ht => ⟨.child d .refl hc, ht⟩
  have hcalls : Run Returns start [(.insert (-3), .void), (.insert (-3), .void), (.insert (-2), .void)] (hidden 0) :=
    show Run Returns start _ (afterAll start [.insert (-3), .insert (-3), .insert (-2)]) from
      run_afterAll (by decide +kernel)
  have h₁ : Steps (hidden 0) (.high (hidden 0).root, .void) (hidden 1) :=
    steps_after ⟨.refl, by decide +kernel⟩ (by decide +kernel)
  have h₂ : Steps (hidden 1) (.high (((hidden 1).nodes (hidden 1).root).get (.child .left)), .void) (hidden 2) :=
    steps_after (hbase 1 .left (by decide +kernel) (by decide +kernel)) (by decide +kernel)
  have h₃ : Steps (hidden 2) (.low (((hidden 2).nodes (hidden 2).root).get (.child .right)), .void) (hidden 3) :=
    steps_after (hbase 2 .right (by decide +kernel) (by decide +kernel)) (by decide +kernel)
  refine ⟨start, hidden 3, _, start_initial,
    (((hcalls.relabel fun _ _ _ => Returns.steps).snoc h₁).snoc h₂).snoc h₃, fun hv => ?_⟩
  have hright := hbase 3 .right (by decide +kernel) (by decide +kernel)
  have hfinds := finds_found (show found (hidden 3) (-2) = some (((hidden 3).nodes (hidden 3).root).get (.child .left)) by
    decide +kernel)
  exact absurd (((hv (-2)).2 _ hfinds).mpr ⟨_, hright, by decide +kernel⟩) (by decide +kernel)

/-! ### Range queries -/

/-- Nothing the pools hand out runs out. -/
def Unlimited (s : Shared) : Prop := ∀ x, ¬ s.pools.Throws x

theorem Unlimited.admits (h : Unlimited s) : Admits (fun _ => False) s := h

theorem Unlimited.extends (h : Unlimited s) (he : s.Extends s') : Unlimited s' := fun x hx => h x (he.pools.throws.mp hx)

theorem start_unlimited : Unlimited start := by
  rintro x (⟨_, h⟩ | ⟨_, h⟩ | ⟨_, h⟩) <;> cases h

theorem runs_unlimited {ls : List (Call × Result)} (hi : Initial s₀) (hu : Unlimited s₀) (h : Run Returns s₀ ls s) :
    ∃ T, Good s T ∧ Unlimited s :=
  h.invariant (I := fun s => ∃ T, Good s T ∧ Unlimited s)
    (fun _ _ _ ⟨_, hT, hu⟩ hstep => by
      obtain ⟨he, T', hT', _⟩ := hT.step hstep
      exact ⟨T', hT', hu.extends he⟩) ⟨_, ⟨hi.clean, ordered_initial⟩, hu⟩

theorem contents_eq_flatten (T : Tree) : contents T = ((T.leaves.map Base.vals).flatten : List ℤ) := by
  induction T with
  | leaf b => simp
  | node l r t ihl iht =>
      rw [leaves_node, List.map_append, List.flatten_append, ← Multiset.coe_add, ← ihl, ← iht]
      exact total_node _ l r t

/-- The values before the first base node of a range query are at most `lo`, and it holds `lo`
itself exactly if `lo` is a stored value and a key. -/
theorem before_firstPath (lo : ℤ) (h : Strict T) :
    (∀ b ∈ leavesBefore (firstPath lo T), ∀ v ∈ b.vals, v ≤ lo) ∧
      ((∃ b ∈ leavesBefore (firstPath lo T), lo ∈ b.vals) ↔ (∃ r ∈ T.labels, r.key = lo) ∧ lo ∈ contents T) := by
  have hplug : plug (firstPath lo T) (leaf (firstBase lo T)) = T := plug_descend _ T []
  have hfollows : Follows (fun r : Route => lo < r.key) (firstPath lo T) := follows_descend (fun _ h => by cases h)
  have hle : ∀ a b : ℤ, a < b → a ≤ b := fun _ _ => le_of_lt
  rw [← hplug] at h
  have hbefore : ∀ q, .inr q ∈ itemsBefore (firstPath lo T) → q.key ≤ lo := fun q hq => by
    obtain ⟨G, hG, hs, hkey⟩ := h.exists_frame_before hle hq
    have := mt (hfollows G hG).mpr (by rw [hs]; decide)
    omega
  have hafter : ∀ q, .inr q ∈ itemsAfter (firstPath lo T) → lo < q.key := fun q hq => by
    obtain ⟨G, hG, hs, hkey⟩ := h.exists_frame_after hle hq
    exact ((hfollows G hG).mp hs).trans_le hkey
  have hkey : ∀ b ∈ leavesBefore (firstPath lo T), ∃ q, .inr q ∈ itemsBefore (firstPath lo T) ∧ ∀ v ∈ b.vals, v ≤ q.key :=
    fun b hb => h.exists_key_before (inl_mem_itemsBefore.mpr hb)
  refine ⟨fun b hb v hv => ?_, ?_, ?_⟩
  · obtain ⟨q, hq, hle'⟩ := hkey b hb
    exact (hle' v hv).trans (hbefore q hq)
  · rintro ⟨b, hb, hlo⟩
    obtain ⟨q, hq, hle'⟩ := hkey b hb
    refine ⟨⟨q, ?_, le_antisymm (hbefore q hq) (hle' lo hlo)⟩, mem_total.mpr ⟨b, ?_, hlo⟩⟩
    · rw [← hplug, ← inr_mem_items, items_plug]
      exact List.mem_append_left _ (List.mem_append_left _ hq)
    · rw [← hplug, leaves_plug]
      exact List.mem_append_left _ (List.mem_append_left _ hb)
  · rintro ⟨⟨q, hq, rfl⟩, hlo⟩
    obtain ⟨b, hb, hv⟩ := mem_total.mp hlo
    refine ⟨b, ?_, hv⟩
    rw [← hplug, ← inr_mem_items, items_plug, List.append_assoc, List.mem_append] at hq
    rw [← hplug, ← inl_mem_items, items_plug, List.append_assoc, List.mem_append] at hb
    -- the key is before the first base node, and the value before the key
    have hq' : .inr q ∈ itemsBefore (firstPath q.key T) := hq.resolve_right fun hq => by
      rcases List.mem_append.mp hq with hq | hq
      · simp at hq
      · exact lt_irrefl _ (hafter q hq)
    refine inl_mem_itemsBefore.mp (hb.resolve_right fun hb => ?_)
    have hpair := routed_plug.mp h
    rw [List.append_assoc, List.pairwise_append] at hpair
    exact lt_irrefl _ (hpair.2.2 _ hq' _ hb q.key hv)

/-- What a range query returns is all of the range exactly if no value is before its first base
node. -/
theorem Good.scanned_iff {lo hi : ℤ} {values : List ℤ} (h : Good s T) (hle : lo ≤ hi)
    (hscan : Scanned lo hi ((leavesBefore (firstPath lo T)).map Base.vals) (T.leaves.map Base.vals) values) :
    (values : Multiset ℤ) = (contents T).filter (fun v => lo ≤ v ∧ v ≤ hi) ↔
      ¬ ((∃ r ∈ T.labels, r.key = lo) ∧ lo ∈ contents T) := by
  obtain ⟨hbefore, hiff⟩ := before_firstPath lo h.ordered.routed
  obtain ⟨scanned, rest, hvss, hvalues, hrest⟩ := hscan
  have hsorted : ∀ vs ∈ T.leaves.map Base.vals, Sorted vs := fun vs hvs => by
    obtain ⟨b, hb, rfl⟩ := List.mem_map.mp hvs
    exact h.ordered.sorted b hb
  have hpair : (T.leaves.map Base.vals).Pairwise (fun as cs => ∀ v ∈ as, ∀ w ∈ cs, v < w) :=
    List.pairwise_map.mpr h.ordered.routed.leaves
  rw [hvss] at hsorted hpair
  -- the values after the last base node are above the range
  have hrest' : (rest.flatten : Multiset ℤ).filter (fun v => lo ≤ v ∧ v ≤ hi) = 0 := by
    rcases hrest with rfl | ⟨vs, hvs, v, hv, hhi⟩
    · rfl
    · refine Multiset.filter_eq_nil.mpr fun w hw hrange => ?_
      obtain ⟨ws, hws, hw⟩ := List.mem_flatten.mp (Multiset.mem_coe.mp hw)
      have := (List.pairwise_append.mp hpair).2.2 vs (List.mem_append_right _ (List.mem_of_mem_getLast? hvs)) ws hws v
        (List.mem_of_mem_getLast? hv) w hw
      omega
  rw [← hiff, hvalues fun vs hvs => hsorted vs (by simp [hvs]), contents_eq_flatten, hvss, List.flatten_append,
    List.flatten_append, ← Multiset.coe_add, ← Multiset.coe_add, Multiset.filter_add, Multiset.filter_add, hrest', add_zero,
    eq_comm, add_eq_right, Multiset.filter_eq_nil]
  constructor
  · rintro hnone ⟨b, hb, hlo⟩
    exact hnone lo (Multiset.mem_coe.mpr (List.mem_flatten.mpr ⟨_, List.mem_map.mpr ⟨b, hb, rfl⟩, hlo⟩)) ⟨le_rfl, hle⟩
  · intro hnone v hv hrange
    obtain ⟨vs, hvs, hv⟩ := List.mem_flatten.mp (Multiset.mem_coe.mp hv)
    obtain ⟨b, hb, rfl⟩ := List.mem_map.mp hvs
    exact hnone ⟨b, hb, le_antisymm (hbefore b hb v hv) hrange.1 ▸ hv⟩

theorem Good.rangeQuery_returns {lo hi : ℤ} (h : Good s T) (hu : Unlimited s) :
    ∃ values s', Returns s (.rangeQuery lo hi, .vector values) s' := by
  have hmeets : Meets exec (fun _ => False) (rangeQuery (2 * T.leaves.length + T.height + 4) lo hi) s (fun _ _ => True) :=
    rangeQuery_meets h.clean hu.admits (.inr ⟨h.ordered.routed, Nat.lt_succ_self _⟩) fun _ _ _ _ _ _ _ => trivial
  obtain ⟨values, s', hrun, _⟩ := hmeets.returns
  refine ⟨values, s', 2 * T.leaves.length + T.height + 4, ?_⟩
  simp only [body, run_bind, hrun]
  rfl

/-- A range query returns, and what it returns is exactly the stored values in the range unless the
lower bound is a stored value and the key of a route node. -/
theorem rangeQuery_exact_iff {ls : List (Call × Result)} {lo hi : ℤ} {ms : Multiset ℤ} (hinit : Initial s₀)
    (h : Run Returns s₀ ls s) (hms : Holds s ms) (hle : lo ≤ hi) :
    (Unlimited s₀ → ∃ values s', Returns s (.rangeQuery lo hi, .vector values) s') ∧
      ∀ values s', Returns s (.rangeQuery lo hi, .vector values) s' →
        ((values : Multiset ℤ) = ms.filter (fun v => lo ≤ v ∧ v ≤ hi) ↔
          ¬ ((∃ q, IsRoute s q ∧ (s.nodes q).key = lo) ∧ lo ∈ ms)) := by
  obtain ⟨T, hT⟩ := runs_good hinit h
  rw [hT.clean.shape.holds_iff.mp hms]
  refine ⟨fun hu => ?_, fun values s' hret => ?_⟩
  · obtain ⟨T', hT', hu'⟩ := runs_unlimited hinit hu h
    exact hT'.rangeQuery_returns hu'
  · obtain ⟨_, T', _, values', hv, _, hscan⟩ := hret.steps.changes hT.clean
    cases hv
    have hroute : (∃ q, IsRoute s q ∧ (s.nodes q).key = lo) ↔ ∃ r ∈ T.labels, r.key = lo := by
      constructor
      · rintro ⟨q, hq, hkey⟩
        obtain ⟨r, hr, rfl⟩ := hT.clean.shape.isRoute_iff.mp hq
        obtain ⟨_, _, hr'⟩ := hT.clean.shape.route_of_mem hr
        exact ⟨r, hr, hr'.key.symm.trans hkey⟩
      · rintro ⟨r, hr, hkey⟩
        obtain ⟨_, _, hr'⟩ := hT.clean.shape.route_of_mem hr
        exact ⟨r.ptr, hT.clean.shape.isRoute_iff.mpr ⟨r, hr, rfl⟩, hr'.key.trans hkey⟩
    rw [hroute]
    exact hT.scanned_iff hle (hscan hT.ordered.routed)

set_option maxRecDepth 100000 in
/-- The insertions of 0, 1, ..., 64 split the tree at 31; a range query from 29 to 33 reads two base nodes. -/
theorem bulk_outcomes : (results start bulk).isSome = true ∧
    (outcome (afterAll start bulk) (.call (.rangeQuery 29 33))).1 = some (.vector [29, 30, 31, 32, 33]) ∧
    (outcome (afterAll start bulk) (.call (.rangeQuery 31 31))).1 = some (.vector []) ∧
    ((afterAll start bulk).nodes (afterAll start bulk).root).get (.child .left) ≠ nullptr ∧
    ((afterAll start bulk).nodes (((afterAll start bulk).nodes (afterAll start bulk).root).get (.child .left))).type ≠ .route ∧
    31 ∈ valuesAt (afterAll start bulk) (((afterAll start bulk).nodes (afterAll start bulk).root).get (.child .left)) := by
  decide +kernel

theorem bulk_returns : ∃ ls, results start bulk = some ls := Option.isSome_iff_exists.mp bulk_outcomes.1

theorem rangeQuery_exact_iff_bulk : ∃ ms, Holds (afterAll start bulk) ms ∧
    ((([29, 30, 31, 32, 33] : List ℤ) : Multiset ℤ) = ms.filter (fun v => 29 ≤ v ∧ v ≤ 33) ↔
      ¬ ((∃ q, IsRoute (afterAll start bulk) q ∧ ((afterAll start bulk).nodes q).key = 29) ∧ 29 ∈ ms)) := by
  obtain ⟨_, hout, _⟩ := bulk_outcomes
  obtain ⟨ls, hls⟩ := bulk_returns
  obtain ⟨T, hT⟩ := runs_good start_initial (run_afterAll hls)
  exact ⟨_, hT.clean.shape.holds, (rangeQuery_exact_iff start_initial (run_afterAll hls) hT.clean.shape.holds (by decide)).2 _ _
    (steps_after (a := .call (.rangeQuery 29 33)) trivial hout).2⟩

set_option maxRecDepth 100000 in
/-- A range query for the key finds nothing. -/
theorem rangeQuery_fails_key : ∃ s₀ s ls ms, Initial s₀ ∧ Unlimited s₀ ∧ Run Returns s₀ ls s ∧ Holds s ms ∧
    ∃ lo hi values s', lo ≤ hi ∧ Returns s (.rangeQuery lo hi, .vector values) s' ∧
      (values : Multiset ℤ) ≠ ms.filter (fun v => lo ≤ v ∧ v ≤ hi) := by
  obtain ⟨_, _, hout, hchild, htype, hvalue⟩ := bulk_outcomes
  obtain ⟨ls, hls⟩ := bulk_returns
  obtain ⟨T, hT⟩ := runs_good start_initial (run_afterAll hls)
  have hmem : 31 ∈ contents T := hT.clean.shape.mem_contents_iff.mpr ⟨_, ⟨.child .left .refl hchild, htype⟩, hvalue⟩
  refine ⟨start, _, ls, _, start_initial, start_unlimited, run_afterAll hls, hT.clean.shape.holds, 31, 31, [], _, le_rfl,
    (steps_after (a := .call (.rangeQuery 31 31)) trivial hout).2, fun he => ?_⟩
  exact Multiset.notMem_zero _ (he.symm ▸ Multiset.mem_filter.mpr ⟨hmem, le_rfl, le_rfl⟩ : (31 : ℤ) ∈ (([] : List ℤ) : Multiset ℤ))

/-! ### Updates -/

/-- All of the 64 sorted values `vs` and `i` are on one side of the median of `vs`. -/
def Stalls (i : ℤ) (vs : List ℤ) : Prop :=
  let first := vs.getD 0 0
  let low := vs.getD 31 0
  let high := vs.getD 32 0
  let last := vs.getD 63 0
  vs.length = 64 ∧
    (first = high ∧ 0 < high ∧ high % 2 = 1 ∧ first ≤ i ∨
      low = last ∧ last % 2 = 0 ∧ i ≤ last ∨
      low = high ∧ high < 0 ∧ high % 2 = 1 ∧ last ≤ high + 1 ∧ i ≤ high + 1 ∨
      low < high ∧ high = last ∧ last ≤ 0 ∧ (low = last - 1 ∨ low = last - 2 ∧ last % 2 = 1) ∧ i ≤ last)

theorem stalls_iff {vs : List ℤ} (ho : Sorted vs) (hlen : vs.length = 64) : Stalls i vs ↔ Wedged i vs := by
  have h₁ := ho.getD_le (i := 0) (j := 31) (by omega) (by omega)
  have h₂ := ho.getD_le (i := 31) (j := 32) (by omega) (by omega)
  have h₃ := ho.getD_le (i := 32) (j := 63) (by omega) (by omega)
  have hleft : (∀ v ∈ i :: vs, v ≤ medianOf vs) ↔ i ≤ medianOf vs ∧ vs.getD 63 0 ≤ medianOf vs := by
    rw [List.forall_mem_cons]
    exact and_congr_right fun _ => ⟨fun h => h _ (getD_mem (by omega)), fun h v hv =>
      (show v ≤ vs.getD 63 0 by have := ho.le_last hv; rwa [hlen] at this).trans h⟩
  have hright : (∀ v ∈ i :: vs, medianOf vs < v) ↔ medianOf vs < i ∧ medianOf vs < vs.getD 0 0 := by
    rw [List.forall_mem_cons]
    exact and_congr_right fun _ => ⟨fun h => h _ (getD_mem (by omega)), fun h v hv => h.trans_le (ho.first_le hv)⟩
  unfold Wedged Stalls
  rw [hleft, hright]
  simp only [medianOf, hlen]
  norm_num only [if_true, true_and]
  generalize vs.getD 0 0 = first at *
  generalize vs.getD 31 0 = low at *
  generalize vs.getD 32 0 = high at *
  generalize vs.getD 63 0 = last at *
  rcases h₂.eq_or_lt with rfl | hlt
  · rcases middle_self low with ⟨_, h⟩ | ⟨_, _, h⟩ | ⟨_, _, h⟩ <;> rw [h] <;> omega
  · have := middle_of_lt hlt
    omega

theorem height_pathFor (i : ℤ) (T : Tree) {t : Tree} (h : t.height ≤ 1) : (plug (pathFor i T) t).height ≤ T.height + 1 := by
  conv_rhs => rw [← plug_pathFor i T]
  exact height_plug_le (pathFor i T) (by rw [height]; omega)

/-- The loop returns if the base node has room, or gets room when it is split. -/
theorem Good.doUpdateLoop_returns {u : Treap → ℤ → LfcaM (Treap × Bool)} {P : List ℤ → List ℤ → Bool → Prop}
    (hu : Applies u i P) (h : Good s T) (hpools : Unlimited s)
    (hw : TREAP_NODES ≤ (baseFor i T).vals.length → ¬ Wedged i (baseFor i T).vals) :
    ∃ fuel res s', (doUpdateLoop u i fuel .uncontened).run exec s = .ok (res, s') := by
  have hF := hpools.admits
  refine ⟨T.height + 4, ?_⟩
  have hmeets : Meets exec (fun _ => False) (doUpdateLoop u i (T.height + 4) .uncontened) s (fun _ _ => True) := by
    rcases lt_or_ge (baseFor i T).vals.length TREAP_NODES with hlt | hge
    · exact doUpdateLoop_room hu h.clean hlt (by decide) hF (.inr (by omega)) fun _ _ _ _ _ _ _ _ => trivial
    · refine doUpdateLoop_full h.clean hge hF (.inr (by omega)) fun s' T' he hs' hsplit => ?_
      have hroom := hsplit.room h.ordered (hw hge)
      obtain ⟨_, hb⟩ := h.clean.shape.base_of_mem (b := baseFor i T) (seek_mem _ T)
      obtain ⟨t, _, hst⟩ := hb.stores
      have hle := hst.length.trans_le hst.size_le
      have hheight : T'.height ≤ T.height + 1 := by
        obtain ⟨_, l, r, t, rfl, _⟩ := hsplit
        exact height_pathFor i T le_rfl
      exact doUpdateLoop_room hu hs' (hroom.trans_le hle) (by decide) (hF.extends he) (.inr (by omega))
        fun _ _ _ _ _ _ _ _ => trivial
  obtain ⟨res, s', hrun, _⟩ := hmeets.returns
  exact ⟨res, s', hrun⟩

/-- The loop does not return if the base node is full and stays so. -/
theorem Updated.not_wedged {P : List ℤ → List ℤ → Bool → Prop} {res : Bool} {R : ℤ → ℤ → Prop} (h : Updated i P T res T')
    (ho : Ordered R T) (hfull : TREAP_NODES ≤ (baseFor i T).vals.length) : ¬ Wedged i (baseFor i T).vals := by
  intro hw
  obtain ⟨T₁, _, hsplits, hroom, _⟩ := h
  rw [forcedSplits_wedged hsplits ho.baseFor_sorted hw] at hroom
  omega

/-- The loop of an update whose base node stays full goes on for ever. -/
theorem Good.doUpdateLoop_stalls {u : Treap → ℤ → LfcaM (Treap × Bool)} {P : List ℤ → List ℤ → Bool → Prop}
    (hu : Applies u i P) (h : Good s T) (hpools : Unlimited s) (hfull : TREAP_NODES ≤ (baseFor i T).vals.length)
    (hw : Wedged i (baseFor i T).vals) (fuel : ℕ) :
    (doUpdateLoop u i fuel .uncontened).run exec s = .error .outOfFuel := by
  have hF : Admits (fun e => e = .outOfFuel) s :=
    fun x hx => (hpools x hx).elim
  have hmeets : Meets exec (fun e => e = .outOfFuel) (doUpdateLoop u i fuel .uncontened) s _ :=
    doUpdateLoop_meets hu rfl h.clean (by decide) hF
  unfold Meets at hmeets
  split at hmeets
  · obtain ⟨_, T', _, hup⟩ := hmeets
    exact absurd hw (hup.not_wedged h.ordered hfull)
  · rename_i e hrun
    rw [hrun, hmeets]

theorem Good.stalls_iff (h : Good s T) : (∃ p, Finds s i p ∧ Stalls i (sortedAt s p)) ↔
    TREAP_NODES ≤ (baseFor i T).vals.length ∧ Wedged i (baseFor i T).vals := by
  obtain ⟨_, hb⟩ := h.clean.shape.base_of_mem (b := baseFor i T) (seek_mem _ T)
  have hs := h.ordered.baseFor_sorted (i := i)
  obtain ⟨t, _, hst⟩ := hb.stores
  have hle : (baseFor i T).vals.length ≤ 64 := hst.length.trans_le hst.size_le
  constructor
  · rintro ⟨p, hp, hst⟩
    rw [h.clean.shape.finds_iff.mp hp, hb.sortedAt hs] at hst
    exact ⟨hst.1.ge, (Lfca.stalls_iff hs hst.1).mp hst⟩
  · rintro ⟨hge, hw⟩
    refine ⟨_, h.clean.shape.finds_iff.mpr rfl, ?_⟩
    rw [hb.sortedAt hs]
    exact (Lfca.stalls_iff hs (le_antisymm hle hge)).mpr hw

/-- An update returns unless the search for its value ends in a full base node whose values stay
together with it at every split. -/
theorem update_returns_iff {ls : List (Call × Result)} {c : Call} (hi : Initial s₀) (hu : Unlimited s₀)
    (h : Run Returns s₀ ls s) (hc : c = .insert i ∨ c = .remove i) :
    (∃ r s', Returns s (c, r) s') ↔ ¬ ∃ p, Finds s i p ∧ Stalls i (sortedAt s p) := by
  obtain ⟨T, hT, hu'⟩ := runs_unlimited hi hu h
  rw [hT.stalls_iff, not_and]
  constructor
  · rintro ⟨r, s', hret⟩ hge
    obtain ⟨_, T', _, hch⟩ := hret.steps.changes hT.clean
    rcases hc with rfl | rfl
    · obtain ⟨_, _, hup⟩ := hch
      exact hup.not_wedged hT.ordered hge
    · obtain ⟨_, _, hup⟩ := hch
      exact hup.not_wedged hT.ordered hge
  · intro hw
    rcases hc with rfl | rfl
    · obtain ⟨fuel, res, s', hrun⟩ := hT.doUpdateLoop_returns (treapInsert_applies i) hu' hw
      refine ⟨.void, s', fuel, ?_⟩
      simp only [body, insert, doUpdate, run_bind, hrun]
      rfl
    · obtain ⟨fuel, res, s', hrun⟩ := hT.doUpdateLoop_returns (treapRemove_applies i) hu' hw
      refine ⟨.bool res, s', fuel, ?_⟩
      simp only [body, remove, doUpdate, run_bind, hrun]
      rfl

/-- 64 insertions of 2. -/
def copies : List Call := List.replicate 64 (.insert 2)

set_option maxRecDepth 100000 in
theorem copies_outcomes : (results start copies).isSome = true ∧
    found (afterAll start copies) 2 = some (afterAll start copies).root ∧
    sortedAt (afterAll start copies) (afterAll start copies).root = List.replicate 64 2 := by
  decide +kernel

theorem copies_returns : ∃ ls, results start copies = some ls := Option.isSome_iff_exists.mp copies_outcomes.1

/-- A removal from the tree split at 31, and an insertion into a full base node with equal values. -/
theorem update_returns_iff_bulk :
    ((∃ r s', Returns (afterAll start bulk) (.remove 3, r) s') ↔
      ¬ ∃ p, Finds (afterAll start bulk) 3 p ∧ Stalls 3 (sortedAt (afterAll start bulk) p)) ∧
    ((∃ r s', Returns (afterAll start copies) (.insert 2, r) s') ↔
      ¬ ∃ p, Finds (afterAll start copies) 2 p ∧ Stalls 2 (sortedAt (afterAll start copies) p)) := by
  obtain ⟨ls₁, hls₁⟩ := bulk_returns
  obtain ⟨ls₂, hls₂⟩ := copies_returns
  exact ⟨update_returns_iff start_initial start_unlimited (run_afterAll hls₁) (.inr rfl),
    update_returns_iff start_initial start_unlimited (run_afterAll hls₂) (.inl rfl)⟩

/-- After these insertions a further insertion of 2 goes on for ever. -/
theorem insert_stalls : ∃ s₀ s ls, Initial s₀ ∧ Unlimited s₀ ∧ Run Returns s₀ ls s ∧
    ∀ fuel, (body fuel (.insert 2)).run exec s = .error .outOfFuel := by
  obtain ⟨_, hfound, hsorted⟩ := copies_outcomes
  obtain ⟨ls, hls⟩ := copies_returns
  obtain ⟨T, hT, hu⟩ := runs_unlimited start_initial start_unlimited (run_afterAll hls)
  obtain ⟨hfull, hw⟩ := hT.stalls_iff.mp ⟨_, finds_found hfound, by
    rw [hsorted]
    exact ⟨rfl, .inr (.inl ⟨rfl, rfl, le_rfl⟩)⟩⟩
  refine ⟨start, _, ls, start_initial, start_unlimited, run_afterAll hls, fun fuel => ?_⟩
  simp only [body, insert, doUpdate, run_bind, hT.doUpdateLoop_stalls (treapInsert_applies 2) hu hfull hw fuel]

end Lfca

end LockFreeSearchTree
