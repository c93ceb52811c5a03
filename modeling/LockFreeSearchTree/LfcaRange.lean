import LockFreeSearchTree.LfcaUpdate

/-! # Range queries

What `all_in_range` does to a clean tree, and what it returns.

* **Stacks.** The stack of the walk is the path to the current base node (`stackOf`), so the next
  base node is a function of its context (`next`), which is the base node after it if the keys find
  their route nodes (`next_spec`).
* **The walk.** Every base node on the way is replaced by a copy.  The walk may fail to end in a
  tree with equal keys, so what it returns is described for strictly increasing keys only
  (`Scanned`). -/

namespace LockFreeSearchTree

open BinTree Concurrent Concurrent.Prog

namespace Lfca

variable {F : Fault → Prop} {s s' : Shared} {T : Tree} {C : Path} {b : Base}

/-- The values of a base node. -/
abbrev Base.values (b : Base) : Multiset ℤ := b.vals

/-- The keys are strictly increasing and separate the values. -/
abbrev Strict (T : Tree) : Prop := Routed (· < ·) Route.key Base.values T

/-! ### The next base node -/

def stackOf (C : Path) (b : Base) : List Ptr := b.ptr :: C.map (fun G => G.label.ptr)

/-- The loop of `find_next_base_stack` on the path `C` from the subtree `u`. -/
def nextFrom (k : ℤ) : Path → Tree → Option (Path × Base)
  | [], _ => none
  | G :: C, u =>
      if k < G.label.key then
        match on G.side u G.label G.sibling with
        | leaf _ => none
        | node l r t => some (descend (fun _ => True) t (⟨.right, r, l⟩ :: C), seek (fun _ => True) t)
      else nextFrom k C (on G.side u G.label G.sibling)

/-- `find_next_base_stack` from the base node `b`. -/
def next : Path → Base → Option (Path × Base)
  | [], _ => none
  | ⟨.left, r, t⟩ :: C, b => some (descend (fun _ => True) t (⟨.right, r, leaf b⟩ :: C), seek (fun _ => True) t)
  | ⟨.right, r, t⟩ :: C, b => nextFrom r.key (⟨.right, r, t⟩ :: C) (leaf b)

theorem nextFrom_plug {k : ℤ} {u : Tree} {C' : Path} {b' : Base} (h : nextFrom k C u = some (C', b')) :
    plug C' (leaf b') = plug C u := by
  induction C generalizing u with
  | nil => cases h
  | cons G C ih =>
      obtain ⟨d, r, t⟩ := G
      unfold nextFrom at h
      split_ifs at h
      · cases d <;> cases h <;> exact plug_descend _ _ _
      · exact ih h

theorem next_plug {C' : Path} {b' : Base} (h : next C b = some (C', b')) : plug C' (leaf b') = plug C (leaf b) := by
  rcases C with _ | ⟨⟨_ | _, r, t⟩, C⟩
  · cases h
  · cases h
    exact plug_descend _ _ _
  · exact nextFrom_plug h

theorem nextFrom_spec {k : ℤ} {u : Tree} (hk : ∀ G ∈ C, (G.side = .right → G.label.key ≤ k) ∧ (G.side = .left → k < G.label.key)) :
    match nextFrom k C u with
    | none => leavesAfter C = []
    | some (C', _) => leavesBefore C' = leavesBefore C ++ u.leaves := by
  induction C generalizing u with
  | nil => rfl
  | cons G C ih =>
      obtain ⟨d, r, t⟩ := G
      obtain ⟨hright, hleft⟩ := hk _ List.mem_cons_self
      unfold nextFrom
      cases d with
      | left =>
          rw [if_pos (hleft rfl)]
          simp only [on_left]
          rw [leavesBefore_leftmost, leavesBefore_right, leavesBefore_left]
      | right =>
          rw [if_neg (not_lt.mpr (hright rfl))]
          have hih := ih (u := on .right u r t) (fun G hG => hk G (List.mem_cons_of_mem _ hG))
          simp only
          split <;> rename_i heq <;> rw [heq] at hih
          · exact hih
          · rw [hih, on_right, leaves_node, leavesBefore_right, List.append_assoc]

/-- If the keys find their route nodes, the next base node is the one after this one. -/
theorem next_spec (h : Searchable Route.key (plug C (leaf b))) :
    match next C b with
    | none => leavesAfter C = []
    | some (C', _) => leavesBefore C' = leavesBefore C ++ [b] := by
  rcases C with _ | ⟨⟨_ | _, r, t⟩, C⟩
  · rfl
  · show leavesBefore (descend _ t (⟨.right, r, leaf b⟩ :: C)) = _
    rw [leavesBefore_leftmost]
    simp
  · have hleads : Leads Route.key r.key C := Searchable.leads (t := on .right (leaf b) r t) h (mem_labels_on.mpr (.inl rfl))
    apply nextFrom_spec
    intro G hG
    rcases List.mem_cons.mp hG with rfl | hG
    · exact ⟨fun _ => le_rfl, fun h => by cases h⟩
    · constructor
      · intro hs
        have := mt (hleads G hG).mpr (by rw [hs]; decide)
        omega
      · intro hs
        exact (hleads G hG).mp hs

/-! ### The stacks of the source -/

theorem findBaseStackLoop_meets {t : Tree} {p : Ptr} {i : ℤ} {fuel : ℕ} {Q : Ptr × List Ptr → Shared → Prop}
    (h : Links s p t) (hf : Fueled F t.height fuel)
    (hQ : Q ((seek (fun r => i < r.key) t).ptr,
      stackOf (descend (fun r => i < r.key) t C) (seek (fun r => i < r.key) t)) s) :
    Meets exec F (findBaseStackLoop fuel (top t) i (C.map (fun G => G.label.ptr))) s Q := by
  induction t generalizing p C fuel with
  | leaf b =>
      cases fuel with
      | zero => exact hf.zero
      | succ fuel =>
          have hb : BaseAt s b p := h
          unfold findBaseStackLoop
          rw [top_leaf, meets_bind, meets_plain hb.allocated, if_neg hb.type, meets_pure]
          exact hQ
  | node l r t ihl iht =>
      cases fuel with
      | zero => exact hf.zero
      | succ fuel =>
          obtain ⟨hr, hl, ht⟩ := h
          unfold findBaseStackLoop
          rw [top_node, meets_bind, meets_plain hr.allocated, if_pos hr.type, hr.key]
          unfold seek descend at hQ
          split_ifs at hQ ⊢ with hi
          · rw [meets_bind, meets_load hr.allocated, hr.near]
            exact ihl (C := ⟨.left, r, t⟩ :: C) hl (hf.pred (by simp only [height]; omega)) hQ
          · have hfar : (s.nodes r.ptr).get (.child .right) = top t := hr.far
            rw [meets_bind, meets_load hr.allocated, hfar]
            exact iht (C := ⟨.right, r, l⟩ :: C) ht (hf.pred (by simp only [height]; omega)) hQ

theorem leftmostAndStack_meets {t : Tree} {p : Ptr} {fuel : ℕ} {Q : Ptr × List Ptr → Shared → Prop}
    (h : Links s p t) (hf : Fueled F t.height fuel)
    (hQ : Q ((seek (fun _ => True) t).ptr, stackOf (descend (fun _ => True) t C) (seek (fun _ => True) t)) s) :
    Meets exec F (leftmostAndStack fuel (top t) (C.map (fun G => G.label.ptr))) s Q := by
  induction t generalizing p C fuel with
  | leaf b =>
      cases fuel with
      | zero => exact hf.zero
      | succ fuel =>
          have hb : BaseAt s b p := h
          unfold leftmostAndStack
          rw [top_leaf, meets_bind, meets_plain hb.allocated, if_neg hb.type, meets_pure]
          exact hQ
  | node l r t ihl _ =>
      cases fuel with
      | zero => exact hf.zero
      | succ fuel =>
          obtain ⟨hr, hl, -⟩ := h
          unfold leftmostAndStack
          rw [top_node, meets_bind, meets_plain hr.allocated, if_pos hr.type, meets_bind, meets_load hr.allocated, hr.near]
          unfold seek descend at hQ
          rw [if_pos trivial, if_pos trivial] at hQ
          exact ihl (C := ⟨.left, r, t⟩ :: C) hl (hf.pred (by simp only [height]; omega)) hQ

theorem findNextBaseLoop_meets {k : ℤ} {u : Tree} {fuel : ℕ} {Q : Ptr × List Ptr → Shared → Prop}
    (h : Neat s (plug C u)) (hf : Fueled F (plug C u).height fuel)
    (hQ : match nextFrom k C u with
      | none => Q (nullptr, []) s
      | some (C', b') => Q (b'.ptr, stackOf C' b') s) :
    Meets exec F (findNextBaseLoop fuel k (C.map (fun G => G.label.ptr))) s Q := by
  induction C generalizing u with
  | nil => exact hQ
  | cons G C ih =>
      obtain ⟨l, t, hon⟩ : ∃ l t, on G.side u G.label G.sibling = node l G.label t := by
        cases G.side <;> exact ⟨_, _, rfl⟩
      have hc := h
      rw [plug_cons, hon] at h hf
      obtain ⟨hr, hl, ht⟩ := (shape_plug.mp h.shape).2.1
      have hvalid := (h.routes G.label (mem_labels_plug.mpr (.inl (by simp)))).1
      have hfar : (s.nodes G.label.ptr).get (.child .right) = top t := hr.far
      unfold nextFrom at hQ
      rw [List.map_cons]
      unfold findNextBaseLoop
      rw [meets_bind, meets_loadValid hr.allocated, meets_bind, meets_plain hr.allocated, hvalid, hr.key]
      simp only [true_and, gt_iff_lt]
      rw [hon] at hQ
      split_ifs at hQ ⊢ with hk
      · rw [meets_bind, meets_load hr.allocated, hfar]
        refine leftmostAndStack_meets (C := ⟨.right, G.label, l⟩ :: C) ht (hf.le ?_) hQ
        exact le_trans (by simp only [height]; omega) (height_le_plug C _)
      · exact ih h hf hQ

theorem findNextBaseStack_meets {fuel : ℕ} {Q : Ptr × List Ptr → Shared → Prop} (h : Neat s (plug C (leaf b)))
    (hf : Fueled F (plug C (leaf b)).height fuel)
    (hQ : match next C b with
      | none => Q (nullptr, []) s
      | some (C', b') => Q (b'.ptr, stackOf C' b') s) :
    Meets exec F (findNextBaseStack fuel (stackOf C b)) s Q := by
  rcases C with _ | ⟨⟨d, r, t⟩, C⟩
  · exact hQ
  · obtain ⟨hr, ht, -⟩ := (shape_plug.mp h.shape).1
    simp only [top_leaf] at hr ht
    have hd := (nodup_ptrs_plug.mp h.shape.nodup).2.2
    have hne : top t ≠ b.ptr := fun he =>
      hd (a := b.ptr) (by simp) (mem_pathPtrs_cons.mpr (.inr (.inl (he ▸ top_mem t))))
    rw [stackOf, List.map_cons]
    unfold findNextBaseStack
    dsimp only
    rw [meets_bind, meets_load hr.allocated]
    cases d with
    | left =>
        have hfar : (s.nodes r.ptr).get (.child .right) = top t := hr.far
        rw [if_pos hr.near, meets_bind, meets_load hr.allocated, hfar]
        refine leftmostAndStack_meets (C := ⟨.right, r, leaf b⟩ :: C) ht (hf.le ?_) hQ
        refine le_trans ?_ (height_le_plug C _)
        simp only [height_on]
        omega
    | right =>
        have hleft : (s.nodes r.ptr).get (.child .left) = top t := hr.far
        rw [hleft, if_neg hne, meets_bind, meets_plain hr.allocated, hr.key]
        exact findNextBaseLoop_meets (C := ⟨.right, r, t⟩ :: C) h hf hQ

/-! ### The walk -/

/-- The node at `p` has a treap with the values `vs`. -/
def HasValues (s : Shared) (p : Ptr) (vs : List ℤ) : Prop :=
  s.Allocated p ∧ ∃ t, (s.nodes p).data = some t ∧ t.Stores vs

theorem HasValues.extends {p : Ptr} {vs : List ℤ} (h : HasValues s p vs) (he : s.Extends s') : HasValues s' p vs :=
  ⟨he.allocated h.1, by rw [he.plain p h.1]; exact h.2⟩

theorem BaseAt.hasValues {p : Ptr} (h : BaseAt s b p) : HasValues s b.ptr b.vals := ⟨h.allocated, h.stores⟩

/-- The values between `lo` and `hi` in sorted lists. -/
def Scan (lo hi : ℤ) (vss : List (List ℤ)) (res : List ℤ) : Prop :=
  (∀ vs ∈ vss, Sorted vs) → (res : Multiset ℤ) = (vss.flatten : Multiset ℤ).filter (fun v => lo ≤ v ∧ v ≤ hi)

theorem collectValues_meets {lo hi : ℤ} {done : List Ptr} {vss : List (List ℤ)} {Q : List ℤ → Shared → Prop}
    (h : List.Forall₂ (HasValues s) done vss) (hQ : ∀ res, Scan lo hi vss res → Q res s) :
    Meets exec F (collectValues lo hi done) s Q := by
  induction h generalizing Q with
  | nil => exact hQ [] (fun _ => rfl)
  | @cons p vs done vss hp _ ih =>
      obtain ⟨hp, t, ht, hst⟩ := hp
      obtain ⟨ws, hws, hfilter⟩ := Treap.rangeQuery_stores lo hi hst
      unfold collectValues
      rw [meets_bind, meets_dataOf hp ht, hws, ofExcept_ok, ret_bind, meets_bind]
      refine ih fun res hres => ?_
      rw [meets_pure]
      refine hQ _ fun ho => ?_
      rw [List.flatten_cons, ← Multiset.coe_add, ← Multiset.coe_add, Multiset.filter_add,
        hfilter (ho vs List.mem_cons_self), hres (fun us hus => ho us (List.mem_cons_of_mem _ hus))]

/-- Result storages in use may change. -/
theorem Clean.updateStore {p : Ptr} (h : Clean s T) (hp : p < s.nextStore) (f : Rs → Rs) :
    Clean (s.updateStore p f) T where
  shape := h.shape.congr rfl fun _ _ => ⟨id, rfl⟩
  routes := h.routes
  stores := by
    refine ⟨h.stores.first, fun q hq => ?_⟩
    have hne : q ≠ p := (hp.trans_le hq).ne'
    exact (Function.update_of_ne hne _ _).trans (h.stores.unused q hq)
  bases := fun b hb => ⟨(h.bases b hb).neigh2, (h.bases b hb).replaceable⟩
  calm := h.calm

theorem Clean.newRs (h : Clean s T) : Clean { s with nextStore := s.nextStore + 1 } T where
  shape := h.shape.congr rfl fun _ _ => ⟨id, rfl⟩
  routes := h.routes
  stores := ⟨h.stores.first.trans (Nat.le_succ _), fun q hq => h.stores.unused q ((Nat.le_succ _).trans hq)⟩
  bases := fun b hb => ⟨(h.bases b hb).neigh2, (h.bases b hb).replaceable⟩
  calm := h.calm

/-- The result storage `myS` of a range query that has not published its result. -/
structure Open (s : Shared) (myS : Ptr) : Prop where
  allocated : s.AllocatedStore myS
  result : (s.stores myS).result = none

theorem publishResult_meets {lo hi : ℤ} {myS : Ptr} {done : List Ptr} {vss : List (List ℤ)} {Q : List ℤ → Shared → Prop}
    (h : Clean s T) (ho : Open s myS) (hdone : List.Forall₂ (HasValues s) done vss)
    (hQ : ∀ s' res, s.Extends s' → Clean s' T → Scan lo hi vss res → Q res s') :
    Meets exec F (publishResult lo hi myS done) s Q := by
  unfold publishResult
  rw [meets_bind]
  refine collectValues_meets hdone fun res hres => ?_
  have h₁ := h.updateStore ho.allocated.2 (fun r => { r with result := some res })
  have he₁ := (Shared.Extends.refl s).updateStore myS (fun r => { r with result := some res })
  have hr₁ : ((s.updateStore myS (fun r => { r with result := some res })).stores myS).result = some res := by
    rw [Shared.stores_updateStore]
  have ha₁ : (s.updateStore myS (fun r => { r with result := some res })).AllocatedStore myS := ho.allocated
  rw [meets_bind, meets_casResult ho.allocated ho.result, if_pos rfl]
  generalize s.updateStore myS (fun r => { r with result := some res }) = s₁ at *
  split_ifs
  · have hr₂ : ((s₁.updateStore myS (fun r => { r with moreThanOneBase := true })).stores myS).result = some res := by
      rw [Shared.stores_updateStore, hr₁]
    rw [meets_bind, meets_storeMore ha₁]
    refine (meets_derefResult ((s₁.allocatedStore_updateStore _ _ _).mpr ha₁) hr₂).mpr ?_
    exact hQ _ res (he₁.updateStore _ _) (h₁.updateStore ha₁.2 _) hres
  · rw [meets_derefResult ha₁ hr₁]
    exact hQ _ res he₁ h₁ hres

/-! ### `all_in_range` -/

/-- What a range query returns when `vss` are the values of the base nodes in order and `pre` those
before its first one: the values from there on, as far as a base node with a value of at least
`hi`. -/
def Scanned (lo hi : ℤ) (pre vss : List (List ℤ)) (res : List ℤ) : Prop :=
  ∃ scanned rest, vss = pre ++ scanned ++ rest ∧ Scan lo hi scanned res ∧
    (rest = [] ∨ ∃ vs ∈ scanned.getLast?, ∃ v ∈ vs.getLast?, hi ≤ v)

theorem Strict.copy {b' : Base} (h : Strict (plug C (leaf b))) (hv : b'.vals = b.vals) : Strict (plug C (leaf b')) :=
  h.setLeaf fun v hm => .inl (by rwa [Base.values, hv] at hm)

/-- `new_range_base` and `try_replace` on a base node. -/
theorem newRangeBase_meets {lo hi : ℤ} {myS : Ptr} {Q : Ptr → Bool → Shared → Prop}
    (h : Clean s (plug C (leaf b))) (hF : Admits F s)
    (hQ : ∀ s' n, s.Extends s' → Clean s' (plug C (leaf n)) → n.vals = b.vals → s'.stores = s.stores →
      s'.nextStore = s.nextStore → Q n.ptr true s') :
    Meets exec F (newRangeBase b.ptr lo hi myS) s (fun n s' => Meets exec F (tryReplace none b.ptr n) s' (Q n)) := by
  have hb := h.shape.base
  have hmem : b ∈ (plug C (leaf b)).leaves := mem_leaves_plug.mpr (.inl (by simp))
  unfold newRangeBase
  refine newCopy_meets hF hb.allocated fun P hP => ?_
  have he : s.Extends { s with pools := P } := (Shared.Extends.refl s).withPools hP
  have hs := h.withPools P
  generalize hx : ({ s.nodes b.ptr with lo := lo, hi := hi, storage := myS } : Node) = x
  have hcopy : CopyOf x (s.nodes b.ptr) := by
    rw [← hx]
    exact ⟨hb.type, rfl, rfl, rfl, fun d => by cases d <;> rfl⟩
  have hsettled : Settled (Shared.alloc { s with pools := P } x) s.next :=
    (hs.bases b hmem).copy hb.allocated (by rw [← hx]) (by rw [← hx]) (by rw [← hx])
  rw [meets_tryReplace (hs.shape.alloc x)]
  exact hQ _ ⟨s.next, b.vals, b.stat⟩ ((he.alloc x).redirect _ _) (hs.copy hcopy hsettled) rfl
    (Shared.stores_redirect _ _ _) (Shared.nextStore_redirect _ _ _)

/-- The walk from the base node `n`, a copy of the one at `b`; `O` is the order of the keys. -/
theorem findRemaining_meets {O : Prop} {lo hi : ℤ} {myS b : Ptr} {n : Base} {done : List Ptr}
    {pre vss seen : List (List ℤ)} {fuel : ℕ} {Q : List ℤ → Shared → Prop} (h : Clean s (plug C (leaf n)))
    (hF : Admits F s) (ho : Open s myS) (hb : HasValues s b n.vals) (hdone : List.Forall₂ (HasValues s) done seen)
    (hO : O → Strict (plug C (leaf n))) (hvss : (plug C (leaf n)).leaves.map Base.vals = vss)
    (hseen : O → (leavesBefore C).map Base.vals = pre ++ seen)
    (hf : F .outOfFuel ∨ O ∧ 2 * (leavesAfter C).length + (plug C (leaf n)).height + 2 < fuel)
    (hQ : ∀ s' T' res, s.Extends s' → Clean s' T' → Relation.ReflTransGen Rearranges (plug C (leaf n)) T' →
      (O → Scanned lo hi pre vss res) → Q res s') :
    Meets exec F (findRemaining fuel lo hi myS b (stackOf C n) done) s Q := by
  induction fuel using Nat.strong_induction_on generalizing s C b n done seen with
  | _ fuel ih =>
  cases fuel with
  | zero =>
      unfold findRemaining
      exact hf.resolve_right (fun hf => absurd hf.2 (Nat.not_lt_zero _))
  | succ fuel =>
  have hdone' : List.Forall₂ (HasValues s) (done ++ [b]) (seen ++ [n.vals]) :=
    List.rel_append hdone (.cons hb .nil)
  have hsplit : O → vss = pre ++ (seen ++ [n.vals]) ++ (leavesAfter C).map Base.vals := fun hO => by
    rw [← hvss, leaves_plug, List.map_append, List.map_append, hseen hO]
    simp
  have hnext : Meets exec F (findNextBaseNode fuel lo hi myS (stackOf C n) (stackOf C n) (done ++ [b])) s Q := by
    cases fuel with
    | zero =>
        unfold findNextBaseNode
        exact hf.resolve_right (fun hf => by omega)
    | succ fuel =>
    unfold findNextBaseNode
    rw [meets_bind]
    refine findNextBaseStack_meets h.toNeat (hf.imp_right fun hf => by omega) ?_
    have hspec := fun hO' => next_spec ((hO hO').searchable fun _ _ h => h)
    rcases hn : next C n with _ | ⟨C', b'⟩
    · simp only [hn] at hspec
      simp only [↓reduceIte]
      refine publishResult_meets h ho hdone' fun s' res he hs' hscan => hQ s' _ res he hs' .refl fun hO' => ?_
      exact ⟨_, _, hsplit hO', hscan, .inl (by rw [hspec hO', List.map_nil])⟩
    · simp only [hn] at hspec
      have hplug := next_plug hn
      rw [← hplug] at h
      have hb' := h.shape.base
      have hmem : b' ∈ (plug C' (leaf b')).leaves := mem_leaves_plug.mpr (.inl (by simp))
      have hset := h.bases b' hmem
      simp only
      rw [if_neg hb'.allocated.ne_null, meets_bind, meets_loadResult ho.allocated, ho.result, if_neg (by simp),
        meets_bind, meets_plain hb'.allocated, if_neg (fun hh => hset.type_ne_range hh.1), meets_bind,
        meets_isReplaceable hb'.allocated hset, if_pos rfl, meets_bind]
      simp only [meets_bind]
      refine newRangeBase_meets h hF fun s' n' he hs' hv hstores hnextStore => ?_
      rw [if_pos rfl]
      have hafter : O → leavesAfter C = b' :: leavesAfter C' := fun hO' => by
        have hl := congrArg BinTree.leaves hplug
        simp only [leaves_plug, hspec hO', leaves_leaf, List.append_assoc, List.append_cancel_left_eq] at hl
        exact hl.symm
      have hheight : (plug C' (leaf n')).height = (plug C (leaf n)).height := by
        rw [← hplug]
        exact height_plug_congr C' rfl
      refine ih fuel (by omega) hs' (hF.extends he) ⟨⟨ho.allocated.1, by rw [hnextStore]; exact ho.allocated.2⟩,
        by rw [hstores]; exact ho.result⟩ (hv ▸ hb'.hasValues.extends he) (hdone'.imp fun _ _ hp => hp.extends he)
        (fun hO' => (hplug ▸ hO hO').copy hv) ?_ (fun hO' => ?_) ?_ fun s'' T' res he' hs'' hR hscan => ?_
      · rw [← hvss, ← hplug, leaves_plug, leaves_plug]
        simp [hv]
      · rw [hspec hO', List.map_append, hseen hO']
        simp
      · refine hf.imp_right fun ⟨hO', hf⟩ => ⟨hO', ?_⟩
        have hl := congrArg List.length (hafter hO')
        rw [List.length_cons] at hl
        omega
      · refine hQ s'' T' res (he.trans he') hs'' ?_ hscan
        rw [← hplug]
        exact hR.head (.copy hv)
  obtain ⟨hb, t, ht, hst⟩ := hb
  have hlen := hst.length
  unfold findRemaining
  dsimp only
  rw [meets_bind, meets_dataOf hb ht, Treap.getSize]
  split_ifs with hsize
  · have hne : n.vals ≠ [] := fun he => hsize (by rw [← hlen, he]; rfl)
    obtain ⟨v, hv, hmax⟩ := Treap.getMaxValue_spec hst hne
    rw [hmax, ofExcept_ok, ret_bind]
    split_ifs with hhi
    · refine publishResult_meets h ho hdone' fun s' res he hs' hscan => hQ s' _ res he hs' .refl fun hO => ?_
      exact ⟨_, _, hsplit hO, hscan, .inr ⟨n.vals, by simp, v, hv, hhi⟩⟩
    · exact hnext
  · exact hnext

/-- The base node a range query begins with. -/
def firstBase (lo : ℤ) (T : Tree) : Base := seek (fun r => lo < r.key) T

/-- The context of this base node. -/
def firstPath (lo : ℤ) (T : Tree) : Path := descend (fun r => lo < r.key) T []

/-- A range query, as far as it returns; it returns if the keys are strictly increasing. -/
theorem rangeQuery_meets {lo hi : ℤ} {fuel : ℕ} {Q : List ℤ → Shared → Prop} (h : Clean s T) (hF : Admits F s)
    (hf : F .outOfFuel ∨ Strict T ∧ 2 * T.leaves.length + T.height + 3 < fuel)
    (hQ : ∀ s' T' res, s.Extends s' → Clean s' T' → Relation.ReflTransGen Rearranges T T' →
      (Strict T → Scanned lo hi ((leavesBefore (firstPath lo T)).map Base.vals) (T.leaves.map Base.vals) res) → Q res s') :
    Meets exec F (rangeQuery fuel lo hi) s Q := by
  have hplug : plug (firstPath lo T) (leaf (firstBase lo T)) = T := plug_descend _ T []
  unfold rangeQuery
  cases fuel with
  | zero =>
      unfold allInRange
      exact hf.resolve_right (fun hf => by omega)
  | succ fuel =>
      have hroot := h.shape.root
      unfold allInRange findBaseStack
      rw [meets_bind, meets_loadRoot, hroot, meets_bind]
      refine findBaseStackLoop_meets (C := []) h.shape.links (hf.imp_right fun hf => by omega) ?_
      have hO : Strict T → Strict (plug (firstPath lo T) (leaf (firstBase lo T))) := fun hO => hplug.symm ▸ hO
      have hlen : (leavesAfter (firstPath lo T)).length ≤ T.leaves.length := by
        have hl := congrArg (fun t => t.leaves.length) hplug
        simp only [leaves_plug, List.length_append] at hl
        omega
      rw [show seek (fun r : Route => lo < r.key) T = firstBase lo T from rfl,
        show descend (fun r : Route => lo < r.key) T [] = firstPath lo T from rfl]
      rw [← hplug] at h
      have hb := h.shape.base
      have hmem : firstBase lo T ∈ (plug (firstPath lo T) (leaf (firstBase lo T))).leaves :=
        mem_leaves_plug.mpr (.inl (by simp))
      dsimp only
      rw [meets_bind, meets_plain hb.allocated, if_neg (by simp), meets_bind,
        meets_isReplaceable hb.allocated (h.bases _ hmem), if_pos rfl, meets_bind]
      refine newRs_meets hF fun P hP => ?_
      have he := ((Shared.Extends.refl s).withPools hP).newRs
      simp only [meets_bind]
      refine newRangeBase_meets (h.withPools P).newRs (hF.extends he) fun s' n he' hs' hv hstores hnextStore => ?_
      rw [if_neg (by simp)]
      have hopen : Open s' s.nextStore := by
        refine ⟨⟨h.stores.first, by rw [hnextStore]; exact Nat.lt_succ_self _⟩, ?_⟩
        rw [hstores, h.stores.unused _ le_rfl]
      have hheight : (plug (firstPath lo T) (leaf n)).height = T.height := by
        rw [← height_plug_congr _ (t := leaf (firstBase lo T)) (u := leaf n) rfl, hplug]
      have hleaves : (plug (firstPath lo T) (leaf n)).leaves.map Base.vals = T.leaves.map Base.vals := by
        conv_rhs => rw [← hplug]
        rw [leaves_plug, leaves_plug]
        simp [hv]
      refine findRemaining_meets (O := Strict T) hs' (hF.extends (he.trans he')) hopen
        (hv ▸ hb.hasValues.extends (he.trans he')) .nil (fun hT => (hO hT).copy hv) hleaves
        (fun _ => by rw [List.append_nil]) (hf.imp_right fun hf => ⟨hf.1, by omega⟩) fun s'' T' res he'' hs'' hR hscan => ?_
      refine hQ s'' T' res ((he.trans he').trans he'') hs'' (hR.head ?_) hscan
      conv_lhs => rw [← hplug]
      exact .copy hv

end Lfca

end LockFreeSearchTree
