import LockFreeSearchTree.LfcaOrder

/-! # One thread

The lock-free tree under the calls of one thread, and under adaptations of any base nodes between
them.

* **Steps.** `Steps` is the step relation of calls that return and of adaptations, `Returns` that of
  calls alone.  What a step does to the tree is `Changes`; it keeps `Clean`.
* **Between the steps.** The links, the joins and the base nodes of a clean tree are `Tidy`
  (`runs_tidy`).
* **Values.** The calls do to the values of the tree what they do to a multiset
  (`calls_refine`). -/

namespace LockFreeSearchTree

open BinTree Concurrent Concurrent.Prog Transition

namespace Lfca

variable {s s' s₀ : Shared} {T T' : Tree} {C : Path} {b : Base}

/-! ### Reachable nodes -/

/-- `q` is reachable from `p` through the child pointers. -/
inductive Below (s : Shared) (p : Ptr) : Ptr → Prop
  | refl : Below s p p
  | child {q : Ptr} (d : Side) (h : Below s p q) (hc : (s.nodes q).get (.child d) ≠ nullptr) :
      Below s p ((s.nodes q).get (.child d))

/-- A node reachable from the root. -/
abbrev InTree (s : Shared) (p : Ptr) : Prop := Below s s.root p

def IsRoute (s : Shared) (p : Ptr) : Prop := InTree s p ∧ (s.nodes p).type = .route

def IsBase (s : Shared) (p : Ptr) : Prop := InTree s p ∧ (s.nodes p).type ≠ .route

theorem Below.head {p q : Ptr} (d : Side) (hc : (s.nodes p).get (.child d) ≠ nullptr)
    (h : Below s ((s.nodes p).get (.child d)) q) : Below s p q := by
  induction h with
  | refl => exact .child d .refl hc
  | child d' _ hc' ih => exact ih.child d' hc'

theorem Links.child_mem {p q : Ptr} {d : Side} (h : Links s p T) (hq : q ∈ ptrs T)
    (hc : (s.nodes q).get (.child d) ≠ nullptr) : (s.nodes q).get (.child d) ∈ ptrs T := by
  induction T generalizing p with
  | leaf b =>
      rw [ptrs_leaf, List.mem_singleton] at hq
      exact absurd (hq ▸ BaseAt.leaf h d) hc
  | node l r t ihl iht =>
      obtain ⟨hr, hl, ht⟩ := h
      simp only [ptrs_node, List.mem_append, List.mem_cons] at hq ⊢
      rcases hq with hq | rfl | hq
      · exact .inl (ihl hl hq)
      · cases d with
        | left => exact .inl (by rw [hr.near]; exact top_mem l)
        | right => exact .inr (.inr (by rw [show (s.nodes r.ptr).get (.child .right) = top t from hr.far]; exact top_mem t))
      · exact .inr (.inr (iht ht hq))

theorem Links.below {p q : Ptr} (h : Links s p T) (hq : q ∈ ptrs T) : Below s (top T) q := by
  induction T generalizing p with
  | leaf b =>
      rw [ptrs_leaf, List.mem_singleton] at hq
      exact hq ▸ .refl
  | node l r t ihl iht =>
      obtain ⟨hr, hl, ht⟩ := h
      simp only [ptrs_node, List.mem_append, List.mem_cons] at hq
      rcases hq with hq | rfl | hq
      · refine .head .left (q := q) ?_ ?_ <;> rw [top_node, hr.near]
        · exact (hl.allocated (top_mem l)).ne_null
        · exact ihl hl hq
      · exact .refl
      · have hfar : (s.nodes r.ptr).get (.child .right) = top t := hr.far
        refine .head .right (q := q) ?_ ?_ <;> rw [top_node, hfar]
        · exact (ht.allocated (top_mem t)).ne_null
        · exact iht ht hq

theorem Shape.inTree_iff (h : Shape s T) {p : Ptr} : InTree s p ↔ p ∈ ptrs T := by
  constructor
  · intro hp
    induction hp with
    | refl => exact h.root ▸ top_mem T
    | child d _ hc ih => exact h.links.child_mem ih hc
  · intro hp
    unfold InTree
    rw [h.root]
    exact h.links.below hp

theorem mem_ptrs_iff {p : Ptr} : p ∈ ptrs T ↔ (∃ b ∈ T.leaves, b.ptr = p) ∨ ∃ r ∈ T.labels, r.ptr = p := by
  induction T with
  | leaf b => simp [eq_comm]
  | node l r t ihl iht =>
      simp only [ptrs_node, List.mem_append, List.mem_cons, ihl, iht, leaves_node, labels_node, or_and_right, exists_or,
        exists_eq_left, @eq_comm _ p r.ptr, or_assoc, or_left_comm]

theorem Shape.isBase_iff (h : Shape s T) {p : Ptr} : IsBase s p ↔ ∃ b ∈ T.leaves, b.ptr = p := by
  unfold IsBase
  rw [h.inTree_iff, mem_ptrs_iff]
  constructor
  · rintro ⟨hb | ⟨r, hr, rfl⟩, ht⟩
    · exact hb
    · obtain ⟨_, _, hr⟩ := h.route_of_mem hr
      exact absurd hr.type ht
  · rintro ⟨b, hb, rfl⟩
    obtain ⟨_, hb'⟩ := h.base_of_mem hb
    exact ⟨.inl ⟨b, hb, rfl⟩, hb'.type⟩

theorem Shape.isRoute_iff (h : Shape s T) {p : Ptr} : IsRoute s p ↔ ∃ r ∈ T.labels, r.ptr = p := by
  unfold IsRoute
  rw [h.inTree_iff, mem_ptrs_iff]
  constructor
  · rintro ⟨⟨b, hb, rfl⟩ | hr, ht⟩
    · obtain ⟨_, hb⟩ := h.base_of_mem hb
      exact absurd ht hb.type
    · exact hr
  · rintro ⟨r, hr, rfl⟩
    obtain ⟨_, _, hr'⟩ := h.route_of_mem hr
    exact ⟨.inr ⟨r, hr, rfl⟩, hr'.type⟩

/-- The nodes reachable from `p` form a finite binary tree, and are in order the nodes `ps`. -/
inductive Spans (s : Shared) : Ptr → List Ptr → Prop
  | base {p : Ptr} (type : (s.nodes p).type ≠ .route) (leaf : ∀ d, (s.nodes p).get (.child d) = nullptr) : Spans s p [p]
  | route {p : Ptr} {ls ts : List Ptr} (type : (s.nodes p).type = .route) (left : Spans s (s.nodes p).left ls)
      (right : Spans s (s.nodes p).right ts) : Spans s p (ls ++ p :: ts)

theorem Links.spans {p : Ptr} (h : Links s p T) : Spans s (top T) (ptrs T) := by
  induction T generalizing p with
  | leaf b =>
      have hb : BaseAt s b p := h
      exact .base hb.type hb.leaf
  | node l r t ihl iht =>
      obtain ⟨hr, hl, ht⟩ := h
      rw [top_node, ptrs_node]
      have hnear : (s.nodes r.ptr).left = top l := hr.near
      have hfar : (s.nodes r.ptr).right = top t := hr.far
      exact .route hr.type (hnear ▸ ihl hl) (hfar ▸ iht ht)

/-- The values in the treap of a base node. -/
def valuesAt (s : Shared) (p : Ptr) : Multiset ℤ :=
  if (s.nodes p).type = .route then 0 else match (s.nodes p).data with
    | some t => t.values
    | none => 0

/-- The base nodes in the tree hold the values `ms`. -/
def Holds (s : Shared) (ms : Multiset ℤ) : Prop := ∃ ps, Spans s s.root ps ∧ (ps.map (valuesAt s)).sum = ms

theorem BaseAt.valuesAt {p : Ptr} (h : BaseAt s b p) : valuesAt s b.ptr = b.values := by
  obtain ⟨t, ht, hst⟩ := h.stores
  rw [Lfca.valuesAt, if_neg h.type, ht]
  exact hst.values

theorem Links.sum_valuesAt {p : Ptr} (h : Links s p T) : ((ptrs T).map (valuesAt s)).sum = contents T := by
  induction T generalizing p with
  | leaf b =>
      rw [ptrs_leaf, List.map_singleton, List.sum_singleton, contents_leaf]
      exact BaseAt.valuesAt h
  | node l r t ihl iht =>
      obtain ⟨hr, hl, ht⟩ := h
      have hzero : valuesAt s r.ptr = 0 := if_pos hr.type
      rw [ptrs_node, List.map_append, List.sum_append, List.map_cons, List.sum_cons, ihl hl, iht ht, hzero, zero_add]
      exact (total_node _ l r t).symm

theorem Shape.holds (h : Shape s T) : Holds s (contents T) :=
  ⟨ptrs T, h.root ▸ h.links.spans, h.links.sum_valuesAt⟩

theorem Spans.unique {p : Ptr} {ps qs : List Ptr} (h : Spans s p ps) (h' : Spans s p qs) : ps = qs := by
  induction h generalizing qs with
  | base ht _ =>
      cases h' with
      | base => rfl
      | route ht' => exact absurd ht' ht
  | route ht _ _ ihl iht =>
      cases h' with
      | base ht' => exact absurd ht ht'
      | route _ hl' ht' => rw [ihl hl', iht ht']

theorem Shape.holds_iff (h : Shape s T) {ms : Multiset ℤ} : Holds s ms ↔ ms = contents T := by
  constructor
  · rintro ⟨ps, hps, rfl⟩
    rw [h.root] at hps
    rw [hps.unique h.links.spans, h.links.sum_valuesAt]
  · rintro rfl
    exact h.holds

/-! ### Steps -/

/-- What is run to its end: a call, or an adaptation of a base node in the tree. -/
inductive Act where
  | call (c : Call)
  | high (b : Ptr)
  | low (b : Ptr)

namespace Act

def body (fuel : ℕ) : Act → LfcaM Result
  | call c => Lfca.body fuel c
  | high b => do
      highContentionAdaptation b
      return .void
  | low b => do
      lowContentionAdaptation fuel b
      return .void

def Enabled (s : Shared) : Act → Prop
  | call _ => True
  | high b | low b => IsBase s b

end Act

/-- The step relation of one thread. -/
def Steps (s : Shared) (l : Act × Result) (s' : Shared) : Prop :=
  l.1.Enabled s ∧ ∃ fuel, (l.1.body fuel).run exec s = .ok (l.2, s')

/-- The step relation of calls that return. -/
def Returns (s : Shared) (l : Call × Result) (s' : Shared) : Prop :=
  ∃ fuel, (body fuel l.1).run exec s = .ok (l.2, s')

theorem Returns.steps {l : Call × Result} (h : Returns s l s') : Steps s (.call l.1, l.2) s' := ⟨trivial, h⟩

/-- What a step does to the tree. -/
def Changes (T : Tree) : Act × Result → Tree → Prop
  | (.call (.insert i), r), T' => r = .void ∧ ∃ res, Updated i (Inserted i) T res T'
  | (.call (.remove i), r), T' => ∃ res, r = .bool res ∧ Updated i (Removed i) T res T'
  | (.call (.lookup i), r), T' =>
      T' = T ∧ ∃ found, r = .bool found ∧ (Sorted (baseFor i T).vals → (found = true ↔ i ∈ (baseFor i T).vals))
  | (.call (.rangeQuery lo hi), r), T' =>
      ∃ values, r = .vector values ∧ Relation.ReflTransGen Rearranges T T' ∧
        (Strict T → Scanned lo hi ((leavesBefore (firstPath lo T)).map Base.vals) (T.leaves.map Base.vals) values)
  | (.high p, _), T' => T' = T ∨ ∃ C b l r t, b.ptr = p ∧ T = plug C (leaf b) ∧ 2 ≤ b.vals.length ∧
      T' = plug C (node (leaf l) r (leaf t)) ∧ SplitAt b.vals r.key l.vals t.vals
  | (.low _, _), T' => Relation.ReflTransGen Rearranges T T'

theorem lookup_meets {F : Fault → Prop} {fuel : ℕ} {i : ℤ} {Q : Bool → Shared → Prop} (h : Shape s T)
    (hf : Fueled F T.height fuel)
    (hQ : ∀ found, (Sorted (baseFor i T).vals → (found = true ↔ i ∈ (baseFor i T).vals)) → Q found s) :
    Meets exec F (lookup fuel i) s Q := by
  obtain ⟨_, hb⟩ := h.base_of_mem (b := baseFor i T) (seek_mem _ T)
  obtain ⟨t, ht, hst⟩ := hb.stores
  obtain ⟨found, hfound, _, hiff⟩ := Treap.contains_spec i hst
  unfold lookup
  rw [meets_bind, meets_loadRoot, h.root, meets_bind]
  refine findBaseNode_meets h.links hf ?_
  rw [meets_bind, show (seek (fun r : Route => i ≤ r.key) T).ptr = (baseFor i T).ptr from rfl, meets_dataOf hb.allocated ht,
    hfound]
  exact hQ found hiff

theorem meets_steps (h : Clean s T) {a : Act} (ha : a.Enabled s) (fuel : ℕ) :
    Meets exec (fun _ => True) (a.body fuel) s (fun r s' => s.Extends s' ∧ ∃ T', Clean s' T' ∧ Changes T (a, r) T') := by
  have hF : Admits (fun _ => True) s := fun _ _ => trivial
  cases a with
  | call c =>
      cases c with
      | insert i =>
          show Meets _ _ (body fuel (.insert i)) _ _
          simp only [body, insert, meets_bind, meets_pure]
          refine (doUpdateLoop_meets (treapInsert_applies i) trivial h (by decide) hF).mono fun res s' hdone => ?_
          obtain ⟨he, T', hs', hup⟩ := hdone
          exact ⟨he, T', hs', rfl, res, hup⟩
      | remove i =>
          show Meets _ _ (body fuel (.remove i)) _ _
          simp only [body, remove, meets_bind, meets_pure]
          refine (doUpdateLoop_meets (treapRemove_applies i) trivial h (by decide) hF).mono fun res s' hdone => ?_
          obtain ⟨he, T', hs', hup⟩ := hdone
          exact ⟨he, T', hs', res, rfl, hup⟩
      | lookup i =>
          show Meets _ _ (body fuel (.lookup i)) _ _
          simp only [body, meets_bind, meets_pure]
          exact lookup_meets h.shape (.inl trivial) fun found hfound => ⟨.refl s, T, h, rfl, found, rfl, hfound⟩
      | rangeQuery lo hi =>
          show Meets _ _ (body fuel (.rangeQuery lo hi)) _ _
          simp only [body, meets_bind, meets_pure]
          exact rangeQuery_meets h hF (.inl trivial) fun s' T' res he hs' hR hscan => ⟨he, T', hs', res, rfl, hR, hscan⟩
  | high p =>
      obtain ⟨b, hb, rfl⟩ := h.shape.isBase_iff.mp ha
      obtain ⟨C, rfl⟩ := exists_plug_of_mem_leaves hb
      simp only [Act.body, meets_bind, meets_pure]
      exact highContentionAdaptation_meets h hF (fun _ => ⟨.refl s, _, h, .inl rfl⟩)
        fun hlen s' l r t he hs' hsplit => ⟨he, _, hs', .inr ⟨C, b, l, r, t, rfl, rfl, hlen, rfl, hsplit⟩⟩
  | low p =>
      obtain ⟨b, hb, rfl⟩ := h.shape.isBase_iff.mp ha
      obtain ⟨C, rfl⟩ := exists_plug_of_mem_leaves hb
      simp only [Act.body, meets_bind, meets_pure]
      exact lowContentionAdaptation_meets h hF (.inl trivial) fun s' T' he hs' hR => ⟨he, T', hs', hR⟩

theorem Steps.changes {l : Act × Result} (hs : Steps s l s') (h : Clean s T) :
    s.Extends s' ∧ ∃ T', Clean s' T' ∧ Changes T l T' := by
  obtain ⟨ha, fuel, hrun⟩ := hs
  exact (meets_steps h ha fuel).of_run hrun

/-- The tree of a new `LfcaTree`. -/
theorem Initial.clean (h : Initial s) : Clean s (leaf ⟨firstPtr, [], 0⟩) where
  shape := by
    refine ⟨h.root, ⟨⟨le_rfl, ?_⟩, ?_, ⟨Treap.empty, ?_, Treap.empty_stores⟩, ?_, ?_, fun d => ?_⟩, by simp⟩
    · show firstPtr < s.next
      rw [h.next]
      exact Nat.lt_succ_self _
    all_goals simp only [h.node]
    · decide
    · cases d <;> rfl
  routes := by simp
  stores := ⟨h.nextStore.ge, fun p _ => h.stores p⟩
  bases := by
    intro b hb
    rw [leaves_leaf, List.mem_singleton] at hb
    rw [hb]
    exact ⟨.inl (by rw [h.node]), by rw [h.node]; trivial⟩
  calm := by simp

theorem runs_clean {ls : List (Act × Result)} (hi : Initial s₀) (h : Run Steps s₀ ls s) : ∃ T, Clean s T :=
  h.invariant (I := fun s => ∃ T, Clean s T)
    (fun _ _ _ ⟨_, hT⟩ hstep => by
      obtain ⟨_, T', hT', _⟩ := hstep.changes hT
      exact ⟨T', hT'⟩) ⟨_, hi.clean⟩

/-! ### Runs on a new tree -/

/-- A new tree with unlimited pools, for which every weight drawn is 0. -/
def start : Shared where
  root := firstPtr
  nodes := Function.update (fun _ => {}) firstPtr { type := .normal, data := some Treap.empty }
  next := firstPtr + 1
  stores := fun _ => {}
  nextStore := firstPtr
  pools := { nodes := fun _ => none, stores := fun _ => none, env := ⟨fun _ => ⟨0, zero_drawn⟩, 0, fun _ => none, 0⟩ }

theorem start_initial : Initial start := ⟨rfl, by simp [start], rfl, rfl, fun _ => rfl⟩

/-- The result of a step with some fuel, and the state after it. -/
def outcome (s : Shared) (a : Act) : Option Result × Shared :=
  match (a.body 40).run exec s with
  | .ok (r, s') => (some r, s')
  | .error _ => (none, s)

def after (s : Shared) (a : Act) : Shared := (outcome s a).2

def afterAll (s : Shared) (cs : List Call) : Shared := cs.foldl (fun s c => after s (.call c)) s

/-- The calls with their results, if all of them return. -/
def results (s : Shared) : List Call → Option (List (Call × Result))
  | [] => some []
  | c :: cs => do
      let r ← (outcome s (.call c)).1
      let ls ← results (after s (.call c)) cs
      return (c, r) :: ls

theorem steps_after {a : Act} {r : Result} (ha : a.Enabled s) (h : (outcome s a).1 = some r) : Steps s (a, r) (after s a) := by
  refine ⟨ha, 40, ?_⟩
  unfold after outcome at *
  rcases hrun : (a.body 40).run exec s with e | ⟨r', s'⟩ <;> rw [hrun] at h
  · cases h
  · cases h
    rfl

theorem run_afterAll {cs : List Call} {ls : List (Call × Result)} (h : results s cs = some ls) :
    Run Returns s ls (afterAll s cs) := by
  induction cs generalizing s ls with
  | nil =>
      cases h
      exact .nil
  | cons c cs ih =>
      unfold results at h
      rcases hr : (outcome s (.call c)).1 with _ | r <;> rw [hr] at h
      · cases h
      · rcases hls : results (after s (.call c)) cs with _ | ls' <;> rw [hls] at h
        · cases h
        · cases h
          exact .cons (steps_after (a := .call c) trivial hr).2 (ih hls)

/-! ### Between the steps -/

/-- The links of the tree are those of a tree, and no node of it takes part in a join. -/
structure Tidy (s : Shared) : Prop where
  tree : ∃ ps, Spans s s.root ps ∧ ps.Nodup
  routes : ∀ p, IsRoute s p → (s.nodes p).left ≠ nullptr ∧ (s.nodes p).right ≠ nullptr ∧ (s.nodes p).valid = true ∧
    (s.nodes p).joinId = nullptr
  bases : ∀ p, IsBase s p → (isReplaceable p).run exec s = .ok (true, s) ∧ (s.nodes p).data ≠ none
  root : ∀ p, IsBase s p → ((s.nodes p).parent = nullptr ↔ p = s.root)
  parent : ∀ p, IsBase s p → p ≠ s.root → IsRoute s (s.nodes p).parent ∧
    ((s.nodes (s.nodes p).parent).left = p ∨ (s.nodes (s.nodes p).parent).right = p)
  child : ∀ p q d, IsBase s p → IsRoute s q → (s.nodes q).get (.child d) = p → (s.nodes p).parent = q

theorem isReplaceable_run {p : Ptr} (hp : s.Allocated p) (h : Settled s p) :
    (isReplaceable p).run exec s = .ok (true, s) := by
  obtain ⟨r, s', hrun, rfl, rfl⟩ := ((meets_isReplaceable (F := fun _ => False) (Q := fun r s' => r = true ∧ s' = s)
    hp h).mpr ⟨rfl, rfl⟩).returns
  exact hrun

/-- A route node above a base node is its parent. -/
theorem Shape.parent_of_child (h : Shape s T) {r : Route} {d : Side} (hr : r ∈ T.labels) (hb : b ∈ T.leaves)
    (hc : (s.nodes r.ptr).get (.child d) = b.ptr) : (s.nodes b.ptr).parent = r.ptr := by
  obtain ⟨C, l, t, rfl⟩ := exists_plug_of_mem_labels hr
  obtain ⟨_, hsub, hn⟩ := shape_plug.mp h
  obtain ⟨hroute, hl, ht⟩ := hsub
  -- the child is a base node, not a route node of that address
  have hleaf : ∀ u : Tree, u = l ∨ u = t → Links s r.ptr u → top u = b.ptr → (s.nodes b.ptr).parent = r.ptr := by
    intro u hu hlinks htop
    cases u with
    | leaf b' =>
        rw [top_leaf] at htop
        exact htop ▸ BaseAt.parent hlinks
    | node l' r' t' =>
        obtain ⟨_, hb'⟩ := h.base_of_mem hb
        exact absurd (htop ▸ hlinks.1.type) hb'.type
  cases d with
  | left => exact hleaf l (.inl rfl) hl (hroute.near ▸ hc)
  | right => exact hleaf t (.inr rfl) ht ((show (s.nodes r.ptr).get (.child .right) = top t from hroute.far) ▸ hc)

theorem Clean.tidy (h : Clean s T) : Tidy s where
  tree := ⟨ptrs T, h.shape.root ▸ h.shape.links.spans, h.shape.nodup⟩
  routes := by
    intro p hp
    obtain ⟨r, hr, rfl⟩ := h.shape.isRoute_iff.mp hp
    obtain ⟨hv, hj⟩ := h.routes r hr
    obtain ⟨C, l, t, rfl⟩ := exists_plug_of_mem_labels hr
    obtain ⟨hroute, hl, ht⟩ := (shape_plug.mp h.shape).2.1
    have hnear : (s.nodes r.ptr).left = top l := hroute.near
    have hfar : (s.nodes r.ptr).right = top t := hroute.far
    rw [hnear, hfar]
    exact ⟨(hl.allocated (top_mem l)).ne_null, (ht.allocated (top_mem t)).ne_null, hv, hj⟩
  bases := by
    intro p hp
    obtain ⟨b, hb, rfl⟩ := h.shape.isBase_iff.mp hp
    obtain ⟨_, hb'⟩ := h.shape.base_of_mem hb
    obtain ⟨t, ht, _⟩ := hb'.stores
    exact ⟨isReplaceable_run hb'.allocated (h.bases b hb), by simp [ht]⟩
  root := by
    intro p hp
    obtain ⟨b, hb, rfl⟩ := h.shape.isBase_iff.mp hp
    obtain ⟨C, rfl⟩ := exists_plug_of_mem_leaves hb
    obtain ⟨hC, hb', hn⟩ := shape_plug.mp h.shape
    rw [BaseAt.parent hb']
    cases C with
    | nil => exact ⟨fun _ => hC.symm, fun _ => rfl⟩
    | cons G C =>
        refine ⟨fun hnull => absurd hnull hC.1.allocated.ne_null, fun hroot => ?_⟩
        rw [nodup_ptrs_plug] at hn
        rw [h.shape.root] at hroot
        exact (hn.2.2 (by simp) (hroot ▸ top_plug_mem (List.cons_ne_nil G C) (leaf b))).elim
  parent := by
    intro p hp hroot
    obtain ⟨b, hb, rfl⟩ := h.shape.isBase_iff.mp hp
    obtain ⟨C, rfl⟩ := exists_plug_of_mem_leaves hb
    obtain ⟨hC, hb', _⟩ := shape_plug.mp h.shape
    rw [BaseAt.parent hb']
    cases C with
    | nil => exact absurd hC.symm hroot
    | cons G C =>
        obtain ⟨d, r, t⟩ := G
        have hr : r ∈ (plug (⟨d, r, t⟩ :: C) (leaf b)).labels :=
          mem_labels_plug.mpr (.inr (mem_ctxLabels_cons.mpr (.inl rfl)))
        refine ⟨h.shape.isRoute_iff.mpr ⟨r, hr, rfl⟩, ?_⟩
        have hnear := hC.1.near
        cases d with
        | left => exact .inl hnear
        | right => exact .inr hnear
  child := by
    intro p q d hp hq hc
    obtain ⟨b, hb, rfl⟩ := h.shape.isBase_iff.mp hp
    obtain ⟨r, hr, rfl⟩ := h.shape.isRoute_iff.mp hq
    exact h.shape.parent_of_child hr hb hc

/-- Whenever no call is running, the bookkeeping of joins and splits is clean. -/
theorem runs_tidy {ls : List (Act × Result)} (hi : Initial s₀) (h : Run Steps s₀ ls s) : Tidy s := by
  obtain ⟨T, hT⟩ := runs_clean hi h
  exact hT.tidy

/-- The root is split after two insertions. -/
theorem runs_tidy_split :
    Tidy (after (afterAll start [.insert 5, .insert 7]) (.high (afterAll start [.insert 5, .insert 7]).root)) := by
  have hcalls : Run Returns start [(.insert 5, .void), (.insert 7, .void)] (afterAll start [.insert 5, .insert 7]) :=
    run_afterAll (by decide +kernel)
  have hbase : IsBase (afterAll start [.insert 5, .insert 7]) (afterAll start [.insert 5, .insert 7]).root :=
    ⟨.refl, by decide +kernel⟩
  exact runs_tidy start_initial ((hcalls.relabel fun _ _ _ => Returns.steps).snoc
    (steps_after (r := .void) hbase (by decide +kernel)))

/-! ### Values -/

/-- What a call does to the multiset of values; what a range query returns is left open. -/
def Refines (ms : Multiset ℤ) : Call × Result → Multiset ℤ → Prop
  | (.rangeQuery _ _, .vector _), ms' => ms' = ms
  | l, ms' => Stored ms l ms'

/-- A call keeps the tree in order and does to its values what it does to the multiset. -/
theorem Changes.call {R : ℤ → ℤ → Prop} (hlt : ∀ a b, a < b → R a b) (hle : ∀ a b, R a b → a ≤ b)
    {l : Call × Result} (h : Changes T (.call l.1, l.2) T') (ho : Ordered R T) :
    Ordered R T' ∧ Refines (contents T) l (contents T') := by
  obtain ⟨c, r⟩ := l
  cases c with
  | insert i =>
      obtain ⟨rfl, res, hup⟩ := h
      obtain ⟨hc, ho'⟩ := hup.insert hlt hle ho
      exact ⟨ho', hc⟩
  | remove i =>
      obtain ⟨res, rfl, hup⟩ := h
      obtain ⟨hres, hc, ho'⟩ := hup.remove hlt hle ho
      exact ⟨ho', hres, hc⟩
  | lookup i =>
      obtain ⟨rfl, found, rfl, hfound⟩ := h
      exact ⟨ho, (hfound ho.baseFor_sorted).trans ho.mem_baseFor_iff, rfl⟩
  | rangeQuery lo hi =>
      obtain ⟨values, rfl, hR, _⟩ := h
      obtain ⟨hc, ho'⟩ := rearranges_star (R := R) hR
      exact ⟨ho' ho, hc⟩

theorem ordered_initial {R : ℤ → ℤ → Prop} : Ordered R (leaf ⟨firstPtr, [], 0⟩) :=
  ⟨routed_leaf _, by simp⟩

/-- The states the calls lead to: clean, with strictly increasing keys. -/
structure Good (s : Shared) (T : Tree) : Prop where
  clean : Clean s T
  ordered : Ordered (· < ·) T

theorem Good.step {l : Call × Result} (h : Good s T) (hs : Returns s l s') :
    s.Extends s' ∧ ∃ T', Good s' T' ∧ Refines (contents T) l (contents T') := by
  obtain ⟨he, T', hT', hch⟩ := hs.steps.changes h.clean
  obtain ⟨ho', hr⟩ := hch.call (R := (· < ·)) (fun _ _ h => h) (fun _ _ h => h.le) h.ordered
  exact ⟨he, T', ⟨hT', ho'⟩, hr⟩

theorem runs_good {ls : List (Call × Result)} (hi : Initial s₀) (h : Run Returns s₀ ls s) : ∃ T, Good s T :=
  h.invariant (I := fun s => ∃ T, Good s T)
    (fun _ _ _ ⟨_, hT⟩ hstep => by
      obtain ⟨_, T', hT', _⟩ := hT.step hstep
      exact ⟨T', hT'⟩) ⟨_, hi.clean, ordered_initial⟩

/-- Every run of calls that return is a run of the multiset, from the empty one, and the tree holds
the values of the multiset. -/
theorem calls_refine {ls : List (Call × Result)} (hi : Initial s₀) (h : Run Returns s₀ ls s) :
    ∃ ms, Run Refines 0 ls ms ∧ Holds s ms := by
  have hstep : ∀ s ms l s', (∃ T, Good s T ∧ contents T = ms) → Returns s l s' →
      ∃ ms', Refines ms l ms' ∧ ∃ T', Good s' T' ∧ contents T' = ms' := by
    rintro s _ l s' ⟨T, hT, rfl⟩ hret
    obtain ⟨_, T', hT', hr⟩ := hT.step hret
    exact ⟨_, hr, T', hT', rfl⟩
  obtain ⟨ms, hrun, T, hT, hms⟩ := h.simulate hstep ⟨_, ⟨hi.clean, ordered_initial⟩, total_leaf _ _⟩
  exact ⟨ms, hrun, hms ▸ hT.clean.shape.holds⟩

/-- The insertions of 0, 1, ..., 64. -/
def bulk : List Call := (List.range 65).map (fun n => .insert n)

set_option maxRecDepth 100000 in
/-- The last of these insertions splits the tree; the range query then replaces both base nodes. -/
theorem calls_refine_bulk : ∃ ls ms, results start (bulk ++ [.remove 3, .lookup 3, .rangeQuery 29 33]) = some ls ∧
    Run Refines 0 ls ms ∧ Holds (afterAll start (bulk ++ [.remove 3, .lookup 3, .rangeQuery 29 33])) ms := by
  have hsome : (results start (bulk ++ [.remove 3, .lookup 3, .rangeQuery 29 33])).isSome = true := by
    decide +kernel
  obtain ⟨ls, hls⟩ := Option.isSome_iff_exists.mp hsome
  obtain ⟨ms, hrun, hms⟩ := calls_refine start_initial (run_afterAll hls)
  exact ⟨ls, ms, hls, hrun, hms⟩

end Lfca

end LockFreeSearchTree
