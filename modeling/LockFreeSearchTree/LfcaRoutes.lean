import LockFreeSearchTree.LfcaConditions

/-! # Route nodes and their keys

Two searches of the source go by the keys of route nodes: `parent_of` looks for a route node by its
own key, and `find_next_base_stack` climbs to a route node with a larger key.  Both need every key on
the left of a route node to be below its key (`Searchable`).

* **The condition.** Only a split for contention can break this, at a key that is not below the one
  of a route node on whose left it is (`Crosses`).  A forced split with such a key makes no room, so
  no call that returns has made one (`Changes.searchable`).
* **Parents.** In the states reached without such steps, `parent_of` returns the parent of every
  route node (`runs_findsParents`).
* **The walk.** In these states, the walk from the first base node of a range query visits every base
  node after it once, in order (`runs_visitsAll`). -/

namespace LockFreeSearchTree

open BinTree Concurrent Concurrent.Prog Transition

namespace Lfca

variable {s s' s₀ : Shared} {T T' : Tree} {C : Path} {b : Base} {r : Route}

/-! ### Keys that cross -/

/-- The base node at `p` has enough values for a split, and its median is not below the key of a
route node on whose left it is. -/
def Crosses (s : Shared) (p : Ptr) : Prop :=
  2 ≤ (sortedAt s p).length ∧
    ∃ q, IsRoute s q ∧ Below s (s.nodes q).left p ∧ (s.nodes q).key ≤ medianOf (sortedAt s p)

/-- The step does not split such a base node for contention. -/
def Apart (s : Shared) : Act → Prop
  | .high p => ¬ Crosses s p
  | _ => True

/-- A step that meets the condition keeps the keys in order, and they find their route nodes. -/
theorem Changes.searchable {l : Act × Result} (h : Changes T l T') (hs : Shape s T) (hl : Apart s l.1)
    (ho : Ordered (· ≤ ·) T) (hk : Searchable Route.key T) : Ordered (· ≤ ·) T' ∧ Searchable Route.key T' := by
  obtain ⟨a, res⟩ := l
  cases a with
  | call c =>
      refine ⟨(Changes.call (l := (c, res)) (fun _ _ => le_of_lt) (fun _ _ h => h) h ho).1, ?_⟩
      cases c with
      | insert i =>
          obtain ⟨_, _, hup⟩ := h
          exact hup.searchable ho hk
      | remove i =>
          obtain ⟨_, _, hup⟩ := h
          exact hup.searchable ho hk
      | lookup i =>
          obtain ⟨rfl, _⟩ := h
          exact hk
      | rangeQuery lo hi =>
          obtain ⟨_, _, hR, _⟩ := h
          exact rearranges_searchable hR hk
  | low p => exact ⟨(rearranges_star (R := (· ≤ ·)) h).2 ho, rearranges_searchable h hk⟩
  | high p =>
      rcases h with rfl | ⟨C, b, l, r, t, rfl, rfl, hlen, rfl, hsplit⟩
      · exact ⟨ho, hk⟩
      have hb := ho.leaf_sorted
      have hkey := hsplit.key_eq hb
      have hleft : ∀ G ∈ C, G.side = .left → r.key < G.label.key := by
        intro G hG hside
        obtain ⟨hroute, hlabel, hbelow⟩ := hs.below_left hG hside
        rw [hkey]
        by_contra hle
        apply hl
        unfold Crosses
        rw [hs.base.sortedAt hb]
        exact ⟨hlen, G.label.ptr, hroute, hbelow, hlabel ▸ not_lt.mp hle⟩
      have hbefore : ∀ q, .inr q ∈ itemsBefore C → q.key ≤ r.key := by
        intro q hq
        rw [hkey]
        exact le_medianOf hb hlen fun v hv => (ho.routed.fits hv).1 q hq
      constructor
      · apply ho.split (fun _ _ h => h) hsplit hbefore
        intro q hq
        obtain ⟨G, hG, hside, hle⟩ := ho.routed.exists_frame_after (fun _ _ h => h) hq
        exact (hleft G hG hside).le.trans hle
      · apply hk.graft (u := node (leaf l) r (leaf t)) ⟨searchable_leaf l, searchable_leaf t, by simp, by simp⟩
        intro c hc
        right
        intro G hG
        have hc : c = r := by simpa using hc
        subst hc
        cases hside : G.side with
        | left => simpa using hleft G hG hside
        | right => simpa using hbefore _ (mem_itemsBefore_of_frame hG hside)

/-- In the runs whose steps meet the condition, the keys find their route nodes. -/
theorem runs_searchable {ls : List (Act × Result)} (hi : Initial s₀)
    (h : Run (fun s l s' => Steps s l s' ∧ Apart s l.1) s₀ ls s) : ∃ T, Clean s T ∧ Searchable Route.key T := by
  obtain ⟨T, hT, _, hk⟩ := h.invariant (I := fun s => ∃ T, Clean s T ∧ Ordered (· ≤ ·) T ∧ Searchable Route.key T)
    (fun s l s' ⟨T, hT, ho, hk⟩ ⟨hstep, hl⟩ => by
      obtain ⟨_, T', hT', hch⟩ := hstep.changes hT
      exact ⟨T', hT', hch.searchable hT.shape hl ho hk⟩) ⟨_, hi.clean, ordered_initial, searchable_leaf _⟩
  exact ⟨T, hT, hk⟩

/-- A program whose result does not depend on the fuel, as long as it suffices. -/
theorem decided {α : Type} {p : ℕ → LfcaM α} {x : α} {n : ℕ}
    (h : ∀ (F : Fault → Prop) fuel, Fueled F n fuel → Meets exec F (p fuel) s (fun r s' => r = x ∧ s' = s)) :
    (∃ fuel, (p fuel).run exec s = .ok (x, s)) ∧ ∀ fuel r s', (p fuel).run exec s = .ok (r, s') → r = x ∧ s' = s := by
  constructor
  · obtain ⟨r, s', hrun, rfl, rfl⟩ := (h (fun _ => False) (n + 1) (.inr (Nat.lt_succ_self n))).returns
    exact ⟨n + 1, hrun⟩
  · intro fuel r s' hrun
    exact (h (fun _ => True) fuel (.inl trivial)).of_run hrun

/-! ### Parents -/

/-- `q` is the route node whose child `p` is, or null if `p` is the root. -/
def ParentOf (s : Shared) (p q : Ptr) : Prop :=
  q = nullptr ∧ p = s.root ∨ IsRoute s q ∧ ∃ d, (s.nodes q).get (.child d) = p

/-- `parent_of` returns the parent of every route node in the tree, and never `NOT_FOUND`. -/
def FindsParents (s : Shared) : Prop :=
  ∀ n, IsRoute s n → ∃ q, (∀ q', ParentOf s n q' ↔ q' = q) ∧ q ≠ NOT_FOUND ∧
    (∃ fuel, (parentOf fuel n).run exec s = .ok (q, s)) ∧
    ∀ fuel q' s', (parentOf fuel n).run exec s = .ok (q', s') → q' = q

theorem top_eq_label {t : Tree} (hn : (ptrs (plug C t)).Nodup) (hr : r ∈ (plug C t).labels) (ht : top t = r.ptr)
    (hb : ∀ b ∈ (plug C t).leaves, b.ptr ≠ r.ptr) : ∃ l u, t = node l r u := by
  cases t with
  | leaf b => exact absurd ht (hb b (mem_leaves_plug.mpr (.inl (by simp))))
  | node l r' u =>
      have : r' = r := label_eq_of_ptr hn (mem_labels_plug.mpr (.inl (by simp))) hr ht
      exact ⟨l, u, by rw [this]⟩

/-- The parent of a route node is the one above it. -/
theorem Shape.parentOf_iff {l t : Tree} {q : Ptr} (h : Shape s (plug C (node l r t))) :
    ParentOf s r.ptr q ↔ q = holder C := by
  have hr : r ∈ (plug C (node l r t)).labels := mem_labels_plug.mpr (.inl (by simp))
  constructor
  · rintro (⟨rfl, hroot⟩ | ⟨hq, d, hd⟩)
    · cases C with
      | nil => rfl
      | cons G C =>
          rw [h.root] at hroot
          have hd := (nodup_ptrs_plug.mp h.nodup).2.2
          exact (hd (a := r.ptr) (by simp) (hroot ▸ top_plug_mem (List.cons_ne_nil G C) _)).elim
    · obtain ⟨r', hr', rfl⟩ := h.isRoute_iff.mp hq
      obtain ⟨C', l', t', hC'⟩ := exists_plug_of_mem_labels hr'
      have hleaf : ∀ b ∈ (plug C (node l r t)).leaves, b.ptr ≠ r.ptr := by
        intro b hb he
        obtain ⟨_, hb'⟩ := h.base_of_mem hb
        obtain ⟨_, _, hr''⟩ := h.route_of_mem hr
        exact hb'.type (he ▸ hr''.type)
      -- the child is the route node itself, so the path to it is this one
      have hpath : ∀ G : Frame Base Route, ∀ u, plug C (node l r t) = plug (G :: C') u → top u = r.ptr →
          G.label = r' → r'.ptr = holder C := by
        intro G u hu htop hG
        rw [hu] at hleaf hr
        obtain ⟨l'', t'', rfl⟩ := top_eq_label (hu ▸ h.nodup) hr htop hleaf
        rw [(plug_node_inj hu (nodup_labels h.nodup)).1, holder_cons, hG]
      rw [hC'] at h
      obtain ⟨hroute, _, _⟩ := (shape_plug.mp h).2.1
      cases d with
      | left => exact hpath ⟨.left, r', t'⟩ l' hC' (hroute.near ▸ hd) rfl
      | right =>
          have hfar : (s.nodes r'.ptr).get (.child .right) = top t' := hroute.far
          exact hpath ⟨.right, r', l'⟩ t' hC' (hfar ▸ hd) rfl
  · rintro rfl
    cases C with
    | nil => exact .inl ⟨rfl, h.root.symm⟩
    | cons G C =>
        right
        refine ⟨h.isRoute_iff.mpr ⟨G.label, mem_labels_plug.mpr (.inr (mem_ctxLabels_cons.mpr (.inl rfl))), rfl⟩, G.side, ?_⟩
        exact (shape_plug.mp h).1.1.near

theorem Shape.findsParents (h : Shape s T) (hk : Searchable Route.key T) : FindsParents s := by
  intro n hn
  obtain ⟨r, hr, rfl⟩ := h.isRoute_iff.mp hn
  obtain ⟨C, l, t, rfl⟩ := exists_plug_of_mem_labels hr
  obtain ⟨hret, hall⟩ := decided (p := fun fuel => parentOf fuel r.ptr) (x := holder C) (n := (plug C (node l r t)).height)
    fun F fuel hf => parentOf_meets (d := .left) h hf ⟨rfl, rfl⟩ fun hnot => absurd hk hnot
  refine ⟨holder C, fun q' => h.parentOf_iff, ?_, hret, fun fuel q' s' hrun => (hall fuel q' s' hrun).1⟩
  cases C with
  | nil => decide
  | cons G C =>
      intro he
      have ha := h.allocated (mem_ptrs_plug.mpr (.inr (holder_mem (List.cons_ne_nil G C))))
      rw [he] at ha
      exact absurd ha.1 (by decide)

/-- In the runs whose steps meet the condition, `parent_of` finds the parent of every route node. -/
theorem runs_findsParents {ls : List (Act × Result)} (hi : Initial s₀)
    (h : Run (fun s l s' => Steps s l s' ∧ Apart s l.1) s₀ ls s) : FindsParents s := by
  obtain ⟨T, hT, hk⟩ := runs_searchable hi h
  exact hT.shape.findsParents hk

/-- With a single base node, a split meets the condition. -/
theorem apart_root {p : Ptr} (ht : (s.nodes s.root).type ≠ .route) (hl : ∀ d, (s.nodes s.root).get (.child d) = nullptr) :
    Apart s (.high p) := by
  have hroot : ∀ q, InTree s q → q = s.root := by
    intro q hq
    induction hq with
    | refl => rfl
    | child d _ hc ih =>
        rw [ih] at hc
        exact absurd (hl d) hc
  rintro ⟨_, q, ⟨hq, hr⟩, _⟩
  rw [hroot q hq] at hr
  exact ht hr

/-- Two insertions and a split of the root. -/
def parted : Shared := after (afterAll start [.insert 5, .insert 7]) (.high (afterAll start [.insert 5, .insert 7]).root)

theorem run_parted : ∃ ls, Run (fun s l s' => Steps s l s' ∧ Apart s l.1) start ls parted :=
  ⟨_, .snoc (.snoc (.snoc .nil
    ⟨steps_after (a := .call (.insert 5)) (r := .void) trivial (by decide +kernel), trivial⟩)
    ⟨steps_after (a := .call (.insert 7)) (r := .void) trivial (by decide +kernel), trivial⟩)
    ⟨steps_after (a := .high (afterAll start [.insert 5, .insert 7]).root) (r := .void) ⟨.refl, by decide +kernel⟩
      (by decide +kernel), apart_root (by decide +kernel) (fun d => by cases d <;> decide +kernel)⟩⟩

theorem runs_findsParents_split : FindsParents parted := by
  obtain ⟨ls, hrun⟩ := run_parted
  exact runs_findsParents start_initial hrun

/-- The tree after the insertion of 4, 4 and 7; then its only base node is split at 4, and the left one
of the two at 4 again. -/
def crossed : ℕ → Shared
  | 0 => afterAll start [.insert 4, .insert 4, .insert 7]
  | 1 => after (crossed 0) (.high (crossed 0).root)
  | n + 2 => after (crossed (n + 1)) (.high (((crossed (n + 1)).nodes (crossed (n + 1)).root).get (.child .left)))

theorem run_crossed : ∃ ls, Run Steps start ls (crossed 2) := by
  have hcalls : Run Returns start [(.insert 4, .void), (.insert 4, .void), (.insert 7, .void)] (crossed 0) :=
    show Run Returns start _ (afterAll start [.insert 4, .insert 4, .insert 7]) from run_afterAll (by decide +kernel)
  have h₁ : Steps (crossed 0) (.high (crossed 0).root, .void) (crossed 1) :=
    steps_after ⟨.refl, by decide +kernel⟩ (by decide +kernel)
  have h₂ : Steps (crossed 1) (.high (((crossed 1).nodes (crossed 1).root).get (.child .left)), .void) (crossed 2) :=
    steps_after ⟨.child .left .refl (by decide +kernel), by decide +kernel⟩ (by decide +kernel)
  exact ⟨_, ((hcalls.relabel fun _ _ _ => Returns.steps).snoc h₁).snoc h₂⟩

/-- Where `parent_of` leads with some fuel. -/
def parentFound (s : Shared) (n : Ptr) : Option Ptr :=
  match (parentOf 40 n).run exec s with
  | .ok (p, _) => some p
  | .error _ => none

/-- The search for the lower route node goes to the right of the upper one, which has the same key. -/
theorem findsParents_fails_equal : ∃ s₀ s ls, Initial s₀ ∧ Run Steps s₀ ls s ∧ ¬ FindsParents s := by
  obtain ⟨ls, hrun⟩ := run_crossed
  refine ⟨start, crossed 2, ls, start_initial, hrun, ?_⟩
  intro h
  have hroute : IsRoute (crossed 2) (((crossed 2).nodes (crossed 2).root).get (.child .left)) :=
    ⟨.child .left .refl (by decide +kernel), by decide +kernel⟩
  have hfound : parentFound (crossed 2) (((crossed 2).nodes (crossed 2).root).get (.child .left)) = some NOT_FOUND := by
    decide +kernel
  obtain ⟨q, _, hne, _, hall⟩ := h _ hroute
  unfold parentFound at hfound
  split at hfound
  · rename_i p s' hp
    cases hfound
    exact hne (hall _ _ _ hp).symm
  · cases hfound

/-! ### The walk -/

/-- Repeated calls of `find_next_base_stack` from a stack return the nodes `bs`, and then null. -/
inductive Walks (s : Shared) : List Ptr → List Ptr → Prop
  | done {stack stack' : List Ptr} {fuel : ℕ}
      (last : (findNextBaseStack fuel stack).run exec s = .ok ((nullptr, stack'), s)) : Walks s stack []
  | step {stack stack' bs : List Ptr} {b : Ptr} {fuel : ℕ}
      (first : (findNextBaseStack fuel stack).run exec s = .ok ((b, stack'), s)) (base : b ≠ nullptr)
      (rest : Walks s stack' bs) : Walks s stack (b :: bs)

/-- The base nodes in the tree are `bs` from left to right, each once. -/
def Bases (s : Shared) (bs : List Ptr) : Prop :=
  ∃ ps, Spans s s.root ps ∧ ps.Nodup ∧ bs = ps.filter (fun p => (s.nodes p).type ≠ .route)

/-- The walk from the stack `find_base_stack` leaves for any `lo` returns every base node to the right
of the first one once, in order. -/
def VisitsAll (s : Shared) : Prop :=
  ∀ lo, (∃ fuel r, (findBaseStack fuel s.root lo).run exec s = .ok (r, s)) ∧
    ∀ fuel b stack s', (findBaseStack fuel s.root lo).run exec s = .ok ((b, stack), s') →
      ∃ before after, Bases s (before ++ b :: after) ∧ ∀ bs, Walks s stack bs ↔ bs = after

theorem Links.filter_ptrs {p : Ptr} (h : Links s p T) :
    (ptrs T).filter (fun p => (s.nodes p).type ≠ .route) = T.leaves.map Base.ptr := by
  induction T generalizing p with
  | leaf b =>
      have hb : BaseAt s b p := h
      simp [hb.type]
  | node l r t ihl iht =>
      obtain ⟨hr, hl, ht⟩ := h
      rw [ptrs_node, List.filter_append, List.filter_cons_of_neg (by simp [hr.type]), ihl hl, iht ht, leaves_node, List.map_append]

theorem Shape.bases_iff (h : Shape s T) {bs : List Ptr} : Bases s bs ↔ bs = T.leaves.map Base.ptr := by
  rw [← h.links.filter_ptrs]
  have hspans : Spans s s.root (ptrs T) := h.root ▸ h.links.spans
  constructor
  · rintro ⟨ps, hps, _, rfl⟩
    rw [hps.unique hspans]
  · rintro rfl
    exact ⟨ptrs T, hspans, h.nodup, rfl⟩

/-- What `find_next_base_stack` returns. -/
def nextResult (C : Path) (b : Base) : Ptr × List Ptr :=
  match next C b with
  | none => (nullptr, [])
  | some (C', b') => (b'.ptr, stackOf C' b')

theorem findNextBaseStack_decided (h : Neat s (plug C (leaf b))) :
    (∃ fuel, (findNextBaseStack fuel (stackOf C b)).run exec s = .ok (nextResult C b, s)) ∧
      ∀ fuel r s', (findNextBaseStack fuel (stackOf C b)).run exec s = .ok (r, s') → r = nextResult C b ∧ s' = s := by
  refine decided (p := fun fuel => findNextBaseStack fuel (stackOf C b)) (n := (plug C (leaf b)).height) fun F fuel hf => ?_
  apply findNextBaseStack_meets h hf
  unfold nextResult
  cases next C b with
  | none => exact ⟨rfl, rfl⟩
  | some x => exact ⟨rfl, rfl⟩

theorem leavesAfter_next {C' : Path} {b' : Base} (hk : Searchable Route.key (plug C (leaf b)))
    (hn : next C b = some (C', b')) : leavesAfter C = b' :: leavesAfter C' := by
  have hspec := next_spec hk
  rw [hn] at hspec
  have hl := congrArg BinTree.leaves (next_plug hn)
  simp only [leaves_plug, hspec, leaves_leaf, List.append_assoc, List.append_cancel_left_eq] at hl
  exact hl.symm

/-- The walk from a base node visits those after it. -/
theorem Neat.walks_iff (h : Neat s (plug C (leaf b))) (hk : Searchable Route.key (plug C (leaf b))) {bs : List Ptr} :
    Walks s (stackOf C b) bs ↔ bs = (leavesAfter C).map Base.ptr := by
  generalize hlen : (leavesAfter C).length = n
  induction n generalizing C b bs with
  | zero =>
      rw [List.length_eq_zero_iff] at hlen
      have hn : next C b = none := by
        rcases hn : next C b with _ | ⟨C', b'⟩
        · rfl
        · have := leavesAfter_next hk hn
          rw [hlen] at this
          cases this
      obtain ⟨⟨fuel, hrun⟩, hall⟩ := findNextBaseStack_decided h
      rw [nextResult, hn] at hrun hall
      rw [hlen]
      constructor
      · intro hw
        cases hw with
        | done _ => rfl
        | step first base _ => exact absurd (congrArg Prod.fst (hall _ _ _ first).1) base
      · rintro rfl
        exact .done hrun
  | succ n ih =>
      obtain ⟨C', b', hn⟩ : ∃ C' b', next C b = some (C', b') := by
        rcases hn : next C b with _ | ⟨C', b'⟩
        · have hspec := next_spec hk
          rw [hn] at hspec
          rw [hspec] at hlen
          cases hlen
        · exact ⟨C', b', rfl⟩
      have hafter := leavesAfter_next hk hn
      obtain ⟨⟨fuel, hrun⟩, hall⟩ := findNextBaseStack_decided h
      rw [nextResult, hn] at hrun hall
      rw [← next_plug hn] at h hk
      have hih : ∀ bs, Walks s (stackOf C' b') bs ↔ bs = (leavesAfter C').map Base.ptr := by
        intro bs
        rw [hafter] at hlen
        exact ih h hk (Nat.succ.inj hlen)
      have hb' : b'.ptr ≠ nullptr := h.shape.base.allocated.ne_null
      rw [hafter, List.map_cons]
      constructor
      · intro hw
        cases hw with
        | done last => exact absurd (congrArg Prod.fst (hall _ _ _ last).1).symm hb'
        | step first _ rest =>
            obtain ⟨hfirst, _⟩ := hall _ _ _ first
            cases hfirst
            rw [(hih _).mp rest]
      · rintro rfl
        exact .step hrun hb' ((hih _).mpr rfl)

theorem Neat.visitsAll (h : Neat s T) (hk : Searchable Route.key T) : VisitsAll s := by
  intro lo
  have hplug : plug (firstPath lo T) (leaf (firstBase lo T)) = T := plug_descend _ T []
  obtain ⟨⟨fuel, hrun⟩, hall⟩ := decided (p := fun fuel => findBaseStack fuel s.root lo)
    (x := ((firstBase lo T).ptr, stackOf (firstPath lo T) (firstBase lo T))) (n := T.height) fun F fuel hf => by
      unfold findBaseStack
      rw [h.shape.root]
      exact findBaseStackLoop_meets (C := []) h.shape.links hf ⟨rfl, rfl⟩
  refine ⟨⟨fuel, _, hrun⟩, fun fuel b stack s' hrun => ?_⟩
  obtain ⟨he, _⟩ := hall fuel _ s' hrun
  cases he
  refine ⟨(leavesBefore (firstPath lo T)).map Base.ptr, (leavesAfter (firstPath lo T)).map Base.ptr, ?_, fun bs => ?_⟩
  · rw [h.shape.bases_iff]
    conv_rhs => rw [← hplug, leaves_plug]
    simp
  · rw [← hplug] at h hk
    exact h.walks_iff hk

/-- In the runs whose steps meet the condition, the walk visits every base node. -/
theorem runs_visitsAll {ls : List (Act × Result)} (hi : Initial s₀)
    (h : Run (fun s l s' => Steps s l s' ∧ Apart s l.1) s₀ ls s) : VisitsAll s := by
  obtain ⟨T, hT, hk⟩ := runs_searchable hi h
  exact hT.toNeat.visitsAll hk

theorem runs_visitsAll_split : VisitsAll parted := by
  obtain ⟨ls, hrun⟩ := run_parted
  exact runs_visitsAll start_initial hrun

/-- Where `find_base_stack` leads with some fuel. -/
def stackFound (s : Shared) (i : ℤ) : Option (Ptr × List Ptr) :=
  match (findBaseStack 40 s.root i).run exec s with
  | .ok (r, _) => some r
  | .error _ => none

/-- The walk from the left does not climb past the upper of the two equal keys. -/
theorem visitsAll_fails_equal : ∃ s₀ s ls, Initial s₀ ∧ Run Steps s₀ ls s ∧ ¬ VisitsAll s := by
  obtain ⟨ls, hrun⟩ := run_crossed
  refine ⟨start, crossed 2, ls, start_initial, hrun, ?_⟩
  intro h
  have hstack : stackFound (crossed 2) 3 = some (11, [11, 10, 7]) := by decide +kernel
  have hspans : Spans (crossed 2) (crossed 2).root [11, 10, 12, 7, 9] := by
    have hroot : (crossed 2).root = 7 := by decide +kernel
    have hleft : ((crossed 2).nodes 7).left = 10 ∧ ((crossed 2).nodes 7).right = 9 ∧ ((crossed 2).nodes 10).left = 11 ∧
        ((crossed 2).nodes 10).right = 12 := by decide +kernel
    obtain ⟨h₁, h₂, h₃, h₄⟩ := hleft
    rw [hroot]
    show Spans _ _ ([11, 10, 12] ++ 7 :: [9])
    refine .route (by decide +kernel) ?_ ?_
    · rw [h₁]
      show Spans _ _ ([11] ++ 10 :: [12])
      refine .route (by decide +kernel) ?_ ?_
      · rw [h₃]
        exact .base (by decide +kernel) (fun d => by cases d <;> decide +kernel)
      · rw [h₄]
        exact .base (by decide +kernel) (fun d => by cases d <;> decide +kernel)
    · rw [h₂]
      exact .base (by decide +kernel) (fun d => by cases d <;> decide +kernel)
  have hfilter : [11, 10, 12, 7, 9].filter (fun p => ((crossed 2).nodes p).type ≠ .route) = [11, 12, 9] := by decide +kernel
  have hsteps : ((crossed 2).nodes 10).get (.child .left) = 11 ∧ ((crossed 2).nodes 10).get (.child .right) = 12 ∧
      ((crossed 2).nodes 12).toPlain.type ≠ .route ∧ ((crossed 2).nodes 10).toPlain.key = 4 ∧
      ((crossed 2).nodes 7).toPlain.key = 4 ∧ (crossed 2).Allocated 7 ∧ (crossed 2).Allocated 10 ∧ (crossed 2).Allocated 12 := by
    decide +kernel
  generalize crossed 2 = s at *
  obtain ⟨hleft, hright, htype, hkey, hkey', ha₁, ha₂, ha₃⟩ := hsteps
  -- the walk goes to the empty base node, and ends there
  have hfirst : Meets exec (fun _ => False) (findNextBaseStack 3 [11, 10, 7]) s (fun r s' => r = (12, [12, 10, 7]) ∧ s' = s) := by
    simp [findNextBaseStack, leftmostAndStack, meets_bind, meets_load ha₂, meets_plain ha₃, hleft, hright, htype]
  have hlast : Meets exec (fun _ => False) (findNextBaseStack 3 [12, 10, 7]) s (fun r s' => r = (nullptr, []) ∧ s' = s) := by
    simp [findNextBaseStack, findNextBaseLoop, meets_bind, meets_load ha₂, meets_plain ha₂, meets_plain ha₁,
      meets_loadValid ha₂, meets_loadValid ha₁, hleft, hkey, hkey']
  obtain ⟨_, _, hfirst, rfl, rfl⟩ := hfirst.returns
  obtain ⟨_, _, hlast, rfl, rfl⟩ := hlast.returns
  unfold stackFound at hstack
  split at hstack
  · rename_i r s' hr
    cases hstack
    obtain ⟨_, hall⟩ := h 3
    obtain ⟨before, after, ⟨ps, hps, _, hbases⟩, hwalks⟩ := hall _ _ _ _ hr
    have hafter : [12] = after := (hwalks [12]).mp (.step hfirst (by decide) (.done hlast))
    rw [hps.unique hspans, hfilter, ← hafter] at hbases
    have hlen := congrArg List.length hbases
    simp only [List.length_append, List.length_cons, List.length_nil] at hlen
    obtain ⟨p, rfl⟩ := List.length_eq_one_iff.mp (show before.length = 1 by omega)
    simp at hbases
  · cases hstack

end Lfca

end LockFreeSearchTree
