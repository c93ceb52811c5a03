import LockFreeSearchTree.MrlockErrors
import LockFreeSearchTree.MrlockHeap

/-! # The methods on the heap

The methods of `MrlockTree` do to the heap what the functions of `MrlockTree.lean` do to the tree
(`body_spec`), if they have as much fuel as there are nodes.  So no method accesses a node that has been
deleted, whatever has been thrown before: it returns or throws (`nodes_refine`).

* **Lost nodes.** An insertion whose split throws leaves its two new nodes behind; nothing else is lost.
* **Destructor.** It deletes every node of the tree once, and leaves the lost ones (`destroy_outcome`).  -/

namespace LockFreeSearchTree.MrlockHeap

open Concurrent

open MrlockTree (Update)

/-! ### The split of a base node -/

namespace Heap

theorem set_set (h : Heap) (p : Ptr) (m n : Option Node) : (h.set p m).set p n = h.set p n := by
  unfold set
  simp only [Function.update_idem]

theorem alloc_set (h : Heap) (m n : Node) : (h.alloc m).set h.next (some n) = h.alloc n := by
  unfold alloc set
  simp only [Function.update_idem]

/-- The heap with two more base nodes. -/
def twoBases (h : Heap) (left right : Option Treap) : Heap :=
  (h.alloc ⟨false, MrlockTree.Empty, left, NULL, NULL⟩).alloc ⟨false, MrlockTree.Empty, right, NULL, NULL⟩

section

variable (h : Heap) (left right : Option Treap)

theorem twoBases_left : (h.twoBases left right).nodes h.next = some ⟨false, MrlockTree.Empty, left, NULL, NULL⟩ := by
  refine (Function.update_of_ne (Nat.ne_of_lt (Nat.lt_succ_self h.next)) _ _).trans ?_
  exact Function.update_self _ _ _

theorem twoBases_right : (h.twoBases left right).nodes (h.next + 1) = some ⟨false, MrlockTree.Empty, right, NULL, NULL⟩ :=
  Function.update_self _ _ _

theorem twoBases_ne {i : Ptr} (hl : i ≠ h.next) (hr : i ≠ h.next + 1) : (h.twoBases left right).nodes i = h.nodes i :=
  (Function.update_of_ne hr _ _).trans (Function.update_of_ne hl _ _)

theorem twoBases_set_left (t : Option Treap) :
    (h.twoBases left right).set h.next (some ⟨false, MrlockTree.Empty, t, NULL, NULL⟩) = h.twoBases t right := by
  have hne : h.next ≠ h.next + 1 := Nat.ne_of_lt (Nat.lt_succ_self _)
  unfold twoBases alloc set
  simp only [Function.update_comm hne, Function.update_idem]

theorem twoBases_set_right (t : Option Treap) :
    (h.twoBases left right).set (h.next + 1) (some ⟨false, MrlockTree.Empty, t, NULL, NULL⟩) = h.twoBases left t :=
  (h.alloc _).alloc_set _ _

end

end Heap

/-- The split of a base node. -/
theorem splitBase_outcome {h : Heap} {p : Ptr} {n : Node} {t : Treap} (hs : h.Sound) (hp : h.nodes p = some n)
    (ht : n.treap = some t) : (splitBase p).outcome exec h = match t.split h.env with
      | (.error e, env) => (.error e, { h.twoBases none none with env := env })
      | (.ok (splitVal, left, right), env) => (.ok (), { (h.twoBases (some left) (some right)).set p
          (some ⟨true, splitVal, none, h.next, h.next + 1⟩) with env := env }) := by
  have hlt : p < h.next := hs.lt hp
  have hp' : ∀ a b, (h.twoBases a b).nodes p = some n := fun a b =>
    (h.twoBases_ne a b hlt.ne (hlt.trans (Nat.lt_succ_self _)).ne).trans hp
  unfold splitBase
  rw [outcome_new, outcome_storeIsRoute (Function.update_self _ _ _), Heap.alloc_set, outcome_new,
    outcome_storeIsRoute (Function.update_self _ _ _), Heap.alloc_set]
  show ((treapOf p >>= _).outcome exec (h.twoBases none none)) = _
  rw [outcome_treapOf (hp' _ _) ht, outcome_split]
  show _ = match t.split (h.twoBases none none).env with
    | (.error e, env) => _
    | (.ok (splitVal, left, right), env) => _
  rcases t.split (h.twoBases none none).env with ⟨e | ⟨splitVal, left, right⟩, env⟩
  · rfl
  · -- the heap with the environment the split leaves
    let g : Heap := { h with env := env }
    have hg : ∀ a b, (g.twoBases a b).nodes p = some n := hp'
    show (storeTreap h.next (some left) >>= _).outcome exec (g.twoBases none none) = _
    rw [outcome_storeTreap (g.twoBases_left none none)]
    show (storeTreap (h.next + 1) (some right) >>= _).outcome exec ((g.twoBases none none).set g.next _) = _
    rw [g.twoBases_set_left, outcome_storeTreap (g.twoBases_right (some left) none)]
    show (storeVal p splitVal >>= _).outcome exec ((g.twoBases (some left) none).set (g.next + 1) _) = _
    rw [g.twoBases_set_right, outcome_storeVal (hg _ _), outcome_storeIsRoute (Heap.nodes_set_self _ _), Heap.set_set,
      outcome_storeLeft (Heap.nodes_set_self _ _), Heap.set_set, outcome_storeRight (Heap.nodes_set_self _ _), Heap.set_set,
      outcome_last, outcome_storeTreap (Heap.nodes_set_self _ _), Heap.set_set]
    rfl

/-! ### Insertion -/

/-- The split an insertion makes throws. -/
def splitFails (val : ℤ) (n : MrlockTree.Node) (env : Env) : Bool :=
  match (n.treapFor val).immutableInsert val env with
  | (.error _, _) => false
  | (.ok treap, env) => decide (treap.getSize ≥ MrlockTree.TreapSplitThreshold) && !(treap.split env).1.isOk

/-- The nodes an insertion leaves behind. -/
def insertLost (val : ℤ) (n : MrlockTree.Node) (h : Heap) : List Ptr :=
  if splitFails val n h.env then [h.next, h.next + 1] else []

section Find

variable {α : Type} {h : Heap} {p : Ptr} {n : Node} {val : ℤ} {fuel : ℕ}

theorem find_base (hp : h.nodes p = some n) (hr : n.isRoute = false) (f : Ptr → HeapM α) :
    (find val (fuel + 1) p >>= f).outcome exec h = (f p).outcome exec h := by
  unfold find
  rw [Prog.bind_assoc', outcome_read hp, if_neg (by simp [hr])]
  rfl

theorem find_left (hp : h.nodes p = some n) (hr : n.isRoute = true) (hv : n.val ≥ val) (f : Ptr → HeapM α) :
    (find val (fuel + 1) p >>= f).outcome exec h = (find val fuel n.left >>= f).outcome exec h := by
  conv_lhs => unfold find
  rw [Prog.bind_assoc', outcome_read hp, if_pos hr, Prog.bind_assoc', outcome_read hp, if_pos hv, Prog.bind_assoc',
    outcome_read hp]

theorem find_right (hp : h.nodes p = some n) (hr : n.isRoute = true) (hv : ¬ n.val ≥ val) (f : Ptr → HeapM α) :
    (find val (fuel + 1) p >>= f).outcome exec h = (find val fuel n.right >>= f).outcome exec h := by
  conv_lhs => unfold find
  rw [Prog.bind_assoc', outcome_read hp, if_pos hr, Prog.bind_assoc', outcome_read hp, if_neg hv, Prog.bind_assoc',
    outcome_read hp]

end Find

theorem splitBase_simulates {h : Heap} {p : Ptr} {old : ℤ} {t : Treap} (hs : h.Sound) (hne : p ≠ NULL)
    (hp : h.nodes p = some ⟨false, old, some t, NULL, NULL⟩) :
    Simulates (splitBase p) h p [p] (if (t.split h.env).1.isOk then [] else [h.next, h.next + 1])
      (MrlockTree.splitBase old t h.env) := by
  have hlt : p < h.next := hs.lt hp
  have hlt' : p < h.next + 1 := hlt.trans (Nat.lt_succ_self _)
  have hne' : h.next ≠ h.next + 1 := (Nat.lt_succ_self _).ne
  have hpos : h.next + 1 ≠ NULL := (hs.next.trans (Nat.lt_succ_self _)).ne'
  unfold Simulates MrlockTree.splitBase
  rw [splitBase_outcome hs hp rfl]
  rcases t.split h.env with ⟨e | ⟨splitVal, left, right⟩, env⟩
  · have hp' : (h.twoBases none none).nodes p = _ := (h.twoBases_ne none none hlt.ne hlt'.ne).trans hp
    have heff : Effect h (h.twoBases none none) [p] [p] [h.next, h.next + 1] := by
      refine .grow hs hlt rfl rfl (fun i hi => ?_) ?_ (.refl _) (List.mem_singleton.mpr rfl)
      · simp only [List.mem_cons, List.not_mem_nil, or_false, not_or] at hi
        exact h.twoBases_ne none none hi.2.1 hi.2.2
      · simp only [List.forall_mem_cons, List.not_mem_nil, false_implies, implies_true, and_true]
        exact ⟨⟨_, hp'⟩, ⟨_, h.twoBases_left none none⟩, ⟨_, h.twoBases_right none none⟩⟩
    exact ⟨_, [p], rfl, .base hne hp', rfl, heff.withEnv h.env env⟩
  · let g := (h.twoBases (some left) (some right)).set p (some ⟨true, splitVal, none, h.next, h.next + 1⟩)
    have hgp : g.nodes p = _ := Heap.nodes_set_self _ _
    have hgl : g.nodes h.next = _ := (Heap.nodes_set_ne _ _ hlt.ne').trans (h.twoBases_left (some left) (some right))
    have hgr : g.nodes (h.next + 1) = _ := (Heap.nodes_set_ne _ _ hlt'.ne').trans (h.twoBases_right (some left) (some right))
    have heff : Effect h g [p] [p, h.next, h.next + 1] [] := by
      refine .grow hs hlt rfl rfl (fun i hi => ?_) ?_ (.refl _) (List.mem_cons_self ..)
      · simp only [List.mem_cons, List.not_mem_nil, or_false, not_or] at hi
        exact (Heap.nodes_set_ne _ _ hi.1).trans (h.twoBases_ne _ _ hi.2.1 hi.2.2)
      · simp only [List.forall_mem_cons, List.not_mem_nil, false_implies, implies_true, and_true]
        exact ⟨⟨_, hgp⟩, ⟨_, hgl⟩, ⟨_, hgr⟩⟩
    exact ⟨_, _, rfl, .route hne hgp (.base hs.next.ne' hgl) (.base hpos hgr), rfl, heff.withEnv h.env env⟩

theorem insertAt_simulates {h : Heap} {p : Ptr} {val old : ℤ} {t : Treap} (hs : h.Sound) (hne : p ≠ NULL)
    (hp : h.nodes p = some ⟨false, old, some t, NULL, NULL⟩) :
    Simulates (insertAt val p) h p [p] (insertLost val (.base old t) h) (MrlockTree.insert val (.base old t) h.env) := by
  have hnd := List.nodup_singleton p
  unfold insertLost splitFails MrlockTree.insert MrlockTree.Node.treapFor
  rcases hins : t.immutableInsert val h.env with ⟨e | t', env⟩
  · have hout : (insertAt val p).outcome exec h = (.error e, { h with env := env }) := by
      unfold insertAt
      rw [outcome_treapOf hp rfl, outcome_immutableInsert, hins]
      rfl
    exact ⟨_, _, hout, .base hne hp, rfl, (Effect.refl hs hnd).withEnv h.env env⟩
  · -- the heap in which the updated treap has been stored
    let g : Heap := { h.set p (some ⟨false, old, some t', NULL, NULL⟩) with env := env }
    have hg : g.nodes p = some ⟨false, old, some t', NULL, NULL⟩ := h.nodes_set_self _
    have heff : Effect h g [p] [p] [] :=
      (Effect.set hs hnd (List.mem_singleton.mpr rfl) (hs.lt hp) _).withEnv h.env env
    have hstored : (insertAt val p).outcome exec h = (if t'.getSize ≥ MrlockTree.TreapSplitThreshold then splitBase p
        else return ()).outcome exec g := by
      unfold insertAt
      rw [outcome_treapOf hp rfl, outcome_immutableInsert, hins]
      exact (outcome_storeTreap (h := { h with env := env }) hp _ _).trans (outcome_treapOf hg rfl _)
    by_cases hsize : t'.getSize ≥ MrlockTree.TreapSplitThreshold
    · rw [if_pos hsize] at hstored
      have hsim := splitBase_simulates heff.sound hne hg
      simp only [hsize, decide_true, Bool.true_and, if_true]
      refine .after hstored heff ?_
      show Simulates _ _ _ _ (if (!(t'.split g.env).1.isOk) = true then [g.next, g.next + 1] else []) _
      cases hok : (t'.split g.env).1.isOk <;> rw [hok] at hsim <;> exact hsim
    · rw [if_neg hsize] at hstored
      simp only [hsize, decide_false, Bool.false_and, if_false]
      exact ⟨g, [p], hstored, .base hne hg, rfl, heff⟩

/-- The addresses of the nodes below a route node. -/
theorem nodup_children {p : Ptr} {il ir : List Ptr} (h : (p :: (il ++ ir)).Nodup) : il.Nodup ∧ ir.Nodup :=
  ⟨(List.nodup_append.mp h.of_cons).1, (List.nodup_append.mp h.of_cons).2.1⟩

theorem insert_simulates (val : ℤ) : ∀ {n : MrlockTree.Node} {fuel : ℕ} {h : Heap} {p : Ptr} {ids : List Ptr}, h.Sound →
    Rep h.nodes p n ids → ids.Nodup →
    Updates fuel n.count (find val fuel p >>= insertAt val) h p ids (insertLost val n h) (MrlockTree.insert val n h.env)
  | n, 0, h, p, ids, _, hrep, _ => .inl ⟨hrep.length ▸ List.length_pos_of_mem hrep.mem, rfl⟩
  | .base old t, fuel + 1, h, p, _, hs, .base hne hp, _ =>
      .inr ((insertAt_simulates hs hne hp).of_outcome (find_base hp rfl _))
  | .route key left right, fuel + 1, h, p, _, hs, .route hne hp hl hr, hnd => by
      obtain ⟨hndl, hndr⟩ := nodup_children hnd
      have hcount : (MrlockTree.Node.route key left right).count = left.count + right.count + 1 := rfl
      unfold MrlockTree.insert insertLost splitFails MrlockTree.Node.treapFor
      by_cases hkey : key ≥ val
      · rw [if_pos hkey, if_pos hkey]
        exact .step (find_left hp rfl hkey _) (by omega) (insert_simulates val hs hl hndl) (.left hs hne hp hr hnd)
      · rw [if_neg hkey, if_neg hkey]
        exact .step (find_right hp rfl hkey _) (by omega) (insert_simulates val hs hr hndr) (.right hs hne hp hl hnd)

/-! ### Removal -/

section FindWithParent

variable {α : Type} {h : Heap} {p : Ptr} {n : Node} {val : ℤ} {fuel : ℕ}

theorem findWithParent_base (hp : h.nodes p = some n) (hr : n.isRoute = false) (parent : Ptr) (f : Ptr × Ptr → HeapM α) :
    (findWithParent val (fuel + 1) p parent >>= f).outcome exec h = (f (p, parent)).outcome exec h := by
  unfold findWithParent
  rw [Prog.bind_assoc', outcome_read hp, if_neg (by simp [hr])]
  rfl

theorem findWithParent_left (hp : h.nodes p = some n) (hr : n.isRoute = true) (hv : n.val ≥ val) (parent : Ptr)
    (f : Ptr × Ptr → HeapM α) : (findWithParent val (fuel + 1) p parent >>= f).outcome exec h =
      (findWithParent val fuel n.left p >>= f).outcome exec h := by
  conv_lhs => unfold findWithParent
  rw [Prog.bind_assoc', outcome_read hp, if_pos hr, Prog.bind_assoc', outcome_read hp, if_pos hv, Prog.bind_assoc',
    outcome_read hp]

theorem findWithParent_right (hp : h.nodes p = some n) (hr : n.isRoute = true) (hv : ¬ n.val ≥ val) (parent : Ptr)
    (f : Ptr × Ptr → HeapM α) : (findWithParent val (fuel + 1) p parent >>= f).outcome exec h =
      (findWithParent val fuel n.right p >>= f).outcome exec h := by
  conv_lhs => unfold findWithParent
  rw [Prog.bind_assoc', outcome_read hp, if_pos hr, Prog.bind_assoc', outcome_read hp, if_neg hv, Prog.bind_assoc',
    outcome_read hp]

end FindWithParent

/-- The merge of two base nodes, and the deletion of their nodes. -/
theorem mergeBases_simulates {h : Heap} {p l r : Ptr} {key lval rval : ℤ} {left right : Treap} (hs : h.Sound) (hne : p ≠ NULL)
    (hp : h.nodes p = some ⟨true, key, none, l, r⟩) (hl : Rep h.nodes l (.base lval left) [l])
    (hr : Rep h.nodes r (.base rval right) [r]) (hnd : [p, l, r].Nodup) :
    Simulates (mergeBases p) h p [p, l, r] []
      (MrlockTree.mergeBases (.route key (.base lval left) (.base rval right)) h.env) := by
  have hpl : p ≠ l := by
    rintro rfl
    simp at hnd
  have hpr : p ≠ r := by
    rintro rfl
    simp at hnd
  have hlr : l ≠ r := by
    rintro rfl
    simp at hnd
  obtain ⟨hlne, hl'⟩ : l ≠ NULL ∧ h.nodes l = some ⟨false, lval, some left, NULL, NULL⟩ := by
    cases hl with
    | base hne hl => exact ⟨hne, hl⟩
  obtain ⟨hrne, hr'⟩ : r ≠ NULL ∧ h.nodes r = some ⟨false, rval, some right, NULL, NULL⟩ := by
    cases hr with
    | base hne hr => exact ⟨hne, hr⟩
  have hrep : Rep h.nodes p (.route key (.base lval left) (.base rval right)) [p, l, r] := .route hne hp hl hr
  unfold MrlockTree.mergeBases
  dsimp only
  by_cases hsize : left.getSize + right.getSize ≤ MrlockTree.TreapMergeThreshold
  · rw [if_pos hsize]
    rcases hm : Treap.merge left right h.env with ⟨e | t, env⟩
    · refine ⟨{ h with env := env }, _, ?_, hrep, rfl, (Effect.refl hs hnd).withEnv h.env env⟩
      unfold mergeBases
      rw [outcome_read hp, outcome_treapOf hl' rfl, outcome_read hp, outcome_treapOf hr' rfl, if_pos hsize, outcome_merge, hm]
      rfl
    · -- the heaps between the deletions
      let g₀ : Heap := { h with env := env }
      let g₁ := g₀.set p (some ⟨false, key, some t, l, r⟩)
      let g₂ := g₁.set l none
      let g₃ := g₂.set p (some ⟨false, key, some t, NULL, r⟩)
      let g₄ := g₃.set r none
      let g₅ := g₄.set p (some ⟨false, key, some t, NULL, NULL⟩)
      have hl₁ : g₁.nodes l = _ := (g₀.nodes_set_ne _ hpl.symm).trans hl'
      have hp₂ : g₂.nodes p = _ := (g₁.nodes_set_ne _ hpl).trans (g₀.nodes_set_self _)
      have hr₃ : g₃.nodes r = _ := (g₂.nodes_set_ne _ hpr.symm).trans ((g₁.nodes_set_ne _ hlr.symm).trans
        ((g₀.nodes_set_ne _ hpr.symm).trans hr'))
      have hp₄ : g₄.nodes p = _ := (g₃.nodes_set_ne _ hpr).trans (g₂.nodes_set_self _)
      refine ⟨g₅, [p], ?_, .base hne (g₄.nodes_set_self _), rfl, ?_⟩
      · unfold mergeBases
        rw [outcome_read hp, outcome_treapOf hl' rfl, outcome_read hp, outcome_treapOf hr' rfl, if_pos hsize, outcome_merge, hm]
        show (storeTreap p (some t) >>= _).outcome exec g₀ = _
        rw [outcome_storeTreap (h := g₀) hp, outcome_storeIsRoute (Heap.nodes_set_self _ _), Heap.set_set]
        show (read p >>= _).outcome exec g₁ = _
        rw [outcome_read (Heap.nodes_set_self _ _), outcome_delete hl₁ hlne]
        show (storeLeft p NULL >>= _).outcome exec g₂ = _
        rw [outcome_storeLeft hp₂]
        show (read p >>= _).outcome exec g₃ = _
        rw [outcome_read (Heap.nodes_set_self _ _), outcome_delete hr₃ hrne]
        show (storeRight p NULL).outcome exec g₄ = _
        rw [outcome_last, outcome_storeRight hp₄]
        rfl
      · have hlt : p < h.next := hs.lt hp
        have hmem : ∀ ids : List Ptr, p ∈ p :: ids := fun ids => List.mem_cons_self ..
        have hswap : [p, l, r].Perm (l :: [p, r]) := .swap l p [r]
        have e₀ : Effect h g₀ [p, l, r] [p, l, r] [] := (Effect.refl hs hnd).withEnv h.env env
        have e₁ : Effect g₀ g₁ [p, l, r] [p, l, r] [] := .set e₀.sound hnd (hmem _) hlt _
        have e₂ : Effect g₁ g₂ [p, l, r] [p, r] [] :=
          (Effect.delete e₁.sound (hswap.nodup_iff.mp hnd)).perm hswap (.refl _)
        have hnd' : [p, r].Nodup := by
          rw [← List.append_nil [p, r]]
          exact e₂.nodup
        have e₃ : Effect g₂ g₃ [p, r] [p, r] [] := .set e₂.sound hnd' (hmem _) hlt _
        have e₄ : Effect g₃ g₄ [p, r] [p] [] :=
          (Effect.delete e₃.sound ((List.Perm.swap r p []).nodup_iff.mp hnd')).perm (.swap r p []) (.refl _)
        have e₅ : Effect g₄ g₅ [p] [p] [] := .set e₄.sound (List.nodup_singleton p) (hmem _) hlt _
        exact ((((e₀.trans e₁).trans e₂).trans e₃).trans e₄).trans e₅
  · rw [if_neg hsize]
    refine ⟨h, _, ?_, hrep, rfl, .refl hs hnd⟩
    unfold mergeBases
    rw [outcome_read hp, outcome_treapOf hl' rfl, outcome_read hp, outcome_treapOf hr' rfl, if_neg hsize]
    rfl

theorem mergeIsPossible_outcome {α : Type} {h : Heap} {p : Ptr} {n m m' : Node} (hne : p ≠ NULL) (hp : h.nodes p = some n)
    (hl : h.nodes n.left = some m) (hr : h.nodes n.right = some m') (f : Bool → HeapM α) :
    (mergeIsPossible p >>= f).outcome exec h = (f (!m.isRoute && !m'.isRoute)).outcome exec h := by
  unfold mergeIsPossible
  rw [if_neg hne, Prog.bind_assoc', outcome_read hp, Prog.bind_assoc', outcome_read hl]
  cases hm : m.isRoute with
  | true => rfl
  | false =>
      rw [if_neg Bool.false_ne_true, Prog.bind_assoc', outcome_read hp, Prog.bind_assoc', outcome_read hr]
      rfl

theorem mergeIfPossible_simulates {h : Heap} {p l r : Ptr} {key : ℤ} {left right : MrlockTree.Node} {il ir : List Ptr}
    (hs : h.Sound) (hne : p ≠ NULL) (hp : h.nodes p = some ⟨true, key, none, l, r⟩) (hl : Rep h.nodes l left il)
    (hr : Rep h.nodes r right ir) (hnd : (p :: (il ++ ir)).Nodup) :
    Simulates (mergeIfPossible p) h p (p :: (il ++ ir)) [] (MrlockTree.mergeBases (.route key left right) h.env) := by
  have hrep : Rep h.nodes p (.route key left right) (p :: (il ++ ir)) := .route hne hp hl hr
  obtain ⟨ml, hml, hlr⟩ := hl.isRoute
  obtain ⟨mr, hmr, hrr⟩ := hr.isRoute
  have hout : (mergeIfPossible p).outcome exec h = _ := mergeIsPossible_outcome hne hp hml hmr _
  rw [hlr, hrr] at hout
  -- nothing is merged but two base nodes
  have hstays : (!left.isRoute && !right.isRoute) = false →
      Simulates (mergeIfPossible p) h p (p :: (il ++ ir)) [] (.ok (), .route key left right, h.env) := by
    intro hroute
    rw [hroute] at hout
    exact ⟨h, _, hout, hrep, rfl, .refl hs hnd⟩
  cases hl with
  | route => exact hstays rfl
  | base hlne hl =>
      cases hr with
      | route => exact hstays rfl
      | base hrne hr => exact (mergeBases_simulates hs hne hp (.base hlne hl) (.base hrne hr) hnd).of_outcome hout

theorem removeAt_outcome {h : Heap} {q : Ptr} {n : Node} {t : Treap} (hq : h.nodes q = some n) (ht : n.treap = some t) (val : ℤ)
    (parent : Ptr) : (removeAt val q parent).outcome exec h = match t.immutableRemove val h.env with
      | (.error e, env) => (.error e, { h with env := env })
      | (.ok (t', success), env) => (mergeIfPossible parent >>= fun _ => pure success).outcome exec
          { h.set q (some { n with treap := some t' }) with env := env } := by
  unfold removeAt
  rw [outcome_treapOf hq ht, outcome_immutableRemove]
  rcases t.immutableRemove val h.env with ⟨e | ⟨t', success⟩, env⟩
  · rfl
  · exact outcome_storeTreap (h := { h with env := env }) hq _ _

/-- A removal in a child of `p`, which `f` puts into its place, and the merge after it. -/
theorem removeAt_simulates {h : Heap} {p q : Ptr} {ids : List Ptr} {old val : ℤ} {t : Treap}
    {f : MrlockTree.Node → MrlockTree.Node} (hs : h.Sound) (hq : h.nodes q = some ⟨false, old, some t, NULL, NULL⟩)
    (hmem : q ∈ ids) (hnd : ids.Nodup) (hrep : Rep h.nodes p (f (.base old t)) ids)
    (hmerge : ∀ (g : Heap) (t' : Treap), g.Sound → g.nodes q = some ⟨false, old, some t', NULL, NULL⟩ →
      (∀ i, i ≠ q → g.nodes i = h.nodes i) →
      Simulates (mergeIfPossible p) g p ids [] (MrlockTree.mergeBases (f (.base old t')) g.env)) :
    Simulates (removeAt val q p) h p ids []
      (MrlockTree.afterRemove (.base old t) ((MrlockTree.remove val (.base old t) h.env).below f)) := by
  have hout := removeAt_outcome hq rfl val p
  unfold MrlockTree.afterRemove MrlockTree.remove
  rw [if_neg (show ¬ MrlockTree.Node.isRoute (.base old t) = true from Bool.false_ne_true)]
  rcases hrem : t.immutableRemove val h.env with ⟨e | ⟨t', success⟩, env⟩
  · rw [hrem] at hout
    exact ⟨_, _, hout, hrep, rfl, (Effect.refl hs hnd).withEnv h.env env⟩
  · rw [hrem] at hout
    -- the heap in which the updated treap has been stored
    let g : Heap := { h.set q (some ⟨false, old, some t', NULL, NULL⟩) with env := env }
    have heff : Effect h g ids ids [] := (Effect.set hs hnd hmem (hs.lt hq) _).withEnv h.env env
    refine Simulates.after hout heff ?_
    have hsim : Simulates (mergeIfPossible p) g p ids [] (MrlockTree.mergeBases (f (.base old t')) env) :=
      hmerge g t' heff.sound (h.nodes_set_self _) fun i hi => h.nodes_set_ne _ hi
    obtain ⟨h', ids', hout', hrep', henv', heff'⟩ := hsim
    have hlast := Prog.outcome_bind exec (mergeIfPossible p) (fun _ => (pure success : HeapM Bool)) g
    rw [hout'] at hlast
    unfold MrlockTree.Update.below
    dsimp only
    rcases hm : MrlockTree.mergeBases (f (.base old t')) env with ⟨e | _, node, env'⟩ <;> rw [hm] at hlast hrep' henv'
    · exact ⟨h', ids', hlast, hrep', henv', heff'⟩
    · exact ⟨h', ids', hlast, hrep', henv', heff'⟩

theorem exists_base {n : MrlockTree.Node} (h : n.isRoute = false) : ∃ val t, n = .base val t := by
  cases n with
  | base val t => exact ⟨val, t, rfl⟩
  | route => cases h

/-- The search of a removal at a base node. -/
theorem Updates.found {h : Heap} {p q : Ptr} {n : Node} {val : ℤ} {ids lost : List Ptr} {u : Update Bool} {fuel : ℕ}
    (hq : h.nodes q = some n) (hr : n.isRoute = false) (hsim : Simulates (removeAt val q p) h p ids lost u) :
    Updates fuel 1 (findWithParent val fuel q p >>= fun x => removeAt val x.1 x.2) h p ids lost u := by
  cases fuel with
  | zero => exact .inl ⟨Nat.zero_lt_one, rfl⟩
  | succ fuel => exact .inr (hsim.of_outcome (findWithParent_base hq hr p _))

/-- A removal below a route node. -/
theorem remove_simulates_route (val : ℤ) : ∀ {n : MrlockTree.Node} {fuel : ℕ} {h : Heap} {p : Ptr} {ids : List Ptr} (parent : Ptr),
    n.isRoute = true → h.Sound → Rep h.nodes p n ids → ids.Nodup →
    Updates fuel n.count (findWithParent val fuel p parent >>= fun x => removeAt val x.1 x.2) h p ids []
      (MrlockTree.remove val n h.env)
  | n, 0, h, p, ids, _, _, _, hrep, _ => .inl ⟨hrep.length ▸ List.length_pos_of_mem hrep.mem, rfl⟩
  | .route key left right, fuel + 1, h, p, _, _, _, hs, .route (l := l) (r := r) hne hp hl hr, hnd => by
      obtain ⟨hndl, hndr⟩ := nodup_children hnd
      have hcount : (MrlockTree.Node.route key left right).count = left.count + right.count + 1 := rfl
      have hrep := Rep.route hne hp hl hr
      unfold MrlockTree.remove
      by_cases hkey : key ≥ val
      · rw [if_pos hkey]
        cases hroute : left.isRoute with
        | true =>
            unfold MrlockTree.afterRemove
            rw [if_pos hroute]
            exact .step (findWithParent_left hp rfl hkey _ _) (by omega) (remove_simulates_route val p hroute hs hl hndl)
              (.left hs hne hp hr hnd)
        | false =>
            obtain ⟨old, t, rfl⟩ := exists_base hroute
            cases hl with
            | base hlne hl =>
                have hpl : p ≠ l := by
                  rintro rfl
                  simp at hnd
                refine .step (findWithParent_left hp rfl hkey _ _) (Nat.lt_succ_of_le (Nat.le_add_right 1 _))
                  (.found hl rfl (removeAt_simulates hs hl (by simp) hnd hrep fun g t' hg hgl hsame => ?_)) id
                refine mergeIfPossible_simulates hg hne ((hsame p hpl).trans hp) (.base hlne hgl) (hr.congr fun i hi => hsame i ?_) hnd
                rintro rfl
                simp [hi] at hnd
      · rw [if_neg hkey]
        cases hroute : right.isRoute with
        | true =>
            unfold MrlockTree.afterRemove
            rw [if_pos hroute]
            exact .step (findWithParent_right hp rfl hkey _ _) (by omega) (remove_simulates_route val p hroute hs hr hndr)
              (.right hs hne hp hl hnd)
        | false =>
            obtain ⟨old, t, rfl⟩ := exists_base hroute
            cases hr with
            | base hrne hr =>
                have hpr : p ≠ r := by
                  rintro rfl
                  simp at hnd
                refine .step (findWithParent_right hp rfl hkey _ _) (Nat.lt_succ_of_le (Nat.le_add_left 1 _))
                  (.found hr rfl (removeAt_simulates hs hr (by simp) hnd hrep fun g t' hg hgr hsame => ?_)) id
                refine mergeIfPossible_simulates hg hne ((hsame p hpr).trans hp) (hl.congr fun i hi => hsame i ?_) (.base hrne hgr) hnd
                rintro rfl
                exact List.disjoint_of_nodup_append hnd.of_cons hi (List.mem_singleton.mpr rfl)

/-- A removal from a whole tree. -/
theorem remove_simulates (val : ℤ) {n : MrlockTree.Node} {fuel : ℕ} {h : Heap} {p : Ptr} {ids : List Ptr} (hs : h.Sound)
    (hrep : Rep h.nodes p n ids) (hnd : ids.Nodup) :
    Updates fuel n.count (findWithParent val fuel p NULL >>= fun x => removeAt val x.1 x.2) h p ids []
      (MrlockTree.remove val n h.env) := by
  cases hroute : n.isRoute with
  | true => exact remove_simulates_route val NULL hroute hs hrep hnd
  | false =>
      obtain ⟨old, t, rfl⟩ := exists_base hroute
      cases hrep with
      | base hne hp =>
          cases fuel with
          | zero => exact .inl ⟨Nat.zero_lt_one, rfl⟩
          | succ fuel =>
              refine .inr (.of_outcome (findWithParent_base hp rfl NULL _) ?_)
              have hout := removeAt_outcome hp rfl val NULL
              unfold Simulates MrlockTree.remove
              rcases hrem : t.immutableRemove val h.env with ⟨e | ⟨t', success⟩, env⟩
              · rw [hrem] at hout
                exact ⟨_, _, hout, .base hne hp, rfl, (Effect.refl hs hnd).withEnv h.env env⟩
              · rw [hrem] at hout
                exact ⟨_, _, hout, .base hne (h.nodes_set_self _), rfl,
                  (Effect.set hs hnd (List.mem_singleton.mpr rfl) (hs.lt hp) _).withEnv h.env env⟩

/-! ### Calls that only read -/

/-- The program runs out of fuel, which it may if there is less than `n`, or ends in `r`; nothing changes. -/
def Reads {α : Type} (fuel n : ℕ) (m : HeapM α) (h : Heap) (r : Except Fault α) : Prop :=
  fuel < n ∧ m.outcome exec h = (.error .outOfFuel, h) ∨ m.outcome exec h = (r, h)

theorem Reads.step {α : Type} {m m' : HeapM α} {h : Heap} {r : Except Fault α} {fuel n n' : ℕ}
    (hout : m.outcome exec h = m'.outcome exec h) (hn : n < n') (hr : Reads fuel n m' h r) : Reads (fuel + 1) n' m h r := by
  rcases hr with ⟨hlt, hfail⟩ | hr
  · exact .inl ⟨(Nat.succ_le_of_lt hlt).trans_lt hn, hout.trans hfail⟩
  · exact .inr (hout.trans hr)

theorem lookup_reads (val : ℤ) : ∀ {n : MrlockTree.Node} {fuel : ℕ} {h : Heap} {p : Ptr} {ids : List Ptr}, Rep h.nodes p n ids →
    Reads fuel n.count (find val fuel p >>= fun q => do Prog.ofExcept ((← treapOf q).contains val)) h (MrlockTree.lookup val n)
  | n, 0, h, p, ids, hrep => .inl ⟨hrep.length ▸ List.length_pos_of_mem hrep.mem, rfl⟩
  | .base old t, fuel + 1, h, p, _, .base hne hp => by
      refine .inr ?_
      rw [find_base hp rfl, outcome_treapOf hp rfl]
      unfold MrlockTree.lookup
      cases t.contains val <;> rfl
  | .route key left right, fuel + 1, h, p, _, .route hne hp hl hr => by
      have hcount : (MrlockTree.Node.route key left right).count = left.count + right.count + 1 := rfl
      unfold MrlockTree.lookup
      by_cases hkey : key ≥ val
      · rw [if_pos hkey]
        exact .step (find_left hp rfl hkey _) (by omega) (lookup_reads val hl)
      · rw [if_neg hkey]
        exact .step (find_right hp rfl hkey _) (by omega) (lookup_reads val hr)

/-- The loops of the range query on the two stacks. -/
theorem rangeQueryLoop_outcome (low high : ℤ) {h : Heap} : ∀ (fuel : ℕ) {ps : List Ptr} {ns : List MrlockTree.Node} (acc : List ℤ),
    List.Forall₂ (fun p n => ∃ ids, Rep h.nodes p n ids) ps ns →
    (rangeQueryLoop low high fuel ps acc).outcome exec h = (MrlockTree.rangeQueryLoop low high fuel ns acc, h)
  | fuel, [], [], acc, .nil => by
      unfold rangeQueryLoop MrlockTree.rangeQueryLoop
      rfl
  | 0, _ :: _, _ :: _, acc, .cons _ _ => rfl
  | fuel + 1, p :: ps, .base val t :: ns, acc, .cons ⟨_, .base hne hp⟩ hrest => by
      unfold rangeQueryLoop MrlockTree.rangeQueryLoop
      rw [outcome_read hp, if_pos (by simp), outcome_treapOf hp rfl]
      rcases t.rangeQuery low high with e | values
      · rfl
      · exact rangeQueryLoop_outcome low high fuel (acc ++ values) hrest
  | fuel + 1, p :: ps, .route key left right :: ns, acc, .cons ⟨_, .route hne hp hl hr⟩ hrest => by
      unfold rangeQueryLoop MrlockTree.rangeQueryLoop
      rw [outcome_read hp, if_neg (by simp), outcome_read hp]
      refine rangeQueryLoop_outcome low high fuel acc ?_
      split_ifs
      · exact .cons ⟨_, hr⟩ (.cons ⟨_, hl⟩ hrest)
      · exact .cons ⟨_, hr⟩ hrest
      · exact .cons ⟨_, hl⟩ hrest
      · exact hrest

/-- A range query that does not run out of fuel ends in the same with more. -/
theorem rangeQueryLoop_more (low high : ℤ) : ∀ (fuel k : ℕ) {ns : List MrlockTree.Node} {acc : List ℤ} {r : Except Fault (List ℤ)},
    MrlockTree.rangeQueryLoop low high fuel ns acc = r → r ≠ .error .outOfFuel →
    MrlockTree.rangeQueryLoop low high (fuel + k) ns acc = r
  | fuel, k, [], acc, r, h, _ => by
      unfold MrlockTree.rangeQueryLoop at h ⊢
      exact h
  | 0, k, n :: ns, acc, r, h, hr => absurd h.symm hr
  | fuel + 1, k, .base val t :: ns, acc, r, h, hr => by
      rw [Nat.add_right_comm]
      unfold MrlockTree.rangeQueryLoop at h ⊢
      rcases hv : t.rangeQuery low high with e | values <;> rw [hv] at h
      · exact h
      · exact rangeQueryLoop_more low high fuel k h hr
  | fuel + 1, k, .route key left right :: ns, acc, r, h, hr => by
      rw [Nat.add_right_comm]
      unfold MrlockTree.rangeQueryLoop at h ⊢
      exact rangeQueryLoop_more low high fuel k h hr

/-- As much fuel as there are nodes is enough. -/
theorem rangeQueryLoop_enough (low high : ℤ) : ∀ (fuel k : ℕ) {ns : List MrlockTree.Node} {acc : List ℤ},
    (ns.map MrlockTree.Node.count).sum ≤ fuel →
    MrlockTree.rangeQueryLoop low high (fuel + k) ns acc = MrlockTree.rangeQueryLoop low high fuel ns acc
  | fuel, k, [], acc, _ => by
      unfold MrlockTree.rangeQueryLoop
      rfl
  | 0, k, n :: ns, acc, h => by
      have hpos : 0 < n.count := by cases n <;> exact Nat.succ_pos _
      rw [List.map_cons, List.sum_cons] at h
      omega
  | fuel + 1, k, .base val t :: ns, acc, h => by
      rw [Nat.add_right_comm]
      unfold MrlockTree.rangeQueryLoop
      rw [List.map_cons, List.sum_cons] at h
      have hcount : (MrlockTree.Node.base val t).count = 1 := rfl
      rcases t.rangeQuery low high with e | values
      · rfl
      · exact rangeQueryLoop_enough low high fuel k (by omega)
  | fuel + 1, k, .route key left right :: ns, acc, h => by
      rw [Nat.add_right_comm]
      unfold MrlockTree.rangeQueryLoop
      rw [List.map_cons, List.sum_cons] at h
      have hcount : (MrlockTree.Node.route key left right).count = left.count + right.count + 1 := rfl
      refine rangeQueryLoop_enough low high fuel k ?_
      split_ifs
      · rw [List.map_cons, List.map_cons, List.sum_cons, List.sum_cons]
        omega
      · rw [List.map_cons, List.sum_cons]
        omega
      · rw [List.map_cons, List.sum_cons]
        omega
      · omega

theorem rangeQuery_reads (low high : ℤ) {n : MrlockTree.Node} {fuel : ℕ} {h : Heap} {p : Ptr} {ids : List Ptr}
    (hrep : Rep h.nodes p n ids) :
    Reads fuel n.count (rangeQueryLoop low high fuel [p] []) h (MrlockTree.rangeQuery low high n) := by
  have hout := rangeQueryLoop_outcome low high fuel [] (.cons ⟨ids, hrep⟩ .nil)
  have henough : ([n].map MrlockTree.Node.count).sum ≤ n.count := by simp
  unfold Reads MrlockTree.rangeQuery
  rw [hout]
  by_cases hle : n.count ≤ fuel
  · obtain ⟨k, rfl⟩ := Nat.exists_eq_add_of_le hle
    rw [rangeQueryLoop_enough low high n.count k henough]
    exact .inr rfl
  · by_cases hr : MrlockTree.rangeQueryLoop low high fuel [n] [] = .error .outOfFuel
    · rw [hr]
      exact .inl ⟨not_le.mp hle, rfl⟩
    · obtain ⟨k, hk⟩ := Nat.exists_eq_add_of_le (not_le.mp hle).le
      rw [hk, rangeQueryLoop_more low high fuel k rfl hr]
      exact .inr rfl

/-! ### Calls -/

/-- The state `s` is on the heap: its tree at `ids`.  All the nodes there are have been made since the heap
was empty, and those that are not in the tree are `lost`. -/
structure Holds (h : Heap) (s : MrlockTree.State) (ids lost : List Ptr) : Prop where
  rep : Rep h.nodes h.head s.head ids
  env : h.env = s.env
  grown : ∃ h₀, (∀ i, h₀.nodes i = none) ∧ Effect h₀ h [] ids lost

namespace Holds

variable {h : Heap} {s : MrlockTree.State} {ids lost : List Ptr}

theorem sound (hh : Holds h s ids lost) : h.Sound := hh.grown.elim fun _ hg => hg.2.sound

theorem nodup (hh : Holds h s ids lost) : (ids ++ lost).Nodup := hh.grown.elim fun _ hg => hg.2.nodup

/-- There is a node at the addresses of the tree and those that are lost, and nowhere else. -/
theorem allocated_iff (hh : Holds h s ids lost) (i : Ptr) : (∃ n, h.nodes i = some n) ↔ i ∈ ids ++ lost := by
  obtain ⟨h₀, hempty, heff⟩ := hh.grown
  constructor
  · rintro ⟨n, hn⟩
    by_contra hnot
    rw [List.mem_append, not_or] at hnot
    have hnone : h.nodes i = none := by
      by_cases hi : i < h₀.next
      · exact (heff.frame i hi (List.not_mem_nil)).trans (hempty i)
      · exact heff.gone i (.inr (not_lt.mp hi)) hnot.1 hnot.2
    rw [hnone] at hn
    cases hn
  · intro hi
    cases List.mem_append.mp hi with
    | inl hi => exact hh.rep.allocated i hi
    | inr hi => exact (heff.stray i hi).2

end Holds

/-- The nodes a call leaves behind. -/
def callLost (s : MrlockTree.State) (h : Heap) : Call → List Ptr
  | .insert val => insertLost val s.head h
  | _ => []

section Body

variable {α : Type} {m : HeapM α} {h : Heap} {s : MrlockTree.State} {ids lost lost' : List Ptr} {fuel n : ℕ}

/-- A call that ends with `m`. -/
theorem Updates.call {u : Update α} (hupd : Updates fuel n m h h.head ids lost' u) (hh : Holds h s ids lost) (f : α → Result) :
    fuel < n ∧ (m >>= fun a => pure (f a)).outcome exec h = (.error .outOfFuel, h) ∨
      ∃ h' ids', (m >>= fun a => pure (f a)).outcome exec h = (u.1.map f, h') ∧ Holds h' ⟨u.2.1, u.2.2⟩ ids' (lost ++ lost') := by
  have hbind := Prog.outcome_bind exec m (fun a => (pure (f a) : HeapM Result)) h
  rcases hupd with ⟨hlt, hout⟩ | ⟨h', ids', hout, hrep, henv, heff⟩
  · rw [hout] at hbind
    exact .inl ⟨hlt, hbind⟩
  · refine .inr ⟨h', ids', ?_, ?_⟩
    · rw [hbind, hout]
      cases u.1 <;> rfl
    · obtain ⟨h₀, hempty, heff₀⟩ := hh.grown
      exact ⟨heff.head ▸ hrep, henv, h₀, hempty, heff₀.trans heff⟩

theorem Reads.call {r : Except Fault α} (hr : Reads fuel n m h r) (hh : Holds h s ids lost) (f : α → Result) :
    fuel < n ∧ (m >>= fun a => pure (f a)).outcome exec h = (.error .outOfFuel, h) ∨
      ∃ h' ids', (m >>= fun a => pure (f a)).outcome exec h = (r.map f, h') ∧ Holds h' s ids' (lost ++ []) := by
  have hbind := Prog.outcome_bind exec m (fun a => (pure (f a) : HeapM Result)) h
  rcases hr with ⟨hlt, hout⟩ | hout
  · rw [hout] at hbind
    exact .inl ⟨hlt, hbind⟩
  · refine .inr ⟨h, ids, ?_, (List.append_nil lost).symm ▸ hh⟩
    rw [hbind, hout]
    cases r <;> rfl

/-- A call runs out of fuel, which it may if there is less than there are nodes, or does to the heap what
it does to the tree. -/
theorem body_spec (hh : Holds h s ids lost) (fuel : ℕ) (c : Call) :
    fuel < s.head.count ∧ (body fuel c).outcome exec h = (.error .outOfFuel, h) ∨
      ∃ h' ids', (body fuel c).outcome exec h = ((MrlockTree.call s c).1, h') ∧
        Holds h' (MrlockTree.call s c).2 ids' (lost ++ callLost s h c) := by
  have hnd := (List.nodup_append.mp hh.nodup).1
  cases c with
  | insert val =>
      have hupd : Updates fuel s.head.count _ h h.head ids _ _ := insert_simulates val hh.sound hh.rep hnd
      rw [hh.env] at hupd
      exact hupd.call hh fun _ => .void
  | remove val =>
      have hupd : Updates fuel s.head.count _ h h.head ids _ _ := remove_simulates val hh.sound hh.rep hnd
      rw [hh.env] at hupd
      exact hupd.call hh .bool
  | lookup val => exact (lookup_reads val hh.rep).call hh .bool
  | rangeQuery low high => exact (rangeQuery_reads low high hh.rep).call hh .vector

end Body

/-! ### The constructor and the destructor -/

/-- The constructor makes the tree it makes in `MrlockTree.lean`. -/
theorem create_holds {env env' : Env} {n : MrlockTree.Node} (hnew : MrlockTree.new env = (.ok (), n, env')) :
    ∃ h, create.outcome exec (empty env) = (.ok (), h) ∧ Holds h ⟨n, env'⟩ [(empty env).next] [] := by
  unfold MrlockTree.new at hnew
  rcases ht : Treap.New env with ⟨e | t, env₁⟩ <;> rw [ht] at hnew
  · cases hnew
  · simp only [Prod.mk.injEq] at hnew
    obtain ⟨-, rfl, rfl⟩ := hnew
    -- the heap in which the head is an empty node
    let g : Heap := { (empty env).alloc { val := MrlockTree.Empty } with head := (empty env).next, env := env₁ }
    have hg : g.nodes g.head = some { val := MrlockTree.Empty } :=
      (empty env).nodes_set_self (p := (empty env).next) _
    have hnone : ∀ (x : Option Node) i, i ≠ g.head → (g.set g.head x).nodes i = none := fun x i hi =>
      (g.nodes_set_ne x hi).trans (Function.update_of_ne hi _ _)
    have heff : Effect { empty env with head := g.head } (g.set g.head (some ⟨false, MrlockTree.Empty, some t, NULL, NULL⟩)) []
        [g.head] [] := by
      refine ⟨rfl, ⟨fun i hi => hnone _ i ?_, Nat.succ_pos _⟩, Nat.le_succ _, fun i hi _ => hnone _ i (Nat.ne_of_lt hi), fun i hi => ?_,
        List.nodup_singleton _, fun i _ hi _ => hnone _ i fun he => hi (List.mem_singleton.mpr he), fun i hi => (by cases hi)⟩
      · exact (Nat.lt_of_succ_le hi).ne'
      · exact .inr (List.mem_singleton.mp hi).ge
    refine ⟨g.set g.head (some ⟨false, MrlockTree.Empty, some t, NULL, NULL⟩), ?_, ?_⟩
    · have hout : create.outcome exec (empty env) =
          (Prog.ofExcept (Treap.New env).1 >>= fun treap => do
            storeTreap g.head (some treap)
            storeIsRoute g.head false).outcome exec { g with env := (Treap.New env).2 } := rfl
      rw [hout, ht]
      show (storeTreap g.head (some t) >>= _).outcome exec g = _
      rw [outcome_storeTreap hg, outcome_last, outcome_storeIsRoute (Heap.nodes_set_self _ _), Heap.set_set]
      rfl
    · exact ⟨.base (Nat.succ_ne_zero 0) (Heap.nodes_set_self _ _), rfl, _, fun _ => rfl, heff⟩

/-- Trees at the pointers of a stack, one after another. -/
inductive Stack (nodes : Ptr → Option Node) : List Ptr → List Ptr → Prop where
  | nil : Stack nodes [] []
  | cons {p : Ptr} {n : MrlockTree.Node} {ps ids ids' : List Ptr} (hp : Rep nodes p n ids) (hps : Stack nodes ps ids') :
      Stack nodes (p :: ps) (ids ++ ids')

theorem Stack.congr {nodes nodes' : Ptr → Option Node} {ps ids : List Ptr} (h : Stack nodes ps ids)
    (heq : ∀ i ∈ ids, nodes' i = nodes i) : Stack nodes' ps ids := by
  induction h with
  | nil => exact .nil
  | cons hp _ ih =>
      exact .cons (hp.congr fun i hi => heq i (List.mem_append_left _ hi)) (ih fun i hi => heq i (List.mem_append_right _ hi))

/-- The nodes at `ids` are deleted. -/
structure Deleted (h h' : Heap) (ids : List Ptr) : Prop where
  deleted : ∀ i ∈ ids, h'.nodes i = none
  frame : ∀ i, i ∉ ids → h'.nodes i = h.nodes i

theorem Deleted.cons {h h' : Heap} {p : Ptr} {ids ids' : List Ptr} (hd : Deleted (h.set p none) h' ids')
    (hperm : ids.Perm (p :: ids')) : Deleted h h' ids where
  deleted i hi := by
    by_cases hmem : i ∈ ids'
    · exact hd.deleted i hmem
    · rw [hd.frame i hmem, (List.mem_cons.mp (hperm.mem_iff.mp hi)).resolve_right hmem]
      exact h.nodes_set_self none
  frame i hi := by
    have hnot : i ∉ p :: ids' := fun hmem => hi (hperm.mem_iff.mpr hmem)
    rw [List.mem_cons, not_or] at hnot
    rw [hd.frame i hnot.2]
    exact h.nodes_set_ne none hnot.1

theorem destroyLoop_step {h : Heap} {p : Ptr} {n : Node} (hp : h.nodes p = some n) (hne : p ≠ NULL) (fuel : ℕ) (ps : List Ptr) :
    (destroyLoop (fuel + 1) (p :: ps)).outcome exec h =
      let nodeStack := if n.left ≠ NULL then n.left :: ps else ps
      let nodeStack := if n.right ≠ NULL then n.right :: nodeStack else nodeStack
      (destroyLoop fuel nodeStack).outcome exec (h.set p none) := by
  conv_lhs => unfold destroyLoop
  rw [outcome_read hp, outcome_delete hp hne]

/-- The loop of the destructor deletes every node below its stack. -/
theorem destroyLoop_outcome : ∀ (fuel : ℕ) {h : Heap} {ps ids : List Ptr}, Stack h.nodes ps ids → ids.Nodup → ids.length ≤ fuel →
    ∃ h', (destroyLoop fuel ps).outcome exec h = (.ok (), h') ∧ Deleted h h' ids
  | fuel, h, [], _, .nil, _, _ => by
      unfold destroyLoop
      exact ⟨h, rfl, fun i hi => (by cases hi), fun _ _ => rfl⟩
  | 0, h, p :: ps, _, .cons hp _, _, hle => by
      rw [List.length_append] at hle
      exact absurd (List.length_pos_of_mem hp.mem) (by omega)
  | fuel + 1, h, p :: ps, _, .cons (.base hne hp) hps, hnd, hle => by
      obtain ⟨hnot, hnd'⟩ := List.nodup_cons.mp hnd
      obtain ⟨h', hout, hdel⟩ := destroyLoop_outcome fuel (h := h.set p none)
        (hps.congr fun i hi => h.nodes_set_ne none fun he : i = p => hnot (he ▸ hi)) hnd' (Nat.le_of_succ_le_succ hle)
      rw [destroyLoop_step hp hne]
      exact ⟨h', hout, hdel.cons (.refl _)⟩
  | fuel + 1, h, p :: ps, _, .cons (.route hne hp hl hr) hps, hnd, hle => by
      obtain ⟨hnot, hnd'⟩ := List.nodup_cons.mp hnd
      -- the right child is on top of the stack
      have hstack := Stack.cons hr (.cons hl hps)
      have hperm : ∀ a b c : List Ptr, (a ++ b ++ c).Perm (b ++ (a ++ c)) := fun a b c => by
        rw [← List.append_assoc]
        exact List.perm_append_comm.append_right c
      obtain ⟨h', hout, hdel⟩ := destroyLoop_outcome fuel (h := h.set p none)
        (hstack.congr fun i hi => h.nodes_set_ne none fun he : i = p => hnot (he ▸ (hperm _ _ _).mem_iff.mpr hi))
        ((hperm _ _ _).nodup_iff.mp hnd') ((hperm _ _ _).length_eq ▸ Nat.le_of_succ_le_succ hle)
      rw [destroyLoop_step hp hne]
      refine ⟨h', ?_, hdel.cons ((hperm _ _ _).cons p)⟩
      dsimp only
      rw [if_pos hl.ne_null, if_pos hr.ne_null]
      exact hout

/-- The destructor deletes every node of the tree, and no other. -/
theorem destroy_outcome {h : Heap} {s : MrlockTree.State} {ids lost : List Ptr} (hh : Holds h s ids lost) {fuel : ℕ}
    (hfuel : s.head.count ≤ fuel) : ∃ h', (destroy fuel).outcome exec h = (.ok (), h') ∧
      (∀ i ∈ ids, h'.nodes i = none) ∧ ∀ i, (∃ n, h'.nodes i = some n) ↔ i ∈ lost := by
  have hnd := hh.nodup
  have hstack : Stack h.nodes [h.head] ids := by
    have := Stack.cons hh.rep .nil
    rwa [List.append_nil] at this
  obtain ⟨h', hout, hdel⟩ := destroyLoop_outcome fuel hstack (List.nodup_append.mp hnd).1 (hh.rep.length ▸ hfuel)
  have hrun : (destroy fuel).outcome exec h = (if h.head ≠ NULL then destroyLoop fuel [h.head] else return ()).outcome exec h := rfl
  rw [if_pos hh.rep.ne_null] at hrun
  refine ⟨h', hrun.trans hout, hdel.deleted, fun i => ?_⟩
  by_cases hi : i ∈ ids
  · rw [hdel.deleted i hi]
    constructor
    · rintro ⟨n, hn⟩
      cases hn
    · exact fun hl => absurd hl (List.disjoint_of_nodup_append hnd hi)
  · rw [hdel.frame i hi, hh.allocated_iff, List.mem_append]
    exact or_iff_right hi

/-! ### Runs -/

/-- A call on the heap, with enough fuel for its loops. -/
def Calls (h : Heap) (l : Call × Except Fault Result) (h' : Heap) : Prop :=
  ∃ fuel, (body fuel l.1).outcome exec h = (l.2, h') ∧ l.2 ≠ .error .outOfFuel

/-- An insertion that ends in an exception. -/
def failedInsert : Call × Except Fault Result → Bool
  | (.insert _, .error _) => true
  | _ => false

/-- An insertion whose split throws ends in an exception. -/
theorem insert_of_splitFails (val : ℤ) {n : MrlockTree.Node} {env : Env} (h : splitFails val n env = true) :
    ∃ e, (MrlockTree.insert val n env).1 = .error e := by
  induction n with
  | base old t =>
      unfold splitFails MrlockTree.Node.treapFor at h
      unfold MrlockTree.insert
      rcases hi : t.immutableInsert val env with ⟨e | t', env'⟩ <;> rw [hi] at h
      · exact ⟨e, rfl⟩
      · obtain ⟨hsize, hsplit⟩ := (Bool.and_eq_true _ _).mp h
        dsimp only
        rw [if_pos (of_decide_eq_true hsize)]
        unfold MrlockTree.splitBase
        rcases hs : t'.split env' with ⟨e | x, env''⟩
        · exact ⟨e, rfl⟩
        · rw [hs] at hsplit
          cases hsplit
  | route key left right ihl ihr =>
      unfold splitFails MrlockTree.Node.treapFor at h
      unfold MrlockTree.insert
      split_ifs at h ⊢
      · exact ihl h
      · exact ihr h

theorem callLost_length (s : MrlockTree.State) (h : Heap) (hh : h.env = s.env) (c : Call) :
    (callLost s h c).length ≤ 2 * [(c, (MrlockTree.call s c).1)].countP failedInsert := by
  cases c with
  | insert val =>
      show (insertLost val s.head h).length ≤ _
      unfold insertLost
      rw [hh]
      cases hf : splitFails val s.head s.env with
      | false => exact Nat.zero_le _
      | true =>
          obtain ⟨e, he⟩ := insert_of_splitFails val hf
          have hcall : (MrlockTree.call s (.insert val)).1 = .error e := by
            unfold MrlockTree.call
            dsimp only
            rw [he]
            rfl
          rw [hcall]
          exact le_rfl
  | remove | lookup | rangeQuery => exact Nat.zero_le _

/-- A run of calls on the heap is one of the tree. -/
theorem run_simulates {env env' : Env} {n : MrlockTree.Node} (hnew : MrlockTree.new env = (.ok (), n, env'))
    {h₀ h : Heap} (hcreate : create.outcome exec (empty env) = (.ok (), h₀)) {ls : List (Call × Except Fault Result)}
    (hrun : Transition.Run Calls h₀ ls h) : ∃ s ids lost, Transition.Run MrlockTree.Calls ⟨n, env'⟩ ls s ∧
      Holds h s ids lost ∧ lost.length ≤ 2 * ls.countP failedInsert := by
  induction hrun with
  | nil =>
      obtain ⟨h', hout, hh⟩ := create_holds hnew
      rw [hcreate] at hout
      cases hout
      exact ⟨_, _, [], .nil, hh, le_rfl⟩
  | @snoc ls h h' l _ hlast ih =>
      obtain ⟨c, r⟩ := l
      obtain ⟨s, ids, lost, hruns, hh, hlost⟩ := ih
      obtain ⟨fuel, hout, hfuel⟩ := hlast
      rcases body_spec hh fuel c with ⟨_, hfail⟩ | ⟨h'', ids', hcall, hh'⟩
      · rw [hout] at hfail
        exact absurd (Prod.mk.inj hfail).1 hfuel
      · rw [hout] at hcall
        obtain ⟨rfl, rfl⟩ := Prod.mk.inj hcall
        refine ⟨_, ids', _, hruns.snoc rfl, hh', ?_⟩
        have hmore := callLost_length s h hh.env c
        rw [List.length_append, List.countP_append]
        omega

section Run

variable {env env' : Env} {n : MrlockTree.Node} (hnew : MrlockTree.new env = (.ok (), n, env')) {h₀ h : Heap}
  (hcreate : create.outcome exec (empty env) = (.ok (), h₀)) {ls : List (Call × Except Fault Result)}
  (hrun : Transition.Run Calls h₀ ls h)

include hnew hcreate hrun

/-- Calls on the heap end as the same calls on the tree do, with a result or an exception, and with enough fuel
every further call does. -/
theorem nodes_refine : ∃ s, Transition.Run MrlockTree.Calls ⟨n, env'⟩ ls s ∧ (∀ l ∈ ls, MrlockTree.ReturnsOrThrows l.2) ∧
    ∀ c, ∃ k, ∀ fuel, k ≤ fuel → ((body fuel c).outcome exec h).1 = (MrlockTree.call s c).1 ∧
      MrlockTree.ReturnsOrThrows ((body fuel c).outcome exec h).1 := by
  obtain ⟨s, ids, lost, hruns, hh, _⟩ := run_simulates hnew hcreate hrun
  have hinit : MrlockTree.Initial ⟨n, env'⟩ := ⟨env, hnew⟩
  refine ⟨s, hruns, MrlockTree.run_returnsOrThrows hinit hruns, fun c => ⟨s.head.count, fun fuel hfuel => ?_⟩⟩
  rcases body_spec hh fuel c with ⟨hlt, _⟩ | ⟨h', ids', hcall, _⟩
  · exact absurd hfuel (not_le.mpr hlt)
  · rw [hcall]
    exact ⟨rfl, MrlockTree.call_returnsOrThrows (MrlockTree.reachable_wf hinit ⟨ls, hruns⟩) c⟩

/-- The destructor deletes every node of the tree once.  Of the others at most two for each insertion that has
ended in an exception are left. -/
theorem destroy_after_calls : ∃ tree ids, Rep h.nodes h.head tree ids ∧ ∃ k, ∀ fuel, k ≤ fuel → ∃ (h' : Heap) (lost : List Ptr),
    (destroy fuel).outcome exec h = (.ok (), h') ∧ (∀ i ∈ ids, h'.nodes i = none) ∧
      (∀ i, (∃ n, h'.nodes i = some n) ↔ i ∈ lost) ∧ lost.length ≤ 2 * ls.countP failedInsert := by
  obtain ⟨s, ids, lost, _, hh, hlost⟩ := run_simulates hnew hcreate hrun
  refine ⟨s.head, ids, hh.rep, s.head.count, fun fuel hfuel => ?_⟩
  obtain ⟨h', hout, hdel, hleft⟩ := destroy_outcome hh hfuel
  exact ⟨h', lost, hout, hdel, hleft, hlost⟩

end Run

/-- The heap of a new tree. -/
def newTree : Heap := (create.outcome exec (empty MrlockTree.plainEnv)).2

/-! ### Runs of given calls -/

/-- How the calls end, one after another. -/
def ended (fuel : ℕ) : Heap → List Call → List (Call × Except Fault Result)
  | _, [] => []
  | h, c :: cs => (c, ((body fuel c).outcome exec h).1) :: ended fuel ((body fuel c).outcome exec h).2 cs

/-- The heap they leave. -/
def afterCalls (fuel : ℕ) (h : Heap) (cs : List Call) : Heap := cs.foldl (fun h c => ((body fuel c).outcome exec h).2) h

theorem run_ended {fuel : ℕ} {h : Heap} {cs : List Call} (hfuel : ∀ l ∈ ended fuel h cs, l.2 ≠ .error .outOfFuel) :
    Transition.Run Calls h (ended fuel h cs) (afterCalls fuel h cs) := by
  induction cs generalizing h with
  | nil => exact .nil
  | cons c cs ih =>
      obtain ⟨hc, hcs⟩ := List.forall_mem_cons.mp hfuel
      exact (ih hcs).cons ⟨fuel, rfl, hc⟩

/-- What a tree draws from that gets `n` treaps. -/
def treapsFor (n : ℕ) : Env := { MrlockTree.plainEnv with news := MrlockTree.poolNews n }

/-- The heap of a new tree that gets `n` treaps. -/
def crowded (n : ℕ) : Heap := (create.outcome exec (empty (treapsFor n))).2

/-- Calls of which the first three need a treap each; the fourth gets none if there are only four. -/
def someCalls : List Call := [.insert 5, .insert 7, .remove 5, .insert 9, .lookup 7, .rangeQuery 0 10]

theorem ended_someCalls : ended 20 (crowded 4) someCalls =
    [(.insert 5, .ok .void), (.insert 7, .ok .void), (.remove 5, .ok (.bool true)),
      (.insert 9, .error (.exn (Preallocatable.maximumReached "5Treap" 4 4))), (.lookup 7, .ok (.bool true)),
      (.rangeQuery 0 10, .ok (.vector [7]))] := by decide +kernel

theorem nodes_refine_someCalls : ∃ s, Transition.Run MrlockTree.Calls
      ⟨.base MrlockTree.Empty Treap.empty, { treapsFor 4 with allocated := 1 }⟩ (ended 20 (crowded 4) someCalls) s ∧
    (∀ l ∈ ended 20 (crowded 4) someCalls, MrlockTree.ReturnsOrThrows l.2) ∧
    ∀ c, ∃ k, ∀ fuel, k ≤ fuel →
      ((body fuel c).outcome exec (afterCalls 20 (crowded 4) someCalls)).1 = (MrlockTree.call s c).1 ∧
        MrlockTree.ReturnsOrThrows ((body fuel c).outcome exec (afterCalls 20 (crowded 4) someCalls)).1 :=
  nodes_refine (show MrlockTree.new (treapsFor 4) = (.ok (), _, _) from rfl)
    (show create.outcome exec (empty (treapsFor 4)) = (.ok (), crowded 4) from rfl)
    (run_ended (by rw [ended_someCalls]; decide))

/-- Insertions of which the last one throws when it has created the nodes of its split. -/
def manyCalls : List Call := (List.range 64).map (fun v : ℕ => .insert v) ++ [.lookup 63, .remove 3, .rangeQuery 10 14]

theorem ended_manyCalls : (∀ l ∈ ended 20 (crowded 65) manyCalls, l.2 ≠ .error .outOfFuel) ∧
    (ended 20 (crowded 65) manyCalls).countP failedInsert = 1 := by decide +kernel

theorem destroy_after_manyCalls : (ended 20 (crowded 65) manyCalls).countP failedInsert = 1 ∧
    ∃ tree ids, Rep (afterCalls 20 (crowded 65) manyCalls).nodes (afterCalls 20 (crowded 65) manyCalls).head tree ids ∧
      ∃ k, ∀ fuel, k ≤ fuel → ∃ (h' : Heap) (lost : List Ptr),
        (destroy fuel).outcome exec (afterCalls 20 (crowded 65) manyCalls) = (.ok (), h') ∧ (∀ i ∈ ids, h'.nodes i = none) ∧
          (∀ i, (∃ n, h'.nodes i = some n) ↔ i ∈ lost) ∧
          lost.length ≤ 2 * (ended 20 (crowded 65) manyCalls).countP failedInsert :=
  ⟨ended_manyCalls.2, destroy_after_calls (show MrlockTree.new (treapsFor 65) = (.ok (), _, _) from rfl)
    (show create.outcome exec (empty (treapsFor 65)) = (.ok (), crowded 65) from rfl)
    (run_ended ended_manyCalls.1)⟩

end LockFreeSearchTree.MrlockHeap
