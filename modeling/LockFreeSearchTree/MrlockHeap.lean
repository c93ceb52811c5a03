import LockFreeSearchTree.MrlockNodes

/-! # The nodes are a tree

The heap of `MrlockNodes.lean` always holds the tree of `MrlockTree.lean`.

* `Rep nodes p n ids`: the tree `n` is at the pointer `p`, and its nodes are at the addresses `ids`.
* `Effect h h' ids ids' lost`: what a change of the tree at `ids` does to the heap.  The other nodes are as
  they were; the addresses of `ids` that are not among the new ones `ids'` have been deleted; and there
  are no new nodes but those of the tree and the ones that are `lost`.
* `Simulates m h p ids lost u`: the program `m` does at `p` what the update `u` does to the tree.

What the methods do is in `MrlockCalls.lean`.  -/

namespace LockFreeSearchTree.MrlockHeap

open Concurrent

open MrlockTree (Update)

/-! ### Outcomes of the operations -/

section Outcomes

variable {α : Type} {h : Heap} {p q : Ptr} {n : Node}

theorem change_of_some (hp : h.nodes p = some n) (f : Node → Option Node) : change h p f = (.ok (), h.set p (f n)) := by
  unfold change
  rw [hp]

theorem outcome_read (hp : h.nodes p = some n) (f : Node → HeapM α) :
    (read p >>= f).outcome exec h = (f n).outcome exec h := by
  have hexec : exec (.read p) h = (.ok n, h) := by simp only [exec, hp]
  show (Prog.ofExcept (exec (.read p) h).1 >>= f).outcome exec (exec (.read p) h).2 = _
  rw [hexec]
  rfl

/-- An operation that changes a node. -/
theorem outcome_change {x : Except Fault Unit × Heap} {g : Node → Option Node} (hx : x = change h p g)
    (hp : h.nodes p = some n) (f : Unit → HeapM α) :
    (Prog.ofExcept x.1 >>= f).outcome exec x.2 = (f ()).outcome exec (h.set p (g n)) := by
  rw [hx, change_of_some hp]
  rfl

theorem outcome_storeIsRoute (hp : h.nodes p = some n) (b : Bool) (f : Unit → HeapM α) :
    (storeIsRoute p b >>= f).outcome exec h = (f ()).outcome exec (h.set p (some { n with isRoute := b })) :=
  outcome_change (g := fun n => some { n with isRoute := b }) rfl hp f

theorem outcome_storeVal (hp : h.nodes p = some n) (v : ℤ) (f : Unit → HeapM α) :
    (storeVal p v >>= f).outcome exec h = (f ()).outcome exec (h.set p (some { n with val := v })) :=
  outcome_change (g := fun n => some { n with val := v }) rfl hp f

theorem outcome_storeTreap (hp : h.nodes p = some n) (t : Option Treap) (f : Unit → HeapM α) :
    (storeTreap p t >>= f).outcome exec h = (f ()).outcome exec (h.set p (some { n with treap := t })) :=
  outcome_change (g := fun n => some { n with treap := t }) rfl hp f

theorem outcome_storeLeft (hp : h.nodes p = some n) (q : Ptr) (f : Unit → HeapM α) :
    (storeLeft p q >>= f).outcome exec h = (f ()).outcome exec (h.set p (some { n with left := q })) :=
  outcome_change (g := fun n => some { n with left := q }) rfl hp f

theorem outcome_storeRight (hp : h.nodes p = some n) (q : Ptr) (f : Unit → HeapM α) :
    (storeRight p q >>= f).outcome exec h = (f ()).outcome exec (h.set p (some { n with right := q })) :=
  outcome_change (g := fun n => some { n with right := q }) rfl hp f

theorem outcome_delete (hp : h.nodes p = some n) (hne : p ≠ NULL) (f : Unit → HeapM α) :
    (delete p >>= f).outcome exec h = (f ()).outcome exec (h.set p none) :=
  outcome_change (g := fun _ => none) (if_neg hne) hp f

theorem outcome_last (m : HeapM α) : m.outcome exec h = (m >>= fun a => pure a).outcome exec h := by
  rw [Prog.outcome_bind]
  rcases m.outcome exec h with ⟨e | a, h'⟩ <;> rfl

theorem outcome_treapOf {t : Treap} (hp : h.nodes p = some n) (ht : n.treap = some t) (f : Treap → HeapM α) :
    (treapOf p >>= f).outcome exec h = (f t).outcome exec h := by
  unfold treapOf
  rw [Prog.bind_assoc', outcome_read hp, ht]
  rfl

theorem outcome_new (val : ℤ) (f : Ptr → HeapM α) :
    (new val >>= f).outcome exec h = (f h.next).outcome exec (h.alloc { val := val }) := rfl

theorem outcome_immutableInsert (t : Treap) (val : ℤ) (f : Treap → HeapM α) :
    (immutableInsert t val >>= f).outcome exec h =
      (Prog.ofExcept (t.immutableInsert val h.env).1 >>= f).outcome exec { h with env := (t.immutableInsert val h.env).2 } := rfl

theorem outcome_immutableRemove (t : Treap) (val : ℤ) (f : Treap × Bool → HeapM α) :
    (immutableRemove t val >>= f).outcome exec h =
      (Prog.ofExcept (t.immutableRemove val h.env).1 >>= f).outcome exec { h with env := (t.immutableRemove val h.env).2 } := rfl

theorem outcome_split (t : Treap) (f : ℤ × Treap × Treap → HeapM α) :
    (split t >>= f).outcome exec h = (Prog.ofExcept (t.split h.env).1 >>= f).outcome exec { h with env := (t.split h.env).2 } :=
  rfl

theorem outcome_merge (left right : Treap) (f : Treap → HeapM α) :
    (merge left right >>= f).outcome exec h =
      (Prog.ofExcept (Treap.merge left right h.env).1 >>= f).outcome exec { h with env := (Treap.merge left right h.env).2 } := rfl

end Outcomes

/-! ### The tree on the heap -/

/-- The tree `n` is at `p`, and its nodes are at `ids`. -/
inductive Rep (nodes : Ptr → Option Node) : Ptr → MrlockTree.Node → List Ptr → Prop where
  | base {p : Ptr} {val : ℤ} {t : Treap} (hne : p ≠ NULL) (hp : nodes p = some ⟨false, val, some t, NULL, NULL⟩) :
      Rep nodes p (.base val t) [p]
  | route {p l r : Ptr} {key : ℤ} {left right : MrlockTree.Node} {il ir : List Ptr} (hne : p ≠ NULL)
      (hp : nodes p = some ⟨true, key, none, l, r⟩) (hl : Rep nodes l left il) (hr : Rep nodes r right ir) :
      Rep nodes p (.route key left right) (p :: (il ++ ir))

namespace Rep

variable {nodes nodes' : Ptr → Option Node} {p : Ptr} {n : MrlockTree.Node} {ids : List Ptr}

/-- Only the nodes of the tree matter. -/
theorem congr (h : Rep nodes p n ids) (heq : ∀ i ∈ ids, nodes' i = nodes i) : Rep nodes' p n ids := by
  induction h with
  | base hne hp => exact .base hne ((heq _ (List.mem_singleton.mpr rfl)).trans hp)
  | route hne hp _ _ ihl ihr =>
      refine .route hne ((heq _ (List.mem_cons_self ..)).trans hp) (ihl fun i hi => heq i ?_) (ihr fun i hi => heq i ?_)
      · exact List.mem_cons_of_mem _ (List.mem_append_left _ hi)
      · exact List.mem_cons_of_mem _ (List.mem_append_right _ hi)

theorem mem (h : Rep nodes p n ids) : p ∈ ids := by
  cases h with
  | base => exact List.mem_singleton.mpr rfl
  | route => exact List.mem_cons_self ..

theorem ne_null (h : Rep nodes p n ids) : p ≠ NULL := by
  cases h with
  | base hne _ => exact hne
  | route hne _ _ _ => exact hne

/-- There is a node at each of the addresses. -/
theorem allocated (h : Rep nodes p n ids) : ∀ i ∈ ids, ∃ m, nodes i = some m := by
  induction h with
  | base _ hp =>
      intro i hi
      rw [List.mem_singleton.mp hi]
      exact ⟨_, hp⟩
  | route _ hp _ _ ihl ihr =>
      intro i hi
      rcases List.mem_cons.mp hi with rfl | hi
      · exact ⟨_, hp⟩
      · exact (List.mem_append.mp hi).elim (ihl i) (ihr i)

theorem isRoute (h : Rep nodes p n ids) : ∃ m, nodes p = some m ∧ m.isRoute = n.isRoute := by
  cases h with
  | base _ hp => exact ⟨_, hp, rfl⟩
  | route _ hp _ _ => exact ⟨_, hp, rfl⟩

theorem length (h : Rep nodes p n ids) : ids.length = n.count := by
  induction h with
  | base => rfl
  | route _ _ _ _ ihl ihr =>
      rw [List.length_cons, List.length_append, ihl, ihr]
      rfl

end Rep

/-! ### Changes of the heap -/

namespace Heap

variable (h : Heap) {p i : Ptr}

theorem nodes_set_self (n : Option Node) : (h.set p n).nodes p = n := Function.update_self _ _ _

theorem nodes_set_ne (n : Option Node) (hne : i ≠ p) : (h.set p n).nodes i = h.nodes i := Function.update_of_ne hne _ _

theorem nodes_set_none (i : Ptr) : (h.set p none).nodes i = none ∨ (h.set p none).nodes i = h.nodes i := by
  by_cases hi : i = p
  · rw [hi]
    exact .inl (h.nodes_set_self none)
  · exact .inr (h.nodes_set_ne none hi)

end Heap

/-- There is nothing at the addresses still to be handed out, of which `NULL` is none. -/
structure Heap.Sound (h : Heap) : Prop where
  fresh : ∀ i, h.next ≤ i → h.nodes i = none
  next : NULL < h.next

theorem Heap.Sound.lt {h : Heap} (hs : h.Sound) {i : Ptr} {n : Node} (hi : h.nodes i = some n) : i < h.next := by
  by_contra hge
  rw [hs.fresh i (not_lt.mp hge)] at hi
  cases hi

theorem Rep.lt {h : Heap} {p : Ptr} {n : MrlockTree.Node} {ids : List Ptr} (hrep : Rep h.nodes p n ids) (hs : h.Sound) :
    ∀ i ∈ ids, i < h.next := by
  intro i hi
  obtain ⟨m, hm⟩ := hrep.allocated i hi
  exact hs.lt hm

/-- A tree whose nodes have been at `ids` has them at `ids'` now; the new nodes at `lost` do not belong
to it. -/
structure Effect (h h' : Heap) (ids ids' lost : List Ptr) : Prop where
  head : h'.head = h.head
  sound : h'.Sound
  next : h.next ≤ h'.next
  frame : ∀ i < h.next, i ∉ ids → h'.nodes i = h.nodes i
  owned : ∀ i ∈ ids', i ∈ ids ∨ h.next ≤ i
  nodup : (ids' ++ lost).Nodup
  gone : ∀ i, i ∈ ids ∨ h.next ≤ i → i ∉ ids' → i ∉ lost → h'.nodes i = none
  stray : ∀ i ∈ lost, h.next ≤ i ∧ ∃ n, h'.nodes i = some n

namespace Effect

variable {h h₁ h' : Heap} {ids ids₁ ids' lost lost' : List Ptr}

theorem refl (hs : h.Sound) (hnd : ids.Nodup) : Effect h h ids ids [] where
  head := rfl
  sound := hs
  next := le_rfl
  frame _ _ _ := rfl
  owned _ hi := .inl hi
  nodup := by rwa [List.append_nil]
  gone i hi hn _ := hs.fresh i (hi.resolve_left hn)
  stray _ hi := by cases hi

theorem trans (e : Effect h h₁ ids ids₁ lost) (e' : Effect h₁ h' ids₁ ids' lost') :
    Effect h h' ids ids' (lost ++ lost') := by
  -- what the first change has lost is not touched by the second
  have hkept : ∀ i ∈ lost, i ∉ ids' ∧ h'.nodes i = h₁.nodes i := by
    intro i hi
    obtain ⟨n, hn⟩ := (e.stray i hi).2
    have hlt : i < h₁.next := e.sound.lt hn
    have hnot : i ∉ ids₁ := fun hmem => List.disjoint_of_nodup_append e.nodup hmem hi
    exact ⟨fun hmem => (e'.owned i hmem).elim hnot (not_le.mpr hlt), e'.frame i hlt hnot⟩
  refine ⟨e'.head.trans e.head, e'.sound, e.next.trans e'.next, fun i hlt hnot => ?_, fun i hi => ?_, ?_,
    fun i hi hids hlost => ?_, fun i hi => ?_⟩
  · rw [e'.frame i (hlt.trans_le e.next) fun hmem => (e.owned i hmem).elim hnot (not_le.mpr hlt), e.frame i hlt hnot]
  · cases e'.owned i hi with
    | inl hmem => exact e.owned i hmem
    | inr hge => exact .inr (e.next.trans hge)
  · have hswap : (ids' ++ (lost ++ lost')).Perm (lost ++ (ids' ++ lost')) := by
      rw [← List.append_assoc, ← List.append_assoc]
      exact List.perm_append_comm.append_right _
    rw [hswap.nodup_iff]
    refine List.Nodup.append (List.nodup_append.mp e.nodup).2.1 e'.nodup fun i hi hmem => ?_
    cases List.mem_append.mp hmem with
    | inl hmem => exact (hkept i hi).1 hmem
    | inr hmem =>
        obtain ⟨n, hn⟩ := (e.stray i hi).2
        exact absurd (e.sound.lt hn) (not_lt.mpr (e'.stray i hmem).1)
  · rw [List.mem_append, not_or] at hlost
    by_cases hmem : i ∈ ids₁ ∨ h₁.next ≤ i
    · exact e'.gone i hmem hids hlost.2
    · rw [not_or, not_le] at hmem
      rw [e'.frame i hmem.2 hmem.1]
      exact e.gone i hi hmem.1 hlost.1
  · cases List.mem_append.mp hi with
    | inl hi =>
        rw [(hkept i hi).2]
        exact e.stray i hi
    | inr hi => exact ⟨e.next.trans (e'.stray i hi).1, (e'.stray i hi).2⟩

/-- A change of a part of the nodes. -/
theorem within {outer : List Ptr} (e : Effect h h' ids ids' lost) (hnd : (outer ++ ids).Nodup)
    (hlt : ∀ i ∈ outer, i < h.next) : Effect h h' (outer ++ ids) (outer ++ ids') lost := by
  refine ⟨e.head, e.sound, e.next, fun i hi hnot => e.frame i hi fun hmem => hnot (List.mem_append_right _ hmem), fun i hi => ?_,
    ?_, fun i hi hids hlost => ?_, e.stray⟩
  · cases List.mem_append.mp hi with
    | inl hi => exact .inl (List.mem_append_left _ hi)
    | inr hi => exact (e.owned i hi).imp_left (List.mem_append_right _)
  · rw [List.append_assoc]
    refine List.Nodup.append (List.nodup_append.mp hnd).1 e.nodup fun i hi hmem => ?_
    cases List.mem_append.mp hmem with
    | inl hmem =>
        cases e.owned i hmem with
        | inl hmem => exact List.disjoint_of_nodup_append hnd hi hmem
        | inr hge => exact absurd (hlt i hi) (not_lt.mpr hge)
    | inr hmem => exact absurd (hlt i hi) (not_lt.mpr (e.stray i hmem).1)
  · rw [List.mem_append, not_or] at hids
    refine e.gone i (hi.imp_left fun hmem => ?_) hids.2 hlost
    exact (List.mem_append.mp hmem).resolve_left hids.1

/-- The order of the addresses does not matter. -/
theorem perm {ids₁ ids₁' : List Ptr} (e : Effect h h' ids ids' lost) (hp : ids₁.Perm ids) (hp' : ids₁'.Perm ids') :
    Effect h h' ids₁ ids₁' lost where
  head := e.head
  sound := e.sound
  next := e.next
  frame i hi hnot := e.frame i hi fun hmem => hnot (hp.mem_iff.mpr hmem)
  owned i hi := (e.owned i (hp'.mem_iff.mp hi)).imp_left hp.mem_iff.mpr
  nodup := (hp'.append_right lost).nodup_iff.mpr e.nodup
  gone i hi hids := e.gone i (hi.imp_left hp.mem_iff.mp) fun hmem => hids (hp'.mem_iff.mpr hmem)
  stray := e.stray

/-- A node of the tree is changed. -/
theorem set {p : Ptr} (hs : h.Sound) (hnd : ids.Nodup) (hp : p ∈ ids) (hlt : p < h.next) (n : Node) :
    Effect h (h.set p (some n)) ids ids [] where
  head := rfl
  sound := ⟨fun i hi => (h.nodes_set_ne _ (hlt.trans_le hi).ne').trans (hs.fresh i hi), hs.next⟩
  next := le_rfl
  frame i _ hnot := h.nodes_set_ne _ fun he : i = p => hnot (he ▸ hp)
  owned _ hi := .inl hi
  nodup := by rwa [List.append_nil]
  gone i hi hn _ := (h.nodes_set_ne _ fun he : i = p => hn (he ▸ hp)).trans (hs.fresh i (hi.resolve_left hn))
  stray _ hi := by cases hi

/-- A node of the tree is deleted. -/
theorem delete {p : Ptr} (hs : h.Sound) (hnd : (p :: ids).Nodup) : Effect h (h.set p none) (p :: ids) ids [] where
  head := rfl
  sound := ⟨fun i hi => (h.nodes_set_none i).elim id (fun h => h.trans (hs.fresh i hi)), hs.next⟩
  next := le_rfl
  frame i _ hnot := h.nodes_set_ne _ fun he : i = p => hnot (he ▸ List.mem_cons_self ..)
  owned _ hi := .inl (List.mem_cons_of_mem _ hi)
  nodup := by
    rw [List.append_nil]
    exact hnd.of_cons
  gone i hi hn _ := by
    cases hi with
    | inl hi =>
        rw [(List.mem_cons.mp hi).resolve_right hn]
        exact h.nodes_set_self _
    | inr hi => exact (h.nodes_set_none i).elim id (fun h => h.trans (hs.fresh i hi))
  stray _ hi := by cases hi

/-- The environment does not matter. -/
theorem withEnv (e : Effect h h' ids ids' lost) (env env' : Env) :
    Effect { h with env := env } { h' with env := env' } ids ids' lost :=
  ⟨e.head, ⟨e.sound.fresh, e.sound.next⟩, e.next, e.frame, e.owned, e.nodup, e.gone, e.stray⟩

end Effect

/-- Two new nodes, of which some may belong to the tree. -/
theorem Effect.grow {h h' : Heap} {p : Ptr} {ids' lost : List Ptr} (hs : h.Sound) (hp : p < h.next) (hhead : h'.head = h.head)
    (hnext : h'.next = h.next + 2) (hsame : ∀ i, i ∉ [p, h.next, h.next + 1] → h'.nodes i = h.nodes i)
    (hnew : ∀ i ∈ [p, h.next, h.next + 1], ∃ n, h'.nodes i = some n) (hperm : (ids' ++ lost).Perm [p, h.next, h.next + 1])
    (hmem : p ∈ ids') : Effect h h' [p] ids' lost := by
  have hnd : (ids' ++ lost).Nodup := by
    rw [hperm.nodup_iff]
    simp [hp.ne, (hp.trans (Nat.lt_succ_self _)).ne]
  have hin : ∀ i, i ∈ ids' ++ lost → i = p ∨ h.next ≤ i := fun i hi => by
    rcases List.mem_cons.mp (hperm.mem_iff.mp hi) with he | hi
    · exact .inl he
    · rcases List.mem_cons.mp hi with rfl | hi
      · exact .inr le_rfl
      · exact .inr (List.mem_singleton.mp hi ▸ Nat.le_succ _)
  have hnot : ∀ i, i < h.next ∧ i ≠ p ∨ h.next + 2 ≤ i → i ∉ [p, h.next, h.next + 1] := fun i hi => by
    simp only [List.mem_cons, List.not_mem_nil, or_false, not_or]
    rcases hi with ⟨hlt, hne⟩ | hge
    · exact ⟨hne, hlt.ne, (hlt.trans (Nat.lt_succ_self _)).ne⟩
    · have hlt : h.next + 1 < i := hge
      exact ⟨(hp.trans ((Nat.lt_succ_self _).trans hlt)).ne', ((Nat.lt_succ_self _).trans hlt).ne', hlt.ne'⟩
  have hle : h.next ≤ h'.next := hnext ▸ Nat.le_add_right _ 2
  refine ⟨hhead, ⟨fun i hi => ?_, hs.next.trans_le hle⟩, hle, fun i hi hne => hsame i (hnot i (.inl ⟨hi, ?_⟩)), fun i hi => ?_,
    hnd, fun i hi hids hlost => ?_, fun i hi => ⟨?_, hnew i (hperm.mem_iff.mp (List.mem_append_right _ hi))⟩⟩
  · rw [hsame i (hnot i (.inr (hnext ▸ hi)))]
    exact hs.fresh i (hle.trans hi)
  · exact fun he => hne (List.mem_singleton.mpr he)
  · exact (hin i (List.mem_append_left _ hi)).imp_left List.mem_singleton.mpr
  · rw [hsame i fun hi => (List.mem_append.mp (hperm.mem_iff.mpr hi)).elim hids hlost]
    refine hs.fresh i (hi.resolve_left fun hi => hids ?_)
    rwa [List.mem_singleton.mp hi]
  · refine (hin i (List.mem_append_right _ hi)).resolve_left fun he => ?_
    exact List.disjoint_of_nodup_append hnd hmem (he ▸ hi)

/-! ### Simulation -/

/-- The program does what the update does. -/
def Simulates {α : Type} (m : HeapM α) (h : Heap) (p : Ptr) (ids lost : List Ptr) (u : Update α) : Prop :=
  ∃ h' ids', m.outcome exec h = (u.1, h') ∧ Rep h'.nodes p u.2.1 ids' ∧ h'.env = u.2.2 ∧ Effect h h' ids ids' lost

/-- A part of the tree is updated; `f` puts it back into its place, next to the nodes at `outer`. -/
theorem Simulates.below {α : Type} {m : HeapM α} {h : Heap} {p q : Ptr} {ids outer ids₁ lost : List Ptr} {u : Update α}
    {f : MrlockTree.Node → MrlockTree.Node} (hsim : Simulates m h q ids lost u) (hnd : (outer ++ ids).Nodup)
    (hlt : ∀ i ∈ outer, i < h.next) (hperm : ids₁.Perm (outer ++ ids))
    (hrep : ∀ nodes n ids', (∀ i ∈ outer, nodes i = h.nodes i) → Rep nodes q n ids' →
      ∃ ids₁', ids₁'.Perm (outer ++ ids') ∧ Rep nodes p (f n) ids₁') :
    Simulates m h p ids₁ lost (u.below f) := by
  obtain ⟨h', ids', hout, hq, henv, heff⟩ := hsim
  obtain ⟨ids₁', hperm', hp⟩ := hrep h'.nodes _ ids' (fun i hi =>
    heff.frame i (hlt i hi) fun hmem => List.disjoint_of_nodup_append hnd hi hmem) hq
  exact ⟨h', ids₁', hout, hp, henv, (heff.within hnd hlt).perm hperm hperm'⟩

/-- A program that goes on from another heap as `m'` does. -/
theorem Simulates.after {α : Type} {m m' : HeapM α} {h g : Heap} {p : Ptr} {ids ids₁ lost : List Ptr} {u : Update α}
    (hout : m.outcome exec h = m'.outcome exec g) (heff : Effect h g ids ids₁ []) (hsim : Simulates m' g p ids₁ lost u) :
    Simulates m h p ids lost u := by
  obtain ⟨h', ids', hout', hrep, henv, heff'⟩ := hsim
  exact ⟨h', ids', hout.trans hout', hrep, henv, heff.trans heff'⟩

/-- The program runs out of fuel, which it may if there is less than `n`, or does what the update does. -/
def Updates {α : Type} (fuel n : ℕ) (m : HeapM α) (h : Heap) (p : Ptr) (ids lost : List Ptr) (u : Update α) : Prop :=
  fuel < n ∧ m.outcome exec h = (.error .outOfFuel, h) ∨ Simulates m h p ids lost u

/-- A part of the tree of a route node is updated. -/
theorem Simulates.left {α : Type} {m : HeapM α} {h : Heap} {p l r : Ptr} {key : ℤ} {right : MrlockTree.Node}
    {il ir lost : List Ptr} {u : Update α} (hs : h.Sound) (hne : p ≠ NULL) (hp : h.nodes p = some ⟨true, key, none, l, r⟩)
    (hr : Rep h.nodes r right ir) (hnd : (p :: (il ++ ir)).Nodup) (hsim : Simulates m h l il lost u) :
    Simulates m h p (p :: (il ++ ir)) lost (u.below fun left => .route key left right) := by
  have hperm : ∀ il : List Ptr, (p :: (il ++ ir)).Perm ((p :: ir) ++ il) := fun il => List.perm_append_comm.cons p
  refine hsim.below ((hperm il).nodup_iff.mp hnd) (fun i hi => ?_) (hperm il) fun nodes n ids' hsame hl => ?_
  · rcases List.mem_cons.mp hi with rfl | hi
    · exact hs.lt hp
    · exact hr.lt hs i hi
  · refine ⟨_, hperm ids', .route hne ((hsame p (List.mem_cons_self ..)).trans hp) hl (hr.congr fun i hi => hsame i ?_)⟩
    exact List.mem_cons_of_mem _ hi

theorem Simulates.right {α : Type} {m : HeapM α} {h : Heap} {p l r : Ptr} {key : ℤ} {left : MrlockTree.Node}
    {il ir lost : List Ptr} {u : Update α} (hs : h.Sound) (hne : p ≠ NULL) (hp : h.nodes p = some ⟨true, key, none, l, r⟩)
    (hl : Rep h.nodes l left il) (hnd : (p :: (il ++ ir)).Nodup) (hsim : Simulates m h r ir lost u) :
    Simulates m h p (p :: (il ++ ir)) lost (u.below fun right => .route key left right) := by
  have hperm : (p :: (il ++ ir)).Perm ((p :: il) ++ ir) := .refl _
  refine hsim.below hnd (fun i hi => ?_) hperm fun nodes n ids' hsame hr => ?_
  · rcases List.mem_cons.mp hi with rfl | hi
    · exact hs.lt hp
    · exact hl.lt hs i hi
  · refine ⟨_, .refl _, .route hne ((hsame p (List.mem_cons_self ..)).trans hp) (hl.congr fun i hi => hsame i ?_) hr⟩
    exact List.mem_cons_of_mem _ hi

theorem Simulates.of_outcome {α : Type} {m m' : HeapM α} {h : Heap} {p : Ptr} {ids lost : List Ptr} {u : Update α}
    (hout : m.outcome exec h = m'.outcome exec h) (hsim : Simulates m' h p ids lost u) : Simulates m h p ids lost u := by
  unfold Simulates at hsim ⊢
  rwa [hout]

/-- A step of a search. -/
theorem Updates.step {α : Type} {m m' : HeapM α} {h : Heap} {p q : Ptr} {ids ids' lost : List Ptr} {u u' : Update α} {fuel n n' : ℕ}
    (hout : m.outcome exec h = m'.outcome exec h) (hn : n < n') (hupd : Updates fuel n m' h q ids' lost u')
    (hsim : Simulates m' h q ids' lost u' → Simulates m' h p ids lost u) : Updates (fuel + 1) n' m h p ids lost u := by
  rcases hupd with ⟨hlt, hfail⟩ | hupd
  · exact .inl ⟨(Nat.succ_le_of_lt hlt).trans_lt hn, hout.trans hfail⟩
  · exact .inr (.of_outcome hout (hsim hupd))

end LockFreeSearchTree.MrlockHeap
