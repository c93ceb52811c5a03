import LockFreeSearchTree.LfcaGraph

/-! # The changes a step makes

Every step of the source is one of the changes `Change` lists: new nodes, a node in the place of a
base node (an update, a split, or a node of a join), the end of a join, an entry in a route node, a
decision, or a note in a main node.  Each of them keeps the invariant (`Change.inv`) and spares the
other threads what they rely on (`Change.spares`). -/

namespace LockFreeSearchTree

open BinTree Concurrent

namespace Lfca

variable {v v' : Graph} {g g' : Ghost} {u t : ℕ} {m n p q r : Ptr} {σ τ : Slot}

theorem Spares.refl : Spares u v g v g where
  next := le_refl _
  bare := fun _ _ => rfl
  notes := fun _ _ _ => rfl
  owner := fun _ _ => rfl
  neigh2 := fun _ _ => .inl rfl
  lock := fun _ _ _ hlock _ _ _ => hlock
  retired := fun _ hp => hp
  retires := fun _ hp => .inl hp
  link := fun _ _ _ => .inl rfl
  fresh := fun _ _ _ hno => hno

/-! ### New nodes -/

/-- The old nodes are unchanged. -/
structure Graph.Extends (v v' : Graph) : Prop where
  root : v'.root = v.root
  next : v.next ≤ v'.next
  plain : ∀ p, v.Allocated p → v'.plain p = v.plain p
  get : ∀ p f, v.Allocated p → v'.get p f = v.get p f

/-- The ghost value after `t` has taken the nodes that `v` lacks from the pool. -/
def Ghost.take (g : Ghost) (t : ℕ) (v : Graph) : Ghost := { g with owner := fun p => if v.Allocated p then g.owner p else t }

/-- What the source sets in a new node. -/
structure FreshNode (v : Graph) (q : Ptr) : Prop where
  leaf : (v.plain q).type ≠ .route → ∀ d, v.get q (.child d) = nullptr
  inner : (v.plain q).type = .route → ∀ d, v.BaseNode (v.get q (.child d))
  normal : (v.plain q).type = .normal → v.get q .neigh2 = PREPARING
  main : (v.plain q).type = .joinMain → v.Undecided q

namespace Graph.Extends

variable (h : v.Extends v')

include h

theorem allocated (hp : v.Allocated p) : v'.Allocated p := ⟨hp.1, hp.2.trans_le h.next⟩

theorem hasType {k : NodeType} (hp : v.HasType p k) : v'.HasType p k :=
  ⟨h.allocated hp.1, by rw [h.plain p hp.1]; exact hp.2⟩

theorem baseNode (hp : v.BaseNode p) : v'.BaseNode p := ⟨h.allocated hp.1, by rw [h.plain p hp.1]; exact hp.2⟩

theorem hasType_old {k : NodeType} (ha : v.Allocated p) (hp : v'.HasType p k) : v.HasType p k :=
  ⟨ha, by rw [← h.plain p ha]; exact hp.2⟩

theorem undecided (ha : v.Allocated m) : v'.Undecided m ↔ v.Undecided m := by
  rw [Graph.Undecided, Graph.Undecided, h.get m _ ha]

theorem final (ha : v.Allocated m) (hf : v.Final m) : v'.Final m := by
  unfold Graph.Final Graph.Merged at *
  rw [h.get m _ ha]
  refine hf.imp_left fun ⟨ht, hm⟩ => ⟨h.hasType ht, ?_⟩
  rw [h.plain _ ht.1]
  exact hm

theorem look (hσ : v.On σ) : v'.look σ = v.look σ := by
  cases σ with
  | root => exact h.root
  | child q d => exact h.get q _ hσ

theorem overSlot (ha : v.Allocated m) : v'.Over m σ ↔ v.Over m σ := by
  cases σ <;> simp only [Graph.Over, h.plain m ha]

end Graph.Extends

theorem Inv.final_old (h : Inv v g) (he : v.Extends v') (hm : v.HasType m .joinMain) (hf : v'.Final m) : v.Final m := by
  cases h.phase m hm with
  | inl hu => exact absurd hf ((he.undecided hm.1).mpr hu).not_final
  | inr hf => exact hf

theorem Live.extends (he : v.Extends v') (h : Live v g σ) : Live v' (g.take t v) σ := by
  cases σ with
  | root => trivial
  | child q d => exact ⟨he.allocated h.1, h.2⟩

theorem Live.of_on (hσ : v.On σ) (h : Live v' (g.take t v) σ) : Live v g σ := by
  cases σ with
  | root => trivial
  | child q d => exact ⟨hσ, h.2⟩

/-- A slot of a new node does not point to a route node. -/
theorem on_of_route (hnew : ∀ q, v'.Allocated q → ¬ v.Allocated q → FreshNode v' q) (hσ : v'.On σ)
    (hr : v'.HasType (v'.look σ) .route) : v.On σ := by
  cases σ with
  | root => trivial
  | child q d =>
      by_contra hq
      have hf := hnew q hσ hq
      by_cases ht : (v'.plain q).type = .route
      · exact (hf.inner ht d).2 hr.2
      · exact hr.1.ne_null (hf.leaf ht d)

theorem Joined.extends (he : v.Extends v') (hm : v.Allocated m) (h : Joined v g m) : Joined v' (g.take t v) m := by
  obtain ⟨hp, hover, hdis, ho, hn, hdone, hun, hsec, hmerged⟩ := h
  have hpl := he.plain m hm
  refine ⟨?_, ?_, by rw [hpl]; exact hdis, by rw [hpl]; exact he.allocated ho, by rw [hpl]; exact he.baseNode hn, ?_, ?_, ?_,
    by rw [he.get m _ hm, hpl]; exact hmerged⟩
  · rw [hpl]
    exact he.hasType hp
  · intro σ hσ
    have hon := hover σ ((he.overSlot hm).mp hσ)
    cases σ with
    | root => trivial
    | child q d => exact he.allocated hon
  · rw [he.get m _ hm, hpl]
    exact hdone
  · rw [hpl]
    intro hr σ hσ
    rw [he.look (hover σ ((he.overSlot hm).mp hσ))]
    exact hun hr σ ((he.overSlot hm).mp hσ)
  · rw [hpl]
    intro hr
    obtain ⟨hpar, hgrand, ⟨σ, hσ, hlive, hlook⟩, hsib⟩ := hsec hr
    refine ⟨?_, ?_, ⟨σ, (he.overSlot hm).mpr hσ, hlive.extends he, ?_⟩, ?_⟩
    · rw [hpl, he.get _ _ hp.1]
      exact hpar
    · rw [hpl]
      intro hne
      have hg : v.Allocated (v.plain m).gparent := hover (.child (v.plain m).gparent .left) ⟨rfl, hne⟩
      rw [he.get _ _ hg]
      exact hgrand hne
    · rw [hpl, he.look hlive.on]
      exact hlook
    · rw [hpl]
      intro ht
      obtain ⟨d, hd⟩ := hsib (he.hasType_old ho ht)
      exact ⟨d, by rw [he.get _ _ hp.1]; exact hd⟩

/-- The invariant after new nodes have been taken from the pool. -/
theorem Inv.grow (h : Inv v g) (he : v.Extends v')
    (hnew : ∀ q, v'.Allocated q → ¬ v.Allocated q → FreshNode v' q) : Inv v' (g.take t v) where
  root := by
    rw [he.root]
    exact he.allocated h.root
  inner := by
    intro q d hq
    by_cases ha : v.Allocated q
    · rw [he.get q _ ha]
      exact he.allocated (h.inner q d (he.hasType_old ha hq))
    · exact ((hnew q hq.1 ha).inner hq.2 d).1
  leaf := by
    intro q d hq
    by_cases ha : v.Allocated q
    · rw [he.get q _ ha]
      exact h.leaf q d ⟨ha, by rw [← he.plain q ha]; exact hq.2⟩
    · exact (hnew q hq.1 ha).leaf hq.2 d
  normal := by
    intro b hb
    by_cases ha : v.Allocated b
    · rw [he.get b _ ha]
      exact h.normal b (he.hasType_old ha hb)
    · exact (hnew b hb.1 ha).normal hb.2
  phase := by
    intro m hm
    by_cases ha : v.Allocated m
    · exact (h.phase m (he.hasType_old ha hm)).imp (he.undecided ha).mpr (he.final ha)
    · exact .inl ((hnew m hm.1 ha).main hm.2)
  joined := by
    intro m hm hf
    by_cases ha : v.Allocated m
    · have hm' := he.hasType_old ha hm
      exact (h.joined m hm' (h.final_old he hm' hf)).extends he ha
    · exact absurd hf ((hnew m hm.1 ha).main hm.2).not_final
  unique := by
    intro σ τ hσ hτ hr hlook
    have hon₁ := on_of_route hnew hσ.on hr
    have hon₂ := on_of_route hnew hτ.on (hlook ▸ hr)
    rw [he.look hon₁, he.look hon₂] at hlook
    rw [he.look hon₁] at hr
    exact h.unique σ τ (.of_on hon₁ hσ) (.of_on hon₂ hτ) (he.hasType_old (h.look_allocated hon₁ hr.1.ne_null) hr) hlook
  live := by
    intro σ hσ hr
    have hr' := he.hasType (h.retired _ hr).1
    have hon := on_of_route hnew hσ.on hr'
    rw [he.look hon] at hr
    exact h.live σ (.of_on hon hσ) hr
  retired := by
    intro p hp
    obtain ⟨ht, m, hm, hf, hpar, hlock⟩ := h.retired p hp
    refine ⟨he.hasType ht, m, he.hasType hm, he.final hm.1 hf, ?_, ?_⟩
    · rw [he.plain m hm.1]
      exact hpar
    · rw [he.get p _ ht.1]
      exact hlock

theorem Spares.grow (he : v.Extends v')
    (hnew : ∀ q, v'.Allocated q → ¬ v.Allocated q → FreshNode v' q) : Spares u v g v' (g.take t v) where
  next := he.next
  bare := fun p hp => by rw [he.plain p hp]
  notes := fun m hm _ => he.plain m hm
  owner := fun p hp => if_pos hp
  neigh2 := fun m hm => .inl (he.get m _ hm)
  lock := by
    intro q m hq hlock _ _ _
    rw [he.get q _ hq]
    exact hlock
  retired := fun _ hp => hp
  retires := fun _ hp => .inl hp
  link := fun σ hσ _ => .inl (he.look hσ.on)
  fresh := by
    intro r hr _ hno σ hσ hlook
    have hon := on_of_route hnew hσ (hlook ▸ he.hasType hr)
    rw [he.look hon] at hlook
    exact hno σ hon hlook

/-! ### Nodes in the place of base nodes -/

@[simp] theorem Graph.allocated_put : (v.put p σ).Allocated q ↔ v.Allocated q := by
  rw [Graph.Allocated, Graph.Allocated, Graph.next_put]

@[simp] theorem Graph.hasType_put {k : NodeType} : (v.put p σ).HasType q k ↔ v.HasType q k := by
  rw [Graph.HasType, Graph.HasType, Graph.allocated_put, Graph.plain_put]

@[simp] theorem Graph.baseNode_put : (v.put p σ).BaseNode q ↔ v.BaseNode q := by
  rw [Graph.BaseNode, Graph.BaseNode, Graph.allocated_put, Graph.plain_put]

@[simp] theorem Graph.over_put : (v.put p σ).Over m τ ↔ v.Over m τ := by
  cases τ <;> simp only [Graph.Over, Graph.plain_put]

@[simp] theorem Graph.on_put : (v.put p σ).On τ ↔ v.On τ := by
  cases τ
  · rfl
  · exact Graph.allocated_put

@[simp] theorem Graph.neigh2_put : (v.put p σ).get m .neigh2 = v.get m .neigh2 := Graph.get_put (by simp)

@[simp] theorem Graph.joinId_put : (v.put p σ).get q .joinId = v.get q .joinId := Graph.get_put (by simp)

@[simp] theorem Graph.undecided_put : (v.put p σ).Undecided m ↔ v.Undecided m := by
  rw [Graph.Undecided, Graph.Undecided, Graph.neigh2_put]

@[simp] theorem Graph.final_put : (v.put p σ).Final m ↔ v.Final m := by
  rw [Graph.Final, Graph.Final, Graph.Merged, Graph.Merged, Graph.neigh2_put, Graph.hasType_put, Graph.plain_put]

@[simp] theorem live_put : Live (v.put p σ) g τ ↔ Live v g τ := by
  cases τ
  · rfl
  · simp only [Live, Graph.allocated_put]

theorem Graph.get_put_self {d : Side} : (v.put p (.child q d)).get q (.child d) = p := Graph.look_put_self (.child q d) p

theorem Graph.get_put_ne {d : Side} (h : Slot.child q d ≠ σ) : (v.put p σ).get q (.child d) = v.get q (.child d) :=
  Graph.look_put_ne p h

namespace Inv

variable (h : Inv v g)

include h

theorem root_put (hp : v.Allocated p) : (v.put p σ).Allocated (v.put p σ).root := by
  rw [Graph.allocated_put]
  cases σ with
  | root => exact hp
  | child q d => exact h.root

theorem inner_put (hp : v.Allocated p) (q : Ptr) (d : Side) (hq : (v.put p σ).HasType q .route) :
    (v.put p σ).Allocated ((v.put p σ).get q (.child d)) := by
  rw [Graph.hasType_put] at hq
  rw [Graph.allocated_put]
  by_cases hs : Slot.child q d = σ
  · rw [← hs, Graph.get_put_self]
    exact hp
  · rw [Graph.get_put_ne hs]
    exact h.inner q d hq

theorem leaf_put (hold : v.Allocated (v.look σ)) (q : Ptr) (d : Side) (hq : (v.put p σ).BaseNode q) :
    (v.put p σ).get q (.child d) = nullptr := by
  rw [Graph.baseNode_put] at hq
  by_cases hs : Slot.child q d = σ
  · subst hs
    exact absurd (h.leaf q d hq) hold.ne_null
  · rw [Graph.get_put_ne hs]
    exact h.leaf q d hq

theorem normal_put (b : Ptr) (hb : (v.put p σ).HasType b .normal) : (v.put p σ).get b .neigh2 = PREPARING := by
  rw [Graph.hasType_put] at hb
  rw [Graph.neigh2_put]
  exact h.normal b hb

theorem phase_put (m : Ptr) (hm : (v.put p σ).HasType m .joinMain) : (v.put p σ).Undecided m ∨ (v.put p σ).Final m := by
  rw [Graph.hasType_put] at hm
  rw [Graph.undecided_put, Graph.final_put]
  exact h.phase m hm

end Inv

/-- A node can take the place of a base node if it is not unlinked and, in case it is a route node, nowhere in the tree. -/
structure Placeable (v : Graph) (g : Ghost) (p : Ptr) : Prop where
  allocated : v.Allocated p
  linked : ¬ g.retired p
  nowhere : v.HasType p .route → ∀ τ, v.On τ → v.look τ ≠ p

theorem Inv.placeable (h : Inv v g) (hp : v.BaseNode p) : Placeable v g p :=
  ⟨hp.1, fun hr => hp.2 (h.retired p hr).1.2, fun hr => absurd hr.2 hp.2⟩

theorem Joined.put (h : Joined v g m) (hold : v.BaseNode (v.look σ)) (hp : Placeable v g p) : Joined (v.put p σ) g m := by
  obtain ⟨hpar, hover, hdis, ho, hn, hdone, hun, hsec, hmerged⟩ := h
  refine ⟨?_, ?_, ?_, ?_, ?_, ?_, ?_, ?_, ?_⟩ <;> simp only [Graph.plain_put, Graph.hasType_put, Graph.over_put, Graph.on_put,
    Graph.allocated_put, Graph.baseNode_put, Graph.neigh2_put]
  · exact hpar
  · exact hover
  · exact hdis
  · exact ho
  · exact hn
  · exact hdone
  · intro hr τ hτ
    by_cases hστ : τ = σ
    · rw [hστ, Graph.look_put_self]
      intro he
      exact hp.linked (he ▸ hr)
    · rw [Graph.look_put_ne p hστ]
      exact hun hr τ hτ
  · intro hr
    obtain ⟨hlock, hgrand, ⟨τ, hτ, hlive, hlook⟩, hsib⟩ := hsec hr
    refine ⟨?_, ?_, ⟨τ, Graph.over_put.mpr hτ, live_put.mpr hlive, ?_⟩, ?_⟩
    · rw [Graph.plain_put, Graph.joinId_put]
      exact hlock
    · rw [Graph.plain_put, Graph.joinId_put]
      exact hgrand
    · rw [Graph.plain_put, Graph.look_put_ne p, hlook]
      rintro rfl
      exact hold.ne_route hpar hlook
    · rw [Graph.plain_put, Graph.hasType_put]
      intro ht
      obtain ⟨d, hd⟩ := hsib ht
      refine ⟨d, ?_⟩
      rw [Graph.get_put_ne, hd]
      rintro rfl
      exact hold.ne_route ht hd
  · exact hmerged

/-- The invariant after a node has taken the place of a base node. -/
theorem Inv.put (h : Inv v g) (hold : v.BaseNode (v.look σ)) (hp : Placeable v g p) : Inv (v.put p σ) g where
  root := h.root_put hp.allocated
  inner := h.inner_put hp.allocated
  leaf := h.leaf_put hold.1
  normal := h.normal_put
  phase := h.phase_put
  joined := by
    intro m hm hf
    rw [Graph.hasType_put] at hm
    rw [Graph.final_put] at hf
    exact (h.joined m hm hf).put hold hp
  unique := by
    intro τ₁ τ₂ h₁ h₂ hr hlook
    rw [live_put] at h₁ h₂
    rw [Graph.hasType_put] at hr
    by_cases hs₁ : τ₁ = σ
    · by_cases hs₂ : τ₂ = σ
      · rw [hs₁, hs₂]
      · rw [hs₁, Graph.look_put_self] at hr hlook
        rw [Graph.look_put_ne p hs₂] at hlook
        exact absurd hlook.symm (hp.nowhere hr τ₂ h₂.on)
    · rw [Graph.look_put_ne p hs₁] at hr hlook
      by_cases hs₂ : τ₂ = σ
      · rw [hs₂, Graph.look_put_self] at hlook
        exact absurd hlook (hp.nowhere (hlook ▸ hr) τ₁ h₁.on)
      · rw [Graph.look_put_ne p hs₂] at hlook
        exact h.unique τ₁ τ₂ h₁ h₂ hr hlook
  live := by
    intro τ hτ
    rw [live_put] at hτ
    by_cases hs : τ = σ
    · rw [hs, Graph.look_put_self]
      exact hp.linked
    · rw [Graph.look_put_ne p hs]
      exact h.live τ hτ
  retired := by
    intro q hq
    obtain ⟨ht, m, hm, hf, hpar, hlock⟩ := h.retired q hq
    refine ⟨Graph.hasType_put.mpr ht, m, Graph.hasType_put.mpr hm, Graph.final_put.mpr hf, ?_, ?_⟩
    · rw [Graph.plain_put]
      exact hpar
    · rw [Graph.joinId_put]
      exact hlock

theorem Spares.put (hold : v.BaseNode (v.look σ)) (hp : v.HasType p .route → g.owner p ≠ u) :
    Spares u v g (v.put p σ) g where
  next := by rw [Graph.next_put]
  bare := fun q _ => by rw [Graph.plain_put]
  notes := fun m _ _ => by rw [Graph.plain_put]
  owner := fun _ _ => rfl
  neigh2 := fun m _ => .inl Graph.neigh2_put
  lock := by
    intro q m _ hlock _ _ _
    rw [Graph.joinId_put]
    exact hlock
  retired := fun _ hq => hq
  retires := fun _ hq => .inl hq
  link := by
    intro τ _ hr
    refine .inl (Graph.look_put_ne p ?_)
    rintro rfl
    exact hold.2 hr.2
  fresh := by
    intro r hr hown hno τ hτ
    by_cases hs : τ = σ
    · rw [hs, Graph.look_put_self]
      rintro rfl
      exact hp hr hown
    · rw [Graph.look_put_ne p hs]
      exact hno τ (Graph.on_put.mp hτ)

/-! ### The end of a join -/

/-- The ghost value after the route node `p` has been unlinked. -/
def Ghost.retire (g : Ghost) (p : Ptr) : Ghost := { g with retired := fun q => g.retired q ∨ q = p }

/-- What takes the place of the parent of the join `m`. -/
structure Replacement (v : Graph) (m p : Ptr) : Prop where
  allocated : v.Allocated p
  route : v.HasType p .route → p = (v.plain m).otherb

/-- The parent of the join `m`, which is in the slot `σ`, is yet to be unlinked. -/
structure Unlinking (v : Graph) (g : Ghost) (m : Ptr) (σ : Slot) : Prop where
  main : v.HasType m .joinMain
  final : v.Final m
  overSlot : v.Over m σ
  look : v.look σ = (v.plain m).parent

theorem live_retire : Live v (g.retire p) σ ↔ Live v g σ ∧ ∀ d, σ ≠ .child p d := by
  cases σ with
  | root => exact ⟨fun _ => ⟨trivial, fun _ => Slot.noConfusion⟩, fun _ => trivial⟩
  | child q d =>
      simp only [Live, Ghost.retire, not_or, ne_eq, Slot.child.injEq, not_and]
      exact ⟨fun ⟨ha, hr, hq⟩ => ⟨⟨ha, hr⟩, fun _ he => absurd he hq⟩, fun ⟨⟨ha, hr⟩, hq⟩ => ⟨ha, hr, fun he => hq d he rfl⟩⟩

namespace Unlinking

variable (hu : Unlinking v g m σ) (h : Inv v g)

include hu h

theorem joined : Joined v g m := h.joined m hu.main hu.final

theorem not_retired : ¬ g.retired (v.plain m).parent := fun hr => (hu.joined h).unlinked hr σ hu.overSlot hu.look

theorem secured : Secured v g m := (hu.joined h).secured (hu.not_retired h)

theorem live : Live v g σ := by
  obtain ⟨τ, hτ, hlive, _⟩ := (hu.secured h).slot
  exact hu.overSlot.live hτ hlive

/-- The parent is in no other slot. -/
theorem only (hτ : Live v g τ) (hlook : v.look τ = (v.plain m).parent) : τ = σ := by
  apply h.unique τ σ hτ (hu.live h)
  · rw [hlook]
    exact (hu.joined h).parent
  · rw [hlook, hu.look]

/-- No join but `m` has entered the parent. -/
theorem owner {m' : Ptr} (hlock : v.get (v.plain m).parent .joinId = m') : m' = m := hlock.symm.trans (hu.secured h).parentLock

/-- The slot is none of those of the parent. -/
theorem slot_ne (d : Side) : σ ≠ .child (v.plain m).parent d := by
  rintro rfl
  exact (hu.joined h).distinct hu.overSlot.1

/-- A route node that takes the place of the parent is its child. -/
theorem child (hp : Replacement v m p) (hr : v.HasType p .route) : ∃ d, v.look (.child (v.plain m).parent d) = p ∧
    Live v g (.child (v.plain m).parent d) := by
  obtain ⟨d, hd⟩ := (hu.secured h).sibling (hp.route hr ▸ hr)
  exact ⟨d, hd.trans (hp.route hr).symm, (hu.joined h).parent.1, hu.not_retired h⟩

theorem replacement_ne (hp : Replacement v m p) : p ≠ (v.plain m).parent := by
  rintro rfl
  obtain ⟨d, hd, hlive⟩ := hu.child h hp (hu.joined h).parent
  exact hu.slot_ne h d (hu.only h hlive hd).symm

theorem replacement_linked (hp : Replacement v m p) : ¬ g.retired p := by
  intro hr
  obtain ⟨d, hd, hlive⟩ := hu.child h hp (h.retired p hr).1
  exact h.live _ hlive (hd ▸ hr)

/-- Of the slots that stay, none holds a route node that takes the place of the parent. -/
theorem elsewhere (hp : Replacement v m p) (hr : v.HasType p .route) (hτ : Live v (g.retire (v.plain m).parent) τ) :
    v.look τ ≠ p := by
  intro hlook
  obtain ⟨d, hd, hlive⟩ := hu.child h hp hr
  obtain ⟨hτ, hne⟩ := live_retire.mp hτ
  exact hne d (h.unique τ _ hτ hlive (hlook ▸ hr) (hlook.trans hd.symm))

theorem joined_put {m' : Ptr} (hp : Replacement v m p) (hm' : v.HasType m' .joinMain) (hf : v.Final m') :
    Joined (v.put p σ) (g.retire (v.plain m).parent) m' := by
  obtain ⟨hpar, hover, hdis, ho, hn, hdone, hun, hsec, hmerged⟩ := h.joined m' hm' hf
  refine ⟨?_, ?_, ?_, ?_, ?_, ?_, ?_, ?_, ?_⟩ <;> simp only [Graph.plain_put, Graph.hasType_put, Graph.over_put, Graph.on_put,
    Graph.allocated_put, Graph.baseNode_put, Graph.neigh2_put]
  · exact hpar
  · exact hover
  · exact hdis
  · exact ho
  · exact hn
  · exact fun hd => .inl (hdone hd)
  · intro hr τ hτ
    by_cases hστ : τ = σ
    · rw [hστ, Graph.look_put_self]
      intro he
      obtain ⟨d, hd, hlive⟩ := hu.child h hp (he ▸ hpar)
      cases hr with
      | inl hr => exact h.live _ hlive (by rw [hd, he]; exact hr)
      | inr hr => exact hu.replacement_ne h hp (he.trans hr)
    · rw [Graph.look_put_ne p hστ]
      cases hr with
      | inl hr => exact hun hr τ hτ
      | inr hr =>
          -- the join of the parent is `m` itself
          intro hlook
          have hnr : ¬ g.retired (v.plain m').parent := by
            rw [hr]
            exact hu.not_retired h
          have hlock := (hsec hnr).parentLock
          rw [hr] at hlock hlook
          rw [hu.owner h hlock] at hτ
          exact hστ (hu.only h (hτ.live hu.overSlot (hu.live h)) hlook)
  · intro hr
    obtain ⟨hnr, hne⟩ := not_or.mp hr
    have hs := hsec hnr
    obtain ⟨hlock, hgrand, ⟨τ, hτ, hlive, hlook⟩, hsib⟩ := hs
    have hm : m' ≠ m := fun he => hne (by rw [he])
    refine ⟨?_, ?_, ⟨τ, Graph.over_put.mpr hτ, live_put.mpr (live_retire.mpr ⟨hlive, ?_⟩), ?_⟩, ?_⟩
    · rw [Graph.plain_put, Graph.joinId_put]
      exact hlock
    · rw [Graph.plain_put, Graph.joinId_put]
      exact hgrand
    · rintro d rfl
      have hg := hgrand (by rw [hτ.1]; exact hτ.2)
      rw [hτ.1] at hg
      exact hm (hu.owner h hg)
    · rw [Graph.plain_put, Graph.look_put_ne p, hlook]
      rintro rfl
      exact hne (hlook.symm.trans hu.look)
    · rw [Graph.plain_put, Graph.hasType_put]
      intro ht
      obtain ⟨d, hd⟩ := hsib ht
      refine ⟨d, ?_⟩
      rw [Graph.get_put_ne, hd]
      -- the slot of the parent would be one of a route node that both joins have entered
      intro hs
      have hov := hu.overSlot
      rw [← hs] at hov
      have hg := (hu.secured h).grandLock (by rw [hov.1]; exact hov.2)
      rw [hov.1] at hg
      exact hm (hlock.symm.trans hg)
  · exact hmerged

end Unlinking

/-- The invariant after the parent of a join has been unlinked. -/
theorem Inv.unlink (h : Inv v g) (hu : Unlinking v g m σ) (hp : Replacement v m p) :
    Inv (v.put p σ) (g.retire (v.plain m).parent) where
  root := h.root_put hp.allocated
  inner := h.inner_put hp.allocated
  leaf := h.leaf_put (hu.look ▸ (hu.joined h).parent.1)
  normal := h.normal_put
  phase := h.phase_put
  joined := by
    intro m' hm hf
    rw [Graph.hasType_put] at hm
    rw [Graph.final_put] at hf
    exact hu.joined_put h hp hm hf
  unique := by
    intro τ₁ τ₂ h₁ h₂ hr hlook
    rw [live_put] at h₁ h₂
    rw [Graph.hasType_put] at hr
    by_cases hs₁ : τ₁ = σ
    · by_cases hs₂ : τ₂ = σ
      · rw [hs₁, hs₂]
      · rw [hs₁, Graph.look_put_self] at hr hlook
        rw [Graph.look_put_ne p hs₂] at hlook
        exact absurd hlook.symm (hu.elsewhere h hp hr h₂)
    · rw [Graph.look_put_ne p hs₁] at hr hlook
      by_cases hs₂ : τ₂ = σ
      · rw [hs₂, Graph.look_put_self] at hlook
        exact absurd hlook (hu.elsewhere h hp (hlook ▸ hr) h₁)
      · rw [Graph.look_put_ne p hs₂] at hlook
        exact h.unique τ₁ τ₂ (live_retire.mp h₁).1 (live_retire.mp h₂).1 hr hlook
  live := by
    intro τ hτ
    rw [live_put, live_retire] at hτ
    by_cases hs : τ = σ
    · rw [hs, Graph.look_put_self]
      exact not_or.mpr ⟨hu.replacement_linked h hp, hu.replacement_ne h hp⟩
    · rw [Graph.look_put_ne p hs]
      exact not_or.mpr ⟨h.live τ hτ.1, fun he => hs (hu.only h hτ.1 he)⟩
  retired := by
    intro q hq
    rw [Graph.hasType_put]
    simp only [Graph.hasType_put, Graph.final_put, Graph.plain_put, Graph.joinId_put]
    cases hq with
    | inl hq => exact h.retired q hq
    | inr hq =>
        subst hq
        exact ⟨(hu.joined h).parent, m, hu.main, hu.final, rfl, (hu.secured h).parentLock⟩

theorem Spares.unlink (h : Inv v g) (hu : Unlinking v g m σ) (hp : Replacement v m p) :
    Spares u v g (v.put p σ) (g.retire (v.plain m).parent) where
  next := by rw [Graph.next_put]
  bare := fun q _ => by rw [Graph.plain_put]
  notes := fun m _ _ => by rw [Graph.plain_put]
  owner := fun _ _ => rfl
  neigh2 := fun m _ => .inl Graph.neigh2_put
  lock := by
    intro q m _ hlock _ _ _
    rw [Graph.joinId_put]
    exact hlock
  retired := fun _ hq => .inl hq
  retires := by
    intro q hq
    refine hq.imp_right fun hq => ⟨m, hu.main, hu.final, hq.symm, ?_⟩
    rw [hq]
    exact (hu.secured h).parentLock
  link := by
    intro τ hτ hr
    by_cases hs : τ = σ
    · rw [hs, hu.look]
      refine .inr ⟨.inr rfl, fun q d he => ?_⟩
      have hov := hu.overSlot
      rw [he] at hov
      have hlock := (hu.secured h).grandLock (by rw [hov.1]; exact hov.2)
      rw [hov.1] at hlock
      rw [hlock]
      exact ⟨hu.main, hu.final⟩
    · exact .inl (Graph.look_put_ne p hs)
  fresh := by
    intro r hr hown hno τ hτ
    rw [Graph.on_put] at hτ
    by_cases hs : τ = σ
    · rw [hs, Graph.look_put_self]
      rintro rfl
      obtain ⟨d, hd, hlive⟩ := hu.child h hp hr
      exact hno _ hlive.on hd
    · rw [Graph.look_put_ne p hs]
      exact hno τ hτ

/-! ### Entries in route nodes, and decisions -/

variable {x : Ptr} {f : Field}

@[simp] theorem Graph.allocated_set : (v.set q f x).Allocated p ↔ v.Allocated p := Iff.rfl

@[simp] theorem Graph.hasType_set {k : NodeType} : (v.set q f x).HasType p k ↔ v.HasType p k := Iff.rfl

@[simp] theorem Graph.baseNode_set : (v.set q f x).BaseNode p ↔ v.BaseNode p := Iff.rfl

@[simp] theorem Graph.over_set : (v.set q f x).Over m σ ↔ v.Over m σ := by cases σ <;> exact Iff.rfl

@[simp] theorem Graph.on_set : (v.set q f x).On σ ↔ v.On σ := by cases σ <;> exact Iff.rfl

@[simp] theorem live_set : Live (v.set q f x) g σ ↔ Live v g σ := by cases σ <;> exact Iff.rfl

theorem Graph.child_set {d : Side} (hf : ∀ d, f ≠ .child d) : (v.set q f x).get p (.child d) = v.get p (.child d) :=
  Graph.get_set_ne x (.inr (hf d).symm)

@[simp] theorem Graph.neigh2_setJoin : (v.set q .joinId x).get m .neigh2 = v.get m .neigh2 := Graph.get_set_ne x (.inr (by simp))

@[simp] theorem Graph.joinId_setNeigh2 : (v.set m .neigh2 x).get q .joinId = v.get q .joinId := Graph.get_set_ne x (.inr (by simp))

@[simp] theorem Graph.undecided_setJoin : (v.set q .joinId x).Undecided m ↔ v.Undecided m := by
  rw [Graph.Undecided, Graph.Undecided, Graph.neigh2_setJoin]

@[simp] theorem Graph.final_setJoin : (v.set q .joinId x).Final m ↔ v.Final m := by
  rw [Graph.Final, Graph.Final, Graph.Merged, Graph.Merged, Graph.neigh2_setJoin, Graph.hasType_set, Graph.plain_set]

theorem Graph.undecided_setNeigh2_ne (h : p ≠ m) : (v.set m .neigh2 x).Undecided p ↔ v.Undecided p := by
  rw [Graph.Undecided, Graph.Undecided, Graph.get_set_ne x (.inl h)]

theorem Graph.final_setNeigh2_ne (h : p ≠ m) : (v.set m .neigh2 x).Final p ↔ v.Final p := by
  rw [Graph.Final, Graph.Final, Graph.Merged, Graph.Merged, Graph.get_set_ne x (.inl h), Graph.hasType_set, Graph.plain_set]

/-- No join that is on, and no unlinked parent, needs the entry in the route node `q`. -/
def Unneeded (v : Graph) (g : Ghost) (q : Ptr) : Prop :=
  ∀ m, v.HasType m .joinMain → v.Final m → v.get q .joinId = m → g.retired (v.plain m).parent ∧ (v.plain m).parent ≠ q

theorem Joined.setJoin (h : Joined v g m) (hm : v.HasType m .joinMain) (hf : v.Final m) (hq : Unneeded v g q) :
    Joined (v.set q .joinId x) g m := by
  obtain ⟨hpar, hover, hdis, ho, hn, hdone, hun, hsec, hmerged⟩ := h
  refine ⟨hpar, ?_, hdis, ho, hn, ?_, ?_, ?_, by simpa using hmerged⟩
  · simpa using hover
  · simpa using hdone
  · intro hr σ hσ
    rw [Graph.look_set (by simp)]
    exact hun hr σ (Graph.over_set.mp hσ)
  · intro hr
    obtain ⟨hlock, hgrand, ⟨σ, hσ, hlive, hlook⟩, hsib⟩ := hsec hr
    have hkeep : ∀ {p}, v.get p .joinId = m → (v.set q .joinId x).get p .joinId = m := by
      intro p hp
      rw [Graph.get_set_ne x, hp]
      refine .inl ?_
      rintro rfl
      exact hr (hq m hm hf hp).1
    refine ⟨hkeep hlock, fun hne => hkeep (hgrand hne), ⟨σ, Graph.over_set.mpr hσ, live_set.mpr hlive, ?_⟩, ?_⟩
    · rw [Graph.look_set (by simp)]
      exact hlook
    · intro ht
      obtain ⟨d, hd⟩ := hsib ht
      refine ⟨d, ?_⟩
      rw [Graph.plain_set, Graph.child_set (by simp)]
      exact hd

/-- The invariant after an entry in a route node has been changed. -/
theorem Inv.setJoin (h : Inv v g) (hq : Unneeded v g q) : Inv (v.set q .joinId x) g where
  root := h.root
  inner := by
    intro p d hp
    rw [Graph.child_set (by simp)]
    exact h.inner p d hp
  leaf := by
    intro p d hp
    rw [Graph.child_set (by simp)]
    exact h.leaf p d hp
  normal := by
    intro b hb
    rw [Graph.neigh2_setJoin]
    exact h.normal b hb
  phase := by
    intro m hm
    rw [Graph.undecided_setJoin, Graph.final_setJoin]
    exact h.phase m hm
  joined := by
    intro m hm hf
    rw [Graph.final_setJoin] at hf
    exact (h.joined m hm hf).setJoin hm hf hq
  unique := by
    intro σ τ hσ hτ hr hlook
    rw [live_set] at hσ hτ
    rw [Graph.look_set (by simp)] at hr hlook
    rw [Graph.look_set (by simp)] at hlook
    exact h.unique σ τ hσ hτ hr hlook
  live := by
    intro σ hσ
    rw [live_set] at hσ
    rw [Graph.look_set (by simp)]
    exact h.live σ hσ
  retired := by
    intro p hp
    obtain ⟨ht, m, hm, hf, hpar, hlock⟩ := h.retired p hp
    refine ⟨ht, m, hm, Graph.final_setJoin.mpr hf, hpar, ?_⟩
    rw [Graph.get_set_ne x, hlock]
    refine .inl ?_
    rintro rfl
    exact (hq m hm hf hlock).2 hpar

/-- A step that changes no pointer to a node of the tree and no plain field. -/
theorem Spares.set (hf : ∀ d, f ≠ .child d) (hlock : ∀ m, v.HasType m .joinMain → g.owner m = u → v.Undecided m →
    f = .joinId → v.get q .joinId ≠ m) (hmoves : f = .neigh2 → Moves v (v.set q f x) (g.owner q = u) q) :
    Spares u v g (v.set q f x) g where
  next := le_refl _
  bare := fun _ _ => rfl
  notes := fun _ _ _ => rfl
  owner := fun _ _ => rfl
  neigh2 := by
    intro m _
    by_cases hm : m = q ∧ f = .neigh2
    · rw [hm.1]
      exact hmoves hm.2
    · refine .inl (Graph.get_set_ne x ?_)
      rw [not_and_or] at hm
      exact hm.imp_right Ne.symm
  lock := by
    intro p m _ hp ht ho hu
    rw [Graph.get_set_ne x, hp]
    by_contra hne
    obtain ⟨hpq, hfj⟩ := not_or.mp hne
    rw [not_not] at hpq hfj
    exact hlock m ht ho hu hfj.symm (hpq ▸ hp)
  retired := fun _ hp => hp
  retires := fun _ hp => .inl hp
  link := fun _ _ _ => .inl (Graph.look_set hf _)
  fresh := by
    intro r _ _ hno σ hσ
    rw [Graph.look_set hf]
    exact hno σ (Graph.on_set.mp hσ)

theorem Secured.setNeigh2 {m' : Ptr} (h : Secured v g m') : Secured (v.set m .neigh2 x) g m' := by
  obtain ⟨hlock, hgrand, ⟨σ, hσ, hlive, hlook⟩, hsib⟩ := h
  refine ⟨?_, ?_, ⟨σ, Graph.over_set.mpr hσ, live_set.mpr hlive, ?_⟩, ?_⟩
  · rw [Graph.plain_set, Graph.joinId_setNeigh2]
    exact hlock
  · rw [Graph.plain_set, Graph.joinId_setNeigh2]
    exact hgrand
  · rw [Graph.look_set (by simp)]
    exact hlook
  · intro ht
    obtain ⟨d, hd⟩ := hsib ht
    refine ⟨d, ?_⟩
    rw [Graph.plain_set, Graph.child_set (by simp)]
    exact hd

theorem Joined.setNeigh2 {m' : Ptr} (h : Joined v g m')
    (hdone : (v.set m .neigh2 x).get m' .neigh2 = DONE → g.retired (v.plain m').parent)
    (hmerged : (v.set m .neigh2 x).get m' .neigh2 ≠ (v.plain m').neigh1) : Joined (v.set m .neigh2 x) g m' := by
  refine ⟨h.parent, ?_, h.distinct, h.otherb, h.neigh1, hdone, ?_, fun hr => (h.secured hr).setNeigh2, hmerged⟩
  · simpa using h.overSlot
  · intro hr σ hσ
    rw [Graph.look_set (by simp)]
    exact h.unlinked hr σ (Graph.over_set.mp hσ)

/-- The invariant after a decision of the join `m`. -/
theorem Inv.setNeigh2 (h : Inv v g) (hm : v.HasType m .joinMain)
    (hphase : (v.set m .neigh2 x).Undecided m ∨ (v.set m .neigh2 x).Final m)
    (hkeep : v.Final m → (v.set m .neigh2 x).Final m) (hdone : x = DONE → g.retired (v.plain m).parent)
    (hj : (v.set m .neigh2 x).Final m → Joined v g m) (hmerged : (v.set m .neigh2 x).Final m → x ≠ (v.plain m).neigh1) :
    Inv (v.set m .neigh2 x) g where
  root := h.root
  inner := by
    intro p d hp
    rw [Graph.child_set (by simp)]
    exact h.inner p d hp
  leaf := by
    intro p d hp
    rw [Graph.child_set (by simp)]
    exact h.leaf p d hp
  normal := by
    intro b hb
    rw [Graph.get_set_ne x]
    · exact h.normal b hb
    · refine .inl ?_
      rintro rfl
      exact absurd (hb.2.symm.trans hm.2) (by simp)
  phase := by
    intro m' hm'
    by_cases he : m' = m
    · exact he ▸ hphase
    · rw [Graph.undecided_setNeigh2_ne he, Graph.final_setNeigh2_ne he]
      exact h.phase m' hm'
  joined := by
    intro m' hm' hf
    by_cases he : m' = m
    · subst he
      have hx : (v.set m' .neigh2 x).get m' .neigh2 = x := Graph.get_set_self _ _ _
      refine (hj hf).setNeigh2 ?_ ?_ <;> rw [hx]
      · exact hdone
      · exact hmerged hf
    · rw [Graph.final_setNeigh2_ne he] at hf
      refine (h.joined m' hm' hf).setNeigh2 ?_ ?_ <;> rw [Graph.get_set_ne x (.inl he)]
      · exact (h.joined m' hm' hf).done
      · exact (h.joined m' hm' hf).merged
  unique := by
    intro σ τ hσ hτ hr hlook
    rw [live_set] at hσ hτ
    rw [Graph.look_set (by simp)] at hr hlook
    rw [Graph.look_set (by simp)] at hlook
    exact h.unique σ τ hσ hτ hr hlook
  live := by
    intro σ hσ
    rw [live_set] at hσ
    rw [Graph.look_set (by simp)]
    exact h.live σ hσ
  retired := by
    intro p hp
    obtain ⟨ht, m', hm', hf, hpar, hlock⟩ := h.retired p hp
    refine ⟨ht, m', hm', ?_, hpar, ?_⟩
    · by_cases he : m' = m
      · subst he
        exact hkeep hf
      · exact (Graph.final_setNeigh2_ne he).mpr hf
    · rw [Graph.joinId_setNeigh2]
      exact hlock

/-! ### Notes in main nodes -/

variable {k : PlainField}

theorem bare_type {a b : Plain} (h : a.bare = b.bare) : a.type = b.type := by
  have hb : a.bare.type = b.bare.type := by rw [h]
  exact hb

theorem bare_parent {a b : Plain} (h : a.bare = b.bare) : a.parent = b.parent := by
  have hb : a.bare.parent = b.bare.parent := by rw [h]
  exact hb

theorem bare_mainNode {a b : Plain} (h : a.bare = b.bare) : a.mainNode = b.mainNode := by
  have hb : a.bare.mainNode = b.bare.mainNode := by rw [h]
  exact hb

@[simp] theorem Graph.hasType_assign {j : NodeType} : (v.assign m k x).HasType p j ↔ v.HasType p j := by
  rw [Graph.HasType, Graph.HasType, bare_type (Graph.bare_assign m p k x)]
  exact Iff.rfl

@[simp] theorem Graph.baseNode_assign : (v.assign m k x).BaseNode p ↔ v.BaseNode p := by
  rw [Graph.BaseNode, Graph.BaseNode, bare_type (Graph.bare_assign m p k x)]
  exact Iff.rfl

@[simp] theorem Graph.undecided_assign : (v.assign m k x).Undecided p ↔ v.Undecided p := Iff.rfl

@[simp] theorem Graph.final_assign : (v.assign m k x).Final p ↔ v.Final p := by
  rw [Graph.Final, Graph.Final, Graph.Merged, Graph.Merged, Graph.get_assign, Graph.hasType_assign,
    bare_mainNode (Graph.bare_assign m _ k x)]

@[simp] theorem live_assign : Live (v.assign m k x) g σ ↔ Live v g σ := by cases σ <;> exact Iff.rfl

@[simp] theorem Graph.on_assign : (v.assign m k x).On σ ↔ v.On σ := by cases σ <;> exact Iff.rfl

theorem Joined.assign {m' : Ptr} (h : Joined v g m') (hne : m' ≠ m) : Joined (v.assign m k x) g m' := by
  obtain ⟨hpar, hover, hdis, ho, hn, hdone, hun, hsec, hmerged⟩ := h
  have hpl : (v.assign m k x).plain m' = v.plain m' := Graph.plain_assign_ne k x hne
  have hov : ∀ σ, (v.assign m k x).Over m' σ ↔ v.Over m' σ := fun σ => by
    cases σ <;> simp only [Graph.Over, hpl]
  refine ⟨?_, ?_, by rw [hpl]; exact hdis, by rw [hpl]; exact ho, ?_, by rw [hpl]; exact hdone, ?_, ?_, by rw [hpl]; exact hmerged⟩
  · rw [hpl, Graph.hasType_assign]
    exact hpar
  · intro σ hσ
    exact Graph.on_assign.mpr (hover σ ((hov σ).mp hσ))
  · rw [hpl, Graph.baseNode_assign]
    exact hn
  · rw [hpl, Graph.look_assign]
    exact fun hr σ hσ => hun hr σ ((hov σ).mp hσ)
  · rw [hpl]
    intro hr
    obtain ⟨hlock, hgrand, ⟨σ, hσ, hlive, hlook⟩, hsib⟩ := hsec hr
    refine ⟨by rw [hpl]; exact hlock, by rw [hpl]; exact hgrand,
      ⟨σ, (hov σ).mpr hσ, live_assign.mpr hlive, by rw [hpl, Graph.look_assign]; exact hlook⟩, ?_⟩
    rw [hpl, Graph.hasType_assign]
    exact hsib

/-- The invariant after a note in the main node of an undecided join. -/
theorem Inv.assign (h : Inv v g) (hm : v.Undecided m) : Inv (v.assign m k x) g where
  root := h.root
  inner := by
    intro q d hq
    rw [Graph.hasType_assign] at hq
    exact h.inner q d hq
  leaf := by
    intro q d hq
    rw [Graph.baseNode_assign] at hq
    exact h.leaf q d hq
  normal := by
    intro b hb
    rw [Graph.hasType_assign] at hb
    exact h.normal b hb
  phase := by
    intro m' hm'
    rw [Graph.hasType_assign] at hm'
    rw [Graph.undecided_assign, Graph.final_assign]
    exact h.phase m' hm'
  joined := by
    intro m' hm' hf
    rw [Graph.hasType_assign] at hm'
    rw [Graph.final_assign] at hf
    refine (h.joined m' hm' hf).assign ?_
    rintro rfl
    exact hm.not_final hf
  unique := by
    intro σ τ hσ hτ hr hlook
    rw [live_assign] at hσ hτ
    rw [Graph.look_assign] at hr hlook
    rw [Graph.hasType_assign] at hr
    exact h.unique σ τ hσ hτ hr hlook
  live := by
    intro σ hσ
    rw [live_assign] at hσ
    rw [Graph.look_assign]
    exact h.live σ hσ
  retired := by
    intro p hp
    obtain ⟨ht, m', hm', hf, hpar, hlock⟩ := h.retired p hp
    refine ⟨Graph.hasType_assign.mpr ht, m', Graph.hasType_assign.mpr hm', Graph.final_assign.mpr hf, ?_, hlock⟩
    rw [bare_parent (Graph.bare_assign m m' k x)]
    exact hpar

theorem Spares.assign (hm : v.Undecided m) (ho : g.owner m ≠ u) : Spares u v g (v.assign m k x) g where
  next := le_refl _
  bare := fun p _ => Graph.bare_assign m p k x
  notes := by
    intro m' _ hm'
    refine Graph.plain_assign_ne k x ?_
    rintro rfl
    exact hm'.elim ho hm.not_final
  owner := fun _ _ => rfl
  neigh2 := fun _ _ => .inl rfl
  lock := fun _ _ _ hlock _ _ _ => hlock
  retired := fun _ hp => hp
  retires := fun _ hp => .inl hp
  link := fun σ _ _ => .inl (congrFun (Graph.look_assign m k x) σ)
  fresh := by
    intro r _ _ hno σ hσ
    rw [Graph.look_assign]
    exact hno σ (Graph.on_assign.mp hσ)

/-! ### Changes -/

/-- What a step of the thread `t` does to the graph. -/
inductive Change (t : ℕ) (v : Graph) (g : Ghost) : Graph → Ghost → Prop where
  | none : Change t v g v g
  | grow {v' : Graph} (he : v.Extends v') (hnew : ∀ q, v'.Allocated q → ¬ v.Allocated q → FreshNode v' q) :
      Change t v g v' (g.take t v)
  | put {σ : Slot} {p : Ptr} (hold : v.BaseNode (v.look σ)) (hp : Placeable v g p)
      (ho : v.HasType p .route → g.owner p = t) : Change t v g (v.put p σ) g
  | unlink {m p : Ptr} {σ : Slot} (hu : Unlinking v g m σ) (hp : Replacement v m p) :
      Change t v g (v.put p σ) (g.retire (v.plain m).parent)
  | setJoin {q x : Ptr} (hq : Unneeded v g q)
      (hown : ∀ m, v.HasType m .joinMain → v.Undecided m → v.get q .joinId = m → g.owner m = t) :
      Change t v g (v.set q .joinId x) g
  | abort {m : Ptr} (hm : v.HasType m .joinMain) (hu : v.Undecided m) : Change t v g (v.set m .neigh2 ABORTED) g
  | commit {m n : Ptr} (hm : v.HasType m .joinMain) (hn : v.HasType n .joinNeighbor) (hmain : (v.plain n).mainNode = m)
      (hne : n ≠ (v.plain m).neigh1) (hu : v.get m .neigh2 = PREPARING) (ho : g.owner m = t) (hj : Joined v g m)
      (hr : ¬ g.retired (v.plain m).parent) :
      Change t v g (v.set m .neigh2 n) g
  | finish {m : Ptr} (hm : v.HasType m .joinMain) (hf : v.Final m) (hr : g.retired (v.plain m).parent) :
      Change t v g (v.set m .neigh2 DONE) g
  | note {m q : Ptr} {k : PlainField} (hu : v.Undecided m) (ho : g.owner m = t) : Change t v g (v.assign m k q) g

theorem Graph.merged_set (hn : v.HasType n .joinNeighbor) (hmain : (v.plain n).mainNode = m) :
    (v.set m .neigh2 n).Merged m := by
  rw [Graph.Merged, Graph.get_set_self]
  exact ⟨hn, hmain⟩

namespace Change

theorem inv (h : Inv v g) (hc : Change t v g v' g') : Inv v' g' := by
  cases hc with
  | none => exact h
  | grow he hnew => exact h.grow he hnew
  | put hold hp _ => exact h.put hold hp
  | unlink hu hp => exact h.unlink hu hp
  | setJoin hq _ => exact h.setJoin hq
  | @abort m hm hu =>
      have hu' : (v.set m .neigh2 ABORTED).Undecided m := .inr (Graph.get_set_self _ _ _)
      exact h.setNeigh2 hm (.inl hu') (fun hf => absurd hf hu.not_final) (fun he => absurd he (by decide))
        (fun hf => absurd hf hu'.not_final) (fun hf => absurd hf hu'.not_final)
  | @commit m n hm hn hmain hne hu _ hj _ =>
      have hf : (v.set m .neigh2 n).Final m := .inl (Graph.merged_set hn hmain)
      refine h.setNeigh2 hm (.inr hf) (fun _ => hf) (fun he => ?_) (fun _ => hj) (fun _ => hne)
      exact absurd (he ▸ hn.1.1 : firstPtr ≤ DONE) (by decide)
  | @finish m hm hf hr =>
      have hf' : (v.set m .neigh2 DONE).Final m := .inr (Graph.get_set_self _ _ _)
      refine h.setNeigh2 hm (.inr hf') (fun _ => hf') (fun _ => hr) (fun _ => h.joined m hm hf) (fun _ he => ?_)
      exact absurd (he ▸ (h.joined m hm hf).neigh1.1.1 : firstPtr ≤ DONE) (by decide)
  | note hu _ => exact h.assign hu

theorem spares (h : Inv v g) (hc : Change t v g v' g') (hne : u ≠ t) : Spares u v g v' g' := by
  cases hc with
  | none => exact .refl
  | grow he hnew => exact .grow he hnew
  | put hold _ ho => exact .put hold fun hr hu => hne (hu.symm.trans (ho hr))
  | unlink hu hp => exact .unlink h hu hp
  | setJoin _ hown =>
      refine .set (by simp) (fun m hm ho hu _ hlock => ?_) (fun he => by simp at he)
      exact hne (ho.symm.trans (hown m hm hu hlock))
  | @abort m hm hu =>
      refine .set (by simp) (fun _ _ _ _ he => by simp at he) fun _ => ?_
      unfold Moves
      rw [Graph.get_set_self]
      cases hu with
      | inl hu => exact .inr ⟨hm, .inl ⟨hu, .inl rfl⟩⟩
      | inr hu => exact .inl hu.symm
  | @commit m n hm hn hmain _ hu ho _ _ =>
      refine .set (by simp) (fun _ _ _ _ he => by simp at he) fun _ => .inr ⟨hm, .inl ⟨hu, .inr ⟨?_, ?_⟩⟩⟩
      · exact fun hu => hne (hu.symm.trans ho)
      · exact Graph.merged_set hn hmain
  | @finish m hm hf _ =>
      refine .set (by simp) (fun _ _ _ _ he => by simp at he) fun _ => ?_
      unfold Moves
      rw [Graph.get_set_self]
      cases hf with
      | inl hf => exact .inr ⟨hm, .inr ⟨hf, rfl⟩⟩
      | inr hf => exact .inl hf.symm
  | note hu ho => exact .assign hu fun he => hne (he.symm.trans ho)

/-- A join that is on was there before the step. -/
theorem old_of_final (hc : Change t v g v' g') (hm : v'.HasType m .joinMain) (hf : v'.Final m) : v.HasType m .joinMain := by
  cases hc with
  | none | setJoin | abort | commit | finish => exact hm
  | grow he hnew =>
      by_cases ha : v.Allocated m
      · exact he.hasType_old ha hm
      · exact absurd hf ((hnew m hm.1 ha).main hm.2).not_final
  | put => exact Graph.hasType_put.mp hm
  | unlink => exact Graph.hasType_put.mp hm
  | note => exact Graph.hasType_assign.mp hm

/-- A route node is unlinked by taking it out of a slot. -/
theorem unlinks (h : Inv v g) (hc : Change t v g v' g') (hr : ¬ g.retired p) (hr' : g'.retired p) :
    ∃ σ, v.On σ ∧ v.look σ = p ∧ v'.look σ ≠ p := by
  cases hc with
  | unlink hu hp =>
      obtain rfl := hr'.resolve_left hr
      refine ⟨_, (hu.live h).on, hu.look, ?_⟩
      rw [Graph.look_put_self]
      exact hu.replacement_ne h hp
  | _ => exact absurd hr' hr

end Change

end Lfca

end LockFreeSearchTree
