import LockFreeSearchTree.LfcaRoutes

/-! # Adaptation to low contention

What `low_contention_adaptation` does to the new base node of an update of one thread.

The keys are strictly increasing between the calls, and the splits an update makes on its way keep
them so.  Hence `parent_of` finds the grandparent of the new base node, no earlier join is in the way,
and the join is refused only if the values do not fit into one treap (`join_allOrNothing`). -/

namespace LockFreeSearchTree

open BinTree Concurrent Concurrent.Prog Transition

namespace Lfca

variable {s s' s₀ s₁ : Shared} {T : Tree} {C D : Path} {d : Side} {b n : Base} {r : Route} {i : ℤ} {p : Ptr}

/-! ### Placing the base node -/

theorem Good.placeUpdate {u : Treap → ℤ → LfcaM (Treap × Bool)} {P : List ℤ → List ℤ → Bool → Prop} {fuel fuel' : ℕ}
    {res : Bool} (hu : Applies u i P) (h : Good s T)
    (hplace : (placeUpdate u i fuel .uncontened).run exec s = .ok ((fuel', p, res), s₁)) :
    s.Extends s₁ ∧ ∃ C b, b.ptr = p ∧ Clean s₁ (plug C (leaf b)) ∧ Searchable Route.key (plug C (leaf b)) ∧
      Unjoined s₁ b.ptr := by
  have hF : Admits (fun _ => True) s := fun _ _ => trivial
  obtain ⟨he, T₁, b, hp, hplaced, hc, hb⟩ := (placeUpdate_meets hu trivial h.clean (by decide) hF).of_run hplace
  obtain ⟨_, ho⟩ := forcedSplits_ordered (fun _ _ h => h) (fun _ _ => le_of_lt) hplaced.splits hplaced.room h.ordered
  have hk := ho.routed.searchable fun _ _ h => h
  rw [← plug_pathFor i T₁] at hk
  exact ⟨he, pathFor i T₁, b, hp.symm, hc, hk.setLeaf b, hb⟩

/-- Below the threshold, `adapt_if_needed` is `low_contention_adaptation`. -/
theorem Clean.adaptIfNeeded_low (h : Clean s (plug C (leaf b))) (hstat : (s.nodes b.ptr).stat < LOW_CONT) (fuel : ℕ) :
    (adaptIfNeeded fuel b.ptr).run exec s = (lowContentionAdaptation fuel b.ptr).run exec s := by
  have hb := h.shape.base
  have hset := h.bases b (mem_leaves_plug.mpr (.inl (by simp)))
  have hnext : nextStat (s.nodes b.ptr).stat .noinfo = (s.nodes b.ptr).stat := by simp [nextStat]
  apply run_eq_of_meets
  intro F Q hlow
  unfold adaptIfNeeded
  rw [meets_bind, meets_isReplaceable hb.allocated hset, if_neg (by simp), meets_bind,
    meets_newStat hb.allocated hset.type_ne_range, hnext, if_neg (by unfold HIGH_CONT LOW_CONT at *; omega), meets_bind,
    meets_newStat hb.allocated hset.type_ne_range, hnext, if_pos hstat]
  exact hlow

/-! ### The join -/

/-- The join of the base node `b` with its neighbor `n` happens if their values fit into one treap, and
leaves everything as it is otherwise. -/
structure AllOrNothing (s s' : Shared) (C : Path) (d : Side) (b : Base) (D : Path) (n : Base) : Prop where
  treaps : ∀ q, s.Allocated q → (s'.nodes q).data = (s.nodes q).data
  joins : b.vals.length + n.vals.length ≤ TREAP_NODES →
    ∃ m, m.vals = joined d b.vals n.vals ∧ Shape s' (plug C (plug D (leaf m)))
  refuses : TREAP_NODES < b.vals.length + n.vals.length → s' = s

theorem lowContentionAdaptation_allOrNothing {F : Fault → Prop} {fuel : ℕ} (h : Clean s (pair C d b r D n))
    (hk : Searchable Route.key (pair C d b r D n)) (hb : Unjoined s b.ptr) (hF : Admits F s)
    (hf : Fueled F (pair C d b r D n).height fuel) (hD : ∀ G ∈ D, G.side = d) :
    Meets exec F (lowContentionAdaptation fuel b.ptr) s (fun _ s' => AllOrNothing s s' C d b D n) := by
  refine lowContentionAdaptation_pair h hF hf hD ?_ ?_ ?_
  · intro hsize
    exact ⟨fun _ _ => rfl, fun hfit => absurd hsize (not_lt.mpr hfit), fun _ => rfl⟩
  · intro hgive
    exact absurd (hb.2.symm.trans (hgive hk)) (by decide)
  · intro hsize s' m he hc hv
    refine ⟨fun q hq => ?_, fun _ => ⟨m, hv, hc.shape⟩, fun hlt => absurd hsize (not_le.mpr hlt)⟩
    exact congrArg Plain.data (he.plain q hq)

/-- In a run of one thread, an update has placed its new base node `p`, which is not the root: its
parent is a route node `r`, and its neighbor `n` is the last base node towards it on the other side of
`r`.  A join of the two removes `r` and puts their values in the place of the neighbor if they fit into
one treap; otherwise it changes nothing. -/
theorem join_allOrNothing {ls : List (Call × Result)} {u : Treap → ℤ → LfcaM (Treap × Bool)} {fuel fuel' : ℕ} {res : Bool}
    (hi : Initial s₀) (h : Run Returns s₀ ls s) (hu : u = treapInsert ∨ u = treapRemove)
    (hplace : (placeUpdate u i fuel .uncontened).run exec s = .ok ((fuel', p, res), s₁)) (hroot : p ≠ s₁.root) :
    ((s₁.nodes p).stat < LOW_CONT →
      ∀ fuel, (adaptIfNeeded fuel p).run exec s₁ = (lowContentionAdaptation fuel p).run exec s₁) ∧
    ∃ C d b r D n, Shape s₁ (pair C d b r D n) ∧ (∀ G ∈ D, G.side = d) ∧ b.ptr = p ∧ r.ptr = (s₁.nodes p).parent ∧
      (Unlimited s₀ → ∃ fuel s', (lowContentionAdaptation fuel p).run exec s₁ = .ok ((), s')) ∧
      ∀ fuel s', (lowContentionAdaptation fuel p).run exec s₁ = .ok ((), s') → AllOrNothing s₁ s' C d b D n := by
  obtain ⟨T, hT⟩ := runs_good hi h
  obtain ⟨P, hu⟩ : ∃ P, Applies u i P := by
    rcases hu with rfl | rfl
    · exact ⟨_, treapInsert_applies i⟩
    · exact ⟨_, treapRemove_applies i⟩
  obtain ⟨he, C, b, rfl, hc, hk, hb⟩ := hT.placeUpdate hu hplace
  refine ⟨fun hstat => hc.adaptIfNeeded_low hstat, ?_⟩
  cases C with
  | nil => exact absurd hc.shape.root.symm hroot
  | cons G C =>
      obtain ⟨d, r, t⟩ := G
      have hparent : (s₁.nodes b.ptr).parent = r.ptr := hc.shape.base.parent
      obtain ⟨D, n, hpair, hD⟩ := exists_pair d r t C b
      rw [hpair] at hc hk
      refine ⟨C, d, b, r, D, n, hc.shape, hD, rfl, hparent.symm, ?_, ?_⟩
      · intro hu
        obtain ⟨_, _, hu'⟩ := runs_unlimited hi hu h
        obtain ⟨_, s', hrun, _⟩ := (lowContentionAdaptation_allOrNothing hc hk hb (hu'.extends he).admits
          (.inr (Nat.lt_succ_self _)) hD).returns
        exact ⟨_, s', hrun⟩
      · intro fuel s' hrun
        exact (lowContentionAdaptation_allOrNothing (F := fun _ => True) hc hk hb
          (fun _ _ => trivial) (.inl trivial) hD).of_run hrun

/-- An update with some fuel places a base node other than the root. -/
def placesBelow (s : Shared) (u : Treap → ℤ → LfcaM (Treap × Bool)) (i : ℤ) : Bool :=
  match (placeUpdate u i 40 .uncontened).run exec s with
  | .ok ((_, p, _), s₁) => p ≠ s₁.root
  | .error _ => false

set_option maxRecDepth 100000 in
/-- The insertions of 0, 1, ..., 64 split the tree at 31; then a removal of 3 places a new base node on
the left. -/
theorem join_allOrNothing_remove : ∃ p s₁ C d b r D n, Shape s₁ (pair C d b r D n) ∧ b.ptr = p ∧
    ∃ fuel s', (lowContentionAdaptation fuel p).run exec s₁ = .ok ((), s') ∧ AllOrNothing s₁ s' C d b D n := by
  have hcomp : (results start bulk).isSome = true ∧ placesBelow (afterAll start bulk) treapRemove 3 = true := by
    decide +kernel
  obtain ⟨hsome, hplaces⟩ := hcomp
  obtain ⟨ls, hls⟩ := Option.isSome_iff_exists.mp hsome
  unfold placesBelow at hplaces
  split at hplaces
  · rename_i fuel' p res s₁ hplace
    obtain ⟨_, C, d, b, r, D, n, hshape, _, hp, _, hret, hall⟩ :=
      join_allOrNothing start_initial (run_afterAll hls) (.inr rfl) hplace (of_decide_eq_true hplaces)
    obtain ⟨fuel, s', hrun⟩ := hret start_unlimited
    exact ⟨p, s₁, C, d, b, r, D, n, hshape, hp, fuel, s', hrun, hall fuel s' hrun⟩
  · cases hplaces

end Lfca

end LockFreeSearchTree
