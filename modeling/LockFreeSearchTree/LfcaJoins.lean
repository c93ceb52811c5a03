import LockFreeSearchTree.LfcaThreads

/-! # Joins keep the protocol

The owner of a join: `secure_join` from the copies of the two base nodes over the entries in parent
and grandparent to the decision.  Then `complete_join`, which the owner and any helper may run. -/

namespace LockFreeSearchTree

open BinTree Concurrent

namespace Lfca

variable {v v' : Graph} {g g' : Ghost} {u t : ℕ} {m n p q r b x gp : Ptr} {d : Plain} {σ τ : Slot} {A : Graph → Ghost → Prop}

/-! ### The owner of a join -/

/-- The main node `m` with the fields `d` is that of an undecided join of the thread `t`. -/
structure Mine (t : ℕ) (m : Ptr) (d : Plain) (v : Graph) (g : Ghost) : Prop where
  type : d.type = .joinMain
  taken : Taken t m d v g
  undecided : v.Undecided m

theorem kept_mine : Kept t (Mine t m d) := fun _ _ _ _ hi hi' hs h =>
  ⟨h.type, kept_taken _ _ _ _ hi hi' hs h.taken, hs.undecided h.taken.allocated h.taken.owner h.undecided⟩

theorem Mine.main (h : Mine t m d v g) : v.HasType m .joinMain := h.type ▸ h.taken.hasType

/-- The join has been entered in the route node `q`. -/
structure Entered (t : ℕ) (m : Ptr) (d : Plain) (q : Ptr) (v : Graph) (g : Ghost) : Prop where
  mine : Mine t m d v g
  allocated : v.Allocated q
  lock : v.get q .joinId = m

theorem kept_entered : Kept t (Entered t m d q) := fun _ _ _ _ hi hi' hs h =>
  ⟨kept_mine _ _ _ _ hi hi' hs h.mine, hs.allocated h.allocated,
    hs.lock q m h.allocated h.lock h.mine.main h.mine.taken.owner h.mine.undecided⟩

theorem Entered.not_final (h : Entered t m d q v g) : ¬ v.Final (v.get q .joinId) := by
  rw [h.lock]
  exact h.mine.undecided.not_final

/-- What an undecided join is entered in has not been unlinked. -/
theorem Entered.linked (h : Entered t m d q v g) (hi : Inv v g) : ¬ g.retired q := by
  intro hr
  obtain ⟨_, m', _, hf, _, hlock⟩ := hi.retired q hr
  rw [← hlock] at hf
  exact h.not_final hf

/-- No step of another thread changes a slot with a route node that an undecided join is entered in. -/
theorem Entered.look (h' : Entered t m d q v' g') (hi' : Inv v' g')
    (hs : Spares t v g v' g') (hr : v.HasType q .route) (hσ : Live v g σ) (hlook : v.look σ = q) : v'.look σ = q := by
  cases hs.link σ hσ (hlook ▸ hr) with
  | inl he => exact he.trans hlook
  | inr he => exact absurd (hlook ▸ he.1) (h'.linked hi')

/-- `prev` is where the route node `n` is linked. -/
def Above (n prev : Ptr) (v : Graph) (g : Ghost) : Prop :=
  prev = nullptr ∧ v.root = n ∨ v.Allocated prev ∧ (¬ g.retired prev → ∃ side, v.get prev (.child side) = n)

/-- The search for the parent of a route node that the join has been entered in. -/
def Seeks (t : ℕ) (m : Ptr) (d : Plain) (n : Ptr) (found : Prop) (prev : Ptr) (v : Graph) (g : Ghost) : Prop :=
  (Entered t m d n v g ∧ v.HasType n .route) ∧ (found → Above n prev v g)

theorem kept_seeks {found : Prop} {prev : Ptr} : Kept t (Seeks t m d n found prev) := by
  rintro v g v' g' hi hi' hs ⟨⟨he, hr⟩, ha⟩
  have he' := kept_entered _ _ _ _ hi hi' hs he
  refine ⟨⟨he', hs.hasType hr⟩, fun hf => ?_⟩
  cases ha hf with
  | inl ha => exact .inl ⟨ha.1, he'.look hi' hs hr (σ := .root) trivial ha.2⟩
  | inr ha =>
      refine .inr ⟨hs.allocated ha.1, fun hnr => ?_⟩
      have hnr' : ¬ g.retired prev := fun hp => hnr (hs.retired prev hp)
      obtain ⟨side, hside⟩ := ha.2 hnr'
      exact ⟨side, he'.look hi' hs hr (σ := .child prev side) ⟨ha.1, hnr'⟩ hside⟩

theorem parentOfLoop_ens (fuel : ℕ) (hA : Kept t A) {prev curr : Ptr} :
    Ens t (fun v g => Seeks t m d n (curr = n) prev v g ∧ A v g) (parentOfLoop fuel n prev curr)
      (fun r v g => Seeks t m d n (r ≠ NOT_FOUND) r v g ∧ A v g) := by
  induction fuel generalizing prev curr with
  | zero => exact .raise
  | succ fuel ih =>
      have hk : ∀ {found : Prop} {prev : Ptr}, Kept t (fun v g => Seeks t m d n found prev v g ∧ A v g) := kept_seeks.and hA
      refine Ens.bind (B := fun _ v g => Seeks t m d n (curr = n) prev v g ∧ A v g) (.plain hk (fun _ => hk) fun _ _ _ h _ => h)
        fun a => ?_
      have hload : ∀ side, Ens t (fun v g => Seeks t m d n (curr = n) prev v g ∧ A v g) (load curr (.child side))
          (fun next v g => Seeks t m d n (next = n) curr v g ∧ A v g) := fun side =>
        .load hk (fun _ => hk) fun v g _ h hc => ⟨⟨h.1.1, fun he => .inr ⟨hc, fun _ => ⟨side, he⟩⟩⟩, h.2⟩
      refine .ite (fun _ => ?_) fun hstop => .ite (fun _ => ?_) fun hroute => ?_
      · refine Ens.bind (B := fun _ v g => Seeks t m d n (curr = n) prev v g ∧ A v g)
          (.plain hk (fun _ => hk) fun _ _ _ h _ => h) fun _ => ?_
        exact .ite (fun _ => .bind (hload _) fun _ => ih) fun _ => .bind (hload _) fun _ => ih
      · exact .pure hk fun v g _ h => ⟨⟨h.1.1, fun hne => absurd rfl hne⟩, h.2⟩
      · refine .pure hk fun v g _ h => ⟨⟨h.1.1, fun _ => h.1.2 ?_⟩, h.2⟩
        by_contra hne
        exact hstop ⟨hne, not_not.mp hroute⟩

/-- `parent_of` of a route node that the join has been entered in. -/
theorem parentOf_ens (fuel : ℕ) (hA : Kept t A) :
    Ens t (fun v g => (Entered t m d n v g ∧ v.HasType n .route) ∧ A v g) (parentOf fuel n)
      (fun r v g => Seeks t m d n (r ≠ NOT_FOUND) r v g ∧ A v g) := by
  refine .bind (.loadRoot ((kept_entered.and kept_hasType).and hA) (fun _ => kept_seeks.and hA) fun v g _ h => ?_)
    fun _ => parentOfLoop_ens fuel hA
  exact ⟨⟨h.1, fun he => .inl ⟨rfl, he⟩⟩, h.2⟩

/-- The undecided join has been entered in its parent and, unless there is none, in the grandparent `gp`. -/
structure Linked (t : ℕ) (m : Ptr) (d : Plain) (gp : Ptr) (v : Graph) (g : Ghost) : Prop where
  parent : Entered t m d d.parent v g
  route : v.HasType d.parent .route
  overSlot : gp = nullptr ∧ v.root = d.parent ∨
    Entered t m d gp v g ∧ gp ≠ d.parent ∧ ∃ side, v.get gp (.child side) = d.parent

theorem kept_linked : Kept t (Linked t m d gp) := by
  rintro v g v' g' hi hi' hs ⟨hp, hr, ho⟩
  have hp' := kept_entered _ _ _ _ hi hi' hs hp
  refine ⟨hp', hs.hasType hr, ?_⟩
  cases ho with
  | inl ho => exact .inl ⟨ho.1, hp'.look hi' hs hr (σ := .root) trivial ho.2⟩
  | inr ho =>
      obtain ⟨hg, hne, side, hside⟩ := ho
      have hg' := kept_entered _ _ _ _ hi hi' hs hg
      exact .inr ⟨hg', hne, side, hp'.look hi' hs hr (σ := .child gp side) ⟨hg.allocated, hg.linked hi⟩ hside⟩

/-- `q` is a node that has been read from a slot of the parent. -/
def Sibling (d : Plain) (q : Ptr) (v : Graph) : Prop :=
  v.Allocated q ∧ (v.HasType q .route → ∃ side, v.get d.parent (.child side) = q)

theorem kept_sibling : Kept t (fun v g => Linked t m d gp v g ∧ Sibling d q v) := by
  rintro v g v' g' hi hi' hs ⟨hl, ha, hq⟩
  refine ⟨kept_linked _ _ _ _ hi hi' hs hl, hs.allocated ha, fun hr' => ?_⟩
  have hr : v.HasType q .route := ⟨ha, (bare_type (hs.bare q ha)).symm.trans hr'.2⟩
  obtain ⟨side, hside⟩ := hq hr
  refine ⟨side, ?_⟩
  have hlive : Live v g (.child d.parent side) := ⟨hl.parent.allocated, hl.parent.linked hi⟩
  have hlook : v.look (.child d.parent side) = q := hside
  cases hs.link _ hlive (hlook ▸ hr) with
  | inl he => exact he.trans hside
  | inr he => exact absurd (he.2 _ _ rfl).2 hl.parent.not_final

theorem Mine.assign {k : PlainField} (h : Mine t m d v g) : Mine t m (d.assign k x) (v.assign m k x) g := by
  refine ⟨?_, ⟨h.taken.allocated, h.taken.owner, ?_⟩, h.undecided⟩
  · cases k <;> exact h.type
  · rw [Graph.plain_assign_self, h.taken.plain]

theorem parent_assign (k : PlainField) : (d.assign k x).parent = d.parent := by cases k <;> rfl

theorem Linked.assign {k : PlainField} (h : Linked t m d gp v g) : Linked t m (d.assign k x) gp (v.assign m k x) g := by
  obtain ⟨hp, hr, ho⟩ := h
  have hent : ∀ {q}, Entered t m d q v g → Entered t m (d.assign k x) q (v.assign m k x) g :=
    fun he => ⟨he.mine.assign, he.allocated, he.lock⟩
  refine ⟨?_, ?_, ?_⟩ <;> rw [parent_assign]
  · exact hent hp
  · rw [Graph.hasType_assign]
    exact hr
  · exact ho.imp_right fun ⟨hg, hne, hside⟩ => ⟨hent hg, hne, hside⟩

theorem Sibling.assign {k : PlainField} (h : Sibling d q v) : Sibling (d.assign k x) q (v.assign m k x) := by
  refine ⟨h.1, fun hr => ?_⟩
  rw [Graph.hasType_assign] at hr
  rw [parent_assign]
  exact h.2 hr

theorem Mine.change {k : PlainField} (h : Mine t m d v g) : Change t v g (v.assign m k x) g := .note h.undecided h.taken.owner

/-- What `secure_join` has noted in the main node before it decides is what a join needs. -/
theorem Linked.joined {n1 : Ptr} (h : Linked t m d gp v g) (hi : Inv v g) (hg : d.gparent = gp) (ho : Sibling d d.otherb v)
    (hn : v.BaseNode n1) (hn1 : d.neigh1 = n1) (hprep : v.get m .neigh2 = PREPARING) : Joined v g m := by
  obtain ⟨hp, hr, hover⟩ := h
  have hpl := hp.mine.taken.plain
  have hnr := hp.linked hi
  subst hpl hg hn1
  refine ⟨hr, ?_, ?_, ho.1, hn, fun hd => absurd (hprep.symm.trans hd) (by decide), fun hr => absurd hr hnr, fun _ => ?_,
    fun he => hn.1.ne_null (he.symm.trans hprep)⟩
  · intro σ hσ
    cases σ with
    | root => trivial
    | child q side =>
        cases hover with
        | inl hover => exact absurd (hσ.1.symm.trans hover.1) hσ.2
        | inr hover => exact hσ.1 ▸ hover.1.allocated
  · cases hover with
    | inl hover => exact hover.1 ▸ fun he => hp.allocated.ne_null he.symm
    | inr hover => exact hover.2.1
  · refine ⟨hp.lock, fun hne => ?_, ?_, ho.2⟩
    · cases hover with
      | inl hover => exact absurd hover.1 hne
      | inr hover => exact hover.1.lock
    · cases hover with
      | inl hover => exact ⟨.root, hover.1, trivial, hover.2⟩
      | inr hover =>
          obtain ⟨hent, _, side, hside⟩ := hover
          exact ⟨.child _ side, ⟨rfl, hent.allocated.ne_null⟩, ⟨hent.allocated, hent.linked hi⟩, hside⟩

/-! ### Decisions -/

/-- The join `m` has been decided, and is on. -/
def Decided (m : Ptr) (v : Graph) : Prop := v.HasType m .joinMain ∧ v.Final m

theorem kept_decided : Kept u (fun v _ => Decided m v) := fun _ _ _ _ _ _ hs h => ⟨hs.hasType h.1, hs.final h.1.1 h.2⟩

theorem abortJoin_ens : Ens t (Mine t m d) (abortJoin m) (fun r v _ => r ≠ nullptr → Decided r v) := by
  refine Ens.bind (B := fun _ _ _ => True) (.store kept_mine (.const _) (fun _ he => by cases he) fun v g _ h _ => ⟨?_, trivial⟩)
    fun _ => .pure (kept_decided.imp _) fun _ _ _ _ hne => absurd rfl hne
  exact .abort h.main h.undecided

theorem Mine.setJoin (h : Mine t m d v g) : Mine t m d (v.set q .joinId x) g :=
  ⟨h.type, ⟨h.taken.allocated, h.taken.owner, h.taken.plain⟩, Graph.undecided_setJoin.mpr h.undecided⟩

/-- The undecided join is no longer entered in `q`. -/
theorem Entered.release (h : Entered t m d q v g) : Change t v g (v.set q .joinId x) g := by
  refine .setJoin (fun m' _ hf hlock => ?_) fun m' _ _ hlock => ?_
  · rw [← hlock] at hf
    exact absurd hf h.not_final
  · rw [← hlock, h.lock]
    exact h.mine.taken.owner

/-- The end of an attempt that has been entered in its parent only. -/
theorem leaveParent_ens : Ens t (Entered t m d q)
    (do
      store q .joinId nullptr
      abortJoin m) (fun r v _ => r ≠ nullptr → Decided r v) := by
  refine Ens.bind (B := fun _ => Mine t m d) (.store kept_entered kept_mine (fun _ he => by cases he) fun v g _ h _ => ?_)
    fun _ => abortJoin_ens
  exact ⟨h.release, h.mine.setJoin⟩

theorem mergeData_ens (side : Side) (hA : Kept t A) : Ens t A (mergeData m n side) (fun _ => A) := by
  cases side with
  | left => exact .bind (dataOf_ens hA) fun _ => .bind (dataOf_ens hA) fun _ => .fromPool hA
  | right => exact .bind (dataOf_ens hA) fun _ => .bind (dataOf_ens hA) fun _ => .fromPool hA

/-- The new neighbor is a copy of the old one that names the main node. -/
def neighborOf (joinedp m : Ptr) (merged : Treap) (n : Node) : Node :=
  { n with type := .joinNeighbor, parent := joinedp, mainNode := m, data := some merged }

theorem kept_ready {n1 : Ptr} : Kept t (fun v g => (Linked t m d gp v g ∧ Sibling d q v) ∧ v.BaseNode n1) :=
  kept_sibling.and kept_baseNode

theorem Owned.neighbor {joinedp : Ptr} {merged : Treap} {c : Node}
    (h : Owned t r (neighborOf joinedp m merged c).toPlain v g) : v.HasType r .joinNeighbor ∧ (v.plain r).mainNode = m :=
  ⟨h.1.hasType, by rw [h.1.plain]; rfl⟩

/-- The end of an attempt that has been entered in parent and grandparent. -/
theorem leaveBoth_ens : Ens t (Linked t m d gp)
    (do
      if gp ≠ nullptr then store gp .joinId nullptr
      store d.parent .joinId nullptr
      abortJoin m) (fun r v _ => r ≠ nullptr → Decided r v) := by
  refine .ite (fun hne => ?_) fun _ => ?_
  · refine Ens.bind (B := fun _ => Entered t m d d.parent) (.store kept_linked kept_entered (fun _ he => by cases he)
      fun v g _ h _ => ?_) fun _ => leaveParent_ens
    cases h.overSlot with
    | inl ho => exact absurd ho.1 hne
    | inr ho =>
        refine ⟨ho.1.release, h.parent.mine.setJoin, h.parent.allocated, ?_⟩
        rw [Graph.get_set_ne _ (.inl ho.2.1.symm)]
        exact h.parent.lock
  · exact Ens.pre leaveParent_ens fun _ _ _ h => h.parent

theorem publishJoin_ens {n1 : Ptr} (side : Side) : Ens t (fun v g => Linked t m d gp v g ∧ v.BaseNode n1)
    (publishJoin m n1 side gp) (fun r v _ => r ≠ nullptr → Decided r v) := by
  unfold publishJoin
  have hk : ∀ d, Kept t (fun v g => Linked t m d gp v g ∧ v.BaseNode n1) := fun d => kept_linked.and kept_baseNode
  refine Ens.bind (B := fun a v g => (Linked t m d gp v g ∧ v.BaseNode n1) ∧ a = d) (.plain (hk d) (fun _ => (hk d).and (.const _))
    fun v g _ h _ => ⟨h, h.1.parent.mine.taken.plain⟩) fun a => Ens.fact ?_
  rintro rfl
  -- the grandparent, the other child of the parent and the neighbor are noted in the main node
  refine Ens.bind (B := fun _ v g => Linked t m (a.assign .gparent gp) gp v g ∧ v.BaseNode n1)
    (.assign (hk a) (hk _) fun v g _ h _ => ?_) fun _ => ?_
  · exact ⟨h.1.parent.mine.change, h.1.assign, Graph.baseNode_assign.mpr h.2⟩
  refine Ens.bind (B := fun ob v g => (Linked t m (a.assign .gparent gp) gp v g ∧ Sibling (a.assign .gparent gp) ob v) ∧ v.BaseNode n1)
    (.load (hk _) (fun _ => kept_ready) fun v g hi h _ => ?_) fun ob => ?_
  · obtain ⟨hl, hn⟩ := h
    have hroute := hl.route
    rw [parent_assign] at hroute
    exact ⟨⟨hl, hi.inner _ _ hroute, fun _ => ⟨_, by rw [parent_assign]⟩⟩, hn⟩
  refine Ens.bind (B := fun _ v g => (Linked t m ((a.assign .gparent gp).assign .otherb ob) gp v g ∧
    Sibling ((a.assign .gparent gp).assign .otherb ob) ob v) ∧ v.BaseNode n1)
    (.assign kept_ready kept_ready fun v g _ h _ => ?_) fun _ => ?_
  · exact ⟨h.1.1.parent.mine.change, ⟨h.1.1.assign, h.1.2.assign⟩, Graph.baseNode_assign.mpr h.2⟩
  generalize hd : ((a.assign .gparent gp).assign .otherb ob).assign .neigh1 n1 = d
  refine Ens.bind (B := fun _ v g => (Linked t m d gp v g ∧ Sibling d ob v) ∧ v.BaseNode n1)
    (.assign kept_ready kept_ready fun v g _ h _ => ?_) fun _ => ?_
  · rw [← hd]
    exact ⟨h.1.1.parent.mine.change, ⟨h.1.1.assign, h.1.2.assign⟩, Graph.baseNode_assign.mpr h.2⟩
  refine Ens.bind (B := fun _ v g => (Linked t m d gp v g ∧ Sibling d ob v) ∧ v.BaseNode n1)
    (.ite (fun _ => .ret kept_ready) fun _ => .bind (.plain kept_ready (fun _ => kept_ready) fun _ _ _ h _ => h) fun _ =>
      .ret kept_ready) fun joinedp => ?_
  refine Ens.bind (copyOf_ens (C := fun c => ∀ side, c.get (.child side) = nullptr) kept_ready (fun _ _ _ h => h.2)
    fun _ _ _ _ _ _ hleaf _ => hleaf) fun c => Ens.fact fun hleaf => .pre (A := fun v g =>
      (Linked t m d gp v g ∧ Sibling d ob v) ∧ v.BaseNode n1) ?_ fun _ _ _ h => h.1
  refine .bind (mergeData_ens side kept_ready) fun merged => ?_
  -- the address of the new neighbor is that of no node so far
  refine Ens.bind (new_ens (d := neighborOf joinedp m merged c) (C := fun r => r ≠ n1) kept_ready (fun _ _ _ _ =>
    .neighbor rfl hleaf) fun _ _ _ h => (ne_of_lt h.2.1.2).symm) fun n2 => Ens.fact fun hne => ?_
  have hdecided : ∀ ok : Bool, Kept t (fun v g => if ok = true then Decided m v else Linked t m d gp v g) := fun ok => by
    cases ok
    · exact kept_linked
    · exact kept_decided
  refine Ens.bind (B := fun ok v g => if ok = true then Decided m v else Linked t m d gp v g)
    (.cas (kept_ready.and kept_owned) hdecided (fun _ he => by cases he)
      (fun v g hi h _ hprep => ?_) fun v g _ h _ _ => h.1.1.1) fun ok => ?_
  · -- the decision
    obtain ⟨⟨⟨hl, ho⟩, hn⟩, hown⟩ := h
    obtain ⟨hn2, hmain⟩ := hown.neighbor
    have hm := hl.parent.mine
    refine ⟨g, .commit hm.main hn2 hmain ?_ hprep hm.taken.owner ?_ ?_, hm.main, .inl (Graph.merged_set hn2 hmain)⟩
    · rw [hm.taken.plain, ← hd]
      exact hne
    · subst hd
      exact hl.joined hi rfl ho hn rfl hprep
    · rw [hm.taken.plain]
      exact hl.parent.linked hi
  · cases ok with
    | true => exact .pure (kept_decided.imp _) fun v g _ h _ => h
    | false =>
        subst hd
        exact leaveBoth_ens

theorem unneeded_null (h : v.get q .joinId = nullptr) : Unneeded v g q := fun _ hm _ hlock =>
  absurd (hlock.symm.trans h) hm.1.ne_null

/-- A route node that no join has entered has not been unlinked. -/
theorem Inv.linked_of_null (h : Inv v g) (hq : v.get q .joinId = nullptr) : ¬ g.retired q := by
  intro hr
  obtain ⟨_, m, hm, _, _, hlock⟩ := h.retired q hr
  exact hm.1.ne_null (hlock.symm.trans hq)

/-- The entry of the join in a route node that no join has entered. -/
theorem enter_ens {B : Bool → Graph → Ghost → Prop} (hA : Kept t A) (hB : ∀ ok, Kept t (B ok))
    (h : ∀ v g, Inv v g → A v g → v.Allocated q → v.get q .joinId = nullptr → B true (v.set q .joinId m) g)
    (hfail : ∀ v g, Inv v g → A v g → B false v g) : Ens t A (cas q .joinId nullptr m) B := by
  refine .cas hA hB (fun _ he => by cases he) (fun v g hi ha hq hnull => ?_) fun v g hi ha _ _ => hfail v g hi ha
  refine ⟨g, .setJoin (unneeded_null hnull) (fun m' hm' _ hlock => ?_), h v g hi ha hq hnull⟩
  exact absurd (hlock.symm.trans hnull) hm'.1.ne_null

theorem enterJoin_ens {n1 : Ptr} (fuel : ℕ) (side : Side) :
    Ens t (fun v g => Mine t m d v g ∧ v.HasType d.parent .route ∧ v.BaseNode n1) (enterJoin fuel m n1 side)
      (fun r v _ => r ≠ nullptr → Decided r v) := by
  unfold enterJoin
  have hk : Kept t (fun v g => Mine t m d v g ∧ v.HasType d.parent .route ∧ v.BaseNode n1) :=
    kept_mine.and (kept_hasType.and kept_baseNode)
  refine Ens.bind (B := fun a v g => (Mine t m d v g ∧ v.HasType d.parent .route ∧ v.BaseNode n1) ∧ a = d)
    (.plain hk (fun _ => hk.and (.const _)) fun v g _ h _ => ⟨h, h.1.taken.plain⟩) fun a => Ens.fact ?_
  rintro rfl
  have hentered : ∀ ok : Bool, Kept t (fun v g => if ok = true then
      (Entered t m a a.parent v g ∧ v.HasType a.parent .route) ∧ v.BaseNode n1 else Mine t m a v g) := fun ok => by
    cases ok
    · exact kept_mine
    · exact (kept_entered.and kept_hasType).and kept_baseNode
  refine .bind (enter_ens hk hentered (fun v g _ h hq _ => ?_) fun v g _ h => h.1) fun ok => ?_
  · exact ⟨⟨⟨h.1.setJoin, hq, Graph.get_set_self _ _ _⟩, h.2.1⟩, h.2.2⟩
  cases ok with
  | false => exact abortJoin_ens
  | true =>
      refine .bind (parentOf_ens fuel kept_baseNode) fun gp => ?_
      have hs : ∀ {found : Prop}, Kept t (fun v g => Seeks t m a a.parent found gp v g ∧ v.BaseNode n1) :=
        kept_seeks.and kept_baseNode
      refine .ite (fun _ => ?_) fun hfound => .ite (fun hne => ?_) fun hnull => ?_
      · exact .pre leaveParent_ens fun _ _ _ h => h.1.1.1
      · have hboth : ∀ ok : Bool, Kept t (fun v g => if ok = true then Linked t m a gp v g ∧ v.BaseNode n1
            else Entered t m a a.parent v g) := fun ok => by
          cases ok
          · exact kept_entered
          · exact kept_linked.and kept_baseNode
        refine .bind (enter_ens hs hboth (fun v g hi h hq hnull => ?_) fun v g _ h => h.1.1.1) fun ok => ?_
        · obtain ⟨⟨⟨hp, hr⟩, ha⟩, hn⟩ := h
          have hdis : gp ≠ a.parent := by
            rintro rfl
            exact hp.mine.taken.allocated.ne_null (hp.lock.symm.trans hnull)
          refine ⟨⟨⟨hp.mine.setJoin, hp.allocated, ?_⟩, hr, .inr ⟨⟨hp.mine.setJoin, hq, Graph.get_set_self _ _ _⟩, hdis, ?_⟩⟩, hn⟩
          · rw [Graph.get_set_ne _ (.inl hdis.symm)]
            exact hp.lock
          · cases ha hfound with
            | inl ha => exact absurd ha.1 hne
            | inr ha =>
                obtain ⟨side, hside⟩ := ha.2 (hi.linked_of_null hnull)
                exact ⟨side, (Graph.child_set (by simp)).trans hside⟩
        · cases ok with
          | true => exact publishJoin_ens side
          | false => exact leaveParent_ens
      · rw [not_not] at hnull
        subst hnull
        refine .pre (publishJoin_ens side) fun v g _ h => ⟨⟨h.1.1.1, h.1.1.2, .inl ⟨rfl, ?_⟩⟩, h.2⟩
        cases h.1.2 hfound with
        | inl ha => exact ha.2
        | inr ha => exact absurd rfl ha.1.ne_null

/-- `secure_join` of a base node that an update has made. -/
theorem secureJoin_ens (fuel : ℕ) (side : Side) : Ens t (fun v _ => v.HasType b .normal) (secureJoin fuel b side)
    (fun r v _ => r ≠ nullptr → Decided r v) := by
  unfold secureJoin
  have hno : ∀ {A : Graph → Ghost → Prop}, Ens t A (pure nullptr) (fun r v _ => r ≠ nullptr → Decided r v) :=
    .pure (kept_decided.imp _) fun _ _ _ _ hne => absurd rfl hne
  have hb : ∀ a, Kept t (fun v _ => v.HasType b .normal ∧ Reads b a v) := fun a => kept_hasType.and kept_reads
  refine Ens.bind (B := fun a v _ => v.HasType b .normal ∧ Reads b a v) (.plain kept_hasType hb fun v g _ h hn => ⟨h, hn, rfl⟩)
    fun a => ?_
  refine .bind (load_ens (hb a)) fun next => .bind (outermost_ens side fuel (hb a)) fun n0 => ?_
  refine .bind (isReplaceable_ens (hb a)) fun ok => .ite (fun _ => hno) fun hok => ?_
  have hok : ok = true := by
    cases ok
    · exact absurd (by simp) hok
    · rfl
  subst hok
  have hn0 : Kept t (fun v _ => (v.HasType b .normal ∧ Reads b a v) ∧ v.BaseNode n0) := (hb a).and kept_baseNode
  refine .bind (.pre (dataOf_ens hn0) fun v g _ h => ⟨h.1, (h.2 rfl).1⟩) fun db => .bind (dataOf_ens hn0) fun dn => ?_
  refine .ite (fun _ => hno) fun _ => ?_
  -- the main node
  refine .bind (newCopy_ens (f := fun n => { n with type := .joinMain }) hn0 (fun v g _ h => h.1.1.base (by simp))
    fun v g c hi h _ hleaf hneigh => .mainNode rfl hleaf (.inl (hneigh.trans (hi.normal b h.1.1)))) fun m => ?_
  refine Ens.ofExists fun c => ?_
  generalize hd : ({ c with type := .joinMain } : Node).toPlain = d
  have hm : Kept t (fun v g => ((v.HasType b .normal ∧ Reads b a v) ∧ v.BaseNode n0) ∧ Reads b c.toPlain v ∧ Owned t m d v g) :=
    hn0.and (kept_reads.and kept_owned)
  have hinstalled : ∀ ok : Bool, Kept t (fun v g => ok = true → (Mine t m d v g ∧ v.HasType d.parent .route) ∧ v.BaseNode n0) :=
    fun ok => ((kept_mine.and kept_hasType).and kept_baseNode).imp _
  refine .bind (.cas hm hinstalled (fun _ he => by cases he) (fun v g hi h hq hslot => ?_) fun v g _ _ _ _ => nofun) fun ok => ?_
  · obtain ⟨⟨⟨hnormal, hra⟩, hn⟩, hrc, htaken, hun⟩ := h
    have htype : d.type = .joinMain := hd ▸ rfl
    have hpar : d.parent = a.parent := by
      rw [← hd]
      exact (bare_parent hrc.2).symm.trans (bare_parent hra.2)
    have hbase : v.BaseNode m := (htype ▸ htaken.hasType : v.HasType m .joinMain).base (by simp)
    have hold : v.BaseNode (v.look (.child a.parent side)) := by
      have hlook : v.look (.child a.parent side) = b := hslot
      rw [hlook]
      exact hnormal.base (by simp)
    have hmroute : ¬ v.HasType m .route := fun hr => hbase.2 hr.2
    have hput := hi.placeable hbase
    have hs : Spares t v g (v.put m (.child a.parent side)) g := .put hold fun h => absurd h hmroute
    refine ⟨g, .put hold hput fun h => absurd h hmroute, fun _ => ⟨⟨?_, ?_⟩, hs.baseNode hn⟩⟩
    · exact kept_mine _ _ _ _ hi (hi.put hold hput) hs ⟨htype, htaken, hun htype⟩
    · rw [hpar]
      exact hs.hasType (hi.route_of_child hq (hslot ▸ hnormal.1))
  cases ok with
  | false => exact hno
  | true =>
      have hk : Kept t (fun v g => (Mine t m d v g ∧ v.HasType d.parent .route) ∧ v.BaseNode n0) :=
        (kept_mine.and kept_hasType).and kept_baseNode
      refine .pre (A := fun v g => (Mine t m d v g ∧ v.HasType d.parent .route) ∧ v.BaseNode n0) ?_ fun v g _ h => h rfl
      refine .bind (newCopy_ens hk (fun v g _ h => h.2) fun _ _ c' _ _ _ hleaf _ => .neighbor rfl hleaf) fun n1 => ?_
      refine .bind (B := fun _ v g => ((Mine t m d v g ∧ v.HasType d.parent .route) ∧ v.BaseNode n0) ∧ v.BaseNode n1) (.pre
        (tryReplace_base (hk.and kept_baseNode) (fun _ he => by cases he) fun v g _ h => ⟨h.1.2, h.2⟩) fun v g _ ⟨h, c', _, hown⟩ =>
          ⟨h, hown.1.hasType.base (by simp)⟩) fun ok => ?_
      refine .ite (fun _ => .pre abortJoin_ens fun v g _ h => h.1.1.1) fun _ => ?_
      exact .pre (enterJoin_ens fuel side) fun v g _ h => ⟨h.1.1.1, h.1.1.2, h.2⟩

/-! ### The end of a join -/

/-- The join `m` is on, and its main node has the fields `d`. -/
structure Underway (m : Ptr) (d : Plain) (v : Graph) : Prop where
  main : v.HasType m .joinMain
  final : v.Final m
  plain : v.plain m = d

theorem kept_underway : Kept u (fun v _ => Underway m d v) := fun _ _ _ _ _ _ hs h =>
  ⟨hs.hasType h.main, hs.final h.main.1 h.final, (hs.notes m h.main.1 (.inr h.final)).trans h.plain⟩

theorem Underway.joined (h : Underway m d v) (hi : Inv v g) : Joined v g m := hi.joined m h.main h.final

/-- Unless it has been unlinked, the parent of the join is the child of the grandparent on a side. -/
def Located (d : Plain) (side : Side) (v : Graph) (g : Ghost) : Prop :=
  ¬ g.retired d.parent → v.get d.gparent (.child side) = d.parent

theorem kept_located {side : Side} (hne : d.gparent ≠ nullptr) : Kept u (fun v g => Underway m d v ∧ Located d side v g) := by
  rintro v g v' g' hi hi' hs ⟨h, hl⟩
  refine ⟨kept_underway _ _ _ _ hi hi' hs h, fun hnr' => ?_⟩
  have hnr : ¬ g.retired d.parent := fun hr => hnr' (hs.retired _ hr)
  have hlook : v.look (.child d.gparent side) = d.parent := hl hnr
  have hj := h.joined hi
  have hpl := h.plain
  subst hpl
  obtain ⟨τ, hτ, hlive, _⟩ := (hj.secured hnr).slot
  have hσ : Live v g (.child (v.plain m).gparent side) := Graph.Over.live ⟨rfl, hne⟩ hτ hlive
  cases hs.link _ hσ (hlook ▸ hj.parent) with
  | inl he => exact he.trans hlook
  | inr he => exact absurd (hlook ▸ he.1) hnr'

theorem Underway.located (h : Underway m d v) (hi : Inv v g) (hne : d.gparent ≠ nullptr) (hr : ¬ g.retired d.parent) :
    ∃ side, v.get d.gparent (.child side) = d.parent := by
  rw [← h.plain] at hne hr ⊢
  obtain ⟨σ, hσ, _, hlook⟩ := ((h.joined hi).secured hr).slot
  cases σ with
  | root => exact absurd hσ hne
  | child q side =>
      obtain ⟨rfl, _⟩ := hσ
      exact ⟨side, hlook⟩

/-- What `complete_join` puts in the place of the parent. -/
def replacementOf (d : Plain) (n2 : Ptr) : Ptr := if d.otherb = d.neigh1 then n2 else d.otherb

theorem Underway.replacement {n2 : Ptr} (h : Underway m d v) (hi : Inv v g) (hn : v.BaseNode n2) :
    Replacement v m (replacementOf d n2) := by
  have ho := (h.joined hi).otherb
  rw [← h.plain]
  unfold replacementOf
  split_ifs
  · exact ⟨hn.1, fun hr => absurd hr.2 hn.2⟩
  · exact ⟨ho, fun _ => rfl⟩

/-- The slot of the parent, if it still points there. -/
theorem Underway.unlinking (h : Underway m d v) (hσ : v.Over m σ) (hlook : v.look σ = d.parent) : Unlinking v g m σ :=
  ⟨h.main, h.final, hσ, hlook.trans (by rw [h.plain])⟩

/-- The parent of the join has been unlinked. -/
def Ended (m : Ptr) (d : Plain) (v : Graph) (g : Ghost) : Prop := Underway m d v ∧ g.retired d.parent

theorem kept_ended : Kept u (Ended m d) := fun _ _ _ _ hi hi' hs h =>
  ⟨kept_underway _ _ _ _ hi hi' hs h.1, hs.retired _ h.2⟩

theorem Underway.unlink {n2 : Ptr} (h : Underway m d v) (hi : Inv v g) (hn : v.BaseNode n2) (hσ : v.Over m σ)
    (hlook : v.look σ = d.parent) : ∃ g', Change t v g (v.put (replacementOf d n2) σ) g' ∧
      Ended m d (v.put (replacementOf d n2) σ) g' := by
  have hu : Unlinking v g m σ := h.unlinking hσ hlook
  have hp := h.replacement hi hn
  refine ⟨_, .unlink hu hp, kept_underway _ _ _ _ hi (hi.unlink hu hp) (.unlink (u := t) hi hu hp) h, .inr ?_⟩
  rw [h.plain]

/-- The compare-exchange that unlinks the parent from the grandparent. -/
theorem unlink_ens {n2 : Ptr} {side : Side} (hne : d.gparent ≠ nullptr) :
    Ens t (fun v g => (Underway m d v ∧ Located d side v g) ∧ v.BaseNode n2)
      (performBy m (.cas d.gparent (.child side) d.parent (replacementOf d n2))) (fun _ => Ended m d) := by
  refine .cas ((kept_located hne).and kept_baseNode) (fun _ => kept_ended) (fun m' he v g _ h => ?_) (fun v g hi h _ hslot => ?_)
    fun v g hi h _ hslot => ⟨h.1.1, ?_⟩
  · cases he
    exact ⟨h.1.1.main, h.1.1.final⟩
  · refine h.1.1.unlink (σ := .child d.gparent side) hi h.2 ?_ hslot
    unfold Graph.Over
    rw [h.1.1.plain]
    exact ⟨rfl, hne⟩
  · by_contra hr
    exact hslot (h.1.2 hr)

/-- The release of the grandparent. -/
theorem unlock_ens : Ens t (Ended m d) (performBy m (.cas d.gparent .joinId m nullptr)) (fun _ => Ended m d) := by
  refine .cas kept_ended (fun _ => kept_ended) (fun m' he v g _ h => ?_) (fun v g hi h _ hlock => ?_) fun _ _ _ h _ _ => h
  · cases he
    exact ⟨h.1.main, h.1.final⟩
  · have hj := h.1.joined hi
    have hpl := h.1.plain
    refine ⟨g, .setJoin (fun m' _ _ hm' => ?_) (fun m' _ hu hm' => ?_), ⟨h.1.main, Graph.final_setJoin.mpr h.1.final, hpl⟩, h.2⟩
    · obtain rfl : m = m' := hlock.symm.trans hm'
      have hdis := hj.distinct
      rw [hpl] at hdis ⊢
      exact ⟨h.2, hdis.symm⟩
    · obtain rfl : m = m' := hlock.symm.trans hm'
      exact absurd h.1.final hu.not_final

/-- `complete_join`, run by the owner or a helper. -/
theorem completeJoin_ens : Ens t (fun v _ => Decided m v) (completeJoin m) (fun _ _ _ => True) := by
  unfold completeJoin
  have hn2 : ∀ n2, Kept t (fun v _ => Decided m v ∧ (n2 ≠ DONE → v.BaseNode n2)) :=
    fun n2 => kept_decided.and (kept_baseNode.imp _)
  refine .bind (.load kept_decided hn2 fun v g _ h _ => ⟨h, fun hne => ?_⟩) fun n2 => .ite (fun _ => .pure (.const _) fun _ _ _ _ => trivial) fun hne => ?_
  · cases h.2 with
    | inl hm => exact hm.1.base (by simp)
    | inr hd => exact absurd hd hne
  have hk : ∀ d, Kept t (fun v _ => Underway m d v ∧ v.BaseNode n2) := fun d => kept_underway.and kept_baseNode
  refine Ens.bind (B := fun d v _ => Underway m d v ∧ v.BaseNode n2) (.plain (hn2 n2) hk fun v g _ h _ =>
    ⟨⟨h.1.1, h.1.2, rfl⟩, h.2 hne⟩) fun d => ?_
  have hby : ∀ m', some m = some m' → ∀ v g, Inv v g → Underway m d v ∧ v.BaseNode n2 → v.HasType m' .joinMain ∧ v.Final m' := by
    intro m' he v g _ h
    cases he
    exact ⟨h.1.main, h.1.final⟩
  refine .bind (tryReplace_base (hk d) hby fun v g hi h => ⟨?_, h.2⟩) fun _ => .bind (.storeValid (hk d) hby) fun _ => ?_
  · rw [← h.1.plain]
    exact (h.1.joined hi).neigh1
  -- the end of the join, whichever step has unlinked the parent
  have hfinish : Ens t (Ended m d) (performBy m (.store m .neigh2 DONE)) (fun _ _ _ => True) := by
    refine .store kept_ended (.const _) (fun m' he v g _ h => ?_) fun v g _ h _ => ⟨.finish h.1.main h.1.final ?_, trivial⟩
    · cases he
      exact ⟨h.1.main, h.1.final⟩
    · rw [h.1.plain]
      exact h.2
  refine .ite (fun hnull => ?_) fun hg => ?_
  · refine .bind (B := fun _ => Ended m d) (.casRoot (hk d) (fun _ => kept_ended) hby (fun v g hi h hroot => ?_)
      fun v g hi h hroot => ⟨h.1, ?_⟩) fun _ => hfinish
    · refine h.1.unlink (σ := .root) hi h.2 ?_ hroot
      rw [Graph.Over, h.1.plain]
      exact hnull
    · by_contra hr
      rw [← h.1.plain] at hnull hr hroot
      obtain ⟨σ, hσ, _, hlook⟩ := ((h.1.joined hi).secured hr).slot
      cases σ with
      | root => exact hroot hlook
      | child q side => exact hσ.2 (hσ.1.symm.trans hnull)
  · have hloc : ∀ side, Kept t (fun v g => (Underway m d v ∧ Located d side v g) ∧ v.BaseNode n2) :=
      fun side => (kept_located hg).and kept_baseNode
    have hcut : ∀ side, Ens t (fun v g => (Underway m d v ∧ Located d side v g) ∧ v.BaseNode n2)
        (do
          let _ ← performBy m (.cas d.gparent (.child side) d.parent (replacementOf d n2))
          let _ ← performBy m (.cas d.gparent .joinId m nullptr)
          performBy m (.store m .neigh2 DONE)) (fun _ _ _ => True) :=
      fun side => .bind (unlink_ens hg) fun _ => .bind unlock_ens fun _ => hfinish
    refine .bind (B := fun x v g => (x = d.parent → (Underway m d v ∧ Located d .left v g) ∧ v.BaseNode n2) ∧
      (x ≠ d.parent → (Underway m d v ∧ Located d .right v g) ∧ v.BaseNode n2)) (.load (hk d)
      (fun x => ((hloc .left).imp _).and ((hloc .right).imp _)) fun v g hi h _ => ⟨fun he => ?_, fun hl => ?_⟩) fun x => ?_
    · exact ⟨⟨h.1, fun _ => he⟩, h.2⟩
    · refine ⟨⟨h.1, fun hr => ?_⟩, h.2⟩
      obtain ⟨side, hside⟩ := h.1.located hi hg hr
      cases side with
      | left => exact absurd hside hl
      | right => exact hside
    refine .ite (fun he => .pre (hcut .left) fun v g _ h => h.1 he) fun hl => ?_
    refine .bind (B := fun x v g => (x = d.parent → (Underway m d v ∧ Located d .right v g) ∧ v.BaseNode n2) ∧
      (x ≠ d.parent → Ended m d v g)) (.load (((hloc .left).imp _).and ((hloc .right).imp _))
      (fun x => ((hloc .right).imp _).and (kept_ended.imp _)) fun v g hi h _ => ⟨fun _ => h.2 hl, fun hr => ?_⟩) fun x => ?_
    · refine ⟨(h.2 hl).1.1, ?_⟩
      by_contra hnr
      exact hr ((h.2 hl).1.2 hnr)
    · exact .ite (fun he => .pre (hcut .right) fun v g _ h => h.1 he) fun hr => .pre hfinish fun v g _ h => h.2 hr

/-- `low_contention_adaptation` of a base node that an update has made. -/
theorem lowContentionAdaptation_ens (fuel : ℕ) : Ens t (fun v _ => v.HasType b .normal) (lowContentionAdaptation fuel b)
    (fun _ _ _ => True) := by
  have hdone : ∀ {A : Graph → Ghost → Prop}, Ens t A (pure ()) (fun _ _ _ => True) := .pure (.const _) fun _ _ _ _ => trivial
  have hjoin : ∀ side, Ens t (fun v _ => v.HasType b .normal)
      (do
        let m ← secureJoin fuel b side
        if m ≠ nullptr then completeJoin m else return ()) (fun _ _ _ => True) := fun side =>
    .bind (secureJoin_ens fuel side) fun m => .ite (fun hne => .pre completeJoin_ens fun v g _ h => h hne) fun _ => hdone
  have hb : Kept t (fun v _ => v.HasType b .normal) := kept_hasType
  refine Ens.bind (B := fun _ v _ => v.HasType b .normal) (.plain hb (fun _ => hb) fun _ _ _ h _ => h) fun a => ?_
  refine .ite (fun _ => hdone) fun _ => .bind (load_ens hb) fun left => .ite (fun _ => hjoin .left) fun _ => ?_
  exact .bind (load_ens hb) fun right => .ite (fun _ => hjoin .right) fun _ => hdone

end Lfca

end LockFreeSearchTree
