import LockFreeSearchTree.LfcaJoins
import LockFreeSearchTree.LfcaRuns

/-! # Decisions and locks of joins

The functions that are left (helps, range queries, updates) keep the protocol, and so do all tasks
(`protocol_keeps`).  From this, for any number of threads and any order of their steps:

* what becomes of `neigh2` of a main node, and that `complete_join` writes only after the merged node
  has been set (`join_decision_final`);
* that a join is entered in its parent and grandparent from its decision until the parent has been
  unlinked, so that two such joins share none of these route nodes (`joinId_locks`). -/

namespace LockFreeSearchTree

open BinTree Concurrent

namespace Lfca

variable {v v' : Graph} {g g' : Ghost} {u t : ℕ} {m n p q r b : Ptr} {σ τ : Slot} {A : Graph → Ghost → Prop}

/-! ### Helps and range queries -/

theorem Ens.trivial_ret {α : Type} {a : α} : Ens t A (Pure.pure a : LfcaM α) (fun _ _ _ => True) :=
  .pure (.const _) fun _ _ _ _ => trivial

theorem Ens.forget {α : Type} {P : LfcaM α} {B : α → Graph → Ghost → Prop} (h : Ens t A P B) : Ens t A P (fun _ _ _ => True) :=
  h.post fun _ _ _ _ => trivial

theorem collectValues_ens (lo hi : ℤ) (done : List Ptr) (hA : Kept t A) : Ens t A (collectValues lo hi done) (fun _ => A) := by
  induction done with
  | nil => exact .ret hA
  | cons b done ih =>
      refine .bind (dataOf_ens hA) fun data => ?_
      refine Ens.bind (B := fun _ => A) (.ofExcept (fun _ => hA) fun _ _ _ _ ha => ha) fun values => ?_
      exact .bind ih fun rest => .ret hA

theorem publishResult_ens (lo hi : ℤ) (myS : Ptr) (done : List Ptr) (hA : Kept t A) :
    Ens t A (publishResult lo hi myS done) (fun _ => A) := by
  refine .bind (collectValues_ens lo hi done hA) fun res => .bind (.casResult hA) fun ok => .ite (fun _ => ?_) fun _ => ?_
  · exact .ite (fun _ => .bind (.storeMore hA) fun _ => derefResult_ens hA) fun _ => derefResult_ens hA
  · exact derefResult_ens hA

/-- A base node that can be replaced, marked for a range query. -/
theorem newRangeBase_ens (lo hi : ℤ) (s : Ptr) : Ens t (fun v _ => v.BaseNode b ∧ Stale b v) (newRangeBase b lo hi s)
    (fun r v _ => v.BaseNode b ∧ v.BaseNode r) := by
  refine .post (newCopy_ens kept_stale (fun _ _ _ h => h.1) fun v g c hi' h hbare hleaf hneigh => ?_) fun r v g h => ?_
  · have htype : c.type = (v.plain b).type := bare_type hbare
    refine ⟨?_, fun side => ?_, fun ht => ?_, fun ht => .inr ?_⟩
    · show c.type ≠ .route
      rw [htype]
      exact h.1.2
    · rw [← hleaf side]
      cases side <;> rfl
    · exact hneigh.trans (hi'.normal b ⟨h.1.1, htype.symm.trans ht⟩)
    · exact hneigh.trans (h.2 ⟨h.1.1, htype.symm.trans ht⟩)
  · obtain ⟨h, c, hread, hown⟩ := h
    refine ⟨h.1, hown.1.hasType.base ?_⟩
    have htype : c.type = (v.plain b).type := (bare_type hread.2).symm
    show c.type ≠ .route
    rw [htype]
    exact h.1.2

/-- No assertion. -/
def Any (_ : Graph) (_ : Ghost) : Prop := True

theorem kept_any : Kept u Any := .const _

/-- The marking of a base node that can be replaced. -/
theorem markRange_ens {α : Type} {lo hi : ℤ} {s : Ptr} {f : Ptr → Bool → LfcaM α}
    (hf : ∀ n ok, Ens t Any (f n ok) (fun _ => Any)) : Ens t (fun v _ => v.BaseNode b ∧ Stale b v)
      (do
        let n ← newRangeBase b lo hi s
        f n (← tryReplace none b n)) (fun _ => Any) := by
  refine .bind (newRangeBase_ens lo hi s) fun n => .bind (.forget (tryReplace_base (kept_baseNode.and kept_baseNode)
    (fun _ he => by cases he) fun _ _ _ h => h)) fun ok => hf n ok

/-- The help for a join: it is aborted, or it is brought to its end. -/
theorem helpJoin_ens : Ens t (fun v _ => v.HasType m .joinMain)
    (do
      if (← load m .neigh2) = PREPARING then do
        let _ ← cas m .neigh2 PREPARING ABORTED
      else if (← load m .neigh2) > ABORTED then completeJoin m
      else return ()) (fun _ => Any) := by
  have hm : Kept t (fun v _ => v.HasType m .joinMain) := kept_hasType
  refine .bind (load_ens hm) fun x => .ite (fun _ => ?_) fun _ => ?_
  · refine .bind (B := fun _ => Any) (.cas hm (fun _ => kept_any) (fun _ he => by cases he) (fun v g _ h _ hprep => ?_)
      fun _ _ _ _ _ _ => trivial) fun _ => .ret kept_any
    exact ⟨g, .abort h (.inl hprep), trivial⟩
  · refine .bind (B := fun x v _ => x > ABORTED → Decided m v) (.load hm (fun _ => kept_decided.imp _) fun v g hi h _ hgt => ?_)
      fun x => .ite (fun hgt => .pre completeJoin_ens fun _ _ _ h => h hgt) fun _ => .trivial_ret
    refine ⟨h, (hi.phase m h).resolve_left ?_⟩
    rintro (he | he) <;> rw [he] at hgt <;> exact absurd hgt (by decide)

theorem help_ens (fuel : ℕ) : (∀ n, Ens t Any (helpIfNeeded fuel n) (fun _ => Any)) ∧
    (∀ lo hi s, Ens t Any (allInRange fuel lo hi s) (fun _ => Any)) ∧
    (∀ lo hi myS b s done, Ens t Any (findRemaining fuel lo hi myS b s done) (fun _ => Any)) ∧
    ∀ lo hi myS backupS s done, Ens t Any (findNextBaseNode fuel lo hi myS backupS s done) (fun _ => Any) := by
  induction fuel with
  | zero =>
      refine ⟨fun n => ?_, fun lo hi s => ?_, fun lo hi myS b s done => ?_, fun lo hi myS backupS s done => ?_⟩
      · rw [helpIfNeeded]
        exact .raise
      · rw [allInRange]
        exact .raise
      · rw [findRemaining]
        exact .raise
      · rw [findNextBaseNode]
        exact .raise
  | succ fuel ih =>
      obtain ⟨hhelp, hall, hremaining, hnext⟩ := ih
      have hplain : ∀ {n}, Ens t Any (plain n) (fun _ => Any) := .plain kept_any (fun _ => kept_any) fun _ _ _ h _ => h
      have hreplaceable : ∀ {n}, Ens t Any (isReplaceable n) (fun ok v _ => ok = true → v.BaseNode n ∧ Stale n v) :=
        .post (isReplaceable_ens kept_any) fun _ _ _ h => h.2
      refine ⟨fun n => ?_, fun lo hi s => ?_, fun lo hi myS b s done => ?_, fun lo hi myS backupS s done => ?_⟩
      · rw [helpIfNeeded]
        refine .bind hplain fun p => ?_
        generalize (if p.type = .joinNeighbor then p.mainNode else n) = m
        refine Ens.bind (B := fun a v _ => Reads m a v) (.plain kept_any (fun _ => kept_reads) fun v g _ _ hm => ⟨hm, rfl⟩) fun a => ?_
        split
        · rename_i ht
          exact .pre helpJoin_ens fun v g _ h => ht ▸ h.hasType
        · refine .bind (.loadResult kept_reads) fun values => .ite (fun _ => ?_) fun _ => .trivial_ret
          exact .bind (.pre (hall _ _ _) fun _ _ _ _ => trivial) fun _ => .ret kept_any
        · exact .trivial_ret
      · rw [allInRange]
        refine .bind (.loadRoot kept_any (fun _ => kept_any) fun _ _ _ h => h) fun root => ?_
        refine .bind (findBaseStackLoop_ens fuel lo [] kept_any) fun found => ?_
        obtain ⟨b, st⟩ := found
        refine .bind hplain fun p => ?_
        refine .ite (fun _ => .ite (fun _ => derefResult_ens kept_any) fun _ => hremaining _ _ _ _ _ _) fun _ => ?_
        refine .bind hreplaceable fun ok => .ite (fun hok => ?_) fun _ => ?_
        · refine .pre (A := fun v _ => v.BaseNode b ∧ Stale b v) ?_ fun v g _ h => h hok
          refine .bind (.newRs kept_stale) fun myS => markRange_ens fun n ok => ?_
          exact .ite (fun _ => hall _ _ _) fun _ => hremaining _ _ _ _ _ _
        · refine .pre (A := Any) ?_ fun _ _ _ _ => trivial
          exact .ite (fun _ => hall _ _ _) fun _ => .bind (hhelp b) fun _ => hall _ _ _
      · rw [findRemaining]
        refine .bind (dataOf_ens kept_any) fun data => .ite (fun _ => ?_) fun _ => hnext _ _ _ _ _ _
        refine Ens.bind (B := fun _ => Any) (.ofExcept (fun _ => kept_any) fun _ _ _ _ h => h) fun top => ?_
        exact .ite (fun _ => publishResult_ens _ _ _ _ kept_any) fun _ => hnext _ _ _ _ _ _
      · rw [findNextBaseNode]
        refine .bind (findNextBaseStack_ens fuel s kept_any) fun found => ?_
        obtain ⟨b, st⟩ := found
        refine .ite (fun _ => publishResult_ens _ _ _ _ kept_any) fun _ => .bind (.loadResult kept_any) fun values => ?_
        refine .ite (fun _ => derefResult_ens kept_any) fun _ => .bind hplain fun p => ?_
        refine .ite (fun _ => hremaining _ _ _ _ _ _) fun _ => .bind hreplaceable fun ok => .ite (fun hok => ?_) fun _ => ?_
        · refine .pre (A := fun v _ => v.BaseNode b ∧ Stale b v) ?_ fun v g _ h => h hok
          exact markRange_ens fun n ok => .ite (fun _ => hremaining _ _ _ _ _ _) fun _ => hnext _ _ _ _ _ _
        · exact .pre (.bind (hhelp b) fun _ => hnext _ _ _ _ _ _) fun _ _ _ _ => trivial

/-! ### Updates -/

theorem splitAny_ens (hA : Kept t A) (hb : ∀ v g, Inv v g → A v g → v.BaseNode b) :
    Ens t A (highContentionAdaptation b) (fun _ => Any) :=
  highContentionAdaptation_ens hA kept_any hb (fun _ _ _ _ => trivial) fun _ _ _ _ _ _ _ _ => trivial

theorem adaptIfNeeded_ens (fuel : ℕ) : Ens t (fun v _ => v.HasType b .normal) (adaptIfNeeded fuel b) (fun _ => Any) := by
  have hb : Kept t (fun v _ => v.HasType b .normal) := kept_hasType
  refine .bind (.post (isReplaceable_ens hb) fun _ _ _ h => h.1) fun ok => .ite (fun _ => .trivial_ret) fun _ => ?_
  refine .bind (newStat_ens _ hb) fun stat => .ite (fun _ => splitAny_ens hb fun _ _ _ h => h.base (by simp)) fun _ => ?_
  exact .bind (newStat_ens _ hb) fun stat => .ite (fun _ => lowContentionAdaptation_ens fuel) fun _ => .trivial_ret

/-- The loop of an update, if what is done with a new base node keeps the protocol. -/
theorem updateLoop_ens {β : Type} {up : Treap → ℤ → LfcaM (Treap × Bool)} {placed : ℕ → Ptr → Bool → LfcaM β}
    (hup : ∀ {A : Graph → Ghost → Prop} data val, Kept t A → Ens t A (up data val) (fun _ => A)) (i : ℤ)
    (hplaced : ∀ fuel newb res, Ens t (fun v _ => v.HasType newb .normal) (placed fuel newb res) (fun _ => Any)) (fuel : ℕ)
    (info : ContentionInfo) : Ens t Any (updateLoop up i placed fuel info) (fun _ => Any) := by
  induction fuel generalizing info with
  | zero => exact .raise
  | succ fuel ih =>
      have hagain : ∀ base, Ens t Any
          (do
            helpIfNeeded fuel base
            updateLoop up i placed fuel .contended) (fun _ => Any) := fun base => .bind ((help_ens fuel).1 base) fun _ => ih _
      refine .bind (.loadRoot kept_any (fun _ => kept_any) fun _ _ _ h => h) fun root => ?_
      refine .bind (findBaseNode_ens fuel i kept_any) fun base => ?_
      have hbase : Kept t (fun v g => Any v g ∧ v.BaseNode base) := kept_any.and kept_baseNode
      refine .bind (dataOf_ens hbase) fun data => .ite (fun _ => .bind (splitAny_ens hbase fun _ _ _ h => h.2) fun _ => ih _) fun _ => ?_
      refine .bind (.post (isReplaceable_ens hbase) fun _ _ _ h => h.1) fun ok => .ite (fun _ => ?_) fun _ => ?_
      · refine .bind (.fromPool hbase) fun _ => ?_
        refine Ens.bind (B := fun _ v g => Any v g ∧ v.BaseNode base) (.plain hbase (fun _ => hbase) fun _ _ _ h _ => h) fun p => ?_
        refine .bind (hup data i hbase) fun ⟨newData, res⟩ => .bind (newStat_ens info hbase) fun stat => ?_
        refine .bind (new_ens (C := fun _ => True) hbase (fun v g _ _ => ⟨by simp, fun side => by cases side <;> rfl,
          fun _ => rfl, fun h => by cases h⟩) fun _ _ _ _ => trivial) fun newb => ?_
        refine .bind (B := fun _ v _ => v.HasType newb .normal) (.post (.pre (tryReplace_base (hbase.and kept_hasType)
          (fun _ he => by cases he) fun _ _ _ h => ⟨h.1.2, h.2.base (by simp)⟩) fun v g _ h => ⟨h.1.1, h.1.2.1.hasType⟩)
          fun _ _ _ h => h.2) fun ok => ?_
        exact .ite (fun _ => hplaced fuel newb res) fun _ => .pre (hagain base) fun _ _ _ _ => trivial
      · exact .pre (hagain base) fun _ _ _ _ => trivial

theorem doUpdateLoop_ens {up : Treap → ℤ → LfcaM (Treap × Bool)}
    (hup : ∀ {A : Graph → Ghost → Prop} data val, Kept t A → Ens t A (up data val) (fun _ => A)) (i : ℤ) (fuel : ℕ)
    (info : ContentionInfo) : Ens t Any (doUpdateLoop up i fuel info) (fun _ => Any) :=
  updateLoop_ens hup i (fun fuel _ _ => .bind (adaptIfNeeded_ens fuel) fun _ => .ret kept_any) fuel info

theorem treapInsert_ens (data : Treap) (val : ℤ) (hA : Kept t A) : Ens t A (treapInsert data val) (fun _ => A) :=
  .bind (.fromPool hA) fun _ => .ret hA

theorem treapRemove_ens (data : Treap) (val : ℤ) (hA : Kept t A) : Ens t A (treapRemove data val) (fun _ => A) := .fromPool hA

theorem call_ens (fuel : ℕ) (c : Call) : Ens t Any (body fuel c) (fun _ => Any) := by
  cases c with
  | insert i =>
      refine .bind (.bind (doUpdateLoop_ens (fun _ _ => treapInsert_ens _ _) i fuel _) fun _ => .ret kept_any) fun _ => .ret kept_any
  | remove i => exact .bind (doUpdateLoop_ens (fun _ _ => treapRemove_ens _ _) i fuel _) fun _ => .ret kept_any
  | lookup i =>
      refine .bind (.bind (.loadRoot kept_any (fun _ => kept_any) fun _ _ _ h => h) fun root => ?_) fun _ => .ret kept_any
      refine .bind (.forget (findBaseNode_ens fuel i kept_any)) fun base => .bind (dataOf_ens kept_any) fun data => ?_
      exact .ofExcept (fun _ => kept_any) fun _ _ _ _ h => h
  | rangeQuery lo hi => exact .bind ((help_ens fuel).2.1 lo hi nullptr) fun _ => .ret kept_any

/-! ### All tasks keep the protocol -/

theorem task_ens {fuel : ℕ} {c : Task} : Ensures exec protocol t (fun x => c.Allowed x.shared) (c.body fuel) (fun _ _ => True) := by
  cases c with
  | call c => exact Ensures.pre (call_ens fuel c) fun _ _ _ => trivial
  | join b =>
      refine Ensures.bind (B := fun _ _ => True) ?_ fun _ => Ens.trivial_ret (A := Any)
      exact Ensures.pre (lowContentionAdaptation_ens fuel) fun x _ h => h
  | split b =>
      refine Ensures.bind (B := fun _ _ => True) ?_ fun _ => Ens.trivial_ret (A := Any)
      exact Ensures.pre (splitAny_ens (A := fun v _ => v.BaseNode b) kept_baseNode fun _ _ _ h => h) fun x _ h => h
  | help n =>
      refine Ensures.bind (B := fun _ _ => True) ?_ fun _ => Ens.trivial_ret (A := Any)
      exact Ensures.pre ((help_ens fuel).1 n) fun _ _ _ => trivial

theorem protocol_keeps : protocol.Keeps exec taskBody (fun _ _ _ _ => True) where
  idle_stable := fun _ _ _ _ h _ => h
  invoke := fun t c x hx _ hall => ⟨x.ghost, hx, ⟨.none, fun _ _ _ he => by cases he⟩, task_ens x hx hall⟩
  respond := fun t c r x hx _ => ⟨x.ghost, hx, ⟨.none, fun _ _ _ he => by cases he⟩, trivial⟩

theorem Initial.allocated {s : Shared} (h : Initial s) (hp : s.graph.Allocated p) : p = firstPtr := by
  unfold Graph.Allocated Shared.graph at hp
  rw [h.next] at hp
  exact le_antisymm (Nat.lt_succ_iff.mp hp.2) hp.1

/-- The only node is a base node. -/
theorem Initial.hasType {s : Shared} {k : NodeType} (h : Initial s) (hp : s.graph.HasType p k) : k = .normal := by
  have hplain : s.graph.plain firstPtr = ({ type := .normal, data := some Treap.empty } : Node).toPlain := congrArg Node.toPlain h.node
  obtain ⟨hp, ht⟩ := hp
  rw [h.allocated hp, hplain] at ht
  exact ht.symm

/-- The state the constructor leaves satisfies the invariant. -/
theorem Initial.inv {s : Shared} (h : Initial s) : Inv s.graph ⟨fun _ => 0, fun _ => False⟩ := by
  have hget : ∀ f, s.graph.get firstPtr f = ({ type := .normal, data := some Treap.empty } : Node).get f := fun f =>
    congrArg (fun d : Node => d.get f) h.node
  refine ⟨?_, ?_, ?_, ?_, ?_, ?_, ?_, fun _ _ => id, fun _ hr => hr.elim⟩
  · refine ⟨?_, ?_⟩
    · rw [Shared.graph, h.root]
    · rw [Shared.graph, h.root, h.next]
      exact Nat.lt_succ_self _
  · intro q d hq
    cases h.hasType hq
  · intro q d hq
    rw [h.allocated hq.1, hget]
    cases d <;> rfl
  · intro b hb
    rw [h.allocated hb.1, hget]
    rfl
  · intro m hm
    cases h.hasType hm
  · intro m hm
    cases h.hasType hm
  · intro σ τ _ _ hr
    cases h.hasType hr

/-! ### Runs of tasks -/

abbrev Cfg := Config Access Access.Ret Fault Shared (ℕ × Task) Result

/-- The steps of any number of threads, each running one task at a time. -/
def TaskStep : Cfg → Ev → Cfg → Prop := protocol.AllowedStep exec taskBody

/-- The protocol holds, and the ghost value is `g`. -/
abbrev Holding (ls : List Ev) (cfg : Cfg) (g : Ghost) : Prop := protocol.Holds exec (fun _ _ _ _ => True) (returned ls) cfg g

theorem run_holds {s : Shared} (hs : Initial s) {ls : List Ev} {cfg : Cfg} (h : Transition.Run TaskStep (.idle s) ls cfg) :
    ∃ g, Holding ls cfg g :=
  protocol_keeps.sound (g := ⟨fun _ => 0, fun _ => False⟩) hs.inv (fun _ => trivial) h

/-- The configuration that a schedule of tasks leads to from a new tree. -/
def scheduled (turns : List (Turn (ℕ × Task))) : Cfg :=
  Config.schedule exec taskBody (fun c s => decide (c.2.Allowed s)) (.idle start) turns

theorem taskStep_of_step {cfg cfg' : Cfg} {e : Ev} (he : ∀ t c, e = .invoke t c → decide (c.2.Allowed cfg.shared) = true)
    (h : Step exec taskBody cfg e cfg') : TaskStep cfg e cfg' := by
  refine ⟨h, ?_⟩
  cases e with
  | invoke t c =>
      have ha : c.2.Allowed cfg.shared := of_decide_eq_true (he t c rfl)
      exact ha
  | access => trivial
  | respond => trivial

theorem scheduled_run (turns : List (Turn (ℕ × Task))) : Transition.Reachable TaskStep (.idle start) (scheduled turns) :=
  Config.schedule_run (fun _ _ _ he h => taskStep_of_step he h) _ _

/-! ### What becomes of a join -/

/-- The steps of `neigh2` of a main node. -/
def NextDecision (v v' : Graph) (m : Ptr) : Prop :=
  v.get m .neigh2 = PREPARING ∧ (v'.get m .neigh2 = PREPARING ∨ v'.get m .neigh2 = ABORTED ∨ v'.Merged m) ∨
  v.get m .neigh2 = ABORTED ∧ v'.get m .neigh2 = ABORTED ∨
  v.Merged m ∧ (v'.get m .neigh2 = v.get m .neigh2 ∨ v'.get m .neigh2 = DONE) ∨
  v.get m .neigh2 = DONE ∧ v'.get m .neigh2 = DONE

theorem Inv.nextDecision {mine : Prop} (h : Inv v g) (hm : v.HasType m .joinMain) (hmoves : Moves v v' mine m) :
    NextDecision v v' m := by
  rcases hmoves with he | ⟨_, ⟨hp, he⟩ | ⟨hf, he⟩⟩
  · rcases h.phase m hm with (hp | ha) | (hf | hd)
    · exact .inl ⟨hp, .inl (he.trans hp)⟩
    · exact .inr (.inl ⟨ha, he.trans ha⟩)
    · exact .inr (.inr (.inl ⟨hf, .inl he⟩))
    · exact .inr (.inr (.inr ⟨hd, he.trans hd⟩))
  · exact .inl ⟨hp, .inr (he.imp_right And.right)⟩
  · exact .inr (.inr (.inl ⟨hf, .inr he⟩))

/-- A node that is not `PREPARING` any more stays so. -/
theorem NextDecision.decided (h : NextDecision v v' m) (hne : v.get m .neigh2 ≠ PREPARING) : v'.get m .neigh2 ≠ PREPARING := by
  rcases h with ⟨hp, _⟩ | ⟨_, ha⟩ | ⟨hm, he | hd⟩ | ⟨_, hd⟩
  · exact absurd hp hne
  · rw [ha]
    decide
  · rw [he]
    exact hm.neigh2_ne.1
  · rw [hd]
    decide
  · rw [hd]
    decide

/-- A step spares some thread what it relies on. -/
theorem step_spares {s : Shared} (hs : Initial s) {ls : List Ev} {cfg cfg' : Cfg} {e : Ev}
    (hrun : Transition.Run TaskStep (.idle s) ls cfg) (hstep : TaskStep cfg e cfg') :
    ∃ u g g', Inv cfg.shared.graph g ∧ Spares u cfg.shared.graph g cfg'.shared.graph g' := by
  obtain ⟨g, hP⟩ := run_holds hs hrun
  obtain ⟨g', _, hc | ⟨_, he⟩⟩ := protocol_keeps.step hP hstep
  · exact ⟨e.thread + 1, g, g', hP.inv, hc.1.spares hP.inv (Nat.succ_ne_self _)⟩
  · have hshared : cfg'.shared = cfg.shared := congrArg World.shared he
    exact ⟨0, g, g, hP.inv, hshared ▸ .refl⟩

theorem step_nextDecision {s : Shared} (hs : Initial s) {ls : List Ev} {cfg cfg' : Cfg} {e : Ev}
    (hrun : Transition.Run TaskStep (.idle s) ls cfg) (hstep : TaskStep cfg e cfg') (hm : cfg.shared.graph.HasType m .joinMain) :
    NextDecision cfg.shared.graph cfg'.shared.graph m := by
  obtain ⟨u, g, g', hi, hsp⟩ := step_spares hs hrun hstep
  exact Inv.nextDecision hi hm (hsp.neigh2 m hm.1)

/-- A node that is not `PREPARING` stays so in every run. -/
theorem run_decided {s : Shared} (hs : Initial s) {ls ls' : List Ev} {cfg cfg' : Cfg}
    (hrun : Transition.Run TaskStep (.idle s) ls cfg) (hrun' : Transition.Run TaskStep cfg ls' cfg')
    (hm : cfg.shared.graph.HasType m .joinMain) (hne : cfg.shared.graph.get m .neigh2 ≠ PREPARING) :
    cfg'.shared.graph.HasType m .joinMain ∧ cfg'.shared.graph.get m .neigh2 ≠ PREPARING := by
  induction hrun' with
  | nil => exact ⟨hm, hne⟩
  | snoc hprev hlast ih =>
      obtain ⟨_, _, _, _, hsp⟩ := step_spares hs (hrun.trans hprev) hlast
      exact ⟨hsp.hasType ih.1, (step_nextDecision hs (hrun.trans hprev) hlast ih.1).decided ih.2⟩

/-- A join that is on has had its merged node set at some point of the run. -/
theorem final_was_merged {s : Shared} (hs : Initial s) {ls : List Ev} {cfg : Cfg} (hrun : Transition.Run TaskStep (.idle s) ls cfg)
    (hm : cfg.shared.graph.HasType m .joinMain) (hf : cfg.shared.graph.Final m) :
    ∃ ls₁ ls₂ cfg₁, ls = ls₁ ++ ls₂ ∧ Transition.Run TaskStep (.idle s) ls₁ cfg₁ ∧ Transition.Run TaskStep cfg₁ ls₂ cfg ∧
      cfg₁.shared.graph.Merged m := by
  induction hrun with
  | nil => cases hs.hasType hm
  | @snoc ls cfg cfg' e hrun hstep ih =>
      cases hf with
      | inl hf => exact ⟨ls ++ [e], [], cfg', by simp, hrun.snoc hstep, .nil, hf⟩
      | inr hd =>
          obtain ⟨g, hP⟩ := run_holds hs hrun
          obtain ⟨g', _, hguar⟩ := protocol_keeps.step hP hstep
          have hm₀ : cfg.shared.graph.HasType m .joinMain := by
            cases hguar with
            | inl hc => exact hc.1.old_of_final hm (.inr hd)
            | inr hf =>
                have hshared : cfg'.shared = cfg.shared := congrArg World.shared hf.2
                exact hshared ▸ hm
          have hf₀ : cfg.shared.graph.Final m := by
            rcases step_nextDecision hs hrun hstep hm₀ with ⟨_, hp | ha | hf⟩ | ⟨_, ha⟩ | ⟨hf, _⟩ | ⟨hd', _⟩
            · exact absurd (hp.symm.trans hd) (by decide)
            · exact absurd (ha.symm.trans hd) (by decide)
            · exact absurd hd hf.neigh2_ne.2.2
            · exact absurd (ha.symm.trans hd) (by decide)
            · exact .inl hf
            · exact .inr hd'
          obtain ⟨ls₁, ls₂, cfg₁, hls, h₁, h₂, hmerged⟩ := ih hm₀ hf₀
          exact ⟨ls₁, ls₂ ++ [e], cfg₁, by rw [hls, List.append_assoc], h₁, h₂.snoc hstep, hmerged⟩

/-- A merged node is not the neighbor it has been made from. -/
theorem merged_ne_neigh1 {s : Shared} (hs : Initial s) {ls : List Ev} {cfg : Cfg} (hrun : Transition.Run TaskStep (.idle s) ls cfg)
    (hm : cfg.shared.graph.HasType m .joinMain) (hmerged : cfg.shared.graph.Merged m) :
    cfg.shared.graph.get m .neigh2 ≠ (cfg.shared.graph.plain m).neigh1 := by
  obtain ⟨g, hP⟩ := run_holds hs hrun
  exact (hP.inv.joined m hm (.inl hmerged)).merged

/-- In every run, every step leaves each `neigh2` of a main node as it is or decides it for good, a
merged node is another one than the neighbor `neigh1`, and a step of `complete_join(m)` that takes place
is preceded by a state in which the merged node is set. -/
theorem join_decision_final {s : Shared} (hs : Initial s) {ls : List Ev} {cfg cfg' : Cfg} {e : Ev}
    (hrun : Transition.Run TaskStep (.idle s) ls cfg) (hstep : TaskStep cfg e cfg') :
    (∀ m, cfg.shared.graph.HasType m .joinMain → NextDecision cfg.shared.graph cfg'.shared.graph m) ∧
    (∀ m, cfg.shared.graph.HasType m .joinMain → cfg.shared.graph.Merged m →
      cfg.shared.graph.get m .neigh2 ≠ (cfg.shared.graph.plain m).neigh1) ∧
    (∀ m, cfg.shared.graph.HasType m .joinMain → cfg.shared.graph.get m .neigh2 ≠ PREPARING →
      ∀ ls' cfg'', Transition.Run TaskStep cfg ls' cfg'' → cfg''.shared.graph.get m .neigh2 ≠ PREPARING) ∧
    ∀ t a m r s', e = .access t a → a.caller = some m → exec a cfg.shared = .ok (r, s') →
      ∃ ls₁ ls₂ cfg₁, ls = ls₁ ++ ls₂ ∧ Transition.Run TaskStep (.idle s) ls₁ cfg₁ ∧ Transition.Run TaskStep cfg₁ ls₂ cfg ∧
        cfg₁.shared.graph.Merged m := by
  refine ⟨fun m hm => step_nextDecision hs hrun hstep hm, fun m hm => merged_ne_neigh1 hs hrun hm, fun m hm hne ls' cfg'' hrun' =>
    (run_decided hs hrun hrun' hm hne).2, fun t a m r s' he hcaller hexec => ?_⟩
  obtain ⟨g, hP⟩ := run_holds hs hrun
  obtain ⟨g', _, hguar | ⟨⟨_, _, f, he', hf⟩, _⟩⟩ := protocol_keeps.step hP hstep
  · obtain ⟨hm, hf⟩ := hguar.2 t a m he hcaller
    exact final_was_merged hs hrun hm hf
  · cases he.symm.trans he'
    cases hexec.symm.trans hf

/-- Thread 1 is about to take a step of `complete_join(9)`. -/
def helping (cfg : Cfg) : Bool :=
  match cfg.threads 1 with
  | some (_, .op a _) =>
      match exec a cfg.shared with
      | .ok (_, _) => decide (a.caller = some 9)
      | .error _ => false
  | _ => false

set_option maxRecDepth 100000 in
/-- A helper unlinks the parent of a join that its owner has left decided. -/
theorem join_decision_final_help : ∃ ls₁ cfg₁, Transition.Run TaskStep (.idle start) ls₁ cfg₁ ∧ cfg₁.shared.graph.Merged 9 := by
  obtain ⟨ls, hrun⟩ := scheduled_run (joining ++ [.go 0 50, .call 1 (10, .help 9), .go 1 9])
  have hnext : helping (scheduled (joining ++ [.go 0 50, .call 1 (10, .help 9), .go 1 9])) = true := by decide +kernel
  generalize scheduled (joining ++ [.go 0 50, .call 1 (10, .help 9), .go 1 9]) = cfg at hrun hnext
  unfold helping at hnext
  split at hnext
  · rename_i c a k hthread
    split at hnext
    · rename_i r s' hexec
      have hstep : TaskStep cfg (.access 1 a) (cfg.set 1 (some (c, k r)) s') :=
        taskStep_of_step (fun t c h => by cases h) (.access hthread hexec)
      obtain ⟨ls₁, ls₂, cfg₁, _, hrun₁, _, hmerged⟩ :=
        (join_decision_final start_initial hrun hstep).2.2.2 1 a 9 r s' rfl (of_decide_eq_true hnext) hexec
      exact ⟨ls₁, cfg₁, hrun₁, hmerged⟩
    · cases hnext
  · cases hnext

/-! ### The entries of a join -/

/-- The step takes the node `p` out of the root or out of a child pointer. -/
def Unlinks (p : Ptr) (s s' : Shared) : Prop := ∃ σ, s.graph.On σ ∧ s.graph.look σ = p ∧ s'.graph.look σ ≠ p

/-- The steps that leave `p` where it is. -/
def LinkedStep (p : Ptr) (cfg : Cfg) (e : Ev) (cfg' : Cfg) : Prop := TaskStep cfg e cfg' ∧ ¬ Unlinks p cfg.shared cfg'.shared

/-- A step has set the merged node of the join `m`, and no step since has unlinked the parent. -/
def Committed (s : Shared) (cfg : Cfg) (m : Ptr) : Prop :=
  ∃ ls₀ cfg₀ e cfg₁ ls, Transition.Run TaskStep (.idle s) ls₀ cfg₀ ∧ TaskStep cfg₀ e cfg₁ ∧
    cfg₁.shared.graph.HasType m .joinMain ∧ ¬ cfg₀.shared.graph.Merged m ∧ cfg₁.shared.graph.Merged m ∧
    Transition.Run (LinkedStep (cfg₁.shared.nodes m).parent) cfg₁ ls cfg

/-- The parent and the grandparent of a join. -/
def joinRoutes (s : Shared) (m : Ptr) : List Ptr :=
  if (s.nodes m).gparent = nullptr then [(s.nodes m).parent] else [(s.nodes m).parent, (s.nodes m).gparent]

theorem Inv.neigh2_ne (h : Inv v g) (hm : v.HasType m .joinMain) (hn : ¬ v.Merged m) (hm' : v'.Merged m) :
    v'.get m .neigh2 ≠ v.get m .neigh2 := by
  intro he
  obtain ⟨h₁, h₂, h₃⟩ := hm'.neigh2_ne
  rw [he] at h₁ h₂ h₃
  exact (h.phase m hm).elim (fun hu => hu.elim h₁ h₂) fun hf => hf.elim hn h₃

/-- At its decision, the parent of a join has not been unlinked. -/
theorem Change.parent_linked (h : Inv v g) (hc : Change t v g v' g') (hm : v'.HasType m .joinMain) (hn : ¬ v.Merged m)
    (hm' : v'.Merged m) : ¬ g'.retired (v'.plain m).parent := by
  have hold := hc.old_of_final hm (.inl hm')
  have hne := h.neigh2_ne hold hn hm'
  cases hc with
  | none => exact absurd rfl hne
  | grow he _ => exact absurd (he.get m _ hold.1) hne
  | put => exact absurd Graph.neigh2_put hne
  | unlink => exact absurd Graph.neigh2_put hne
  | setJoin => exact absurd Graph.neigh2_setJoin hne
  | note => exact absurd rfl hne
  | @abort m₁ =>
      by_cases he : m = m₁
      · subst he
        exact absurd (Graph.get_set_self _ _ _) hm'.neigh2_ne.2.1
      · exact absurd (Graph.get_set_ne _ (.inl he)) hne
  | @finish m₁ =>
      by_cases he : m = m₁
      · subst he
        exact absurd (Graph.get_set_self _ _ _) hm'.neigh2_ne.2.2
      · exact absurd (Graph.get_set_ne _ (.inl he)) hne
  | @commit m₁ n hm₁ hn₁ hmain _ hu ho hj hr =>
      by_cases he : m = m₁
      · subst he
        exact hr
      · exact absurd (Graph.get_set_ne _ (.inl he)) hne

/-- While its parent has not been unlinked, a join that is on is entered in its parent and grandparent. -/
theorem Committed.locks {s : Shared} {cfg : Cfg} (hs : Initial s) (h : Committed s cfg m) :
    ∀ q ∈ joinRoutes cfg.shared m, (cfg.shared.nodes q).joinId = m := by
  obtain ⟨ls₀, cfg₀, e, cfg₁, ls, hrun₀, hset, hm, hbefore, hafter, hrun⟩ := h
  obtain ⟨g₀, hP₀⟩ := run_holds hs hrun₀
  obtain ⟨g₁, hP₁, hc | hfault⟩ := protocol_keeps.step hP₀ hset
  · -- from the decision on, the main node stays as it is and the parent linked
    have hj₁ : Underway m (cfg₁.shared.graph.plain m) cfg₁.shared.graph ∧ ¬ g₁.retired (cfg₁.shared.graph.plain m).parent :=
      ⟨⟨hm, .inl hafter, rfl⟩, hc.1.parent_linked hP₀.inv hm hbefore hafter⟩
    generalize hd : cfg₁.shared.graph.plain m = d at hj₁
    have hpar : (cfg₁.shared.nodes m).parent = d.parent := congrArg Plain.parent hd
    rw [hpar] at hrun
    have hkeep : ∀ {cfg : Cfg} {e : Ev} {cfg' : Cfg} {h g h' g'}, LinkedStep d.parent cfg e cfg' →
        protocol.inv ⟨h, cfg.shared, g⟩ → protocol.inv ⟨h', cfg'.shared, g'⟩ →
        protocol.guar e ⟨h, cfg.shared, g⟩ ⟨h', cfg'.shared, g'⟩ →
        Underway m d cfg.shared.graph ∧ ¬ g.retired d.parent → Underway m d cfg'.shared.graph ∧ ¬ g'.retired d.parent := by
      intro cfg e cfg' h g h' g' hnext hi hi' ⟨hc, _⟩ hj
      refine ⟨kept_underway (u := e.thread + 1) _ _ _ _ hi hi' (hc.spares hi (Nat.succ_ne_self _)) hj.1, fun hr => ?_⟩
      exact hnext.2 (hc.unlinks hi hj.2 hr)
    obtain ⟨g, hP, hu, hr⟩ := protocol_keeps.run (J := fun x => Underway m d x.shared.graph ∧ ¬ x.ghost.retired d.parent)
      (fun h => h.1) hkeep hP₁ hj₁ hrun
    have hsec := (hu.joined hP.inv).secured (by rw [hu.plain]; exact hr)
    intro q hq
    unfold joinRoutes at hq
    split_ifs at hq with hnull
    · rw [List.mem_singleton] at hq
      rw [hq]
      exact hsec.parentLock
    · rcases List.mem_pair.mp hq with rfl | rfl
      · exact hsec.parentLock
      · exact hsec.grandLock hnull
  · have hshared : cfg₁.shared = cfg₀.shared := congrArg World.shared hfault.2
    rw [hshared] at hafter
    exact absurd hafter hbefore

/-- While their parents have not been unlinked, joins that are on are entered in their parents and
grandparents, and no two of them share a route node. -/
theorem joinId_locks {s : Shared} {cfg : Cfg} (hs : Initial s) :
    (∀ m, Committed s cfg m → (cfg.shared.nodes (cfg.shared.nodes m).parent).joinId = m ∧
      ((cfg.shared.nodes m).gparent ≠ nullptr → (cfg.shared.nodes (cfg.shared.nodes m).gparent).joinId = m)) ∧
    ∀ m m', Committed s cfg m → Committed s cfg m' → m ≠ m' → List.Disjoint (joinRoutes cfg.shared m) (joinRoutes cfg.shared m') := by
  refine ⟨fun m h => ⟨h.locks hs _ ?_, fun hne => h.locks hs _ ?_⟩, fun m m' h h' hne q hq hq' => ?_⟩
  · unfold joinRoutes
    split_ifs <;> simp
  · unfold joinRoutes
    rw [if_neg hne]
    simp
  · exact hne ((h.locks hs q hq).symm.trans (h'.locks hs q hq'))

set_option maxRecDepth 100000 in
/-- The owner takes the step that decides the join. -/
theorem joinId_locks_commit : (((scheduled (joining ++ [.go 0 49])).advance exec 0).shared.nodes 6).joinId = 9 := by
  obtain ⟨ls, hrun⟩ := scheduled_run (joining ++ [.go 0 49])
  obtain ⟨e, he, hstep⟩ : ∃ e, (∀ t c, e ≠ .invoke t c) ∧ Step exec taskBody (scheduled (joining ++ [.go 0 49])) e
      ((scheduled (joining ++ [.go 0 49])).advance exec 0) := Config.advance_step (by decide +kernel)
  have htype : ((scheduled (joining ++ [.go 0 49])).advance exec 0).shared.graph.HasType 9 .joinMain := by decide +kernel
  have hbefore : ¬ (scheduled (joining ++ [.go 0 49])).shared.graph.Merged 9 := by decide +kernel
  have hafter : ((scheduled (joining ++ [.go 0 49])).advance exec 0).shared.graph.Merged 9 := by decide +kernel
  have hparent : (((scheduled (joining ++ [.go 0 49])).advance exec 0).shared.nodes 9).parent = 6 := by decide +kernel
  have hlock := ((joinId_locks start_initial).1 9
    ⟨ls, _, e, _, [], hrun, taskStep_of_step (fun t c h => absurd h (he t c)) hstep, htype, hbefore, hafter, .nil⟩).1
  rwa [hparent] at hlock

end Lfca

end LockFreeSearchTree
