import LockFreeSearchTree.LfcaAccess

/-! # Memory safety of the lock-free tree

No call of the lock-free tree runs into undefined behaviour, in any interleaving: no thread ever
dereferences a null pointer, one of the special pointers or an address that no pool has handed out,
takes the treap of a node that has none, or reads a result that has not been set.

* **Functions.** One theorem for each function of the source, from what it needs of its arguments to
  what is known of its result (`Safe`).
* **Runs.** A thread that has failed has run out of rounds for its loops, or a pool has thrown
  (`failures_from_pools`).  All nodes of all states are proper (`nodes_proper`). -/

namespace LockFreeSearchTree

open BinTree Concurrent

namespace Lfca

variable {v : Graph} {s₀ s s' : Shared} {n p q m b : Ptr} {t : Treap}

/-! ### Fields -/

theorem outOfFuel_safe : (safety s₀).fault .outOfFuel := fun h => by cases h

theorem ret_safe {α : Type} {a : α} : Safe s₀ (Pure.pure a) (fun r _ => r = a) s := .pure fun _ _ _ => rfl

theorem bare_data {a d : Plain} (h : a.bare = d.bare) : a.data = d.data := by
  have hb : a.bare.data = d.bare.data := by rw [h]
  exact hb

/-- The root pointer or a route node, as the parent of a base node. -/
def Parental (p : Ptr) (v : Graph) : Prop := p = nullptr ∨ v.HasType p .route

theorem Parental.progress (h : Parental p s.graph) (hle : Progress s s') : Parental p s'.graph := h.imp_right hle.hasType

theorem Reads.base {a : Plain} (ha : Reads n a v) (hn : v.BaseNode n) : a.type ≠ .route := fun ht => hn.2 ((bare_type ha.2).trans ht)

theorem Reads.baseNode {a : Plain} (ha : Reads n a v) (ht : a.type ≠ .route) : v.BaseNode n := ha.hasType.base ht

theorem dataOf_safe (hs : (safety s₀).Good s) (hn : s.graph.BaseNode n) : Safe s₀ (dataOf n) (fun t _ => t.Sound) s := by
  refine .bind hs (plain_safe hn.1) fun a s₁ hs₁ hle₁ ha => ?_
  obtain ⟨hread, hproper⟩ := ha
  cases hd : a.data with
  | none => exact absurd hd (hproper.data (hread.base (hle₁.baseNode hn)))
  | some t =>
      have hsound : t.Sound := hs₁.known.2.sound n t hread.1 ((bare_data hread.2).trans hd)
      exact .pure fun _ _ _ => hsound

/-- A child pointer that is not null is that of a route node. -/
theorem loadLink_safe {d : Side} (hn : s.Allocated n) :
    Safe s₀ (load n (.child d)) (fun r s => (r ≠ nullptr → s.graph.HasType n .route) ∧ (r = nullptr → s.graph.BaseNode n)) s := by
  refine Op.Simple.safe (o := .load n (.child d)) trivial hn fun s' r s'' s₃ hle hs' hexec hle' _ => ?_
  obtain ⟨hn', he⟩ := onNode_ok hexec
  cases he
  exact ⟨fun hne => hle'.hasType (route_of_child hs' hn' hne), fun hnull => hle'.baseNode (base_of_leaf hs' hn' hnull)⟩

/-! ### Helper functions -/

theorem outermost_safe (d : Side) (fuel : ℕ) (hs : (safety s₀).Good s) (hn : s.Allocated n) :
    Safe s₀ (outermost d fuel n) (fun r s => s.graph.BaseNode r) s := by
  induction fuel generalizing n s with
  | zero => exact .raise outOfFuel_safe
  | succ fuel ih =>
      refine .bind hs (loadLink_safe hn) fun r s₁ hs₁ _ hr => .ite (fun hne => ?_) fun hnull => ?_
      · exact .bind hs₁ (loadChild_safe (hr.1 hne)) fun q s₂ hs₂ _ hq => ih hs₂ hq
      · exact .pure fun s₂ hle _ => hle.baseNode (hr.2 (not_not.mp hnull))

theorem tryReplace_safe {caller : Option Ptr} {newB : Ptr} (hs : (safety s₀).Good s) (hb : s.graph.BaseNode b) :
    Safe s₀ (tryReplace caller b newB) (fun _ _ => True) s := by
  refine .bind hs (plain_safe hb.1) fun a s₁ hs₁ hle₁ ha => .ite (fun _ => ?_) fun hne => ?_
  · exact Op.Simple.access (o := .casRoot b newB) trivial trivial
  · have hpar : s₁.graph.HasType a.parent .route := (ha.2.parent (ha.1.base (hle₁.baseNode hb))).resolve_left hne
    have hcas : ∀ {s₂ : Shared} {d : Side}, Progress s₁ s₂ →
        Safe s₀ (Prog.perform (⟨.cas a.parent (.child d) b newB, caller⟩ : Access)) (fun _ _ => True) s₂ := fun {s₂ d} hle =>
      Op.Simple.access (o := .cas a.parent (.child d) b newB) trivial (hle.allocated hpar.1)
    refine .bind hs₁ (load_safe hpar.1) fun left s₂ hs₂ hle₂ _ => .ite (fun _ => hcas hle₂) fun _ => ?_
    refine .bind hs₂ (load_safe (hle₂.allocated hpar.1)) fun right s₃ _ hle₃ _ => .ite (fun _ => hcas (hle₂.trans hle₃)) fun _ => ?_
    exact .pure fun _ _ _ => trivial

theorem isReplaceable_safe (hs : (safety s₀).Good s) (hn : s.Allocated n) :
    Safe s₀ (isReplaceable n) (fun _ _ => True) s := by
  refine .bind hs (plain_safe hn) fun a s₁ hs₁ hle₁ ha => ?_
  split
  · exact .pure fun _ _ _ => trivial
  · exact .bind hs₁ (load_safe ha.1.1) fun _ _ _ _ _ => .pure fun _ _ _ => trivial
  · rename_i ht
    exact .bind hs₁ (load_safe (ha.2.mainNode ht).1) fun _ _ _ _ _ => .pure fun _ _ _ => trivial
  · rename_i ht
    exact absurd ht ha.2.type
  · exact .pure fun _ _ _ => trivial

/-- Contention is only added up to `HIGH_CONT`, and only taken off down to `LOW_CONT`. -/
theorem newStat_safe (info : ContentionInfo) (hs : (safety s₀).Good s) (hn : s.Allocated n) :
    Safe s₀ (newStat n info) (fun x _ => StatBound x) s := by
  refine .bind hs (plain_safe hn) fun a s₁ hs₁ _ ha => ?_
  obtain ⟨hlow, hhigh⟩ := ha.2.stat
  rw [if_neg ha.2.type]
  refine .bind hs₁ ret_safe fun more s₂ hs₂ _ hmore => ?_
  subst hmore
  simp only [StatBound, LOW_CONT, LOW_CONT_CONTRIB, HIGH_CONT, CONT_CONTRIB] at *
  refine .ite (fun h => .pure fun _ _ _ => ?_) fun _ => .ite (fun h => .pure fun _ _ _ => ?_) fun _ => .pure fun _ _ _ => ?_
  · simp only [Bool.false_eq_true, if_false]
    omega
  · simp only [Bool.false_eq_true, if_false]
    omega
  · exact ⟨hlow, hhigh⟩

/-- The fields of a copy of `b` are proper if those of `b` are. -/
theorem copyOf_safe (hs : (safety s₀).Good s) (hb : s.Allocated b) :
    Safe s₀ (copyOf b) (fun d s => Reads b d.toPlain s.graph ∧ Proper s.graph d.toPlain) s := by
  refine .bind hs (node_safe hs) fun _ s₀' hs₀ hle₀ _ => .bind hs₀ (plain_safe (hle₀.allocated hb)) fun a s₁ hs₁ hle₁ ha => ?_
  have hload : ∀ {s₂ : Shared} {k : Field}, Progress s₁ s₂ → Safe s₀ (load b k) (fun _ _ => True) s₂ := fun hle =>
    load_safe (hle.allocated ha.1.1)
  refine .bind hs₁ (hload (.refl _)) fun left s₂ hs₂ hle₂ _ => .bind hs₂ (hload hle₂) fun right s₃ hs₃ hle₃ _ => ?_
  have hle₁₃ : Progress s₁ s₃ := hle₂.trans hle₃
  refine .bind hs₃ (Op.Simple.access (o := .loadValid b) trivial (hle₁₃.allocated ha.1.1)) fun valid s₄ hs₄ hle₄ _ => ?_
  have hle₁₄ : Progress s₁ s₄ := hle₁₃.trans hle₄
  refine .bind hs₄ (hload hle₁₄) fun joinId s₅ hs₅ hle₅ _ => .bind hs₅ (hload (hle₁₄.trans hle₅)) fun neigh2 s₆ _ hle₆ _ => ?_
  refine .pure fun s₇ hle₇ _ => ?_
  have hle : Progress s₁ s₇ := ((hle₁₄.trans hle₅).trans hle₆).trans hle₇
  exact ⟨hle.reads ha.1, ha.2.progress hle⟩

/-- `node::New(*b)`: a copy of a proper node, with some fields set. -/
theorem newCopy_safe {f : Node → Node} (hs : (safety s₀).Good s) (hb : s.Allocated b)
    (hf : ∀ (d : Node) s', Progress s s' → Reads b d.toPlain s'.graph → Proper s'.graph d.toPlain → Proper s'.graph (f d).toPlain) :
    Safe s₀ (newCopy b f) (fun r s => ∃ d : Node, Reads b d.toPlain s.graph ∧ Reads r (f d).toPlain s.graph) s := by
  refine .bind hs (copyOf_safe hs hb) fun d s₁ _ hle₁ hd => ?_
  refine .mono (new_safe (hf d s₁ hle₁ hd.1 hd.2)) fun r s₂ hle₂ _ hr => ?_
  exact ⟨d, hle₂.reads hd.1, hr⟩

/-! ### Searches -/

theorem findBaseNode_safe (fuel : ℕ) (i : ℤ) (hs : (safety s₀).Good s) (hn : s.Allocated n) :
    Safe s₀ (findBaseNode fuel n i) (fun r s => s.graph.BaseNode r) s := by
  induction fuel generalizing n s with
  | zero => exact .raise outOfFuel_safe
  | succ fuel ih =>
      refine .bind hs (plain_safe hn) fun a s₁ hs₁ _ ha => .ite (fun ht => ?_) fun ht => ?_
      · have hr : s₁.graph.HasType n .route := ht ▸ ha.1.hasType
        have hnext : ∀ d, Safe s₀ (load n (.child d) >>= fun q => findBaseNode fuel q i) (fun r s => s.graph.BaseNode r) s₁ :=
          fun d => .bind hs₁ (loadChild_safe hr) fun q s₂ hs₂ _ hq => ih hs₂ hq
        exact .ite (fun _ => hnext .left) fun _ => hnext .right
      · exact .pure fun s₂ hle _ => hle.baseNode (ha.1.baseNode ht)

/-- The nodes on a stack below its top, which are route nodes. -/
def Routes (st : List Ptr) (s : Shared) : Prop := ∀ q ∈ st, s.graph.HasType q .route

theorem Routes.progress {st : List Ptr} (h : Routes st s) (hle : Progress s s') : Routes st s' := fun q hq => hle.hasType (h q hq)

theorem Routes.push {st : List Ptr} (h : Routes st s) (hn : s.graph.HasType n .route) : Routes (n :: st) s := by
  intro q hq
  rcases List.mem_cons.mp hq with rfl | hq
  · exact hn
  · exact h q hq

/-- A stack with a base node on its top. -/
structure BaseStack (b : Ptr) (st : List Ptr) (s : Shared) : Prop where
  base : s.graph.BaseNode b
  rest : ∃ rest, st = b :: rest ∧ Routes rest s

theorem BaseStack.progress {st : List Ptr} (h : BaseStack b st s) (hle : Progress s s') : BaseStack b st s' := by
  obtain ⟨hb, rest, hst, hrest⟩ := h
  exact ⟨hle.baseNode hb, rest, hst, hrest.progress hle⟩

theorem BaseStack.replaceTop {st : List Ptr} (h : BaseStack b st s) (hn : s.graph.BaseNode n) :
    BaseStack n (replaceTop st n) s := by
  obtain ⟨_, rest, rfl, hrest⟩ := h
  exact ⟨hn, rest, rfl, hrest⟩

theorem findBaseStackLoop_safe (fuel : ℕ) (i : ℤ) {st : List Ptr} (hs : (safety s₀).Good s) (hst : Routes st s)
    (hn : s.Allocated n) : Safe s₀ (findBaseStackLoop fuel n i st) (fun r s => BaseStack r.1 r.2 s) s := by
  induction fuel generalizing n s st with
  | zero => exact .raise outOfFuel_safe
  | succ fuel ih =>
      refine .bind hs (plain_safe hn) fun a s₁ hs₁ hle₁ ha => .ite (fun ht => ?_) fun ht => ?_
      · have hr : s₁.graph.HasType n .route := ht ▸ ha.1.hasType
        have hst₁ : Routes (n :: st) s₁ := (hst.progress hle₁).push hr
        have hnext : ∀ d, Safe s₀ (load n (.child d) >>= fun q => findBaseStackLoop fuel q i (n :: st))
            (fun r s => BaseStack r.1 r.2 s) s₁ :=
          fun d => .bind hs₁ (loadChild_safe hr) fun q s₂ hs₂ hle₂ hq => ih hs₂ (hst₁.progress hle₂) hq
        exact .ite (fun _ => hnext .left) fun _ => hnext .right
      · exact .pure fun s₂ hle _ => ⟨hle.baseNode (ha.1.baseNode ht), st, rfl, hst.progress (hle₁.trans hle)⟩

theorem leftmostAndStack_safe (fuel : ℕ) {st : List Ptr} (hs : (safety s₀).Good s) (hst : Routes st s)
    (hn : s.Allocated n) : Safe s₀ (leftmostAndStack fuel n st) (fun r s => BaseStack r.1 r.2 s) s := by
  induction fuel generalizing n s st with
  | zero => exact .raise outOfFuel_safe
  | succ fuel ih =>
      refine .bind hs (plain_safe hn) fun a s₁ hs₁ hle₁ ha => .ite (fun ht => ?_) fun ht => ?_
      · have hr : s₁.graph.HasType n .route := ht ▸ ha.1.hasType
        refine .bind hs₁ (loadChild_safe hr) fun q s₂ hs₂ hle₂ hq => ih hs₂ ?_ hq
        exact ((hst.progress hle₁).push hr).progress hle₂
      · exact .pure fun s₂ hle _ => ⟨hle.baseNode (ha.1.baseNode ht), st, rfl, hst.progress (hle₁.trans hle)⟩

/-- The result of `find_next_base_stack`. -/
def NextBase (r : Ptr × List Ptr) (s : Shared) : Prop := r.1 = nullptr ∨ BaseStack r.1 r.2 s

theorem findNextBaseLoop_safe (fuel : ℕ) (i : ℤ) {st : List Ptr} (hs : (safety s₀).Good s) (hst : Routes st s) :
    Safe s₀ (findNextBaseLoop fuel i st) (fun r s => NextBase r s) s := by
  induction st generalizing s with
  | nil => exact .pure fun _ _ _ => .inl rfl
  | cons n st ih =>
      have hn := hst n (List.mem_cons_self ..)
      have hrest : Routes st s := fun q hq => hst q (List.mem_cons_of_mem _ hq)
      refine .bind hs (Op.Simple.access (o := .loadValid n) trivial hn.1) fun valid s₁ hs₁ hle₁ _ => ?_
      refine .bind hs₁ (plain_safe (hle₁.allocated hn.1)) fun a s₂ hs₂ hle₂ _ => ?_
      have hle : Progress s s₂ := hle₁.trans hle₂
      refine .ite (fun _ => ?_) fun _ => ih hs₂ (hrest.progress hle)
      refine .bind hs₂ (loadChild_safe (hle.hasType hn)) fun q s₃ hs₃ hle₃ hq => ?_
      exact .mono (leftmostAndStack_safe fuel hs₃ (hst.progress (hle.trans hle₃)) hq) fun _ _ _ _ h => .inr h

theorem findNextBaseStack_safe (fuel : ℕ) {st : List Ptr} (hs : (safety s₀).Good s) (hst : BaseStack b st s) :
    Safe s₀ (findNextBaseStack fuel st) (fun r s => NextBase r s) s := by
  obtain ⟨_, rest, rfl, hrest⟩ := hst
  cases rest with
  | nil => exact .pure fun _ _ _ => .inl rfl
  | cons n rest =>
      have hn := hrest n (List.mem_cons_self ..)
      refine .bind hs (load_safe hn.1) fun left s₁ hs₁ hle₁ _ => .ite (fun _ => ?_) fun _ => ?_
      · refine .bind hs₁ (loadChild_safe (hle₁.hasType hn)) fun q s₂ hs₂ hle₂ hq => ?_
        exact .mono (leftmostAndStack_safe fuel hs₂ (hrest.progress (hle₁.trans hle₂)) hq) fun _ _ _ _ h => .inr h
      · refine .bind hs₁ (plain_safe (hle₁.allocated hn.1)) fun a s₂ hs₂ hle₂ _ => ?_
        exact findNextBaseLoop_safe fuel _ hs₂ (hrest.progress (hle₁.trans hle₂))

theorem parentOfLoop_safe (fuel : ℕ) {prevNode currNode : Ptr} (hs : (safety s₀).Good s) (hn : s.Allocated n)
    (hprev : Parental prevNode s.graph) (hcurr : s.Allocated currNode) :
    Safe s₀ (parentOfLoop fuel n prevNode currNode) (fun r s => r = NOT_FOUND ∨ Parental r s.graph) s := by
  induction fuel generalizing prevNode currNode s with
  | zero => exact .raise outOfFuel_safe
  | succ fuel ih =>
      refine .bind hs (plain_safe hcurr) fun a s₁ hs₁ hle₁ ha => .ite (fun ht => ?_) fun _ => .ite (fun _ => ?_) fun _ => ?_
      · refine .bind hs₁ (plain_safe (hle₁.allocated hn)) fun d s₂ hs₂ hle₂ _ => ?_
        have hr : s₂.graph.HasType currNode .route := hle₂.hasType (ht.2 ▸ ha.1.hasType)
        have hnext : ∀ side, Safe s₀ (load currNode (.child side) >>= fun q => parentOfLoop fuel n currNode q)
            (fun r s => r = NOT_FOUND ∨ Parental r s.graph) s₂ := fun side =>
          .bind hs₂ (loadChild_safe hr) fun q s₃ hs₃ hle₃ hq =>
            ih hs₃ (((hle₁.trans hle₂).trans hle₃).allocated hn) (.inr (hle₃.hasType hr)) hq
        exact .ite (fun _ => hnext .left) fun _ => hnext .right
      · exact .pure fun _ _ _ => .inl rfl
      · exact .pure fun s₂ hle _ => .inr (hprev.progress (hle₁.trans hle))

theorem parentOf_safe (fuel : ℕ) (hs : (safety s₀).Good s) (hn : s.Allocated n) :
    Safe s₀ (parentOf fuel n) (fun r s => r = NOT_FOUND ∨ Parental r s.graph) s :=
  .bind hs loadRoot_safe fun _ _ hs₁ hle₁ hroot => parentOfLoop_safe fuel hs₁ (hle₁.allocated hn) (.inl rfl) hroot

/-! ### Joins -/

theorem Decided.progress (h : Decided m s.graph) (hle : Progress s s') : Decided m s'.graph :=
  ⟨hle.hasType h.1, (hle.final m h.1 h.2).1⟩

/-- What is known of the result of `secure_join`. -/
def Secure (r : Ptr) (s : Shared) : Prop := r = nullptr ∨ Decided r s.graph

theorem abortJoin_safe (hs : (safety s₀).Good s) (hm : s.Allocated m) : Safe s₀ (abortJoin m) (fun r s => Secure r s) s :=
  .bind hs (Op.Simple.access (o := .store m .neigh2 ABORTED) trivial hm) fun _ _ _ _ _ => .pure fun _ _ _ => .inl rfl

theorem joinedParent_safe {otherb n1 gparent : Ptr} (hs : (safety s₀).Good s) (hn : s.graph.BaseNode n1)
    (hg : Parental gparent s.graph) : Safe s₀ (joinedParent otherb n1 gparent) (fun r s => Parental r s.graph) s := by
  refine .ite (fun _ => .pure fun s₁ hle _ => hg.progress hle) fun _ => ?_
  refine .bind hs (plain_safe hn.1) fun a s₁ _ hle₁ ha => .pure fun s₂ hle _ => ?_
  exact Parental.progress (ha.2.parent (ha.1.base (hle₁.baseNode hn))) hle

/-- The sizes of the treaps are those that have been checked before. -/
theorem mergeData_safe {n1 : Ptr} (side : Side) (hs : (safety s₀).Good s) (hm : s.graph.BaseNode m)
    (hn : s.graph.BaseNode n1) : Safe s₀ (mergeData m n1 side) (fun _ _ => True) s := by
  have hmerge : ∀ {p q : Ptr}, s.graph.BaseNode p → s.graph.BaseNode q →
      Safe s₀ (do fromPool (.merge (← dataOf p) (← dataOf q))) (fun _ _ => True) s := by
    intro p q hp hq
    refine .bind hs (dataOf_safe hs hp) fun l s₁ hs₁ hle₁ hl => ?_
    refine .bind hs₁ (dataOf_safe hs₁ (hle₁.baseNode hq)) fun r s₂ hs₂ _ hr => ?_
    exact treap_safe (o := .merge l r) hs₂ (fun _ => rfl) fun hsize => (hl.merge hr hsize).mono fun _ _ => trivial
  cases side with
  | left => exact hmerge hm hn
  | right => exact hmerge hn hm

/-- The compare-exchange that decides the join `m`. -/
theorem decide_safe {n2 : Ptr} {a : Plain} (hm : s.graph.HasType m .joinMain) (ha : Reads n2 a s.graph)
    (ht : a.type = .joinNeighbor) (hmain : a.mainNode = m) :
    Safe s₀ (cas m .neigh2 PREPARING n2) (fun ok s => ok = true → Decided m s.graph) s := by
  refine Op.Simple.safe (o := .cas m .neigh2 PREPARING n2) trivial hm.1 fun s' r s'' s₃ hle _ hexec hle' _ => ?_
  obtain ⟨_, he⟩ := onNode_ok hexec
  split_ifs at he <;> cases he
  · intro _
    have hread := hle.reads ha
    have hd : Decided m (s'.update m fun d => d.set .neigh2 n2).graph := by
      rw [graph_set]
      refine ⟨hle.hasType hm, .inl ?_⟩
      unfold Graph.Merged
      rw [Graph.get_set_self]
      exact ⟨⟨hread.1, (bare_type hread.2).trans ht⟩, (bare_mainNode hread.2).trans hmain⟩
    exact hd.progress hle'
  · exact fun h => by cases h

/-- The parent of a main node is a route node. -/
theorem mainParent_safe (hm : s.graph.HasType m .joinMain) : Safe s₀ (plain m) (fun a s => s.graph.HasType a.parent .route) s := by
  refine .mono (plain_safe hm.1) fun a s₁ hle _ ha => ?_
  have ht : a.type = .joinMain := (bare_type ha.1.2).symm.trans (hle.hasType hm).2
  exact (ha.2.parent (by rw [ht]; decide)).resolve_left (ha.2.inner ht)

theorem publishJoin_safe {n1 gparent : Ptr} (side : Side) (hs : (safety s₀).Good s) (hm : s.graph.HasType m .joinMain)
    (hn : s.graph.BaseNode n1) (hg : Parental gparent s.graph) :
    Safe s₀ (publishJoin m n1 side gparent) (fun r s => Secure r s) s := by
  have hassign : ∀ {f : PlainField} {x : Ptr} {s₁ : Shared}, Progress s s₁ →
      Safe s₀ (perform (.assign m f x)) (fun _ _ => True) s₁ := fun {f x s₁} hle =>
    Op.Simple.access (o := .assign m f x) trivial (hle.allocated hm.1)
  refine .bind hs (mainParent_safe hm) fun a s₁ hs₁ hle₁ hpar => .bind hs₁ (hassign hle₁) fun _ s₂ hs₂ hle₂ _ => ?_
  refine .bind hs₂ (load_safe (hle₂.allocated hpar.1)) fun otherb s₃ hs₃ hle₃ _ => ?_
  have hle₁₃ : Progress s s₃ := (hle₁.trans hle₂).trans hle₃
  refine .bind hs₃ (hassign hle₁₃) fun _ s₄ hs₄ hle₄ _ => .bind hs₄ (hassign (hle₁₃.trans hle₄)) fun _ s₅ hs₅ hle₅ _ => ?_
  have hle₁₅ : Progress s s₅ := (hle₁₃.trans hle₄).trans hle₅
  refine .bind hs₅ (joinedParent_safe hs₅ (hle₁₅.baseNode hn) (hg.progress hle₁₅)) fun joinedp s₆ hs₆ hle₆ hjoined => ?_
  have hle₁₆ : Progress s s₆ := hle₁₅.trans hle₆
  have hbase : s.graph.BaseNode m := hm.base (by decide)
  refine .bind hs₆ (copyOf_safe hs₆ (hle₁₆.allocated hn.1)) fun copy s₇ hs₇ hle₇ hcopy => ?_
  have hle₁₇ : Progress s s₇ := hle₁₆.trans hle₇
  refine .bind hs₇ (mergeData_safe side hs₇ (hle₁₇.baseNode hbase) (hle₁₇.baseNode hn)) fun merged s₇' hs₇' hle₇' _ => ?_
  have hle₁₇' : Progress s s₇' := hle₁₇.trans hle₇'
  refine .bind hs₇' (new_safe ?_) fun n2 s₈ hs₈ hle₈ hread => ?_
  · exact ⟨by simp, fun _ => by simp, fun _ => (hjoined.progress hle₇).progress hle₇', fun ht => (by cases ht),
      fun _ => hle₁₇'.hasType hm, (hcopy.2.progress hle₇').stat⟩
  have hle₁₈ : Progress s s₈ := hle₁₇'.trans hle₈
  refine .bind hs₈ (decide_safe (hle₁₈.hasType hm) hread rfl rfl) fun ok s₉ hs₉ hle₉ hok => .ite (fun h => ?_) fun _ => ?_
  · exact .pure fun s' hle _ => .inr ((hok h).progress hle)
  · -- the entries in the routes are taken back
    have hle₁₉ : Progress s s₉ := hle₁₈.trans hle₉
    have hgive : ∀ {q : Ptr} {s' : Shared}, s'.Allocated q → Safe s₀ (store q .joinId nullptr) (fun _ _ => True) s' :=
      fun {q s'} hq => Op.Simple.access (o := .store q .joinId nullptr) trivial hq
    have hlast : ∀ {s' : Shared}, (safety s₀).Good s' → Progress s₉ s' → Safe s₀ (do
        store a.parent .joinId nullptr
        abortJoin m) (fun r s => Secure r s) s' := by
      intro s' hs' hle
      have hpar' := ((((((((hle₂.trans hle₃).trans hle₄).trans hle₅).trans hle₆).trans hle₇).trans hle₇').trans hle₈).trans hle₉).trans hle
      refine .bind hs' (hgive (hpar'.allocated hpar.1)) fun _ s'' hs'' hle'' _ => abortJoin_safe hs'' ?_
      exact ((hle₁₉.trans hle).trans hle'').allocated hm.1
    refine .ite (fun hne => ?_) fun _ => hlast hs₉ (.refl _)
    have hgp := (hg.resolve_left hne).1
    exact .bind hs₉ (hgive (hle₁₉.allocated hgp)) fun _ s' hs' hle _ => hlast hs' hle

theorem enterJoin_safe (fuel : ℕ) {n1 : Ptr} (side : Side) (hs : (safety s₀).Good s) (hm : s.graph.HasType m .joinMain)
    (hn : s.graph.BaseNode n1) : Safe s₀ (enterJoin fuel m n1 side) (fun r s => Secure r s) s := by
  refine .bind hs (mainParent_safe hm) fun a s₁ hs₁ hle₁ hpar => ?_
  have hcas : ∀ {q : Ptr} {s' : Shared}, s'.Allocated q → Safe s₀ (cas q .joinId nullptr m) (fun _ _ => True) s' :=
    fun {q s'} hq => Op.Simple.access (o := .cas q .joinId nullptr m) trivial hq
  have hlast : ∀ {s' : Shared}, (safety s₀).Good s' → Progress s₁ s' → Safe s₀ (do
      store a.parent .joinId nullptr
      abortJoin m) (fun r s => Secure r s) s' := by
    intro s' hs' hle
    refine .bind hs' (Op.Simple.access (o := .store a.parent .joinId nullptr) trivial (hle.allocated hpar.1)) fun _ s'' hs'' hle'' _ => ?_
    exact abortJoin_safe hs'' (((hle₁.trans hle).trans hle'').allocated hm.1)
  have hpublish : ∀ {gparent : Ptr} {s' : Shared}, (safety s₀).Good s' → Progress s₁ s' → Parental gparent s'.graph →
      Safe s₀ (publishJoin m n1 side gparent) (fun r s => Secure r s) s' := fun hs' hle hg =>
    publishJoin_safe side hs' ((hle₁.trans hle).hasType hm) ((hle₁.trans hle).baseNode hn) hg
  refine .bind hs₁ (hcas hpar.1) fun _ s₂ hs₂ hle₂ _ => .ite (fun _ => ?_) fun _ => ?_
  · exact abortJoin_safe hs₂ ((hle₁.trans hle₂).allocated hm.1)
  refine .bind hs₂ (parentOf_safe fuel hs₂ (hle₂.allocated hpar.1)) fun gparent s₃ hs₃ hle₃ hg => ?_
  refine .ite (fun _ => hlast hs₃ (hle₂.trans hle₃)) fun hfound => ?_
  have hg₃ : Parental gparent s₃.graph := hg.resolve_left hfound
  refine .ite (fun hne => ?_) fun _ => hpublish hs₃ (hle₂.trans hle₃) hg₃
  refine .bind hs₃ (hcas (hg₃.resolve_left hne).1) fun _ s₄ hs₄ hle₄ _ => ?_
  have hle : Progress s₁ s₄ := (hle₂.trans hle₃).trans hle₄
  exact .ite (fun _ => hpublish hs₄ hle (hg₃.progress hle₄)) fun _ => hlast hs₄ hle

/-- A copy of a base node that becomes the main node of a join. -/
theorem newMain_safe (hs : (safety s₀).Good s) (hb : s.graph.BaseNode b)
    (hpar : ∀ s' a, Progress s s' → Reads b a s'.graph → a.parent ≠ nullptr) :
    Safe s₀ (newCopy b (fun n => { n with type := .joinMain })) (fun r s => s.graph.HasType r .joinMain) s := by
  refine .mono (newCopy_safe hs hb.1 fun d s' hle hread hd => ?_) fun r s' _ _ hr => ?_
  · have hbase := hread.base (hle.baseNode hb)
    exact ⟨by simp, fun _ => hd.data hbase, fun _ => hd.parent hbase, fun _ => hpar s' d.toPlain hle hread, fun ht => (by cases ht), hd.stat⟩
  · obtain ⟨d, _, hread⟩ := hr
    exact hread.hasType

/-- A copy of a base node that becomes the neighbor of the main node `m`. -/
theorem newNeighbor_safe (hs : (safety s₀).Good s) (hb : s.graph.BaseNode b) (hm : s.graph.HasType m .joinMain) :
    Safe s₀ (newCopy b (fun n => { n with type := .joinNeighbor, mainNode := m })) (fun r s => s.graph.BaseNode r) s := by
  refine .mono (newCopy_safe hs hb.1 fun d s' hle hread hd => ?_) fun r s' _ _ hr => ?_
  · have hbase := hread.base (hle.baseNode hb)
    exact ⟨by simp, fun _ => hd.data hbase, fun _ => hd.parent hbase, fun ht => (by cases ht), fun _ => hle.hasType hm, hd.stat⟩
  · obtain ⟨d, _, hread⟩ := hr
    exact hread.baseNode (by simp)

theorem secureJoin_safe (fuel : ℕ) (side : Side) (hs : (safety s₀).Good s) (hb : s.graph.BaseNode b)
    (hpar : (s.graph.plain b).parent ≠ nullptr) : Safe s₀ (secureJoin fuel b side) (fun r s => Secure r s) s := by
  have hparent : ∀ s' a, Progress s s' → Reads b a s'.graph → a.parent ≠ nullptr := fun s' a hle hread => by
    rw [← bare_parent hread.2, bare_parent (hle.bare b hb.1)]
    exact hpar
  refine .bind hs (plain_safe hb.1) fun a s₁ hs₁ hle₁ ha => ?_
  have hroute : s₁.graph.HasType a.parent .route :=
    (ha.2.parent (ha.1.base (hle₁.baseNode hb))).resolve_left (hparent s₁ a hle₁ ha.1)
  refine .bind hs₁ (loadChild_safe hroute) fun next s₂ hs₂ hle₂ hnext => ?_
  refine .bind hs₂ (outermost_safe side fuel hs₂ hnext) fun n0 s₃ hs₃ hle₃ hn0 => ?_
  refine .bind hs₃ (isReplaceable_safe hs₃ hn0.1) fun ok s₄ hs₄ hle₄ _ => .ite (fun _ => .pure fun _ _ _ => .inl rfl) fun _ => ?_
  have hle₁₄ : Progress s₁ s₄ := (hle₂.trans hle₃).trans hle₄
  have hn0₄ := hle₄.baseNode hn0
  refine .bind hs₄ (dataOf_safe hs₄ ((hle₁.trans hle₁₄).baseNode hb)) fun _ s₅ hs₅ hle₅ _ => ?_
  refine .bind hs₅ (dataOf_safe hs₅ (hle₅.baseNode hn0₄)) fun _ s₆ hs₆ hle₆ _ => .ite (fun _ => .pure fun _ _ _ => .inl rfl) fun _ => ?_
  have hle₁₆ : Progress s₁ s₆ := (hle₁₄.trans hle₅).trans hle₆
  have hle : Progress s s₆ := hle₁.trans hle₁₆
  refine .bind hs₆ (newMain_safe hs₆ (hle.baseNode hb) fun s' d hle' => hparent s' d (hle.trans hle')) fun m s₇ hs₇ hle₇ hm => ?_
  refine .bind hs₇ (Op.Simple.access (o := .cas a.parent (.child side) b m) trivial ((hle₁₆.trans hle₇).allocated hroute.1))
    fun _ s₈ hs₈ hle₈ _ => .ite (fun _ => .pure fun _ _ _ => .inl rfl) fun _ => ?_
  have hn0₈ := (((hle₅.trans hle₆).trans hle₇).trans hle₈).baseNode hn0₄
  have hm₈ := hle₈.hasType hm
  refine .bind hs₈ (newNeighbor_safe hs₈ hn0₈ hm₈) fun n1 s₉ hs₉ hle₉ hn1 => ?_
  refine .bind hs₉ (tryReplace_safe hs₉ (hle₉.baseNode hn0₈)) fun _ s' hs' hle' _ => .ite (fun _ => ?_) fun _ => ?_
  · exact abortJoin_safe hs' ((hle₉.trans hle').allocated hm₈.1)
  · exact enterJoin_safe fuel side hs' ((hle₉.trans hle').hasType hm₈) (hle'.baseNode hn1)

/-- What a decided join is entered in, and what it replaces. -/
theorem joined_of_good (hs : (safety s₀).Good s) (hd : Decided m s.graph) : ∃ g, Joined s.graph g m := by
  obtain ⟨g, hi⟩ := hs.known.1
  exact ⟨g, hi.joined m hd.1 hd.2⟩

theorem completeJoin_safe (hs : (safety s₀).Good s) (hd : Decided m s.graph) : Safe s₀ (completeJoin m) (fun _ _ => True) s := by
  have hstore : ∀ {s' : Shared}, Progress s s' → Safe s₀ (performBy m (.store m .neigh2 DONE)) (fun _ _ => True) s' := fun hle =>
    Op.Simple.access (o := .store m .neigh2 DONE) trivial (hle.allocated hd.1.1)
  refine .bind hs (load_safe hd.1.1) fun n2 s₁ hs₁ hle₁ _ => .ite (fun _ => .pure fun _ _ _ => trivial) fun _ => ?_
  refine .bind hs₁ (mainNode_safe (hle₁.hasType hd.1) (hd.progress hle₁).2) fun a s₂ hs₂ hle₂ ha => ?_
  have hle₁₂ : Progress s s₂ := hle₁.trans hle₂
  obtain ⟨g, hj⟩ := joined_of_good hs₂ (hd.progress hle₁₂)
  obtain ⟨hpar, hover, _, _, hneigh, _⟩ := hj
  rw [ha.2] at hpar hneigh
  have hgrand : a.gparent ≠ nullptr → s₂.Allocated a.gparent := fun hne =>
    hover (.child a.gparent .left) ⟨congrArg Plain.gparent ha.2, hne⟩
  refine .bind hs₂ (tryReplace_safe hs₂ hneigh) fun _ s₃ hs₃ hle₃ _ => ?_
  refine .bind hs₃ (Op.Simple.access (o := .storeValid a.parent false) trivial (hle₃.allocated hpar.1)) fun _ s₄ hs₄ hle₄ _ => ?_
  have hle₂₄ : Progress s₂ s₄ := hle₃.trans hle₄
  refine .ite (fun _ => ?_) fun hne => ?_
  · refine .bind hs₄ (Op.Simple.access (o := .casRoot a.parent _) trivial trivial) fun _ s₅ _ hle₅ _ => ?_
    exact hstore ((hle₁₂.trans hle₂₄).trans hle₅)
  · have hg := hgrand hne
    have hunlink : ∀ {side : Side} {x : Ptr} {s' : Shared}, (safety s₀).Good s' → Progress s₂ s' → Safe s₀ (do
        let _ ← performBy m (.cas a.gparent (.child side) a.parent x)
        let _ ← performBy m (.cas a.gparent .joinId m nullptr)
        performBy m (.store m .neigh2 DONE)) (fun _ _ => True) s' := by
      intro side x s' hs' hle
      refine .bind hs' (Op.Simple.access (o := .cas a.gparent (.child side) a.parent x) trivial (hle.allocated hg))
        fun _ s'' hs'' hle'' _ => ?_
      refine .bind hs'' (Op.Simple.access (o := .cas a.gparent .joinId m nullptr) trivial ((hle.trans hle'').allocated hg))
        fun _ s₅ _ hle₅ _ => ?_
      exact hstore (((hle₁₂.trans hle).trans hle'').trans hle₅)
    refine .bind hs₄ (load_safe (hle₂₄.allocated hg)) fun _ s₅ hs₅ hle₅ _ => .ite (fun _ => hunlink hs₅ (hle₂₄.trans hle₅)) fun _ => ?_
    refine .bind hs₅ (load_safe ((hle₂₄.trans hle₅).allocated hg)) fun _ s₆ hs₆ hle₆ _ => ?_
    have hle : Progress s₂ s₆ := (hle₂₄.trans hle₅).trans hle₆
    exact .ite (fun _ => hunlink hs₆ hle) fun _ => hstore (hle₁₂.trans hle)

theorem lowContentionAdaptation_safe (fuel : ℕ) (hs : (safety s₀).Good s) (hb : s.graph.BaseNode b) :
    Safe s₀ (lowContentionAdaptation fuel b) (fun _ _ => True) s := by
  refine .bind hs (plain_safe hb.1) fun a s₁ hs₁ hle₁ ha => .ite (fun _ => .pure fun _ _ _ => trivial) fun hne => ?_
  have hroute : s₁.graph.HasType a.parent .route := (ha.2.parent (ha.1.base (hle₁.baseNode hb))).resolve_left hne
  have hjoin : ∀ {side : Side} {s' : Shared}, (safety s₀).Good s' → Progress s₁ s' → Safe s₀ (do
      let m ← secureJoin fuel b side
      if m ≠ nullptr then completeJoin m else return ()) (fun _ _ => True) s' := by
    intro side s' hs' hle
    have hpar : (s'.graph.plain b).parent ≠ nullptr := by
      rw [bare_parent (hle.reads ha.1).2]
      exact hne
    refine .bind hs' (secureJoin_safe fuel side hs' ((hle₁.trans hle).baseNode hb) hpar) fun m s'' hs'' _ hm => ?_
    exact .ite (fun hne => completeJoin_safe hs'' (hm.resolve_left hne)) fun _ => .pure fun _ _ _ => trivial
  refine .bind hs₁ (load_safe hroute.1) fun _ s₂ hs₂ hle₂ _ => .ite (fun _ => hjoin hs₂ hle₂) fun _ => ?_
  refine .bind hs₂ (load_safe (hle₂.allocated hroute.1)) fun _ s₃ hs₃ hle₃ _ => .ite (fun _ => hjoin hs₃ (hle₂.trans hle₃)) fun _ => ?_
  exact .pure fun _ _ _ => trivial

/-! ### Splits -/

theorem splitNodes_proper {splitVal : ℤ} {left right : Treap} {r : Ptr} (hr : v.HasType r .route) {d : Node}
    (hd : d ∈ splitNodes splitVal left right r) : Proper v d.toPlain := by
  have hzero : StatBound 0 := by
    unfold StatBound
    decide
  simp only [splitNodes, List.mem_cons, List.not_mem_nil, or_false] at hd
  rcases hd with rfl | rfl | rfl
  · exact ⟨by simp, fun h => absurd rfl h, fun h => absurd rfl h, fun h => (by cases h), fun h => (by cases h), hzero⟩
  · exact ⟨by simp, fun _ => by simp, fun _ => .inr hr, fun h => (by cases h), fun h => (by cases h), hzero⟩
  · exact ⟨by simp, fun _ => by simp, fun _ => .inr hr, fun h => (by cases h), fun h => (by cases h), hzero⟩

theorem highContentionAdaptation_safe (hs : (safety s₀).Good s) (hb : s.graph.BaseNode b) :
    Safe s₀ (highContentionAdaptation b) (fun _ _ => True) s := by
  refine .bind hs (dataOf_safe hs hb) fun data s₁ hs₁ hle₁ hdata => .ite (fun _ => .pure fun _ _ _ => trivial) fun _ => ?_
  refine .bind hs₁ (node_safe hs₁) fun _ s₂ hs₂ hle₂ _ => ?_
  refine .bind hs₂ (treap_safe (o := .split data) (Q := fun _ => True) hs₂ (fun _ => rfl) fun hne =>
    (hdata.split hne).mono fun _ _ => trivial) fun parts s₃ hs₃ hle₃ _ => ?_
  obtain ⟨splitVal, left, right⟩ := parts
  refine .bind hs₃ (node_safe hs₃) fun _ s₄ hs₄ hle₄ _ => .bind hs₄ (node_safe hs₄) fun _ s₅ hs₅ hle₅ _ => ?_
  have hle : Progress s s₅ := (((hle₁.trans hle₂).trans hle₃).trans hle₄).trans hle₅
  refine .bind hs₅ (news_safe fun s' s'' _ _ _ hreads d hd => ?_) fun r s₆ hs₆ hle₆ _ => ?_
  · have hroute := (hreads 0 _ rfl).hasType
    exact splitNodes_proper hroute hd
  · exact .bind hs₆ (tryReplace_safe hs₆ ((hle.trans hle₆).baseNode hb)) fun _ _ _ _ _ => .pure fun _ _ _ => trivial

theorem adaptIfNeeded_safe (fuel : ℕ) (hs : (safety s₀).Good s) (hb : s.graph.BaseNode b) :
    Safe s₀ (adaptIfNeeded fuel b) (fun _ _ => True) s := by
  refine .bind hs (isReplaceable_safe hs hb.1) fun _ s₁ hs₁ hle₁ _ => .ite (fun _ => .pure fun _ _ _ => trivial) fun _ => ?_
  have hb₁ := hle₁.baseNode hb
  refine .bind hs₁ (newStat_safe _ hs₁ hb₁.1) fun _ s₂ hs₂ hle₂ _ => .ite (fun _ => ?_) fun _ => ?_
  · exact highContentionAdaptation_safe hs₂ (hle₂.baseNode hb₁)
  have hb₂ := hle₂.baseNode hb₁
  refine .bind hs₂ (newStat_safe _ hs₂ hb₂.1) fun _ s₃ hs₃ hle₃ _ => .ite (fun _ => ?_) fun _ => .pure fun _ _ _ => trivial
  exact lowContentionAdaptation_safe fuel hs₃ (hle₃.baseNode hb₂)

/-! ### Range queries and helping -/

theorem newRangeBase_safe {lo hi : ℤ} {r : Ptr} (hs : (safety s₀).Good s) (hb : s.graph.BaseNode b) :
    Safe s₀ (newRangeBase b lo hi r) (fun q s => s.graph.BaseNode q) s := by
  refine .mono (newCopy_safe hs hb.1 fun d s' _ _ hd => ?_) fun q s' hle _ hq => ?_
  · exact ⟨hd.type, hd.data, hd.parent, hd.inner, hd.mainNode, hd.stat⟩
  · obtain ⟨d, hread, hcopy⟩ := hq
    exact hcopy.baseNode (hread.base (hle.baseNode hb))

/-- The base nodes a range query has been to. -/
def Visited (done : List Ptr) (s : Shared) : Prop := ∀ b ∈ done, s.graph.BaseNode b

theorem Visited.progress {done : List Ptr} (h : Visited done s) (hle : Progress s s') : Visited done s' := fun b hb => hle.baseNode (h b hb)

theorem Visited.add {done : List Ptr} (h : Visited done s) (hb : s.graph.BaseNode b) : Visited (done ++ [b]) s := by
  intro q hq
  rcases List.mem_append.mp hq with hq | hq
  · exact h q hq
  · rw [List.mem_singleton.mp hq]
    exact hb

theorem collectValues_safe (lo hi : ℤ) {done : List Ptr} (hs : (safety s₀).Good s) (hdone : Visited done s) :
    Safe s₀ (collectValues lo hi done) (fun _ _ => True) s := by
  induction done generalizing s with
  | nil => exact .pure fun _ _ _ => trivial
  | cons b done ih =>
      refine .bind hs (dataOf_safe hs (hdone b (List.mem_cons_self ..))) fun t s₁ hs₁ hle₁ ht => ?_
      obtain ⟨vs, hvs⟩ := ht.rangeQuery lo hi
      rw [hvs]
      have hrest : Visited done s₁ := fun q hq => hle₁.baseNode (hdone q (List.mem_cons_of_mem _ hq))
      refine .bind hs₁ ret_safe fun _ s₂ hs₂ hle₂ _ => ?_
      exact .bind hs₂ (ih hs₂ (hrest.progress hle₂)) fun _ _ _ _ _ => .pure fun _ _ _ => trivial

/-- A result that is set stays set. -/
theorem loadResult_safe (hp : s.AllocatedStore p) :
    Safe s₀ (loadResult p) (fun r s => r ≠ none → (s.stores p).result ≠ none) s := by
  refine Op.Simple.safe (o := .loadResult p) trivial hp fun s' r s'' s₃ _ _ hexec hle _ hr => ?_
  cases onStore_ok hexec
  exact hle.results p hr

theorem derefResult_safe (hs : (safety s₀).Good s) (hp : s.AllocatedStore p) (hset : (s.stores p).result ≠ none) :
    Safe s₀ (derefResult p) (fun _ _ => True) s := by
  have hload : Safe s₀ (loadResult p) (fun r _ => r ≠ none) s := by
    refine Op.Simple.safe (o := .loadResult p) trivial hp fun s' r s'' s₃ hle _ hexec _ _ => ?_
    cases onStore_ok hexec
    exact hle.results p hset
  refine .bind hs hload fun r s₁ _ _ hr => ?_
  cases r with
  | none => exact absurd rfl hr
  | some values => exact .pure fun _ _ _ => trivial

/-- After an attempt to set a result it is set. -/
theorem casResult_safe {values : List ℤ} (hp : s.AllocatedStore p) :
    Safe s₀ (casResult p values) (fun _ s => (s.stores p).result ≠ none) s := by
  refine Op.Simple.safe (o := .casResult p values) trivial hp fun s' r s'' s₃ _ _ hexec hle _ => hle.results p ?_
  have he := onStore_ok hexec
  split at he
  · cases he
    simp [Shared.updateStore]
  · rename_i hsome
    cases he
    rw [hsome]
    simp

theorem publishResult_safe (lo hi : ℤ) {myS : Ptr} {done : List Ptr} (hs : (safety s₀).Good s) (hmyS : s.AllocatedStore myS)
    (hdone : Visited done s) : Safe s₀ (publishResult lo hi myS done) (fun _ _ => True) s := by
  refine .bind hs (collectValues_safe lo hi hs hdone) fun res s₁ hs₁ hle₁ _ => ?_
  have hmyS₁ := hle₁.allocatedStore hmyS
  refine .bind hs₁ (casResult_safe hmyS₁) fun ok s₂ hs₂ hle₂ hset => ?_
  have hmyS₂ := hle₂.allocatedStore hmyS₁
  refine .ite (fun _ => .ite (fun _ => ?_) fun _ => ?_) fun _ => derefResult_safe hs₂ hmyS₂ hset
  · refine .bind hs₂ (Op.Simple.access (o := .storeMore myS true) trivial hmyS₂) fun _ s₃ hs₃ hle₃ _ => ?_
    exact derefResult_safe hs₃ (hle₃.allocatedStore hmyS₂) (hle₃.results myS hset)
  · exact derefResult_safe hs₂ hmyS₂ hset

/-- A merged node that has been read belongs to a join that is on. -/
theorem loadDecision_safe (hm : s.graph.HasType m .joinMain) :
    Safe s₀ (load m .neigh2) (fun r s => r > ABORTED → Decided m s.graph) s := by
  refine Op.Simple.safe (o := .load m .neigh2) trivial hm.1 fun s' r s'' s₃ hle hs' hexec hle' _ hgt => ?_
  obtain ⟨_, he⟩ := onNode_ok hexec
  cases he
  obtain ⟨g, hi⟩ := hs'.known.1
  refine Decided.progress ⟨hle.hasType hm, (hi.phase m (hle.hasType hm)).resolve_left fun hu => ?_⟩ hle'
  have hget : s'.graph.get m .neigh2 > ABORTED := hgt
  rcases hu with he | he <;> rw [he] at hget <;> exact absurd hget (by decide)

theorem helpJoin_safe (hs : (safety s₀).Good s) (hm : s.graph.HasType m .joinMain) : Safe s₀ (do
      if (← load m .neigh2) = PREPARING then do
        let _ ← cas m .neigh2 PREPARING ABORTED
      else if (← load m .neigh2) > ABORTED then completeJoin m
      else return ()) (fun _ _ => True) s := by
  refine .bind hs (load_safe hm.1) fun _ s₁ hs₁ hle₁ _ => .ite (fun _ => ?_) fun _ => ?_
  · refine .bind hs₁ (Op.Simple.access (o := .cas m .neigh2 PREPARING ABORTED) trivial (hle₁.allocated hm.1)) fun _ _ _ _ _ => ?_
    exact .pure fun _ _ _ => trivial
  · refine .bind hs₁ (loadDecision_safe (hle₁.hasType hm)) fun _ s₂ hs₂ _ hd => .ite (fun hgt => ?_) fun _ => .pure fun _ _ _ => trivial
    exact completeJoin_safe hs₂ (hd hgt)

/-- The walk of `all_in_range` and the helps it calls, which call it again. -/
theorem walk_safe (fuel : ℕ) :
    (∀ n s, (safety s₀).Good s → s.Allocated n → Safe s₀ (helpIfNeeded fuel n) (fun _ _ => True) s) ∧
    (∀ lo hi s, (safety s₀).Good s → Safe s₀ (allInRange fuel lo hi nullptr) (fun _ _ => True) s) ∧
    (∀ lo hi myS b c st done s, (safety s₀).Good s → s.AllocatedStore myS → s.graph.BaseNode b → BaseStack c st s → Visited done s →
      Safe s₀ (findRemaining fuel lo hi myS b st done) (fun _ _ => True) s) ∧
    ∀ lo hi myS c backup c' st done s, (safety s₀).Good s → s.AllocatedStore myS → BaseStack c backup s → BaseStack c' st s →
      Visited done s → Safe s₀ (findNextBaseNode fuel lo hi myS backup st done) (fun _ _ => True) s := by
  induction fuel with
  | zero =>
      refine ⟨fun _ _ _ _ => ?_, fun _ _ _ _ => ?_, fun _ _ _ _ _ _ _ _ _ _ _ _ _ => ?_, fun _ _ _ _ _ _ _ _ _ _ _ _ _ _ => ?_⟩
      · unfold helpIfNeeded
        exact .raise outOfFuel_safe
      · unfold allInRange
        exact .raise outOfFuel_safe
      · unfold findRemaining
        exact .raise outOfFuel_safe
      · unfold findNextBaseNode
        exact .raise outOfFuel_safe
  | succ fuel ih =>
      obtain ⟨hhelp, hrange, hrest, hnext⟩ := ih
      refine ⟨fun n s hs hn => ?_, fun lo hi s hs => ?_, fun lo hi myS b c st done s hs hmyS hb hst hdone => ?_,
        fun lo hi myS c backup c' st done s hs hmyS hbackup hst hdone => ?_⟩
      · unfold helpIfNeeded
        refine .bind hs (plain_safe hn) fun a s₁ hs₁ hle₁ ha => ?_
        have hmain : s₁.Allocated (if a.type = .joinNeighbor then a.mainNode else n) := by
          split_ifs with ht
          · exact (ha.2.mainNode ht).1
          · exact ha.1.1
        generalize (if a.type = .joinNeighbor then a.mainNode else n) = m at hmain
        refine .bind hs₁ (plain_safe hmain) fun d s₂ hs₂ hle₂ hd => ?_
        split
        · rename_i ht
          exact helpJoin_safe hs₂ (ht ▸ hd.1.hasType)
        · rename_i ht
          exact absurd ht hd.2.type
        · exact .pure fun _ _ _ => trivial
      · unfold allInRange
        refine .bind hs loadRoot_safe fun root s₁ hs₁ hle₁ hroot => ?_
        refine .bind hs₁ (findBaseStackLoop_safe fuel lo hs₁ (fun q hq => by cases hq) hroot) fun found s₂ hs₂ hle₂ hst => ?_
        obtain ⟨b, st⟩ := found
        have hb := hst.base
        refine .bind hs₂ (plain_safe hb.1) fun a s₃ hs₃ hle₃ ha => ?_
        refine .ite (fun hne => absurd rfl hne) fun _ => ?_
        refine .bind hs₃ (isReplaceable_safe hs₃ (hle₃.allocated hb.1)) fun _ s₄ hs₄ hle₄ _ => .ite (fun _ => ?_) fun _ => ?_
        · refine .bind hs₄ (newRs_safe hs₄) fun myS s₅ hs₅ hle₅ hmyS => ?_
          have hle : Progress s₂ s₅ := (hle₃.trans hle₄).trans hle₅
          refine .bind hs₅ (newRangeBase_safe hs₅ (hle.baseNode hb)) fun n s₆ hs₆ hle₆ hn => ?_
          have hle' : Progress s₂ s₆ := hle.trans hle₆
          refine .bind hs₆ (tryReplace_safe hs₆ (hle'.baseNode hb)) fun _ s₇ hs₇ hle₇ _ => .ite (fun _ => hrange _ _ _ hs₇) fun _ => ?_
          have hst₇ := ((hst.progress (hle'.trans hle₇))).replaceTop (hle₇.baseNode hn)
          exact hrest _ _ _ _ _ _ _ _ hs₇ ((hle₆.trans hle₇).allocatedStore hmyS) ((hle'.trans hle₇).baseNode hb) hst₇
            fun q hq => by cases hq
        · refine .ite (fun hr => absurd hr.1 ha.2.type) fun _ => ?_
          exact .bind hs₄ (hhelp _ _ hs₄ ((hle₃.trans hle₄).allocated hb.1)) fun _ s₅ hs₅ _ _ => hrange _ _ _ hs₅
      · unfold findRemaining
        refine .bind hs (dataOf_safe hs hb) fun t s₁ hs₁ hle₁ ht => ?_
        have hdone₁ : Visited (done ++ [b]) s₁ := (hdone.add hb).progress hle₁
        have hmyS₁ := hle₁.allocatedStore hmyS
        have hst₁ := hst.progress hle₁
        refine .ite (fun hne => ?_) fun _ => hnext _ _ _ _ _ _ _ _ _ hs₁ hmyS₁ hst₁ hst₁ hdone₁
        obtain ⟨top, htop⟩ := ht.getMaxValue hne
        rw [htop]
        refine .bind hs₁ ret_safe fun _ s₂ hs₂ hle₂ _ => ?_
        have hmyS₂ := hle₂.allocatedStore hmyS₁
        have hst₂ := hst₁.progress hle₂
        refine .ite (fun _ => ?_) fun _ => hnext _ _ _ _ _ _ _ _ _ hs₂ hmyS₂ hst₂ hst₂ (hdone₁.progress hle₂)
        exact publishResult_safe lo hi hs₂ hmyS₂ (hdone₁.progress hle₂)
      · unfold findNextBaseNode
        refine .bind hs (findNextBaseStack_safe fuel hs hst) fun found s₁ hs₁ hle₁ hfound => ?_
        obtain ⟨b, st'⟩ := found
        have hmyS₁ := hle₁.allocatedStore hmyS
        refine .ite (fun _ => publishResult_safe lo hi hs₁ hmyS₁ (hdone.progress hle₁)) fun hne => ?_
        have hst₁ : BaseStack b st' s₁ := hfound.resolve_left hne
        refine .bind hs₁ (loadResult_safe hmyS₁) fun r s₂ hs₂ hle₂ hr => ?_
        have hmyS₂ := hle₂.allocatedStore hmyS₁
        refine .ite (fun hsome => derefResult_safe hs₂ hmyS₂ (hr (Option.isSome_iff_ne_none.mp hsome))) fun _ => ?_
        have hb := hle₂.baseNode hst₁.base
        refine .bind hs₂ (plain_safe hb.1) fun a s₃ hs₃ hle₃ ha => .ite (fun hr => absurd hr.1 ha.2.type) fun _ => ?_
        refine .bind hs₃ (isReplaceable_safe hs₃ ha.1.1) fun _ s₄ hs₄ hle₄ _ => .ite (fun _ => ?_) fun _ => ?_
        · have hle₂₄ : Progress s₂ s₄ := hle₃.trans hle₄
          refine .bind hs₄ (newRangeBase_safe hs₄ (hle₂₄.baseNode hb)) fun n s₅ hs₅ hle₅ hn => ?_
          refine .bind hs₅ (tryReplace_safe hs₅ ((hle₂₄.trans hle₅).baseNode hb)) fun _ s₆ hs₆ hle₆ _ => ?_
          have hle₂₆ : Progress s₂ s₆ := (hle₂₄.trans hle₅).trans hle₆
          have hle₆' : Progress s s₆ := (hle₁.trans hle₂).trans hle₂₆
          refine .ite (fun _ => ?_) fun _ => ?_
          · exact hrest _ _ _ _ _ _ _ _ hs₆ (hle₂₆.allocatedStore hmyS₂) (hle₂₆.baseNode hb)
              ((hst₁.progress (hle₂.trans hle₂₆)).replaceTop (hle₆.baseNode hn)) (hdone.progress hle₆')
          · exact hnext _ _ _ _ _ _ _ _ _ hs₆ (hle₂₆.allocatedStore hmyS₂) (hbackup.progress hle₆') (hbackup.progress hle₆')
              (hdone.progress hle₆')
        · refine .bind hs₄ (hhelp _ _ hs₄ (hle₄.allocated ha.1.1)) fun _ s₅ hs₅ hle₅ _ => ?_
          have hle₂₅ : Progress s₂ s₅ := (hle₃.trans hle₄).trans hle₅
          have hle' : Progress s s₅ := (hle₁.trans hle₂).trans hle₂₅
          exact hnext _ _ _ _ _ _ _ _ _ hs₅ (hle₂₅.allocatedStore hmyS₂) (hbackup.progress hle') (hbackup.progress hle')
            (hdone.progress hle')

/-! ### Calls -/

/-- The function an update applies to the treap of a base node. -/
def SafeUpdate (s₀ : Shared) (u : Treap → ℤ → LfcaM (Treap × Bool)) : Prop :=
  ∀ t i s, (safety s₀).Good s → t.Sound → Safe s₀ (u t i) (fun _ _ => True) s

theorem treapInsert_safe : SafeUpdate s₀ treapInsert := by
  intro t i s hs ht
  refine .bind hs (treap_safe (o := .insert t i) (Q := fun _ => True) hs (fun _ => rfl) fun hsize =>
    (ht.insert i hsize).mono fun _ _ => trivial) fun _ _ _ _ _ => .pure fun _ _ _ => trivial

theorem treapRemove_safe : SafeUpdate s₀ treapRemove := fun t i _ hs ht =>
  treap_safe (o := .remove t i) hs (fun _ => rfl) fun _ => (ht.remove i).mono fun _ _ => trivial

theorem updateLoop_safe {β : Type} {u : Treap → ℤ → LfcaM (Treap × Bool)} {placed : ℕ → Ptr → Bool → LfcaM β}
    (hu : SafeUpdate s₀ u) (i : ℤ) (hplaced : ∀ fuel newb res s, (safety s₀).Good s → s.graph.BaseNode newb →
      Safe s₀ (placed fuel newb res) (fun _ _ => True) s) (fuel : ℕ) (info : ContentionInfo) (hs : (safety s₀).Good s) :
    Safe s₀ (updateLoop u i placed fuel info) (fun _ _ => True) s := by
  induction fuel generalizing info s with
  | zero => exact .raise outOfFuel_safe
  | succ fuel ih =>
      refine .bind hs loadRoot_safe fun root s₁ hs₁ _ hroot => ?_
      refine .bind hs₁ (findBaseNode_safe fuel i hs₁ hroot) fun base s₂ hs₂ _ hbase => ?_
      refine .bind hs₂ (dataOf_safe hs₂ hbase) fun t s₃ hs₃ hle₃ ht => .ite (fun _ => ?_) fun _ => ?_
      · exact .bind hs₃ (highContentionAdaptation_safe hs₃ (hle₃.baseNode hbase)) fun _ s₄ hs₄ _ _ => ih _ hs₄
      have hbase₃ := hle₃.baseNode hbase
      have hagain : ∀ {s' : Shared}, (safety s₀).Good s' → Progress s₃ s' → Safe s₀ (do
          helpIfNeeded fuel base
          updateLoop u i placed fuel .contended) (fun _ _ => True) s' := fun hs' hle =>
        .bind hs' ((walk_safe fuel).1 base _ hs' (hle.allocated hbase₃.1)) fun _ s'' hs'' _ _ => ih _ hs''
      refine .bind hs₃ (isReplaceable_safe hs₃ hbase₃.1) fun _ s₄ hs₄ hle₄ _ => .ite (fun _ => ?_) fun _ => hagain hs₄ hle₄
      refine .bind hs₄ (node_safe hs₄) fun _ s₄' hs₄' hle₄' _ => ?_
      have hle₃₄ : Progress s₃ s₄' := hle₄.trans hle₄'
      refine .bind hs₄' (plain_safe (hle₃₄.allocated hbase₃.1)) fun a s₅ hs₅ hle₅ ha => ?_
      refine .bind hs₅ (hu t i s₅ hs₅ ht) fun r s₆ hs₆ hle₆ _ => ?_
      have hle₃₆ : Progress s₃ s₆ := (hle₃₄.trans hle₅).trans hle₆
      refine .bind hs₆ (newStat_safe info hs₆ (hle₃₆.allocated hbase₃.1)) fun stat s₇ hs₇ hle₇ hstat => ?_
      have hpar : Parental a.parent s₇.graph :=
        Parental.progress (ha.2.parent (ha.1.base ((hle₃₄.trans hle₅).baseNode hbase₃))) (hle₆.trans hle₇)
      have hnew : Proper s₇.graph ({ type := .normal, parent := a.parent, data := some r.1, stat := stat } : Node).toPlain :=
        ⟨by simp, fun _ => by simp, fun _ => hpar, fun h => (by cases h), fun h => (by cases h), hstat⟩
      refine .bind hs₇ (new_safe hnew) fun newb s₈ hs₈ hle₈ hnewb => ?_
      have hle₃₈ : Progress s₃ s₈ := (hle₃₆.trans hle₇).trans hle₈
      refine .bind hs₈ (tryReplace_safe hs₈ (hle₃₈.baseNode hbase₃)) fun _ s₉ hs₉ hle₉ _ => .ite (fun _ => ?_) fun _ => ?_
      · exact hplaced fuel newb r.2 _ hs₉ (hle₉.baseNode (hnewb.baseNode (by simp)))
      · exact hagain hs₉ (hle₃₈.trans hle₉)

theorem doUpdateLoop_safe {u : Treap → ℤ → LfcaM (Treap × Bool)} (hu : SafeUpdate s₀ u) (i : ℤ) (fuel : ℕ)
    (info : ContentionInfo) (hs : (safety s₀).Good s) : Safe s₀ (doUpdateLoop u i fuel info) (fun _ _ => True) s :=
  updateLoop_safe hu i (fun fuel _ _ _ hs' hb => .bind hs' (adaptIfNeeded_safe fuel hs' hb) fun _ _ _ _ _ => .pure fun _ _ _ => trivial)
    fuel info hs

theorem lookup_safe (fuel : ℕ) (i : ℤ) (hs : (safety s₀).Good s) : Safe s₀ (lookup fuel i) (fun _ _ => True) s := by
  refine .bind hs loadRoot_safe fun root s₁ hs₁ _ hroot => ?_
  refine .bind hs₁ (findBaseNode_safe fuel i hs₁ hroot) fun base s₂ hs₂ _ hbase => ?_
  refine .bind hs₂ (dataOf_safe hs₂ hbase) fun t _ _ _ ht => ?_
  obtain ⟨found, hfound⟩ := ht.contains i
  rw [hfound]
  exact .pure fun _ _ _ => trivial

theorem body_safe (fuel : ℕ) (c : Call) (hs : (safety s₀).Good s) : Safe s₀ (body fuel c) (fun _ _ => True) s := by
  have hdone : ∀ {α : Type} {p : LfcaM α} {f : α → Result}, Safe s₀ p (fun _ _ => True) s →
      Safe s₀ (p >>= fun a => pure (f a)) (fun _ _ => True) s :=
    fun h => .bind hs h fun _ _ _ _ _ => .pure fun _ _ _ => trivial
  cases c with
  | insert i =>
      have hupdate : Safe s₀ (insert fuel i) (fun _ _ => True) s :=
        .bind hs (doUpdateLoop_safe treapInsert_safe i fuel _ hs) fun _ _ _ _ _ => .pure fun _ _ _ => trivial
      exact .bind hs hupdate fun _ _ _ _ _ => .pure fun _ _ _ => trivial
  | remove i => exact hdone (doUpdateLoop_safe treapRemove_safe i fuel _ hs)
  | lookup i => exact hdone (lookup_safe fuel i hs)
  | rangeQuery lo hi => exact hdone ((walk_safe fuel).2.1 lo hi _ hs)

/-! ### Runs -/

/-- The tasks of the protocol; only nodes there are can be helped. -/
def Task.Sensible (s : Shared) : Task → Prop
  | .help n => s.Allocated n
  | c => c.Allowed s

instance (s : Shared) : (c : Task) → Decidable (c.Sensible s)
  | .help _ => inferInstanceAs (Decidable (_ ∧ _))
  | .join b => inferInstanceAs (Decidable ((Task.join b).Allowed s))
  | .split b => inferInstanceAs (Decidable ((Task.split b).Allowed s))
  | .call _ => inferInstanceAs (Decidable True)

theorem Task.Sensible.allowed {c : Task} (h : c.Sensible s) : c.Allowed s := by
  cases c with
  | help n => trivial
  | call | join | split => exact h

theorem taskBody_safe (c : ℕ × Task) (hs : (safety s₀).Good s) (hc : c.2.Sensible s) :
    Safe s₀ (taskBody c) (fun _ _ => True) s := by
  obtain ⟨fuel, c⟩ := c
  cases c with
  | call c => exact body_safe fuel c hs
  | join b =>
      have hb : s.graph.BaseNode b := ⟨hc.1, fun ht => by cases hc.2.symm.trans ht⟩
      exact .bind hs (lowContentionAdaptation_safe fuel hs hb) fun _ _ _ _ _ => .pure fun _ _ _ => trivial
  | split b => exact .bind hs (highContentionAdaptation_safe hs hc) fun _ _ _ _ _ => .pure fun _ _ _ => trivial
  | help n => exact .bind hs ((walk_safe fuel).1 n _ hs hc) fun _ _ _ _ _ => .pure fun _ _ _ => trivial

/-- The steps of any number of threads, each running one sensible task at a time. -/
def SensibleStep (cfg : Cfg) (e : Ev) (cfg' : Cfg) : Prop :=
  Step exec taskBody cfg e cfg' ∧ ∀ t c, e = .invoke t c → c.2.Sensible cfg.shared

theorem SensibleStep.task {cfg cfg' : Cfg} {e : Ev} (h : SensibleStep cfg e cfg') : TaskStep cfg e cfg' :=
  taskStep_of_step (fun t c he => decide_eq_true (h.2 t c he).allowed) h.1

theorem Initial.wellMade (h : Initial s) : WellMade s := by
  refine ⟨fun p hp => ?_, h.nextStore.ge⟩
  have hplain : s.graph.plain firstPtr = ({ type := .normal, data := some Treap.empty } : Node).toPlain := congrArg Node.toPlain h.node
  rw [h.allocated hp, hplain]
  have hzero : StatBound 0 := by
    unfold StatBound
    decide
  exact ⟨by simp, fun _ => by simp, fun _ => .inl rfl, fun h => (by cases h), fun h => (by cases h), hzero⟩

section Runs

variable {ls : List Ev} {cfg : Cfg}

theorem run_task (h : Transition.Run SensibleStep (.idle s) ls cfg) : Transition.Run TaskStep (.idle s) ls cfg := by
  rw [← List.map_id ls]
  exact h.relabel fun _ _ _ hstep => hstep.task

theorem run_step (h : Transition.Run SensibleStep (.idle s) ls cfg) : Transition.Run (Step exec taskBody) (.idle s) ls cfg := by
  rw [← List.map_id ls]
  exact h.relabel fun _ _ _ hstep => hstep.1

theorem run_safe (hi : Initial s) (h : Transition.Run SensibleStep (.idle s) ls cfg) :
    (safety s).Good cfg.shared ∧ ∀ t c p, cfg.threads t = some (c, p) → Safe s p (fun _ _ => True) cfg.shared := by
  refine Discipline.run SensibleStep (fun c s => c.2.Sensible s) (fun h => h) (fun c s' hs' hc => taskBody_safe c hs' hc)
    (fun hrun => ⟨⟨?_, ?_⟩, fun t c a k ht => ?_⟩) (fun hrun hlast => step_spares hi (run_task hrun) hlast.task) hi.wellMade h
  · obtain ⟨g, hP⟩ := run_holds hi (run_task hrun)
    exact ⟨g, hP.inv⟩
  · exact (run_tame hi (run_step hrun)).1.inv
  · obtain ⟨hgood, hthreads⟩ := run_tame hi (run_step hrun)
    exact (hthreads t c _ ht _ (.refl _) hgood trivial).guard

end Runs

/-- In every state of every interleaving, all nodes are proper: each base node has a treap and a parent
that is a route node or missing, no node is marked as part of a range query, and the statistics stay
within their bounds. -/
theorem nodes_proper (hi : Initial s) {ls : List Ev} {cfg : Cfg} (h : Transition.Run SensibleStep (.idle s) ls cfg) (p : Ptr)
    (hp : cfg.shared.Allocated p) : Proper cfg.shared.graph (cfg.shared.graph.plain p) := (run_safe hi h).1.inv.nodes p hp

/-- The configuration that a schedule of sensible tasks leads to. -/
def sensible (s : Shared) (turns : List (Turn (ℕ × Task))) : Cfg :=
  Config.schedule exec taskBody (fun c s => decide (c.2.Sensible s)) (.idle s) turns

theorem sensible_run (s : Shared) (turns : List (Turn (ℕ × Task))) : Transition.Reachable SensibleStep (.idle s) (sensible s turns) :=
  Config.schedule_run (fun _ _ _ he h => ⟨h, fun t c hc => of_decide_eq_true (he t c hc)⟩) _ _

set_option maxRecDepth 100000 in
/-- The main node of a join that is about to be entered in the parent. -/
theorem nodes_proper_join : ∃ cfg, Transition.Reachable SensibleStep (.idle start) cfg ∧ cfg.shared.graph.HasType 9 .joinMain ∧
    Proper cfg.shared.graph (cfg.shared.graph.plain 9) := by
  obtain ⟨ls, hrun⟩ := sensible_run start (joining ++ [.go 0 30])
  have htype : (sensible start (joining ++ [.go 0 30])).shared.graph.HasType 9 .joinMain := by decide +kernel
  exact ⟨_, ⟨ls, hrun⟩, htype, nodes_proper start_initial hrun 9 htype.1⟩

/-- A call that has failed has run out of rounds for its loops, or a pool has thrown: there is no
undefined behaviour in any interleaving. -/
theorem failures_from_pools (hi : Initial s) {ls : List Ev} {cfg : Cfg} (h : Transition.Run SensibleStep (.idle s) ls cfg) (t : ℕ)
    (c : ℕ × Task) (e : Fault) (ht : cfg.threads t = some (c, .raise e)) :
    e = .outOfFuel ∨ ∃ x, e = .exn x ∧ s.pools.Throws x := by
  have hsafe : e ≠ .undefinedBehaviour := (run_safe hi h).2 t c _ ht
  cases e with
  | exn x => exact .inr ⟨x, rfl, (run_tame hi (run_step h)).2 t c _ ht x rfl⟩
  | undefinedBehaviour => exact absurd rfl hsafe
  | outOfFuel => exact .inl rfl

/-- A new tree for which the pool has only the node of the root. -/
def scarce : Shared := { start with pools := { start.pools with nodes := fun _ => some (.outOfRange "node") } }

theorem scarce_initial : Initial scarce := ⟨rfl, by simp [scarce, start], rfl, rfl, fun _ => rfl⟩

/-- An insertion fails for want of a node and a lookup for want of rounds, while another insertion is running. -/
theorem failures_from_pools_threads : ∃ cfg, Transition.Reachable SensibleStep (.idle scarce) cfg ∧
    (∃ e, cfg.threads 1 = some ((9, .call (.insert 5)), .raise e) ∧ (e = .outOfFuel ∨ ∃ x, e = .exn x ∧ scarce.pools.Throws x)) ∧
    ∃ e, cfg.threads 2 = some ((0, .call (.lookup 5)), .raise e) ∧ (e = .outOfFuel ∨ ∃ x, e = .exn x ∧ scarce.pools.Throws x) := by
  obtain ⟨ls, hrun⟩ := sensible_run scarce
    [.call 0 (9, .call (.insert 7)), .go 0 3, .call 1 (9, .call (.insert 5)), .go 1 40, .call 2 (0, .call (.lookup 5)), .go 2 9]
  exact ⟨_, ⟨ls, hrun⟩, ⟨.exn (.outOfRange "node"), rfl, failures_from_pools scarce_initial hrun 1 _ _ rfl⟩,
    .outOfFuel, rfl, failures_from_pools scarce_initial hrun 2 _ _ rfl⟩

end Lfca

end LockFreeSearchTree
