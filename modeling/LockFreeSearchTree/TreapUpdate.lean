import LockFreeSearchTree.Median
import LockFreeSearchTree.TreapSearch

/-! # Insertion and removal

* **Stored values.** `Stores t vs` says that `t` is a well-formed treap whose values are `vs`
  in order: the linked slots are exactly `0, …, size - 1`, with weights above that of the
  control node.  No heap order and no order of the values is part of it; where the order of the
  values matters it is the hypothesis `Sorted vs`.
* **Outcomes.** `Yields m Q`: whatever weights are drawn, `m` returns a value satisfying `Q` or
  ends in an exception of the pool, in particular never in undefined behaviour.
* **Results.** `insert_yields` and `remove_spec` for the two updates, `contains_spec`,
  `rangeQuery_stores` and `getMaxValue_spec` for the queries, all in terms of stored values. -/

namespace LockFreeSearchTree

open BinTree

/-! ### Outcomes of operations on the environment -/

/-- Same weights to draw from and same outcomes of `Treap::New`. -/
def Env.Same (env env' : Env) : Prop := env'.draws = env.draws ∧ env'.news = env.news

theorem Env.Same.refl (env : Env) : env.Same env := ⟨rfl, rfl⟩

theorem Env.Same.trans {env₁ env₂ env₃ : Env} (h₁ : env₁.Same env₂) (h₂ : env₂.Same env₃) : env₁.Same env₃ :=
  ⟨h₂.1.trans h₁.1, h₂.2.trans h₁.2⟩

/-- The pool of treaps is not exhausted by any call. -/
def Env.Unlimited (env : Env) : Prop := ∀ n, env.news n = none

theorem Env.Unlimited.same {env env' : Env} (h : env.Unlimited) (hs : env.Same env') : env'.Unlimited :=
  fun n => by rw [hs.2]; exact h n

theorem TreapM.bind_ok {α β : Type} {m : TreapM α} {f : α → TreapM β} {env env' : Env} {a : α}
    (h : m env = (.ok a, env')) : (m >>= f) env = f a env' := by
  simp only [Bind.bind, ExceptT.bind, ExceptT.mk, StateT.bind, h]
  rfl

theorem TreapM.bind_error {α β : Type} {m : TreapM α} {f : α → TreapM β} {env env' : Env} {e : Fault}
    (h : m env = (.error e, env')) : (m >>= f) env = (.error e, env') := by
  simp only [Bind.bind, ExceptT.bind, ExceptT.mk, StateT.bind, h]
  rfl

theorem TreapM.bind_lift {α β : Type} {x : Except Fault α} {f : α → TreapM β} {a : α} (h : x = .ok a) (env : Env) :
    (liftArray x >>= f) env = f a env :=
  TreapM.bind_ok (by rw [h]; rfl)

/-- From every environment, `m` returns a value satisfying `Q` or throws what the pool throws. -/
def Yields {α : Type} (m : TreapM α) (Q : α → Prop) : Prop :=
  ∀ env, ∃ env', env.Same env' ∧
    ((∃ a, m env = (.ok a, env') ∧ Q a) ∨ ∃ e n, m env = (.error (.exn e), env') ∧ env.news n = some e)

/-- The same from one environment. -/
def YieldsFrom {α : Type} (env : Env) (m : TreapM α) (Q : α → Prop) : Prop :=
  ∃ env', env.Same env' ∧
    ((∃ a, m env = (.ok a, env') ∧ Q a) ∨ ∃ e n, m env = (.error (.exn e), env') ∧ env.news n = some e)

namespace Yields

variable {α β : Type} {m : TreapM α} {P Q : α → Prop}

theorem mono (h : Yields m P) (hPQ : ∀ a, P a → Q a) : Yields m Q := by
  intro env
  obtain ⟨env', hs, ⟨a, ha, hP⟩ | he⟩ := h env
  · exact ⟨env', hs, .inl ⟨a, ha, hPQ a hP⟩⟩
  · exact ⟨env', hs, .inr he⟩

theorem bind {f : α → TreapM β} {R : β → Prop} (h : Yields m P) (hf : ∀ a, P a → Yields (f a) R) :
    Yields (m >>= f) R := by
  intro env
  obtain ⟨env₁, hs₁, ⟨a, ha, hP⟩ | ⟨e, n, he, hn⟩⟩ := h env
  · have hbind := TreapM.bind_ok (f := f) ha
    obtain ⟨env₂, hs₂, ⟨b, hb, hR⟩ | ⟨e, n, he, hn⟩⟩ := hf a hP env₁
    · exact ⟨env₂, hs₁.trans hs₂, .inl ⟨b, hbind.trans hb, hR⟩⟩
    · exact ⟨env₂, hs₁.trans hs₂, .inr ⟨e, n, hbind.trans he, by rw [← hs₁.2]; exact hn⟩⟩
  · exact ⟨env₁, hs₁, .inr ⟨e, n, TreapM.bind_error he, hn⟩⟩

theorem pure {a : α} (h : Q a) : Yields (Pure.pure a) Q :=
  fun env => ⟨env, .refl env, .inl ⟨a, rfl, h⟩⟩

theorem liftArray {x : Except Fault α} {a : α} (hx : x = .ok a) (h : Q a) : Yields (liftArray x) Q :=
  fun env => ⟨env, .refl env, .inl ⟨a, by rw [hx]; rfl, h⟩⟩

/-- With an unlimited pool an operation returns. -/
theorem returns (h : Yields m Q) {env : Env} (hu : env.Unlimited) :
    ∃ a env', m env = (.ok a, env') ∧ env'.Unlimited ∧ Q a := by
  obtain ⟨env', hs, ⟨a, ha, hQ⟩ | ⟨e, n, _, hn⟩⟩ := h env
  · exact ⟨a, env', ha, hu.same hs, hQ⟩
  · rw [hu n] at hn; cases hn

/-- What an operation throws is an exception of the pool. -/
theorem of_error (h : Yields m Q) {env env' : Env} {e : Fault} (he : m env = (.error e, env')) : ∃ x, e = .exn x := by
  obtain ⟨env₁, _, ⟨a, ha, _⟩ | ⟨x, n, hx, _⟩⟩ := h env
  · cases ha.symm.trans he
  · cases hx.symm.trans he
    exact ⟨x, rfl⟩

/-- What an operation returns satisfies its postcondition. -/
theorem of_ok (h : Yields m Q) {env env' : Env} {a : α} (ha : m env = (.ok a, env')) : Q a ∧ env.Same env' := by
  obtain ⟨env₁, hs, ⟨b, hb, hQ⟩ | ⟨e, n, he, _⟩⟩ := h env
  · cases ha.symm.trans hb
    exact ⟨hQ, hs⟩
  · cases ha.symm.trans he

end Yields

theorem drawWeight_yields : Yields drawWeight (fun w => NegInfinity < w) :=
  fun env => ⟨{ env with drawn := env.drawn + 1 }, ⟨rfl, rfl⟩, .inl ⟨_, rfl, (env.draws env.drawn).2.1⟩⟩

namespace YieldsFrom

variable {α : Type} {env : Env} {m : TreapM α} {P Q : α → Prop}

theorem mono (h : YieldsFrom env m P) (hPQ : ∀ a, P a → Q a) : YieldsFrom env m Q := by
  obtain ⟨env', hs, ⟨a, ha, hP⟩ | he⟩ := h
  · exact ⟨env', hs, .inl ⟨a, ha, hPQ a hP⟩⟩
  · exact ⟨env', hs, .inr he⟩

theorem pure {a : α} (h : Q a) : YieldsFrom env (Pure.pure a) Q := Yields.pure h env

/-- What an operation returns from the environment satisfies its postcondition. -/
theorem of_ok {env' : Env} {a : α} (h : YieldsFrom env m Q) (ha : m env = (.ok a, env')) : Q a := by
  obtain ⟨env₁, _, ⟨b, hb, hQ⟩ | ⟨e, n, he, _⟩⟩ := h
  · cases ha.symm.trans hb
    exact hQ
  · cases ha.symm.trans he

/-- A treap from the pool is empty, and no weight is drawn for it. -/
theorem bind_New {f : Treap → TreapM α}
    (h : ∀ env₁, env.Same env₁ → env₁.drawn = env.drawn → YieldsFrom env₁ (f .empty) Q) :
    YieldsFrom env (Treap.New >>= f) Q := by
  let env₁ : Env := { env with allocated := env.allocated + 1 }
  cases hnew : env.news env.allocated with
  | none =>
      have hrun : Treap.New env = (.ok .empty, env₁) := by simp [Treap.New, hnew, env₁]
      obtain ⟨env₂, hs₂, hf⟩ := h env₁ ⟨rfl, rfl⟩ rfl
      refine ⟨env₂, hs₂, ?_⟩
      rw [TreapM.bind_ok hrun]
      exact hf
  | some e =>
      have hrun : Treap.New env = (.error (.exn e), env₁) := by simp [Treap.New, hnew, env₁]
      exact ⟨env₁, ⟨rfl, rfl⟩, .inr ⟨e, _, TreapM.bind_error hrun, hnew⟩⟩

end YieldsFrom

namespace Treap

theorem New_yields : Yields New (· = empty) := by
  intro env
  refine ⟨{ env with allocated := env.allocated + 1 }, ⟨rfl, rfl⟩, ?_⟩
  unfold New
  cases h : env.news env.allocated with
  | none => exact .inl ⟨_, rfl, rfl⟩
  | some e => exact .inr ⟨e, _, rfl, h⟩

theorem NewCopy_yields (t : Treap) : Yields (NewCopy t) (· = t) :=
  New_yields.bind (fun _ _ => .pure rfl)

/-! ### Stored values -/

/-- `t` is well formed and holds the values `vs` in order. -/
def Stores (t : Treap) (vs : List ℤ) : Prop :=
  ∃ T, t.Linked T ∧ T.labels.Perm (List.range t.size) ∧ t.size ≤ TREAP_NODES ∧
    (∀ s ∈ T.labels, NegInfinity < t.weights s) ∧ T.labels.map t.vals = vs

theorem empty_stores : empty.Stores [] :=
  ⟨.leaf (), ⟨rfl, trivial, by simp⟩, by simp [empty], by simp [empty], by simp, rfl⟩

theorem Stores.length {t : Treap} {vs : List ℤ} (h : t.Stores vs) : vs.length = t.size := by
  obtain ⟨T, _, hp, _, _, rfl⟩ := h
  rw [List.length_map, hp.length_eq, List.length_range]

theorem Stores.size_le {t : Treap} {vs : List ℤ} (h : t.Stores vs) : t.size ≤ TREAP_NODES := by
  obtain ⟨_, _, _, hs, _, _⟩ := h
  exact hs

/-- The multiset of values held by the slots in use. -/
def values (t : Treap) : Multiset ℤ := ((List.range t.size).map t.vals : List ℤ)

theorem Stores.values {t : Treap} {vs : List ℤ} (h : t.Stores vs) : t.values = (vs : Multiset ℤ) := by
  obtain ⟨T, _, hp, _, _, rfl⟩ := h
  exact Multiset.coe_eq_coe.mpr (hp.map _).symm

/-- The slots above the size are unlinked. -/
theorem not_mem_of_perm {T : SlotTree} {n s : ℕ} (hp : T.labels.Perm (List.range n)) (h : n ≤ s) : s ∉ T.labels := by
  rw [hp.mem_iff, List.mem_range]
  omega

theorem ordered_iff {t : Treap} {T : SlotTree} : t.Ordered T ↔ Sorted (T.labels.map t.vals) := by
  rw [Ordered, Sorted, List.pairwise_map]

theorem Stores.root_eq_null {t : Treap} {vs : List ℤ} (h : t.Stores vs) : t.root = NullNode ↔ t.size = 0 := by
  obtain ⟨T, hL, hp, _, _, _⟩ := h
  have hlen := hp.length_eq
  rw [List.length_range] at hlen
  rw [hL.1, ← hlen]
  cases T <;> simp

/-! ### Queries -/

theorem contains_spec {t : Treap} {vs : List ℤ} (v : ℤ) (h : t.Stores vs) :
    ∃ b, t.contains v = .ok b ∧ (b = true → v ∈ vs) ∧ (Sorted vs → (b = true ↔ v ∈ vs)) := by
  obtain ⟨T, hL, _, _, _, rfl⟩ := h
  obtain ⟨i, hi, hsome, hnone⟩ := bstFind_spec v hL
  refine ⟨decide (i ≠ NullNode), by simp [contains, hi, Pure.pure, Except.pure], ?_⟩
  have hfound : ∀ {s}, i = some s → v ∈ T.labels.map t.vals := fun hs =>
    List.mem_map.mpr ⟨_, (hsome _ hs).1, (hsome _ hs).2⟩
  cases i with
  | none =>
      refine ⟨by simp, fun ho => ?_⟩
      have := hnone rfl (ordered_iff.mpr ho)
      simpa using this
  | some s => exact ⟨fun _ => hfound rfl, fun _ => by simpa using hfound rfl⟩

/-- `rangeQuery` returns the stored values of the range, each copy once. -/
theorem rangeQuery_stores {t : Treap} {vs : List ℤ} (min max : ℤ) (h : t.Stores vs) :
    ∃ ws, t.rangeQuery min max = .ok ws ∧
      (Sorted vs → (ws : Multiset ℤ) = (vs : Multiset ℤ).filter (fun v => min ≤ v ∧ v ≤ max)) := by
  obtain ⟨T, hL, _, _, _, rfl⟩ := h
  refine ⟨_, rangeQuery_spec min max hL, fun ho => ?_⟩
  rw [← Multiset.map_coe, rangeWalk_perm _ _ _ _ (ordered_iff.mpr ho), ← Multiset.map_coe, Multiset.filter_map]
  rfl

theorem getMaxValue_spec {t : Treap} {vs : List ℤ} (h : t.Stores vs) (hne : vs ≠ []) :
    ∃ v ∈ vs.getLast?, t.getMaxValue = .ok v := by
  obtain ⟨T, hL, hp, _, _, rfl⟩ := h
  have hlen := hp.length_eq
  rw [List.length_range] at hlen
  cases T with
  | leaf u => exact absurd rfl hne
  | node l s r =>
      obtain ⟨q, hq, hmax⟩ := getMaxValueLoop_spec loopFuel hL.2.1 (Linked.length_le_of_subtree (C := []) hL).le
      refine ⟨t.vals q, by rw [List.getLast?_map]; exact Option.mem_map_of_mem _ hq, ?_⟩
      have hs : t.size ≠ 0 := by
        rw [← hlen]; simp
      rw [getMaxValue, if_neg hs, hL.1]
      exact hmax

/-! ### Insertion -/

theorem createNewNode_yields {t : Treap} (v : ℤ) (h : t.size ≤ TREAP_NODES) :
    Yields (t.createNewNode v) (fun r => r.1 = some t.size ∧ ∃ w, NegInfinity < w ∧
      r.2 = ({ t with size := t.size + 1 } : Treap).put t.size
        { val := v, weight := w, parent := NullNode, left := NullNode, right := NullNode }) :=
  drawWeight_yields.bind fun w hw =>
    (Yields.liftArray (Q := (· = _)) (modify_some _ _ h) rfl).bind fun _ ht => .pure ⟨rfl, w, hw, ht⟩

theorem insert_full {t : Treap} (v : ℤ) (h : t.size = TREAP_NODES) (env : Env) :
    t.insert v env = (.error (.exn (.outOfRange "Treap is full")), env) := by
  simp [insert, h]
  rfl

/-- Insertion links the next free slot where a search for the value ends, and sifts it up. -/
theorem insert_links {t : Treap} {T : SlotTree} (v : ℤ) (hL : t.Linked T) (hp : T.labels.Perm (List.range t.size))
    (hsize : t.size < TREAP_NODES) :
    Yields (t.insert v) (fun t' => t'.size = t.size + 1 ∧ t'.vals t.size = v ∧ NegInfinity < t'.weights t.size ∧
      (∀ s ∈ T.labels, t'.vals s = t.vals s ∧ t'.weights s = t.weights s) ∧
      t'.Linked (siftUp t'.weights (descend (fun s => t'.vals t.size < t'.vals s) T []) (leaf ()) t.size (leaf ()))) := by
  unfold insert
  simp only [if_neg (by omega : ¬ t.size = TREAP_NODES)]
  refine (createNewNode_yields v hsize.le).bind ?_
  rintro ⟨i, t₁⟩ ⟨hi, w, hwx, ht₁⟩
  simp only at hi ht₁
  have hx := not_mem_of_perm hp (le_refl t.size)
  have hsize₁ : t₁.size = t.size + 1 := by rw [ht₁]; rfl
  have hroot₁ : t₁.root = t.root := by rw [ht₁]; rfl
  have hframe : ∀ s ∈ T.labels, t₁.nodes s = t.nodes s := fun s hs => by
    rw [ht₁, put_ne _ _ (fun he : s = t.size => hx (he ▸ hs))]
  have hnode : t₁.nodes t.size =
      { val := v, weight := w, parent := NullNode, left := NullNode, right := NullNode } := by
    rw [ht₁, put_same]
  have hval : t₁.vals t.size = v := by rw [vals, hnode]
  have hweight : t₁.weights t.size = w := by rw [weights, hnode]
  have hkeep : ∀ s ∈ T.labels, t₁.vals s = t.vals s ∧ t₁.weights s = t.weights s := fun s hs => by
    rw [vals, weights, hframe s hs]
    exact ⟨rfl, rfl⟩
  have hL₁ : t₁.Linked T := hL.congr hroot₁ hframe
  rw [hi]
  simp only [hsize₁]
  by_cases hz : t.size = 0
  · -- the first node is the root
    rw [if_pos (by omega)]
    have hT : T = .leaf () := by
      have := hp.length_eq
      rw [hz] at this
      cases T with
      | leaf u => rfl
      | node l s r => simp at this
    subst hT
    refine .pure ⟨rfl, hval, lt_of_lt_of_eq hwx hweight.symm, hkeep, rfl, ⟨hsize.le, ?_, ?_, ?_, trivial, trivial⟩,
      List.nodup_singleton _⟩
    · rw [hnode]
    · rw [hnode]; rfl
    · rw [hnode]; rfl
  · rw [if_neg (by omega)]
    have hnull : t₁.root ≠ NullNode := by
      rw [hroot₁, hL.1]
      cases T with
      | leaf u => exact absurd (by simpa using hp.length_eq.symm) hz
      | node l s r => simp
    obtain ⟨t₂, ht₂, hL₂, hR₂⟩ := bstInsert_spec hL₁ hnull hsize.le hx (by rw [hnode]) (by rw [hnode])
    refine (Yields.liftArray (Q := (· = t₂)) ht₂ rfl).bind ?_
    rintro t₂ rfl
    obtain ⟨t₃, ht₃, hL₃, hR₃⟩ := moveUp_spec hL₂
    refine .liftArray ht₃ ?_
    rw [hR₃.size, hR₂.size, hR₃.vals, hR₂.vals, hR₃.weights, hR₂.weights]
    rw [hR₂.weights] at hL₃
    exact ⟨hsize₁, hval, hweight ▸ hwx, hkeep, hL₃⟩

/-- Insertion puts the value after the values not above it. -/
theorem insert_yields {t : Treap} {vs : List ℤ} (v : ℤ) (h : t.Stores vs) (hsize : t.size < TREAP_NODES) :
    Yields (t.insert v) (fun t' => ∃ as bs, vs = as ++ bs ∧ t'.Stores (as ++ v :: bs) ∧
      (Sorted vs → (∀ x ∈ as, x ≤ v) ∧ ∀ x ∈ bs, v < x)) := by
  obtain ⟨T, hL, hp, _, hw, rfl⟩ := h
  apply (insert_links v hL hp hsize).mono
  rintro t' ⟨hsize', hval, hwx, hkeep, hL'⟩
  obtain ⟨as, bs, hlab, hwalk, hord⟩ := exists_descend_split (fun s => t'.vals t.size < t'.vals s) T
  have hlab' : (siftUp t'.weights (descend (fun s => t'.vals t.size < t'.vals s) T []) (leaf ()) t.size
      (leaf ())).labels = as ++ t.size :: bs := by
    rw [labels_siftUp, hwalk]
    simp [walkBefore, walkAfter]
  have has : as ⊆ T.labels := by rw [hlab]; exact List.subset_append_left _ _
  have hbs : bs ⊆ T.labels := by rw [hlab]; exact List.subset_append_right _ _
  have hmap : ∀ ss : List ℕ, ss ⊆ T.labels → ss.map t'.vals = ss.map t.vals := fun ss hss =>
    List.map_congr_left (fun s hs => (hkeep s (hss hs)).1)
  refine ⟨as.map t.vals, bs.map t.vals, by rw [hlab, List.map_append], ⟨_, hL', ?_, by omega, fun s hs => ?_, ?_⟩,
    fun ho => ?_⟩
  · rw [hlab', hsize', List.range_succ]
    refine List.perm_middle.trans ?_
    rw [← hlab]
    exact (List.Perm.cons _ hp).trans (List.perm_append_singleton _ _).symm
  · rw [hlab', List.mem_append, List.mem_cons] at hs
    have hs' : s = t.size ∨ s ∈ T.labels := by
      rw [hlab, List.mem_append]
      tauto
    rcases hs' with rfl | hs'
    · exact hwx
    · rw [(hkeep s hs').2]
      exact hw s hs'
  · rw [hlab', List.map_append, List.map_cons, hmap as has, hmap bs hbs, hval]
  · have ho' : T.labels.Pairwise (fun x y => t'.vals t.size < t'.vals x → t'.vals t.size < t'.vals y) := by
      rw [Sorted, List.pairwise_map] at ho
      refine ho.imp_of_mem (fun {x y} hxm hym hxy hlt => ?_)
      rw [(hkeep x hxm).1] at hlt
      rw [(hkeep y hym).1]
      omega
    obtain ⟨h₁, h₂⟩ := hord ho'
    constructor
    · intro x hxm
      obtain ⟨s, hs, rfl⟩ := List.mem_map.mp hxm
      have := h₁ s hs
      rw [hval, (hkeep s (has hs)).1] at this
      omega
    · intro x hxm
      obtain ⟨s, hs, rfl⟩ := List.mem_map.mp hxm
      have := h₂ s hs
      rwa [hval, (hkeep s (hbs hs)).1] at this

theorem immutableInsert_yields {t : Treap} {vs : List ℤ} (v : ℤ) (h : t.Stores vs) (hsize : t.size < TREAP_NODES) :
    Yields (t.immutableInsert v) (fun t' => ∃ as bs, vs = as ++ bs ∧ t'.Stores (as ++ v :: bs) ∧
      (Sorted vs → (∀ x ∈ as, x ≤ v) ∧ ∀ x ∈ bs, v < x)) :=
  (NewCopy_yields t).bind fun _ ht => ht ▸ insert_yields v h hsize

/-! ### Removal -/

/-- Moving a linked slot to an unlinked one. -/
theorem moveNode_spec {t : Treap} {C : SlotCtx} {l r : SlotTree} {s d : ℕ} (h : t.Linked (plug C (node l s r)))
    (hd : d ≤ TREAP_NODES) (hdT : d ∉ (plug C (node l s r)).labels) :
    ∃ t', t.moveNode (some s) (some d) = .ok t' ∧ t'.Linked (plug C (node l d r)) ∧ t'.size = t.size ∧
      t'.vals = Function.update t.vals d (t.vals s) ∧ t'.weights = Function.update t.weights d (t.weights s) := by
  obtain ⟨hC, ⟨hs, hp, hl, hr, hSl, hSr⟩, hnd⟩ := linked_plug.mp h
  obtain ⟨hndT, hndC, hdis⟩ := nodup_labels_plug.mp hnd
  have hndT' := hndT
  rw [labels_node, List.nodup_append', List.nodup_cons, List.disjoint_cons_right] at hndT'
  obtain ⟨hndl, ⟨hsr, hndr⟩, hsl, hlr⟩ := hndT'
  simp only [mem_labels_plug, labels_node, List.mem_append, List.mem_cons, not_or] at hdT
  obtain ⟨⟨hdl, hds, hdr⟩, hdC⟩ := hdT
  have hdisl : ∀ q ∈ l.labels, q ∉ ctxLabels C := fun q hq => hdis (by simp [hq])
  have hdisr : ∀ q ∈ r.labels, q ∉ ctxLabels C := fun q hq => hdis (by simp [hq])
  have hsC : s ∉ ctxLabels C := hdis (by simp)
  let t₁ := t.put d (t.nodes s)
  have h₁ : ∀ q, q ≠ d → t₁.nodes q = t.nodes q := fun q hq => put_ne _ _ hq
  obtain ⟨t₂, ht₂, hSl₂, hr₂, hR₂⟩ := setParent_spec (t := t₁) (some d)
    (hSl.congr (fun q hq => h₁ q (fun he => hdl (he ▸ hq)))) hndl
  obtain ⟨t₃, ht₃, hSr₃, hr₃, hR₃⟩ := setParent_spec (t := t₂) (some d)
    (hSr.congr (fun q hq => by
      rw [hR₂.frame q (fun hm => hlr hm hq), h₁ q (fun he => hdr (he ▸ hq))])) hndr
  have h₃ : ∀ q, q ∉ l.labels → q ∉ r.labels → t₃.nodes q = t₁.nodes q := fun q hql hqr => by
    rw [hR₃.frame q hqr, hR₂.frame q hql]
  have hroot₃ : t₃.root = t.root := hr₃.trans hr₂
  obtain ⟨t₄, ht₄, hC₄, hR₄⟩ := hookUp_spec (t := t₃) (C := C) (x := s) (some d)
    (by
      rw [hroot₃]
      exact hC.congr (fun q hq => by
        rw [h₃ q (fun hm => hdisl q hm hq) (fun hm => hdisr q hm hq), h₁ q (fun he => hdC (he ▸ hq))])) hndC hsC
  have h₄ : ∀ q, q ∉ ctxLabels C → t₄.nodes q = t₃.nodes q := hR₄.frame
  have h₄d : t₄.nodes d = t.nodes s := by
    rw [h₄ d hdC, h₃ d hdl hdr]
    exact put_same _ _ _
  refine ⟨t₄, ?_, linked_plug.mpr ⟨hC₄, ⟨hd, by rw [h₄d, hp], by rw [h₄d, hl], by rw [h₄d, hr], ?_, ?_⟩, ?_⟩, ?_, ?_, ?_⟩
  · unfold moveNode
    rw [if_neg (fun he => hds (by cases he; rfl))]
    simp only [get_some t hs, ok_bind, modify_some _ _ hd, hl, hr, hp]
    exact (congrArg (· >>= _) ht₂).trans (by
      simp only [ok_bind]
      exact (congrArg (· >>= _) ht₃).trans (by simp only [ok_bind]; exact ht₄))
  · exact hSl₂.congr (fun q hq => by rw [h₄ q (hdisl q hq), hR₃.frame q (fun hm => hlr hq hm)])
  · exact hSr₃.congr (fun q hq => h₄ q (hdisr q hq))
  · rw [nodup_labels_plug, labels_node, List.nodup_append', List.nodup_cons, List.disjoint_cons_right]
    refine ⟨⟨hndl, ⟨hdr, hndr⟩, hdl, hlr⟩, hndC, fun q hq => ?_⟩
    simp only [List.mem_append, List.mem_cons] at hq
    rcases hq with hq | rfl | hq
    · exact hdisl q hq
    · exact hdC
    · exact hdisr q hq
  · rw [hR₄.size, hR₃.size, hR₂.size]
    rfl
  · rw [hR₄.vals, hR₃.vals, hR₂.vals]
    funext q
    rcases eq_or_ne q d with rfl | hq
    · simp only [vals, Function.update_self]
      exact congrArg TreapNode.val (put_same _ _ _)
    · rw [Function.update_of_ne hq]
      exact congrArg TreapNode.val (h₁ q hq)
  · rw [hR₄.weights, hR₃.weights, hR₂.weights]
    funext q
    rcases eq_or_ne q d with rfl | hq
    · simp only [weights, Function.update_self]
      exact congrArg TreapNode.weight (put_same _ _ _)
    · rw [Function.update_of_ne hq]
      exact congrArg TreapNode.weight (h₁ q hq)

/-- The values and weights of a tree of slots. -/
def held (t : Treap) (T : SlotTree) : BinTree Unit (ℤ × ℤ) := T.relabel (fun s => (t.vals s, t.weights s))

theorem held_vals (t : Treap) (T : SlotTree) : (t.held T).labels.map Prod.fst = T.labels.map t.vals := by
  simp [held]

theorem held_weights (t : Treap) (T : SlotTree) : (t.held T).labels.map Prod.snd = T.labels.map t.weights := by
  simp [held]

theorem exists_held (t : Treap) {T : SlotTree} {s : ℕ} (hs : s ∈ T.labels) :
    ∃ x ∈ (t.held T).labels, x.2 = t.weights s := by
  have hm : t.weights s ∈ (t.held T).labels.map Prod.snd := by
    rw [held_weights]
    exact List.mem_map_of_mem hs
  exact List.mem_map.mp hm

theorem held_congr {t t' : Treap} {T : SlotTree}
    (h : ∀ s ∈ T.labels, t'.vals s = t.vals s ∧ t'.weights s = t.weights s) : t'.held T = t.held T :=
  relabel_congr fun s hs => by rw [(h s hs).1, (h s hs).2]

/-- Cutting off the slot `x` and filling its place in the array with the last one. -/
theorem fillGap_spec {t : Treap} {T : SlotTree} {x : ℕ} (h : t.Linked T)
    (hp : (x :: T.labels).Perm (List.range t.size)) (hsize : t.size ≤ TREAP_NODES) :
    ∃ t' T', t.moveNode (some (t.size - 1)) (some x) = .ok t' ∧ t'.size = t.size ∧ t'.Linked T' ∧
      T'.labels.Perm (List.range (t.size - 1)) ∧ t'.held T' = t.held T := by
  have hpos : 0 < t.size := by
    have := hp.length_eq
    rw [List.length_range, List.length_cons] at this
    omega
  have hx : x < t.size := List.mem_range.mp (hp.mem_iff.mp List.mem_cons_self)
  have hxT : x ∉ T.labels := (List.nodup_cons.mp (hp.nodup_iff.mpr List.nodup_range)).1
  obtain ⟨n, hn⟩ : ∃ n, t.size = n + 1 := ⟨t.size - 1, by omega⟩
  have hrange : (List.range t.size).Perm (n :: List.range n) := by
    rw [hn, List.range_succ]
    exact List.perm_append_singleton _ _
  rw [hn, Nat.add_sub_cancel]
  have hp' := hp.trans hrange
  rcases eq_or_ne n x with rfl | hne
  · exact ⟨t, T, by simp [moveNode], hn, h, hp'.cons_inv, rfl⟩
  · have hmem : n ∈ T.labels := by
      have : n ∈ x :: T.labels := hp'.mem_iff.mpr List.mem_cons_self
      exact (List.mem_cons.mp this).resolve_left hne
    obtain ⟨D, l, r, rfl⟩ := exists_plug_of_mem_labels hmem
    obtain ⟨t', ht', hL', hsize', hvals, hweights⟩ := moveNode_spec h (by omega : x ≤ TREAP_NODES) hxT
    refine ⟨t', _, ht', hsize'.trans hn, hL', ?_, ?_⟩
    · obtain ⟨as, bs, hlab⟩ := labels_plug_node D l r
      rw [hlab n] at hp'
      rw [hlab x]
      refine List.perm_middle.trans (List.Perm.cons_inv (a := n) ?_)
      exact (List.Perm.swap x n _).trans ((List.Perm.cons x List.perm_middle.symm).trans hp')
    · -- the last slot carries its value and weight along
      have hsame : ∀ q ∈ (plug D (node l n r)).labels, (t'.vals q, t'.weights q) = (t.vals q, t.weights q) := by
        intro q hq
        have hqx : q ≠ x := fun he => hxT (he ▸ hq)
        rw [hvals, hweights, Function.update_of_ne hqx, Function.update_of_ne hqx]
      simp only [mem_labels_plug, labels_node, List.mem_append, List.mem_cons] at hsame
      apply relabel_plug_congr fun q hq => hsame q (.inr hq)
      rw [relabel_node, relabel_node, relabel_congr fun q hq => hsame q (.inl (.inl hq)),
        relabel_congr fun q hq => hsame q (.inl (.inr (.inr hq)))]
      rw [hvals, hweights, Function.update_self, Function.update_self]

/-- Removal rotates the slot the search finds down to a leaf and cuts it off. -/
theorem remove_links {t : Treap} {T : SlotTree} {x : ℕ} (v : ℤ) (hL : t.Linked T)
    (hp : T.labels.Perm (List.range t.size)) (hsize : t.size ≤ TREAP_NODES) (hfind : t.bstFind v = .ok (some x))
    (hx : x ∈ T.labels) :
    ∃ C l r t' T', T = plug C (node l x r) ∧ t.remove v = .ok (true, t') ∧ t'.Linked T' ∧
      T'.labels.Perm (List.range t'.size) ∧ t'.size ≤ TREAP_NODES ∧
      t'.held T' = t.held (plug (sinkCtx t.weights l r ++ C) (leaf ())) := by
  obtain ⟨C, l, r, rfl⟩ := exists_plug_of_mem_labels hx
  obtain ⟨t₁, ht₁, hL₁, hR₁⟩ := moveDown_spec hL
  obtain ⟨hC₁, ⟨hxle, hpx, _⟩, hnd₁⟩ := linked_plug.mp hL₁
  obtain ⟨_, hndC, hdis⟩ := nodup_labels_plug.mp hnd₁
  obtain ⟨t₂, ht₂, hC₂, hR₂⟩ := hookUp_spec NullNode hC₁ hndC (hdis (by simp))
  have hL₂ : t₂.Linked (plug (sinkCtx t.weights l r ++ C) (leaf ())) :=
    linked_plug.mpr ⟨hC₂, trivial, nodup_labels_plug.mpr ⟨by simp, hndC, by simp⟩⟩
  have hvals : t₂.vals = t.vals := hR₂.vals.trans hR₁.vals
  have hweights : t₂.weights = t.weights := hR₂.weights.trans hR₁.weights
  have hsize₂ : t₂.size = t.size := hR₂.size.trans hR₁.size
  have hperm : (x :: (plug (sinkCtx t.weights l r ++ C) (leaf ())).labels).Perm (plug C (node l x r)).labels := by
    rw [plug_append, (List.Perm.cons x (labels_plug_perm C _)).congr_left, (labels_plug_perm C _).congr_right,
      labels_plug_sinkCtx]
    simp only [labels_leaf, List.append_nil, labels_node, List.append_assoc, List.cons_append]
    exact List.perm_middle.symm
  obtain ⟨t', T', ht', hsize', hL', hp', hheld⟩ := fillGap_spec (x := x) hL₂ (by rw [hsize₂]; exact hperm.trans hp)
    (by omega)
  refine ⟨C, l, r, { t' with size := t'.size - 1 }, T', rfl, ?_, ⟨hL'.1, hL'.2⟩, ?_, ?_, ?_⟩
  · simp [remove, hfind, ht₁, get_some t₁ hxle, hpx, ht₂, ht', Pure.pure, Except.pure]
  · show T'.labels.Perm (List.range (t'.size - 1))
    rw [hsize']
    exact hp'
  · show t'.size - 1 ≤ TREAP_NODES
    omega
  · refine hheld.trans ?_
    unfold held
    rw [hvals, hweights]

/-- Removal takes out one copy of the value, if the search finds one. -/
theorem remove_spec {t : Treap} {vs : List ℤ} (v : ℤ) (h : t.Stores vs) :
    ∃ success t', t.remove v = .ok (success, t') ∧
      (success = true → ∃ as bs, vs = as ++ v :: bs ∧ t'.Stores (as ++ bs)) ∧
      (success = false → t' = t ∧ (Sorted vs → v ∉ vs)) := by
  obtain ⟨T, hL, hp, hsize, hw, rfl⟩ := h
  obtain ⟨i, hi, hsome, hnone⟩ := bstFind_spec v hL
  cases i with
  | none =>
      refine ⟨false, t, by simp [remove, hi, Pure.pure, Except.pure], by simp, fun _ => ⟨rfl, fun ho hm => ?_⟩⟩
      obtain ⟨s, hs, hv⟩ := List.mem_map.mp hm
      exact hnone rfl (ordered_iff.mpr ho) s hs hv
  | some x =>
      obtain ⟨hx, hv⟩ := hsome x rfl
      obtain ⟨C, l, r, t', T', rfl, hrun, hL', hp', hsize', hheld⟩ := remove_links v hL hp hsize hi hx
      -- the labels around the removed one stay in order
      have hlabT : (plug C (node l x r)).labels = walkBefore (fun _ => []) (fun b => [b]) C ++ l.labels ++
          x :: (r.labels ++ walkAfter (fun _ => []) (fun b => [b]) C) := by
        simp [labels, walk_plug]
      have hlab' : (plug (sinkCtx t.weights l r ++ C) (leaf ())).labels =
          walkBefore (fun _ => []) (fun b => [b]) C ++ l.labels ++
            (r.labels ++ walkAfter (fun _ => []) (fun b => [b]) C) := by
        rw [plug_append]
        refine (walk_plug _ _ C _).trans ?_
        rw [show (plug (sinkCtx t.weights l r) (leaf ())).walk (fun _ => []) (fun b => [b]) = _ from
          labels_plug_sinkCtx t.weights l r (leaf ())]
        simp
      have hvals := congrArg (fun S => S.labels.map Prod.fst) hheld
      have hweights := congrArg (fun S => S.labels.map Prod.snd) hheld
      simp only [held_vals, held_weights, hlab'] at hvals hweights
      refine ⟨true, t', hrun, fun _ => ⟨_, _, ?_, T', hL', hp', hsize', fun s hs => ?_, hvals.trans List.map_append⟩, by simp⟩
      · rw [hlabT, List.map_append, List.map_cons, hv]
      · have hm : t'.weights s ∈ T'.labels.map t'.weights := List.mem_map_of_mem hs
        rw [hweights] at hm
        obtain ⟨q, hq, he⟩ := List.mem_map.mp hm
        rw [← he]
        apply hw q
        rw [List.mem_append] at hq
        rw [hlabT, List.mem_append, List.mem_cons]
        tauto

theorem immutableRemove_yields {t : Treap} {vs : List ℤ} (v : ℤ) (h : t.Stores vs) :
    Yields (t.immutableRemove v) (fun r => (r.2 = true → ∃ as bs, vs = as ++ v :: bs ∧ r.1.Stores (as ++ bs)) ∧
      (r.2 = false → r.1 = t ∧ (Sorted vs → v ∉ vs))) := by
  refine (NewCopy_yields t).bind ?_
  rintro t rfl
  obtain ⟨success, t', ht', hspec⟩ := remove_spec v h
  refine (Yields.liftArray (Q := (· = (success, t'))) ht' rfl).bind ?_
  rintro _ rfl
  exact .pure hspec

end Treap

end LockFreeSearchTree
