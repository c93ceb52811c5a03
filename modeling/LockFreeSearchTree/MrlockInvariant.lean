import LockFreeSearchTree.MrlockTree
import LockFreeSearchTree.TreapSplit
import Mathlib.Data.Multiset.Sort

/-! # The multiset in the tree behind one lock

`Wf` is the invariant of the tree: every base node holds a well-formed treap with its values in
order, and the values below a route node lie on the sides their comparison with its key says.
A call that returns keeps it and does to the values of the tree what `Stored` says
(`returns_stored`), so that every run of returning calls is a run of the multiset
(`run_refines`).

The second part is about capacity.  A base node holds 64 values only if the split of the insertion
that brought it there left one side empty; `LeavesRoom` says when that does not happen. -/

namespace LockFreeSearchTree.MrlockTree

open Treap Transition

namespace Node

/-- The values held by the base nodes. -/
def values : Node → Multiset ℤ
  | base _ treap => treap.values
  | route _ left right => left.values + right.values

/-- The treaps of the base nodes. -/
def treaps : Node → List Treap
  | base _ treap => [treap]
  | route _ left right => left.treaps ++ right.treaps

/-- Well-formed treaps in order, and keys that separate the values on their two sides. -/
def Wf : Node → Prop
  | base _ treap => ∃ vs, treap.Stores vs ∧ Sorted vs
  | route key left right => left.Wf ∧ right.Wf ∧ (∀ v ∈ left.values, v ≤ key) ∧ ∀ v ∈ right.values, key < v

/-- The treap of the base node a search for `val` leads to. -/
def treapFor (val : ℤ) : Node → Treap
  | base _ treap => treap
  | route key left right => if key ≥ val then left.treapFor val else right.treapFor val

/-- No base node is full. -/
def Roomy (n : Node) : Prop := ∀ t ∈ n.treaps, t.size < TREAP_NODES

theorem roomy_route {key : ℤ} {left right : Node} : (route key left right).Roomy ↔ left.Roomy ∧ right.Roomy := by
  simp only [Roomy, treaps, List.mem_append]
  exact ⟨fun h => ⟨fun t ht => h t (.inl ht), fun t ht => h t (.inr ht)⟩, fun h t ht => ht.elim (h.1 t) (h.2 t)⟩

/-- A search leads to the base node with the value, if there is one. -/
theorem mem_treapFor (val : ℤ) : ∀ {n : Node}, n.Wf → (val ∈ n.values ↔ val ∈ (n.treapFor val).values)
  | base _ treap, _ => Iff.rfl
  | route key left right, ⟨hl, hr, hle, hlt⟩ => by
      rw [values, Multiset.mem_add, treapFor]
      split_ifs with h
      · rw [← mem_treapFor val hl]
        refine or_iff_left (fun hm => ?_)
        have := hlt val hm
        omega
      · rw [← mem_treapFor val hr]
        refine or_iff_right (fun hm => ?_)
        have := hle val hm
        omega

end Node

/-! ### Insertion -/

/-- The values an insertion leaves in the base node it is made in, sorted. -/
def insertedValues (val : ℤ) (n : Node) : List ℤ := (val ::ₘ (n.treapFor val).values).sort (· ≤ ·)

/-- If the insertion fills a base node, the split leaves values on both sides. -/
def FitsAfter (val : ℤ) (n : Node) : Prop :=
  (n.treapFor val).size + 1 = TREAP_NODES → SplitsBothWays (insertedValues val n)

theorem splitBase_spec {old : ℤ} {t : Treap} {vs : List ℤ} {env env' : Env} {n : Node} (h : t.Stores vs) (ho : Sorted vs)
    (hne : vs ≠ []) (hret : splitBase old t env = (.ok (), n, env')) :
    n.values = (vs : Multiset ℤ) ∧ n.Wf ∧ env.Same env' ∧
      (n.Roomy ↔ (vs.length = TREAP_NODES → (∃ v ∈ vs, v ≤ medianOf vs) ∧ ∃ v ∈ vs, medianOf vs < v)) := by
  unfold splitBase at hret
  rcases hs : t.split env with ⟨r | ⟨splitVal, left, right⟩, env₁⟩
  · rw [hs] at hret
    cases hret
  · rw [hs] at hret
    cases hret
    obtain ⟨⟨ls, rs, hvs, hl, hr, hkey⟩, hsame⟩ := (split_yields h hne).of_ok hs
    obtain ⟨rfl, hle, hlt⟩ := hkey ho
    simp only at hl hr hle hlt
    have hos := ho
    rw [hvs, Sorted, List.pairwise_append] at hos
    have hlenl := hl.length
    have hlenr := hr.length
    have hsize : ls.length + rs.length ≤ TREAP_NODES := by
      have h₁ := h.length
      have h₂ := h.size_le
      rw [hvs, List.length_append] at h₁
      omega
    refine ⟨?_, ⟨⟨ls, hl, hos.1⟩, ⟨rs, hr, hos.2.1⟩, ?_, ?_⟩, hsame, ?_⟩
    · rw [Node.values, Node.values, Node.values, hl.values, hr.values, hvs, Multiset.coe_add]
    · rw [Node.values, hl.values]
      exact hle
    · rw [Node.values, hr.values]
      exact hlt
    · have hleft : (∃ v ∈ vs, v ≤ medianOf vs) ↔ ls ≠ [] := by
        refine ⟨?_, fun hl => ?_⟩
        · rintro ⟨v, hv, hm⟩ hnil
          rw [hvs, hnil, List.nil_append] at hv
          exact absurd hm (not_le.mpr (hlt v hv))
        · obtain ⟨v, hv⟩ := List.exists_mem_of_ne_nil ls hl
          exact ⟨v, by rw [hvs]; exact List.mem_append_left _ hv, hle v hv⟩
      have hright : (∃ v ∈ vs, medianOf vs < v) ↔ rs ≠ [] := by
        refine ⟨?_, fun hr => ?_⟩
        · rintro ⟨v, hv, hm⟩ hnil
          rw [hvs, hnil, List.append_nil] at hv
          exact absurd (hle v hv) (not_le.mpr hm)
        · obtain ⟨v, hv⟩ := List.exists_mem_of_ne_nil rs hr
          exact ⟨v, by rw [hvs]; exact List.mem_append_right _ hv, hlt v hv⟩
      rw [hleft, hright, Node.roomy_route, hvs, List.length_append, ← List.length_pos_iff, ← List.length_pos_iff]
      simp only [Node.Roomy, Node.treaps, List.mem_singleton, forall_eq]
      omega

theorem insertedValues_eq {val : ℤ} {n : Node} {vs : List ℤ} (ho : Sorted vs)
    (h : (vs : Multiset ℤ) = val ::ₘ (n.treapFor val).values) : insertedValues val n = vs := by
  have hperm : (insertedValues val n).Perm vs := Multiset.coe_eq_coe.mp ((Multiset.sort_eq _ (· ≤ ·)).trans h.symm)
  exact hperm.eq_of_pairwise (fun a b _ _ hab hba => le_antisymm hab hba) (Multiset.pairwise_sort _ (· ≤ ·)) ho

theorem immutableInsert_full {t : Treap} (val : ℤ) (h : t.size = TREAP_NODES) (env : Env) :
    ∃ x env', t.immutableInsert val env = (.error (.exn x), env') := by
  rcases hn : New env with ⟨e | t₀, env₁⟩
  · obtain ⟨x, rfl⟩ := New_yields.of_error hn
    exact ⟨x, env₁, TreapM.bind_error (TreapM.bind_error hn)⟩
  · have hcopy : NewCopy t env = (.ok t, env₁) := TreapM.bind_ok hn
    exact ⟨_, env₁, (TreapM.bind_ok hcopy).trans (insert_full val h env₁)⟩

/-- A copy with the value put in its place. -/
theorem immutableInsert_stores {t t' : Treap} {vs : List ℤ} {val : ℤ} {env env' : Env} (h : t.Stores vs) (ho : Sorted vs)
    (hi : t.immutableInsert val env = (.ok t', env')) :
    ∃ as bs, vs = as ++ bs ∧ t'.Stores (as ++ val :: bs) ∧ Sorted (as ++ val :: bs) ∧ env.Same env' := by
  have hsize : t.size < TREAP_NODES := by
    refine lt_of_le_of_ne h.size_le (fun hfull => ?_)
    obtain ⟨e, env₂, he⟩ := immutableInsert_full val hfull env
    cases hi.symm.trans he
  obtain ⟨⟨as, bs, rfl, h', hord⟩, hsame⟩ := (immutableInsert_yields val h hsize).of_ok hi
  exact ⟨as, bs, rfl, h', ho.insert (hord ho).1 (hord ho).2, hsame⟩

/-- An insertion that returns has added one copy of its value. -/
theorem insert_spec (val : ℤ) : ∀ {n n' : Node} {env env' : Env}, n.Wf → insert val n env = (.ok (), n', env') →
    n'.values = val ::ₘ n.values ∧ n'.Wf ∧ env.Same env' ∧ (n.Roomy → (n'.Roomy ↔ FitsAfter val n))
  | .base old t, n', env, env', ⟨vs, hs, ho⟩, hret => by
      rw [insert] at hret
      rcases hi : t.immutableInsert val env with ⟨e | t', env₁⟩
      · rw [hi] at hret
        cases hret
      · obtain ⟨as, bs, rfl, hs', ho', hsame⟩ := immutableInsert_stores hs ho hi
        have hlen := hs.length
        have hlen' := hs'.length
        simp only [List.length_append, List.length_cons] at hlen hlen'
        have hvals : ((as ++ val :: bs : List ℤ) : Multiset ℤ) = val ::ₘ t.values := by
          rw [hs.values]
          exact Multiset.coe_eq_coe.mpr List.perm_middle
        have hsorted : insertedValues val (.base old t) = as ++ val :: bs := insertedValues_eq ho' hvals
        rw [hi] at hret
        simp only at hret
        split_ifs at hret with hfull
        · obtain ⟨hv, hwf, hsame', hroom⟩ := splitBase_spec hs' ho' (by simp) hret
          refine ⟨hv.trans hvals, hwf, hsame.trans hsame', fun _ => ?_⟩
          have hfull' : TREAP_NODES ≤ t'.size := hfull
          have hle := hs'.size_le
          have hlen64 : (as ++ val :: bs).length = TREAP_NODES := by
            simp only [List.length_append, List.length_cons]
            omega
          rw [hroom, FitsAfter, hsorted,
            splitsBothWays_iff ho' (by rw [hlen64]; decide) (by rw [hlen64]; decide)]
          refine ⟨fun h _ => h hlen64, fun h _ => h ?_⟩
          show t.size + 1 = TREAP_NODES
          omega
        · cases hret
          refine ⟨hs'.values.trans hvals, ⟨_, hs', ho'⟩, hsame, fun _ => ?_⟩
          have hfull' : ¬ TREAP_NODES ≤ t'.size := hfull
          have hroom : (Node.base old t').Roomy := by
            intro u hu
            rw [Node.treaps, List.mem_singleton] at hu
            subst hu
            omega
          refine iff_of_true hroom (fun heq => ?_)
          have heq' : t.size + 1 = TREAP_NODES := heq
          omega
  | .route key left right, n', env, env', ⟨hl, hr, hle, hlt⟩, hret => by
      rw [insert] at hret
      split_ifs at hret with hk
      · rcases hi : insert val left env with ⟨r, l', env₁⟩
        rw [hi] at hret
        cases hret
        obtain ⟨hv, hwf, hsame, hroom⟩ := insert_spec val hl hi
        refine ⟨by rw [Node.values, hv, Node.values, Multiset.cons_add], ⟨hwf, hr, fun v hv' => ?_, hlt⟩, hsame, fun h => ?_⟩
        · rw [hv, Multiset.mem_cons] at hv'
          rcases hv' with rfl | hv'
          · exact hk
          · exact hle v hv'
        · rw [Node.roomy_route] at h ⊢
          rw [hroom h.1, and_iff_left h.2, FitsAfter, FitsAfter, insertedValues, insertedValues, Node.treapFor, if_pos hk]
      · rcases hi : insert val right env with ⟨r, r', env₁⟩
        rw [hi] at hret
        cases hret
        obtain ⟨hv, hwf, hsame, hroom⟩ := insert_spec val hr hi
        refine ⟨by rw [Node.values, hv, Node.values, Multiset.add_cons], ⟨hl, hwf, hle, fun v hv' => ?_⟩, hsame, fun h => ?_⟩
        · rw [hv, Multiset.mem_cons] at hv'
          rcases hv' with rfl | hv'
          · omega
          · exact hlt v hv'
        · rw [Node.roomy_route] at h ⊢
          rw [hroom h.2, and_iff_right h.1, FitsAfter, FitsAfter, insertedValues, insertedValues, Node.treapFor, if_neg hk]

/-- With an unlimited pool, an insertion into a tree without full base nodes returns. -/
theorem insert_returns (val : ℤ) : ∀ {n : Node} {env : Env}, n.Wf → n.Roomy → env.Unlimited →
    ∃ n' env', insert val n env = (.ok (), n', env')
  | .base old t, env, ⟨vs, hs, ho⟩, hroom, hu => by
      have hsize : t.size < TREAP_NODES := hroom t (by simp [Node.treaps])
      obtain ⟨t', env₁, hi, hu₁, as, bs, _, hs', _⟩ := (immutableInsert_yields val hs hsize).returns hu
      rw [insert, hi]
      simp only
      split_ifs with hfull
      · obtain ⟨r, env₂, hsp, _⟩ := (split_yields hs' (by simp)).returns hu₁
        exact ⟨.route r.1 (.base Empty r.2.1) (.base Empty r.2.2), env₂, by rw [splitBase, hsp]⟩
      · exact ⟨_, _, rfl⟩
  | .route key left right, env, ⟨hl, hr, _, _⟩, hroom, hu => by
      rw [Node.roomy_route] at hroom
      rw [insert]
      split_ifs with hk
      · obtain ⟨l', env', hi⟩ := insert_returns val hl hroom.1 hu
        exact ⟨_, env', by rw [hi]; rfl⟩
      · obtain ⟨r', env', hi⟩ := insert_returns val hr hroom.2 hu
        exact ⟨_, env', by rw [hi]; rfl⟩

/-! ### Removal -/

theorem mergeBases_spec {n n' : Node} {env env' : Env} (h : n.Wf) (hret : mergeBases n env = (.ok (), n', env')) :
    n'.values = n.values ∧ n'.Wf ∧ env.Same env' ∧ (n.Roomy → n'.Roomy) := by
  unfold mergeBases at hret
  split at hret
  · rename_i _ key lval left rval right
    split_ifs at hret with hsize
    · rcases hm : merge left right env with ⟨e | t, env₁⟩
      · rw [hm] at hret
        cases hret
      · rw [hm] at hret
        cases hret
        obtain ⟨⟨ls, hl, hol⟩, ⟨rs, hr, hor⟩, hle, hlt⟩ := h
        have hsize' : left.size + right.size ≤ TREAP_NODES / 2 := hsize
        obtain ⟨hs, hsame⟩ := (merge_yields hl hr (hsize'.trans (Nat.div_le_self _ _))).of_ok hm
        have hvals : t.values = left.values + right.values := by
          rw [hs.values, hl.values, hr.values, Multiset.coe_add]
        refine ⟨hvals, ⟨ls ++ rs, hs, ?_⟩, hsame, fun _ => ?_⟩
        · rw [Sorted, List.pairwise_append]
          refine ⟨hol, hor, fun x hx y hy => ?_⟩
          have h₁ := hle x (by rw [Node.values, hl.values]; exact hx)
          have h₂ := hlt y (by rw [Node.values, hr.values]; exact hy)
          omega
        · intro u hu
          rw [Node.treaps, List.mem_singleton] at hu
          subst hu
          have := hs.length
          have hlenl := hl.length
          have hlenr := hr.length
          rw [List.length_append] at this
          have h64 : TREAP_NODES = 64 := rfl
          omega
    · cases hret
      exact ⟨rfl, h, .refl _, id⟩
  · cases hret
    exact ⟨rfl, h, .refl _, id⟩

theorem mergeBases_returns {n : Node} {env : Env} (h : n.Wf) (hu : env.Unlimited) :
    ∃ n' env', mergeBases n env = (.ok (), n', env') := by
  unfold mergeBases
  split
  · rename_i _ key lval left rval right
    split_ifs with hsize
    · obtain ⟨⟨ls, hl, _⟩, ⟨rs, hr, _⟩, _, _⟩ := h
      have hsize' : left.size + right.size ≤ TREAP_NODES / 2 := hsize
      obtain ⟨t, env', hm, _⟩ := (merge_yields hl hr (hsize'.trans (Nat.div_le_self _ _))).returns hu
      exact ⟨.base key t, env', by rw [hm]⟩
    · exact ⟨_, _, rfl⟩
  · exact ⟨_, _, rfl⟩

theorem afterRemove_ok {child n' : Node} {u : Update Bool} {b : Bool} {env' : Env}
    (h : afterRemove child u = (.ok b, n', env')) : ∃ n env, u = (.ok b, n, env) ∧
      (n' = n ∧ env' = env ∨ mergeBases n env = (.ok (), n', env')) := by
  unfold afterRemove at h
  split_ifs at h
  · exact ⟨n', env', h, .inl ⟨rfl, rfl⟩⟩
  · obtain ⟨e | b', n, env⟩ := u
    · cases h
    · simp only at h
      rcases hm : mergeBases n env with ⟨e | _, n₁, env₁⟩
      · rw [hm] at h
        cases h
      · rw [hm] at h
        cases h
        exact ⟨n, env, rfl, .inr hm⟩

/-- What a removal that returns has done to the tree. -/
structure Removed (val : ℤ) (n n' : Node) (env env' : Env) (success : Bool) : Prop where
  success_iff : success = true ↔ val ∈ n.values
  values : n'.values = n.values.erase val
  wf : n'.Wf
  same : env.Same env'
  roomy : n.Roomy → n'.Roomy

/-- A removal below a route node; `f` puts the child it is made in back into its place, next to
the values `w`. -/
theorem Removed.below {val : ℤ} {child n' : Node} {f : Node → Node} {w : Multiset ℤ} {P : Prop} {env env' : Env}
    {success : Bool} (hvals : ∀ c, (f c).values = c.values + w) (hw : val ∉ w)
    (hwf : ∀ c : Node, c.Wf → (∀ v ∈ c.values, v ∈ child.values) → (f c).Wf)
    (hroomy : ∀ c, (f c).Roomy ↔ c.Roomy ∧ P)
    (ih : ∀ {c env₁}, remove val child env = (.ok success, c, env₁) → Removed val child c env env₁ success)
    (hret : afterRemove child ((remove val child env).below f) = (.ok success, n', env')) :
    Removed val (f child) n' env env' success := by
  obtain ⟨n₁, env₁, hu, hm⟩ := afterRemove_ok hret
  rcases hi : remove val child env with ⟨r, c, env₂⟩
  rw [hi] at hu
  cases hu
  have hc := ih hi
  have h₁ : Removed val (f child) (f c) env env₂ success := by
    refine ⟨?_, ?_, hwf c hc.wf (fun v h => Multiset.mem_of_mem_erase (hc.values ▸ h)), hc.same, fun h => ?_⟩
    · rw [hvals, Multiset.mem_add, or_iff_left hw]
      exact hc.success_iff
    · rw [hvals, hvals, hc.values]
      by_cases hm : val ∈ child.values
      · rw [Multiset.erase_add_left_pos _ hm]
      · rw [Multiset.erase_of_notMem hm, Multiset.erase_of_notMem (by simp [hm, hw])]
    · rw [hroomy] at h ⊢
      exact ⟨hc.roomy h.1, h.2⟩
  rcases hm with ⟨rfl, rfl⟩ | hm
  · exact h₁
  · obtain ⟨hv₂, hwf₂, hsame₂, hroom₂⟩ := mergeBases_spec h₁.wf hm
    exact ⟨h₁.success_iff, hv₂.trans h₁.values, hwf₂, h₁.same.trans hsame₂, fun h => hroom₂ (h₁.roomy h)⟩

/-- A removal that returns has taken out one copy of its value, or there was none. -/
theorem remove_spec (val : ℤ) : ∀ {n n' : Node} {env env' : Env} {success : Bool}, n.Wf →
    remove val n env = (.ok success, n', env') → Removed val n n' env env' success
  | .base old t, n', env, env', success, ⟨vs, hs, ho⟩, hret => by
      rw [remove] at hret
      rcases hr : t.immutableRemove val env with ⟨e | ⟨t', b⟩, env₁⟩
      · rw [hr] at hret
        cases hret
      · rw [hr] at hret
        cases hret
        obtain ⟨⟨htrue, hfalse⟩, hsame⟩ := (immutableRemove_yields val hs).of_ok hr
        have hvs : (Node.base old t).values = (vs : Multiset ℤ) := hs.values
        cases success with
        | true =>
            obtain ⟨as, bs, rfl, hs'⟩ := htrue rfl
            have hsub : (as ++ bs).Sublist (as ++ val :: bs) := List.Sublist.append_left (List.sublist_cons_self _ _) _
            refine ⟨by simp [hvs], ?_, ⟨_, hs', ho.sublist hsub⟩, hsame, fun _ u hu => ?_⟩
            · have hperm : ((as ++ val :: bs : List ℤ) : Multiset ℤ) = val ::ₘ (as ++ bs : List ℤ) :=
                Multiset.coe_eq_coe.mpr List.perm_middle
              rw [hvs, hperm, Multiset.erase_cons_head]
              exact hs'.values
            · rw [Node.treaps, List.mem_singleton] at hu
              subst hu
              have h₁ := hs.size_le
              have h₂ := hs.length
              have h₃ : (as ++ bs).length = u.size := hs'.length
              rw [List.length_append] at h₂ h₃
              rw [List.length_cons] at h₂
              omega
        | false =>
            obtain ⟨rfl, hnot⟩ := hfalse rfl
            refine ⟨by simp [hvs, hnot ho], ?_, ⟨vs, hs, ho⟩, hsame, id⟩
            rw [hvs, Multiset.erase_of_notMem (by simpa using hnot ho)]
  | .route key left right, n', env, env', success, ⟨hl, hr, hle, hlt⟩, hret => by
      rw [remove] at hret
      split_ifs at hret with hk
      · refine Removed.below (f := fun left => .route key left right) (w := right.values) (P := right.Roomy)
          (fun c => rfl) (fun h => absurd (hlt val h) (by omega)) (fun c hc hsub => ?_)
          (fun c => Node.roomy_route) (fun h => remove_spec val hl h) hret
        exact ⟨hc, hr, fun v hv => hle v (hsub v hv), hlt⟩
      · refine Removed.below (f := fun right => .route key left right) (w := left.values) (P := left.Roomy)
          (fun c => add_comm _ _) (fun h => absurd (hle val h) (by omega)) (fun c hc hsub => ?_)
          (fun c => Node.roomy_route.trans and_comm) (fun h => remove_spec val hr h) hret
        exact ⟨hl, hc, hle, fun v hv => hlt v (hsub v hv)⟩

theorem afterRemove_returns (child : Node) (success : Bool) {n : Node} {env : Env} (h : n.Wf) (hu : env.Unlimited) :
    ∃ n' env', afterRemove child (.ok success, n, env) = (.ok success, n', env') := by
  unfold afterRemove
  split_ifs
  · exact ⟨n, env, rfl⟩
  · obtain ⟨n', env', hm⟩ := mergeBases_returns h hu
    exact ⟨n', env', by simp only [hm]⟩

/-- With an unlimited pool, a removal returns. -/
theorem remove_returns (val : ℤ) : ∀ {n : Node} {env : Env}, n.Wf → env.Unlimited →
    ∃ success n' env', remove val n env = (.ok success, n', env')
  | .base old t, env, ⟨vs, hs, ho⟩, hu => by
      obtain ⟨⟨t', b⟩, env', hr, _⟩ := (immutableRemove_yields val hs).returns hu
      exact ⟨b, .base old t', env', by rw [remove, hr]⟩
  | .route key left right, env, ⟨hl, hr, hle, hlt⟩, hu => by
      rw [remove]
      split_ifs with hk
      · obtain ⟨success, l', env₁, hi⟩ := remove_returns val hl hu
        have hs := remove_spec val hl hi
        obtain ⟨n', env', ha⟩ := afterRemove_returns left success (n := .route key l' right)
          ⟨hs.wf, hr, fun v h => hle v (Multiset.mem_of_mem_erase (hs.values ▸ h)), hlt⟩ (hu.same hs.same)
        exact ⟨success, n', env', by rw [hi]; exact ha⟩
      · obtain ⟨success, r', env₁, hi⟩ := remove_returns val hr hu
        have hs := remove_spec val hr hi
        obtain ⟨n', env', ha⟩ := afterRemove_returns right success (n := .route key left r')
          ⟨hl, hs.wf, hle, fun v h => hlt v (Multiset.mem_of_mem_erase (hs.values ▸ h))⟩ (hu.same hs.same)
        exact ⟨success, n', env', by rw [hi]; exact ha⟩

/-! ### Searching -/

theorem lookup_spec (val : ℤ) : ∀ {n : Node}, n.Wf → ∃ found, lookup val n = .ok found ∧ (found = true ↔ val ∈ n.values)
  | .base _ t, ⟨vs, hs, ho⟩ => by
      obtain ⟨found, hf, _, hiff⟩ := contains_spec val hs
      refine ⟨found, hf, ?_⟩
      rw [hiff ho, Node.values, hs.values, Multiset.mem_coe]
  | .route key left right, h => by
      have hmem := Node.mem_treapFor val h
      obtain ⟨hl, hr, _, _⟩ := h
      rw [lookup, hmem, Node.treapFor]
      split_ifs with hk
      · obtain ⟨found, hf, hiff⟩ := lookup_spec val hl
        exact ⟨found, hf, hiff.trans (Node.mem_treapFor val hl)⟩
      · obtain ⟨found, hf, hiff⟩ := lookup_spec val hr
        exact ⟨found, hf, hiff.trans (Node.mem_treapFor val hr)⟩

theorem rangeQueryLoop_spec (low high : ℤ) : ∀ (fuel : ℕ) {nodes : List Node} (acc : List ℤ), (∀ n ∈ nodes, n.Wf) →
    (nodes.map Node.count).sum ≤ fuel → ∃ values, rangeQueryLoop low high fuel nodes acc = .ok (acc ++ values) ∧
      (values : Multiset ℤ) = (nodes.map Node.values).sum.filter (fun v => low ≤ v ∧ v ≤ high)
  | fuel, [], acc, _, _ => ⟨[], by cases fuel <;> simp [rangeQueryLoop], rfl⟩
  | 0, .base _ _ :: nodes, acc, _, hf => by simp [Node.count] at hf
  | 0, .route _ _ _ :: nodes, acc, _, hf => by simp [Node.count] at hf
  | fuel + 1, .base old t :: nodes, acc, h, hf => by
      obtain ⟨vs, hs, ho⟩ := h _ List.mem_cons_self
      obtain ⟨ws, hws, hfilter⟩ := rangeQuery_stores low high hs
      simp only [List.map_cons, List.sum_cons, Node.count] at hf
      obtain ⟨values, hv, hvals⟩ := rangeQueryLoop_spec low high fuel (acc ++ ws)
        (fun n hn => h n (List.mem_cons_of_mem _ hn)) (by omega)
      refine ⟨ws ++ values, ?_, ?_⟩
      · rw [rangeQueryLoop, hws]
        rw [ok_bind, hv, List.append_assoc]
      · rw [← Multiset.coe_add, hvals, hfilter ho, List.map_cons, List.sum_cons, Multiset.filter_add, Node.values,
          hs.values]
  | fuel + 1, .route key left right :: nodes, acc, h, hf => by
      obtain ⟨hl, hr, hle, hlt⟩ := h _ List.mem_cons_self
      have hnodes := fun n hn => h n (List.mem_cons_of_mem _ hn)
      simp only [List.map_cons, List.sum_cons, Node.count] at hf
      have hskipl : ¬ key ≥ low → left.values.filter (fun v => low ≤ v ∧ v ≤ high) = 0 := fun hk =>
        BinTree.filter_eq_zero_of_lt (fun v => v) low high (fun v hv => by have := hle v hv; omega)
      have hskipr : ¬ key ≤ high → right.values.filter (fun v => low ≤ v ∧ v ≤ high) = 0 := fun hk =>
        BinTree.filter_eq_zero_of_gt (fun v => v) low high (fun v hv => by have := hlt v hv; omega)
      have hsum : ∀ (c : Prop) [Decidable c] (n : Node) (ns : List Node), ((if c then n :: ns else ns).map Node.count).sum ≤
          n.count + (ns.map Node.count).sum := fun c _ n ns => by
        split_ifs <;> simp
      have hvals : ∀ (c : Prop) [Decidable c] (n : Node) (ns : List Node),
          (¬ c → n.values.filter (fun v => low ≤ v ∧ v ≤ high) = 0) →
          (((if c then n :: ns else ns).map Node.values).sum).filter (fun v => low ≤ v ∧ v ≤ high) =
            n.values.filter (fun v => low ≤ v ∧ v ≤ high) +
              ((ns.map Node.values).sum).filter (fun v => low ≤ v ∧ v ≤ high) := fun c _ n ns hc => by
        split_ifs with h
        · rw [List.map_cons, List.sum_cons, Multiset.filter_add]
        · rw [hc h, zero_add]
      have hmem : ∀ (c : Prop) [Decidable c] (n : Node) (ns : List Node), n.Wf → (∀ m ∈ ns, m.Wf) →
          ∀ m ∈ (if c then n :: ns else ns), m.Wf := fun c _ n ns hn hns m hm => by
        split_ifs at hm with h
        · rcases List.mem_cons.mp hm with rfl | hm
          · exact hn
          · exact hns m hm
        · exact hns m hm
      have h₁ := hsum (key ≥ low) left nodes
      have h₂ := hsum (key ≤ high) right (if key ≥ low then left :: nodes else nodes)
      obtain ⟨values, hv, hfilter⟩ := rangeQueryLoop_spec low high fuel acc
        (hmem (key ≤ high) right _ hr (hmem (key ≥ low) left nodes hl hnodes)) (by omega)
      refine ⟨values, hv, ?_⟩
      rw [hfilter, hvals _ _ _ hskipr, hvals _ _ _ hskipl, List.map_cons, List.sum_cons, Multiset.filter_add, Node.values,
        Multiset.filter_add]
      rw [← add_assoc, add_comm (right.values.filter _)]

theorem rangeQuery_spec (low high : ℤ) {head : Node} (h : head.Wf) : ∃ values, rangeQuery low high head = .ok values ∧
    (values : Multiset ℤ) = head.values.filter (fun v => low ≤ v ∧ v ≤ high) := by
  obtain ⟨values, hv, hfilter⟩ := rangeQueryLoop_spec low high head.count []
    (show ∀ n ∈ [head], n.Wf from fun n hn => by rwa [List.mem_singleton.mp hn]) (by simp)
  exact ⟨values, hv, by simpa using hfilter⟩

/-! ### Runs -/

theorem new_spec {env env' : Env} {n : Node} (h : new env = (.ok (), n, env')) :
    n.values = 0 ∧ n.Wf ∧ n.Roomy ∧ env.Same env' := by
  unfold new at h
  rcases hn : New env with ⟨e | t, env₁⟩
  · rw [hn] at h
    cases h
  · rw [hn] at h
    cases h
    obtain ⟨rfl, hsame⟩ := New_yields.of_ok hn
    refine ⟨by rw [Node.values, empty_stores.values]; rfl, ⟨[], empty_stores, List.Pairwise.nil⟩, fun t ht => ?_, hsame⟩
    rw [Node.treaps, List.mem_singleton] at ht
    subst ht
    decide

/-- A call that returns does to the values of the tree what it does to a multiset. -/
theorem returns_stored {s s' : State} {c : Call} {r : Result} (h : s.head.Wf) (hret : Returns s (c, r) s') :
    Stored s.head.values (c, r) s'.head.values ∧ s'.head.Wf := by
  unfold Returns call at hret
  cases c with
  | insert val =>
      rcases hi : insert val s.head s.env with ⟨e | _, head, env⟩
      · simp [hi, Except.map] at hret
      · simp only [hi, Except.map, Prod.mk.injEq, Except.ok.injEq] at hret
        obtain ⟨rfl, rfl⟩ := hret
        obtain ⟨hv, hwf, _⟩ := insert_spec val h hi
        exact ⟨hv, hwf⟩
  | remove val =>
      rcases hr : remove val s.head s.env with ⟨e | success, head, env⟩
      · simp [hr, Except.map] at hret
      · simp only [hr, Except.map, Prod.mk.injEq, Except.ok.injEq] at hret
        obtain ⟨rfl, rfl⟩ := hret
        have hrem := remove_spec val h hr
        exact ⟨⟨hrem.success_iff, hrem.values⟩, hrem.wf⟩
  | lookup val =>
      obtain ⟨found, hf, hiff⟩ := lookup_spec val h
      simp only [hf, Except.map, Prod.mk.injEq, Except.ok.injEq] at hret
      obtain ⟨rfl, rfl⟩ := hret
      exact ⟨⟨hiff, rfl⟩, h⟩
  | rangeQuery low high =>
      obtain ⟨values, hv, hfilter⟩ := rangeQuery_spec low high h
      simp only [hv, Except.map, Prod.mk.injEq, Except.ok.injEq] at hret
      obtain ⟨rfl, rfl⟩ := hret
      exact ⟨⟨hfilter, rfl⟩, h⟩

/-- Every run of calls that return is a run of the multiset of stored values, from the empty one. -/
theorem run_refines {s₀ s : State} {ls : List (Call × Result)} (hi : Initial s₀) (h : Run Returns s₀ ls s) :
    Run Stored 0 ls s.head.values := by
  obtain ⟨env, hnew⟩ := hi
  obtain ⟨hv, hwf, _, _⟩ := new_spec hnew
  have hstep : ∀ s ms l s', s.head.values = ms ∧ s.head.Wf → Returns s l s' →
      ∃ ms', Stored ms l ms' ∧ s'.head.values = ms' ∧ s'.head.Wf := by
    rintro s _ l s' ⟨rfl, hwf⟩ hret
    obtain ⟨hst, hwf'⟩ := returns_stored hwf hret
    exact ⟨_, hst, rfl, hwf'⟩
  obtain ⟨ms, hrun, hms, _⟩ := h.simulate (R := fun s ms => s.head.values = ms ∧ s.head.Wf) hstep ⟨hv, hwf⟩
  exact hms ▸ hrun

/-- Some environment with an unlimited pool. -/
def plainEnv : Env := ⟨fun _ => ⟨0, zero_drawn⟩, 0, fun _ => none, 0⟩

/-- An empty tree. -/
def start : State := ⟨.base Empty Treap.empty, { plainEnv with allocated := 1 }⟩

theorem start_initial : Initial start := ⟨plainEnv, rfl⟩

/-- The last of these insertions splits the tree, and the last but one of the removals merges it again. -/
def splitAndMerge : List (Call × Result) :=
  ((List.range 64).map fun v : ℕ => (Call.insert v, Result.void)) ++
    [(.lookup 40, .bool true), (.rangeQuery 30 33, .vector [32, 33, 30, 31])] ++
    ((List.range 32).map fun v : ℕ => (Call.remove v, Result.bool true)) ++ [(.remove 3, .bool false), (.rangeQuery 0 33, .vector [32, 33])]

theorem run_refines_split :
    Run Stored 0 splitAndMerge (after start (splitAndMerge.map Prod.fst)).head.values :=
  run_refines start_initial (run_returns (by decide +kernel))

/-! ### Capacity -/

/-- The condition under which a call leaves room in every base node. -/
def LeavesRoom (s : State) : Call → Prop
  | .insert val => FitsAfter val s.head
  | _ => True

/-- With an unlimited pool, a call on a tree without full base nodes returns, and leaves no full
base node exactly if it meets the condition. -/
theorem call_leavesRoom {s s' : State} {c : Call} {r : Except Fault Result} (hwf : s.head.Wf) (hroom : s.head.Roomy)
    (hu : s.env.Unlimited) (h : Calls s (c, r) s') :
    s'.head.Wf ∧ s'.env.Unlimited ∧ (∃ res, r = .ok res) ∧ (s'.head.Roomy ↔ LeavesRoom s c) := by
  unfold Calls call at h
  cases c with
  | insert val =>
      obtain ⟨head, env, hi⟩ := insert_returns val hwf hroom hu
      obtain ⟨_, hwf', hsame, hiff⟩ := insert_spec val hwf hi
      simp only [hi] at h
      cases h
      exact ⟨hwf', hu.same hsame, ⟨.void, rfl⟩, hiff hroom⟩
  | remove val =>
      obtain ⟨success, head, env, hr⟩ := remove_returns val hwf hu
      have hrem := remove_spec val hwf hr
      simp only [hr] at h
      cases h
      exact ⟨hrem.wf, hu.same hrem.same, ⟨.bool success, rfl⟩, iff_of_true (hrem.roomy hroom) trivial⟩
  | lookup val =>
      obtain ⟨found, hf, _⟩ := lookup_spec val hwf
      simp only [hf] at h
      cases h
      exact ⟨hwf, hu, ⟨.bool found, rfl⟩, iff_of_true hroom trivial⟩
  | rangeQuery low high =>
      obtain ⟨values, hv, _⟩ := rangeQuery_spec low high hwf
      simp only [hv] at h
      cases h
      exact ⟨hwf, hu, ⟨.vector values, rfl⟩, iff_of_true hroom trivial⟩

/-- The runs in which every state has room are those whose insertions meet the condition, and in
their states no insertion fails for lack of room. -/
theorem roomy_runs_iff {s₀ s : State} {ls : List (Call × Except Fault Result)} (hi : Initial s₀)
    (hu : s₀.env.Unlimited) :
    (Run (fun s l s' => Calls s l s' ∧ s'.head.Roomy) s₀ ls s ↔
      Run (fun s l s' => Calls s l s' ∧ LeavesRoom s l.1) s₀ ls s) ∧
    (Run (fun s l s' => Calls s l s' ∧ LeavesRoom s l.1) s₀ ls s →
      s.head.Roomy ∧ ∀ val, (call s (Call.insert val)).1 ≠ .error (.exn (.outOfRange "Treap is full"))) := by
  obtain ⟨env, hnew⟩ := hi
  obtain ⟨_, hwf, hroom, _⟩ := new_spec hnew
  have hgood : ∀ {ls s}, Run (fun s l s' => Calls s l s' ∧ LeavesRoom s l.1) s₀ ls s →
      s.head.Wf ∧ s.head.Roomy ∧ s.env.Unlimited := fun hrun =>
    hrun.invariant (I := fun s => s.head.Wf ∧ s.head.Roomy ∧ s.env.Unlimited)
      (fun s l s' ⟨hwf, hroom, hu⟩ ⟨hcall, hleaves⟩ => by
        obtain ⟨hwf', hu', _, hiff⟩ := call_leavesRoom hwf hroom hu hcall
        exact ⟨hwf', hiff.mpr hleaves, hu'⟩) ⟨hwf, hroom, hu⟩
  refine ⟨⟨fun hrun => ?_, fun hrun => ?_⟩, fun hrun => ?_⟩
  · induction hrun with
    | nil => exact .nil
    | snoc _ hlast ih =>
        obtain ⟨hwf', hroom', hu'⟩ := hgood ih
        exact ih.snoc ⟨hlast.1, (call_leavesRoom hwf' hroom' hu' hlast.1).2.2.2.mp hlast.2⟩
  · induction hrun with
    | nil => exact .nil
    | snoc hprev hlast ih =>
        obtain ⟨hwf', hroom', hu'⟩ := hgood hprev
        exact ih.snoc ⟨hlast.1, (call_leavesRoom hwf' hroom' hu' hlast.1).2.2.2.mpr hlast.2⟩
  · obtain ⟨hwf', hroom', hu'⟩ := hgood hrun
    refine ⟨hroom', fun val hfull => ?_⟩
    obtain ⟨_, _, ⟨res, hres⟩, _⟩ := call_leavesRoom hwf' hroom' hu'
      (show Calls s (.insert val, (call s (.insert val)).1) (call s (.insert val)).2 from rfl)
    rw [hfull] at hres
    cases hres

instance (n : Node) : Decidable n.Roomy := inferInstanceAs (Decidable (∀ t ∈ n.treaps, t.size < TREAP_NODES))

theorem roomy_runs_iff_split :
    Run (fun s l s' => Calls s l s' ∧ LeavesRoom s l.1) start (outcomes start (splitAndMerge.map Prod.fst))
      (after start (splitAndMerge.map Prod.fst)) ∧
    ∀ val, (call (after start (splitAndMerge.map Prod.fst)) (.insert val)).1 ≠ .error (.exn (.outOfRange "Treap is full")) := by
  have hkeeps : keeps (fun s => decide s.head.Roomy) start (splitAndMerge.map Prod.fst) = true := by decide +kernel
  have hrun := (roomy_runs_iff start_initial fun _ => rfl).1.mp
    ((run_keeps hkeeps).relabel (f := id) fun _ _ _ h => ⟨h.1, of_decide_eq_true h.2⟩)
  rw [List.map_id] at hrun
  exact ⟨hrun, ((roomy_runs_iff start_initial fun _ => rfl).2 hrun).2⟩

set_option maxRecDepth 100000 in
/-- After 64 insertions of one even value a base node is full, and the next insertion fails. -/
theorem insert_fails_full :
    ∃ s₀ s, Initial s₀ ∧ s₀.env.Unlimited ∧ Transition.Reachable Calls s₀ s ∧ ¬ s.head.Roomy ∧
      (call s (.insert 2)).1 = .error (.exn (.outOfRange "Treap is full")) := by
  refine ⟨start, after start (List.replicate 64 (Call.insert 2)), start_initial, fun _ => rfl, ⟨_, run_after _ _⟩, fun h => ?_,
    by decide +kernel⟩
  have hsizes : (after start (List.replicate 64 (Call.insert 2))).head.treaps.map Treap.size = [64, 0] := by decide +kernel
  obtain ⟨t, ht, hfull⟩ := List.mem_map.mp (hsizes ▸ List.mem_cons_self : 64 ∈ List.map Treap.size _)
  exact absurd (h t ht) (by rw [hfull]; decide)

end LockFreeSearchTree.MrlockTree
