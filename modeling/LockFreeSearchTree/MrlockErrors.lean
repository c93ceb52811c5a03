import LockFreeSearchTree.MrlockInvariant
import LockFreeSearchTree.Preallocatable

/-! # Calls that end in an exception

An update of the tree of `mrlocktree.cpp` first stores the updated copy of a base node's treap, and
then may split or merge base nodes.

* If the copy throws, because the treap is full or the pool is exhausted, nothing has been stored.
* If the split or the merge throws, the update is complete but for the change of shape.

`update_error` says so of every reachable tree; the calls before it may have ended in exceptions
themselves, since every call keeps `Node.Wf` (`calls_wf`).  A call that does not return throws: none ends in
undefined behaviour or goes on for ever (`run_returnsOrThrows`). -/

namespace LockFreeSearchTree.MrlockTree

open Treap Transition

/-- What an update that returns does to the values of the tree. -/
def updated (c : Call) (values : Multiset ℤ) : Multiset ℤ :=
  match c with
  | .insert val => val ::ₘ values
  | .remove val => values.erase val
  | _ => values

/-- The copy of the treap that an update makes first throws. -/
def CopyThrows (s : State) : Call → Prop
  | .insert val => ∃ e env, (s.head.treapFor val).immutableInsert val s.env = (.error e, env)
  | .remove val => ∃ e env, (s.head.treapFor val).immutableRemove val s.env = (.error e, env)
  | _ => False

/-- Either the copy has thrown and the tree is as it was, or its values are those of the completed
update. -/
structure Failed (before after : Node) (copyThrows : Prop) (values : Multiset ℤ) : Prop where
  wf : after.Wf
  unchanged : copyThrows → after = before
  completed : ¬ copyThrows → after.values = values

theorem Failed.mem {before after : Node} {P : Prop} {values : Multiset ℤ} (h : Failed before after P values) {v : ℤ}
    (hv : v ∈ after.values) : v ∈ before.values ∨ v ∈ values := by
  by_cases hP : P
  · rw [h.unchanged hP] at hv
    exact .inl hv
  · rw [h.completed hP] at hv
    exact .inr hv

/-- An update that fails below a route node; `f` puts the child back into its place, next to the
values `w`. -/
theorem Failed.below {child c : Node} {P : Prop} {values w : Multiset ℤ} (h : Failed child c P values) (f : Node → Node)
    (hvals : ∀ c, (f c).values = c.values + w)
    (hwf : ∀ c : Node, c.Wf → (∀ v ∈ c.values, v ∈ child.values ∨ v ∈ values) → (f c).Wf) :
    Failed (f child) (f c) P (values + w) := by
  refine ⟨hwf c h.wf fun v hv => h.mem hv, fun hP => ?_, fun hP => ?_⟩
  · rw [h.unchanged hP]
  · rw [hvals, h.completed hP]

/-! ### Insertion -/

theorem splitBase_error {old : ℤ} {t : Treap} {env env' : Env} {n : Node} {e : Fault}
    (h : splitBase old t env = (.error e, n, env')) : n = .base old t := by
  unfold splitBase at h
  rcases hs : t.split env with ⟨e' | r, env₁⟩
  · rw [hs] at h
    cases h
    rfl
  · rw [hs] at h
    cases h

theorem insert_error (val : ℤ) : ∀ {n n' : Node} {env env' : Env} {e : Fault}, n.Wf →
    insert val n env = (.error e, n', env') →
    Failed n n' (∃ e env', (n.treapFor val).immutableInsert val env = (.error e, env')) (val ::ₘ n.values)
  | .base old t, n', env, env', e, ⟨vs, hs, ho⟩, h => by
      rw [insert] at h
      rcases hi : t.immutableInsert val env with ⟨e₁ | t', env₁⟩
      · rw [hi] at h
        cases h
        exact ⟨⟨vs, hs, ho⟩, fun _ => rfl, fun hcopy => absurd ⟨_, _, hi⟩ hcopy⟩
      · obtain ⟨as, bs, rfl, hs', ho', -⟩ := immutableInsert_stores hs ho hi
        rw [hi] at h
        simp only at h
        split_ifs at h with hfull
        · -- the copy is stored, and the split throws
          rw [splitBase_error h]
          refine ⟨⟨_, hs', ho'⟩, fun hcopy => ?_, fun _ => ?_⟩
          · obtain ⟨e₂, env₂, hcopy⟩ := hcopy
            cases hi.symm.trans hcopy
          show t'.values = val ::ₘ t.values
          rw [hs'.values, hs.values, Multiset.cons_coe]
          exact Multiset.coe_eq_coe.mpr List.perm_middle
        · cases h
  | .route key left right, n', env, env', e, ⟨hl, hr, hle, hlt⟩, h => by
      rw [insert] at h
      rw [Node.treapFor, Node.values]
      split_ifs at h ⊢ with hk
      · rcases hi : insert val left env with ⟨r, l', env₁⟩
        rw [hi] at h
        cases h
        rw [← Multiset.cons_add]
        refine (insert_error val hl hi).below (fun left => .route key left right) (fun _ => rfl) fun c hc hmem => ?_
        refine ⟨hc, hr, fun v hv => ?_, hlt⟩
        have := hmem v hv
        rw [Multiset.mem_cons] at this
        rcases this with hv | rfl | hv
        · exact hle v hv
        · exact hk
        · exact hle v hv
      · rcases hi : insert val right env with ⟨r, r', env₁⟩
        rw [hi] at h
        cases h
        rw [add_comm, ← Multiset.cons_add]
        refine (insert_error val hr hi).below (fun right => .route key left right) (fun _ => add_comm _ _) fun c hc hmem => ?_
        refine ⟨hl, hc, hle, fun v hv => ?_⟩
        have := hmem v hv
        rw [Multiset.mem_cons] at this
        rcases this with hv | rfl | hv
        · exact hlt v hv
        · omega
        · exact hlt v hv

/-! ### Removal -/

theorem mergeBases_error {n n' : Node} {env env' : Env} {e : Fault} (h : mergeBases n env = (.error e, n', env')) :
    n' = n := by
  unfold mergeBases at h
  split at h
  · rename_i _ key lval left rval right
    split_ifs at h with hsize
    · rcases hm : merge left right env with ⟨e' | t, env₁⟩
      · rw [hm] at h
        cases h
        rfl
      · rw [hm] at h
        cases h
    · cases h
  · cases h

/-- A removal below a route node throws there, or the merge after it throws. -/
theorem afterRemove_error {child n' : Node} {u : Update Bool} {e : Fault} {env' : Env}
    (h : afterRemove child u = (.error e, n', env')) : ∃ r env, u = (r, n', env) := by
  unfold afterRemove at h
  split_ifs at h
  · exact ⟨_, _, h⟩
  · obtain ⟨e' | b, n, env⟩ := u
    · cases h
      exact ⟨_, _, rfl⟩
    · simp only at h
      rcases hm : mergeBases n env with ⟨e' | _, n₁, env₁⟩
      · rw [hm] at h
        cases h
        rw [mergeBases_error hm]
        exact ⟨_, _, rfl⟩
      · rw [hm] at h
        cases h

/-- A removal that returns has copied the treap. -/
theorem remove_copies (val : ℤ) : ∀ {n n' : Node} {env env' : Env} {b : Bool}, remove val n env = (.ok b, n', env') →
    ∃ t env₁, (n.treapFor val).immutableRemove val env = (.ok (t, b), env₁)
  | .base old t, n', env, env', b, h => by
      rw [remove] at h
      rcases hr : t.immutableRemove val env with ⟨e | ⟨t', b'⟩, env₁⟩
      · rw [hr] at h
        cases h
      · rw [hr] at h
        cases h
        exact ⟨t', _, hr⟩
  | .route key left right, n', env, env', b, h => by
      rw [remove] at h
      rw [Node.treapFor]
      split_ifs at h ⊢ with hk
      · obtain ⟨n₁, env₁, hu, -⟩ := afterRemove_ok h
        rcases hi : remove val left env with ⟨r, c, env₂⟩
        rw [hi] at hu
        cases hu
        exact remove_copies val hi
      · obtain ⟨n₁, env₁, hu, -⟩ := afterRemove_ok h
        rcases hi : remove val right env with ⟨r, c, env₂⟩
        rw [hi] at hu
        cases hu
        exact remove_copies val hi

/-- A child the removal is made in, where the call ends in an exception: that of the child, or one
thrown after it. -/
theorem Failed.of_child {val : ℤ} {child c : Node} {r : Except Fault Bool} {env env' : Env} (hwf : child.Wf)
    (hi : remove val child env = (r, c, env'))
    (ih : ∀ e, r = .error e →
      Failed child c (∃ e env', (child.treapFor val).immutableRemove val env = (.error e, env')) (child.values.erase val)) :
    Failed child c (∃ e env', (child.treapFor val).immutableRemove val env = (.error e, env')) (child.values.erase val) := by
  cases r with
  | error e => exact ih e rfl
  | ok b =>
      have hrem := remove_spec val hwf hi
      obtain ⟨t, env₁, hcopy⟩ := remove_copies val hi
      exact ⟨hrem.wf, fun ⟨e, env₂, he⟩ => (by cases hcopy.symm.trans he), fun _ => hrem.values⟩

theorem remove_error (val : ℤ) : ∀ {n n' : Node} {env env' : Env} {e : Fault}, n.Wf →
    remove val n env = (.error e, n', env') →
    Failed n n' (∃ e env', (n.treapFor val).immutableRemove val env = (.error e, env')) (n.values.erase val)
  | .base old t, n', env, env', e, hwf, h => by
      rw [remove] at h
      rcases hr : t.immutableRemove val env with ⟨e₁ | ⟨t', b⟩, env₁⟩
      · rw [hr] at h
        cases h
        exact ⟨hwf, fun _ => rfl, fun hcopy => absurd ⟨_, _, hr⟩ hcopy⟩
      · rw [hr] at h
        cases h
  | .route key left right, n', env, env', e, ⟨hl, hr, hle, hlt⟩, h => by
      rw [remove] at h
      rw [Node.treapFor, Node.values]
      split_ifs at h ⊢ with hk
      · obtain ⟨r, env₁, hu⟩ := afterRemove_error h
        rcases hi : remove val left env with ⟨r, c, env₂⟩
        rw [hi] at hu
        cases hu
        have hval : val ∉ right.values := fun hm => by
          have := hlt val hm
          omega
        rw [Multiset.erase_add_left_neg _ hval]
        have hfail := Failed.of_child hl hi fun e he => remove_error val hl (he ▸ hi)
        refine hfail.below (fun left => .route key left right) (fun _ => rfl) fun c hc hmem => ?_
        exact ⟨hc, hr, fun v hv => hle v ((hmem v hv).elim id Multiset.mem_of_mem_erase), hlt⟩
      · obtain ⟨r, env₁, hu⟩ := afterRemove_error h
        rcases hi : remove val right env with ⟨r, c, env₂⟩
        rw [hi] at hu
        cases hu
        have hval : val ∉ left.values := fun hm => by
          have := hle val hm
          omega
        rw [add_comm, Multiset.erase_add_left_neg _ hval]
        have hfail := Failed.of_child hr hi fun e he => remove_error val hr (he ▸ hi)
        refine hfail.below (fun right => .route key left right) (fun _ => add_comm _ _) fun c hc hmem => ?_
        exact ⟨hl, hc, hle, fun v hv => hlt v ((hmem v hv).elim id Multiset.mem_of_mem_erase)⟩

/-! ### What is thrown -/

theorem immutableInsert_raises {t : Treap} {vs : List ℤ} {val : ℤ} {env env' : Env} {e : Fault} (h : t.Stores vs)
    (hi : t.immutableInsert val env = (.error e, env')) : ∃ x, e = .exn x := by
  by_cases hfull : t.size = TREAP_NODES
  · obtain ⟨x, env₁, hx⟩ := immutableInsert_full val hfull env
    cases hi.symm.trans hx
    exact ⟨x, rfl⟩
  · exact (immutableInsert_yields val h (lt_of_le_of_ne h.size_le hfull)).of_error hi

theorem insert_raises (val : ℤ) : ∀ {n n' : Node} {env env' : Env} {e : Fault}, n.Wf →
    insert val n env = (.error e, n', env') → ∃ x, e = .exn x
  | .base old t, n', env, env', e, ⟨vs, hs, ho⟩, h => by
      rw [insert] at h
      rcases hi : t.immutableInsert val env with ⟨e₁ | t', env₁⟩ <;> rw [hi] at h
      · cases h
        exact immutableInsert_raises hs hi
      · obtain ⟨as, bs, rfl, hs', -⟩ := immutableInsert_stores hs ho hi
        simp only at h
        split_ifs at h
        · unfold splitBase at h
          rcases hsplit : t'.split env₁ with ⟨e₂ | r, env₂⟩ <;> rw [hsplit] at h
          · cases h
            exact (split_yields hs' (by simp)).of_error hsplit
          · cases h
        · cases h
  | .route key left right, n', env, env', e, ⟨hl, hr, _, _⟩, h => by
      rw [insert] at h
      split_ifs at h
      · rcases hi : insert val left env with ⟨r, l', env₁⟩
        rw [hi] at h
        cases h
        exact insert_raises val hl hi
      · rcases hi : insert val right env with ⟨r, r', env₁⟩
        rw [hi] at h
        cases h
        exact insert_raises val hr hi

theorem mergeBases_raises {n n' : Node} {env env' : Env} {e : Fault} (hwf : n.Wf) (h : mergeBases n env = (.error e, n', env')) :
    ∃ x, e = .exn x := by
  unfold mergeBases at h
  split at h
  · rename_i _ key lval left rval right
    split_ifs at h with hsize
    · obtain ⟨⟨ls, hl, _⟩, ⟨rs, hr, _⟩, _, _⟩ := hwf
      have hsize' : left.size + right.size ≤ TREAP_NODES / 2 := hsize
      rcases hm : merge left right env with ⟨e' | t, env₁⟩ <;> rw [hm] at h
      · cases h
        exact (merge_yields hl hr (hsize'.trans (Nat.div_le_self _ _))).of_error hm
      · cases h
    · cases h
  · cases h

/-- A removal below a route node, which may throw, and the merge after it. -/
theorem afterRemove_raises {child n n' : Node} {r : Except Fault Bool} {env env' : Env} {e : Fault}
    (hremove : ∀ e, r = .error e → ∃ x, e = .exn x) (hwf : ∀ b, r = .ok b → n.Wf)
    (h : afterRemove child (r, n, env) = (.error e, n', env')) : ∃ x, e = .exn x := by
  unfold afterRemove at h
  split_ifs at h
  · cases h
    exact hremove e rfl
  · cases r with
    | error e' =>
        cases h
        exact hremove e rfl
    | ok b =>
        simp only at h
        rcases hm : mergeBases n env with ⟨e' | _, n₁, env₁⟩ <;> rw [hm] at h
        · cases h
          exact mergeBases_raises (hwf b rfl) hm
        · cases h

theorem remove_raises (val : ℤ) : ∀ {n n' : Node} {env env' : Env} {e : Fault}, n.Wf →
    remove val n env = (.error e, n', env') → ∃ x, e = .exn x
  | .base old t, n', env, env', e, ⟨vs, hs, ho⟩, h => by
      rw [remove] at h
      rcases hr : t.immutableRemove val env with ⟨e₁ | ⟨t', b⟩, env₁⟩ <;> rw [hr] at h
      · cases h
        exact (immutableRemove_yields val hs).of_error hr
      · cases h
  | .route key left right, n', env, env', e, ⟨hl, hr, hle, hlt⟩, h => by
      rw [remove] at h
      split_ifs at h
      · rcases hi : remove val left env with ⟨r, l', env₁⟩
        rw [hi] at h
        refine afterRemove_raises (r := r) (fun e he => remove_raises val hl (he ▸ hi)) (fun b hb => ?_) h
        have hs := remove_spec val hl (hb ▸ hi)
        exact ⟨hs.wf, hr, fun v hv => hle v (Multiset.mem_of_mem_erase (hs.values ▸ hv)), hlt⟩
      · rcases hi : remove val right env with ⟨r, r', env₁⟩
        rw [hi] at h
        refine afterRemove_raises (r := r) (fun e he => remove_raises val hr (he ▸ hi)) (fun b hb => ?_) h
        have hs := remove_spec val hr (hb ▸ hi)
        exact ⟨hl, hs.wf, hle, fun v hv => hlt v (Multiset.mem_of_mem_erase (hs.values ▸ hv))⟩

/-- A call has ended with a result or with an exception. -/
def ReturnsOrThrows (r : Except Fault Result) : Prop := ∀ e, r = .error e → ∃ x, e = .exn x

theorem call_returnsOrThrows {s : State} (h : s.head.Wf) (c : Call) : ReturnsOrThrows (call s c).1 := by
  intro e hcall
  unfold call at hcall
  cases c with
  | insert val =>
      rcases hi : insert val s.head s.env with ⟨e' | _, head, env⟩
      · simp only [hi, Except.map, Except.error.injEq] at hcall
        exact hcall ▸ insert_raises val h hi
      · simp [hi, Except.map] at hcall
  | remove val =>
      rcases hr : remove val s.head s.env with ⟨e' | b, head, env⟩
      · simp only [hr, Except.map, Except.error.injEq] at hcall
        exact hcall ▸ remove_raises val h hr
      · simp [hr, Except.map] at hcall
  | lookup val =>
      obtain ⟨found, hf, -⟩ := lookup_spec val h
      simp [hf, Except.map] at hcall
  | rangeQuery low high =>
      obtain ⟨values, hv, -⟩ := rangeQuery_spec low high h
      simp [hv, Except.map] at hcall

/-! ### Runs -/

/-- A call that ends in an exception is an update, and its failure is as described. -/
theorem call_error {s s' : State} {c : Call} {e : Fault} (h : s.head.Wf) (hcall : Calls s (c, .error e) s') :
    Failed s.head s'.head (CopyThrows s c) (updated c s.head.values) := by
  unfold Calls call at hcall
  cases c with
  | insert val =>
      rcases hi : insert val s.head s.env with ⟨e' | _, head, env⟩
      · simp only [hi, Except.map, Prod.mk.injEq] at hcall
        obtain ⟨-, rfl⟩ := hcall
        exact insert_error val h hi
      · simp [hi, Except.map] at hcall
  | remove val =>
      rcases hr : remove val s.head s.env with ⟨e' | b, head, env⟩
      · simp only [hr, Except.map, Prod.mk.injEq] at hcall
        obtain ⟨-, rfl⟩ := hcall
        exact remove_error val h hr
      · simp [hr, Except.map] at hcall
  | lookup val =>
      obtain ⟨found, hf, -⟩ := lookup_spec val h
      simp [hf, Except.map] at hcall
  | rangeQuery low high =>
      obtain ⟨values, hv, -⟩ := rangeQuery_spec low high h
      simp [hv, Except.map] at hcall

/-- Every call keeps the tree well formed, whatever it ends in. -/
theorem calls_wf {s s' : State} {l : Call × Except Fault Result} (h : s.head.Wf) (hcall : Calls s l s') : s'.head.Wf := by
  obtain ⟨c, r⟩ := l
  cases r with
  | error e => exact (call_error h hcall).wf
  | ok r => exact (returns_stored h hcall).2

theorem Initial.wf {s : State} (h : Initial s) : s.head.Wf := by
  obtain ⟨env, hnew⟩ := h
  exact (new_spec hnew).2.1

theorem reachable_wf {s₀ s : State} (hi : Initial s₀) (h : Reachable Calls s₀ s) : s.head.Wf := by
  obtain ⟨ls, hrun⟩ := h
  exact hrun.invariant (I := fun s => s.head.Wf) (fun _ _ _ => calls_wf) hi.wf

/-- All calls of a run have returned or thrown an exception. -/
theorem run_returnsOrThrows {s₀ s : State} {ls : List (Call × Except Fault Result)} (hi : Initial s₀)
    (h : Run Calls s₀ ls s) : ∀ l ∈ ls, ReturnsOrThrows l.2 := by
  refine h.labels (I := fun s => s.head.Wf) (fun s l s' hwf hcall => ⟨calls_wf hwf hcall, ?_⟩) hi.wf
  have hends := call_returnsOrThrows hwf l.1
  rwa [show call s l.1 = (l.2, s') from hcall] at hends

/-- What the calls of `Treap::New` throw, made one after another on a pool of `n` elements. -/
def poolNews (n : ℕ) (k : ℕ) : Option Exn :=
  match Preallocatable.outcome "5Treap" n k with
  | .ok _ => none
  | .error e => some e

/-- An empty tree on a pool of `n` treaps, of which it has one. -/
def startPool (n : ℕ) : State := ⟨.base Empty Treap.empty, ⟨fun _ => ⟨0, zero_drawn⟩, 0, poolNews n, 1⟩⟩

theorem startPool_initial : Initial (startPool 65) := ⟨⟨fun _ => ⟨0, zero_drawn⟩, 0, poolNews 65, 0⟩, rfl⟩

/-- The tree with 63 values, where the pool has one treap left. -/
def nearlyFull : State := after (startPool 65) ((List.range 63).map fun v : ℕ => .insert v)

set_option maxRecDepth 100000 in
/-- The 64th insertion takes the last treap of the pool and then makes the base node split. -/
theorem insert_throws : ∃ e, Calls nearlyFull (.insert 63, .error e) (after nearlyFull [.insert 63]) := by
  have h : (call nearlyFull (.insert 63)).1.isOk = false := by decide +kernel
  cases hr : (call nearlyFull (.insert 63)).1 with
  | error e => exact ⟨e, Prod.ext hr rfl⟩
  | ok r =>
      rw [hr] at h
      cases h

/-- An update that ends in an exception has left the tree as it was, if the copy of the treap threw, or
is complete, if the split or the merge threw; all values are found afterwards. -/
theorem update_error {s₀ s s' : State} {c : Call} {e : Fault} (hi : Initial s₀) (hreach : Reachable Calls s₀ s)
    (hcall : Calls s (c, .error e) s') :
    (CopyThrows s c → s'.head = s.head) ∧ (¬ CopyThrows s c → s'.head.values = updated c s.head.values) ∧
      ∀ v ∈ s'.head.values, lookup v s'.head = .ok true := by
  have h := call_error (reachable_wf hi hreach) hcall
  refine ⟨h.unchanged, h.completed, fun v hv => ?_⟩
  obtain ⟨found, hf, hiff⟩ := lookup_spec v h.wf
  rw [hf, hiff.mpr hv]

theorem update_error_insert : ∃ e, Calls nearlyFull (.insert 63, .error e) (after nearlyFull [.insert 63]) ∧
    ∀ v ∈ (after nearlyFull [.insert 63]).head.values, lookup v (after nearlyFull [.insert 63]).head = .ok true := by
  obtain ⟨e, hcall⟩ := insert_throws
  exact ⟨e, hcall, (update_error startPool_initial ⟨_, run_after _ _⟩ hcall).2.2⟩

set_option maxRecDepth 100000 in
/-- The insertion that ends in an exception has added its value. -/
theorem update_error_adds : ∃ s₀ s s' e, Initial s₀ ∧ Reachable Calls s₀ s ∧ Calls s (.insert 63, .error e) s' ∧
    s'.head.values ≠ s.head.values := by
  obtain ⟨e, hcall⟩ := insert_throws
  refine ⟨_, nearlyFull, _, e, startPool_initial, ⟨_, run_after _ _⟩, hcall, fun hvals => ?_⟩
  have h₁ : (nearlyFull.head.values).card = 63 := by decide +kernel
  have h₂ : ((after nearlyFull [.insert 63]).head.values).card = 64 := by decide +kernel
  exact absurd (h₁.symm.trans ((congrArg Multiset.card hvals).symm.trans h₂)) (by decide)

end LockFreeSearchTree.MrlockTree
