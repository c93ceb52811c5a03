import LockFreeSearchTree.Discipline
import LockFreeSearchTree.LfcaProtocol
import LockFreeSearchTree.LfcaRuns

/-! # The errors of treaps in the lock-free tree

No call of the lock-free tree gets into the error branch of a treap, in any interleaving.

* **Treaps.** Every treap a node points to stores values (`Steady`), and nodes keep their treaps
  (`Later`), so what a size check has found out about the treap of a node still holds when the
  treap is used.
* **Guards.** `Guarded` says where the treap operations do not throw.  `discipline` makes it the
  guard of every operation and allows no exceptions but those of the pools.  The operations on the
  pools change nothing but the pools, in any discipline (`fromPool_follows`).
* **Functions.** One theorem for each function of the source; where what it returns matters, it is
  about `Follows`, otherwise about `Behaves`. -/

namespace LockFreeSearchTree

open BinTree Concurrent

namespace Treap

/-! ### Sound treaps -/

/-- The treap stores values, in whatever order. -/
def Sound (t : Treap) : Prop := ∃ vs, t.Stores vs

variable {t l r : Treap}

theorem Sound.insert (h : t.Sound) (v : ℤ) (hsize : t.size < TREAP_NODES) : Yields (t.immutableInsert v) Sound := by
  obtain ⟨vs, hst⟩ := h
  apply (immutableInsert_yields v hst hsize).mono
  rintro t' ⟨as, bs, _, hst', _⟩
  exact ⟨_, hst'⟩

theorem Sound.remove (h : t.Sound) (v : ℤ) : Yields (t.immutableRemove v) (fun q => q.1.Sound) := by
  obtain ⟨vs, hst⟩ := h
  apply (immutableRemove_yields v hst).mono
  rintro ⟨t', success⟩ ⟨htrue, hfalse⟩
  cases success with
  | true =>
      obtain ⟨as, bs, _, hst'⟩ := htrue rfl
      exact ⟨_, hst'⟩
  | false =>
      obtain ⟨rfl, _⟩ := hfalse rfl
      exact ⟨vs, hst⟩

theorem Sound.split (h : t.Sound) (hne : t.size ≠ 0) : Yields t.split (fun q => q.2.1.Sound ∧ q.2.2.Sound) := by
  obtain ⟨vs, hst⟩ := h
  have hvs : vs ≠ [] := fun he => hne (by rw [← hst.length, he]; rfl)
  apply (split_yields hst hvs).mono
  rintro q ⟨ls, rs, _, hl, hr, _⟩
  exact ⟨⟨ls, hl⟩, ⟨rs, hr⟩⟩

theorem Sound.merge (hl : l.Sound) (hr : r.Sound) (hsize : l.size + r.size ≤ TREAP_NODES) : Yields (merge l r) Sound := by
  obtain ⟨vs, hst⟩ := hl
  obtain ⟨ws, hst'⟩ := hr
  exact (merge_yields hst hst' hsize).mono fun _ h => ⟨_, h⟩

theorem Sound.getMaxValue (h : t.Sound) (hne : t.size ≠ 0) : ∃ v, t.getMaxValue = .ok v := by
  obtain ⟨vs, hst⟩ := h
  obtain ⟨v, _, hv⟩ := getMaxValue_spec hst fun he => hne (by rw [← hst.length, he]; rfl)
  exact ⟨v, hv⟩

theorem Sound.rangeQuery (h : t.Sound) (min max : ℤ) : ∃ vs, t.rangeQuery min max = .ok vs := by
  obtain ⟨_, hst⟩ := h
  obtain ⟨vs, hvs, _⟩ := rangeQuery_stores min max hst
  exact ⟨vs, hvs⟩

theorem Sound.contains (h : t.Sound) (v : ℤ) : ∃ b, t.contains v = .ok b := by
  obtain ⟨_, hst⟩ := h
  obtain ⟨b, hb, _⟩ := contains_spec v hst
  exact ⟨b, hb⟩

end Treap

namespace Lfca

/-! ### The discipline -/

/-- The treap operations are not performed where they throw. -/
def Op.Guarded : Op → Prop
  | .pool (.insert t _) => t.size < TREAP_NODES
  | .pool (.split t) => t.size ≠ 0
  | .pool (.merge left right) => left.size + right.size ≤ TREAP_NODES
  | _ => True

/-- The treaps in memory are sound, and the pools are those of `s₀`. -/
structure Steady (s₀ s : Shared) : Prop where
  next : firstPtr ≤ s.next
  sound : ∀ p t, s.Allocated p → (s.nodes p).data = some t → t.Sound
  pools : s₀.pools.Same s.pools

/-- The nodes keep their treaps. -/
structure Later (s s' : Shared) : Prop where
  next : s.next ≤ s'.next
  data : ∀ p, s.Allocated p → (s'.nodes p).data = (s.nodes p).data

theorem Later.allocated {s s' : Shared} {p : Ptr} (h : Later s s') (hp : s.Allocated p) : s'.Allocated p :=
  ⟨hp.1, hp.2.trans_le h.next⟩

theorem Later.refl (s : Shared) : Later s s := ⟨le_refl _, fun _ _ => rfl⟩

theorem Later.trans {s s' s'' : Shared} (h : Later s s') (h' : Later s' s'') : Later s s'' :=
  ⟨h.next.trans h'.next, fun p hp => (h'.data p (h.allocated hp)).trans (h.data p hp)⟩

/-- Only the pools throw. -/
def discipline (s₀ : Shared) : Discipline Access Shared Fault where
  inv := Steady s₀
  le := Later
  le_refl := Later.refl
  le_trans := Later.trans
  guard := fun a _ => a.op.Guarded
  fault := fun e => ∀ x, e = .exn x → s₀.pools.Throws x

/-- A program whose result satisfies `post`. -/
abbrev Tells {α : Type} (s₀ : Shared) (p : LfcaM α) (post : α → Shared → Prop) (s : Shared) : Prop :=
  Follows exec (discipline s₀) p post s

/-- A program of whose result nothing is known. -/
abbrev Tame {α : Type} (s₀ : Shared) (p : LfcaM α) : Prop := Behaves exec (discipline s₀) p

variable {s₀ s s' : Shared} {n p b m : Ptr} {t : Treap}

/-! ### Operations -/

/-- The operations that take nothing from the pools. -/
def Op.Simple : Op → Prop
  | .pool _ | .new _ | .newRs => False
  | _ => True

theorem data_update (s : Shared) (q : Ptr) (f : Node → Node) (hf : ∀ d : Node, (f d).data = d.data) (p : Ptr) :
    ((s.update q f).nodes p).data = (s.nodes p).data := by
  by_cases hp : p = q
  · subst hp
    simp [Shared.update, hf]
  · simp [Shared.update, hp]

theorem data_set (d : Node) (f : Field) (x : Ptr) : (d.set f x).data = d.data := by
  rcases f with (_ | _) | _ | _ <;> rfl

theorem data_assign (d : Node) (f : PlainField) (x : Ptr) : (d.assign f x).data = d.data := by
  cases f <;> rfl

/-- States that differ in links and results only. -/
structure Rewired (s s' : Shared) : Prop where
  next : s'.next = s.next
  data : ∀ p, (s'.nodes p).data = (s.nodes p).data
  pools : s'.pools = s.pools

theorem Rewired.refl (s : Shared) : Rewired s s := ⟨rfl, fun _ => rfl, rfl⟩

theorem Rewired.update (s : Shared) (q : Ptr) {f : Node → Node} (hf : ∀ d : Node, (f d).data = d.data) :
    Rewired s (s.update q f) := ⟨rfl, data_update s q f hf, rfl⟩

theorem Rewired.later (h : Rewired s s') : Later s s' := ⟨h.next.ge, fun p _ => h.data p⟩

theorem Rewired.steady (h : Rewired s s') (hs : Steady s₀ s) : Steady s₀ s' := by
  constructor
  · rw [h.next]
    exact hs.next
  · intro p t hp ht
    rw [h.data] at ht
    rw [Shared.Allocated, h.next] at hp
    exact hs.sound p t hp ht
  · rw [h.pools]
    exact hs.pools

theorem onNode_error {α : Type} {x : α × Shared} {e : Fault} (h : onNode s p x = .error e) : e = .undefinedBehaviour := by
  unfold onNode at h
  split_ifs at h
  cases h
  rfl

theorem onStore_error {α : Type} {x : α × Shared} {e : Fault} (h : onStore s p x = .error e) : e = .undefinedBehaviour := by
  unfold onStore at h
  split_ifs at h
  cases h
  rfl

/-- The simple operations leave treaps and pools alone, and fail in undefined behaviour only. -/
theorem Op.Simple.exec {o : Op} (h : o.Simple) (s : Shared) :
    (∀ e, o.exec s = .error e → e = .undefinedBehaviour) ∧ ∀ r s', o.exec s = .ok (r, s') → Rewired s s' := by
  have hnode : ∀ {α : Type} {p : Ptr} {x : α × Shared}, Rewired s x.2 →
      (∀ e, onNode s p x = .error e → e = .undefinedBehaviour) ∧ ∀ r s', onNode s p x = .ok (r, s') → Rewired s s' := by
    intro α p x hx
    refine ⟨fun e he => onNode_error he, fun r s' he => ?_⟩
    have hs : s' = x.2 := congrArg Prod.snd (onNode_ok he).2
    rw [hs]
    exact hx
  have hstore : ∀ {α : Type} {p : Ptr} {x : α × Shared}, Rewired s x.2 →
      (∀ e, onStore s p x = .error e → e = .undefinedBehaviour) ∧ ∀ r s', onStore s p x = .ok (r, s') → Rewired s s' := by
    intro α p x hx
    refine ⟨fun e he => onStore_error he, fun r s' he => ?_⟩
    have hs : s' = x.2 := congrArg Prod.snd (onStore_ok he)
    rw [hs]
    exact hx
  have hres : ∀ (p : Ptr) (f : Rs → Rs), Rewired s (s.updateStore p f) := fun p f => ⟨rfl, fun _ => rfl, rfl⟩
  cases o with
  | loadRoot => exact ⟨fun e he => (by cases he), fun r s' he => (by cases he; exact .refl s)⟩
  | casRoot expected desired =>
      refine ⟨fun e he => (by cases he), fun r s' he => ?_⟩
      simp only [Op.exec] at he
      split_ifs at he <;> cases he
      · exact ⟨rfl, fun _ => rfl, rfl⟩
      · exact .refl s
  | plain n => exact hnode (.refl s)
  | assign n f q => exact hnode (.update s n fun d => data_assign d f q)
  | load n f => exact hnode (.refl s)
  | store n f q => exact hnode (.update s n fun d => data_set d f q)
  | cas n f expected desired =>
      apply hnode
      split_ifs
      · exact .update s n fun d => data_set d f desired
      · exact .refl s
  | loadValid n => exact hnode (.refl s)
  | storeValid n b => exact hnode (.update (f := fun d => { d with valid := b }) s n fun _ => rfl)
  | loadResult q => exact hstore (.refl s)
  | casResult q result =>
      apply hstore
      split
      · exact hres q fun r => { r with result := some result }
      · exact .refl s
  | loadMore q => exact hstore (.refl s)
  | storeMore q b => exact hstore (hres q fun r => { r with moreThanOneBase := b })
  | _ => exact h.elim

theorem Op.Simple.guarded {o : Op} (h : o.Simple) : o.Guarded := by
  cases o <;> trivial

theorem undefined_allowed : (discipline s₀).fault .undefinedBehaviour := fun _ he => by cases he

theorem outOfFuel_allowed : (discipline s₀).fault .outOfFuel := fun _ he => by cases he

/-- A simple operation, and what it tells about the state it leaves. -/
theorem Op.Simple.tells {o : Op} (h : o.Simple) {caller : Option Ptr} {post : o.Ret → Shared → Prop}
    (hpost : ∀ s' r s'' s₃, Steady s₀ s' → o.exec s' = .ok (r, s'') → Later s'' s₃ → post r s₃) :
    Tells s₀ (Prog.perform (⟨o, caller⟩ : Access)) post s := by
  refine Follows.perform fun s' _ hs' _ => ⟨h.guarded, fun e he => ?_, fun r s'' hexec _ _ => ?_⟩
  · rw [(h.exec s').1 e he]
    exact undefined_allowed
  · have hr := (h.exec s').2 r s'' hexec
    exact ⟨hr.steady hs'.inv, hr.later, fun s₃ hle _ => hpost s' r s'' s₃ hs'.inv hexec hle⟩

theorem Op.Simple.tame {o : Op} (h : o.Simple) {caller : Option Ptr} : Tame s₀ (Prog.perform (⟨o, caller⟩ : Access)) :=
  fun _ _ => h.tells fun _ _ _ _ _ _ _ => trivial

/-- The node `p` points to the treap `t`. -/
structure Points (p : Ptr) (t : Treap) (s : Shared) : Prop where
  allocated : s.Allocated p
  data : (s.nodes p).data = some t

theorem Points.later (h : Points p t s) (hle : Later s s') : Points p t s' :=
  ⟨hle.allocated h.allocated, (hle.data p h.allocated).trans h.data⟩

theorem plain_tells : Tells s₀ (plain n) (fun a s => s.Allocated n ∧ (s.nodes n).data = a.data) s := by
  apply Op.Simple.tells (o := .plain n) trivial
  intro s' a s'' s₃ _ hexec hle
  obtain ⟨hn, he⟩ := onNode_ok hexec
  cases he
  exact ⟨hle.allocated hn, hle.data n hn⟩

theorem dataOf_tells (hs : (discipline s₀).Good s) : Tells s₀ (dataOf n) (fun t s => Points n t s ∧ t.Sound) s := by
  refine Follows.bind hs plain_tells fun a s' hs' _ ha => ?_
  cases hd : a.data with
  | none => exact .raise undefined_allowed
  | some t =>
      have hp : Points n t s' := ⟨ha.1, ha.2.trans hd⟩
      exact .pure fun s'' hle _ => ⟨hp.later hle, hs'.inv.sound n t hp.allocated hp.data⟩

theorem allocs_pools (ns : List Node) (s : Shared) : (ns.foldl Shared.alloc s).pools = s.pools := by
  induction ns generalizing s with
  | nil => rfl
  | cons d ns ih => exact ih (s.alloc d)

/-- Nodes with sound treaps are taken from the pool. -/
theorem Steady.allocs {ns : List Node} (hs : Steady s₀ s) (h : ∀ d ∈ ns, ∀ t, d.data = some t → t.Sound) :
    Steady s₀ (ns.foldl Shared.alloc s) ∧ Later s (ns.foldl Shared.alloc s) := by
  obtain ⟨_, hnext, hold, hnew⟩ := Lfca.allocs ns s
  constructor
  · refine ⟨?_, fun p t hp ht => ?_, (allocs_pools ns s).symm ▸ hs.pools⟩
    · rw [hnext]
      exact Nat.le_add_right_of_le hs.next
    by_cases hlt : p < s.next
    · rw [hold p hlt] at ht
      exact hs.sound p t ⟨hp.1, hlt⟩ ht
    · obtain ⟨i, rfl⟩ : ∃ i, p = s.next + i := ⟨p - s.next, (Nat.add_sub_of_le (not_lt.mp hlt)).symm⟩
      have hi : i < ns.length := by
        have := hp.2
        rw [hnext] at this
        exact Nat.lt_of_add_lt_add_left this
      rw [hnew i _ (List.getElem?_eq_getElem hi)] at ht
      exact h _ (List.getElem_mem hi) t ht
  · refine ⟨?_, fun p hp => by rw [hold p hp.2]⟩
    rw [hnext]
    exact Nat.le_add_right _ _

/-- Nodes with sound treaps. -/
theorem new_admits {nodes : Ptr → List Node} {caller : Option Ptr} {post : Ptr → Shared → Prop} (hs : Steady s₀ s)
    (h : ∀ d ∈ nodes s.next, ∀ t, d.data = some t → t.Sound)
    (hpost : post s.next ((nodes s.next).foldl Shared.alloc s)) :
    (discipline s₀).Admits exec (⟨.new nodes, caller⟩ : Access) post s := by
  refine ⟨trivial, fun e he => (by cases he), fun r s' hexec _ _ => ?_⟩
  cases hexec
  obtain ⟨hsteady, hlater⟩ := hs.allocs h
  exact ⟨hsteady, hlater, hpost⟩

theorem new_tame {nodes : Ptr → List Node} (h : ∀ p, ∀ d ∈ nodes p, ∀ t, d.data = some t → t.Sound) :
    Tame s₀ (perform (.new nodes)) :=
  fun _ _ => .perform fun _ _ hs' _ => new_admits hs'.inv (h _) fun _ _ _ => trivial

/-- One new node, which points to its treap from now on. -/
theorem new_tells {d : Node} (ht : d.data = some t) (hsound : t.Sound) : Tells s₀ (new d) (Points · t) s := by
  refine Follows.perform fun s' _ hs' _ => new_admits hs'.inv (fun d' hd' t' ht' => ?_) fun s₃ hle _ => ?_
  · cases List.mem_singleton.mp hd'
    cases ht.symm.trans ht'
    exact hsound
  · refine Points.later ⟨⟨hs'.inv.next, Nat.lt_succ_self _⟩, ?_⟩ hle
    show ((s'.alloc d).nodes s'.next).data = some t
    rw [Shared.nodes_alloc, ht]

/-- An operation on the pools, in a discipline that does not mind what has been taken from them. -/
theorem fromPool_follows {D : Discipline Access Shared Fault} {o : PoolOp} {Q : o.Val → Prop} (hs : D.Good s)
    (hguard : ∀ s, D.ready ⟨.pool o, none⟩ s → D.guard ⟨.pool o, none⟩ s ∧ o.Gives Q)
    (hkeep : ∀ s P, D.Good s → s.pools.Same P → D.moves s { s with pools := P } →
      D.inv { s with pools := P } ∧ D.le s { s with pools := P })
    (hthrows : ∀ s x, D.Good s → s.pools.Throws x → D.fault (.exn x)) :
    Follows exec D (fromPool o) (fun r _ => Q r) s := by
  have hperform : Follows exec D (perform (.pool o))
      (fun r _ => (∃ a, r = .ok a ∧ Q a) ∨ ∃ x, r = .error (.exn x) ∧ D.fault (.exn x)) s := by
    refine .perform fun s' _ hs' hready => ?_
    obtain ⟨hg, hgives⟩ := hguard s' hready
    obtain ⟨hsame, hresult⟩ := hgives s'.pools
    refine ⟨hg, fun e he => (by cases he), fun r s'' hexec _ hmoves => ?_⟩
    cases hexec
    obtain ⟨hinv, hle⟩ := hkeep s' _ hs' hsame hmoves
    refine ⟨hinv, hle, fun _ _ _ => ?_⟩
    exact hresult.imp_right fun ⟨x, hx, hthrown⟩ => ⟨x, hx, hthrows s' x hs' hthrown⟩
  refine .bind hs hperform fun r s' _ _ hr => ?_
  rcases hr with ⟨a, rfl, hQ⟩ | ⟨x, rfl, hx⟩
  · exact .pure fun _ _ _ => hQ
  · exact .raise hx

/-- An operation on the pools, where it does not throw by itself. -/
theorem fromPool_tells {o : PoolOp} {Q : o.Val → Prop} (hs : (discipline s₀).Good s) (hg : (Op.pool o).Guarded)
    (ho : o.Gives Q) : Tells s₀ (fromPool o) (fun r _ => Q r) s := by
  refine fromPool_follows hs (fun _ _ => ⟨hg, ho⟩) (fun s P hs hsame _ => ?_) fun s x hs hx y hy => ?_
  · exact ⟨⟨hs.inv.next, hs.inv.sound, hs.inv.pools.trans hsame⟩, ⟨le_refl _, fun _ _ => rfl⟩⟩
  · cases hy
    exact hs.inv.pools.throws.mp hx

/-- An operation on a treap, where it does not throw by itself. -/
theorem treap_tells {o : PoolOp} {f : TreapM o.Val} {Q : o.Val → Prop} (hs : (discipline s₀).Good s)
    (ho : ∀ P, o.exec P = PoolOp.onTreaps P f) (hg : (Op.pool o).Guarded) (hf : Yields f Q) :
    Tells s₀ (fromPool o) (fun r _ => Q r) s := fromPool_tells hs hg (PoolOp.gives_of_yields ho hf)

theorem node_tame : Tame s₀ (fromPool .node) := fun _ hs => fromPool_tells hs trivial PoolOp.gives_node

theorem newRs_tame : Tame s₀ newRs := by
  refine .bind (fun _ hs => fromPool_tells hs trivial PoolOp.gives_rs) fun _ _ _ => .perform fun s' _ hs' _ => ?_
  refine ⟨trivial, fun e he => (by cases he), fun r s'' hexec _ _ => ?_⟩
  cases hexec
  exact ⟨⟨hs'.inv.next, hs'.inv.sound, hs'.inv.pools⟩, ⟨le_refl _, fun _ _ => rfl⟩, fun _ _ _ => trivial⟩

theorem loadRoot_tame : Tame s₀ loadRoot := Op.Simple.tame (o := .loadRoot) trivial

theorem plain_tame : Tame s₀ (plain n) := Op.Simple.tame (o := .plain n) trivial

theorem load_tame {f : Field} : Tame s₀ (load n f) := Op.Simple.tame (o := .load n f) trivial

theorem store_tame {f : Field} {x : Ptr} : Tame s₀ (store n f x) := Op.Simple.tame (o := .store n f x) trivial

theorem cas_tame {f : Field} {e x : Ptr} : Tame s₀ (cas n f e x) := Op.Simple.tame (o := .cas n f e x) trivial

theorem loadValid_tame : Tame s₀ (loadValid n) := Op.Simple.tame (o := .loadValid n) trivial

theorem loadResult_tame : Tame s₀ (loadResult p) := Op.Simple.tame (o := .loadResult p) trivial

theorem loadMore_tame : Tame s₀ (loadMore p) := Op.Simple.tame (o := .loadMore p) trivial

/-! ### Copies -/

/-- The fields of a copy of `b` are those of a node with the treap of `b`. -/
theorem copyOf_tells (hs : (discipline s₀).Good s) :
    Tells s₀ (copyOf b) (fun d s => s.Allocated b ∧ (s.nodes b).data = d.data) s := by
  refine .bind hs (node_tame s hs) fun _ s₀' hs₀ _ _ => .bind hs₀ plain_tells fun a s₁ hs₁ _ ha => ?_
  refine .bind hs₁ (load_tame _ hs₁) fun left s₂ hs₂ hle₂ _ => .bind hs₂ (load_tame _ hs₂) fun right s₃ hs₃ hle₃ _ => ?_
  refine .bind hs₃ (loadValid_tame _ hs₃) fun valid s₄ hs₄ hle₄ _ => .bind hs₄ (load_tame _ hs₄) fun joinId s₅ hs₅ hle₅ _ => ?_
  refine .bind hs₅ (load_tame _ hs₅) fun neigh2 s₆ _ hle₆ _ => .pure fun s₇ hle₇ _ => ?_
  have hle : Later s₁ s₇ := ((((hle₂.trans hle₃).trans hle₄).trans hle₅).trans hle₆).trans hle₇
  exact ⟨hle.allocated ha.1, (hle.data b ha.1).trans ha.2⟩

/-- `node::New(*b)`: the copy is made of a node with the treap of `b`. -/
theorem newCopy_follows {f : Node → Node} {post : Ptr → Shared → Prop} (hs : (discipline s₀).Good s)
    (h : ∀ (d : Node) s', (discipline s₀).Good s' → Later s s' → s'.Allocated b → (s'.nodes b).data = d.data →
      Tells s₀ (new (f d)) post s') : Tells s₀ (newCopy b f) post s :=
  .bind hs (copyOf_tells hs) fun d s' hs' hle hd => h d s' hs' hle hd.1 hd.2

/-- A copy points to the same treap. -/
theorem newCopy_tells {f : Node → Node} (hs : (discipline s₀).Good s) (hp : Points b t s) (ht : t.Sound)
    (hf : ∀ d : Node, (f d).data = d.data) : Tells s₀ (newCopy b f) (Points · t) s := by
  refine newCopy_follows hs fun d s' _ hle _ hd => new_tells ?_ ht
  rw [hf, ← hd]
  exact (hp.later hle).data

/-- Whatever node is copied, its treap is sound. -/
theorem newCopy_tame {f : Node → Node} (hf : ∀ d : Node, (f d).data = d.data ∨ ∃ t, t.Sound ∧ (f d).data = some t) :
    Tame s₀ (newCopy b f) := by
  refine fun s hs => newCopy_follows hs fun d s' hs' _ hall hd => ?_
  have hsound : ∀ t, (f d).data = some t → t.Sound := by
    intro t ht
    cases hf d with
    | inl hkeep =>
        rw [hkeep, ← hd] at ht
        exact hs'.inv.sound b t hall ht
    | inr hother =>
        obtain ⟨t', hsound, ht'⟩ := hother
        cases ht'.symm.trans ht
        exact hsound
  have hnew : Tame s₀ (new (f d)) := new_tame fun _ d' hd' => by
    rw [List.mem_singleton.mp hd']
    exact hsound
  exact hnew s' hs'

/-! ### Helper functions and searches -/

theorem derefResult_tame : Tame s₀ (derefResult p) := by
  refine .bind loadResult_tame fun values => ?_
  cases values with
  | none => exact .raise undefined_allowed
  | some values => exact .pure

theorem outermost_tame (d : Side) (fuel : ℕ) : Tame s₀ (outermost d fuel n) := by
  induction fuel generalizing n with
  | zero => exact .raise outOfFuel_allowed
  | succ fuel ih => exact .bind load_tame fun _ => .ite (fun _ => .bind load_tame fun _ => ih) fun _ => .pure

theorem tryReplace_tame {caller : Option Ptr} {newB : Ptr} : Tame s₀ (tryReplace caller b newB) := by
  refine .bind plain_tame fun a => .ite (fun _ => Op.Simple.tame (o := .casRoot b newB) trivial) fun _ => ?_
  have hcas : ∀ d, Tame s₀ (Prog.perform (⟨.cas a.parent (.child d) b newB, caller⟩ : Access)) := fun d =>
    Op.Simple.tame (o := .cas a.parent (.child d) b newB) trivial
  refine .bind load_tame fun _ => .ite (fun _ => hcas _) fun _ => ?_
  exact .bind load_tame fun _ => .ite (fun _ => hcas _) fun _ => .pure

theorem isReplaceable_tame : Tame s₀ (isReplaceable n) := by
  refine .bind plain_tame fun a => ?_
  cases a.type with
  | route => exact .pure
  | normal => exact .pure
  | joinMain => exact .bind load_tame fun _ => .pure
  | joinNeighbor => exact .bind load_tame fun _ => .pure
  | range => exact .bind loadResult_tame fun _ => .pure

theorem newStat_tame (info : ContentionInfo) : Tame s₀ (newStat n info) := by
  refine .bind plain_tame fun a => ?_
  have hk : ∀ more : Bool, Tame s₀ (
      let rangeSub := if more then RANGE_CONTRIB else 0
      if info = .contended ∧ a.stat ≤ HIGH_CONT then pure (a.stat + CONT_CONTRIB - rangeSub)
      else if info = .uncontened ∧ a.stat ≥ LOW_CONT then pure (a.stat - LOW_CONT_CONTRIB - rangeSub)
      else pure a.stat) := fun more => .ite (fun _ => .pure) fun _ => .ite (fun _ => .pure) fun _ => .pure
  exact .ite (fun _ => .bind loadMore_tame hk) fun _ => hk false

theorem findBaseNode_tame (fuel : ℕ) (i : ℤ) : Tame s₀ (findBaseNode fuel n i) := by
  induction fuel generalizing n with
  | zero => exact .raise outOfFuel_allowed
  | succ fuel ih =>
      refine .bind plain_tame fun a => .ite (fun _ => ?_) fun _ => .pure
      exact .ite (fun _ => .bind load_tame fun _ => ih) fun _ => .bind load_tame fun _ => ih

theorem findBaseStackLoop_tame (fuel : ℕ) (i : ℤ) (st : List Ptr) : Tame s₀ (findBaseStackLoop fuel n i st) := by
  induction fuel generalizing n st with
  | zero => exact .raise outOfFuel_allowed
  | succ fuel ih =>
      refine .bind plain_tame fun a => .ite (fun _ => ?_) fun _ => .pure
      exact .ite (fun _ => .bind load_tame fun _ => ih _) fun _ => .bind load_tame fun _ => ih _

theorem leftmostAndStack_tame (fuel : ℕ) (st : List Ptr) : Tame s₀ (leftmostAndStack fuel n st) := by
  induction fuel generalizing n st with
  | zero => exact .raise outOfFuel_allowed
  | succ fuel ih => exact .bind plain_tame fun _ => .ite (fun _ => .bind load_tame fun _ => ih _) fun _ => .pure

theorem findNextBaseLoop_tame (fuel : ℕ) (i : ℤ) (st : List Ptr) : Tame s₀ (findNextBaseLoop fuel i st) := by
  induction st with
  | nil => exact .pure
  | cons n st ih =>
      refine .bind loadValid_tame fun _ => .bind plain_tame fun _ => .ite (fun _ => ?_) fun _ => ih
      exact .bind load_tame fun _ => leftmostAndStack_tame fuel _

theorem findNextBaseStack_tame (fuel : ℕ) (st : List Ptr) : Tame s₀ (findNextBaseStack fuel st) := by
  cases st with
  | nil => exact .raise undefined_allowed
  | cons base st =>
      cases st with
      | nil => exact .pure
      | cons n st =>
          refine .bind load_tame fun _ => .ite (fun _ => .bind load_tame fun _ => leftmostAndStack_tame fuel _) fun _ => ?_
          exact .bind plain_tame fun _ => findNextBaseLoop_tame fuel _ _

theorem parentOfLoop_tame (fuel : ℕ) (prev curr : Ptr) : Tame s₀ (parentOfLoop fuel n prev curr) := by
  induction fuel generalizing prev curr with
  | zero => exact .raise outOfFuel_allowed
  | succ fuel ih =>
      refine .bind plain_tame fun c => .ite (fun _ => ?_) fun _ => .ite (fun _ => .pure) fun _ => .pure
      refine .bind plain_tame fun a => .ite (fun _ => ?_) fun _ => ?_
      · exact .bind load_tame fun _ => ih _ _
      · exact .bind load_tame fun _ => ih _ _

/-! ### Splits -/

/-- A treap is split only if it has two values at least. -/
theorem highContentionAdaptation_tame : Tame s₀ (highContentionAdaptation b) := by
  intro s hs
  refine .bind hs (dataOf_tells hs) fun data s₁ hs₁ _ hdata => .ite (fun _ => .pure fun _ _ _ => trivial) fun hsize => ?_
  have hne : data.size ≠ 0 := fun he => hsize (by
    show data.size < 2
    omega)
  refine .bind hs₁ (node_tame s₁ hs₁) fun _ s₂ hs₂ _ _ => ?_
  refine .bind hs₂ (treap_tells (o := .split data) hs₂ (fun _ => rfl) hne (hdata.2.split hne)) fun r s₃ hs₃ _ hr => ?_
  obtain ⟨splitVal, leftTreap, rightTreap⟩ := r
  refine Behaves.bind node_tame (fun _ => .bind node_tame fun _ => .bind (new_tame fun p d hd t ht => ?_) fun _ =>
    .bind tryReplace_tame fun _ => .pure) s₃ hs₃
  simp only [splitNodes, List.mem_cons, List.not_mem_nil, or_false] at hd
  rcases hd with rfl | rfl | rfl
  · cases ht
  · cases ht
    exact hr.1
  · cases ht
    exact hr.2

/-! ### Joins -/

theorem abortJoin_tame : Tame s₀ (abortJoin m) := .bind store_tame fun _ => .pure

theorem unlockParent_tame : Tame s₀ (do
    store p .joinId nullptr
    abortJoin m) := .bind store_tame fun _ => abortJoin_tame

/-- The treaps that are merged are those whose sizes were checked. -/
theorem mergeData_tells {n1 : Ptr} {tm tn : Treap} (side : Side) (hs : (discipline s₀).Good s) (hm : Points m tm s) (hn : Points n1 tn s)
    (hsize : tm.size + tn.size ≤ TREAP_NODES) : Tells s₀ (mergeData m n1 side) (fun t _ => t.Sound) s := by
  have hdata : ∀ {q : Ptr} {t t' : Treap} {s s' : Shared}, Points q t s → Later s s' → Points q t' s' → t' = t :=
    fun hq hle hq' => Option.some.inj (hq'.data.symm.trans (hq.later hle).data)
  cases side with
  | left =>
      refine .bind hs (dataOf_tells hs) fun l s₁ hs₁ hle₁ hl => .bind hs₁ (dataOf_tells hs₁) fun r s₂ hs₂ hle₂ hr => ?_
      cases hdata hm hle₁ hl.1
      cases hdata hn (hle₁.trans hle₂) hr.1
      exact treap_tells (o := .merge tm tn) hs₂ (fun _ => rfl) hsize (hl.2.merge hr.2 hsize)
  | right =>
      refine .bind hs (dataOf_tells hs) fun l s₁ hs₁ hle₁ hl => .bind hs₁ (dataOf_tells hs₁) fun r s₂ hs₂ hle₂ hr => ?_
      cases hdata hn hle₁ hl.1
      cases hdata hm (hle₁.trans hle₂) hr.1
      rw [add_comm] at hsize
      exact treap_tells (o := .merge tn tm) hs₂ (fun _ => rfl) hsize (hl.2.merge hr.2 hsize)

theorem publishJoin_tame {n1 gparent : Ptr} {tm tn : Treap} (side : Side) (hs : (discipline s₀).Good s) (hm : Points m tm s)
    (hn : Points n1 tn s) (hsize : tm.size + tn.size ≤ TREAP_NODES) :
    Tells s₀ (publishJoin m n1 side gparent) (fun _ _ => True) s := by
  have hassign : ∀ {f : PlainField} {x : Ptr}, Tame s₀ (perform (.assign m f x)) := fun {f x} =>
    Op.Simple.tame (o := .assign m f x) trivial
  have hjoined : ∀ otherb, Tame s₀ (joinedParent otherb n1 gparent) := fun otherb =>
    .ite (fun _ => .pure) fun _ => .bind plain_tame fun _ => .pure
  refine .bind hs (plain_tame s hs) fun a s₁ hs₁ hle₁ _ => .bind hs₁ (hassign s₁ hs₁) fun _ s₂ hs₂ hle₂ _ => ?_
  refine .bind hs₂ (load_tame s₂ hs₂) fun otherb s₃ hs₃ hle₃ _ => .bind hs₃ (hassign s₃ hs₃) fun _ s₄ hs₄ hle₄ _ => ?_
  refine .bind hs₄ (hassign s₄ hs₄) fun _ s₅ hs₅ hle₅ _ => .bind hs₅ (hjoined otherb s₅ hs₅) fun joinedp s₆ hs₆ hle₆ _ => ?_
  have hle : Later s s₆ := ((((hle₁.trans hle₂).trans hle₃).trans hle₄).trans hle₅).trans hle₆
  refine .bind hs₆ (copyOf_tells hs₆) fun copy s₇ hs₇ hle₇ _ => ?_
  have hle' : Later s s₇ := hle.trans hle₇
  refine .bind hs₇ (mergeData_tells side hs₇ (hm.later hle') (hn.later hle') hsize) fun merged s₈ hs₈ _ hmerged => ?_
  refine Behaves.bind (new_tame fun _ d hd t ht => ?_) (fun newNeigh2 => ?_) s₈ hs₈
  · cases List.mem_singleton.mp hd
    cases ht
    exact hmerged
  · refine .bind cas_tame fun _ => .ite (fun _ => .pure) fun _ => ?_
    exact .ite (fun _ => .bind store_tame fun _ => unlockParent_tame) fun _ => unlockParent_tame

theorem enterJoin_tame (fuel : ℕ) {n1 : Ptr} {tm tn : Treap} (side : Side) (hs : (discipline s₀).Good s) (hm : Points m tm s)
    (hn : Points n1 tn s) (hsize : tm.size + tn.size ≤ TREAP_NODES) :
    Tells s₀ (enterJoin fuel m n1 side) (fun _ _ => True) s := by
  refine .bind hs (plain_tame s hs) fun a s₁ hs₁ hle₁ _ => .bind hs₁ (cas_tame s₁ hs₁) fun _ s₂ hs₂ hle₂ _ => ?_
  refine .ite (fun _ => abortJoin_tame s₂ hs₂) fun _ => ?_
  have hparent : Tame s₀ (parentOf fuel a.parent) := .bind loadRoot_tame fun _ => parentOfLoop_tame fuel _ _
  refine .bind hs₂ (hparent s₂ hs₂) fun gparent s₃ hs₃ hle₃ _ => .ite (fun _ => unlockParent_tame s₃ hs₃) fun _ => ?_
  have hle : Later s s₃ := (hle₁.trans hle₂).trans hle₃
  refine .ite (fun _ => ?_) fun _ => publishJoin_tame side hs₃ (hm.later hle) (hn.later hle) hsize
  refine .bind hs₃ (cas_tame s₃ hs₃) fun _ s₄ hs₄ hle₄ _ => .ite (fun _ => ?_) fun _ => unlockParent_tame s₄ hs₄
  exact publishJoin_tame side hs₄ (hm.later (hle.trans hle₄)) (hn.later (hle.trans hle₄)) hsize

/-- The copies that are joined point to the treaps of the nodes whose sizes were checked. -/
theorem secureJoin_tame (fuel : ℕ) (side : Side) : Tame s₀ (secureJoin fuel b side) := by
  refine .bind plain_tame fun a => .bind load_tame fun next => .bind (outermost_tame side fuel) fun n0 => ?_
  refine .bind isReplaceable_tame fun ok => .ite (fun _ => .pure) fun _ s hs => ?_
  refine .bind hs (dataOf_tells hs) fun tb s₁ hs₁ _ htb => .bind hs₁ (dataOf_tells hs₁) fun tn s₂ hs₂ hle₂ htn => ?_
  refine .ite (fun _ => .pure fun _ _ _ => trivial) fun hsize => ?_
  refine .bind hs₂ (newCopy_tells hs₂ (htb.1.later hle₂) htb.2 fun _ => rfl) fun m s₃ hs₃ hle₃ hm => ?_
  refine .bind hs₃ (cas_tame s₃ hs₃) fun _ s₄ hs₄ hle₄ _ => .ite (fun _ => .pure fun _ _ _ => trivial) fun _ => ?_
  have hn : Points n0 tn s₄ := htn.1.later (hle₃.trans hle₄)
  refine .bind hs₄ (newCopy_tells hs₄ hn htn.2 fun _ => rfl) fun n1 s₅ hs₅ hle₅ hn1 => ?_
  refine .bind hs₅ (tryReplace_tame s₅ hs₅) fun _ s₆ hs₆ hle₆ _ => .ite (fun _ => abortJoin_tame s₆ hs₆) fun _ => ?_
  exact enterJoin_tame fuel side hs₆ (hm.later ((hle₄.trans hle₅).trans hle₆)) (hn1.later hle₆) (not_lt.mp hsize)

theorem completeJoin_tame : Tame s₀ (completeJoin m) := by
  have hcas : ∀ {q : Ptr} {f : Field} {e x : Ptr}, Tame s₀ (performBy m (.cas q f e x)) := fun {q f e x} =>
    Op.Simple.tame (o := .cas q f e x) trivial
  refine .bind load_tame fun n2 => .ite (fun _ => .pure) fun _ => .bind plain_tame fun a => ?_
  refine .bind tryReplace_tame fun _ => .bind (Op.Simple.tame (o := .storeValid a.parent false) trivial) fun _ => ?_
  have hend : Tame s₀ (performBy m (.store m .neigh2 DONE)) := Op.Simple.tame (o := .store m .neigh2 DONE) trivial
  refine .ite (fun _ => ?_) fun _ => ?_
  · exact .bind (Op.Simple.tame (o := .casRoot a.parent _) trivial) fun _ => hend
  · have hunlink : ∀ {side : Side} {x : Ptr}, Tame s₀ (do
        let _ ← performBy m (.cas a.gparent (.child side) a.parent x)
        let _ ← performBy m (.cas a.gparent .joinId m nullptr)
        performBy m (.store m .neigh2 DONE)) := .bind hcas fun _ => .bind hcas fun _ => hend
    refine .bind load_tame fun _ => .ite (fun _ => hunlink) fun _ => ?_
    exact .bind load_tame fun _ => .ite (fun _ => hunlink) fun _ => hend

theorem lowContentionAdaptation_tame (fuel : ℕ) : Tame s₀ (lowContentionAdaptation fuel b) := by
  have hjoin : ∀ side, Tame s₀ (do
      let m ← secureJoin fuel b side
      if m ≠ nullptr then completeJoin m else return ()) := fun side =>
    .bind (secureJoin_tame fuel side) fun _ => .ite (fun _ => completeJoin_tame) fun _ => .pure
  refine .bind plain_tame fun a => .ite (fun _ => .pure) fun _ => .bind load_tame fun _ => .ite (fun _ => hjoin .left) fun _ => ?_
  exact .bind load_tame fun _ => .ite (fun _ => hjoin .right) fun _ => .pure

theorem adaptIfNeeded_tame (fuel : ℕ) : Tame s₀ (adaptIfNeeded fuel b) := by
  refine .bind isReplaceable_tame fun _ => .ite (fun _ => .pure) fun _ => .bind (newStat_tame _) fun _ => ?_
  refine .ite (fun _ => highContentionAdaptation_tame) fun _ => .bind (newStat_tame _) fun _ => ?_
  exact .ite (fun _ => lowContentionAdaptation_tame fuel) fun _ => .pure

/-! ### Range queries and helping -/

theorem collectValues_tame (lo hi : ℤ) (done : List Ptr) : Tame s₀ (collectValues lo hi done) := by
  induction done with
  | nil => exact .pure
  | cons b done ih =>
      intro s hs
      refine .bind hs (dataOf_tells hs) fun t s₁ hs₁ _ ht => ?_
      obtain ⟨vs, hvs⟩ := ht.2.rangeQuery lo hi
      rw [hvs]
      exact Behaves.bind .pure (fun _ => .bind ih fun _ => .pure) s₁ hs₁

theorem publishResult_tame (lo hi : ℤ) (done : List Ptr) : Tame s₀ (publishResult lo hi p done) := by
  refine .bind (collectValues_tame lo hi done) fun res => .bind (Op.Simple.tame (o := .casResult p res) trivial) fun _ => ?_
  refine .ite (fun _ => .ite (fun _ => ?_) fun _ => derefResult_tame) fun _ => derefResult_tame
  exact .bind (Op.Simple.tame (o := .storeMore p true) trivial) fun _ => derefResult_tame

/-- The walk of `all_in_range` and the helps it calls, which call it again. -/
theorem walk_tame (fuel : ℕ) : (∀ n, Tame s₀ (helpIfNeeded fuel n)) ∧ (∀ lo hi q, Tame s₀ (allInRange fuel lo hi q)) ∧
    (∀ lo hi q b st done, Tame s₀ (findRemaining fuel lo hi q b st done)) ∧
    ∀ lo hi q backup st done, Tame s₀ (findNextBaseNode fuel lo hi q backup st done) := by
  induction fuel with
  | zero =>
      refine ⟨fun _ => ?_, fun _ _ _ => ?_, fun _ _ _ _ _ _ => ?_, fun _ _ _ _ _ _ => ?_⟩
      · unfold helpIfNeeded
        exact .raise outOfFuel_allowed
      · unfold allInRange
        exact .raise outOfFuel_allowed
      · unfold findRemaining
        exact .raise outOfFuel_allowed
      · unfold findNextBaseNode
        exact .raise outOfFuel_allowed
  | succ fuel ih =>
      obtain ⟨hhelp, hrange, hrest, hnext⟩ := ih
      have hcopy : ∀ {b : Ptr} {lo hi : ℤ} {q : Ptr}, Tame s₀ (newRangeBase b lo hi q) := newCopy_tame fun _ => .inl rfl
      refine ⟨fun n => ?_, fun lo hi q => ?_, fun lo hi q b st done => ?_, fun lo hi q backup st done => ?_⟩
      · unfold helpIfNeeded
        refine .bind plain_tame fun a => .bind plain_tame fun d => ?_
        cases d.type with
        | joinMain =>
            refine .bind load_tame fun _ => .ite (fun _ => .bind cas_tame fun _ => .pure) fun _ => ?_
            exact .bind load_tame fun _ => .ite (fun _ => completeJoin_tame) fun _ => .pure
        | range =>
            exact .bind loadResult_tame fun _ => .ite (fun _ => .bind (hrange _ _ _) fun _ => .pure) fun _ => .pure
        | _ => exact .pure
      · unfold allInRange
        refine .bind loadRoot_tame fun root => .bind (findBaseStackLoop_tame fuel _ _) fun bs => .bind plain_tame fun a => ?_
        refine .ite (fun _ => .ite (fun _ => derefResult_tame) fun _ => hrest _ _ _ _ _ _) fun _ => ?_
        refine .bind isReplaceable_tame fun _ => .ite (fun _ => ?_) fun _ => .ite (fun _ => hrange _ _ _) fun _ => ?_
        · refine .bind newRs_tame fun _ => .bind hcopy fun _ => .bind tryReplace_tame fun _ => ?_
          exact .ite (fun _ => hrange _ _ _) fun _ => hrest _ _ _ _ _ _
        · exact .bind (hhelp _) fun _ => hrange _ _ _
      · unfold findRemaining
        intro s hs
        refine .bind hs (dataOf_tells hs) fun t s₁ hs₁ _ ht => .ite (fun hne => ?_) fun _ => hnext _ _ _ _ _ _ s₁ hs₁
        obtain ⟨v, hv⟩ := ht.2.getMaxValue hne
        rw [hv]
        refine Behaves.bind .pure (fun _ => .ite (fun _ => ?_) fun _ => hnext _ _ _ _ _ _) s₁ hs₁
        exact publishResult_tame lo hi _
      · unfold findNextBaseNode
        refine .bind (findNextBaseStack_tame fuel _) fun bs => .ite (fun _ => publishResult_tame lo hi _) fun _ => ?_
        refine .bind loadResult_tame fun _ => .ite (fun _ => derefResult_tame) fun _ => .bind plain_tame fun a => ?_
        refine .ite (fun _ => hrest _ _ _ _ _ _) fun _ => .bind isReplaceable_tame fun _ => .ite (fun _ => ?_) fun _ => ?_
        · refine .bind hcopy fun _ => .bind tryReplace_tame fun _ => ?_
          exact .ite (fun _ => hrest _ _ _ _ _ _) fun _ => hnext _ _ _ _ _ _
        · exact .bind (hhelp _) fun _ => hnext _ _ _ _ _ _

/-! ### Calls -/

/-- The function an update applies to a treap that is not full. -/
def SoundUpdate (s₀ : Shared) (u : Treap → ℤ → LfcaM (Treap × Bool)) : Prop :=
  ∀ t i s, (discipline s₀).Good s → t.Sound → t.size < TREAP_NODES → Tells s₀ (u t i) (fun r _ => r.1.Sound) s

theorem treapInsert_sound : SoundUpdate s₀ treapInsert := by
  intro t i s hs ht hsize
  refine .bind hs (treap_tells (o := .insert t i) hs (fun _ => rfl) hsize (ht.insert i hsize)) fun t' _ _ _ ht' => ?_
  exact .pure fun _ _ _ => ht'

theorem treapRemove_sound : SoundUpdate s₀ treapRemove := fun t i _ hs ht _ =>
  treap_tells (o := .remove t i) hs (fun _ => rfl) trivial (ht.remove i)

/-- The treap that is updated is the one whose size was checked. -/
theorem updateLoop_tame {β : Type} {u : Treap → ℤ → LfcaM (Treap × Bool)} {placed : ℕ → Ptr → Bool → LfcaM β}
    (hu : SoundUpdate s₀ u) (i : ℤ) (hplaced : ∀ fuel newb res, Tame s₀ (placed fuel newb res)) (fuel : ℕ)
    (info : ContentionInfo) : Tame s₀ (updateLoop u i placed fuel info) := by
  induction fuel generalizing info with
  | zero => exact .raise outOfFuel_allowed
  | succ fuel ih =>
      refine .bind loadRoot_tame fun root => .bind (findBaseNode_tame fuel i) fun base s hs => ?_
      refine .bind hs (dataOf_tells hs) fun t s₁ hs₁ _ ht => .ite (fun _ => ?_) fun hsize => ?_
      · exact Behaves.bind highContentionAdaptation_tame (fun _ => ih _) s₁ hs₁
      · have hagain : ∀ info, Tame s₀ (do
            helpIfNeeded fuel base
            updateLoop u i placed fuel info) := fun info => .bind ((walk_tame fuel).1 base) fun _ => ih info
        refine .bind hs₁ (isReplaceable_tame s₁ hs₁) fun _ s₂ hs₂ _ _ => .ite (fun _ => ?_) fun _ => hagain _ s₂ hs₂
        refine .bind hs₂ (node_tame s₂ hs₂) fun _ s₃ hs₃ _ _ => .bind hs₃ (plain_tame s₃ hs₃) fun a s₄ hs₄ _ _ => ?_
        refine .bind hs₄ (hu t i s₄ hs₄ ht.2 (not_le.mp hsize)) fun r s₅ hs₅ _ hr => ?_
        refine Behaves.bind (newStat_tame info) (fun stat => .bind (new_tame fun _ d hd t' ht' => ?_) fun newb => ?_) s₅ hs₅
        · cases List.mem_singleton.mp hd
          cases ht'
          exact hr
        · exact .bind tryReplace_tame fun _ => .ite (fun _ => hplaced fuel newb r.2) fun _ => hagain _

theorem doUpdateLoop_tame {u : Treap → ℤ → LfcaM (Treap × Bool)} (hu : SoundUpdate s₀ u) (i : ℤ) (fuel : ℕ)
    (info : ContentionInfo) : Tame s₀ (doUpdateLoop u i fuel info) :=
  updateLoop_tame hu i (fun fuel _ _ => .bind (adaptIfNeeded_tame fuel) fun _ => .pure) fuel info

theorem lookup_tame (fuel : ℕ) (i : ℤ) : Tame s₀ (lookup fuel i) := by
  refine .bind loadRoot_tame fun root => .bind (findBaseNode_tame fuel i) fun base s hs => ?_
  refine .bind hs (dataOf_tells hs) fun t s₁ hs₁ _ ht => ?_
  obtain ⟨found, hfound⟩ := ht.2.contains i
  rw [hfound]
  exact Behaves.pure s₁ hs₁

theorem body_tame (fuel : ℕ) (c : Call) : Tame s₀ (body fuel c) := by
  cases c with
  | insert i =>
      refine .bind ?_ fun _ => .pure
      exact .bind (doUpdateLoop_tame treapInsert_sound i fuel _) fun _ => .pure
  | remove i => exact .bind (doUpdateLoop_tame treapRemove_sound i fuel _) fun _ => .pure
  | lookup i => exact .bind (lookup_tame fuel i) fun _ => .pure
  | rangeQuery lo hi => exact .bind ((walk_tame fuel).2.1 lo hi nullptr) fun _ => .pure

theorem taskBody_tame (c : ℕ × Task) : Tame s₀ (taskBody c) := by
  obtain ⟨fuel, c⟩ := c
  cases c with
  | call c => exact body_tame fuel c
  | join b => exact .bind (lowContentionAdaptation_tame fuel) fun _ => .pure
  | split b => exact .bind highContentionAdaptation_tame fun _ => .pure
  | help n => exact .bind ((walk_tame fuel).1 n) fun _ => .pure

theorem Initial.steady (h : Initial s) : Steady s s := by
  refine ⟨?_, fun p t hp ht => ?_, .refl _⟩
  · rw [h.next]
    exact Nat.le_succ _
  · have hp₁ := hp.1
    have hp₂ := hp.2
    rw [h.next] at hp₂
    cases Nat.le_antisymm (Nat.lt_succ_iff.mp hp₂) hp₁
    rw [h.node] at ht
    cases ht
    exact ⟨[], Treap.empty_stores⟩

/-- All threads of every run keep the discipline. -/
theorem run_tame (hi : Initial s) {ls : List Ev} {cfg : Config Access Access.Ret Fault Shared (ℕ × Task) Result}
    (h : Transition.Run (Step exec taskBody) (.idle s) ls cfg) : (discipline s).Good cfg.shared ∧
      ∀ t c p, cfg.threads t = some (c, p) → Tells s p (fun _ _ => True) cfg.shared :=
  Discipline.run (Step exec taskBody) (fun _ _ => True) (fun h => ⟨h, fun _ _ _ => trivial⟩) (fun c s hs _ => taskBody_tame c s hs)
    (fun _ => ⟨trivial, fun _ _ _ _ _ => trivial⟩) (fun _ _ => trivial) hi.steady h

/-- In every interleaving of calls, and of adaptations and helps on their own, no operation on a
treap is performed where it throws, and only the pools throw. -/
theorem treap_errors_unreachable (hi : Initial s) {ls : List Ev} {cfg : Config Access Access.Ret Fault Shared (ℕ × Task) Result}
    (h : Transition.Run (Step exec taskBody) (.idle s) ls cfg) (t : ℕ) (c : ℕ × Task) :
    (∀ a k, cfg.threads t = some (c, .op a k) → a.op.Guarded) ∧
      ∀ x, cfg.threads t = some (c, .raise (.exn x)) → s.pools.Throws x := by
  obtain ⟨hs, hthreads⟩ := run_tame hi h
  constructor
  · intro a k ht
    exact (hthreads t c _ ht cfg.shared (.refl _) hs trivial).guard
  · intro x ht
    exact hthreads t c _ ht x rfl

/-- The thread 0 is about to merge the treaps of two base nodes. -/
def merging (cfg : Config Access Access.Ret Fault Shared (ℕ × Task) Result) : Bool :=
  match cfg.threads 0 with
  | some (_, .op ⟨.pool (.merge _ _), _⟩ _) => true
  | _ => false

set_option maxRecDepth 100000 in
/-- A join is about to merge the treaps of its two base nodes, and an insertion by another thread is under way. -/
theorem treap_errors_unreachable_merge :
    ∃ cfg c l r caller k, Transition.Reachable (Step exec taskBody) (.idle start) cfg ∧
      cfg.threads 0 = some (c, .op ⟨.pool (.merge l r), caller⟩ k) ∧ l.size + r.size ≤ TREAP_NODES := by
  obtain ⟨ls, hls⟩ : Transition.Reachable (Step exec taskBody) (.idle start) (Config.schedule exec taskBody (fun _ _ => true)
      (.idle start) (joining ++ [.go 0 47, .call 1 (9, .call (.insert 5)), .go 1 6])) :=
    Config.schedule_run (fun _ _ _ _ h => h) _ _
  have hmerging : merging (Config.schedule exec taskBody (fun _ _ => true) (.idle start)
      (joining ++ [.go 0 47, .call 1 (9, .call (.insert 5)), .go 1 6])) = true := by
    decide +kernel
  generalize Config.schedule exec taskBody (fun _ _ => true) (.idle start)
    (joining ++ [.go 0 47, .call 1 (9, .call (.insert 5)), .go 1 6]) = cfg at hls hmerging
  unfold merging at hmerging
  split at hmerging
  · rename_i c l r caller k hthread
    exact ⟨cfg, c, l, r, caller, k, ⟨ls, hls⟩, hthread, (treap_errors_unreachable start_initial hls 0 c).1 _ k hthread⟩
  · cases hmerging

end Lfca

end LockFreeSearchTree
