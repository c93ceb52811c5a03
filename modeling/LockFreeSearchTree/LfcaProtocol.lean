import LockFreeSearchTree.LfcaChange
import LockFreeSearchTree.LfcaShape
import LockFreeSearchTree.RelyGuarantee

/-! # The protocol of the lock-free tree

The threads run calls of the public interface, adaptations of single base nodes and helps (`Task`).
In the protocol every step is one of the changes of `LfcaChange.lean`, and an operation on behalf of
`complete_join(m)` is performed only when the join `m` is final.

* `Kept u A`: the other threads do not invalidate `A`, as they spare `u` what it relies on.
* `Ens t A p B`: the triple of an assertion about the graph, a program of the thread `t` and the
  assertions about its results, with one rule for each operation. -/

namespace LockFreeSearchTree

open BinTree Concurrent

namespace Lfca

variable {v v' : Graph} {g g' : Ghost} {u t : ℕ} {m n p q r : Ptr} {σ τ : Slot}

/-! ### Tasks -/

/-- What a thread does: a call, an adaptation of a base node by a join or by a split, or a help. -/
inductive Task where
  | call (c : Call)
  | join (b : Ptr)
  | split (b : Ptr)
  | help (n : Ptr)

/-- The program of a task. -/
def Task.body (fuel : ℕ) : Task → LfcaM Result
  | .call c => Lfca.body fuel c
  | .join b => do
      lowContentionAdaptation fuel b
      return .void
  | .split b => do
      highContentionAdaptation b
      return .void
  | .help n => do
      helpIfNeeded fuel n
      return .void

def taskBody (c : ℕ × Task) : LfcaM Result := c.2.body c.1

/-- Joins are started on the base nodes that updates have made, splits on base nodes. -/
def Task.Allowed (s : Shared) : Task → Prop
  | .join b => s.Allocated b ∧ (s.nodes b).type = .normal
  | .split b => s.Allocated b ∧ (s.nodes b).type ≠ .route
  | _ => True

instance (s : Shared) : (c : Task) → Decidable (c.Allowed s)
  | .join _ | .split _ => inferInstanceAs (Decidable (_ ∧ _))
  | .call _ | .help _ => inferInstanceAs (Decidable True)

/-- Two insertions, a split, and the start of a join of the left base node. -/
def joining : List (Turn (ℕ × Task)) :=
  [.call 0 (10, .call (.insert 1)), .go 0 60, .call 0 (10, .call (.insert 2)), .go 0 60, .call 0 (10, .split 5), .go 0 60,
    .call 0 (10, .join 7)]

abbrev Ev := Event Access (ℕ × Task) Result

def protocol : Protocol Access (ℕ × Task) Result Shared Ghost where
  inv x := Inv x.shared.graph x.ghost
  guar e x x' := Change e.thread x.shared.graph x.ghost x'.shared.graph x'.ghost ∧
    ∀ t a m, e = .access t a → a.caller = some m → x.shared.graph.HasType m .joinMain ∧ x.shared.graph.Final m
  idle _ _ := True
  allowed
    | .invoke _ (_, c), s => c.Allowed s
    | _, _ => True

/-! ### Assertions that are kept -/

/-- The other threads do not invalidate `A`. -/
def Kept (u : ℕ) (A : Graph → Ghost → Prop) : Prop :=
  ∀ v g v' g', Inv v g → Inv v' g' → Spares u v g v' g' → A v g → A v' g'

namespace Kept

variable {A B : Graph → Ghost → Prop}

theorem stable (h : Kept u A) : protocol.Stable u (fun x => A x.shared.graph x.ghost) := by
  rintro x x' hx ha ⟨e, hne, ⟨hc, _⟩, hx'⟩
  exact h _ _ _ _ hx hx' (hc.spares hx (Ne.symm hne)) ha

theorem and (hA : Kept u A) (hB : Kept u B) : Kept u (fun v g => A v g ∧ B v g) :=
  fun v g v' g' hv hv' hs h => ⟨hA v g v' g' hv hv' hs h.1, hB v g v' g' hv hv' hs h.2⟩

theorem const (p : Prop) : Kept u (fun _ _ => p) := fun _ _ _ _ _ _ _ h => h

theorem imp (p : Prop) (hA : Kept u A) : Kept u (fun v g => p → A v g) :=
  fun v g v' g' hv hv' hs h hp => hA v g v' g' hv hv' hs (h hp)

end Kept

theorem Spares.allocated (h : Spares u v g v' g') (hp : v.Allocated p) : v'.Allocated p := ⟨hp.1, hp.2.trans_le h.next⟩

theorem Spares.hasType {k : NodeType} (h : Spares u v g v' g') (hp : v.HasType p k) : v'.HasType p k :=
  ⟨h.allocated hp.1, (bare_type (h.bare p hp.1)).trans hp.2⟩

theorem Spares.baseNode (h : Spares u v g v' g') (hp : v.BaseNode p) : v'.BaseNode p :=
  ⟨h.allocated hp.1, by rw [bare_type (h.bare p hp.1)]; exact hp.2⟩

theorem Spares.final (h : Spares u v g v' g') (hm : v.Allocated m) (hf : v.Final m) : v'.Final m := by
  rcases h.neigh2 m hm with he | ⟨_, ⟨hp, _⟩ | ⟨_, hd⟩⟩
  · cases hf with
    | inl hf =>
        refine .inl ?_
        unfold Graph.Merged at *
        rw [he]
        exact ⟨h.hasType hf.1, (bare_mainNode (h.bare _ hf.1.1)).trans hf.2⟩
    | inr hf => exact .inr (he.trans hf)
  · exact absurd hf (Graph.Undecided.not_final (.inl hp))
  · exact .inr hd

theorem Spares.undecided (h : Spares u v g v' g') (hm : v.Allocated m) (ho : g.owner m = u) (hu : v.Undecided m) :
    v'.Undecided m := by
  rcases h.neigh2 m hm with he | ⟨_, ⟨_, he | ⟨hne, _⟩⟩ | ⟨hf, _⟩⟩
  · unfold Graph.Undecided at *
    rw [he]
    exact hu
  · exact .inr he
  · exact absurd ho hne
  · exact absurd (.inl hf) hu.not_final

theorem Spares.aborted (h : Spares u v g v' g') (hm : v.Allocated m) (ha : v.get m .neigh2 = ABORTED) :
    v'.get m .neigh2 = ABORTED := by
  rcases h.neigh2 m hm with he | ⟨_, ⟨hp, _⟩ | ⟨hf, _⟩⟩
  · exact he.trans ha
  · exact absurd (hp.symm.trans ha) (by decide)
  · exact absurd ha hf.neigh2_ne.2.1

theorem kept_hasType {k : NodeType} : Kept u (fun v _ => v.HasType p k) := fun _ _ _ _ _ _ hs h => hs.hasType h

theorem kept_baseNode : Kept u (fun v _ => v.BaseNode p) := fun _ _ _ _ _ _ hs h => hs.baseNode h

/-- The plain fields of `p`, as far as they never change, are those of `a`. -/
def Reads (p : Ptr) (a : Plain) (v : Graph) : Prop := v.Allocated p ∧ (v.plain p).bare = a.bare

theorem kept_reads {a : Plain} : Kept u (fun v _ => Reads p a v) :=
  fun _ _ _ _ _ _ hs h => ⟨hs.allocated h.1, (hs.bare p h.1).trans h.2⟩

theorem Reads.hasType {a : Plain} (h : Reads p a v) : v.HasType p a.type := ⟨h.1, bare_type h.2⟩

/-- If the main node `p` is to be replaced, its join has been aborted. -/
def Stale (p : Ptr) (v : Graph) : Prop := v.HasType p .joinMain → v.get p .neigh2 = ABORTED

theorem kept_stale : Kept u (fun v _ => v.BaseNode p ∧ Stale p v) := by
  rintro v g v' g' _ _ hs ⟨hb, h⟩
  refine ⟨hs.baseNode hb, fun ht => hs.aborted hb.1 (h ⟨hb.1, ?_⟩)⟩
  exact (bare_type (hs.bare p hb.1)).symm.trans ht.2

/-! ### Triples -/

/-- The triple of assertions about the graph. -/
def Ens {α : Type} (t : ℕ) (A : Graph → Ghost → Prop) (p : LfcaM α) (B : α → Graph → Ghost → Prop) : Prop :=
  Ensures exec protocol t (fun x => A x.shared.graph x.ghost) p (fun a x => B a x.shared.graph x.ghost)

namespace Ens

variable {α β : Type} {A A' : Graph → Ghost → Prop} {B B' : α → Graph → Ghost → Prop} {P : LfcaM α}

theorem bind {f : α → LfcaM β} {D : β → Graph → Ghost → Prop} (h : Ens t A P B) (hf : ∀ a, Ens t (B a) (f a) D) :
    Ens t A (P >>= f) D := Ensures.bind h hf

theorem pure {a : α} (hB : Kept t (B a)) (h : ∀ v g, Inv v g → A v g → B a v g) : Ens t A (pure a) B :=
  Ensures.pure hB.stable fun _ hx ha => h _ _ hx ha

theorem ret {a : α} (hA : Kept t A) : Ens t A (Pure.pure a) (fun _ => A) := pure hA fun _ _ _ h => h

theorem raise {e : Fault} : Ens t A (.raise e) B := Ensures.raise

theorem pre (h : Ens t A P B) (hA : ∀ v g, Inv v g → A' v g → A v g) : Ens t A' P B :=
  Ensures.pre h fun _ hx ha => hA _ _ hx ha

theorem post (h : Ens t A P B') (hB : ∀ a v g, B' a v g → B a v g) : Ens t A P B := Ensures.post h fun a _ hb => hB a _ _ hb

/-- A fact about the results so far may be assumed. -/
theorem fact {c : Prop} (h : c → Ens t A P B) : Ens t (fun v g => A v g ∧ c) P B := fun x hx ha => h ha.2 x hx ha.1

theorem ofExists {ι : Type} {C : ι → Graph → Ghost → Prop} (h : ∀ i, Ens t (fun v g => A v g ∧ C i v g) P B) :
    Ens t (fun v g => A v g ∧ ∃ i, C i v g) P B := fun x hx ⟨ha, i, hc⟩ => h i x hx ⟨ha, hc⟩

theorem ofExcept {e : Except Fault α} (hB : ∀ a, Kept t (B a)) (h : ∀ a v g, Inv v g → A v g → B a v g) :
    Ens t A (Prog.ofExcept e) B := by
  cases e with
  | error e => exact raise
  | ok a => exact pure (hB a) fun v g => h a v g

theorem ite {c : Prop} [Decidable c] {Q : LfcaM α} (hP : c → Ens t A P B) (hQ : ¬ c → Ens t A Q B) :
    Ens t A (if c then P else Q) B := by
  by_cases hc : c
  · rw [if_pos hc]
    exact hP hc
  · rw [if_neg hc]
    exact hQ hc

/-- One operation. -/
theorem op {o : Op} {caller : Option Ptr} {B : o.Ret → Graph → Ghost → Prop} (hA : Kept t A) (hB : ∀ r, Kept t (B r))
    (hc : ∀ m, caller = some m → ∀ v g, Inv v g → A v g → v.HasType m .joinMain ∧ v.Final m)
    (h : ∀ s g, Inv s.graph g → A s.graph g → ∀ r s', o.exec s = .ok (r, s') →
      ∃ g', Change t s.graph g s'.graph g' ∧ B r s'.graph g') :
    Ens t A (Prog.perform (⟨o, caller⟩ : Access)) B := by
  refine Ensures.perform hA.stable (fun r => (hB r).stable) fun x hx ha _ r s' hexec => ?_
  obtain ⟨g', hch, hb⟩ := h x.shared x.ghost hx ha r s' hexec
  refine ⟨g', hch.inv hx, ⟨hch, ?_⟩, hb⟩
  rintro u a m he hm
  cases he
  exact hc m hm _ _ hx ha

/-- An operation that does not change the graph. -/
theorem silent {o : Op} {caller : Option Ptr} {B : o.Ret → Graph → Ghost → Prop} (hA : Kept t A) (hB : ∀ r, Kept t (B r))
    (hc : ∀ m, caller = some m → ∀ v g, Inv v g → A v g → v.HasType m .joinMain ∧ v.Final m)
    (ho : ∀ s r s', o.exec s = .ok (r, s') → s'.graph = s.graph)
    (h : ∀ s g, Inv s.graph g → A s.graph g → ∀ r s', o.exec s = .ok (r, s') → B r s.graph g) :
    Ens t A (Prog.perform (⟨o, caller⟩ : Access)) B :=
  op hA hB hc fun s g hi ha r s' hexec => ⟨g, by rw [ho s r s' hexec]; exact .none, by
    rw [ho s r s' hexec]
    exact h s g hi ha r s' hexec⟩

end Ens

/-! ### Operations -/

theorem onNode_ok {α : Type} {s : Shared} {x y : α × Shared} (h : onNode s p x = .ok y) : s.Allocated p ∧ y = x := by
  unfold onNode at h
  split_ifs at h with ha
  exact ⟨ha, (Except.ok.inj h).symm⟩

theorem onStore_ok {α : Type} {s : Shared} {x y : α × Shared} (h : onStore s p x = .ok y) : y = x := by
  unfold onStore at h
  split_ifs at h with ha
  exact (Except.ok.inj h).symm

theorem graph_set (s : Shared) (q : Ptr) (f : Field) (x : Ptr) : (s.update q (fun d => d.set f x)).graph = s.graph.set q f x := by
  unfold Shared.graph Shared.update Graph.set
  congr 1
  · funext p
    by_cases hp : p = q
    · subst hp
      simp
    · simp [hp]
  · funext p f'
    by_cases hp : p = q
    · subst hp
      by_cases hf : f' = f
      · subst hf
        simp
      · simp [hf, Node.get_set_ne]
    · simp [hp]

theorem toPlain_assign (d : Node) (k : PlainField) (x : Ptr) : (d.assign k x).toPlain = d.toPlain.assign k x := by
  cases k <;> rfl

theorem graph_assign (s : Shared) (q : Ptr) (k : PlainField) (x : Ptr) :
    (s.update q (fun d => d.assign k x)).graph = s.graph.assign q k x := by
  unfold Shared.graph Shared.update Graph.assign
  congr 1
  · funext p
    by_cases hp : p = q
    · subst hp
      simp [toPlain_assign]
    · simp [hp]
  · funext p f'
    by_cases hp : p = q
    · subst hp
      simp
    · simp [hp]

theorem graph_storeValid (s : Shared) (q : Ptr) (b : Bool) : (s.update q (fun d => { d with valid := b })).graph = s.graph := by
  unfold Shared.graph Shared.update
  congr 1
  · funext p
    by_cases hp : p = q
    · subst hp
      simp
    · simp [hp]
  · funext p f'
    by_cases hp : p = q
    · subst hp
      rcases f' with (_ | _) | _ | _ <;> simp [Node.get]
    · simp [hp]

/-- The pool hands out consecutive addresses. -/
theorem allocs (ns : List Node) : ∀ s : Shared, (ns.foldl Shared.alloc s).root = s.root ∧
    (ns.foldl Shared.alloc s).next = s.next + ns.length ∧
    (∀ p < s.next, (ns.foldl Shared.alloc s).nodes p = s.nodes p) ∧
    ∀ i n, ns[i]? = some n → (ns.foldl Shared.alloc s).nodes (s.next + i) = n := by
  induction ns with
  | nil => exact fun s => ⟨rfl, rfl, fun _ _ => rfl, fun i n hn => by simp at hn⟩
  | cons n ns ih =>
      intro s
      obtain ⟨hroot, hnext, hold, hnodes⟩ := ih (s.alloc n)
      rw [Shared.next_alloc] at hnext hold hnodes
      have hkeep : ∀ p < s.next, (s.alloc n).nodes p = s.nodes p := fun p hp => Shared.nodes_alloc_ne s n (Nat.ne_of_lt hp)
      refine ⟨hroot, ?_, fun p hp => (hold p (Nat.lt_succ_of_lt hp)).trans (hkeep p hp), ?_⟩
      · rw [List.foldl_cons, hnext, List.length_cons]
        exact Nat.add_right_comm _ 1 _
      · intro i m hm
        cases i with
        | zero =>
            cases hm
            exact (hold _ (Nat.lt_succ_self _)).trans (Shared.nodes_alloc s n)
        | succ i =>
            have hi := hnodes i m hm
            rw [Nat.add_assoc, Nat.add_comm 1 i] at hi
            exact hi

theorem graph_allocs (ns : List Node) (s : Shared) : s.graph.Extends (ns.foldl Shared.alloc s).graph := by
  obtain ⟨hroot, hnext, hold, _⟩ := allocs ns s
  refine ⟨hroot, ?_, fun p hp => congrArg Node.toPlain (hold p hp.2), fun p f hp => ?_⟩
  · rw [Shared.graph, Shared.graph, hnext]
    exact Nat.le_add_right _ _
  · exact congrArg (fun d : Node => d.get f) (hold p hp.2)

namespace Ens

variable {A : Graph → Ghost → Prop} (hA : Kept t A)

include hA

theorem loadRoot {B : Ptr → Graph → Ghost → Prop} (hB : ∀ r, Kept t (B r)) (h : ∀ v g, Inv v g → A v g → B v.root v g) :
    Ens t A Lfca.loadRoot B := by
  refine silent hA hB (fun _ he => by cases he) (fun s r s' hexec => ?_) fun s g hi ha r s' hexec => ?_
  · cases hexec
    rfl
  · cases hexec
    exact h _ g hi ha

theorem plain {B : Plain → Graph → Ghost → Prop} (hB : ∀ a, Kept t (B a))
    (h : ∀ v g, Inv v g → A v g → v.Allocated n → B (v.plain n) v g) : Ens t A (Lfca.plain n) B := by
  refine silent hA hB (fun _ he => by cases he) (fun s r s' hexec => ?_) fun s g hi ha r s' hexec => ?_
  · cases (onNode_ok hexec).2
    rfl
  · obtain ⟨hn, he⟩ := onNode_ok hexec
    cases he
    exact h _ g hi ha hn

theorem load {f : Field} {B : Ptr → Graph → Ghost → Prop} (hB : ∀ r, Kept t (B r))
    (h : ∀ v g, Inv v g → A v g → v.Allocated n → B (v.get n f) v g) : Ens t A (Lfca.load n f) B := by
  refine silent hA hB (fun _ he => by cases he) (fun s r s' hexec => ?_) fun s g hi ha r s' hexec => ?_
  · cases (onNode_ok hexec).2
    rfl
  · obtain ⟨hn, he⟩ := onNode_ok hexec
    cases he
    exact h _ g hi ha hn

theorem store {caller : Option Ptr} {f : Field} {x : Ptr} {B : Graph → Ghost → Prop} (hB : Kept t B)
    (hc : ∀ m, caller = some m → ∀ v g, Inv v g → A v g → v.HasType m .joinMain ∧ v.Final m)
    (h : ∀ v g, Inv v g → A v g → v.Allocated n → Change t v g (v.set n f x) g ∧ B (v.set n f x) g) :
    Ens t A (Prog.perform (⟨.store n f x, caller⟩ : Access)) (fun _ => B) := by
  refine op hA (fun _ => hB) hc fun s g hi ha r s' hexec => ⟨g, ?_⟩
  obtain ⟨hn, he⟩ := onNode_ok hexec
  cases he
  rw [graph_set]
  exact h _ g hi ha hn

theorem assign {k : PlainField} {x : Ptr} {B : Graph → Ghost → Prop} (hB : Kept t B)
    (h : ∀ v g, Inv v g → A v g → v.Allocated n → Change t v g (v.assign n k x) g ∧ B (v.assign n k x) g) :
    Ens t A (perform (.assign n k x)) (fun _ => B) := by
  refine op hA (fun _ => hB) (fun _ he => by cases he) fun s g hi ha r s' hexec => ⟨g, ?_⟩
  obtain ⟨hn, he⟩ := onNode_ok hexec
  cases he
  rw [graph_assign]
  exact h _ g hi ha hn

theorem cas {caller : Option Ptr} {f : Field} {e x : Ptr} {B : Bool → Graph → Ghost → Prop} (hB : ∀ r, Kept t (B r))
    (hc : ∀ m, caller = some m → ∀ v g, Inv v g → A v g → v.HasType m .joinMain ∧ v.Final m)
    (h : ∀ v g, Inv v g → A v g → v.Allocated n → v.get n f = e →
      ∃ g', Change t v g (v.set n f x) g' ∧ B true (v.set n f x) g')
    (hfail : ∀ v g, Inv v g → A v g → v.Allocated n → v.get n f ≠ e → B false v g) :
    Ens t A (Prog.perform (⟨.cas n f e x, caller⟩ : Access)) B := by
  refine op hA hB hc fun s g hi ha r s' hexec => ?_
  obtain ⟨hn, he⟩ := onNode_ok hexec
  by_cases hf : (s.nodes n).get f = e
  · rw [if_pos hf] at he
    cases he
    rw [graph_set]
    exact h _ g hi ha hn hf
  · rw [if_neg hf] at he
    cases he
    exact ⟨g, .none, hfail _ g hi ha hn hf⟩

theorem casRoot {caller : Option Ptr} {e x : Ptr} {B : Bool → Graph → Ghost → Prop} (hB : ∀ r, Kept t (B r))
    (hc : ∀ m, caller = some m → ∀ v g, Inv v g → A v g → v.HasType m .joinMain ∧ v.Final m)
    (h : ∀ v g, Inv v g → A v g → v.root = e → ∃ g', Change t v g (v.put x .root) g' ∧ B true (v.put x .root) g')
    (hfail : ∀ v g, Inv v g → A v g → v.root ≠ e → B false v g) :
    Ens t A (Prog.perform (⟨.casRoot e x, caller⟩ : Access)) B := by
  refine op hA hB hc fun s g hi ha r s' hexec => ?_
  by_cases hf : s.root = e
  · simp only [Op.exec, if_pos hf] at hexec
    cases hexec
    exact h _ g hi ha hf
  · simp only [Op.exec, if_neg hf] at hexec
    cases hexec
    exact ⟨g, .none, hfail _ g hi ha hf⟩

/-- What is known before an operation on something else than the graph is known after it. -/
theorem other {o : Op} {caller : Option Ptr} (hc : ∀ m, caller = some m → ∀ v g, Inv v g → A v g →
      v.HasType m .joinMain ∧ v.Final m)
    (ho : ∀ s r s', o.exec s = .ok (r, s') → s'.graph = s.graph) :
    Ens t A (Prog.perform (⟨o, caller⟩ : Access)) (fun _ => A) :=
  silent hA (fun _ => hA) hc ho fun _ _ _ ha _ _ _ => ha

theorem storeValid {caller : Option Ptr} {b : Bool} (hc : ∀ m, caller = some m → ∀ v g, Inv v g → A v g →
      v.HasType m .joinMain ∧ v.Final m) :
    Ens t A (Prog.perform (⟨.storeValid n b, caller⟩ : Access)) (fun _ => A) := by
  refine other hA hc fun s r s' hexec => ?_
  cases (onNode_ok hexec).2
  exact graph_storeValid s n b

theorem loadValid : Ens t A (Lfca.loadValid n) (fun _ => A) := by
  refine other hA (fun _ he => by cases he) fun s r s' hexec => ?_
  cases (onNode_ok hexec).2
  rfl

theorem loadMore : Ens t A (Lfca.loadMore p) (fun _ => A) := by
  refine other hA (fun _ he => by cases he) fun s r s' hexec => ?_
  cases onStore_ok hexec
  rfl

theorem storeMore {b : Bool} : Ens t A (perform (.storeMore p b)) (fun _ => A) := by
  refine other hA (fun _ he => by cases he) fun s r s' hexec => ?_
  cases onStore_ok hexec
  rfl

theorem loadResult : Ens t A (Lfca.loadResult p) (fun _ => A) := by
  refine other hA (fun _ he => by cases he) fun s r s' hexec => ?_
  cases onStore_ok hexec
  rfl

theorem casResult {values : List ℤ} : Ens t A (Lfca.casResult p values) (fun _ => A) := by
  refine other hA (fun _ he => by cases he) fun s r s' hexec => ?_
  have hs := onStore_ok hexec
  split at hs <;> cases hs <;> rfl

/-- Whatever is taken from the pools. -/
theorem fromPool {o : PoolOp} : Ens t A (Lfca.fromPool o) (fun _ => A) := by
  refine Ens.bind (B := fun _ => A) (other hA (fun _ he => by cases he) fun s r s' hexec => ?_) fun r => ?_
  · cases hexec
    rfl
  · cases r with
    | error e => exact .raise
    | ok a => exact .ret hA

theorem newRs : Ens t A Lfca.newRs (fun _ => A) := by
  refine .bind (fromPool hA) fun _ => other hA (fun _ he => by cases he) fun s r s' hexec => ?_
  cases hexec
  rfl

/-- New nodes, with what is known before they have their fields. -/
theorem new {nodes : Ptr → List Node} {B : Ptr → Graph → Ghost → Prop} (hB : ∀ r, Kept t (B r))
    (h : ∀ v g v', Inv v g → A v g → v.Extends v' → v'.next = v.next + (nodes v.next).length →
      (∀ i n, (nodes v.next)[i]? = some n → v'.plain (v.next + i) = n.toPlain ∧ ∀ f, v'.get (v.next + i) f = n.get f) →
      (∀ q, v'.Allocated q → ¬ v.Allocated q → FreshNode v' q) ∧ (A v' (g.take t v) → B v.next v' (g.take t v))) :
    Ens t A (perform (.new nodes)) B := by
  refine op hA hB (fun _ he => by cases he) fun s g hi ha r s' hexec => ?_
  cases hexec
  obtain ⟨_, hnext, _, hnodes⟩ := allocs (nodes s.next) s
  have he := graph_allocs (nodes s.next) s
  obtain ⟨hfresh, hb⟩ := h s.graph g _ hi ha he hnext fun i n hn => by
    refine ⟨congrArg Node.toPlain (hnodes i n hn), fun f => ?_⟩
    exact congrArg (fun d : Node => d.get f) (hnodes i n hn)
  refine ⟨g.take t s.graph, .grow he hfresh, hb ?_⟩
  exact hA _ _ _ _ hi (hi.grow he hfresh) (.grow he hfresh) ha

end Ens

end Lfca

end LockFreeSearchTree
