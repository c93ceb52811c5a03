import LockFreeSearchTree.LfcaProtocol
import Mathlib.Tactic.IntervalCases

/-! # The functions of the source keep the protocol

One triple for each function, from the reads over the searches and the replacements to joins, helps
and calls. -/

namespace LockFreeSearchTree

open BinTree Concurrent

namespace Lfca

variable {v v' : Graph} {g g' : Ghost} {u t : ℕ} {m n p q r b : Ptr} {σ τ : Slot} {A : Graph → Ghost → Prop}

/-! ### Reads -/

theorem dataOf_ens (hA : Kept t A) : Ens t A (dataOf n) (fun _ => A) := by
  refine Ens.bind (B := fun _ => A) (.plain hA (fun _ => hA) fun _ _ _ ha _ => ha) fun a => ?_
  cases a.data with
  | none => exact .raise
  | some d => exact .ret hA

theorem derefResult_ens (hA : Kept t A) : Ens t A (derefResult p) (fun _ => A) := by
  refine Ens.bind (.loadResult hA) fun values => ?_
  cases values with
  | none => exact .raise
  | some values => exact .ret hA

/-- A node that can be replaced is a base node, whose join has been aborted if it is a main node. -/
theorem isReplaceable_ens (hA : Kept t A) : Ens t A (isReplaceable n) (fun ok v g => A v g ∧
    (ok = true → v.BaseNode n ∧ Stale n v)) := by
  have hB : ∀ ok : Bool, Kept t (fun v g => A v g ∧ (ok = true → v.BaseNode n ∧ Stale n v)) :=
    fun ok => hA.and (kept_stale.imp _)
  have hread : ∀ a, Kept t (fun v g => A v g ∧ Reads n a v) := fun a => hA.and kept_reads
  have hother : ∀ {a v} (ok : Bool), Reads n a v → a.type ≠ .route → a.type ≠ .joinMain →
      ok = true → v.BaseNode n ∧ Stale n v := by
    intro a v _ hr hroute hmain _
    exact ⟨hr.hasType.base hroute, fun hm => absurd (hr.hasType.2.symm.trans hm.2) hmain⟩
  refine Ens.bind (.plain hA hread fun v g _ ha hn => ⟨ha, hn, rfl⟩) fun a => ?_
  cases ht : a.type with
  | route => exact .pure (hB _) fun v g _ h => ⟨h.1, fun he => by cases he⟩
  | normal => exact .pure (hB _) fun v g _ h => ⟨h.1, hother true h.2 (by simp [ht]) (by simp [ht])⟩
  | joinMain =>
      refine Ens.bind (B := fun x v g => A v g ∧ (x = ABORTED → v.BaseNode n ∧ Stale n v))
        (.load (hread a) (fun x => hA.and (kept_stale.imp _)) fun v g _ h _ => ⟨h.1, fun he => ⟨?_, fun _ => he⟩⟩) fun x => ?_
      · exact h.2.hasType.base (by simp [ht])
      · exact .pure (hB _) fun v g _ h => ⟨h.1, fun he => h.2 (of_decide_eq_true he)⟩
  | joinNeighbor =>
      refine Ens.bind (B := fun _ v g => A v g ∧ Reads n a v) (.load (hread a) (fun _ => hread a) fun v g _ h _ => h)
        fun x => ?_
      exact .pure (hB _) fun v g _ h => ⟨h.1, hother _ h.2 (by simp [ht]) (by simp [ht])⟩
  | range =>
      refine Ens.bind (.loadResult (hread a)) fun values => ?_
      exact .pure (hB _) fun v g _ h => ⟨h.1, hother _ h.2 (by simp [ht]) (by simp [ht])⟩

theorem newStat_ens (info : ContentionInfo) (hA : Kept t A) : Ens t A (newStat n info) (fun _ => A) := by
  refine Ens.bind (B := fun _ => A) (.plain hA (fun _ => hA) fun _ _ _ ha _ => ha) fun a => ?_
  have hk : ∀ more : Bool, Ens t A (
      let rangeSub := if more then RANGE_CONTRIB else 0
      if info = .contended ∧ a.stat ≤ HIGH_CONT then pure (a.stat + CONT_CONTRIB - rangeSub)
      else if info = .uncontened ∧ a.stat ≥ LOW_CONT then pure (a.stat - LOW_CONT_CONTRIB - rangeSub)
      else pure a.stat) (fun _ => A) := fun more =>
    .ite (fun _ => .ret hA) fun _ => .ite (fun _ => .ret hA) fun _ => .ret hA
  exact .ite (fun _ => .bind (.loadMore hA) hk) fun _ => .bind (B := fun _ => A) (.ret hA) hk

/-! ### Searches -/

theorem load_ens {f : Field} (hA : Kept t A) : Ens t A (load n f) (fun _ => A) :=
  .load hA (fun _ => hA) fun _ _ _ ha _ => ha

theorem findBaseNode_ens (fuel : ℕ) (i : ℤ) (hA : Kept t A) :
    Ens t A (findBaseNode fuel n i) (fun b v g => A v g ∧ v.BaseNode b) := by
  induction fuel generalizing n with
  | zero => exact .raise
  | succ fuel ih =>
      refine Ens.bind (B := fun a v g => A v g ∧ Reads n a v) (.plain hA (fun a => hA.and kept_reads) fun v g _ ha hn =>
        ⟨ha, hn, rfl⟩) fun a => ?_
      refine .ite (fun _ => ?_) fun ht => .pure (hA.and kept_baseNode) fun v g _ h => ⟨h.1, h.2.hasType.base ht⟩
      refine Ens.pre (A := A) ?_ fun _ _ _ h => h.1
      exact .ite (fun _ => .bind (load_ens hA) fun _ => ih) fun _ => .bind (load_ens hA) fun _ => ih

theorem findBaseStackLoop_ens (fuel : ℕ) (i : ℤ) (s : List Ptr) (hA : Kept t A) :
    Ens t A (findBaseStackLoop fuel n i s) (fun _ => A) := by
  induction fuel generalizing n s with
  | zero => exact .raise
  | succ fuel ih =>
      refine Ens.bind (B := fun _ => A) (.plain hA (fun _ => hA) fun _ _ _ ha _ => ha) fun a => ?_
      refine .ite (fun _ => ?_) fun _ => .ret hA
      exact .ite (fun _ => .bind (load_ens hA) fun _ => ih _) fun _ => .bind (load_ens hA) fun _ => ih _

theorem leftmostAndStack_ens (fuel : ℕ) (s : List Ptr) (hA : Kept t A) :
    Ens t A (leftmostAndStack fuel n s) (fun _ => A) := by
  induction fuel generalizing n s with
  | zero => exact .raise
  | succ fuel ih =>
      refine Ens.bind (B := fun _ => A) (.plain hA (fun _ => hA) fun _ _ _ ha _ => ha) fun a => ?_
      exact .ite (fun _ => .bind (load_ens hA) fun _ => ih _) fun _ => .ret hA

theorem findNextBaseLoop_ens (fuel : ℕ) (i : ℤ) (s : List Ptr) (hA : Kept t A) :
    Ens t A (findNextBaseLoop fuel i s) (fun _ => A) := by
  induction s with
  | nil => exact .ret hA
  | cons n s ih =>
      refine Ens.bind (B := fun _ => A) (.loadValid hA) fun valid => ?_
      refine Ens.bind (B := fun _ => A) (.plain hA (fun _ => hA) fun _ _ _ ha _ => ha) fun a => ?_
      exact .ite (fun _ => .bind (load_ens hA) fun _ => leftmostAndStack_ens fuel _ hA) fun _ => ih

theorem findNextBaseStack_ens (fuel : ℕ) (s : List Ptr) (hA : Kept t A) : Ens t A (findNextBaseStack fuel s) (fun _ => A) := by
  rcases s with _ | ⟨base, _ | ⟨n, s⟩⟩
  · exact .raise
  · exact .ret hA
  · refine Ens.bind (B := fun _ => A) (load_ens hA) fun left => ?_
    refine .ite (fun _ => .bind (load_ens hA) fun _ => leftmostAndStack_ens fuel _ hA) fun _ => ?_
    refine Ens.bind (B := fun _ => A) (.plain hA (fun _ => hA) fun _ _ _ ha _ => ha) fun a => ?_
    exact findNextBaseLoop_ens fuel _ _ hA

theorem outermost_ens (d : Side) (fuel : ℕ) (hA : Kept t A) : Ens t A (outermost d fuel n) (fun _ => A) := by
  induction fuel generalizing n with
  | zero => exact .raise
  | succ fuel ih =>
      refine Ens.bind (B := fun _ => A) (load_ens hA) fun q => ?_
      exact .ite (fun _ => .bind (load_ens hA) fun _ => ih) fun _ => .ret hA

/-! ### Replacements -/

/-- `try_replace`: if it succeeds, it has changed a slot that pointed to `b`. -/
theorem tryReplace_ens {caller : Option Ptr} {newB : Ptr} {B : Bool → Graph → Ghost → Prop} (hA : Kept t A)
    (hB : ∀ ok, Kept t (B ok))
    (hc : ∀ m, caller = some m → ∀ v g, Inv v g → A v g → v.HasType m .joinMain ∧ v.Final m)
    (hput : ∀ v g σ, Inv v g → A v g → v.On σ → v.look σ = b → Change t v g (v.put newB σ) g ∧ B true (v.put newB σ) g)
    (hfail : ∀ v g, Inv v g → A v g → B false v g) : Ens t A (tryReplace caller b newB) B := by
  have hcas : ∀ q d, Ens t A (Prog.perform (⟨.cas q (.child d) b newB, caller⟩ : Access)) B := fun q d =>
    .cas hA hB hc (fun v g hi ha hq hlook => ⟨g, hput v g (.child q d) hi ha hq hlook⟩) fun v g hi ha _ _ => hfail v g hi ha
  refine Ens.bind (B := fun _ => A) (.plain hA (fun _ => hA) fun _ _ _ ha _ => ha) fun a => ?_
  refine .ite (fun _ => ?_) fun _ => ?_
  · exact .casRoot hA hB hc (fun v g hi ha hlook => ⟨g, hput v g .root hi ha trivial hlook⟩) fun v g hi ha _ => hfail v g hi ha
  · refine .bind (load_ens hA) fun left => .ite (fun _ => hcas _ _) fun _ => ?_
    exact .bind (load_ens hA) fun right => .ite (fun _ => hcas _ _) fun _ => .pure (hB false) hfail

/-- A base node in the place of a base node. -/
theorem tryReplace_base {caller : Option Ptr} {newB : Ptr} (hA : Kept t A)
    (hc : ∀ m, caller = some m → ∀ v g, Inv v g → A v g → v.HasType m .joinMain ∧ v.Final m)
    (hb : ∀ v g, Inv v g → A v g → v.BaseNode b ∧ v.BaseNode newB) : Ens t A (tryReplace caller b newB) (fun _ => A) := by
  refine tryReplace_ens hA (fun _ => hA) hc (fun v g σ hi ha _ hlook => ?_) fun _ _ _ ha => ha
  obtain ⟨hold, hnew⟩ := hb v g hi ha
  rw [← hlook] at hold
  have hr : ¬ v.HasType newB .route := fun hr => hnew.2 hr.2
  have hp := hi.placeable hnew
  exact ⟨.put hold hp fun h => absurd h hr, hA _ _ _ _ hi (hi.put hold hp) (.put hold fun h => absurd h hr) ha⟩

/-- A node that `t` has taken from the pool, with the fields of `d`. -/
structure Taken (t : ℕ) (p : Ptr) (d : Plain) (v : Graph) (g : Ghost) : Prop where
  allocated : v.Allocated p
  owner : g.owner p = t
  plain : v.plain p = d

theorem kept_taken {d : Plain} : Kept t (Taken t p d) := fun _ _ _ _ _ _ hs h =>
  ⟨hs.allocated h.allocated, (hs.owner p h.allocated).trans h.owner, (hs.notes p h.allocated (.inl h.owner)).trans h.plain⟩

theorem Taken.hasType {d : Plain} (h : Taken t p d v g) : v.HasType p d.type := ⟨h.allocated, by rw [h.plain]⟩

theorem Inv.next_pos (h : Inv v g) : firstPtr ≤ v.next := h.root.1.trans h.root.2.le

theorem Inv.fresh_next {k : ℕ} (h : Inv v g) (hnext : v'.next = v.next + k) (hk : 0 < k) :
    v'.Allocated v.next ∧ (g.take t v).owner v.next = t := by
  refine ⟨⟨h.next_pos, ?_⟩, if_neg fun ha => absurd ha.2 (lt_irrefl _)⟩
  rw [hnext]
  exact Nat.lt_add_of_pos_right hk

/-- A main node that `t` has made for a join that is undecided. -/
def Owned (t : ℕ) (p : Ptr) (d : Plain) (v : Graph) (g : Ghost) : Prop := Taken t p d v g ∧ (d.type = .joinMain → v.Undecided p)

theorem kept_owned {d : Plain} : Kept t (Owned t p d) := fun _ _ _ _ hi hi' hs h =>
  ⟨kept_taken _ _ _ _ hi hi' hs h.1, fun ht => hs.undecided h.1.allocated h.1.owner (h.2 ht)⟩

/-- The fields of a new node that is no route node. -/
structure BaseFields (d : Node) : Prop where
  type : d.type ≠ .route
  leaf : ∀ side, d.get (.child side) = nullptr
  normal : d.type = .normal → d.neigh2 = PREPARING
  main : d.type = .joinMain → d.neigh2 = PREPARING ∨ d.neigh2 = ABORTED

theorem BaseFields.neighbor {d : Node} (h : d.type = .joinNeighbor) (hleaf : ∀ side, d.get (.child side) = nullptr) :
    BaseFields d := by
  refine ⟨?_, hleaf, ?_, ?_⟩ <;> rw [h] <;> simp

theorem BaseFields.mainNode {d : Node} (h : d.type = .joinMain) (hleaf : ∀ side, d.get (.child side) = nullptr)
    (hn : d.neigh2 = PREPARING ∨ d.neigh2 = ABORTED) : BaseFields d := by
  refine ⟨?_, hleaf, ?_, fun _ => hn⟩ <;> rw [h] <;> simp

/-- One new base node; whatever holds of the next address holds of its address. -/
theorem new_ens {d : Node} {C : Ptr → Prop} (hA : Kept t A) (hd : ∀ v g, Inv v g → A v g → BaseFields d)
    (hC : ∀ v g, Inv v g → A v g → C v.next) : Ens t A (new d) (fun r v g => (A v g ∧ Owned t r d.toPlain v g) ∧ C r) := by
  refine .new hA (fun r => (hA.and kept_owned).and (.const _)) fun v g v' hi ha he hnext hnodes => ?_
  obtain ⟨htype, hleaf, hnormal, hmain⟩ := hd v g hi ha
  obtain ⟨hpl, hget⟩ := hnodes 0 d rfl
  rw [Nat.add_zero] at hpl hget
  have hun : d.type = .joinMain → v'.Undecided v.next := fun ht => by
    rw [Graph.Undecided, hget]
    exact hmain ht
  refine ⟨fun q hq hold => ?_, fun ha' => ?_⟩
  · have hq' : q = v.next := by
      have h₁ : v.next ≤ q := not_lt.mp fun hlt => hold ⟨hq.1, hlt⟩
      have h₂ := hq.2
      rw [hnext] at h₂
      exact le_antisymm (Nat.lt_succ_iff.mp h₂) h₁
    subst hq'
    constructor <;> rw [hpl]
    · intro _ side
      rw [hget, hleaf]
    · exact fun ht => absurd ht htype
    · intro ht
      rw [hget]
      exact hnormal ht
    · exact hun
  · obtain ⟨hall, hown⟩ := hi.fresh_next (t := t) hnext (by simp)
    exact ⟨⟨ha', ⟨hall, hown, hpl⟩, hun⟩, hC v g hi ha⟩

/-- The fields of a base node, loaded one by one. -/
theorem copyOf_ens {C : Node → Prop} (hA : Kept t A) (hb : ∀ v g, Inv v g → A v g → v.BaseNode b)
    (hC : ∀ v g (d : Node), Inv v g → A v g → d.toPlain.bare = (v.plain b).bare → (∀ side, d.get (.child side) = nullptr) →
      d.neigh2 = v.get b .neigh2 → C d) :
    Ens t A (copyOf b) (fun d v g => (A v g ∧ Reads b d.toPlain v) ∧ C d) := by
  have hread : ∀ a, Kept t (fun v g => A v g ∧ Reads b a v) := fun a => hA.and kept_reads
  refine Ens.bind (.fromPool hA) fun _ => Ens.bind (.plain hA hread fun v g _ ha hn => ⟨ha, hn, rfl⟩) fun a => ?_
  have hleft : ∀ left, Kept t (fun v g => (A v g ∧ Reads b a v) ∧ left = nullptr) := fun _ => (hread a).and (.const _)
  refine Ens.bind (.load (hread a) hleft fun v g hi h _ => ⟨h, hi.leaf b _ (hb v g hi h.1)⟩) fun left => ?_
  have hright : ∀ right, Kept t (fun v g => ((A v g ∧ Reads b a v) ∧ left = nullptr) ∧ right = nullptr) :=
    fun _ => (hleft left).and (.const _)
  refine Ens.bind (.load (hleft left) hright fun v g hi h _ => ⟨h, hi.leaf b _ (hb v g hi h.1.1)⟩) fun right => ?_
  refine Ens.bind (.loadValid (hright right)) fun valid => ?_
  refine Ens.bind (load_ens (hright right)) fun joinId => ?_
  -- the fields are all known once the last of them has been loaded
  refine Ens.bind (B := fun neigh2 v g => (A v g ∧ Reads b a v) ∧
    C { a with left := left, right := right, valid := valid, joinId := joinId, neigh2 := neigh2 })
    (.load (hright right) (fun _ => (hread a).and (.const _)) fun v g hi h _ => ⟨h.1.1, ?_⟩) fun neigh2 =>
      .pure ((hread a).and (.const _)) fun _ _ _ h => h
  obtain ⟨⟨⟨ha, _, hbare⟩, rfl⟩, rfl⟩ := h
  refine hC v g _ hi ha hbare.symm (fun side => ?_) rfl
  cases side <;> rfl

/-- `node::New(other)` of a base node. -/
theorem newCopy_ens {f : Node → Node} (hA : Kept t A) (hb : ∀ v g, Inv v g → A v g → v.BaseNode b)
    (hf : ∀ v g (d : Node), Inv v g → A v g → d.toPlain.bare = (v.plain b).bare → (∀ side, d.get (.child side) = nullptr) →
      d.neigh2 = v.get b .neigh2 → BaseFields (f d)) :
    Ens t A (newCopy b f) (fun r v g => A v g ∧ ∃ d : Node, Reads b d.toPlain v ∧ Owned t r (f d).toPlain v g) := by
  refine .bind (copyOf_ens hA hb hf) fun d => ?_
  have hread : Kept t (fun v g => A v g ∧ Reads b d.toPlain v) := hA.and kept_reads
  refine Ens.post (new_ens (C := fun _ => True) (hread.and (.const _)) (fun v g _ h => h.2) fun _ _ _ _ => trivial) ?_
  exact fun r v g h => ⟨h.1.1.1.1, d, h.1.1.1.2, h.1.2⟩

/-- A route node that `t` has made and that is nowhere in the tree. -/
structure Private (t : ℕ) (r : Ptr) (v : Graph) (g : Ghost) : Prop where
  route : v.HasType r .route
  owner : g.owner r = t
  nowhere : ∀ σ, v.On σ → v.look σ ≠ r
  linked : ¬ g.retired r

theorem kept_private : Kept t (Private t r) := by
  intro v g v' g' hi _ hs h
  refine ⟨hs.hasType h.route, (hs.owner r h.route.1).trans h.owner, hs.fresh r h.route h.owner h.nowhere, fun hr => ?_⟩
  cases hs.retires r hr with
  | inl hr => exact h.linked hr
  | inr hr =>
      -- the parent of a join that is on is in the tree
      obtain ⟨m, hm, hf, hpar, _⟩ := hr
      have hnr : ¬ g.retired (v.plain m).parent := by
        rw [hpar]
        exact h.linked
      obtain ⟨σ, _, hlive, hlook⟩ := ((hi.joined m hm hf).secured hnr).slot
      exact h.nowhere σ hlive.on (hlook.trans hpar)

theorem Private.placeable (h : Private t r v g) : Placeable v g r := ⟨h.route.1, h.linked, fun _ => h.nowhere⟩

theorem splitNodes_fresh {splitVal : ℤ} {left right : Treap} (hi : Inv v g) (he : v.Extends v') (hnext : v'.next = v.next + 3)
    (hnodes : ∀ i d, (splitNodes splitVal left right v.next)[i]? = some d →
      v'.plain (v.next + i) = d.toPlain ∧ ∀ f, v'.get (v.next + i) f = d.get f) :
    (∀ q, v'.Allocated q → ¬ v.Allocated q → FreshNode v' q) ∧ Private t v.next v' (g.take t v) := by
  have hpos := hi.next_pos
  obtain ⟨hp₀, hg₀⟩ := hnodes 0 _ rfl
  obtain ⟨hp₁, hg₁⟩ := hnodes 1 _ rfl
  obtain ⟨hp₂, hg₂⟩ := hnodes 2 _ rfl
  rw [Nat.add_zero] at hp₀ hg₀
  have hall : ∀ k, k < 3 → v'.Allocated (v.next + k) := fun k hk => by
    refine ⟨Nat.le_add_right_of_le hpos, ?_⟩
    rw [hnext]
    exact Nat.add_lt_add_left hk _
  have hcases : ∀ q, v'.Allocated q → ¬ v.Allocated q → q = v.next ∨ q = v.next + 1 ∨ q = v.next + 2 := by
    intro q hq hold
    obtain ⟨k, rfl⟩ := Nat.exists_eq_add_of_le (not_lt.mp fun hlt => hold ⟨hq.1, hlt⟩)
    have hk : k < 3 := by
      have hlt := hq.2
      rw [hnext] at hlt
      exact Nat.lt_of_add_lt_add_left hlt
    interval_cases k
    · exact .inl rfl
    · exact .inr (.inl rfl)
    · exact .inr (.inr rfl)
  have hbase : ∀ k, k = 1 ∨ k = 2 → v'.BaseNode (v.next + k) := by
    rintro k (rfl | rfl)
    · exact ⟨hall 1 (by decide), by rw [hp₁]; simp⟩
    · exact ⟨hall 2 (by decide), by rw [hp₂]; simp⟩
  refine ⟨fun q hq hold => ?_, ⟨?_, ?_⟩, ?_, fun σ hσ => ?_, ?_⟩
  · rcases hcases q hq hold with rfl | rfl | rfl
    · refine ⟨fun h => absurd (by rw [hp₀]) h, fun _ d => ?_, fun h => ?_, fun h => ?_⟩
      · rw [hg₀]
        cases d
        · exact hbase 1 (.inl rfl)
        · exact hbase 2 (.inr rfl)
      · rw [hp₀] at h
        cases h
      · rw [hp₀] at h
        cases h
    · refine ⟨fun _ d => by rw [hg₁]; cases d <;> rfl, fun h => ?_, fun _ => by rw [hg₁]; rfl, fun _ => .inl (by rw [hg₁]; rfl)⟩
      rw [hp₁] at h
      cases h
    · refine ⟨fun _ d => by rw [hg₂]; cases d <;> rfl, fun h => ?_, fun _ => by rw [hg₂]; rfl, fun _ => .inl (by rw [hg₂]; rfl)⟩
      rw [hp₂] at h
      cases h
  · exact hall 0 (by decide)
  · rw [hp₀]
  · exact (hi.fresh_next hnext (by decide)).2
  · by_cases hon : v.On σ
    · rw [he.look hon]
      intro hlook
      have ha := hi.look_allocated hon (by rw [hlook]; exact (hall 0 (by decide)).ne_null)
      rw [hlook] at ha
      exact lt_irrefl _ ha.2
    · cases σ with
      | root => exact absurd trivial hon
      | child q d =>
          rcases hcases q hσ hon with rfl | rfl | rfl
          · show v'.get _ _ ≠ _
            rw [hg₀]
            cases d
            · exact Nat.succ_ne_self _
            · exact Nat.ne_of_gt (Nat.lt_add_of_pos_right (by decide))
          · show v'.get _ _ ≠ _
            rw [hg₁]
            cases d <;> exact (hall 0 (by decide)).ne_null.symm
          · show v'.get _ _ ≠ _
            rw [hg₂]
            cases d <;> exact (hall 0 (by decide)).ne_null.symm
  · intro hr
    exact lt_irrefl _ (hi.retired _ hr).1.1.2

/-- A split: if it takes place, what is known after it follows from what is known before it. -/
theorem highContentionAdaptation_ens {B : Graph → Ghost → Prop} (hA : Kept t A) (hB : Kept t B)
    (hb : ∀ v g, Inv v g → A v g → v.BaseNode b) (hAB : ∀ v g, Inv v g → A v g → B v g)
    (hput : ∀ v g r σ, Inv v g → A v g → Private t r v g → v.look σ = b → B (v.put r σ) g) :
    Ens t A (highContentionAdaptation b) (fun _ => B) := by
  refine .bind (dataOf_ens hA) fun data => .ite (fun _ => .pure hB hAB) fun _ => ?_
  refine .bind (.fromPool hA) fun _ => .bind (.fromPool hA) fun halves => .bind (.fromPool hA) fun _ => .bind (.fromPool hA) fun _ => ?_
  refine Ens.bind (B := fun r v g => A v g ∧ Private t r v g) (.new hA (fun _ => hA.and kept_private)
    fun v g v' hi _ he hnext hnodes => ?_) fun r => ?_
  · obtain ⟨hfresh, hpr⟩ := splitNodes_fresh (t := t) hi he hnext hnodes
    exact ⟨hfresh, fun ha => ⟨ha, hpr⟩⟩
  · refine Ens.bind (B := fun _ => B) (tryReplace_ens (hA.and kept_private) (fun _ => hB) (fun _ he => by cases he)
      (fun v g σ hi ⟨ha, hr⟩ _ hlook => ⟨?_, hput v g r σ hi ha hr hlook⟩) fun v g hi h => hAB v g hi h.1) fun _ => .ret hB
    have hold := hb v g hi ha
    rw [← hlook] at hold
    exact .put hold hr.placeable fun _ => hr.owner

end Lfca

end LockFreeSearchTree
