import LockFreeSearchTree.TreapUpdate
import Mathlib.Data.List.Range

/-! # Transfer, merge and split

* `transferNodesFrom` copies a subtree of one treap into fresh slots of another, node by node
  from a stack: the same shape and values, new weights (`transferLoop_spec`).
* `merge` of two treaps whose sizes fit holds the values of the left one followed by those of
  the right one, in whatever order they are (`merge_yields`); it fails exactly when the sizes do
  not fit (`merge_overflow`).
* `split` cuts the values in order into two parts (`split_yields`); where they are sorted, at
  the last value not above the split value, which is the median of `getMedianVal_spec`. -/

namespace LockFreeSearchTree

open BinTree

/-! ### The median -/

/-- Truncated halves do not depend on how the fraction is reduced. -/
theorem Treap.toInt_half (n : ℤ) : Treap.toInt ((n : ℚ) / 2) = n.tdiv 2 := by
  unfold Treap.toInt
  have hq : ((n : ℚ) / 2).num * 2 = n * ((n : ℚ) / 2).den := by
    have h := Rat.num_div_den ((n : ℚ) / 2)
    have hd : ((((n : ℚ) / 2).den : ℤ) : ℚ) ≠ 0 := by
      exact_mod_cast ((n : ℚ) / 2).den_nz
    have h' : ((((n : ℚ) / 2).num * 2 : ℤ) : ℚ) = ((n * ((n : ℚ) / 2).den : ℤ) : ℚ) := by
      push_cast at hd ⊢
      field_simp at h
      linarith
    exact_mod_cast h'
  have hpos : (0 : ℤ) < ((n : ℚ) / 2).den := by exact_mod_cast ((n : ℚ) / 2).den_pos
  calc ((n : ℚ) / 2).num.tdiv ((n : ℚ) / 2).den
      = (2 * ((n : ℚ) / 2).num).tdiv (2 * ((n : ℚ) / 2).den) :=
        (Int.mul_tdiv_mul_of_pos _ _ (by norm_num)).symm
    _ = (((n : ℚ) / 2).den * n).tdiv (((n : ℚ) / 2).den * 2) := by
        rw [mul_comm 2, hq, mul_comm n, mul_comm 2]
    _ = n.tdiv 2 := Int.mul_tdiv_mul_of_pos _ _ hpos

namespace Treap

theorem toInt_halves (a b : ℤ) : toInt ((toInt ((a : ℚ) / 2) : ℚ) + (b : ℚ) / 2) = middle a b := by
  rw [middle, toInt_half a, ← toInt_half (2 * a.tdiv 2 + b)]
  congr 1
  push_cast
  ring

theorem vectorAt_eq {vs : List ℤ} {i : ℕ} (h : i < vs.length) : vectorAt vs i = .ok (vs.getD i 0) := by
  simp [vectorAt, List.getElem?_eq_getElem h]

theorem Stores.sortedValues {t : Treap} {vs : List ℤ} (h : t.Stores vs) (ho : Sorted vs) : t.sortedValues = vs := by
  obtain ⟨T, _, hp, _, _, rfl⟩ := h
  have hperm : t.sortedValues.Perm (T.labels.map t.vals) :=
    (List.perm_insertionSort _ _).trans (hp.map t.vals).symm
  exact hperm.eq_of_pairwise (fun a b _ _ hab hba => le_antisymm hab hba) (List.pairwise_insertionSort _ _) ho

/-- `getMedianVal` succeeds on every treap that is not empty. -/
theorem getMedianVal_spec {t : Treap} {vs : List ℤ} (h : t.Stores vs) (hne : vs ≠ []) :
    ∃ m, t.getMedianVal = .ok m ∧ (Sorted vs → m = medianOf vs) := by
  have hlen := h.length
  have hpos : 0 < t.size := by
    rw [← hlen]
    exact List.length_pos_iff.mpr hne
  have hs : t.sortedValues.length = t.size := by
    simp [sortedValues]
  refine ⟨medianOf t.sortedValues, ?_, fun ho => by rw [h.sortedValues ho]⟩
  unfold getMedianVal medianOf
  rw [if_neg (by omega), hs]
  split_ifs with heven
  · have h₁ := vectorAt_eq (show t.size / 2 - 1 < t.sortedValues.length by omega)
    have h₂ := vectorAt_eq (show t.size / 2 < t.sortedValues.length by omega)
    simp only [h₁, h₂, ok_bind, toInt_halves]
    rfl
  · exact vectorAt_eq (by omega)

/-! ### Transfer -/

theorem createNewNode_eq (t : Treap) (v : ℤ) (env : Env) (h : t.size ≤ TREAP_NODES) :
    t.createNewNode v env =
      (.ok (some t.size, ({ t with size := t.size + 1 } : Treap).put t.size
        { val := v, weight := (env.draws env.drawn).1, parent := NullNode, left := NullNode, right := NullNode }),
        { env with drawn := env.drawn + 1 }) := by
  unfold createNewNode
  rw [TreapM.bind_ok (m := drawWeight) rfl, TreapM.bind_lift (modify_some _ _ h)]
  rfl

/-- A copied tree: its values, and the weights drawn from the `n`-th one on, one for the root first,
then those for the right and then those for the left subtree. -/
def copied (val : ℕ → ℤ) (draws : ℕ → Weight) : ℕ → SlotTree → BinTree Unit (ℤ × ℤ)
  | _, .leaf u => .leaf u
  | n, .node l x r =>
      .node (copied val draws (n + 1 + r.labels.length) l) (val x, (draws n).1) (copied val draws (n + 1) r)

theorem copied_relabel (val : ℕ → ℤ) (draws : ℕ → Weight) (n : ℕ) (S : SlotTree) :
    (copied val draws n S).relabel Prod.fst = S.relabel val := by
  induction S generalizing n with
  | leaf u => rfl
  | node l x r ihl ihr => simp [copied, ihl, ihr]

theorem copied_vals (val : ℕ → ℤ) (draws : ℕ → Weight) (n : ℕ) (S : SlotTree) :
    (copied val draws n S).labels.map Prod.fst = S.labels.map val := by
  rw [← labels_relabel, copied_relabel, labels_relabel]

theorem copied_weights (val : ℕ → ℤ) (draws : ℕ → Weight) (n : ℕ) (S : SlotTree) :
    ∀ x ∈ (copied val draws n S).labels, NegInfinity < x.2 := by
  induction S generalizing n with
  | leaf u => simp [copied]
  | node l x r ihl ihr =>
      intro y hy
      simp only [copied, labels_node, List.mem_append, List.mem_cons] at hy
      rcases hy with hy | rfl | hy
      · exact ihl _ y hy
      · exact (draws n).2.1
      · exact ihr _ y hy

theorem copied_congr {val val' : ℕ → ℤ} (draws : ℕ → Weight) {n : ℕ} {S : SlotTree}
    (h : ∀ s ∈ S.labels, val s = val' s) : copied val draws n S = copied val' draws n S := by
  induction S generalizing n with
  | leaf u => rfl
  | node l x r ihl ihr =>
      simp only [labels_node, List.mem_append, List.mem_cons] at h
      rw [copied, copied, h x (by simp), ihl fun s hs => h s (by simp [hs]), ihr fun s hs => h s (by simp [hs])]

theorem held_length {t : Treap} {T S : SlotTree} {val : ℕ → ℤ} {draws : ℕ → Weight} {n : ℕ}
    (h : t.held T = copied val draws n S) : T.labels.length = S.labels.length := by
  have := congrArg (fun U => (U.labels.map Prod.fst).length) h
  simpa only [held_vals, copied_vals, List.length_map] using this

/-- `t'` is `t` with the tree `T` of fresh slots hung below index `q` on side `d`. -/
structure Grown (t t' : Treap) (q : TreapIndex) (d : Side) (T : SlotTree) : Prop where
  size : t'.size = t.size + T.labels.length
  root : t'.root = t.root
  spans : Spans t'.nodes q T
  labels : T.labels.Perm (List.range' t.size T.labels.length)
  parent : ∀ s, q = some s → t'.nodes s = (t.nodes s).setChild d (top T)
  frame : ∀ s, some s ≠ q → s ∉ T.labels → t'.nodes s = t.nodes s

theorem Grown.mem {t t' : Treap} {q : TreapIndex} {d : Side} {T : SlotTree} (h : Grown t t' q d T) {s : ℕ} :
    s ∈ T.labels ↔ t.size ≤ s ∧ s < t'.size := by
  rw [h.labels.mem_iff, List.mem_range'_1, h.size]

/-- One round of the loop: the root of a subtree is copied to the next free slot. -/
theorem transferLoop_step {t : Treap} (other : Treap) {q : TreapIndex} (rt : TreapIndex) (d : Side) {x : ℕ} (fuel : ℕ) (st : List TreapTransferInfo)
    (env : Env) (hx : x ≤ TREAP_NODES) (hsize : t.size < TREAP_NODES) (hq : ∀ s, q = some s → s < t.size) :
    ∃ t' env', env.Same env' ∧ env'.drawn = env.drawn + 1 ∧
      transferLoop other (fuel + 1) (⟨d = .left, q, some x⟩ :: st) rt t env =
        transferLoop other fuel
          ((if (other.nodes x).right ≠ NullNode then [⟨false, some t.size, (other.nodes x).right⟩] else []) ++
            ((if (other.nodes x).left ≠ NullNode then [⟨true, some t.size, (other.nodes x).left⟩] else []) ++ st))
          (if q ≠ NullNode then rt else some t.size) t' env' ∧
      t'.size = t.size + 1 ∧ t'.root = t.root ∧
      t'.nodes t.size = ⟨other.vals x, (env.draws env.drawn).1, q, NullNode, NullNode⟩ ∧
      (∀ s, q = some s → t'.nodes s = (t.nodes s).setChild d (some t.size)) ∧
      (∀ s, some s ≠ q → s ≠ t.size → t'.nodes s = t.nodes s) := by
  let w := (env.draws env.drawn).1
  let t₁ := ({ t with size := t.size + 1 } : Treap).put t.size
    { val := other.vals x, weight := w, parent := NullNode, left := NullNode, right := NullNode }
  have hcreate := createNewNode_eq t (other.nodes x).val env hsize.le
  have hpush : ∀ (i : TreapIndex) (b : Bool) (st : List TreapTransferInfo),
      (if i ≠ NullNode then ⟨b, some t.size, i⟩ :: st else st) =
        (if i ≠ NullNode then [⟨b, some t.size, i⟩] else []) ++ st := fun i b st => by
    split_ifs <;> rfl
  have hget := get_some other hx
  cases q with
  | none =>
      refine ⟨t₁, { env with drawn := env.drawn + 1 }, ⟨rfl, rfl⟩, rfl, ?_, rfl, rfl, put_same _ _ _, by simp,
        fun s _ hs => put_ne _ _ hs⟩
      rw [transferLoop, TreapM.bind_lift hget, TreapM.bind_ok hcreate]
      refine (TreapM.bind_lift (a := (some t.size, t₁)) rfl _).trans ?_
      rw [← hpush, ← hpush]
      rfl
  | some p =>
      have hp : p < t.size := hq p rfl
      let t₂ := t₁.put t.size ((t₁.nodes t.size).withParent (some p))
      let t₃ := t₂.put p ((t₂.nodes p).setChild d (some t.size))
      have hp₂ : t₂.nodes p = t.nodes p := by
        rw [put_ne _ _ (by omega), put_ne _ _ (by omega)]
      refine ⟨t₃, { env with drawn := env.drawn + 1 }, ⟨rfl, rfl⟩, rfl, ?_, rfl, rfl, ?_, ?_, ?_⟩
      · rw [transferLoop, TreapM.bind_lift hget, TreapM.bind_ok hcreate]
        have hfun : (fun n : TreapNode => if decide (d = Side.left) = true then { n with left := some t.size }
            else { n with right := some t.size }) = fun n => n.setChild d (some t.size) := by
          funext n
          cases d <;> rfl
        refine (TreapM.bind_lift (a := (rt, t₃)) ?_ _).trans ?_
        · simp only [ne_eq, reduceCtorEq, not_false_eq_true, if_true, hfun]
          rw [modify_some _ _ hsize.le, ok_bind, modify_some _ _ (by omega), ok_bind]
          rfl
        · rw [← hpush, ← hpush]
          rfl
      · rw [put_ne _ _ (by omega), put_same]
        show ((t₁.nodes t.size).withParent (some p)) = _
        rw [put_same]
        rfl
      · intro s hs
        cases hs
        rw [put_same, hp₂]
      · intro s hs hsize
        rw [put_ne _ _ (fun he => hs (by rw [he])), put_ne _ _ hsize, put_ne _ _ hsize]

/-- The loop copies the subtree on top of the stack: its root, then its right and then its left
subtree. -/
theorem transferLoop_spec {other : Treap} : ∀ {S : SlotTree} {p : TreapIndex} (q rt : TreapIndex) {t : Treap} (d : Side) (fuel : ℕ)
    (st : List TreapTransferInfo) (env : Env), Spans other.nodes p S → t.size + S.labels.length ≤ TREAP_NODES →
    (∀ s, q = some s → s < t.size ∧ (t.nodes s).child d = NullNode) →
    ∃ t' env' T, env.Same env' ∧ env'.drawn = env.drawn + S.labels.length ∧
      transferLoop other (S.labels.length + fuel)
          ((if top S ≠ NullNode then [⟨d = .left, q, top S⟩] else []) ++ st) rt t env =
        transferLoop other fuel st (if q = NullNode ∧ top S ≠ NullNode then some t.size else rt) t' env' ∧
      Grown t t' q d T ∧ t'.held T = copied other.vals env.draws env.drawn S ∧ (top S ≠ NullNode → top T = some t.size)
  | .leaf u, p, q, rt, t, d, fuel, st, env, _, _, hq => by
      refine ⟨t, env, .leaf (), .refl env, rfl, by simp, ⟨by simp, rfl, trivial, by simp, fun s hs => ?_,
        fun _ _ _ => rfl⟩, rfl, by simp⟩
      exact ((t.nodes s).setChild_of_child_eq d _ (hq s hs).2).symm
  | .node l x r, p, q, rt, t, d, fuel, st, env, hS, hsize, hq => by
      obtain ⟨hx, _, hl, hr, hSl, hSr⟩ := hS
      simp only [labels_node, List.length_append, List.length_cons] at hsize
      obtain ⟨t₁, env₁, hs₁, hd₁, hrun₁, hsize₁, hroot₁, hnode₁, hpar₁, hfr₁⟩ :=
        transferLoop_step other rt d (r.labels.length + (l.labels.length + fuel)) st
          env hx (by omega : t.size < TREAP_NODES) (fun s hs => (hq s hs).1)
      obtain ⟨t₂, env₂, R, hs₂, hd₂, hrun₂, hR, hRv, hRt⟩ := transferLoop_spec (some t.size)
        (if q ≠ NullNode then rt else some t.size) .right (l.labels.length + fuel)
        ((if top l ≠ NullNode then [⟨true, some t.size, top l⟩] else []) ++ st) env₁ hSr
        (by omega : t₁.size + _ ≤ _) (fun s hs => by
          cases hs
          exact ⟨by omega, by rw [hnode₁]; rfl⟩)
      have hnode₂ := hR.parent _ rfl
      have hlenR := held_length hRv
      obtain ⟨t₃, env₃, L, hs₃, hd₃, hrun₃, hL, hLv, hLt⟩ := transferLoop_spec (some t.size)
        (if q ≠ NullNode then rt else some t.size) .left fuel st env₂ hSl
        (by
          have h₁ := hR.size
          omega : t₂.size + _ ≤ _) (fun s hs => by
          cases hs
          refine ⟨by have := hR.size; omega, ?_⟩
          rw [hnode₂, hnode₁]
          rfl)
      have hlenL := held_length hLv
      have hsize₂ := hR.size
      have hsize₃ := hL.size
      have hmemR : ∀ s, s ∈ R.labels ↔ t₁.size ≤ s ∧ s < t₂.size := fun s => hR.mem
      have hmemL : ∀ s, s ∈ L.labels ↔ t₂.size ≤ s ∧ s < t₃.size := fun s => hL.mem
      -- outside the two subtrees only the root changes
      have hkeepR : ∀ s ∈ R.labels, t₃.nodes s = t₂.nodes s := fun s hs => by
        rw [hmemR] at hs
        exact hL.frame s (fun he => by cases he; omega) (fun hm => by rw [hmemL] at hm; omega)
      have hkeep : ∀ s, s ≠ t.size → s ∉ R.labels → s ∉ L.labels → t₃.nodes s = t₁.nodes s := fun s hs hsR hsL => by
        rw [hL.frame s (fun he => hs (by cases he; rfl)) hsL, hR.frame s (fun he => hs (by cases he; rfl)) hsR]
      have hnode₃ : t₃.nodes t.size = ((t₁.nodes t.size).setChild .right (top R)).setChild .left (top L) := by
        rw [hL.parent _ rfl, hnode₂]
      have hval₃ : t₃.vals t.size = other.vals x := by
        rw [vals, hnode₃, TreapNode.val_setChild, TreapNode.val_setChild, hnode₁]
      have hweight₃ : t₃.weights t.size = (env.draws env.drawn).1 := by
        rw [weights, hnode₃, TreapNode.weight_setChild, TreapNode.weight_setChild, hnode₁]
      refine ⟨t₃, env₃, .node L t.size R, (hs₁.trans hs₂).trans hs₃, ?_, ?_, ⟨?_, ?_, ⟨by omega, ?_, ?_, ?_, hL.spans, ?_⟩,
        ?_, fun s hs => ?_, fun s hs hsT => ?_⟩, ?_, fun _ => rfl⟩
      · rw [hd₃, hd₂, hd₁]
        simp only [labels_node, List.length_append, List.length_cons]
        omega
      · have hfuel : (node l x r).labels.length + fuel = r.labels.length + (l.labels.length + fuel) + 1 := by
          simp only [labels_node, List.length_append, List.length_cons]
          omega
        rw [hfuel, top_node]
        simp only [ne_eq, reduceCtorEq, not_false_eq_true, if_true, and_true]
        refine hrun₁.trans ?_
        rw [hl, hr]
        refine hrun₂.trans ?_
        simp only [reduceCtorEq, false_and, if_false]
        refine hrun₃.trans ?_
        simp only [reduceCtorEq, false_and, if_false]
        cases q <;> simp
      · simp only [labels_node, List.length_append, List.length_cons]
        omega
      · rw [hL.root, hR.root, hroot₁]
      · rw [hnode₃, hnode₁]; rfl
      · rw [hnode₃]; rfl
      · rw [hnode₃]; rfl
      · exact hR.spans.congr hkeepR
      · rw [labels_node]
        refine List.perm_middle.trans ?_
        have hperm := hL.labels.append hR.labels
        have hrange : (t.size :: (List.range' t₁.size R.labels.length ++ List.range' t₂.size L.labels.length)) =
            List.range' t.size (L.labels ++ t.size :: R.labels).length := by
          rw [hsize₂, List.range'_append_1, hsize₁]
          simp only [List.length_append, List.length_cons]
          rw [show L.labels.length + (R.labels.length + 1) = R.labels.length + L.labels.length + 1 by omega,
            List.range'_succ]
        rw [← hrange]
        exact (hperm.trans List.perm_append_comm).cons _
      · have hlt := (hq s hs).1
        rw [hkeep s (by omega) (fun hm => by rw [hmemR] at hm; omega) (fun hm => by rw [hmemL] at hm; omega),
          hpar₁ s hs, top_node]
      · simp only [labels_node, List.mem_append, List.mem_cons, not_or] at hsT
        rw [hkeep s hsT.2.1 hsT.2.2 hsT.1, hfr₁ s hs hsT.2.1]
      · have hR₃ : t₃.held R = t₂.held R := held_congr fun s hs => by
          rw [vals, weights, hkeepR s hs]
          exact ⟨rfl, rfl⟩
        rw [hd₁] at hRv
        rw [hd₂, hd₁, hs₂.1, hs₁.1] at hLv
        rw [hs₁.1] at hRv
        show BinTree.node (t₃.held L) (t₃.vals t.size, t₃.weights t.size) (t₃.held R) = _
        rw [hLv, hR₃, hRv, hval₃, hweight₃, copied]

/-- A transfer into a treap with enough free slots. -/
theorem transferNodesFrom_spec {t other : Treap} {S : SlotTree} {p : TreapIndex} (env : Env)
    (hS : Spans other.nodes p S) (hne : top S ≠ NullNode) (hsize : t.size + S.labels.length ≤ TREAP_NODES) :
    ∃ t' env' T, env.Same env' ∧ env'.drawn = env.drawn + S.labels.length ∧
      t.transferNodesFrom other (top S) env = (.ok (some t.size, t'), env') ∧
      Grown t t' NullNode .left T ∧ t'.held T = copied other.vals env.draws env.drawn S ∧ top T = some t.size := by
  obtain ⟨t', env', T, hs, hd, hrun, hT, hv, ht⟩ := transferLoop_spec NullNode NullNode .right
    (loopFuel - S.labels.length) [] env hS hsize (by simp)
  refine ⟨t', env', T, hs, hd, ?_, ⟨hT.size, hT.root, hT.spans, hT.labels, by simp, hT.frame⟩, hv, ht hne⟩
  rw [show S.labels.length + (loopFuel - S.labels.length) = loopFuel by unfold loopFuel; omega, if_pos hne,
    if_pos ⟨rfl, hne⟩] at hrun
  unfold transferNodesFrom
  simp only [if_neg hne]
  refine Eq.trans hrun ?_
  cases loopFuel - S.labels.length <;> rfl

/-- `t` is well formed, and its slots in use form a tree with the values and weights `S`. -/
def Holds (t : Treap) (S : BinTree Unit (ℤ × ℤ)) : Prop :=
  ∃ T, t.Linked T ∧ T.labels.Perm (List.range t.size) ∧ t.size ≤ TREAP_NODES ∧ t.held T = S

theorem Holds.stores {t : Treap} {S : BinTree Unit (ℤ × ℤ)} (h : t.Holds S) (hw : ∀ x ∈ S.labels, NegInfinity < x.2) :
    t.Stores (S.labels.map Prod.fst) := by
  obtain ⟨T, hL, hp, hsize, rfl⟩ := h
  refine ⟨T, hL, hp, hsize, fun s hs => ?_, (held_vals t T).symm⟩
  obtain ⟨x, hx, he⟩ := exists_held t hs
  exact he ▸ hw x hx

/-- The copy of a subtree in an empty treap. -/
theorem transferInto_spec {other : Treap} {S : SlotTree} {p : TreapIndex} (env : Env)
    (hS : Spans other.nodes p S) (hne : top S ≠ NullNode) (hsize : S.labels.length ≤ TREAP_NODES) :
    ∃ t' env' k, env.Same env' ∧ env'.drawn = env.drawn + S.labels.length ∧
      empty.transferNodesFrom other (top S) env = (.ok (some k, t'), env') ∧
      k ≤ TREAP_NODES ∧ (t'.nodes k).parent = NullNode ∧
      ({ t' with root := some k } : Treap).Holds (copied other.vals env.draws env.drawn S) := by
  obtain ⟨t', env', T, hs, hd, hrun, hT, hv, ht⟩ := transferNodesFrom_spec (t := empty) env hS hne
    (by simpa [empty] using hsize)
  have hlen := held_length hv
  have hsize' : t'.size = S.labels.length := by
    rw [hT.size, hlen]
    simp [empty]
  have hperm : T.labels.Perm (List.range t'.size) := by
    have h := hT.labels
    rwa [List.range_eq_range', hsize', ← hlen]
  refine ⟨t', env', empty.size, hs, hd, hrun, Nat.zero_le _, ?_, T,
    ⟨ht.symm, hT.spans, hperm.nodup_iff.mpr List.nodup_range⟩, hperm, by rw [hsize']; exact hsize, hv⟩
  cases T with
  | leaf u => cases ht
  | node L s R =>
      cases ht
      exact hT.spans.2.1

/-! ### Merge -/

theorem merge_overflow {left right : Treap} (h : left.size + right.size > TREAP_NODES) (env : Env) :
    merge left right env = (.error (.exn (.invalidArgument
      ("Merging these treaps would overflow the new treap. (Sizes: " ++ toString left.size ++ ", " ++
        toString right.size ++ ")"))), env) := by
  unfold merge
  simp only [if_pos h]
  rfl

/-- Two trees in the array become one: a node above both sinks and is cut off. -/
theorem joinRoots_spec {t : Treap} {L R : SlotTree} (hL : Spans t.nodes NullNode L) (hR : Spans t.nodes NullNode R)
    (hneL : top L ≠ NullNode) (hneR : top R ≠ NullNode) (hnd : (L.labels ++ R.labels).Nodup)
    (hc : TREAP_NODES ∉ L.labels ++ R.labels) :
    ∃ t', t.joinRoots (top L) (top R) = .ok t' ∧ t'.Linked (plug (sinkCtx t'.weights L R) (leaf ())) ∧
      t'.size = t.size ∧ (∀ s, s ≠ TREAP_NODES → t'.vals s = t.vals s) ∧
      ∀ s, s ≠ TREAP_NODES → t'.weights s = t.weights s := by
  rw [List.mem_append, not_or] at hc
  obtain ⟨hndL, hndR, hdis⟩ := List.nodup_append'.mp hnd
  obtain ⟨l, hl⟩ : ∃ l, top L = some l := Option.ne_none_iff_exists'.mp hneL
  obtain ⟨r, hr⟩ : ∃ r, top R = some r := Option.ne_none_iff_exists'.mp hneR
  have hlm := mem_of_top hl
  have hrm := mem_of_top hr
  let n : TreapNode :=
    ⟨toInt ((t.vals l : ℚ) / 2 + (t.vals r : ℚ) / 2), NegInfinity, NullNode, top L, top R⟩
  let t₁ := t.put TREAP_NODES n
  have h₁ : ∀ s, s ≠ TREAP_NODES → t₁.nodes s = t.nodes s := fun s hs => put_ne _ _ hs
  -- both trees hang below the dummy node
  obtain ⟨t₂, ht₂, hL₂, hr₂, hR₂⟩ := setParent_spec (t := t₁) ControlNode
    (hL.congr (fun s hs => h₁ s (fun he => hc.1 (he ▸ hs)))) hndL
  obtain ⟨t₃, ht₃, hR₃, hr₃, hRel₃⟩ := setParent_spec (t := t₂) ControlNode
    (hR.congr (fun s hs => by
      rw [hR₂.frame s (fun hm => hdis hm hs), h₁ s (fun he => hc.2 (he ▸ hs))])) hndR
  have hn₃ : t₃.nodes TREAP_NODES = n := by
    rw [hRel₃.frame _ hc.2, hR₂.frame _ hc.1]
    exact put_same _ _ _
  let t₄ : Treap := { t₃ with root := ControlNode }
  have hlink : t₄.Linked (plug [] (node L TREAP_NODES R)) := by
    refine ⟨rfl, ⟨le_refl _, by rw [hn₃], by rw [hn₃], by rw [hn₃], ?_, hR₃⟩, ?_⟩
    · exact hL₂.congr (fun s hs => hRel₃.frame s (fun hm => hdis hs hm))
    · rw [plug_nil, labels_node, List.nodup_append', List.nodup_cons, List.disjoint_cons_right]
      exact ⟨hndL, ⟨hc.2, hndR⟩, hc.1, hdis⟩
  obtain ⟨t₅, ht₅, hL₅, hR₅⟩ := moveDown_spec hlink
  rw [List.append_nil] at hL₅
  obtain ⟨F, C, hFC⟩ : ∃ F C, sinkCtx t₄.weights L R = F :: C := by
    cases hs : sinkCtx t₄.weights L R with
    | nil =>
        have hlab := labels_plug_sinkCtx t₄.weights L R (leaf ())
        rw [hs] at hlab
        simp only [plug_nil, labels_leaf, List.append_nil] at hlab
        rw [(List.append_eq_nil_iff.mp hlab.symm).1] at hlm
        cases hlm
    | cons F C => exact ⟨F, C, rfl⟩
  rw [hFC] at hL₅
  obtain ⟨hC₅, ⟨_, hp₅, _⟩, hnd₅⟩ := linked_plug.mp hL₅
  obtain ⟨_, hndC, hdisC⟩ := nodup_labels_plug.mp hnd₅
  obtain ⟨t₆, ht₆, hC₆, _, hR₆⟩ := relink_spec (j := NullNode) hC₅ hndC (hdisC (by simp))
  have hval : ∀ s, s ≠ TREAP_NODES → t₆.vals s = t.vals s := fun s hs => by
    rw [hR₆.vals, hR₅.vals]
    show t₃.vals s = _
    rw [hRel₃.vals, hR₂.vals, vals, h₁ s hs]
    rfl
  have hweights : t₆.weights = t₄.weights := hR₆.weights.trans hR₅.weights
  have hweight : ∀ s, s ≠ TREAP_NODES → t₆.weights s = t.weights s := fun s hs => by
    rw [hweights]
    show t₃.weights s = _
    rw [hRel₃.weights, hR₂.weights, weights, h₁ s hs]
    rfl
  refine ⟨t₆, ?_, ?_, ?_, hval, hweight⟩
  · have hset₂ : t₁.modify (some l) (fun n => n.withParent ControlNode) = .ok t₂ := by
      rw [← ht₂, hl]
      rfl
    have hset₃ : t₂.modify (some r) (fun n => n.withParent ControlNode) = .ok t₃ := by
      rw [← ht₃, hr]
      rfl
    unfold joinRoots
    rw [hl, hr]
    refine bind_eq (get_some t (hL.le l hlm)) (bind_eq (get_some t (hR.le r hrm)) ?_)
    rw [← hl, ← hr]
    refine bind_eq (modify_some t (fun _ => n) (le_refl _)) ?_
    rw [hl, hr]
    refine bind_eq hset₂ (bind_eq hset₃ (bind_eq ht₅ (bind_eq (get_some t₅ (le_refl _)) ?_)))
    rw [hp₅]
    exact ht₆
  · rw [hweights, hFC]
    exact linked_plug.mpr ⟨hC₆, trivial, nodup_labels_plug.mpr ⟨by simp, hndC, by simp⟩⟩
  · rw [hR₆.size, hR₅.size]
    show t₃.size = _
    rw [hRel₃.size, hR₂.size]
    rfl

/-- The result of `merge` where one side is empty. -/
theorem mergeOne_yields {t : Treap} {T : SlotTree} {env : Env} (hL : t.Linked T) (hsize : T.labels.length ≤ TREAP_NODES)
    (hne : t.root ≠ NullNode) :
    YieldsFrom env (do
      let (newRoot, mergedTreap) ← empty.transferNodesFrom t t.root
      liftArray ({ mergedTreap with root := newRoot }.modify newRoot (fun n => n.withParent NullNode)))
      (fun t' => t'.Holds (copied t.vals env.draws env.drawn T)) := by
  obtain ⟨t', env', k, hs, _, hrun, hk, hpk, hst⟩ := transferInto_spec env hL.2.1 (hL.1 ▸ hne) hsize
  refine ⟨env', hs, .inl ⟨{ t' with root := some k }, ?_, hst⟩⟩
  rw [hL.1, TreapM.bind_ok hrun]
  have hsame : ({ t' with root := some k } : Treap).put k ((t'.nodes k).withParent NullNode) = { t' with root := some k } := by
    have hnode : (t'.nodes k).withParent NullNode = t'.nodes k := by
      rw [← hpk]
      rfl
    unfold put
    rw [hnode, Function.update_eq_self]
  have hmod := modify_some ({ t' with root := some k } : Treap) (fun n => n.withParent NullNode) hk
  show liftArray (Treap.modify _ _ _) env' = _
  rw [hmod, hsame]
  rfl

/-- `merge` copies both trees, the left one first, and joins the copies. -/
theorem merge_links {left right : Treap} {Tl Tr : SlotTree} (env : Env) (hLl : left.Linked Tl)
    (hpl : Tl.labels.Perm (List.range left.size)) (hLr : right.Linked Tr)
    (hpr : Tr.labels.Perm (List.range right.size)) (hsize : left.size + right.size ≤ TREAP_NODES) :
    YieldsFrom env (merge left right) (fun t => ∃ L R,
      t.Linked (plug (sinkCtx t.weights L R) (leaf ())) ∧ (L.labels ++ R.labels).Perm (List.range t.size) ∧
      t.size = left.size + right.size ∧ t.held L = copied left.vals env.draws env.drawn Tl ∧
      t.held R = copied right.vals env.draws (env.drawn + Tl.labels.length) Tr) := by
  have hlenl := hpl.length_eq
  have hlenr := hpr.length_eq
  rw [List.length_range] at hlenl hlenr
  unfold merge
  simp only [if_neg (by omega : ¬ left.size + right.size > TREAP_NODES)]
  apply YieldsFrom.bind_New
  intro env₀ hs₀ hd₀
  rw [← hs₀.1, ← hd₀]
  have hnull : ∀ {t : Treap} {T : SlotTree}, t.Linked T → T.labels.length = t.size → (t.root = NullNode ↔ t.size = 0) := by
    intro t T hL hlen
    rw [hL.1, ← hlen]
    cases T <;> simp
  have hnulll := hnull hLl hlenl
  have hnullr := hnull hLr hlenr
  by_cases hz : left.size + right.size = 0
  · rw [if_pos hz]
    obtain rfl : Tl = leaf () := top_eq_null (hLl.1.symm.trans (hnulll.mpr (by omega)))
    obtain rfl : Tr = leaf () := top_eq_null (hLr.1.symm.trans (hnullr.mpr (by omega)))
    refine .pure ⟨leaf (), leaf (), ?_, by simp [empty], by rw [hz]; rfl, rfl, rfl⟩
    rw [plug_sinkCtx_leaf_left]
    exact ⟨rfl, trivial, by simp⟩
  rw [if_neg hz]
  by_cases hrn : right.root = NullNode
  · rw [if_pos hrn]
    obtain rfl : Tr = leaf () := top_eq_null (hLr.1.symm.trans hrn)
    apply (mergeOne_yields hLl (by omega) (fun hln => hz (by have := hnulll.mp hln; have := hnullr.mp hrn; omega))).mono
    rintro t ⟨T, hL, hp, _, hheld⟩
    have hlen := hp.length_eq
    rw [List.length_range, held_length hheld] at hlen
    refine ⟨T, leaf (), ?_, by simpa using hp, ?_, hheld, rfl⟩
    · rw [plug_sinkCtx_leaf_right]
      exact hL
    · rw [hnullr.mp hrn]
      omega
  rw [if_neg hrn]
  by_cases hln : left.root = NullNode
  · rw [if_pos hln]
    obtain rfl : Tl = leaf () := top_eq_null (hLl.1.symm.trans hln)
    apply (mergeOne_yields hLr (by omega) hrn).mono
    rintro t ⟨T, hL, hp, _, hheld⟩
    have hlen := hp.length_eq
    rw [List.length_range, held_length hheld] at hlen
    refine ⟨leaf (), T, ?_, by simpa using hp, ?_, rfl, hheld⟩
    · rw [plug_sinkCtx_leaf_left]
      exact hL
    · rw [hnulll.mp hln]
      omega
  rw [if_neg hln]
  obtain ⟨t₁, env₁, L, hs₁, hd₁, hrun₁, hL, hLv, hLt⟩ := transferNodesFrom_spec (t := empty) env₀ hLl.2.1 (hLl.1 ▸ hln)
    (by show 0 + _ ≤ _; omega)
  have hlenL := held_length hLv
  have hsize₁ : t₁.size = left.size := by
    rw [hL.size, hlenL, hlenl]
    exact Nat.zero_add _
  obtain ⟨t₂, env₂, R, hs₂, hd₂, hrun₂, hR, hRv, hRt⟩ := transferNodesFrom_spec (t := t₁) env₁ hLr.2.1 (hLr.1 ▸ hrn)
    (by omega)
  have hlenR := held_length hRv
  have hsize₂ : t₂.size = left.size + right.size := by
    rw [hR.size, hlenR, hsize₁, hlenr]
  have hmemL : ∀ s ∈ L.labels, s < left.size := fun s hs => by
    have := (hL.mem.mp hs).2
    omega
  have hkeep : ∀ s ∈ L.labels, t₂.nodes s = t₁.nodes s := fun s hs =>
    hR.frame s (by simp) (fun hm => by have := (hR.mem.mp hm).1; have := hmemL s hs; omega)
  have hperm : (L.labels ++ R.labels).Perm (List.range t₂.size) := by
    have happ := List.range'_append_1 (s := 0) (m := L.labels.length) (n := R.labels.length)
    rw [Nat.zero_add] at happ
    rw [List.range_eq_range', hsize₂, ← hlenl, ← hlenr, ← hlenL, ← hlenR, ← happ]
    have h₂ := hR.labels
    rw [hsize₁, ← hlenl, ← hlenL] at h₂
    exact hL.labels.append h₂
  have hc : ∀ s ∈ L.labels ++ R.labels, s ≠ TREAP_NODES := fun s hs he => by
    have := List.mem_range.mp (hperm.mem_iff.mp hs)
    omega
  obtain ⟨t₃, ht₃, hT, hsize₃, hval₃, hw₃⟩ := joinRoots_spec (hL.spans.congr hkeep) hR.spans (by rw [hLt]; simp)
    (by rw [hRt]; simp) (hperm.nodup_iff.mpr List.nodup_range) (fun hm => hc _ hm rfl)
  refine ⟨env₂, hs₁.trans hs₂, .inl ⟨t₃, ?_, L, R, hT, by rwa [hsize₃], by rw [hsize₃, hsize₂], ?_, ?_⟩⟩
  · rw [hLl.1, TreapM.bind_ok hrun₁]
    refine Eq.trans (TreapM.bind_ok (by rw [hLr.1]; exact hrun₂)) ?_
    show liftArray (t₂.joinRoots (some empty.size) (some t₁.size)) env₂ = _
    rw [← hLt, ← hRt, ht₃]
    rfl
  · refine Eq.trans (held_congr fun s hs => ?_) hLv
    have hs' := hc s (List.mem_append_left _ hs)
    rw [hval₃ s hs', hw₃ s hs', vals, weights, hkeep s hs]
    exact ⟨rfl, rfl⟩
  · rw [← hs₁.1, ← hd₁]
    refine Eq.trans (held_congr fun s hs => ?_) hRv
    have hs' := hc s (List.mem_append_right _ hs)
    exact ⟨hval₃ s hs', hw₃ s hs'⟩

/-- `merge` concatenates the values of two treaps whose sizes fit. -/
theorem merge_yields {left right : Treap} {vs ws : List ℤ} (hl : left.Stores vs) (hr : right.Stores ws)
    (hsize : left.size + right.size ≤ TREAP_NODES) : Yields (merge left right) (fun t => t.Stores (vs ++ ws)) := by
  obtain ⟨Tl, hLl, hpl, _, _, rfl⟩ := hl
  obtain ⟨Tr, hLr, hpr, _, _, rfl⟩ := hr
  intro env
  apply (merge_links env hLl hpl hLr hpr hsize).mono
  rintro t ⟨L, R, hL, hp, hsize', hheldL, hheldR⟩
  have hlab : (plug (sinkCtx t.weights L R) (leaf ())).labels = L.labels ++ R.labels := by
    simp [labels_plug_sinkCtx]
  refine ⟨_, hL, by rw [hlab]; exact hp, by omega, fun s hs => ?_, ?_⟩
  · rw [hlab, List.mem_append] at hs
    rcases hs with hs | hs
    · obtain ⟨x, hx, he⟩ := exists_held t hs
      rw [hheldL] at hx
      exact he ▸ copied_weights _ _ _ _ x hx
    · obtain ⟨x, hx, he⟩ := exists_held t hs
      rw [hheldR] at hx
      exact he ▸ copied_weights _ _ _ _ x hx
  · rw [hlab, List.map_append, ← held_vals, ← held_vals, hheldL, hheldR, copied_vals, copied_vals]

/-! ### Split -/

/-- The dummy node cuts the tree in two where a search for its value ends. -/
theorem insertControl_spec {t : Treap} {T : SlotTree} (m : ℤ) (hL : t.Linked T) (hp : T.labels.Perm (List.range t.size))
    (hsize : t.size ≤ TREAP_NODES) (hw : ∀ s ∈ T.labels, NegInfinity < t.weights s) (hne : t.root ≠ NullNode) :
    ∃ t', t.insertControl m = .ok t' ∧
      t'.Linked (.node (cut (fun s => m < t.vals s) T).1 TREAP_NODES (cut (fun s => m < t.vals s) T).2) ∧
      ∀ s ∈ T.labels, t'.vals s = t.vals s := by
  have hx := not_mem_of_perm hp hsize
  let n : TreapNode := ⟨m, NegInfinity, NullNode, NullNode, NullNode⟩
  let t₁ := t.put TREAP_NODES n
  have hframe : ∀ s ∈ T.labels, t₁.nodes s = t.nodes s := fun s hs => put_ne _ _ (fun he => hx (he ▸ hs))
  have hnode : t₁.nodes TREAP_NODES = n := put_same _ _ _
  have hval₁ : ∀ s ∈ T.labels, t₁.vals s = t.vals s := fun s hs => congrArg TreapNode.val (hframe s hs)
  have hm : t₁.vals TREAP_NODES = m := congrArg TreapNode.val hnode
  have hL₁ : t₁.Linked T := hL.congr rfl hframe
  obtain ⟨t₂, ht₂, hL₂, hR₂⟩ := bstInsert_spec hL₁ hne (le_refl _) hx (by rw [hnode]) (by rw [hnode])
  obtain ⟨t₃, ht₃, hL₃, hR₃⟩ := moveUp_spec hL₂
  refine ⟨t₃, bind_eq (modify_some t (fun _ => n) (le_refl _)) (bind_eq ht₂ ht₃), ?_, fun s hs => ?_⟩
  · -- the dummy node is lighter than every slot in use
    rw [siftUp_descend t₂.weights _ fun s hs => ?_] at hL₃
    · rw [cut_congr fun s hs => (by rw [hm, hval₁ s hs] : t₁.vals TREAP_NODES < t₁.vals s ↔ m < t.vals s)] at hL₃
      exact hL₃
    · rw [hR₂.weights, weights, hnode, weights, hframe s hs]
      exact hw s hs
  · rw [hR₃.vals, hR₂.vals]
    exact hval₁ s hs

theorem splitSide_yields {w : Treap} {S : SlotTree} {p : TreapIndex} (env : Env) (hS : Spans w.nodes p S)
    (hsize : S.labels.length ≤ TREAP_NODES) :
    ∃ t env', env.Same env' ∧ env'.drawn = env.drawn + S.labels.length ∧
      empty.splitSide w (top S) env = (.ok t, env') ∧ t.Holds (copied w.vals env.draws env.drawn S) := by
  unfold splitSide
  by_cases hne : top S ≠ NullNode
  · rw [if_pos hne]
    obtain ⟨t', env', k, hs, hd, hrun, _, _, hst⟩ := transferInto_spec env hS hne hsize
    exact ⟨_, env', hs, hd, by rw [TreapM.bind_ok hrun]; rfl, hst⟩
  · rw [if_neg hne, top_eq_null (not_not.mp hne)]
    exact ⟨empty, env, .refl env, rfl, rfl, leaf (), ⟨rfl, trivial, by simp⟩, by simp [empty], by simp [empty], rfl⟩

/-- `split` copies the two trees a cut at the median leaves, the left one first. -/
theorem split_links {t : Treap} {T : SlotTree} {m : ℤ} (env : Env) (hL : t.Linked T)
    (hp : T.labels.Perm (List.range t.size)) (hsize : t.size ≤ TREAP_NODES)
    (hw : ∀ s ∈ T.labels, NegInfinity < t.weights s) (hne : t.size ≠ 0) (hm : t.getMedianVal = .ok m) :
    YieldsFrom env t.split (fun r => r.1 = m ∧
      r.2.1.Holds (copied t.vals env.draws env.drawn (cut (fun s => m < t.vals s) T).1) ∧
      r.2.2.Holds (copied t.vals env.draws (env.drawn + (cut (fun s => m < t.vals s) T).1.labels.length)
        (cut (fun s => m < t.vals s) T).2)) := by
  have hlen := hp.length_eq
  rw [List.length_range] at hlen
  have hlab := labels_cut (fun s => m < t.vals s) T
  have hsum := congrArg List.length hlab
  rw [List.length_append] at hsum
  have hroot : t.root ≠ NullNode := fun he => by
    rw [hL.1] at he
    rw [top_eq_null he] at hlen
    exact hne hlen.symm
  obtain ⟨w, hrunw, hlink, hvals⟩ := insertControl_spec m hL hp hsize hw hroot
  obtain ⟨_, _, hwl, hwr, hSL, hSR⟩ := hlink.2.1
  have hget : w.get ControlNode = .ok (w.nodes TREAP_NODES) := get_some w (le_refl TREAP_NODES)
  have hvalsL : ∀ s ∈ (cut (fun s => m < t.vals s) T).1.labels, w.vals s = t.vals s := fun s hs =>
    hvals s (hlab ▸ List.mem_append_left _ hs)
  have hvalsR : ∀ s ∈ (cut (fun s => m < t.vals s) T).2.labels, w.vals s = t.vals s := fun s hs =>
    hvals s (hlab ▸ List.mem_append_right _ hs)
  unfold split
  simp only [if_neg hne]
  apply YieldsFrom.bind_New
  intro env₁ hs₁ hd₁
  apply YieldsFrom.bind_New
  intro env₂ hs₂ hd₂
  obtain ⟨l, env₃, hs₃, hd₃, hrunl, hl⟩ := splitSide_yields env₂ hSL (by omega)
  obtain ⟨r, env₄, hs₄, hd₄, hrunr, hr⟩ := splitSide_yields env₃ hSR (by omega)
  rw [copied_congr _ hvalsL, hs₂.1, hs₁.1, hd₂, hd₁] at hl
  rw [copied_congr _ hvalsR, hs₃.1, hs₂.1, hs₁.1, hd₃, hd₂, hd₁] at hr
  refine ⟨env₄, hs₃.trans hs₄, .inl ⟨(m, l, r), ?_, rfl, hl, hr⟩⟩
  rw [TreapM.bind_lift hm, TreapM.bind_lift hrunw, TreapM.bind_lift hget, hwl, TreapM.bind_ok hrunl,
    TreapM.bind_lift hget, hwr, TreapM.bind_ok hrunr]
  rfl

theorem split_empty {t : Treap} (h : t.size = 0) (env : Env) :
    t.split env = (.error (.exn (.logicError "An empty treap cannot be split")), env) := by
  simp only [split, if_pos h]
  rfl

/-- `split` cuts the values in two; sorted values are cut after the last one not above the median. -/
theorem split_yields {t : Treap} {vs : List ℤ} (h : t.Stores vs) (hne : vs ≠ []) :
    Yields t.split (fun r => ∃ ls rs, vs = ls ++ rs ∧ r.2.1.Stores ls ∧ r.2.2.Stores rs ∧
      (Sorted vs → r.1 = medianOf vs ∧ (∀ v ∈ ls, v ≤ r.1) ∧ ∀ v ∈ rs, r.1 < v)) := by
  have hlen := h.length
  have hpos : t.size ≠ 0 := fun hz => hne (List.length_eq_zero_iff.mp (by omega))
  obtain ⟨m, hm, hmed⟩ := getMedianVal_spec h hne
  obtain ⟨T, hL, hp, hsize, hw, rfl⟩ := h
  have hlab := labels_cut (fun s => m < t.vals s) T
  intro env
  apply (split_links env hL hp hsize hw hpos hm).mono
  rintro ⟨s, l, r⟩ ⟨rfl, hl, hr⟩
  have hl' := hl.stores (copied_weights _ _ _ _)
  have hr' := hr.stores (copied_weights _ _ _ _)
  rw [copied_vals] at hl' hr'
  refine ⟨_, _, by rw [← hlab, List.map_append], hl', hr', fun ho => ⟨hmed ho, ?_⟩⟩
  rw [Sorted, List.pairwise_map] at ho
  obtain ⟨h₁, h₂⟩ := cut_spec (p := fun q => s < t.vals q) (ho.imp fun hxy hlt => lt_of_lt_of_le hlt hxy)
  constructor
  · intro v hv
    obtain ⟨q, hq, rfl⟩ := List.mem_map.mp hv
    exact not_lt.mp (h₁ q hq)
  · intro v hv
    obtain ⟨q, hq, rfl⟩ := List.mem_map.mp hv
    exact h₂ q hq

end Treap

end LockFreeSearchTree
