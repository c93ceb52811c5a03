import Mathlib.Data.List.Basic
import Mathlib.Data.List.Induction
import Mathlib.Data.List.Nodup
import Mathlib.Order.Lattice
import Mathlib.Tactic.SplitIfs

/-! # Binary trees with one hole

Binary trees with a label at every inner node and another at every leaf, and the one-hole
contexts of such trees.

* **Sides.** A direction (`Side`) is a value, so that an operation and its mirror image are
  one definition: `on d a b c` is the node labelled `b` with `a` on side `d` and `c` on the
  other.
* **Walks.** `walk f g` lists a tree in order, `f` at the leaves and `g` at the inner nodes;
  `labels` and `leaves` are its two projections.
* **Searches.** `seek p t` is the leaf a search ends in that goes left exactly at the labels
  satisfying `p`, and `descend p t C` its context (`plug_descend`).
* **Relabelling.** `relabel f` keeps the shape and replaces every label.
* **Contexts.** A context (`Ctx`) is the list of frames from the hole to the root, innermost
  first; `plug` fills the hole.  A walk of a filled context is the walk before the hole, the
  walk of the filling and the walk after the hole (`walk_plug`), so whatever keeps the walk
  of a subtree keeps the walk of the tree. -/

namespace BinTree

/-- One of the two children of a node. -/
inductive Side where
  | left
  | right
deriving DecidableEq, Repr

/-- The opposite side. -/
def Side.other : Side → Side
  | left => right
  | right => left

@[simp] theorem Side.other_other (d : Side) : d.other.other = d := by cases d <;> rfl

@[simp] theorem Side.other_ne (d : Side) : d.other ≠ d := by cases d <;> simp [Side.other]

end BinTree

/-- Binary trees with leaves labelled in `α` and inner nodes labelled in `β`. -/
inductive BinTree (α β : Type) where
  | leaf (a : α)
  | node (l : BinTree α β) (b : β) (r : BinTree α β)
deriving DecidableEq, Repr

namespace BinTree

variable {α β γ : Type}

/-- The node labelled `b` with `s` on side `d` and `t` on the other side. -/
def on : Side → BinTree α β → β → BinTree α β → BinTree α β
  | .left, s, b, t => node s b t
  | .right, s, b, t => node t b s

@[simp] theorem on_left (s : BinTree α β) (b : β) (t : BinTree α β) : on .left s b t = node s b t := rfl

@[simp] theorem on_right (s : BinTree α β) (b : β) (t : BinTree α β) : on .right s b t = node t b s := rfl

theorem on_other (d : Side) (s : BinTree α β) (b : β) (t : BinTree α β) : on d.other s b t = on d t b s := by
  cases d <;> rfl

/-! ### Walks -/

/-- The in-order list of a tree, reading `f` at the leaves and `g` at the inner nodes. -/
def walk (f : α → List γ) (g : β → List γ) : BinTree α β → List γ
  | leaf a => f a
  | node l b r => walk f g l ++ g b ++ walk f g r

/-- The labels of the inner nodes, in order. -/
def labels (t : BinTree α β) : List β := t.walk (fun _ => []) (fun b => [b])

/-- The labels of the leaves, from left to right. -/
def leaves (t : BinTree α β) : List α := t.walk (fun a => [a]) (fun _ => [])

@[simp] theorem walk_leaf (f : α → List γ) (g : β → List γ) (a : α) : (leaf a).walk f g = f a := rfl

@[simp] theorem walk_node (f : α → List γ) (g : β → List γ) (l : BinTree α β) (b : β) (r : BinTree α β) :
    (node l b r).walk f g = l.walk f g ++ g b ++ r.walk f g := rfl

@[simp] theorem labels_leaf (a : α) : (leaf a : BinTree α β).labels = [] := rfl

@[simp] theorem labels_node (l : BinTree α β) (b : β) (r : BinTree α β) :
    (node l b r).labels = l.labels ++ b :: r.labels := by
  simp [labels]

@[simp] theorem leaves_leaf (a : α) : (leaf a : BinTree α β).leaves = [a] := rfl

@[simp] theorem leaves_node (l : BinTree α β) (b : β) (r : BinTree α β) :
    (node l b r).leaves = l.leaves ++ r.leaves := by
  simp [leaves]

theorem mem_labels_on {d : Side} {s t : BinTree α β} {b x : β} :
    x ∈ (on d s b t).labels ↔ x = b ∨ x ∈ s.labels ∨ x ∈ t.labels := by
  cases d <;> simp [on] <;> tauto

theorem mem_leaves_on {d : Side} {s t : BinTree α β} {b : β} {x : α} :
    x ∈ (on d s b t).leaves ↔ x ∈ s.leaves ∨ x ∈ t.leaves := by
  cases d <;> simp [on, or_comm]

theorem nodup_labels_on {d : Side} {s t : BinTree α β} {b : β} :
    (on d s b t).labels.Nodup ↔
      s.labels.Nodup ∧ t.labels.Nodup ∧ b ∉ s.labels ∧ b ∉ t.labels ∧ s.labels.Disjoint t.labels := by
  cases d <;> simp only [on, labels_node, List.nodup_append', List.nodup_cons, List.disjoint_cons_right]
  · tauto
  · rw [List.disjoint_comm]; tauto

/-! ### Contexts -/

/-- One step from a hole towards the root: the side the hole is on, the label of its parent
and the sibling. -/
structure Frame (α β : Type) where
  side : Side
  label : β
  sibling : BinTree α β

/-- The path from a hole to the root, innermost frame first. -/
abbrev Ctx (α β : Type) := List (Frame α β)

/-- Fill the hole of a context. -/
def plug : Ctx α β → BinTree α β → BinTree α β
  | [], t => t
  | F :: C, t => plug C (on F.side t F.label F.sibling)

@[simp] theorem plug_nil (t : BinTree α β) : plug [] t = t := rfl

@[simp] theorem plug_cons (F : Frame α β) (C : Ctx α β) (t : BinTree α β) :
    plug (F :: C) t = plug C (on F.side t F.label F.sibling) := rfl

theorem plug_append (C D : Ctx α β) (t : BinTree α β) : plug (C ++ D) t = plug D (plug C t) := by
  induction C generalizing t with
  | nil => rfl
  | cons F C ih => exact ih _

/-- What a walk reads before the hole. -/
def walkBefore (f : α → List γ) (g : β → List γ) : Ctx α β → List γ
  | [] => []
  | ⟨.left, _, _⟩ :: C => walkBefore f g C
  | ⟨.right, b, s⟩ :: C => walkBefore f g C ++ (s.walk f g ++ g b)

/-- What a walk reads after the hole. -/
def walkAfter (f : α → List γ) (g : β → List γ) : Ctx α β → List γ
  | [] => []
  | ⟨.left, b, s⟩ :: C => g b ++ s.walk f g ++ walkAfter f g C
  | ⟨.right, _, _⟩ :: C => walkAfter f g C

theorem walk_plug (f : α → List γ) (g : β → List γ) (C : Ctx α β) (t : BinTree α β) :
    (plug C t).walk f g = walkBefore f g C ++ t.walk f g ++ walkAfter f g C := by
  induction C generalizing t with
  | nil => simp [walkBefore, walkAfter]
  | cons F C ih =>
      obtain ⟨d, b, s⟩ := F
      cases d <;> simp [ih, walkBefore, walkAfter]

/-- The labels of a filled context around the root of its filling. -/
theorem labels_plug_node (C : Ctx α β) (l r : BinTree α β) :
    ∃ as bs, ∀ b, (plug C (node l b r)).labels = as ++ b :: bs :=
  ⟨walkBefore (fun _ => []) (fun b => [b]) C ++ l.labels, r.labels ++ walkAfter (fun _ => []) (fun b => [b]) C,
    fun b => by simp [labels, walk_plug]⟩

/-- Fillings with the same walk give trees with the same walk. -/
theorem walk_plug_congr {f : α → List γ} {g : β → List γ} {s t : BinTree α β} (C : Ctx α β)
    (h : s.walk f g = t.walk f g) : (plug C s).walk f g = (plug C t).walk f g := by
  rw [walk_plug, walk_plug, h]

/-- What a walk reads around the hole. -/
def ctxWalk (f : α → List γ) (g : β → List γ) (C : Ctx α β) : List γ := walkBefore f g C ++ walkAfter f g C

@[simp] theorem ctxWalk_nil (f : α → List γ) (g : β → List γ) : ctxWalk f g [] = [] := rfl

theorem walk_plug_perm (f : α → List γ) (g : β → List γ) (C : Ctx α β) (t : BinTree α β) :
    ((plug C t).walk f g).Perm (t.walk f g ++ ctxWalk f g C) := by
  rw [walk_plug, ctxWalk, List.append_assoc]
  refine List.perm_append_comm.trans ?_
  rw [List.append_assoc]
  exact List.Perm.append_left _ List.perm_append_comm

theorem ctxWalk_cons_perm (f : α → List γ) (g : β → List γ) (F : Frame α β) (C : Ctx α β) :
    (ctxWalk f g (F :: C)).Perm (g F.label ++ (F.sibling.walk f g ++ ctxWalk f g C)) := by
  obtain ⟨d, b, s⟩ := F
  cases d with
  | left =>
      simp only [ctxWalk, walkBefore, walkAfter, List.append_assoc]
      refine (List.perm_append_comm_assoc _ _ _).trans (List.Perm.append_left _ ?_)
      exact List.perm_append_comm_assoc _ _ _
  | right =>
      simp only [ctxWalk, walkBefore, walkAfter, List.append_assoc]
      refine (List.Perm.append_left _ (List.perm_append_comm_assoc _ _ _)).trans ?_
      refine (List.perm_append_comm_assoc _ _ _).trans (List.Perm.append_left _ ?_)
      exact List.perm_append_comm_assoc _ _ _

theorem mem_walk_on {f : α → List γ} {g : β → List γ} {d : Side} {s t : BinTree α β} {b : β} {x : γ} :
    x ∈ (on d s b t).walk f g ↔ x ∈ g b ∨ x ∈ s.walk f g ∨ x ∈ t.walk f g := by
  cases d <;> simp [on] <;> tauto

theorem mem_walk_plug {f : α → List γ} {g : β → List γ} {C : Ctx α β} {t : BinTree α β} {x : γ} :
    x ∈ (plug C t).walk f g ↔ x ∈ t.walk f g ∨ x ∈ ctxWalk f g C := by
  rw [(walk_plug_perm f g C t).mem_iff, List.mem_append]

theorem mem_ctxWalk_cons {f : α → List γ} {g : β → List γ} {F : Frame α β} {C : Ctx α β} {x : γ} :
    x ∈ ctxWalk f g (F :: C) ↔ x ∈ g F.label ∨ x ∈ F.sibling.walk f g ∨ x ∈ ctxWalk f g C := by
  rw [(ctxWalk_cons_perm f g F C).mem_iff, List.mem_append, List.mem_append]

theorem nodup_walk_plug {f : α → List γ} {g : β → List γ} {C : Ctx α β} {t : BinTree α β} :
    ((plug C t).walk f g).Nodup ↔
      (t.walk f g).Nodup ∧ (ctxWalk f g C).Nodup ∧ (t.walk f g).Disjoint (ctxWalk f g C) := by
  rw [(walk_plug_perm f g C t).nodup_iff, List.nodup_append']

/-- The leaves before the hole. -/
def leavesBefore (C : Ctx α β) : List α := walkBefore (fun a => [a]) (fun _ => []) C

/-- The leaves after the hole. -/
def leavesAfter (C : Ctx α β) : List α := walkAfter (fun a => [a]) (fun _ => []) C

theorem leaves_plug (C : Ctx α β) (t : BinTree α β) :
    (plug C t).leaves = leavesBefore C ++ t.leaves ++ leavesAfter C := walk_plug _ _ C t

@[simp] theorem leavesBefore_nil : leavesBefore ([] : Ctx α β) = [] := rfl

@[simp] theorem leavesBefore_left (b : β) (s : BinTree α β) (C : Ctx α β) :
    leavesBefore (⟨.left, b, s⟩ :: C) = leavesBefore C := rfl

@[simp] theorem leavesBefore_right (b : β) (s : BinTree α β) (C : Ctx α β) :
    leavesBefore (⟨.right, b, s⟩ :: C) = leavesBefore C ++ s.leaves := by
  simp [leavesBefore, walkBefore, leaves]

@[simp] theorem leavesAfter_nil : leavesAfter ([] : Ctx α β) = [] := rfl

@[simp] theorem leavesAfter_left (b : β) (s : BinTree α β) (C : Ctx α β) :
    leavesAfter (⟨.left, b, s⟩ :: C) = s.leaves ++ leavesAfter C := by
  simp [leavesAfter, walkAfter, leaves]

@[simp] theorem leavesAfter_right (b : β) (s : BinTree α β) (C : Ctx α β) :
    leavesAfter (⟨.right, b, s⟩ :: C) = leavesAfter C := rfl

/-- The labels of the frames of a context and of their siblings. -/
def ctxLabels (C : Ctx α β) : List β := ctxWalk (fun _ => []) (fun b => [b]) C

/-- The leaves of the siblings of a context. -/
def ctxLeaves (C : Ctx α β) : List α := ctxWalk (fun a => [a]) (fun _ => []) C

theorem labels_plug_perm (C : Ctx α β) (t : BinTree α β) : (plug C t).labels.Perm (t.labels ++ ctxLabels C) :=
  walk_plug_perm _ _ C t

theorem leaves_plug_perm (C : Ctx α β) (t : BinTree α β) : (plug C t).leaves.Perm (t.leaves ++ ctxLeaves C) :=
  walk_plug_perm _ _ C t

theorem mem_labels_plug {C : Ctx α β} {t : BinTree α β} {x : β} :
    x ∈ (plug C t).labels ↔ x ∈ t.labels ∨ x ∈ ctxLabels C := mem_walk_plug

theorem mem_leaves_plug {C : Ctx α β} {t : BinTree α β} {x : α} :
    x ∈ (plug C t).leaves ↔ x ∈ t.leaves ∨ x ∈ ctxLeaves C := mem_walk_plug

theorem nodup_labels_plug {C : Ctx α β} {t : BinTree α β} :
    (plug C t).labels.Nodup ↔ t.labels.Nodup ∧ (ctxLabels C).Nodup ∧ t.labels.Disjoint (ctxLabels C) :=
  nodup_walk_plug

@[simp] theorem ctxLabels_nil : ctxLabels ([] : Ctx α β) = [] := rfl

theorem ctxLabels_cons_perm (F : Frame α β) (C : Ctx α β) :
    (ctxLabels (F :: C)).Perm (F.label :: (F.sibling.labels ++ ctxLabels C)) := ctxWalk_cons_perm _ _ F C

theorem mem_ctxLabels_cons {F : Frame α β} {C : Ctx α β} {x : β} :
    x ∈ ctxLabels (F :: C) ↔ x = F.label ∨ x ∈ F.sibling.labels ∨ x ∈ ctxLabels C := by
  rw [(ctxLabels_cons_perm F C).mem_iff, List.mem_cons, List.mem_append]

theorem label_mem_ctxLabels {C : Ctx α β} {F : Frame α β} (h : F ∈ C) : F.label ∈ ctxLabels C := by
  induction C with
  | nil => cases h
  | cons G C ih =>
      rw [mem_ctxLabels_cons]
      cases h with
      | head => exact .inl rfl
      | tail _ h => exact .inr (.inr (ih h))

theorem mem_ctxLeaves_cons {F : Frame α β} {C : Ctx α β} {x : α} :
    x ∈ ctxLeaves (F :: C) ↔ x ∈ F.sibling.leaves ∨ x ∈ ctxLeaves C := by
  rw [ctxLeaves, mem_ctxWalk_cons]
  exact or_iff_right (by simp)

/-- A label of a tree is the root of the filling of some context. -/
theorem exists_plug_of_mem_labels {x : β} :
    ∀ {t : BinTree α β}, x ∈ t.labels → ∃ C l r, t = plug C (node l x r)
  | leaf a, h => by simp at h
  | node l b r, h => by
      simp only [labels_node, List.mem_append, List.mem_cons] at h
      rcases h with h | rfl | h
      · obtain ⟨C, l', r', rfl⟩ := exists_plug_of_mem_labels h
        exact ⟨C ++ [⟨.left, b, r⟩], l', r', by simp [plug_append]⟩
      · exact ⟨[], l, r, rfl⟩
      · obtain ⟨C, l', r', rfl⟩ := exists_plug_of_mem_labels h
        exact ⟨C ++ [⟨.right, b, l⟩], l', r', by simp [plug_append]⟩

/-- A leaf of a tree is the filling of some context. -/
theorem exists_plug_of_mem_leaves {x : α} :
    ∀ {t : BinTree α β}, x ∈ t.leaves → ∃ C, t = plug C (leaf x)
  | leaf a, h => by
      simp only [leaves_leaf, List.mem_singleton] at h
      exact ⟨[], by rw [h]; rfl⟩
  | node l b r, h => by
      simp only [leaves_node, List.mem_append] at h
      rcases h with h | h
      · obtain ⟨C, rfl⟩ := exists_plug_of_mem_leaves h
        exact ⟨C ++ [⟨.left, b, r⟩], by simp [plug_append]⟩
      · obtain ⟨C, rfl⟩ := exists_plug_of_mem_leaves h
        exact ⟨C ++ [⟨.right, b, l⟩], by simp [plug_append]⟩

/-! ### Relabelling -/

/-- The tree with every label replaced. -/
def relabel (f : β → γ) : BinTree α β → BinTree α γ
  | leaf a => leaf a
  | node l b r => node (l.relabel f) (f b) (r.relabel f)

@[simp] theorem relabel_leaf (f : β → γ) (a : α) : (leaf a : BinTree α β).relabel f = leaf a := rfl

@[simp] theorem relabel_node (f : β → γ) (l : BinTree α β) (b : β) (r : BinTree α β) :
    (node l b r).relabel f = node (l.relabel f) (f b) (r.relabel f) := rfl

theorem relabel_on (f : β → γ) (d : Side) (l : BinTree α β) (b : β) (r : BinTree α β) :
    (on d l b r).relabel f = on d (l.relabel f) (f b) (r.relabel f) := by
  cases d <;> rfl

@[simp] theorem labels_relabel (f : β → γ) (t : BinTree α β) : (t.relabel f).labels = t.labels.map f := by
  induction t with
  | leaf a => rfl
  | node l b r ihl ihr => simp [ihl, ihr]

theorem relabel_congr {f g : β → γ} {t : BinTree α β} (h : ∀ x ∈ t.labels, f x = g x) :
    t.relabel f = t.relabel g := by
  induction t with
  | leaf a => rfl
  | node l b r ihl ihr =>
      rw [relabel_node, relabel_node, h b (by simp), ihl (fun x hx => h x (by simp [hx])),
        ihr (fun x hx => h x (by simp [hx]))]

theorem relabel_relabel {δ : Type} (f : β → γ) (g : γ → δ) (t : BinTree α β) :
    (t.relabel f).relabel g = t.relabel (fun b => g (f b)) := by
  induction t with
  | leaf a => rfl
  | node l b r ihl ihr => simp [ihl, ihr]

/-- Relabelling around a hole. -/
theorem relabel_plug_congr {f g : β → γ} {C : Ctx α β} {s t : BinTree α β} (h : ∀ x ∈ ctxLabels C, f x = g x)
    (hst : s.relabel f = t.relabel g) : (plug C s).relabel f = (plug C t).relabel g := by
  induction C generalizing s t with
  | nil => exact hst
  | cons F C ih =>
      rw [plug_cons, plug_cons]
      apply ih
      · exact fun x hx => h x (mem_ctxLabels_cons.mpr (.inr (.inr hx)))
      · rw [relabel_on, relabel_on, hst, h _ (mem_ctxLabels_cons.mpr (.inl rfl)),
          relabel_congr fun x hx => h x (mem_ctxLabels_cons.mpr (.inr (.inl hx)))]

/-- Where a label occurs once, it has one context. -/
theorem plug_node_inj {C C' : Ctx α β} {l r l' r' : BinTree α β} {b : β}
    (h : plug C (node l b r) = plug C' (node l' b r')) (hn : (plug C (node l b r)).labels.Nodup) :
    C = C' ∧ l = l' ∧ r = r' := by
  induction C using List.reverseRecOn generalizing C' with
  | nil =>
      induction C' using List.reverseRecOn with
      | nil =>
          cases h
          exact ⟨rfl, rfl, rfl⟩
      | append_singleton C' F' _ =>
          obtain ⟨d, c, s⟩ := F'
          have hb : b ∈ (plug C' (node l' b r')).labels := mem_labels_plug.mpr (.inl (by simp))
          rw [plug_append, plug_cons, plug_nil, plug_nil] at h
          rw [plug_nil, h] at hn
          cases d <;> cases h <;> simp [List.nodup_append', hb] at hn
  | append_singleton C F ih =>
      obtain ⟨d, c, s⟩ := F
      have hb : b ∈ (plug C (node l b r)).labels := mem_labels_plug.mpr (.inl (by simp))
      rw [plug_append, plug_cons, plug_nil] at h hn
      induction C' using List.reverseRecOn with
      | nil =>
          rw [plug_nil] at h
          cases d <;> cases h <;> simp [List.nodup_append', hb] at hn
      | append_singleton C' F' _ =>
          obtain ⟨d', c', s'⟩ := F'
          have hb' : b ∈ (plug C' (node l' b r')).labels := mem_labels_plug.mpr (.inl (by simp))
          rw [plug_append, plug_cons, plug_nil] at h
          rw [nodup_labels_on] at hn
          cases d <;> cases d' <;> simp only [on, node.injEq] at h
          · obtain ⟨rfl, rfl, rfl⟩ := ih h.1 hn.1
            exact ⟨by rw [h.2.1, h.2.2], rfl, rfl⟩
          · rw [h.2.2] at hn
            exact absurd hb' (fun hb' => hn.2.2.2.2 hb hb')
          · rw [h.1] at hn
            exact absurd hb' (fun hb' => hn.2.2.2.2 hb hb')
          · obtain ⟨rfl, rfl, rfl⟩ := ih h.2.2 hn.1
            exact ⟨by rw [h.2.1, h.1], rfl, rfl⟩

/-! ### Searches -/

section Seek

variable (p : β → Prop) [DecidablePred p]

/-- The leaf reached by going left exactly at the labels satisfying `p`. -/
def seek : BinTree α β → α
  | leaf a => a
  | node l b r => if p b then seek l else seek r

/-- The context of the leaf reached from `t` by going left exactly at the labels satisfying `p`;
`C` is the context of `t`. -/
def descend : BinTree α β → Ctx α β → Ctx α β
  | leaf _, C => C
  | node l b r, C => if p b then descend l (⟨.left, b, r⟩ :: C) else descend r (⟨.right, b, l⟩ :: C)

theorem plug_descend (t : BinTree α β) (C : Ctx α β) : plug (descend p t C) (leaf (seek p t)) = plug C t := by
  induction t generalizing C with
  | leaf u => rfl
  | node l b r ihl ihr =>
      unfold descend seek
      split_ifs
      · exact ihl _
      · exact ihr _

/-- The search comes to the hole of `C`. -/
def Follows (C : Ctx α β) : Prop := ∀ F ∈ C, F.side = .left ↔ p F.label

variable {p}

theorem Follows.seek_plug {C : Ctx α β} (h : Follows p C) (t : BinTree α β) : seek p (plug C t) = seek p t := by
  induction C generalizing t with
  | nil => rfl
  | cons F C ih =>
      obtain ⟨d, b, s⟩ := F
      rw [plug_cons, ih (fun G hG => h G (List.mem_cons_of_mem _ hG))]
      have hF := h _ List.mem_cons_self
      cases d with
      | left => exact if_pos (hF.mp rfl)
      | right => exact if_neg (fun hp => by cases hF.mpr hp)

theorem follows_descend {t : BinTree α β} {C : Ctx α β} (h : Follows p C) : Follows p (descend p t C) := by
  induction t generalizing C with
  | leaf a => exact h
  | node l b r ihl ihr =>
      unfold descend
      split_ifs with hp
      · exact ihl (List.forall_mem_cons.mpr ⟨⟨fun _ => hp, fun _ => rfl⟩, h⟩)
      · exact ihr (List.forall_mem_cons.mpr ⟨⟨(fun he => by cases he), fun hb => absurd hb hp⟩, h⟩)

variable (p)

theorem side_of_mem_descend {q : Prop} [Decidable q] {d : Side} (h : q ↔ d = .left) {t : BinTree α β} {C : Ctx α β}
    {F : Frame α β} (hF : F ∈ descend (fun _ => q) t C) : F.side = d ∨ F ∈ C := by
  induction t generalizing C with
  | leaf a => exact .inr hF
  | node l b r ihl ihr =>
      unfold descend at hF
      split_ifs at hF with hq
      · refine (ihl hF).elim .inl (fun hF => (List.mem_cons.mp hF).elim (fun he => .inl ?_) .inr)
        rw [he, h.mp hq]
      · refine (ihr hF).elim .inl (fun hF => (List.mem_cons.mp hF).elim (fun he => .inl ?_) .inr)
        rw [he]
        cases d
        · exact absurd (h.mpr rfl) hq
        · rfl

/-- The leftmost leaf has nothing before it. -/
theorem leavesBefore_leftmost (t : BinTree α β) (C : Ctx α β) :
    leavesBefore (descend (fun _ => True) t C) = leavesBefore C := by
  induction t generalizing C with
  | leaf a => rfl
  | node l b r ihl _ =>
      unfold descend
      rw [if_pos trivial, ihl, leavesBefore_left]

theorem seek_mem (t : BinTree α β) : seek p t ∈ t.leaves := by
  induction t with
  | leaf a => simp [seek]
  | node l b r ihl ihr =>
      rw [leaves_node, List.mem_append, seek]
      split_ifs
      · exact .inl ihl
      · exact .inr ihr

end Seek

/-- The number of inner nodes on the longest path. -/
def height : BinTree α β → ℕ
  | leaf _ => 0
  | node l _ r => max l.height r.height + 1

theorem height_on (d : Side) (l : BinTree α β) (b : β) (r : BinTree α β) :
    (on d l b r).height = max l.height r.height + 1 := by
  cases d
  · rfl
  · rw [max_comm]; rfl

theorem height_plug_congr {t u : BinTree α β} (C : Ctx α β) (h : t.height = u.height) :
    (plug C t).height = (plug C u).height := by
  induction C generalizing t u with
  | nil => exact h
  | cons F C ih => exact ih (by rw [height_on, height_on, h])

theorem height_plug_le {t u : BinTree α β} {k : ℕ} (C : Ctx α β) (h : t.height ≤ u.height + k) :
    (plug C t).height ≤ (plug C u).height + k := by
  induction C generalizing t u with
  | nil => exact h
  | cons F C ih => exact ih (by rw [height_on, height_on]; omega)

theorem height_le_plug (C : Ctx α β) (t : BinTree α β) : t.height ≤ (plug C t).height := by
  induction C generalizing t with
  | nil => exact le_rfl
  | cons F C ih => exact le_trans (by rw [height_on]; omega) (ih _)

end BinTree
