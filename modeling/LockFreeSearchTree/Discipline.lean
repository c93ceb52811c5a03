import LockFreeSearchTree.Interleaving

/-! # Operations under guards

The proof method of `RelyGuarantee.lean` says nothing about operations that fail.  This one is
about them.  A `Discipline` has two parts: what is known of every state, of every step and of every
operation that is performed, because it has been proved before of all runs of the same system; and
what is to be proved, an invariant of the shared state, a preorder along which all steps move it, a
guard for every operation and the failures that are allowed.

* `Follows exec D p post s`: whatever steps other threads take along the preorder in between, the
  program `p` performs operations only where their guards hold, keeps the invariant and the preorder,
  fails only in an allowed way, and what it returns satisfies `post`.  What is known may be used.
* What is known of a state and holds of all later ones needs no rule: `Follows.bind` hands on that
  the state of the second program is later than that of the first.
* `Discipline.run`: if every call follows the discipline, then so do all threads of every run. -/

namespace Concurrent

variable {Op : Type} {Ret : Op → Type} {ε σ C R : Type}

structure Discipline (Op σ ε : Type) where
  /-- What is known of every state. -/
  known : σ → Prop := fun _ => True
  /-- What is known of every step. -/
  moves : σ → σ → Prop := fun _ _ => True
  /-- What is known of every operation where it is performed. -/
  ready : Op → σ → Prop := fun _ _ => True
  /-- What is to hold of every state. -/
  inv : σ → Prop
  /-- How a state is to develop. -/
  le : σ → σ → Prop
  le_refl : ∀ s, le s s
  le_trans : ∀ {s s' s''}, le s s' → le s' s'' → le s s''
  /-- Where an operation may be performed. -/
  guard : Op → σ → Prop := fun _ _ => True
  /-- The failures that are allowed. -/
  fault : ε → Prop

variable (exec : (o : Op) → σ → Except ε (Ret o × σ)) (D : Discipline Op σ ε)

/-- What is known of a state, and what is to be proved of it. -/
structure Discipline.Good (s : σ) : Prop where
  known : D.known s
  inv : D.inv s

/-- An operation that is performed where its guard holds. -/
structure Discipline.Admits (o : Op) (post : Ret o → σ → Prop) (s : σ) : Prop where
  guard : D.guard o s
  fault : ∀ e, exec o s = .error e → D.fault e
  step : ∀ r s', exec o s = .ok (r, s') → D.known s' → D.moves s s' → D.inv s' ∧ D.le s s' ∧ post r s'

/-- The program keeps the discipline, and its result satisfies `post`. -/
def Follows {α : Type} : Prog Op Ret ε α → (α → σ → Prop) → σ → Prop
  | .ret a, post, s => ∀ s', D.le s s' → D.Good s' → post a s'
  | .raise e, _, _ => D.fault e
  | .op o k, post, s => ∀ s', D.le s s' → D.Good s' → D.ready o s' → D.Admits exec o (fun r => Follows (k r) post) s'

namespace Follows

variable {exec D} {α β : Type} {p : Prog Op Ret ε α} {post : α → σ → Prop} {s s' : σ}

theorem later (h : Follows exec D p post s) (hle : D.le s s') : Follows exec D p post s' := by
  cases p with
  | ret a => exact fun s'' hle' => h s'' (D.le_trans hle hle')
  | raise e => exact h
  | op o k => exact fun s'' hle' => h s'' (D.le_trans hle hle')

theorem bind {f : α → Prog Op Ret ε β} {mid : α → σ → Prop} {post : β → σ → Prop} (hs : D.Good s)
    (h : Follows exec D p mid s) (hf : ∀ a s', D.Good s' → D.le s s' → mid a s' → Follows exec D (f a) post s') :
    Follows exec D (p >>= f) post s := by
  induction p generalizing s with
  | ret a => exact hf a s hs (D.le_refl s) (h s (D.le_refl s) hs)
  | raise e => exact h
  | op o k ih =>
      intro s' hle hs' hready
      obtain ⟨hguard, hfault, hstep⟩ := h s' hle hs' hready
      refine ⟨hguard, hfault, fun r s'' hexec hknown hmoves => ?_⟩
      obtain ⟨hs'', hle', hk⟩ := hstep r s'' hexec hknown hmoves
      refine ⟨hs'', hle', ih r ⟨hknown, hs''⟩ hk fun a s₃ hs₃ hle₃ => ?_⟩
      exact hf a s₃ hs₃ (D.le_trans (D.le_trans hle hle') hle₃)

theorem mono {post' : α → σ → Prop} (h : Follows exec D p post s)
    (hpost : ∀ a s', D.le s s' → D.Good s' → post a s' → post' a s') : Follows exec D p post' s := by
  induction p generalizing s with
  | ret a => exact fun s' hle hs' => hpost a s' hle hs' (h s' hle hs')
  | raise e => exact h
  | op o k ih =>
      intro s' hle hs' hready
      obtain ⟨hguard, hfault, hstep⟩ := h s' hle hs' hready
      refine ⟨hguard, hfault, fun r s'' hexec hknown hmoves => ?_⟩
      obtain ⟨hs'', hle', hk⟩ := hstep r s'' hexec hknown hmoves
      exact ⟨hs'', hle', ih r hk fun a s₃ hle₃ => hpost a s₃ (D.le_trans (D.le_trans hle hle') hle₃)⟩

theorem pure {a : α} (h : ∀ s', D.le s s' → D.Good s' → post a s') :
    Follows exec D (Pure.pure a : Prog Op Ret ε α) post s := h

theorem raise {e : ε} (h : D.fault e) : Follows exec D (.raise e : Prog Op Ret ε α) post s := h

/-- One operation; what it establishes holds of all later states. -/
theorem perform {o : Op} {post : Ret o → σ → Prop} (h : ∀ s', D.le s s' → D.Good s' → D.ready o s' →
      D.Admits exec o (fun r s'' => ∀ s₃, D.le s'' s₃ → D.Good s₃ → post r s₃) s') :
    Follows exec D (Prog.perform o : Prog Op Ret ε (Ret o)) post s := h

theorem ite {c : Prop} [Decidable c] {q : Prog Op Ret ε α} (hp : c → Follows exec D p post s)
    (hq : ¬ c → Follows exec D q post s) : Follows exec D (if c then p else q) post s := by
  split_ifs with hc
  · exact hp hc
  · exact hq hc

end Follows

/-- The program keeps the discipline from every state, whatever it returns. -/
def Behaves {α : Type} (p : Prog Op Ret ε α) : Prop := ∀ s, D.Good s → Follows exec D p (fun _ _ => True) s

namespace Behaves

variable {exec D} {α β : Type} {p : Prog Op Ret ε α}

theorem pure {a : α} : Behaves exec D (Pure.pure a : Prog Op Ret ε α) := fun _ _ _ _ _ => trivial

theorem raise {e : ε} (h : D.fault e) : Behaves exec D (.raise e : Prog Op Ret ε α) := fun _ _ => h

theorem bind {f : α → Prog Op Ret ε β} (h : Behaves exec D p) (hf : ∀ a, Behaves exec D (f a)) :
    Behaves exec D (p >>= f) :=
  fun s hs => (h s hs).bind hs fun a s' hs' _ _ => hf a s' hs'

theorem ite {c : Prop} [Decidable c] {q : Prog Op Ret ε α} (hp : c → Behaves exec D p) (hq : ¬ c → Behaves exec D q) :
    Behaves exec D (if c then p else q) :=
  fun s hs => .ite (fun hc => hp hc s hs) fun hc => hq hc s hs

end Behaves

/-- All threads of a run keep a discipline that all calls keep. -/
theorem Discipline.run {exec : (o : Op) → σ → Except ε (Ret o × σ)} {D : Discipline Op σ ε} {body : C → Prog Op Ret ε R}
    (Next : Config Op Ret ε σ C R → Event Op C R → Config Op Ret ε σ C R → Prop) (pre : C → σ → Prop)
    (hnext : ∀ {cfg e cfg'}, Next cfg e cfg' → Step exec body cfg e cfg' ∧ ∀ t c, e = .invoke t c → pre c cfg.shared)
    (hbody : ∀ c s, D.Good s → pre c s → Follows exec D (body c) (fun _ _ => True) s) {s : σ}
    (hknown : ∀ {ls cfg}, Transition.Run Next (.idle s) ls cfg → D.known cfg.shared ∧
      ∀ t c o k, cfg.threads t = some (c, .op o k) → D.ready o cfg.shared)
    (hmoves : ∀ {ls cfg e cfg'}, Transition.Run Next (.idle s) ls cfg → Next cfg e cfg' → D.moves cfg.shared cfg'.shared)
    (hs : D.inv s) {ls : List (Event Op C R)} {cfg : Config Op Ret ε σ C R} (h : Transition.Run Next (.idle s) ls cfg) :
    D.Good cfg.shared ∧ ∀ t c p, cfg.threads t = some (c, p) → Follows exec D p (fun _ _ => True) cfg.shared := by
  induction h with
  | nil => exact ⟨⟨(hknown .nil).1, hs⟩, fun t c p ht => by cases ht⟩
  | @snoc ls cfg cfg' e hrun hlast ih =>
      obtain ⟨hgood, hthreads⟩ := ih
      have hknown' := (hknown (hrun.snoc hlast)).1
      have hmove := hmoves hrun hlast
      -- one thread goes on, the others see a later state
      have hset : ∀ {t : ℕ} {q : Option (C × Prog Op Ret ε R)} {s' : σ}, D.known s' → D.inv s' → D.le cfg.shared s' →
          (∀ c p, q = some (c, p) → Follows exec D p (fun _ _ => True) s') → D.Good (cfg.set t q s').shared ∧
          ∀ u c p, (cfg.set t q s').threads u = some (c, p) → Follows exec D p (fun _ _ => True) s' := by
        intro t q s' hk hs' hle hq
        refine ⟨⟨hk, hs'⟩, fun u c p hu => ?_⟩
        by_cases hut : u = t
        · rw [hut, Config.threads_set_self] at hu
          exact hq c p hu
        · rw [Config.threads_set_ne _ _ _ hut] at hu
          exact (hthreads u c p hu).later hle
      obtain ⟨hstep, hpre⟩ := hnext hlast
      cases hstep with
      | @invoke t c hidle =>
          apply hset hknown' hgood.inv (D.le_refl _)
          intro c' p hp
          cases hp
          exact hbody c _ hgood (hpre t c rfl)
      | @access t c o k r s' hop hexec =>
          have hready := (hknown hrun).2 t c o k hop
          obtain ⟨hs', hle, hk⟩ := (hthreads t _ _ hop _ (D.le_refl _) hgood hready).step r s' hexec hknown' hmove
          apply hset hknown' hs' hle
          intro c' p hp
          cases hp
          exact hk
      | @fault t c o k e hop hexec =>
          have hready := (hknown hrun).2 t c o k hop
          apply hset hknown' hgood.inv (D.le_refl _)
          intro c' p hp
          cases hp
          exact (hthreads t _ _ hop _ (D.le_refl _) hgood hready).fault e hexec
      | @respond t c r hret =>
          apply hset hknown' hgood.inv (D.le_refl _)
          intro c' p hp
          cases hp

end Concurrent
