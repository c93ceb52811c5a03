import LockFreeSearchTree.Interleaving
import Mathlib.Logic.Relation

/-! # Rely and guarantee

A proof method for the runs of `Interleaving.lean`.  The shared state is extended by a ghost
value and by the list of calls that have returned (`World`).  A `Protocol` says what holds of
every world (`inv`), what a step of a thread may do to it (`guar`) and what is known of a thread
that runs no call (`idle`).

* `Safe P t p post x`: from the world `x`, with any steps other threads may take by the protocol
  in between, every operation of the program `p` of thread `t` keeps the invariant and the
  guarantee for some new ghost value, and what `p` returns satisfies `post`.
* Assertions about a world that other threads cannot invalidate are `Stable`; `Safe.perform` is the
  rule for one operation, `Safe.bind` composes programs.
* `Ensures P t A p B` is the triple of an assertion, a program and the assertions about its results;
  `Ensures.bind` and `Ensures.perform` are its rules.
* `Protocol.Keeps.sound`: if every call is safe, then all runs keep the invariant, and every step of
  theirs keeps its guarantee or fails (`Protocol.Keeps.step`).  What the guarantee preserves besides
  is preserved by runs (`Protocol.Keeps.run`). -/

namespace Concurrent

variable {Op : Type} {Ret : Op → Type} {ε σ C R γ : Type}

/-- The calls that have returned, the shared state and the ghost value. -/
structure World (C R σ γ : Type) where
  history : List (C × R)
  shared : σ
  ghost : γ

structure Protocol (Op C R σ γ : Type) where
  /-- What holds of every world. -/
  inv : World C R σ γ → Prop
  /-- What a step may do. -/
  guar : Event Op C R → World C R σ γ → World C R σ γ → Prop
  /-- What holds of a thread between its calls. -/
  idle : ℕ → World C R σ γ → Prop
  /-- The steps that are considered. -/
  allowed : Event Op C R → σ → Prop

namespace Protocol

variable (P : Protocol Op C R σ γ)

/-- Steps of the other threads. -/
def Rely (t : ℕ) (x x' : World C R σ γ) : Prop := ∃ e : Event Op C R, e.thread ≠ t ∧ P.guar e x x' ∧ P.inv x'

def Interfered (t : ℕ) : World C R σ γ → World C R σ γ → Prop := Relation.ReflTransGen (P.Rely t)

/-- The other threads do not invalidate `A`. -/
def Stable (t : ℕ) (A : World C R σ γ → Prop) : Prop := ∀ x x', P.inv x → A x → P.Rely t x x' → A x'

variable {P} {t : ℕ}

theorem Interfered.inv {x x' : World C R σ γ} (h : P.Interfered t x x') (hx : P.inv x) : P.inv x' := by
  induction h with
  | refl => exact hx
  | tail _ hstep _ =>
      obtain ⟨_, _, _, hinv⟩ := hstep
      exact hinv

theorem Stable.interfered {A : World C R σ γ → Prop} (hA : P.Stable t A) {x x' : World C R σ γ}
    (h : P.Interfered t x x') (hx : P.inv x) (ha : A x) : A x' := by
  induction h with
  | refl => exact ha
  | tail hprev hstep ih => exact hA _ _ (Interfered.inv hprev hx) ih hstep

end Protocol

open Protocol

variable (exec : (o : Op) → σ → Except ε (Ret o × σ)) (P : Protocol Op C R σ γ) (t : ℕ)

/-- Every operation keeps the protocol, and the result satisfies `post`. -/
def Safe {α : Type} : Prog Op Ret ε α → (α → World C R σ γ → Prop) → World C R σ γ → Prop
  | .ret a, post, x => ∀ x', P.Interfered t x x' → post a x'
  | .raise _, _, _ => True
  | .op o k, post, x => ∀ x', P.Interfered t x x' → P.allowed (.access t o) x'.shared → ∀ r s,
      exec o x'.shared = .ok (r, s) → ∃ g, P.inv ⟨x'.history, s, g⟩ ∧
        P.guar (.access t o) x' ⟨x'.history, s, g⟩ ∧ Safe (k r) post ⟨x'.history, s, g⟩

namespace Safe

variable {exec P t} {α β : Type} {p : Prog Op Ret ε α} {x x' : World C R σ γ}

theorem interfered {post : α → World C R σ γ → Prop} (h : Safe exec P t p post x) (hx : P.Interfered t x x') :
    Safe exec P t p post x' := by
  cases p with
  | ret a => exact fun x'' h' => h x'' (hx.trans h')
  | raise e => trivial
  | op o k => exact fun x'' h' => h x'' (hx.trans h')

theorem mono {post post' : α → World C R σ γ → Prop} (h : Safe exec P t p post x)
    (hpost : ∀ a x, post a x → post' a x) : Safe exec P t p post' x := by
  induction p generalizing x with
  | ret a => exact fun x' hx => hpost a x' (h x' hx)
  | raise e => trivial
  | op o k ih =>
      intro x' hx hall r s hexec
      obtain ⟨g, hinv, hguar, hk⟩ := h x' hx hall r s hexec
      exact ⟨g, hinv, hguar, ih r hk⟩

theorem bind {f : α → Prog Op Ret ε β} {mid : α → World C R σ γ → Prop} {post : β → World C R σ γ → Prop}
    (hinv : P.inv x) (h : Safe exec P t p mid x)
    (hf : ∀ a x, P.inv x → mid a x → Safe exec P t (f a) post x) : Safe exec P t (p >>= f) post x := by
  induction p generalizing x with
  | ret a => exact hf a x hinv (h x .refl)
  | raise e => trivial
  | op o k ih =>
      intro x' hx hall r s hexec
      obtain ⟨g, hinv', hguar, hk⟩ := h x' hx hall r s hexec
      exact ⟨g, hinv', hguar, ih r hinv' hk⟩

theorem pure {a : α} {post : α → World C R σ γ → Prop} (hinv : P.inv x) (hpost : P.Stable t (post a)) (h : post a x) :
    Safe exec P t (pure a : Prog Op Ret ε α) post x :=
  fun _ hx => hpost.interfered hx hinv h

/-- One operation, performed where a stable assertion holds. -/
theorem perform {o : Op} {A : World C R σ γ → Prop} {post : Ret o → World C R σ γ → Prop} (hinv : P.inv x)
    (hA : P.Stable t A) (hx : A x) (hpost : ∀ r, P.Stable t (post r))
    (h : ∀ x, P.inv x → A x → P.allowed (.access t o) x.shared → ∀ r s, exec o x.shared = .ok (r, s) →
      ∃ g, P.inv ⟨x.history, s, g⟩ ∧ P.guar (.access t o) x ⟨x.history, s, g⟩ ∧ post r ⟨x.history, s, g⟩) :
    Safe exec P t (Prog.perform o : Prog Op Ret ε (Ret o)) post x := by
  intro x' hx' hall r s hexec
  obtain ⟨g, hinv', hguar, hp⟩ := h x' (Interfered.inv hx' hinv) (hA.interfered hx' hinv hx) hall r s hexec
  exact ⟨g, hinv', hguar, fun x'' hx'' => (hpost r).interfered hx'' hinv' hp⟩

end Safe

/-! ### Triples -/

/-- From the worlds that satisfy `A`, the program is safe and what it returns satisfies `B`. -/
def Ensures {α : Type} (A : World C R σ γ → Prop) (p : Prog Op Ret ε α) (B : α → World C R σ γ → Prop) : Prop :=
  ∀ x, P.inv x → A x → Safe exec P t p B x

namespace Ensures

variable {exec P t} {α β : Type} {p : Prog Op Ret ε α} {A A' : World C R σ γ → Prop} {B B' : α → World C R σ γ → Prop}

theorem bind {f : α → Prog Op Ret ε β} {D : β → World C R σ γ → Prop} (h : Ensures exec P t A p B)
    (hf : ∀ a, Ensures exec P t (B a) (f a) D) : Ensures exec P t A (p >>= f) D :=
  fun x hx ha => Safe.bind hx (h x hx ha) fun a y hy hb => hf a y hy hb

theorem pure {a : α} (hB : P.Stable t (B a)) (h : ∀ x, P.inv x → A x → B a x) :
    Ensures exec P t A (pure a : Prog Op Ret ε α) B :=
  fun x hx ha => Safe.pure hx hB (h x hx ha)

theorem raise {e : ε} : Ensures exec P t A (.raise e) B := fun _ _ _ => trivial

theorem pre (h : Ensures exec P t A' p B) (hA : ∀ x, P.inv x → A x → A' x) : Ensures exec P t A p B :=
  fun x hx ha => h x hx (hA x hx ha)

theorem post (h : Ensures exec P t A p B') (hB : ∀ a x, B' a x → B a x) : Ensures exec P t A p B :=
  fun x hx ha => (h x hx ha).mono hB

/-- One operation on the worlds that satisfy a stable assertion. -/
theorem perform {o : Op} {B : Ret o → World C R σ γ → Prop} (hA : P.Stable t A) (hB : ∀ r, P.Stable t (B r))
    (h : ∀ x, P.inv x → A x → P.allowed (.access t o) x.shared → ∀ r s, exec o x.shared = .ok (r, s) →
      ∃ g, P.inv ⟨x.history, s, g⟩ ∧ P.guar (.access t o) x ⟨x.history, s, g⟩ ∧ B r ⟨x.history, s, g⟩) :
    Ensures exec P t A (Prog.perform o : Prog Op Ret ε (Ret o)) B :=
  fun _ hx ha => Safe.perform hx hA ha hB h

end Ensures

/-! ### Soundness -/

variable (body : C → Prog Op Ret ε R) (post : ℕ → C → R → World C R σ γ → Prop)

/-- Every call can be made by an idle thread and is safe, and a call that returns leaves its
thread idle. -/
structure Protocol.Keeps : Prop where
  idle_stable : ∀ t, P.Stable t (P.idle t)
  invoke : ∀ t c x, P.inv x → P.idle t x → P.allowed (.invoke t c) x.shared → ∃ g, P.inv ⟨x.history, x.shared, g⟩ ∧
    P.guar (.invoke t c) x ⟨x.history, x.shared, g⟩ ∧ Safe exec P t (body c) (post t c) ⟨x.history, x.shared, g⟩
  respond : ∀ t c r x, P.inv x → post t c r x → ∃ g, P.inv ⟨x.history ++ [(c, r)], x.shared, g⟩ ∧
    P.guar (.respond t c r) x ⟨x.history ++ [(c, r)], x.shared, g⟩ ∧ P.idle t ⟨x.history ++ [(c, r)], x.shared, g⟩

variable {exec P body post}

/-- What is known of a thread. -/
def Protocol.Thread (exec : (o : Op) → σ → Except ε (Ret o × σ)) (P : Protocol Op C R σ γ)
    (post : ℕ → C → R → World C R σ γ → Prop) (x : World C R σ γ) (t : ℕ) : Option (C × Prog Op Ret ε R) → Prop
  | none => P.idle t x
  | some (c, p) => Safe exec P t p (post t c) x

/-- The protocol holds of the shared state and of every thread. -/
structure Protocol.Holds (exec : (o : Op) → σ → Except ε (Ret o × σ)) (P : Protocol Op C R σ γ)
    (post : ℕ → C → R → World C R σ γ → Prop) (h : List (C × R)) (cfg : Config Op Ret ε σ C R) (g : γ) : Prop where
  inv : P.inv ⟨h, cfg.shared, g⟩
  threads : ∀ t, P.Thread exec post ⟨h, cfg.shared, g⟩ t (cfg.threads t)

/-- The steps of a run that are allowed. -/
def Protocol.AllowedStep (exec : (o : Op) → σ → Except ε (Ret o × σ)) (P : Protocol Op C R σ γ)
    (body : C → Prog Op Ret ε R) (cfg : Config Op Ret ε σ C R) (e : Event Op C R) (cfg' : Config Op Ret ε σ C R) : Prop :=
  Step exec body cfg e cfg' ∧ P.allowed e cfg.shared

/-- The operation of the step fails. -/
def Faults (exec : (o : Op) → σ → Except ε (Ret o × σ)) (s : σ) (e : Event Op C R) : Prop :=
  ∃ t o f, e = .access t o ∧ exec o s = .error f

/-- A step keeps its guarantee, or it fails and changes nothing. -/
def Protocol.Guarantees (exec : (o : Op) → σ → Except ε (Ret o × σ)) (P : Protocol Op C R σ γ) (e : Event Op C R)
    (x x' : World C R σ γ) : Prop :=
  P.guar e x x' ∨ Faults exec x.shared e ∧ x' = x

/-- The calls that have returned after a step. -/
def Event.history (h : List (C × R)) : Event Op C R → List (C × R)
  | .respond _ c r => h ++ [(c, r)]
  | _ => h

theorem returned_snoc (ls : List (Event Op C R)) (e : Event Op C R) : returned (ls ++ [e]) = e.history (returned ls) := by
  cases e <;> simp [Event.history]

/-- A step from a configuration of which the protocol holds. -/
theorem Protocol.Keeps.step (hK : P.Keeps exec body post) {cfg cfg' : Config Op Ret ε σ C R} {e : Event Op C R}
    {h : List (C × R)} {g : γ} (hP : P.Holds exec post h cfg g) (hstep : P.AllowedStep exec body cfg e cfg') :
    ∃ g', P.Holds exec post (e.history h) cfg' g' ∧
      P.Guarantees exec e ⟨h, cfg.shared, g⟩ ⟨e.history h, cfg'.shared, g'⟩ := by
  obtain ⟨hinv, hthreads⟩ := hP
  -- the other threads see the step as interference
  have hother : ∀ {u : ℕ} {q : Option (C × Prog Op Ret ε R)} {x' : World C R σ γ}, e.thread ≠ u →
      P.guar e ⟨h, cfg.shared, g⟩ x' → P.inv x' → P.Thread exec post ⟨h, cfg.shared, g⟩ u q → P.Thread exec post x' u q := by
    intro u q x' hne hguar hinv' hu
    have hrely : P.Rely u ⟨h, cfg.shared, g⟩ x' := ⟨e, hne, hguar, hinv'⟩
    cases q with
    | none => exact hK.idle_stable u _ _ hinv hu hrely
    | some cp => exact hu.interfered (.single hrely)
  obtain ⟨hstep, hall⟩ := hstep
  have hset : ∀ {t : ℕ} {q : Option (C × Prog Op Ret ε R)} {x' : World C R σ γ}, e.thread = t →
      P.guar e ⟨h, cfg.shared, g⟩ x' → P.inv x' → P.Thread exec post x' t q →
      ∀ u, P.Thread exec post x' u ((cfg.set t q x'.shared).threads u) := by
    intro t q x' ht hguar hinv' hq u
    rcases eq_or_ne u t with rfl | hne
    · rw [Config.threads_set_self]
      exact hq
    · rw [Config.threads_set_ne _ _ _ hne]
      exact hother (fun he => hne (he.symm.trans ht)) hguar hinv' (hthreads u)
  cases hstep with
  | @invoke t c hidle =>
      have ht := hthreads t
      rw [hidle] at ht
      obtain ⟨g', hinv', hguar, hsafe⟩ := hK.invoke t c _ hinv ht hall
      exact ⟨g', ⟨hinv', hset rfl hguar hinv' hsafe⟩, .inl hguar⟩
  | @access t c o k r s hrun hexec =>
      have ht := hthreads t
      rw [hrun] at ht
      obtain ⟨g', hinv', hguar, hsafe⟩ := ht _ .refl hall r s hexec
      exact ⟨g', ⟨hinv', hset rfl hguar hinv' hsafe⟩, .inl hguar⟩
  | @fault t c o k f hrun hexec =>
      refine ⟨g, ⟨hinv, fun u => ?_⟩, .inr ⟨⟨t, o, f, rfl, hexec⟩, rfl⟩⟩
      rcases eq_or_ne u t with rfl | hne
      · rw [Config.threads_set_self]
        trivial
      · rw [Config.threads_set_ne _ _ _ hne]
        exact hthreads u
  | @respond t c r hrun =>
      have ht := hthreads t
      rw [hrun] at ht
      obtain ⟨g', hinv', hguar, hidle⟩ := hK.respond t c r _ hinv (ht _ .refl)
      exact ⟨g', ⟨hinv', hset rfl hguar hinv' hidle⟩, .inl hguar⟩

/-- What some steps keep besides the protocol, also of the labels so far, holds after every run of them. -/
theorem Protocol.Keeps.run_labels (hK : P.Keeps exec body post) {J : List (Event Op C R) → World C R σ γ → Prop}
    {next : Config Op Ret ε σ C R → Event Op C R → Config Op Ret ε σ C R → Prop}
    (hnext : ∀ {cfg e cfg'}, next cfg e cfg' → P.AllowedStep exec body cfg e cfg')
    (hJ : ∀ {ls cfg e cfg' h g h' g'}, next cfg e cfg' → P.inv ⟨h, cfg.shared, g⟩ → P.inv ⟨h', cfg'.shared, g'⟩ →
      P.Guarantees exec e ⟨h, cfg.shared, g⟩ ⟨h', cfg'.shared, g'⟩ → J ls ⟨h, cfg.shared, g⟩ →
      J (ls ++ [e]) ⟨h', cfg'.shared, g'⟩)
    {h : List (C × R)} {cfg cfg' : Config Op Ret ε σ C R} {g : γ} {ls : List (Event Op C R)} (hP : P.Holds exec post h cfg g)
    (hj : J [] ⟨h, cfg.shared, g⟩) (hrun : Transition.Run next cfg ls cfg') :
    ∃ g', P.Holds exec post (h ++ returned ls) cfg' g' ∧ J ls ⟨h ++ returned ls, cfg'.shared, g'⟩ := by
  induction hrun with
  | nil => exact ⟨g, by simpa [returned] using hP, by simpa [returned] using hj⟩
  | @snoc ls cfg₁ cfg₂ e _ hlast ih =>
      obtain ⟨g₁, hP₁, hj₁⟩ := ih
      obtain ⟨g₂, hP₂, hguar⟩ := hK.step hP₁ (hnext hlast)
      have hhist : h ++ returned (ls ++ [e]) = e.history (h ++ returned ls) := by
        rw [returned_snoc]
        cases e <;> simp [Event.history]
      rw [hhist]
      exact ⟨g₂, hP₂, hJ hlast hP₁.inv hP₂.inv hguar hj₁⟩

/-- What some steps keep besides the protocol holds after every run of them. -/
theorem Protocol.Keeps.run (hK : P.Keeps exec body post) {J : World C R σ γ → Prop}
    {next : Config Op Ret ε σ C R → Event Op C R → Config Op Ret ε σ C R → Prop}
    (hnext : ∀ {cfg e cfg'}, next cfg e cfg' → P.AllowedStep exec body cfg e cfg')
    (hJ : ∀ {cfg e cfg' h g h' g'}, next cfg e cfg' → P.inv ⟨h, cfg.shared, g⟩ → P.inv ⟨h', cfg'.shared, g'⟩ →
      P.guar e ⟨h, cfg.shared, g⟩ ⟨h', cfg'.shared, g'⟩ → J ⟨h, cfg.shared, g⟩ → J ⟨h', cfg'.shared, g'⟩)
    {h : List (C × R)} {cfg cfg' : Config Op Ret ε σ C R} {g : γ} {ls : List (Event Op C R)} (hP : P.Holds exec post h cfg g)
    (hj : J ⟨h, cfg.shared, g⟩) (hrun : Transition.Run next cfg ls cfg') :
    ∃ g', P.Holds exec post (h ++ returned ls) cfg' g' ∧ J ⟨h ++ returned ls, cfg'.shared, g'⟩ := by
  refine hK.run_labels (J := fun _ => J) hnext (fun hlast hinv hinv' hguar hj₁ => ?_) hP hj hrun
  cases hguar with
  | inl hguar => exact hJ hlast hinv hinv' hguar hj₁
  | inr hfault =>
      rw [hfault.2]
      exact hj₁

/-- A run from a world in which the protocol holds leads to one. -/
theorem Protocol.Keeps.sound (hK : P.Keeps exec body post) {s : σ} {g : γ} (hinv : P.inv ⟨[], s, g⟩)
    (hidle : ∀ t, P.idle t ⟨[], s, g⟩) {ls : List (Event Op C R)} {cfg : Config Op Ret ε σ C R}
    (hrun : Transition.Run (P.AllowedStep exec body) (.idle s) ls cfg) : ∃ g', P.Holds exec post (returned ls) cfg g' := by
  obtain ⟨g', hP, _⟩ := hK.run (J := fun _ => True) id (fun _ _ _ _ _ => trivial)
    (⟨hinv, hidle⟩ : P.Holds exec post [] (.idle s) g) trivial hrun
  exact ⟨g', hP⟩

end Concurrent
