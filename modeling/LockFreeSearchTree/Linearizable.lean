import LockFreeSearchTree.Interleaving

/-! # Linearizable objects

An object whose calls take effect at one moment between their invocation and their response.  `Atomic`
is the transition system of such an object, its meaning being the relation
`spec : A → C → R → A → Prop`; `Linearizes spec a ls cfg` says that the invocations and responses of the run
`ls` are those of a run of the object from the state `a` to `cfg`.

`outcome` runs a program whose operations do not fail, and keeps the state when the program raises. -/

namespace Concurrent

variable {Op C R A : Type}

/-! ### Invocations and responses -/

/-- What the caller of an object sees. -/
inductive Visible (C R : Type) where
  | invoke (t : ℕ) (c : C)
  | respond (t : ℕ) (c : C) (r : R)

def Event.visible : Event Op C R → Option (Visible C R)
  | .invoke t c => some (.invoke t c)
  | .access _ _ => none
  | .respond t c r => some (.respond t c r)

/-- The invocations and responses of a run, in order. -/
def visible (ls : List (Event Op C R)) : List (Visible C R) := ls.filterMap Event.visible

theorem visible_append (ls ls' : List (Event Op C R)) : visible (ls ++ ls') = visible ls ++ visible ls' :=
  List.filterMap_append

theorem visible_snoc (ls : List (Event Op C R)) (e : Event Op C R) : visible (ls ++ [e]) = visible ls ++ e.visible.toList := by
  rw [visible_append]
  cases e <;> rfl

theorem mem_visible_invoke {ls : List (Event Op C R)} {t : ℕ} {c : C} : .invoke t c ∈ visible ls ↔ .invoke t c ∈ ls := by
  unfold visible
  rw [List.mem_filterMap]
  constructor
  · rintro ⟨e, he, hv⟩
    cases e <;> cases hv
    exact he
  · exact fun h => ⟨_, h, rfl⟩

/-- The call a thread is running after an event, if it was running `c` before. -/
def Event.after (e : Event Op C R) (t : ℕ) (c : Option C) : Option C :=
  match e with
  | .invoke u c' => if t = u then some c' else c
  | .access _ _ => c
  | .respond u _ _ => if t = u then none else c

/-- The call a thread is running after some events. -/
def running (ls : List (Event Op C R)) (t : ℕ) : Option C := ls.foldl (fun c e => e.after t c) none

theorem running_snoc (ls : List (Event Op C R)) (e : Event Op C R) (t : ℕ) :
    running (ls ++ [e]) t = e.after t (running ls t) := by
  unfold running
  rw [List.foldl_append]
  rfl

/-- A call that has been invoked, before and after it has taken effect. -/
inductive Phase (C R : Type) where
  | pending (c : C)
  | done (c : C) (r : R)

def Phase.call : Phase C R → C
  | .pending c => c
  | .done c _ => c

structure Atomic (A C R : Type) where
  threads : ℕ → Option (Phase C R)
  state : A

namespace Atomic

/-- The thread `t` goes on to the phase `p`, and the state becomes `a`. -/
def set (o : Atomic A C R) (t : ℕ) (p : Option (Phase C R)) (a : A) : Atomic A C R := ⟨Function.update o.threads t p, a⟩

@[simp] theorem state_set (o : Atomic A C R) (t : ℕ) (p : Option (Phase C R)) (a : A) : (o.set t p a).state = a := rfl

@[simp] theorem threads_set_self (o : Atomic A C R) (t : ℕ) (p : Option (Phase C R)) (a : A) :
    (o.set t p a).threads t = p := by
  simp [set]

theorem threads_set_ne (o : Atomic A C R) {t u : ℕ} (p : Option (Phase C R)) (a : A) (h : u ≠ t) :
    (o.set t p a).threads u = o.threads u := by
  simp [set, h]

/-- The call a thread is running. -/
def call (o : Atomic A C R) (t : ℕ) : Option C := (o.threads t).map Phase.call

/-- The object before its first call. -/
def idle (a : A) : Atomic A C R := ⟨fun _ => none, a⟩

/-- One step; a pending call takes effect at the step labelled as its only access. -/
inductive Step (spec : A → C → R → A → Prop) : Atomic A C R → Event Unit C R → Atomic A C R → Prop where
  | invoke {o : Atomic A C R} {t : ℕ} {c : C} (h : o.threads t = none) :
      Step spec o (.invoke t c) (o.set t (some (.pending c)) o.state)
  | effect {o : Atomic A C R} {t : ℕ} {c : C} {r : R} {a : A} (h : o.threads t = some (.pending c))
      (hspec : spec o.state c r a) : Step spec o (.access t ()) (o.set t (some (.done c r)) a)
  | respond {o : Atomic A C R} {t : ℕ} {c : C} {r : R} (h : o.threads t = some (.done c r)) :
      Step spec o (.respond t c r) (o.set t none o.state)

end Atomic

/-- The invocations and responses `vs` are those of a run of the object. -/
def Linearizes (spec : A → C → R → A → Prop) (a : A) (vs : List (Visible C R)) (o : Atomic A C R) : Prop :=
  ∃ ls, Transition.Run (Atomic.Step spec) (.idle a) ls o ∧ visible ls = vs

namespace Linearizes

variable {spec : A → C → R → A → Prop} {a : A} {vs : List (Visible C R)} {o o' : Atomic A C R}

theorem idle : Linearizes spec a ([] : List (Visible C R)) (.idle a) := ⟨[], .nil, rfl⟩

theorem run {ls : List (Event Unit C R)} (h : Linearizes spec a vs o) (hrun : Transition.Run (Atomic.Step spec) o ls o') :
    Linearizes spec a (vs ++ visible ls) o' := by
  obtain ⟨ls', hrun', rfl⟩ := h
  exact ⟨ls' ++ ls, hrun'.trans hrun, visible_append _ _⟩

end Linearizes

/-! ### Programs whose operations do not fail -/

namespace Prog

variable {Ret : Op → Type} {ε α β δ : Type} (exec : (o : Op) → δ → Ret o × δ)

/-- What a program ends in, and the state it leaves. -/
def outcome : Prog Op Ret ε α → δ → Except ε α × δ
  | ret a, d => (.ok a, d)
  | raise e, d => (.error e, d)
  | op o k, d => (k (exec o d).1).outcome (exec o d).2

@[simp] theorem outcome_pure (a : α) (d : δ) : (pure a : Prog Op Ret ε α).outcome exec d = (.ok a, d) := rfl

@[simp] theorem outcome_raise (e : ε) (d : δ) : (raise e : Prog Op Ret ε α).outcome exec d = (.error e, d) := rfl

theorem outcome_bind (p : Prog Op Ret ε α) (f : α → Prog Op Ret ε β) (d : δ) :
    (p >>= f).outcome exec d = match p.outcome exec d with
      | (.ok a, d') => (f a).outcome exec d'
      | (.error e, d') => (.error e, d') := by
  induction p generalizing d with
  | ret a => rfl
  | raise e => rfl
  | op o k ih => exact ih _ _

@[simp] theorem outcome_perform_bind (o : Op) (f : Ret o → Prog Op Ret ε β) (d : δ) :
    (perform o >>= f).outcome exec d = (f (exec o d).1).outcome exec (exec o d).2 := rfl

end Prog

end Concurrent
