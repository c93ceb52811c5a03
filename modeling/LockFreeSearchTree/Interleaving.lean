import LockFreeSearchTree.Prog
import LockFreeSearchTree.Runs
import Mathlib.Logic.Function.Basic
import Mathlib.Logic.Function.Iterate

/-! # Interleaved calls

Any number of threads, each running at most one call at a time, over one shared state.  A step
invokes a call, performs the next operation of a running one, or lets a finished one return; the
runs of this relation are all the interleavings in which every operation is one step.  A thread
whose operation fails has raised and does nothing any more. -/

namespace Concurrent

variable {Op : Type} {Ret : Op → Type} {ε σ C R : Type}

/-- What a step does. -/
inductive Event (Op C R : Type) where
  | invoke (t : ℕ) (c : C)
  | access (t : ℕ) (o : Op)
  | respond (t : ℕ) (c : C) (r : R)

/-- The thread that takes a step. -/
def Event.thread : Event Op C R → ℕ
  | .invoke t _ => t
  | .access t _ => t
  | .respond t _ _ => t

/-- The call each thread is running, with the rest of its program, and the shared state. -/
structure Config (Op : Type) (Ret : Op → Type) (ε σ C R : Type) where
  threads : ℕ → Option (C × Prog Op Ret ε R)
  shared : σ

/-- No thread is running a call. -/
def Config.Quiescent (cfg : Config Op Ret ε σ C R) : Prop := ∀ t, cfg.threads t = none

/-- The thread `t` goes on with `p`, and the shared state becomes `s`. -/
def Config.set (cfg : Config Op Ret ε σ C R) (t : ℕ) (p : Option (C × Prog Op Ret ε R)) (s : σ) :
    Config Op Ret ε σ C R :=
  ⟨Function.update cfg.threads t p, s⟩

@[simp] theorem Config.shared_set (cfg : Config Op Ret ε σ C R) (t : ℕ) (p : Option (C × Prog Op Ret ε R)) (s : σ) :
    (cfg.set t p s).shared = s := rfl

@[simp] theorem Config.threads_set_self (cfg : Config Op Ret ε σ C R) (t : ℕ) (p : Option (C × Prog Op Ret ε R))
    (s : σ) : (cfg.set t p s).threads t = p := by
  simp [Config.set]

theorem Config.threads_set_ne (cfg : Config Op Ret ε σ C R) {t u : ℕ} (p : Option (C × Prog Op Ret ε R)) (s : σ)
    (h : u ≠ t) : (cfg.set t p s).threads u = cfg.threads u := by
  simp [Config.set, h]

/-- The state in which no call has been made. -/
def Config.idle (s : σ) : Config Op Ret ε σ C R := ⟨fun _ => none, s⟩

variable (exec : (o : Op) → σ → Except ε (Ret o × σ)) (body : C → Prog Op Ret ε R)

/-- One step of one thread. -/
inductive Step : Config Op Ret ε σ C R → Event Op C R → Config Op Ret ε σ C R → Prop where
  | invoke {cfg : Config Op Ret ε σ C R} {t : ℕ} {c : C} (h : cfg.threads t = none) :
      Step cfg (.invoke t c) (cfg.set t (some (c, body c)) cfg.shared)
  | access {cfg : Config Op Ret ε σ C R} {t : ℕ} {c : C} {o : Op} {k : Ret o → Prog Op Ret ε R} {r : Ret o} {s : σ}
      (h : cfg.threads t = some (c, .op o k)) (hexec : exec o cfg.shared = .ok (r, s)) :
      Step cfg (.access t o) (cfg.set t (some (c, k r)) s)
  | fault {cfg : Config Op Ret ε σ C R} {t : ℕ} {c : C} {o : Op} {k : Ret o → Prog Op Ret ε R} {e : ε}
      (h : cfg.threads t = some (c, .op o k)) (hexec : exec o cfg.shared = .error e) :
      Step cfg (.access t o) (cfg.set t (some (c, .raise e)) cfg.shared)
  | respond {cfg : Config Op Ret ε σ C R} {t : ℕ} {c : C} {r : R} (h : cfg.threads t = some (c, .ret r)) :
      Step cfg (.respond t c r) (cfg.set t none cfg.shared)

/-- The calls that have returned in a run, with their results, in order. -/
def returned (ls : List (Event Op C R)) : List (C × R) :=
  ls.filterMap fun
    | .respond _ c r => some (c, r)
    | _ => none

@[simp] theorem returned_snoc_invoke (ls : List (Event Op C R)) (t : ℕ) (c : C) :
    returned (ls ++ [.invoke t c]) = returned ls := by
  simp [returned]

@[simp] theorem returned_snoc_access (ls : List (Event Op C R)) (t : ℕ) (o : Op) :
    returned (ls ++ [.access t o]) = returned ls := by
  simp [returned]

@[simp] theorem returned_snoc_respond (ls : List (Event Op C R)) (t : ℕ) (c : C) (r : R) :
    returned (ls ++ [.respond t c r]) = returned ls ++ [(c, r)] := by
  simp [returned]

theorem returned_append (ls ls' : List (Event Op C R)) : returned (ls ++ ls') = returned ls ++ returned ls' :=
  List.filterMap_append

theorem returned_access (t : ℕ) (os : List Op) : returned (os.map (.access t) : List (Event Op C R)) = [] := by
  simp [returned]

/-! ### One thread alone -/

@[simp] theorem Config.set_set (cfg : Config Op Ret ε σ C R) (t : ℕ) (p q : Option (C × Prog Op Ret ε R)) (s s' : σ) :
    (cfg.set t p s).set t q s' = cfg.set t q s' := by
  simp [Config.set]

section Alone

variable {exec' : (o : Op) → σ → Except ε (Ret o × σ)}
  {next : Config Op Ret ε σ C R → Event Op C R → Config Op Ret ε σ C R → Prop}
  (hnext : ∀ {cfg t c o k r s'}, cfg.threads t = some (c, .op o k) → exec' o cfg.shared = .ok (r, s') →
    next cfg (.access t o) (cfg.set t (some (c, k r)) s'))

include hnext

/-- A program that runs to its end without a step of another thread. -/
theorem Config.program_alone {cfg : Config Op Ret ε σ C R} {t : ℕ} {c : C} {p : Prog Op Ret ε R} {s s' : σ} {r : R}
    (hrun : p.run exec' s = .ok (r, s')) :
    ∃ os : List Op, Transition.Run next (cfg.set t (some (c, p)) s) (os.map (.access t)) (cfg.set t (some (c, .ret r)) s') := by
  induction p generalizing s with
  | ret a =>
      cases hrun
      exact ⟨[], .nil⟩
  | raise e => cases hrun
  | op o k ih =>
      simp only [Prog.run] at hrun
      cases hexec : exec' o s with
      | error e =>
          rw [hexec] at hrun
          cases hrun
      | ok q =>
          rw [hexec] at hrun
          obtain ⟨os, hos⟩ := ih q.1 hrun
          have hstep := hnext (cfg.threads_set_self t (some (c, .op o k)) s) hexec
          rw [Config.set_set] at hstep
          exact ⟨o :: os, hos.cons hstep⟩

/-- A call that runs to its end without a step of another thread. -/
theorem Config.call_alone {cfg : Config Op Ret ε σ C R} {t : ℕ} {c : C} {s' : σ} {r : R}
    (hinvoke : next cfg (.invoke t c) (cfg.set t (some (c, body c)) cfg.shared))
    (hrespond : ∀ {cfg}, cfg.threads t = some (c, .ret r) → next cfg (.respond t c r) (cfg.set t none cfg.shared))
    (hrun : (body c).run exec' cfg.shared = .ok (r, s')) :
    ∃ os : List Op, Transition.Run next cfg (.invoke t c :: os.map (.access t) ++ [.respond t c r]) (cfg.set t none s') := by
  obtain ⟨os, hos⟩ : ∃ os : List Op, Transition.Run next (cfg.set t (some (c, body c)) cfg.shared) (os.map (.access t))
      (cfg.set t (some (c, .ret r)) s') := Config.program_alone hnext hrun
  have hstep := hrespond (cfg.threads_set_self t (some (c, .ret r)) s')
  rw [Config.set_set] at hstep
  exact ⟨os, (hos.cons hinvoke).snoc hstep⟩

end Alone

/-! ### Schedules -/

/-- A thread makes a call, or takes a number of steps. -/
inductive Turn (C : Type) where
  | call (t : ℕ) (c : C)
  | go (t n : ℕ)

/-- The next step of a running call. -/
def Config.advance (t : ℕ) (cfg : Config Op Ret ε σ C R) : Config Op Ret ε σ C R :=
  match cfg.threads t with
  | some (c, .op o k) =>
      match exec o cfg.shared with
      | .ok (r, s) => cfg.set t (some (c, k r)) s
      | .error e => cfg.set t (some (c, .raise e)) cfg.shared
  | some (_, .ret _) => cfg.set t none cfg.shared
  | _ => cfg

/-- The thread can take a step. -/
def Config.active (cfg : Config Op Ret ε σ C R) (t : ℕ) : Bool :=
  match cfg.threads t with
  | some (_, .op _ _) => true
  | some (_, .ret _) => true
  | _ => false

/-- A call that cannot be made is left out. -/
def Config.turn (enabled : C → σ → Bool) (cfg : Config Op Ret ε σ C R) : Turn C → Config Op Ret ε σ C R
  | .call t c => if (cfg.threads t).isNone ∧ enabled c cfg.shared then cfg.set t (some (c, body c)) cfg.shared else cfg
  | .go t n => (Config.advance exec t)^[n] cfg

/-- The configuration a schedule leads to. -/
def Config.schedule (enabled : C → σ → Bool) (cfg : Config Op Ret ε σ C R) (turns : List (Turn C)) : Config Op Ret ε σ C R :=
  turns.foldl (Config.turn exec body enabled) cfg

variable {exec body}

theorem Config.advance_step {cfg : Config Op Ret ε σ C R} {t : ℕ} (h : cfg.active t = true) :
    ∃ e, (∀ t c, e ≠ .invoke t c) ∧ Step exec body cfg e (cfg.advance exec t) := by
  unfold Config.active at h
  unfold Config.advance
  split at h
  · rename_i c o k hrun
    split
    · rename_i r s hexec
      exact ⟨.access t o, (fun _ _ he => by cases he), .access hrun hexec⟩
    · rename_i e hexec
      exact ⟨.access t o, (fun _ _ he => by cases he), .fault hrun hexec⟩
  · rename_i c r hrun
    exact ⟨.respond t c r, (fun _ _ he => by cases he), .respond hrun⟩
  · cases h

theorem Config.advance_idle {cfg : Config Op Ret ε σ C R} {t : ℕ} (h : ¬ cfg.active t = true) : cfg.advance exec t = cfg := by
  unfold Config.active at h
  unfold Config.advance
  split at h
  · exact absurd rfl h
  · exact absurd rfl h
  · rfl

section Schedule

variable {next : Config Op Ret ε σ C R → Event Op C R → Config Op Ret ε σ C R → Prop} {enabled : C → σ → Bool}
  (hnext : ∀ cfg e cfg', (∀ t c, e = .invoke t c → enabled c cfg.shared) → Step exec body cfg e cfg' → next cfg e cfg')

include hnext

theorem Config.advance_run (cfg : Config Op Ret ε σ C R) (t : ℕ) : Transition.Reachable next cfg (cfg.advance exec t) := by
  by_cases h : cfg.active t = true
  · obtain ⟨e, he, hstep⟩ := Config.advance_step h
    exact ⟨_, .single (hnext _ _ _ (fun t c hc => absurd hc (he t c)) hstep)⟩
  · rw [Config.advance_idle h]
    exact ⟨_, .nil⟩

theorem Config.turn_run (cfg : Config Op Ret ε σ C R) (a : Turn C) :
    Transition.Reachable next cfg (cfg.turn exec body enabled a) := by
  cases a with
  | call t c =>
      simp only [Config.turn]
      split_ifs with h
      · refine ⟨_, .single (hnext _ (.invoke t c) _ (fun _ _ he => ?_) (.invoke (Option.isNone_iff_eq_none.mp h.1)))⟩
        cases he
        exact h.2
      · exact ⟨_, .nil⟩
  | go t n =>
      show Transition.Reachable next cfg ((Config.advance exec t)^[n] cfg)
      induction n generalizing cfg with
      | zero => exact ⟨_, .nil⟩
      | succ n ih =>
          obtain ⟨ls, hrun⟩ := Config.advance_run hnext cfg t
          obtain ⟨ls', hrun'⟩ := ih (cfg.advance exec t)
          exact ⟨_, hrun.trans hrun'⟩

/-- Every schedule is a run. -/
theorem Config.schedule_run (cfg : Config Op Ret ε σ C R) (turns : List (Turn C)) :
    Transition.Reachable next cfg (cfg.schedule exec body enabled turns) := by
  induction turns generalizing cfg with
  | nil => exact ⟨_, .nil⟩
  | cons a turns ih =>
      obtain ⟨ls, hrun⟩ := Config.turn_run hnext cfg a
      obtain ⟨ls', hrun'⟩ := ih (cfg.turn exec body enabled a)
      exact ⟨_, hrun.trans hrun'⟩

end Schedule

/-! ### Schedules whose steps are checked -/

/-- The next event of a running call. -/
def Config.event (cfg : Config Op Ret ε σ C R) (t : ℕ) : Option (Event Op C R) :=
  match cfg.threads t with
  | some (_, .op o _) => some (.access t o)
  | some (c, .ret r) => some (.respond t c r)
  | _ => none

theorem Config.event_step {cfg : Config Op Ret ε σ C R} {t : ℕ} {e : Event Op C R} (h : cfg.event t = some e) :
    Step exec body cfg e (cfg.advance exec t) := by
  unfold Config.event at h
  unfold Config.advance
  split at h
  · rename_i c o k hrun
    cases h
    split
    · rename_i r s hexec
      exact .access hrun hexec
    · rename_i e hexec
      exact .fault hrun hexec
  · rename_i c r hrun
    cases h
    exact .respond hrun
  · cases h

variable (exec body)

/-- Steps of one thread, if they are allowed, with their events. -/
def Config.proceed (allowed : Event Op C R → σ → Bool) (t : ℕ) :
    ℕ → Config Op Ret ε σ C R → Option (List (Event Op C R) × Config Op Ret ε σ C R)
  | 0, cfg => some ([], cfg)
  | n + 1, cfg =>
      match cfg.event t with
      | some e =>
          if allowed e cfg.shared then
            (Config.proceed allowed t n (cfg.advance exec t)).map fun x => (e :: x.1, x.2)
          else none
      | none => none

/-- The configuration a schedule leads to, if all its steps are allowed, with the events of these steps. -/
def Config.checked (allowed : Event Op C R → σ → Bool) :
    List (Turn C) → Config Op Ret ε σ C R → Option (List (Event Op C R) × Config Op Ret ε σ C R)
  | [], cfg => some ([], cfg)
  | .call t c :: turns, cfg =>
      if (cfg.threads t).isNone ∧ allowed (.invoke t c) cfg.shared then
        (Config.checked allowed turns (cfg.set t (some (c, body c)) cfg.shared)).map fun x => (.invoke t c :: x.1, x.2)
      else none
  | .go t n :: turns, cfg =>
      (cfg.proceed exec allowed t n).bind fun x =>
        (Config.checked allowed turns x.2).map fun y => (x.1 ++ y.1, y.2)

variable {exec body}

theorem Config.advance_threads_ne {cfg : Config Op Ret ε σ C R} {t u : ℕ} (h : u ≠ t) :
    (cfg.advance exec t).threads u = cfg.threads u := by
  unfold Config.advance
  split
  · split <;> exact Config.threads_set_ne _ _ _ h
  · exact Config.threads_set_ne _ _ _ h
  · rfl

/-- The thread whose turn it is. -/
def Turn.thread : Turn C → ℕ
  | .call t _ => t
  | .go t _ => t

section Checked

variable {allowed : Event Op C R → σ → Bool} {cfg cfg' : Config Op Ret ε σ C R} {ls : List (Event Op C R)}

theorem Config.proceed_threads_ne {t u n : ℕ} (hne : u ≠ t) (h : cfg.proceed exec allowed t n = some (ls, cfg')) :
    cfg'.threads u = cfg.threads u := by
  induction n generalizing cfg ls with
  | zero =>
      cases h
      rfl
  | succ n ih =>
      unfold Config.proceed at h
      split at h
      · split_ifs at h
        obtain ⟨⟨ls', cfg₁⟩, hgo, he⟩ := Option.map_eq_some_iff.mp h
        cases he
        exact (ih hgo).trans (Config.advance_threads_ne hne)
      · cases h

/-- A schedule leaves the threads alone that have no turn. -/
theorem Config.checked_threads_ne {turns : List (Turn C)} {u : ℕ} (hne : ∀ a ∈ turns, u ≠ a.thread)
    (h : Config.checked exec body allowed turns cfg = some (ls, cfg')) : cfg'.threads u = cfg.threads u := by
  induction turns generalizing cfg ls with
  | nil =>
      cases h
      rfl
  | cons a turns ih =>
      have hrest : ∀ b ∈ turns, u ≠ b.thread := fun b hb => hne b (List.mem_cons_of_mem _ hb)
      have hu := hne a (List.mem_cons_self ..)
      cases a with
      | call t c =>
          unfold Config.checked at h
          split_ifs at h
          obtain ⟨⟨ls', cfg₁⟩, hgo, he⟩ := Option.map_eq_some_iff.mp h
          cases he
          exact (ih hrest hgo).trans (Config.threads_set_ne _ _ _ hu)
      | go t n =>
          unfold Config.checked at h
          obtain ⟨⟨ls₁, cfg₁⟩, hgo, h⟩ := Option.bind_eq_some_iff.mp h
          obtain ⟨⟨ls₂, cfg₂⟩, hend, he⟩ := Option.map_eq_some_iff.mp h
          cases he
          exact (ih hrest hend).trans (Config.proceed_threads_ne hu hgo)

theorem Config.invoke_not_mem_proceed {t n u : ℕ} {c : C} (h : cfg.proceed exec allowed t n = some (ls, cfg')) : .invoke u c ∉ ls := by
  induction n generalizing cfg ls with
  | zero =>
      cases h
      exact List.not_mem_nil
  | succ n ih =>
      unfold Config.proceed at h
      split at h
      · rename_i e he
        split_ifs at h
        obtain ⟨⟨ls', cfg₁⟩, hgo, hend⟩ := Option.map_eq_some_iff.mp h
        cases hend
        intro hm
        cases List.mem_cons.mp hm with
        | inl hm =>
            unfold Config.event at he
            split at he <;> cases he
            all_goals cases hm
        | inr hm => exact ih hgo hm
      · cases h

/-- The calls made are those of the schedule. -/
theorem Config.mem_of_checked {turns : List (Turn C)} (h : Config.checked exec body allowed turns cfg = some (ls, cfg')) {t : ℕ} {c : C}
    (hm : .invoke t c ∈ ls) : .call t c ∈ turns := by
  induction turns generalizing cfg ls with
  | nil =>
      cases h
      cases hm
  | cons a turns ih =>
      cases a with
      | call u c' =>
          unfold Config.checked at h
          split_ifs at h
          obtain ⟨⟨ls', cfg₁⟩, hgo, he⟩ := Option.map_eq_some_iff.mp h
          cases he
          cases List.mem_cons.mp hm with
          | inl hm =>
              cases hm
              exact List.mem_cons_self ..
          | inr hm => exact List.mem_cons_of_mem _ (ih hgo hm)
      | go u n =>
          unfold Config.checked at h
          obtain ⟨⟨ls₁, cfg₁⟩, hgo, h⟩ := Option.bind_eq_some_iff.mp h
          obtain ⟨⟨ls₂, cfg₂⟩, hend, he⟩ := Option.map_eq_some_iff.mp h
          cases he
          cases List.mem_append.mp hm with
          | inl hm => exact absurd hm (Config.invoke_not_mem_proceed hgo)
          | inr hm => exact List.mem_cons_of_mem _ (ih hend hm)

/-- If the first `n` threads have returned, and a schedule is about no others, then no thread is running a call. -/
theorem Config.checked_quiescent {turns : List (Turn C)} {n : ℕ} (h : Config.checked exec body allowed turns cfg = some (ls, cfg'))
    (hothers : ∀ u, n ≤ u → cfg.threads u = none) (hturns : ∀ a ∈ turns, a.thread < n)
    (hidle : ∀ t : ℕ, t < n → (cfg'.threads t).isNone = true) : cfg'.Quiescent := by
  intro u
  by_cases hu : u < n
  · exact Option.isNone_iff_eq_none.mp (hidle u hu)
  · have hne : ∀ a ∈ turns, u ≠ a.thread := fun a ha he => hu (he ▸ hturns a ha)
    exact (Config.checked_threads_ne hne h).trans (hothers u (Nat.not_lt.mp hu))

section Run

variable {N : Config Op Ret ε σ C R → Event Op C R → Config Op Ret ε σ C R → Prop}
  (hnext : ∀ {cfg e cfg'}, Step exec body cfg e cfg' → allowed e cfg.shared = true → N cfg e cfg')

include hnext

theorem Config.proceed_run {t n : ℕ} (h : cfg.proceed exec allowed t n = some (ls, cfg')) : Transition.Run N cfg ls cfg' := by
  induction n generalizing cfg ls with
  | zero =>
      cases h
      exact .nil
  | succ n ih =>
      unfold Config.proceed at h
      split at h
      · rename_i e he
        split_ifs at h with hok
        obtain ⟨⟨ls', cfg₁⟩, hgo, hend⟩ := Option.map_eq_some_iff.mp h
        cases hend
        exact (ih hgo).cons (hnext (Config.event_step he) hok)
      · cases h

/-- A schedule that is allowed is a run of allowed steps. -/
theorem Config.checked_run {turns : List (Turn C)} (h : Config.checked exec body allowed turns cfg = some (ls, cfg')) :
    Transition.Run N cfg ls cfg' := by
  induction turns generalizing cfg ls with
  | nil =>
      cases h
      exact .nil
  | cons a turns ih =>
      cases a with
      | call t c =>
          unfold Config.checked at h
          split_ifs at h with hok
          obtain ⟨⟨ls', cfg₁⟩, hgo, hend⟩ := Option.map_eq_some_iff.mp h
          cases hend
          exact (ih hgo).cons (hnext (.invoke (Option.isNone_iff_eq_none.mp hok.1)) hok.2)
      | go t n =>
          unfold Config.checked at h
          obtain ⟨⟨ls₁, cfg₁⟩, hgo, h⟩ := Option.bind_eq_some_iff.mp h
          obtain ⟨⟨ls₂, cfg₂⟩, hrest, hend⟩ := Option.map_eq_some_iff.mp h
          cases hend
          exact (Config.proceed_run hnext hgo).trans (ih hrest)

/-- A schedule of `n` threads, evaluated: they have all returned, and the outcome is as tested. -/
theorem Config.checked_ends {turns : List (Turn C)} {n : ℕ} {P : List (Event Op C R) × Config Op Ret ε σ C R → Prop} [DecidablePred P]
    (hothers : ∀ u, n ≤ u → cfg.threads u = none) (hturns : ∀ a ∈ turns, a.thread < n)
    (h : ((Config.checked exec body allowed turns cfg).map fun x =>
      decide ((∀ t : ℕ, t < n → (x.2.threads t).isNone = true) ∧ P x)) = some true) :
    ∃ ls cfg', Transition.Run N cfg ls cfg' ∧ cfg'.Quiescent ∧ P (ls, cfg') := by
  obtain ⟨⟨ls, cfg'⟩, hcfg, hend⟩ := Option.map_eq_some_iff.mp h
  obtain ⟨hidle, hP⟩ := of_decide_eq_true hend
  exact ⟨ls, cfg', Config.checked_run hnext hcfg, Config.checked_quiescent hcfg hothers hturns hidle, hP⟩

end Run

end Checked

end Concurrent
