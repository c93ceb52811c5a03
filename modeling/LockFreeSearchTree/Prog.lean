import Mathlib.Logic.Basic
import Mathlib.Tactic.SplitIfs

/-! # Programs with atomic operations

Programs over a signature `Op` of atomic operations, the operation `o` returning a value of type
`Ret o`.  A program is a tree: it returns, raises, or performs an operation and goes on with its
result.  Nothing is said about the meaning of the operations, which is a function `exec` on
states.

* `run` executes a program alone.
* `performed` lists the operations of such a run, and `Performs exec G p post` says that all of them
  satisfy `G` and that what `p` returns satisfies `post`.
* `Meets exec F p s Q`: run alone from `s`, `p` returns a value and a state satisfying `Q`, or
  raises something satisfying `F`.  `meets_bind`, `meets_perform` and the other `simp` lemmas
  compute this condition along a program.

How several programs interleave is in `Interleaving.lean`. -/

namespace Concurrent

/-- Programs with the operations `Op` that raise values of type `ε` and return values of type `α`. -/
inductive Prog (Op : Type) (Ret : Op → Type) (ε α : Type) : Type where
  | ret (a : α)
  | raise (e : ε)
  | op (o : Op) (k : Ret o → Prog Op Ret ε α)

namespace Prog

variable {Op : Type} {Ret : Op → Type} {ε α β σ : Type}

def bind : Prog Op Ret ε α → (α → Prog Op Ret ε β) → Prog Op Ret ε β
  | ret a, f => f a
  | raise e, _ => raise e
  | op o k, f => op o (fun r => (k r).bind f)

instance : Monad (Prog Op Ret ε) where
  pure := ret
  bind := bind

@[simp] theorem pure_bind' (a : α) (f : α → Prog Op Ret ε β) : (pure a >>= f) = f a := rfl

@[simp] theorem ret_bind (a : α) (f : α → Prog Op Ret ε β) : (ret a >>= f) = f a := rfl

@[simp] theorem raise_bind (e : ε) (f : α → Prog Op Ret ε β) : (raise e >>= f) = raise e := rfl

@[simp] theorem op_bind (o : Op) (k : Ret o → Prog Op Ret ε α) (f : α → Prog Op Ret ε β) :
    (op o k >>= f) = op o (fun r => k r >>= f) := rfl

theorem bind_assoc' {γ : Type} (p : Prog Op Ret ε α) (f : α → Prog Op Ret ε β) (g : β → Prog Op Ret ε γ) :
    (p >>= f) >>= g = p >>= fun a => f a >>= g := by
  induction p with
  | ret a => rfl
  | raise e => rfl
  | op o k ih =>
      rw [op_bind, op_bind, op_bind]
      congr 1
      funext r
      exact ih r

theorem ite_bind (c : Prop) [Decidable c] (p q : Prog Op Ret ε α) (f : α → Prog Op Ret ε β) :
    (if c then p else q) >>= f = if c then p >>= f else q >>= f := by
  split_ifs <;> rfl

/-- Perform one operation. -/
def perform (o : Op) : Prog Op Ret ε (Ret o) := op o ret

/-- A computation that performs no operation. -/
def ofExcept : Except ε α → Prog Op Ret ε α
  | .ok a => ret a
  | .error e => raise e

@[simp] theorem ofExcept_ok (a : α) : (ofExcept (.ok a) : Prog Op Ret ε α) = ret a := rfl

@[simp] theorem ofExcept_error (e : ε) : (ofExcept (.error e) : Prog Op Ret ε α) = raise e := rfl

/-- What the program raises is caught and returned. -/
def attempt : Prog Op Ret ε α → Prog Op Ret ε (Except ε α)
  | ret a => ret (.ok a)
  | raise e => ret (.error e)
  | op o k => op o (fun r => (k r).attempt)

/-! ### Running alone -/

variable (exec : (o : Op) → σ → Except ε (Ret o × σ))

def run : Prog Op Ret ε α → σ → Except ε (α × σ)
  | ret a, s => .ok (a, s)
  | raise e, _ => .error e
  | op o k, s =>
      match exec o s with
      | .ok (r, s') => (k r).run s'
      | .error e => .error e

theorem run_bind (p : Prog Op Ret ε α) (f : α → Prog Op Ret ε β) (s : σ) :
    (p >>= f).run exec s = match p.run exec s with
      | .ok (a, s') => (f a).run exec s'
      | .error e => .error e := by
  induction p generalizing s with
  | ret a => rfl
  | raise e => rfl
  | op o k ih =>
      rw [op_bind]
      simp only [run]
      rcases exec o s with e | ⟨r, s'⟩
      · rfl
      · exact ih r s'

/-- The operations a program run alone performs, the failing one included. -/
def performed : Prog Op Ret ε α → σ → List Op
  | ret _, _ => []
  | raise _, _ => []
  | op o k, s => o ::
      match exec o s with
      | .ok (r, s') => (k r).performed s'
      | .error _ => []

/-- Only the last operation of a run fails, and its failure is that of the program. -/
theorem exec_of_mem_performed {p : Prog Op Ret ε α} {s : σ} {o : Op} (h : o ∈ p.performed exec s) :
    ∃ s', (∃ x, exec o s' = .ok x) ∨ ∃ e, exec o s' = .error e ∧ p.run exec s = .error e := by
  induction p generalizing s with
  | ret a => cases h
  | raise e => cases h
  | op o' k ih =>
      simp only [performed] at h
      simp only [run]
      cases hexec : exec o' s with
      | error e =>
          rw [hexec] at h
          cases List.mem_singleton.mp h
          exact ⟨s, .inr ⟨e, hexec, rfl⟩⟩
      | ok x =>
          rw [hexec] at h
          cases List.mem_cons.mp h with
          | inl he =>
              rw [he]
              exact ⟨s, .inl ⟨x, hexec⟩⟩
          | inr hm => exact ih x.1 hm

theorem performed_bind (p : Prog Op Ret ε α) (f : α → Prog Op Ret ε β) (s : σ) :
    (p >>= f).performed exec s = p.performed exec s ++ match p.run exec s with
      | .ok (a, s') => (f a).performed exec s'
      | .error _ => [] := by
  induction p generalizing s with
  | ret a => rfl
  | raise e => rfl
  | op o k ih =>
      rw [op_bind]
      simp only [performed, run]
      rcases exec o s with e | ⟨r, s'⟩
      · rfl
      · exact congrArg (o :: ·) (ih r s')

/-- Run alone, `p` performs only operations satisfying `G`, and what it returns satisfies `post`. -/
def Performs (G : Op → Prop) (p : Prog Op Ret ε α) (post : α → Prop) : Prop :=
  ∀ s, (∀ o ∈ p.performed exec s, G o) ∧ ∀ a s', p.run exec s = .ok (a, s') → post a

namespace Performs

variable {exec} {G : Op → Prop} {p : Prog Op Ret ε α} {post post' : α → Prop}

theorem pure {a : α} (h : post a) : Performs exec G (Pure.pure a) post := by
  intro s
  refine ⟨fun o ho => (by cases ho), fun b s' hrun => ?_⟩
  cases hrun
  exact h

theorem raise {e : ε} : Performs exec G (.raise e : Prog Op Ret ε α) post :=
  fun _ => ⟨fun _ ho => (by cases ho), fun _ _ hrun => (by cases hrun)⟩

theorem bind {f : α → Prog Op Ret ε β} {mid : α → Prop} {post : β → Prop} (h : Performs exec G p mid)
    (hf : ∀ a, mid a → Performs exec G (f a) post) : Performs exec G (p >>= f) post := by
  intro s
  obtain ⟨hops, hmid⟩ := h s
  rw [performed_bind, run_bind]
  rcases hrun : p.run exec s with e | ⟨a, s'⟩
  · refine ⟨fun o ho => hops o ?_, fun b s' hb => (by cases hb)⟩
    simpa using ho
  · obtain ⟨hops', hpost⟩ := hf a (hmid a s' hrun) s'
    refine ⟨fun o ho => ?_, hpost⟩
    cases List.mem_append.mp ho with
    | inl ho => exact hops o ho
    | inr ho => exact hops' o ho

theorem ite {c : Prop} [Decidable c] {q : Prog Op Ret ε α} (hp : c → Performs exec G p post)
    (hq : ¬ c → Performs exec G q post) : Performs exec G (if c then p else q) post := by
  split_ifs with hc
  · exact hp hc
  · exact hq hc

/-- What the runs return may be known otherwise. -/
theorem of_run (h : Performs exec G p post) (hrun : ∀ s a s', p.run exec s = .ok (a, s') → post' a) :
    Performs exec G p post' :=
  fun s => ⟨(h s).1, hrun s⟩

theorem mono (h : Performs exec G p post) (hpost : ∀ a, post a → post' a) : Performs exec G p post' :=
  h.of_run fun s a s' hrun => hpost a ((h s).2 a s' hrun)

theorem weaken {G' : Op → Prop} (h : Performs exec G p post) (hG : ∀ o, G o → G' o) : Performs exec G' p post :=
  fun s => ⟨fun o ho => hG o ((h s).1 o ho), (h s).2⟩

theorem perform {o : Op} {post : Ret o → Prop} (hG : G o) (h : ∀ s r s', exec o s = .ok (r, s') → post r) :
    Performs exec G (Prog.perform o : Prog Op Ret ε (Ret o)) post := by
  intro s
  unfold Prog.perform
  simp only [performed, run]
  cases hexec : exec o s with
  | error e =>
      refine ⟨fun o' ho => ?_, fun r s' hr => (by cases hr)⟩
      cases List.mem_singleton.mp ho
      exact hG
  | ok x =>
      refine ⟨fun o' ho => ?_, fun r s' hr => ?_⟩
      · cases List.mem_singleton.mp ho
        exact hG
      · cases hr
        exact h s _ _ hexec

end Performs

/-! ### Outcomes -/

/-- What holds of the outcome of `p` run alone from `s`. -/
def Meets (F : ε → Prop) (p : Prog Op Ret ε α) (s : σ) (Q : α → σ → Prop) : Prop :=
  match p.run exec s with
  | .ok (a, s') => Q a s'
  | .error e => F e

variable {exec} {F : ε → Prop}

theorem Meets.mono {p : Prog Op Ret ε α} {s : σ} {P Q : α → σ → Prop} (h : Meets exec F p s P)
    (hPQ : ∀ a s', P a s' → Q a s') : Meets exec F p s Q := by
  unfold Meets at *
  rcases hrun : p.run exec s with e | ⟨a, s'⟩ <;> rw [hrun] at h
  · exact h
  · exact hPQ a s' h

theorem Meets.of_run {p : Prog Op Ret ε α} {s s' : σ} {a : α} {Q : α → σ → Prop} (h : Meets exec F p s Q)
    (hrun : p.run exec s = .ok (a, s')) : Q a s' := by
  unfold Meets at h
  rwa [hrun] at h

/-- A program none of whose outcomes raises returns. -/
theorem Meets.returns {p : Prog Op Ret ε α} {s : σ} {Q : α → σ → Prop} (h : Meets exec (fun _ => False) p s Q) :
    ∃ a s', p.run exec s = .ok (a, s') ∧ Q a s' := by
  unfold Meets at h
  rcases hrun : p.run exec s with e | ⟨a, s'⟩
  · rw [hrun] at h
    exact h.elim
  · rw [hrun] at h
    exact ⟨a, s', rfl, h⟩

@[simp] theorem meets_ret {a : α} {s : σ} {Q : α → σ → Prop} : Meets exec F (ret a) s Q ↔ Q a s := Iff.rfl

@[simp] theorem meets_pure {a : α} {s : σ} {Q : α → σ → Prop} : Meets exec F (pure a) s Q ↔ Q a s := Iff.rfl

@[simp] theorem meets_raise {e : ε} {s : σ} {Q : α → σ → Prop} : Meets exec F (raise e) s Q ↔ F e := Iff.rfl

theorem meets_bind {p : Prog Op Ret ε α} {f : α → Prog Op Ret ε β} {s : σ} {Q : β → σ → Prop} :
    Meets exec F (p >>= f) s Q ↔ Meets exec F p s (fun a s' => Meets exec F (f a) s' Q) := by
  unfold Meets
  rw [run_bind]
  rcases p.run exec s with e | ⟨a, s'⟩ <;> rfl

theorem Meets.bind {p : Prog Op Ret ε α} {f : α → Prog Op Ret ε β} {s : σ} {P : α → σ → Prop} {Q : β → σ → Prop}
    (h : Meets exec F p s P) (hf : ∀ a s', P a s' → Meets exec F (f a) s' Q) : Meets exec F (p >>= f) s Q :=
  meets_bind.mpr (h.mono hf)

/-- Programs with the same outcomes have the same run. -/
theorem run_eq_of_meets {p q : Prog Op Ret ε α} {s : σ}
    (h : ∀ (F : ε → Prop) (Q : α → σ → Prop), Meets exec F q s Q → Meets exec F p s Q) : p.run exec s = q.run exec s := by
  have hq : Meets exec (fun e => q.run exec s = .error e) q s (fun a s' => q.run exec s = .ok (a, s')) := by
    unfold Meets
    rcases q.run exec s with e | ⟨a, s'⟩ <;> rfl
  have hp := h _ _ hq
  unfold Meets at hp
  rcases hrun : p.run exec s with e | ⟨a, s'⟩ <;> rw [hrun] at hp
  · exact Eq.symm hp
  · exact Eq.symm hp

theorem meets_perform {o : Op} {s s' : σ} {r : Ret o} {Q : Ret o → σ → Prop} (h : exec o s = .ok (r, s')) :
    Meets exec F (perform o) s Q ↔ Q r s' := by
  unfold Meets perform
  simp only [run, h]

end Prog

end Concurrent
