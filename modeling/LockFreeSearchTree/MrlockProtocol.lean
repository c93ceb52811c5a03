import LockFreeSearchTree.Linearizable
import LockFreeSearchTree.MrlockQueue
import LockFreeSearchTree.RelyGuarantee

/-! # The protocol of the multi-resource lock

Any number of threads run scopes that hold the lock, over any data (`Locked`).  The ghost value is the queue
of requests, an atomic object of the same calls, and the ticket by which the data has been changed since the
object has (`Ghost`).

* **Assumptions.** The steps of the protocol (`Allowed`) meet three conditions (`Condition`), none of which
  the code sees to: every request is for some resource, a ticket is taken at least `2 ^ k` tickets before the
  32-bit counters wrap, and the head is moved only past a cell without bits, as the loop of `Unlock` has found it.
* **Data.** If all requests collide (`Collide`), then the object has the state of the data whenever
  no thread is in its scope.
* **Triples.** `Ens t A p B` is the triple of assertions about the ghost value and the program `p` of the
  thread `t`.  -/

namespace LockFreeSearchTree.MRLock

open Concurrent

/-- Calls that are scopes with a lock, over data with operations that do not fail. -/
structure Locked (w : ℕ) {D : Type} (DRet : D → Type) (δ C R : Type) where
  exec : (o : D) → δ → DRet o × δ
  resources : C → BitVec w
  fuel : C → ℕ
  scope : C → Prog D DRet Fault R

variable {w k : ℕ} {D : Type} {DRet : D → Type} {δ C R A : Type}

/-- The program of a call, with a buffer of `2 ^ k` cells. -/
def Locked.body (L : Locked w DRet δ C R) (k : ℕ) (c : C) : LockM w DRet (Except Fault R) :=
  scopedMrLock (bufferMask k) (L.fuel c) (L.resources c) (L.scope c)

/-! ### Conditions on the steps -/

inductive Condition where
  /-- Requests are for some resource. -/
  | asks
  /-- Tickets are taken while there is room for those of another round. -/
  | room
  /-- The head is moved past cells without bits. -/
  | released
deriving DecidableEq

theorem Condition.forall_iff {P : Condition → Prop} : (∀ x, P x) ↔ P .asks ∧ P .room ∧ P .released := by
  constructor
  · exact fun h => ⟨h _, h _, h _⟩
  · rintro ⟨hasks, hroom, hreleased⟩ x
    cases x with
    | asks => exact hasks
    | room => exact hroom
    | released => exact hreleased

/-- The step meets the condition. -/
def Locked.Meets (L : Locked w DRet δ C R) (k : ℕ) : Condition → Event (Op w D) C (Except Fault R) → State w δ → Prop
  | .asks, .invoke _ c, _ => L.resources c ≠ 0
  | .room, .access _ (.casTail expected _), s => s.lock.Succeeds s.lock.tail expected → expected.toNat + 2 ^ k < 2 ^ 32
  | .released, .access _ (.casHead expected _), s =>
      s.lock.Succeeds s.lock.head expected → (s.lock.buffer (expected &&& bufferMask k)).bits = 0
  | _, _, _ => True

/-- The steps that meet all conditions. -/
def Locked.Allowed (L : Locked w DRet δ C R) (k : ℕ) (e : Event (Op w D) C (Except Fault R)) (s : State w δ) : Prop :=
  ∀ x, L.Meets k x e s

/-- The steps that meet all conditions but `x`. -/
def Locked.AllowedBut (L : Locked w DRet δ C R) (k : ℕ) (x : Condition) (e : Event (Op w D) C (Except Fault R))
    (s : State w δ) : Prop := ∀ y, y ≠ x → L.Meets k y e s

section

variable (L : Locked w DRet δ C R) (k : ℕ) (e : Event (Op w D) C (Except Fault R)) (s : State w δ)

instance (x : Condition) : Decidable (L.Meets k x e s) :=
  match x, e with
  | .asks, .invoke _ c => inferInstanceAs (Decidable (L.resources c ≠ 0))
  | .room, .access _ (.casTail expected _) =>
      inferInstanceAs (Decidable (s.lock.Succeeds s.lock.tail expected → expected.toNat + 2 ^ k < 2 ^ 32))
  | .released, .access _ (.casHead expected _) =>
      inferInstanceAs (Decidable (s.lock.Succeeds s.lock.head expected → (s.lock.buffer (expected &&& bufferMask k)).bits = 0))
  | .asks, .access _ _ | .room, .invoke _ _ | .released, .invoke _ _
  | .room, .access _ (.casHead _ _) | .released, .access _ (.casTail _ _)
  | .room, .access _ .loadTail | .room, .access _ .loadHead | .room, .access _ (.loadSequence _)
  | .room, .access _ (.storeSequence _ _) | .room, .access _ (.loadBits _) | .room, .access _ (.storeBits _ _)
  | .room, .access _ (.data _) | .released, .access _ .loadTail | .released, .access _ .loadHead
  | .released, .access _ (.loadSequence _) | .released, .access _ (.storeSequence _ _) | .released, .access _ (.loadBits _)
  | .released, .access _ (.storeBits _ _) | .released, .access _ (.data _)
  | .asks, .respond _ _ _ | .room, .respond _ _ _ | .released, .respond _ _ _ => .isTrue trivial

instance (P : Condition → Prop) [DecidablePred P] : Decidable (∀ x, P x) := decidable_of_iff _ Condition.forall_iff.symm

instance : Decidable (L.Allowed k e s) := inferInstanceAs (Decidable (∀ x, L.Meets k x e s))

instance (x : Condition) : Decidable (L.AllowedBut k x e s) := inferInstanceAs (Decidable (∀ y, y ≠ x → L.Meets k y e s))

/-- It does not matter which thread takes the step. -/
theorem Locked.meets_thread (x : Condition) (o : Op w D) (t : ℕ) : L.Meets k x (.access t o) s ↔ L.Meets k x (.access 0 o) s := by
  cases x <;> cases o <;> rfl

end

/-! ### The ghost value -/

structure Ghost (w : ℕ) (A C R : Type) where
  queue : Queue w
  object : Atomic A C R
  /-- The ticket of the thread that is changing the data. -/
  dirty : Option ℕ

/-- The object is what the data stands for, and all requests collide. -/
structure Implements (L : Locked w DRet δ C R) (spec : A → C → Except Fault R → A → Prop) (rel : δ → A → Prop) : Prop where
  collide : ∀ c c', L.resources c &&& L.resources c' ≠ 0
  meets : ∀ c a d r d', rel d a → (L.scope c).outcome L.exec d = (r, d') → r ≠ .error .outOfFuel →
    ∃ a', spec a c r a' ∧ rel d' a'

/-- The state of the object and that of the data. -/
structure Stands (L : Locked w DRet δ C R) (rel : δ → A → Prop) (d : δ) (g : Ghost w A C (Except Fault R)) : Prop where
  asked : ∀ p < g.queue.tail, ∃ c, g.queue.resources p = L.resources c
  clean : g.dirty = none → rel d g.object.state
  dirty : ∀ p, g.dirty = some p → p < g.queue.tail ∧ g.queue.stage p = .waiting ∧ ∀ q < p, 4 ≤ g.queue.rank q

/-- What a step of another thread leaves the thread `u`. -/
structure Ghost.Spares (u : ℕ) (g g' : Ghost w A C R) : Prop where
  queue : MRLock.Spares u g.queue g'.queue
  threads : g'.object.threads u = g.object.threads u
  dirty : ∀ p, g'.dirty = some p → g.dirty = some p ∨ p < g.queue.tail ∧ g.queue.owner p ≠ u

/-- A step that changes neither the data nor the object. -/
structure Keeps (d d' : δ) (g g' : Ghost w A C R) : Prop where
  data : d' = d
  dirty : g'.dirty = g.dirty
  state : g'.object.state = g.object.state

/-- What is known of a thread: all its tickets but `own` have been released, and all it has dequeued but
`rec` have been recycled. -/
structure Thread (t : ℕ) (own rec : Option ℕ) (g : Queue w) : Prop where
  released : ∀ p < g.tail, g.owner p = t → some p ≠ own → 4 ≤ g.rank p
  recycled : ∀ p, 5 ≤ g.rank p → g.dequeuer p = t → some p ≠ rec → g.stage p = .recycled

/-- The thread `t` is in the call `c`, which holds the lock by the ticket `p`. -/
structure Inside (L : Locked w DRet δ C R) (g : Ghost w A C (Except Fault R)) (t p : ℕ) (c : C) : Prop where
  holds : g.queue.Holds t p
  resources : g.queue.resources p = L.resources c
  phase : g.object.threads t = some (.pending c)

/-- The world of the protocol. -/
abbrev LockWorld (w : ℕ) (δ C R A : Type) := World C (Except Fault R) (State w δ) (Ghost w A C (Except Fault R))

section

variable (L : Locked w DRet δ C R) (k : ℕ) (spec : A → C → Except Fault R → A → Prop) (rel : δ → A → Prop) (E : Prop)

/-- The data is considered only if `E` holds. -/
def protocol : Protocol (Op w D) C (Except Fault R) (State w δ) (Ghost w A C (Except Fault R)) where
  inv x := Inv k x.shared.lock x.ghost.queue ∧ (E → Stands L rel x.shared.data x.ghost)
  guar e x x' := (∀ u, u ≠ e.thread → x.ghost.Spares u x'.ghost) ∧
    (∀ t o, e = .access t (.data o) → ∃ p c, Inside L x.ghost t p c) ∧
    (∀ u, x'.ghost.object.call u = e.after u (x.ghost.object.call u)) ∧
    (Keeps x.shared.data x'.shared.data x.ghost x'.ghost ∨ ∃ p, x.ghost.queue.Holds e.thread p) ∧
    (E → ∃ ls, Transition.Run (Atomic.Step spec) x.ghost.object ls x'.ghost.object ∧ visible ls = e.visible.toList)
  idle t x := Thread t none none x.ghost.queue ∧ x.ghost.queue.watch t = .out ∧ x.ghost.object.threads t = none
  allowed := L.Allowed k

/-- The triple of assertions about the ghost value. -/
def Ens {α : Type} (t : ℕ) (P : Ghost w A C (Except Fault R) → Prop) (p : LockM w DRet α)
    (Q : α → Ghost w A C (Except Fault R) → Prop) : Prop :=
  Ensures (exec L.exec) (protocol L k spec rel E) t (fun x => P x.ghost) p (fun a x => Q a x.ghost)

end

/-! ### Assertions that are kept -/

section Kept

variable {t p q : ℕ} {g g' : Ghost w A C R} {own rec : Option ℕ}

/-- The other threads do not invalidate `P`. -/
def Kept (t : ℕ) (P : Ghost w A C R → Prop) : Prop := ∀ g g', g.Spares t g' → P g → P g'

namespace Kept

variable {P Q : Ghost w A C R → Prop}

theorem and (hP : Kept t P) (hQ : Kept t Q) : Kept t (fun g => P g ∧ Q g) :=
  fun g g' hs h => ⟨hP g g' hs h.1, hQ g g' hs h.2⟩

theorem imp (c : Prop) (hP : Kept t P) : Kept t (fun g => c → P g) := fun g g' hs h hc => hP g g' hs (h hc)

end Kept

theorem kept_thread : Kept t (fun g : Ghost w A C R => Thread t own rec g.queue) := by
  intro g g' hs h
  refine ⟨fun p hp ho hne => ?_, fun p hr hd hne => ?_⟩
  · by_cases hlt : p < g.queue.tail
    · rw [hs.queue.owner p hlt] at ho
      exact (h.released p hlt ho hne).trans (hs.queue.rank p)
    · exact absurd ho (hs.queue.taken p (not_lt.mp hlt) hp)
  · by_cases hle : 5 ≤ g.queue.rank p
    · rw [hs.queue.dequeuer p hle] at hd
      exact (hs.queue.recycling p hle hd).trans (h.recycled p hle hd hne)
    · exact absurd hd (hs.queue.dequeues p (not_le.mp hle) hr)

theorem kept_watch {x : Watch} : Kept t (fun g : Ghost w A C R => g.queue.watch t = x) := fun _ _ hs h => hs.queue.watch.trans h

theorem kept_phase {x : Option (Phase C R)} : Kept t (fun g : Ghost w A C R => g.object.threads t = x) :=
  fun _ _ hs h => hs.threads.trans h

/-- The ticket `p` of the thread `t`, at a stage before its release. -/
structure Own (t p : ℕ) (s : Stage) (res : BitVec w) (g : Queue w) : Prop where
  lt : p < g.tail
  owner : g.owner p = t
  stage : g.stage p = s
  resources : g.resources p = res

theorem Own.rank {s : Stage} {res : BitVec w} {g : Queue w} (h : Own t p s res g) : g.rank p = s.rank := by
  unfold Queue.rank
  rw [h.stage]

theorem kept_own {s : Stage} {res : BitVec w} (hs : s.rank < 4) : Kept t (fun g : Ghost w A C R => Own t p s res g.queue) := by
  intro g g' hsp h
  refine ⟨h.lt.trans_le hsp.queue.tail, (hsp.queue.owner p h.lt).trans h.owner, ?_, (hsp.queue.resources p h.lt).trans h.resources⟩
  refine (hsp.queue.mine p h.lt h.owner ?_).trans h.stage
  rw [h.rank]
  exact hs

theorem kept_clean : Kept t (fun g : Ghost w A C R => (p < g.queue.tail ∧ g.queue.owner p = t) ∧ g.dirty ≠ some p) := by
  rintro g g' hs ⟨⟨hlt, ho⟩, hne⟩
  refine ⟨⟨hlt.trans_le hs.queue.tail, (hs.queue.owner p hlt).trans ho⟩, fun hd => ?_⟩
  rcases hs.dirty p hd with hd | ⟨_, hu⟩
  · exact hne hd
  · exact hu ho

/-- The earlier requests the ticket `p` has been found not to wait for. -/
theorem kept_passed : Kept t (fun g : Ghost w A C R => (p < g.queue.tail ∧ q ≤ p) ∧ ∀ r < q, g.queue.Passed p r) := by
  rintro g g' hs ⟨⟨hp, hqp⟩, h⟩
  refine ⟨⟨hp.trans_le hs.queue.tail, hqp⟩, fun r hr => ?_⟩
  have hlt : r < g.queue.tail := (hr.trans_le hqp).trans hp
  cases h r hr with
  | inl h => exact .inl (h.trans (hs.queue.rank r))
  | inr h =>
      refine .inr ?_
      rw [hs.queue.resources r hlt, hs.queue.resources p hp]
      exact h

theorem kept_le_tail (n : ℕ) : Kept t (fun g : Ghost w A C R => n ≤ g.queue.tail) := fun _ _ hs h => h.trans hs.queue.tail

theorem kept_le_head (n : ℕ) : Kept t (fun g : Ghost w A C R => n ≤ g.queue.head) := fun _ _ hs h => h.trans hs.queue.head

theorem kept_rank (n : ℕ) : Kept t (fun g : Ghost w A C R => n ≤ g.queue.rank p) := fun _ _ hs h => h.trans (hs.queue.rank p)

/-- A ticket the thread `t` is recycling. -/
structure Recycles (t p : ℕ) (s : Stage) (g : Queue w) : Prop where
  dequeuer : g.dequeuer p = t
  stage : g.stage p = s

theorem kept_recycles {s : Stage} (hs : 5 ≤ s.rank) : Kept t (fun g : Ghost w A C R => Recycles t p s g.queue) := by
  intro g g' hsp h
  have hr : 5 ≤ g.queue.rank p := by
    unfold Queue.rank
    rw [h.stage]
    exact hs
  exact ⟨(hsp.queue.dequeuer p hr).trans h.dequeuer, (hsp.queue.recycling p hr h.dequeuer).trans h.stage⟩

/-- The cell of the ticket `p` is free for it, or the ticket has been taken. -/
def Ready (k p : ℕ) (g : Queue w) : Prop := p < g.tail ∨ p < 2 ^ k ∨ g.stage (p - 2 ^ k) = .recycled

theorem stage_of_rank {g : Queue w} (h : 7 ≤ g.rank p) : g.stage p = .recycled := by
  unfold Queue.rank at h
  cases hs : g.stage p <;> rw [hs] at h
  all_goals exact absurd h (by decide)

theorem kept_ready {k : ℕ} : Kept t (fun g : Ghost w A C R => Ready k p g.queue) := by
  rintro g g' hs (h | h | h)
  · exact .inl (h.trans_le hs.queue.tail)
  · exact .inr (.inl h)
  · refine .inr (.inr (stage_of_rank ?_))
    refine le_trans ?_ (hs.queue.rank _)
    unfold Queue.rank
    rw [h]
    decide

end Kept

/-! ### Rules -/

/-- A move of the thread `t` that does not release its ticket. -/
structure Quiet (L : Locked w DRet δ C R) (t : ℕ) (q q' : Queue w) : Prop where
  spares : ∀ u, t ≠ u → Spares u q q'
  waiting : ∀ p < q.tail, q.stage p = .waiting → q'.stage p = .waiting
  asked : ∀ p, q.tail ≤ p → p < q'.tail → ∃ c, q'.resources p = L.resources c

section Rules

variable {L : Locked w DRet δ C R} {spec : A → C → Except Fault R → A → Prop} {rel : δ → A → Prop} {E : Prop} {t : ℕ}
  {α β : Type} {P P' : Ghost w A C (Except Fault R) → Prop} {p : LockM w DRet α}
  {Q Q' : α → Ghost w A C (Except Fault R) → Prop}

theorem Quiet.refl (q : Queue w) : Quiet L t q q :=
  ⟨fun _ _ => .refl, fun _ _ h => h, fun _ hge hlt => absurd hlt (not_lt.mpr hge)⟩

theorem Stands.quiet {d : δ} {g : Ghost w A C (Except Fault R)} {q : Queue w} (h : Stands L rel d g) (hq : Quiet L t g.queue q) :
    Stands L rel d { g with queue := q } := by
  have hs := hq.spares (t + 1) (Nat.succ_ne_self t).symm
  refine ⟨fun p hp => ?_, h.clean, fun p hp => ?_⟩
  · by_cases hlt : p < g.queue.tail
    · obtain ⟨c, hc⟩ := h.asked p hlt
      exact ⟨c, (hs.resources p hlt).trans hc⟩
    · exact hq.asked p (not_lt.mp hlt) hp
  · obtain ⟨hlt, hst, hprev⟩ := h.dirty p hp
    exact ⟨hlt.trans_le hs.tail, hq.waiting p hlt hst, fun r hr => (hprev r hr).trans (hs.rank r)⟩

theorem Kept.stable (h : Kept t P) : (protocol L k spec rel E).Stable t (fun x => P x.ghost) := by
  rintro x x' _ hx ⟨e, hne, hguar, _⟩
  exact h _ _ (hguar.1 t hne.symm) hx

namespace Ens

theorem bind {f : α → LockM w DRet β} {B : β → Ghost w A C (Except Fault R) → Prop} (h : Ens L k spec rel E t P p Q)
    (hf : ∀ a, Ens L k spec rel E t (Q a) (f a) B) : Ens L k spec rel E t P (p >>= f) B := Ensures.bind h hf

theorem pure {a : α} (hQ : Kept t (Q a)) (h : ∀ g, P g → Q a g) : Ens L k spec rel E t P (Pure.pure a) Q :=
  Ensures.pure hQ.stable fun _ _ hp => h _ hp

theorem raise {e : Fault} : Ens L k spec rel E t P (.raise e : LockM w DRet α) Q := Ensures.raise

theorem pre (h : Ens L k spec rel E t P p Q) (hP : ∀ g, P' g → P g) : Ens L k spec rel E t P' p Q :=
  Ensures.pre h fun _ _ hp => hP _ hp

theorem ite {c : Prop} [Decidable c] {p' : LockM w DRet α} (hp : c → Ens L k spec rel E t P p Q)
    (hp' : ¬ c → Ens L k spec rel E t P p' Q) : Ens L k spec rel E t P (if c then p else p') Q := by
  by_cases hc : c
  · rw [if_pos hc]
    exact hp hc
  · rw [if_neg hc]
    exact hp' hc

/-- An operation on the lock that releases no ticket. -/
theorem quiet {o : Op w D} {B : o.Ret DRet → Ghost w A C (Except Fault R) → Prop} (hP : Kept t P) (hB : ∀ r, Kept t (B r))
    (ho : ∀ d, o ≠ .data d) (hdata : ∀ s r s', exec L.exec o s = .ok (r, s') → s'.data = s.data)
    (h : ∀ s g, Inv k s.lock g.queue → (E → Stands L rel s.data g) → P g → L.Allowed k (.access t o) s →
      ∀ r s', exec L.exec o s = .ok (r, s') → ∃ q, Inv k s'.lock q ∧ Quiet L t g.queue q ∧ B r { g with queue := q }) : Ens L k spec rel E t P (perform o) B := by
  refine Ensures.perform hP.stable (fun r => (hB r).stable) fun x hx hp hall r s' hexec => ?_
  obtain ⟨q, hinv, hq, hb⟩ := h x.shared x.ghost hx.1 hx.2 hp hall r s' hexec
  have hd := hdata _ _ _ hexec
  refine ⟨{ x.ghost with queue := q }, ⟨hinv, fun hE => ?_⟩, ⟨fun u hu => ⟨hq.spares u (Ne.symm hu), rfl, fun _ h => .inl h⟩, ?_,
    fun _ => rfl, .inl ⟨hd, rfl, rfl⟩, fun _ => ⟨[], .nil, rfl⟩⟩, hb⟩
  · show Stands L rel s'.data _
    rw [hd]
    exact (hx.2 hE).quiet hq
  · rintro u d he
    injection he with _ he
    exact absurd he (ho d)

/-- A load. -/
theorem load {o : Op w D} {f : MRLock w → o.Ret DRet} {B : o.Ret DRet → Ghost w A C (Except Fault R) → Prop} (hP : Kept t P)
    (hB : ∀ r, Kept t (B r)) (ho : ∀ d, o ≠ .data d) (hexec : ∀ s, exec L.exec o s = .ok (f s.lock, s))
    (h : ∀ l g, Inv k l g.queue → P g → B (f l) g) : Ens L k spec rel E t P (perform o) B := by
  refine quiet hP hB ho (fun s r s' he => ?_) fun s g hi _ hp _ r s' he => ?_
  · rw [hexec] at he
    cases he
    rfl
  · rw [hexec] at he
    cases he
    exact ⟨g.queue, hi, .refl _, h _ _ hi hp⟩

end Ens

end Rules

/-! ### Locking -/

section Programs

variable {L : Locked w DRet δ C R} {spec : A → C → Except Fault R → A → Prop} {rel : δ → A → Prop} {E : Prop} {t p : ℕ}
  {res : BitVec w} {c : C}

/-- The thread `t` is in the call `c` and not in the loop of `Unlock`. -/
def Frame (t : ℕ) (c : C) (g : Ghost w A C (Except Fault R)) : Prop :=
  g.queue.watch t = .out ∧ g.object.threads t = some (.pending c)

theorem kept_frame : Kept t (Frame t c : Ghost w A C (Except Fault R) → Prop) := kept_watch.and kept_phase

/-- The thread `t` has only the ticket `p`, by which it has not changed the data. -/
structure Only (E : Prop) (t p : ℕ) (s : Stage) (res : BitVec w) (c : C) (g : Ghost w A C (Except Fault R)) : Prop where
  own : Own t p s res g.queue
  thread : Thread t (some p) none g.queue
  frame : Frame t c g
  clean : E → g.dirty ≠ some p

theorem kept_only {s : Stage} (hs : s.rank < 4) : Kept t (Only E t p s res c : Ghost w A C (Except Fault R) → Prop) := by
  intro g g' hsp h
  refine ⟨kept_own hs _ _ hsp h.own, kept_thread _ _ hsp h.thread, kept_frame _ _ hsp h.frame, fun hE => ?_⟩
  exact (kept_clean _ _ hsp ⟨⟨h.own.lt, h.own.owner⟩, h.clean hE⟩).2

theorem Thread.take {g : Queue w} (h : Thread t none none g) : Thread t (some g.tail) none (g.take t res) := by
  refine ⟨fun q hq ho hne => ?_, fun q hr hd _ => ?_⟩
  · have hq' : q ≠ g.tail := fun he => hne (congrArg some he)
    rw [Queue.owner_take_ne hq'] at ho
    rw [Queue.rank_of_stage (Queue.stage_take_ne hq')]
    exact h.released q (lt_of_le_of_ne (Nat.lt_succ_iff.mp hq) hq') ho (by simp)
  · have hq' : q ≠ g.tail := by
      rintro rfl
      unfold Queue.rank at hr
      rw [Queue.stage_take_self] at hr
      exact absurd hr (by decide)
    rw [Queue.stage_take_ne hq']
    rw [Queue.rank_of_stage (Queue.stage_take_ne hq')] at hr
    exact h.recycled q hr hd (by simp)

/-- The other tickets are not concerned. -/
theorem Thread.advance {own rec : Option ℕ} {g : Queue w} {s : Stage} (h : Thread t own rec g)
    (howner : s.rank < 4 → g.owner p = t → some p = own) (hrec : 5 ≤ s.rank → g.dequeuer p = t → some p = rec) : Thread t own rec (g.advance p s) := by
  refine ⟨fun q hq ho hne => ?_, fun q hr hd hne => ?_⟩
  · by_cases hqp : q = p
    · subst hqp
      have hrank : (g.advance q s).rank q = s.rank := by simp [Queue.rank]
      rw [hrank]
      by_contra hlt
      exact hne (howner (not_le.mp hlt) ho)
    · rw [Queue.rank_of_stage (Queue.stage_advance_ne hqp)]
      exact h.released q hq ho hne
  · have hqp : q ≠ p := by
      rintro rfl
      refine hne (hrec ?_ hd)
      unfold Queue.rank at hr
      rwa [Queue.stage_advance_self] at hr
    rw [Queue.stage_advance_ne hqp]
    rw [Queue.rank_of_stage (Queue.stage_advance_ne hqp)] at hr
    exact h.recycled q hr hd hne

theorem Quiet.take {k : ℕ} {l : MRLock w} {g : Queue w} (h : Inv k l g) (hres : ∃ c, res = L.resources c) :
    Quiet L t g (g.take t res) := by
  refine ⟨fun u hu => .take h hu, fun q hq hs => (Queue.stage_take_ne hq.ne).trans hs, fun q hge hlt => ?_⟩
  have hq : q = g.tail := le_antisymm (Nat.lt_succ_iff.mp hlt) hge
  obtain ⟨c, hc⟩ := hres
  refine ⟨c, ?_⟩
  rw [hq]
  simpa [Queue.take] using hc

/-- The own ticket goes on to its next stage. -/
theorem Quiet.advance {g : Queue w} {s s' : Stage} (h : Own t p s res g) (hs : s.rank < 3) (hle : s.rank ≤ s'.rank)
    (hs' : s'.rank < 4) : Quiet L t g (g.advance p s') := by
  have hr := h.rank
  refine ⟨fun u hu => .advance (by omega) (fun _ => by omega) (fun _ he => hu (h.owner.symm.trans he)) fun hge => absurd hge (by omega),
    fun q _ hq => ?_, fun q hge hlt => absurd hlt (not_lt.mpr hge)⟩
  have hqp : q ≠ p := by
    rintro rfl
    rw [h.stage] at hq
    rw [hq] at hs
    exact absurd hs (by decide)
  rw [Queue.stage_advance_ne hqp]
  exact hq

theorem enqueue_ens (fuel : ℕ) (hk : k ≤ 31) (hres : res ≠ 0) (hc : ∃ c, res = L.resources c) :
    Ens L k spec rel E t (fun g => Thread t none none g.queue ∧ Frame t c g) (enqueue (bufferMask k) fuel)
      (fun pos g => Only E t pos.toNat .taken res c g) := by
  have hbase : Kept t (fun g : Ghost w A C (Except Fault R) => Thread t none none g.queue ∧ Frame t c g) :=
    kept_thread.and kept_frame
  induction fuel with
  | zero => exact .raise
  | succ fuel ih =>
      refine Ens.bind (Q := fun pos g => (Thread t none none g.queue ∧ Frame t c g) ∧ pos.toNat ≤ g.queue.tail)
        (Ens.load (f := fun l => l.tail) hbase (fun _ => hbase.and (kept_le_tail _)) (fun _ h => by cases h) (fun _ => rfl)
          fun l g hi hp => ⟨hp, ?_⟩) fun pos => ?_
      · rw [hi.toNat_tail]
      refine Ens.bind (Q := fun seq g => (Thread t none none g.queue ∧ Frame t c g) ∧
          (seq.toInt - pos.toInt = 0 → Ready k pos.toNat g.queue))
        (Ens.load (f := fun l => (l.buffer (pos &&& bufferMask k)).sequence) (hbase.and (kept_le_tail _))
          (fun _ => hbase.and (kept_ready.imp _)) (fun _ h => by cases h) (fun _ => rfl) fun l g hi hp => ⟨hp.1, fun hdif => ?_⟩)
        fun seq => ?_
      · rw [and_bufferMask hk] at hdif
        refine hi.ready hp.2 ?_
        rw [ofNat_self]
        exact BitVec.toInt_inj.mp (sub_eq_zero.mp hdif)
      refine .ite (fun hdif => ?_) fun _ => ih.pre fun g h => h.1
      refine Ens.bind (Q := fun ok g => (ok = true → Only E t pos.toNat .taken res c g) ∧
          (ok = false → Thread t none none g.queue ∧ Frame t c g))
        (Ens.quiet (hbase.and (kept_ready.imp _)) (fun ok => ((kept_only (by decide)).imp _).and (hbase.imp _))
          (fun _ h => by cases h) (fun s r s' he => ?_) fun s g hi hst hp hall r s' he => ?_) fun ok => ?_
      · cases he
        rfl
      · simp only [exec, onLock] at he
        by_cases hsucc : s.lock.Succeeds s.lock.tail pos
        · -- the ticket is that of the tail
          rw [if_pos hsucc] at he
          cases he
          have htail : pos.toNat = g.queue.tail := by rw [← hsucc.1, hi.toNat_tail]
          have hready := (hp.2 hdif).resolve_left (by omega)
          rw [htail] at hready
          have hroom : pos.toNat + 2 ^ k < 2 ^ 32 := hall .room hsucc
          have hinv := hi.take (t := t) hready (by omega) hres (s.lock.attempts + 1)
          refine ⟨g.queue.take t res, ?_, .take hi hc, fun _ => ?_, fun hf => by cases hf⟩
          · rwa [← htail, ofNat_succ] at hinv
          · rw [htail]
            refine ⟨⟨Nat.lt_succ_self _, by simp [Queue.take], Queue.stage_take_self, by simp [Queue.take]⟩, hp.1.1.take, hp.1.2,
              fun hE hd => ?_⟩
            exact absurd ((hst hE).dirty _ hd).1 (lt_irrefl _)
        · rw [if_neg hsucc] at he
          cases he
          exact ⟨g.queue, hi.attempts _, .refl _, fun hf => (by cases hf), fun _ => hp.1⟩
      · cases ok with
        | true => exact .pure (kept_only (by decide)) fun g h => h.1 rfl
        | false => exact ih.pre fun g h => h.2 rfl

/-- The own ticket goes on, and nothing else is known to change. -/
theorem Only.advance {g : Ghost w A C (Except Fault R)} {s s' : Stage} (h : Only E t p s res c g) (hs' : s'.rank < 4) :
    Only E t p s' res c { g with queue := g.queue.advance p s' } :=
  ⟨⟨h.own.lt, h.own.owner, Queue.stage_advance_self, h.own.resources⟩,
    h.thread.advance (fun _ _ => rfl) fun hge => absurd hge (by omega), h.frame, h.clean⟩

/-- A store to the cell of the own ticket by which it goes on to its next stage. -/
theorem advance_ens {o : Op w D} {pos : BitVec 32} {s s' : Stage} (ho : ∀ d, o ≠ .data d)
    (hdata : ∀ x r x', exec L.exec o x = .ok (r, x') → x'.data = x.data) (hs : s.rank < 3) (hle : s.rank ≤ s'.rank)
    (hs' : 1 ≤ s'.rank ∧ s'.rank < 4)
    (hcell : ∀ (x : State w δ) r x' (g : Queue w), exec L.exec o x = .ok (r, x') → Own t pos.toNat s res g →
      x.lock.buffer (slot k pos.toNat) = g.content (2 ^ k) pos.toNat →
      Touches x.lock x'.lock (slot k pos.toNat) ((g.advance pos.toNat s').content (2 ^ k) pos.toNat)) :
    Ens L k spec rel E t (Only E t pos.toNat s res c) (perform o) (fun _ => Only E t pos.toNat s' res c) := by
  refine .quiet (kept_only (by omega)) (fun _ => kept_only hs'.2) ho hdata fun x g hi _ hp _ r x' he => ?_
  have hr := hp.own.rank
  have hlast : g.queue.tail ≤ pos.toNat + 2 ^ k := hi.last_of_rank (by omega)
  refine ⟨g.queue.advance pos.toNat s', ?_, .advance hp.own hs hle hs'.2, hp.advance hs'.2⟩
  refine hi.advance hp.own.lt hlast (hcell x r x' g.queue he hp.own (hi.cell _ hp.own.lt hlast)) (fun _ => ⟨hs'.1, hs'.2.le⟩)
    (fun hlt => ?_) fun _ hrel => ?_
  · have := hi.past _ hlt
    omega
  · rw [hrel] at hs'
    exact absurd hs'.2 (by decide)

/-- The requests before `q` have been found not to hold up the ticket `p`. -/
structure Spins (k p q : ℕ) (g : Queue w) : Prop where
  range : p < g.tail ∧ q ≤ p
  passed : ∀ r < q, g.Passed p r
  near : p < q + 2 ^ k

theorem kept_spins {q : ℕ} : Kept t (fun g : Ghost w A C (Except Fault R) => Spins k p q g.queue) := by
  intro g g' hs h
  obtain ⟨hrange, hpassed⟩ := kept_passed _ _ hs ⟨h.range, h.passed⟩
  exact ⟨hrange, hpassed, h.near⟩

theorem Spins.next {g : Queue w} {q : ℕ} (h : Spins k p q g) (hq : q ≠ p) (hpassed : g.Passed p q) : Spins k p (q + 1) g := by
  obtain ⟨hrange, hall, hnear⟩ := h
  refine ⟨⟨hrange.1, by omega⟩, fun r hr => ?_, by omega⟩
  rcases Nat.lt_succ_iff_lt_or_eq.mp hr with hlt | rfl
  · exact hall r hlt
  · exact hpassed

theorem spin_ens (fuel : ℕ) {pos : BitVec 32} (spinPos : BitVec 32) (hk : k ≤ 31) :
    Ens L k spec rel E t (fun g => Only E t pos.toNat .waiting res c g ∧ Spins k pos.toNat spinPos.toNat g.queue)
      (spin (bufferMask k) pos res fuel spinPos)
      (fun _ g => Only E t pos.toNat .waiting res c g ∧ Spins k pos.toNat pos.toNat g.queue) := by
  have hkept : ∀ q, Kept t (fun g : Ghost w A C (Except Fault R) =>
      Only E t pos.toNat .waiting res c g ∧ Spins k pos.toNat q g.queue) := fun q => (kept_only (by decide)).and kept_spins
  induction fuel generalizing spinPos with
  | zero => exact .raise
  | succ fuel ih =>
      refine .ite (fun hne => ?_) fun heq => ?_
      · have hnat : spinPos.toNat ≠ pos.toNat := fun he => hne (BitVec.eq_of_toNat_eq he)
        have hsucc : ∀ g : Queue w, Spins k pos.toNat spinPos.toNat g → (spinPos + 1).toNat = spinPos.toNat + 1 := by
          intro g h
          have hle := h.range.2
          have := pos.isLt
          rw [← ofNat_succ, toNat_ofNat (by omega)]
        refine Ens.bind (Q := fun seq g => (Only E t pos.toNat .waiting res c g ∧ Spins k pos.toNat spinPos.toNat g.queue) ∧
            (pos - seq > bufferMask k → Spins k pos.toNat (spinPos + 1).toNat g.queue))
          (Ens.load (f := fun l => (l.buffer (spinPos &&& bufferMask k)).sequence) (hkept _)
            (fun _ => (hkept _).and (kept_spins.imp _)) (fun _ h => by cases h) (fun _ => rfl) fun l g hi hp => ⟨hp, fun hskip => ?_⟩)
          fun seq => .ite (fun hskip => ?_) fun _ => ?_
        · rw [and_bufferMask hk, ← ofNat_self pos] at hskip
          rw [hsucc _ hp.2]
          have hle := hp.2.range.2
          exact hp.2.next hnat (.inl (hi.skip_sequence hp.1.own.lt (by omega) hp.2.near hskip))
        · exact (ih _).pre fun g h => ⟨h.1.1, h.2 hskip⟩
        · refine Ens.bind (Q := fun bits g => (Only E t pos.toNat .waiting res c g ∧ Spins k pos.toNat spinPos.toNat g.queue) ∧
              (bits &&& res = 0 → Spins k pos.toNat (spinPos + 1).toNat g.queue))
            (Ens.load (f := fun l => (l.buffer (spinPos &&& bufferMask k)).bits) ((hkept _).and (kept_spins.imp _))
              (fun _ => (hkept _).and (kept_spins.imp _)) (fun _ h => by cases h) (fun _ => rfl) fun l g hi hp => ⟨hp.1, fun hskip => ?_⟩)
            fun bits => .ite (fun hskip => (ih _).pre fun g h => ⟨h.1.1, h.2 hskip⟩) fun _ => (ih _).pre fun g h => h.1
          rw [and_bufferMask hk, ← hp.1.1.own.resources] at hskip
          rw [hsucc _ hp.1.2]
          have hle := hp.1.2.range.2
          exact hp.1.2.next hnat (hi.skip_bits hp.1.1.own.lt (by omega) hskip)
      · have he : spinPos = pos := not_not.mp heq
        exact .pure (hkept _) fun g h => he ▸ h

/-- `Lock` returns when the thread holds the lock. -/
theorem lock_ens (fuel : ℕ) (hk : k ≤ 31) (hres : res ≠ 0) (hc : ∃ c, res = L.resources c) :
    Ens L k spec rel E t (fun g => Thread t none none g.queue ∧ Frame t c g) (lock (bufferMask k) fuel res)
      (fun pos g => Only E t pos.toNat .waiting res c g ∧ ∀ q < pos.toNat, g.queue.Passed pos.toNat q) := by
  have hkept : ∀ pos : BitVec 32, Kept t (fun g : Ghost w A C (Except Fault R) =>
      Only E t pos.toNat .waiting res c g ∧ ∀ q < pos.toNat, g.queue.Passed pos.toNat q) := by
    intro pos g g' hs h
    exact ⟨kept_only (by decide) _ _ hs h.1, (kept_passed _ _ hs ⟨⟨h.1.own.lt, le_rfl⟩, h.2⟩).2⟩
  refine Ens.bind (enqueue_ens fuel hk hres hc) fun pos => ?_
  refine Ens.bind (Q := fun _ => Only E t pos.toNat .written res c) ?_ fun _ => ?_
  · refine advance_ens (fun _ h => by cases h) (fun x r x' he => ?_) (by decide) (by decide) (by decide)
      fun x r x' g he ho hcell => ?_
    · cases he
      rfl
    · cases he
      have hnew : (g.advance pos.toNat .written).content (2 ^ k) pos.toNat = { x.lock.buffer (slot k pos.toNat) with bits := res } := by
        rw [hcell]
        unfold Queue.content
        rw [Queue.stage_advance_self, ho.stage]
        show (⟨_, g.resources _⟩ : Cell w) = _
        rw [ho.resources]
      rw [hnew, and_bufferMask hk]
      exact touches_setBits _ _ _
  refine Ens.bind (Q := fun _ => Only E t pos.toNat .waiting res c) ?_ fun _ => ?_
  · refine advance_ens (fun _ h => by cases h) (fun x r x' he => ?_) (by decide) (by decide) (by decide)
      fun x r x' g he ho hcell => ?_
    · cases he
      rfl
    · cases he
      have hnew : (g.advance pos.toNat .waiting).content (2 ^ k) pos.toNat =
          { x.lock.buffer (slot k pos.toNat) with sequence := pos + 1 } := by
        rw [hcell]
        unfold Queue.content
        rw [Queue.stage_advance_self, ho.stage]
        show (⟨BitVec.ofNat 32 (pos.toNat + 1), _⟩ : Cell w) = _
        rw [ofNat_succ]
        rfl
      rw [hnew, and_bufferMask hk]
      exact touches_setSequence _ _ _
  refine Ens.bind (Q := fun spinPos g => Only E t pos.toNat .waiting res c g ∧ Spins k pos.toNat spinPos.toNat g.queue)
    (Ens.load (f := fun l => l.head) (kept_only (by decide)) (fun _ => (kept_only (by decide)).and kept_spins)
      (fun _ h => by cases h) (fun _ => rfl) fun l g hi hp => ⟨hp, ?_⟩) fun spinPos => ?_
  · -- everything before the head has been released
    have hhead : g.queue.head ≤ pos.toNat := by
      by_contra hlt
      have := hi.past _ (not_le.mp hlt)
      rw [hp.own.rank] at this
      exact absurd this (by decide)
    have hlt := hp.own.lt
    have hle := hi.tail_le
    rw [hi.toNat_head]
    refine ⟨⟨hlt, hhead⟩, fun r hr => ?_, by omega⟩
    have := hi.past r hr
    exact .inl (by omega)
  · refine Ens.bind (spin_ens fuel spinPos hk) fun _ => ?_
    exact .pure (hkept pos) fun g h => ⟨h.1, h.2.passed⟩

/-! ### Unlocking -/

/-- The call `c` of the thread `t` has taken effect. -/
def Leaves (t : ℕ) (c : C) (r : Except Fault R) (g : Ghost w A C (Except Fault R)) : Prop :=
  Thread t none none g.queue ∧ g.object.threads t = some (.done c r)

variable {r : Except Fault R}

theorem kept_leaves : Kept t (Leaves t c r : Ghost w A C (Except Fault R) → Prop) := kept_thread.and kept_phase

theorem Thread.look {own rec : Option ℕ} {g : Queue w} {u : ℕ} {x : Watch} (h : Thread t own rec g) : Thread t own rec (g.look u x) :=
  ⟨h.released, h.recycled⟩

theorem Quiet.look {g : Queue w} {x : Watch} : Quiet L t g (g.look t x) :=
  ⟨fun _ hu => .look hu, fun _ _ h => h, fun _ hge hlt => absurd hlt (not_lt.mpr hge)⟩

theorem Thread.recycle {own : Option ℕ} {g : Queue w} (h : Thread t own (some p) g) : Thread t own none (g.advance p .recycled) := by
  refine ⟨(h.advance (fun hlt => absurd hlt (by decide)) fun _ _ => rfl).released, fun q hr hd _ => ?_⟩
  by_cases hqp : q = p
  · rw [hqp, Queue.stage_advance_self]
  · rw [Queue.stage_advance_ne hqp]
    rw [Queue.rank_of_stage (Queue.stage_advance_ne hqp)] at hr
    exact h.recycled q hr hd fun he => hqp (Option.some.inj he)

theorem watch_look {g : Queue w} {x : Watch} : (g.look t x).watch t = x := by simp [Queue.look]

/-- The thread looks for the head. -/
theorem loadHead_ens : Ens L k spec rel E t (Leaves t c r) (perform .loadHead)
    (fun pos g => Leaves t c r g ∧ g.queue.watch t = .seen pos.toNat ∧ pos.toNat ≤ g.queue.head) := by
  refine .quiet kept_leaves (fun pos => kept_leaves.and (kept_watch.and (kept_le_head _))) (fun _ h => by cases h)
    (fun s r s' he => ?_) fun s g hi _ hp _ r s' he => ?_
  · cases he
    rfl
  · cases he
    refine ⟨g.queue.look t (.seen g.queue.head), hi.look fun _ _ _ => .inr rfl, .look, ⟨hp.1.look, hp.2⟩, ?_, ?_⟩
    · rw [hi.toNat_head]
      exact watch_look
    · rw [hi.toNat_head]
      exact le_rfl

/-- A cell the thread has dequeued goes on to its next stage. -/
theorem recycle_step {o : Op w D} {pos : BitVec 32} (s s' : Stage) {Q : Ghost w A C (Except Fault R) → Prop} (ho : ∀ d, o ≠ .data d)
    (hdata : ∀ x r x', exec L.exec o x = .ok (r, x') → x'.data = x.data) (hs : 5 ≤ s.rank ∧ s.rank < 7)
    (hle : s.rank ≤ s'.rank) (hQ : Kept t Q)
    (hcell : ∀ (x : State w δ) r x' (g : Queue w), exec L.exec o x = .ok (r, x') → Recycles t pos.toNat s g →
      x.lock.buffer (slot k pos.toNat) = g.content (2 ^ k) pos.toNat →
      Touches x.lock x'.lock (slot k pos.toNat) ((g.advance pos.toNat s').content (2 ^ k) pos.toNat))
    (hpost : ∀ g : Ghost w A C (Except Fault R), Recycles t pos.toNat s g.queue → Thread t none (some pos.toNat) g.queue →
      g.object.threads t = some (.done c r) → Q { g with queue := g.queue.advance pos.toNat s' }) :
    Ens L k spec rel E t (fun g => Recycles t pos.toNat s g.queue ∧ Thread t none (some pos.toNat) g.queue ∧
      g.object.threads t = some (.done c r)) (perform o) (fun _ => Q) := by
  refine .quiet ((kept_recycles hs.1).and (kept_thread.and kept_phase)) (fun _ => hQ) ho hdata fun x g hi _ hp _ y x' he => ?_
  obtain ⟨hrec, hthread, hphase⟩ := hp
  have hr : g.queue.rank pos.toNat = s.rank := by
    unfold Queue.rank
    rw [hrec.stage]
  have hlt : pos.toNat < g.queue.tail := hi.lt_of_rank (by omega)
  have hlast : g.queue.tail ≤ pos.toNat + 2 ^ k := hi.last_of_rank (by omega)
  have hhead : pos.toNat < g.queue.head := by
    by_contra hge
    have := (hi.queued _ (not_lt.mp hge) hlt).2
    omega
  refine ⟨g.queue.advance pos.toNat s', ?_, ⟨fun u hu => ?_, fun q _ hq => ?_, fun _ hge hlt => absurd hlt (not_lt.mpr hge)⟩,
    hpost g hrec hthread hphase⟩
  · refine hi.advance hlt hlast (hcell x y x' g.queue he hrec (hi.cell _ hlt hlast)) (fun hge => absurd hge (by omega))
      (fun _ => by omega) fun heq => absurd heq (by omega)
  · exact .advance (by omega) (fun h => absurd h (by omega)) (fun h => absurd h (by omega)) fun _ he => hu (hrec.dequeuer.symm.trans he)
  · have hqp : q ≠ pos.toNat := by
      rintro rfl
      rw [hrec.stage] at hq
      rw [hq] at hs
      exact absurd hs.1 (by decide)
    rw [Queue.stage_advance_ne hqp]
    exact hq

theorem recycle_ens (hk : k ≤ 31) (pos : BitVec 32) :
    Ens L k spec rel E t (fun g => Recycles t pos.toNat .dequeued g.queue ∧ Thread t none (some pos.toNat) g.queue ∧
      g.object.threads t = some (.done c r)) (recycle (bufferMask k) pos) (fun _ => Leaves t c r) := by
  refine Ens.bind (Q := fun _ g => Recycles t pos.toNat .cleared g.queue ∧ Thread t none (some pos.toNat) g.queue ∧
    g.object.threads t = some (.done c r)) ?_ fun _ => ?_
  · refine recycle_step .dequeued .cleared (fun _ h => by cases h) (fun x y x' he => ?_) (by decide) (by decide)
      ((kept_recycles (by decide)).and (kept_thread.and kept_phase)) (fun x y x' g he hrec hcell => ?_) fun g hrec hthread hphase => ?_
    · cases he
      rfl
    · cases he
      have hnew : (g.advance pos.toNat .cleared).content (2 ^ k) pos.toNat =
          { x.lock.buffer (slot k pos.toNat) with bits := BitVec.allOnes w } := by
        rw [hcell]
        unfold Queue.content
        rw [Queue.stage_advance_self, hrec.stage]
      rw [hnew, and_bufferMask hk]
      exact touches_setBits _ _ _
    · exact ⟨⟨hrec.dequeuer, Queue.stage_advance_self⟩, hthread.advance (fun hlt => absurd hlt (by decide)) fun _ _ => rfl, hphase⟩
  · refine recycle_step .cleared .recycled (fun _ h => by cases h) (fun x y x' he => ?_) (by decide) (by decide) kept_leaves
      (fun x y x' g he hrec hcell => ?_) fun g hrec hthread hphase => ?_
    · cases he
      rfl
    · cases he
      have hnew : (g.advance pos.toNat .recycled).content (2 ^ k) pos.toNat =
          { x.lock.buffer (slot k pos.toNat) with sequence := pos + bufferMask k + 1 } := by
        rw [hcell]
        unfold Queue.content
        rw [Queue.stage_advance_self, hrec.stage, ← ofNat_round]
      rw [hnew, and_bufferMask hk]
      exact touches_setSequence _ _ _
    · exact ⟨hthread.recycle, hphase⟩

theorem Thread.dequeue {g : Queue w} (h : Thread t none none g) : Thread t none (some g.head) (g.dequeue t) := by
  refine ⟨fun q hq ho _ => ?_, fun q hr hd hne => ?_⟩
  · by_cases hqh : q = g.head
    · unfold Queue.rank
      rw [hqh, Queue.stage_dequeue_self]
      decide
    · rw [Queue.rank_of_stage (Queue.stage_dequeue_ne hqh)]
      exact h.released q hq ho (by simp)
  · have hqh : q ≠ g.head := fun he => hne (congrArg some he)
    have hd' : g.dequeuer q = t := by simpa [Queue.dequeue, hqh] using hd
    rw [Queue.stage_dequeue_ne hqh]
    rw [Queue.rank_of_stage (Queue.stage_dequeue_ne hqh)] at hr
    exact h.recycled q hr hd' (by simp)

/-- The loop of `Unlock` has found the head at `pos`. -/
def Looks (t : ℕ) (c : C) (r : Except Fault R) (pos : BitVec 32) (g : Ghost w A C (Except Fault R)) : Prop :=
  Leaves t c r g ∧ g.queue.watch t = .seen pos.toNat ∧ pos.toNat ≤ g.queue.head

theorem kept_looks {pos : BitVec 32} : Kept t (Looks t c r pos : Ghost w A C (Except Fault R) → Prop) :=
  kept_leaves.and (kept_watch.and (kept_le_head _))

theorem tryDequeue_ens (hk : k ≤ 31) (pos : BitVec 32) :
    Ens L k spec rel E t (Looks t c r pos) (tryDequeue (bufferMask k) pos) (fun _ => Leaves t c r) := by
  refine Ens.bind (Q := fun seq g => Looks t c r pos g ∧ (seq.toInt - (pos + 1).toInt = 0 → 3 ≤ g.queue.rank pos.toNat))
    (Ens.load (f := fun l => (l.buffer (pos &&& bufferMask k)).sequence) kept_looks (fun _ => kept_looks.and ((kept_rank _).imp _))
      (fun _ h => by cases h) (fun _ => rfl) fun l g hi hp => ⟨hp, fun hdif => ?_⟩)
    fun seq => .ite (fun hdif => ?_) fun _ => .pure kept_leaves fun g h => h.1.1
  · rw [and_bufferMask hk] at hdif
    refine hi.published (hp.2.2.trans hi.order) ?_
    rw [ofNat_succ]
    exact BitVec.toInt_inj.mp (sub_eq_zero.mp hdif)
  refine Ens.bind (Q := fun ok g => (ok = true → Recycles t pos.toNat .dequeued g.queue ∧ Thread t none (some pos.toNat) g.queue ∧
      g.object.threads t = some (.done c r)) ∧ (ok = false → Leaves t c r g))
    (Ens.quiet (kept_looks.and ((kept_rank _).imp _))
      (fun ok => (((kept_recycles (by decide)).and (kept_thread.and kept_phase)).imp _).and (kept_leaves.imp _))
      (fun _ h => by cases h) (fun s x s' he => ?_) fun s g hi _ hp hall x s' he => ?_) fun ok => ?_
  · cases he
    rfl
  · simp only [exec, onLock] at he
    by_cases hsucc : s.lock.Succeeds s.lock.head pos
    · -- the cell at the head has no bits, so its request has been released
      rw [if_pos hsucc] at he
      cases he
      have hhead : pos.toNat = g.queue.head := by rw [← hsucc.1, hi.toNat_head]
      have hrank := hp.2 hdif
      have hbits : (s.lock.buffer (pos &&& bufferMask k)).bits = 0 := hall .released hsucc
      rw [and_bufferMask hk] at hbits
      have hrel := hi.released_of_bits (hi.lt_of_rank (by omega)) hrank hhead.ge hbits
      have hlt : g.queue.head < g.queue.tail := hhead ▸ hi.lt_of_rank (by omega)
      rw [hhead] at hrel ⊢
      have hinv := (hi.look (t := t) (x := .fresh) fun _ _ _ => .inl rfl).dequeue (t := t) hlt hrel watch_look (s.lock.attempts + 1)
      refine ⟨(g.queue.look t .fresh).dequeue t, ?_, ⟨fun u hu => ?_, fun q _ hq => ?_, fun _ hge hlt => absurd hlt (not_lt.mpr hge)⟩,
        fun _ => ⟨⟨by simp [Queue.dequeue, Queue.look], Queue.stage_dequeue_self⟩, hp.1.1.1.look.dequeue, hp.1.1.2⟩,
        fun hf => (by cases hf)⟩
      · replace hinv : Inv k _ ((g.queue.look t .fresh).dequeue t) := hinv
        rwa [show (g.queue.look t .fresh).head = pos.toNat from hhead.symm, ofNat_succ] at hinv
      · exact (Spares.look hu).trans (.dequeue hrel hu)
      · have hqh : q ≠ (g.queue.look t .fresh).head := by
          rintro rfl
          have hrel' : g.queue.stage (g.queue.look t .fresh).head = .released := hrel
          rw [hrel'] at hq
          cases hq
        exact (Queue.stage_dequeue_ne hqh).trans hq
    · rw [if_neg hsucc] at he
      cases he
      exact ⟨g.queue, hi.attempts _, .refl _, fun hf => (by cases hf), fun _ => hp.1.1⟩
  · cases ok with
    | true => exact (recycle_ens hk pos).pre fun g h => h.1 rfl
    | false => exact .pure kept_leaves fun g h => h.2 rfl

/-- The loop of `Unlock` ends when the head has bits. -/
theorem dequeue_ens (hk : k ≤ 31) (fuel : ℕ) (pos : BitVec 32) :
    Ens L k spec rel E t (Looks t c r pos) (dequeue (bufferMask k) fuel pos)
      (fun _ g => Leaves t c r g ∧ g.queue.watch t = .out) := by
  induction fuel generalizing pos with
  | zero => exact .raise
  | succ fuel ih =>
      refine Ens.bind (Q := fun bits g => (bits = 0 → Looks t c r pos g) ∧ (bits ≠ 0 → Leaves t c r g ∧ g.queue.watch t = .out))
        (Ens.quiet kept_looks (fun _ => (kept_looks.imp _).and ((kept_leaves.and kept_watch).imp _)) (fun _ h => by cases h)
          (fun s x s' he => ?_) fun s g hi _ hp _ x s' he => ?_) fun bits => .ite (fun hbits => ?_) fun hbits => ?_
      · cases he
        rfl
      · cases he
        by_cases hbits : (s.lock.buffer (pos &&& bufferMask k)).bits = 0
        · exact ⟨g.queue, hi, .refl _, fun _ => hp, fun hne => absurd hbits hne⟩
        · refine ⟨g.queue.look t .out, hi.look fun hlt hrel hw => ?_, .look, fun he => absurd he hbits,
            fun _ => ⟨⟨hp.1.1.look, hp.1.2⟩, watch_look⟩⟩
          -- a thread that has found the head where it is does not stop at a released request
          exfalso
          apply hbits
          rw [and_bufferMask hk]
          have hpos : pos.toNat = g.queue.head := by
            rcases hw with hw | hw <;> rw [hp.2.1] at hw
            · cases hw
            · exact Watch.seen.inj hw
          rw [hpos]
          exact hi.bits_of_released hlt hrel
      · refine Ens.bind ((tryDequeue_ens hk pos).pre fun g h => h.1 hbits) fun _ => ?_
        exact Ens.bind loadHead_ens fun pos => ih pos
      · exact .pure (kept_leaves.and kept_watch) fun g h => h.2 hbits

/-! ### Critical sections -/

/-- The thread `t` holds the lock by the ticket `p`; `o` is what its scope will end in, from the data on. -/
structure Runs (L : Locked w DRet δ C R) (rel : δ → A → Prop) (E : Prop) (t p : ℕ) (c : C) (o : δ → Except Fault R × δ)
    (x : LockWorld w δ C R A) : Prop where
  inside : Inside L x.ghost t p c
  thread : Thread t (some p) none x.ghost.queue
  watch : x.ghost.queue.watch t = .out
  dirty : E → x.ghost.dirty = none ∨ x.ghost.dirty = some p
  data : E → ∃ d, rel d x.ghost.object.state ∧ (L.scope c).outcome L.exec d = o x.shared.data

theorem Queue.Holds.own {g : Queue w} (h : g.Holds t p) : Own t p .waiting (g.resources p) g := ⟨h.lt, h.owner, h.stage, rfl⟩

theorem Inside.kept {g g' : Ghost w A C (Except Fault R)} (h : Inside L g t p c) (hs : g.Spares t g') : Inside L g' t p c := by
  obtain ⟨hlt, ho, hst, hres⟩ := kept_own (by decide) _ _ hs h.holds.own
  obtain ⟨_, hpassed⟩ := kept_passed _ _ hs ⟨⟨h.holds.lt, le_rfl⟩, h.holds.passed⟩
  exact ⟨⟨hlt, ho, hst, hpassed⟩, hres.trans h.resources, hs.threads.trans h.phase⟩

/-- If all requests collide, then at most one thread holds the lock. -/
theorem holds_unique (hE : ∀ c c', L.resources c &&& L.resources c' ≠ 0) {g : Ghost w A C (Except Fault R)} {d : δ} {u q : ℕ}
    (hst : Stands L rel d g) (h : g.queue.Holds t p) (h' : g.queue.Holds u q) : t = u := by
  by_contra hne
  have hpq : p ≠ q := by
    rintro rfl
    exact hne (h.owner.symm.trans h'.owner)
  obtain ⟨c, hc⟩ := hst.asked p h.lt
  obtain ⟨c', hc'⟩ := hst.asked q h'.lt
  have hdis := h.disjoint h' hpq
  rw [hc, hc'] at hdis
  exact hE c c' hdis

theorem stable_runs (hE : E → Implements L spec rel) (o : δ → Except Fault R × δ) :
    (protocol L k spec rel E).Stable t (Runs L rel E t p c o) := by
  rintro x x' hi hx ⟨e, hne, hguar, _⟩
  have hs := hguar.1 t hne.symm
  -- no other thread changes the data
  have hkeep : E → Keeps x.shared.data x'.shared.data x.ghost x'.ghost := fun he =>
    hguar.2.2.2.1.resolve_right fun ⟨q, hq⟩ => hne (holds_unique (hE he).collide (hi.2 he) hq hx.inside.holds)
  refine ⟨hx.inside.kept hs, kept_thread _ _ hs hx.thread, hs.queue.watch.trans hx.watch, fun he => ?_, fun he => ?_⟩
  · rw [(hkeep he).dirty]
    exact hx.dirty he
  · obtain ⟨d, hrel, hd⟩ := hx.data he
    refine ⟨d, ?_, ?_⟩
    · rwa [(hkeep he).state]
    · rwa [(hkeep he).data]

/-- The operations of the scope. -/
theorem onData_safe (hE : E → Implements L spec rel) (q : Prog D DRet Fault R) :
    Ensures (exec L.exec) (protocol L k spec rel E) t (Runs L rel E t p c (fun d => q.outcome L.exec d)) (onData q).attempt
      (fun r => Runs L rel E t p c (fun d => (r, d))) := by
  induction q with
  | ret a => exact Ensures.pure (stable_runs hE _) fun x _ hx => hx
  | raise e => exact Ensures.pure (stable_runs hE _) fun x _ hx => hx
  | op o f ih =>
      refine Ensures.bind (B := fun r => Runs L rel E t p c (fun d => (f r).outcome L.exec d)) (p := perform (.data o))
        (f := fun r => (onData (f r)).attempt) ?_ ih
      refine Ensures.perform (stable_runs hE _) (fun r => stable_runs hE _) fun x hi hx _ r s' hexec => ?_
      cases hexec
      have hst : x.ghost.queue.stage p = .waiting := hx.inside.holds.stage
      refine ⟨{ x.ghost with dirty := some p }, ⟨hi.1, fun he => ?_⟩, ⟨fun u hu => ?_, fun u d he => ?_, fun _ => rfl, .inr ⟨p, ?_⟩,
        fun _ => ⟨[], .nil, rfl⟩⟩, ⟨⟨hx.inside.holds, hx.inside.resources, hx.inside.phase⟩, hx.thread, hx.watch, fun _ => .inr rfl,
        fun he => ?_⟩⟩
      · refine ⟨(hi.2 he).asked, fun h => (by cases h), fun q hq => ?_⟩
        cases hq
        refine ⟨hx.inside.holds.lt, hst, fun q hq => (hx.inside.holds.passed q hq).resolve_right fun hdis => ?_⟩
        obtain ⟨c', hc'⟩ := (hi.2 he).asked q (hq.trans hx.inside.holds.lt)
        rw [hc', hx.inside.resources] at hdis
        exact (hE he).collide c' c hdis
      · refine ⟨.refl, rfl, fun q hq => .inr ?_⟩
        cases hq
        exact ⟨hx.inside.holds.lt, fun ho => hu (ho.symm.trans hx.inside.holds.owner)⟩
      · injection he with hu _
        exact ⟨p, c, hu ▸ hx.inside⟩
      · exact hx.inside.holds
      · exact hx.data he

/-- The call takes effect when its resources are released. -/
theorem release_safe (hE : E → Implements L spec rel) (hk : k ≤ 31) (pos : BitVec 32) (hr : r ≠ .error .outOfFuel) :
    Ensures (exec L.exec) (protocol L k spec rel E) t (Runs L rel E t pos.toNat c (fun d => (r, d)))
      (perform (.storeBits (pos &&& bufferMask k) 0)) (fun _ x => Leaves t c r x.ghost) := by
  refine Ensures.perform (stable_runs hE _) (fun _ => kept_leaves.stable) fun x hi hx _ _ s' hexec => ?_
  cases hexec
  have hown := hx.inside.holds.own
  have hrank : x.ghost.queue.rank pos.toNat = 3 := hown.rank
  have hlast : x.ghost.queue.tail ≤ pos.toNat + 2 ^ k := hi.1.last_of_rank (by omega)
  -- the state the object goes to
  obtain ⟨a, ha⟩ : ∃ a, E → spec x.ghost.object.state c r a ∧ rel x.shared.data a := by
    by_cases he : E
    · obtain ⟨d, hrel, hd⟩ := hx.data he
      obtain ⟨a, hspec, hrel'⟩ := (hE he).meets c _ d r _ hrel hd hr
      exact ⟨a, fun _ => ⟨hspec, hrel'⟩⟩
    · exact ⟨x.ghost.object.state, fun h => absurd h he⟩
  have hthread : Thread t none none (x.ghost.queue.advance pos.toNat .released) := by
    refine ⟨fun q hq ho _ => ?_, (hx.thread.advance (s := .released) (fun _ _ => rfl) fun hge => absurd hge (by decide)).recycled⟩
    by_cases hqp : q = pos.toNat
    · unfold Queue.rank
      rw [hqp, Queue.stage_advance_self]
      decide
    · rw [Queue.rank_of_stage (Queue.stage_advance_ne hqp)]
      exact hx.thread.released q hq ho fun he => hqp (Option.some.inj he)
  refine ⟨⟨(x.ghost.queue.look t .fresh).advance pos.toNat .released, x.ghost.object.set t (some (.done c r)) a, none⟩, ⟨?_, fun he => ?_⟩,
    ⟨fun u hu => ?_, fun u d he => (by cases he), fun u => ?_, .inr ⟨_, hx.inside.holds⟩, fun he => ?_⟩, hthread.look, ?_⟩
  · have hnew : ((x.ghost.queue.look t .fresh).advance pos.toNat .released).content (2 ^ k) pos.toNat =
        { x.shared.lock.buffer (slot k pos.toNat) with bits := 0 } := by
      rw [hi.1.cell _ hown.lt hlast]
      unfold Queue.content
      rw [Queue.stage_advance_self, hown.stage]
    refine (hi.1.look (t := t) (x := .fresh) fun _ _ _ => .inl rfl).advance hown.lt hlast ?_ (fun _ => by decide) (fun hlt => ?_)
      fun _ _ => ⟨t, .inl watch_look⟩
    · rw [hnew, and_bufferMask hk]
      exact touches_setBits _ _ _
    · have := hi.1.past _ hlt
      omega
  · exact ⟨(hi.2 he).asked, fun _ => (ha he).2, fun q hq => (by cases hq)⟩
  · refine ⟨(Spares.look hu.symm).trans (.advance ?_ (fun _ => by decide) (fun _ ho => ?_) fun hge => ?_),
      Atomic.threads_set_ne _ _ _ hu, fun q hq => (by cases hq)⟩
    · show x.ghost.queue.rank _ ≤ _
      rw [hrank]
      decide
    · exact hu (ho.symm.trans hown.owner)
    · replace hge : 5 ≤ x.ghost.queue.rank pos.toNat := hge
      omega
  · unfold Atomic.call
    by_cases hut : u = t
    · rw [hut, Atomic.threads_set_self, hx.inside.phase]
      rfl
    · rw [Atomic.threads_set_ne _ _ _ hut]
      rfl
  · exact ⟨_, .single (.effect hx.inside.phase (ha he).1), rfl⟩
  · exact Atomic.threads_set_self _ _ _ _

theorem leave_safe (hE : E → Implements L spec rel) (hk : k ≤ 31) (fuel : ℕ) (pos : BitVec 32) (r : Except Fault R) :
    Ensures (exec L.exec) (protocol L k spec rel E) t (Runs L rel E t pos.toNat c (fun d => (r, d)))
      (leave (bufferMask k) fuel pos r) (fun r x => Leaves t c r x.ghost ∧ x.ghost.queue.watch t = .out) := by
  have hunlock : r ≠ .error .outOfFuel → Ensures (exec L.exec) (protocol L k spec rel E) t
      (Runs L rel E t pos.toNat c (fun d => (r, d))) (do unlock (bufferMask k) fuel pos; pure r)
      (fun r x => Leaves t c r x.ghost ∧ x.ghost.queue.watch t = .out) := by
    intro hr
    refine Ensures.bind (B := fun _ x => Leaves t c r x.ghost ∧ x.ghost.queue.watch t = .out) ?_ fun _ => ?_
    · refine Ensures.bind (release_safe hE hk pos hr) fun _ => ?_
      exact Ens.bind loadHead_ens fun head => dequeue_ens hk fuel head
    · exact Ens.pure (Q := fun r g => Leaves t c r g ∧ g.queue.watch t = .out) (kept_leaves.and kept_watch) fun g h => h
  cases r with
  | ok a => exact hunlock (by simp)
  | error e =>
      cases e with
      | outOfFuel => exact Ensures.raise
      | exn e => exact hunlock (by simp)
      | undefinedBehaviour => exact hunlock (by simp)

/-- A call, from its invocation to its response. -/
theorem body_safe (hE : E → Implements L spec rel) (hk : k ≤ 31) (c : C) (hres : L.resources c ≠ 0) :
    Ensures (exec L.exec) (protocol L k spec rel E) t (fun x => Thread t none none x.ghost.queue ∧ Frame t c x.ghost) (L.body k c)
      (fun r x => Leaves t c r x.ghost ∧ x.ghost.queue.watch t = .out) := by
  refine Ensures.bind (lock_ens (L.fuel c) hk hres ⟨c, rfl⟩) fun pos => ?_
  refine Ensures.bind (B := fun r => Runs L rel E t pos.toNat c (fun d => (r, d))) ?_ fun r => leave_safe hE hk _ pos r
  refine Ensures.pre (onData_safe hE (L.scope c)) fun x hi ⟨honly, hpassed⟩ => ?_
  have hholds : x.ghost.queue.Holds t pos.toNat := ⟨honly.own.lt, honly.own.owner, honly.own.stage, hpassed⟩
  have hdirty : E → x.ghost.dirty = none := by
    intro he
    cases hd : x.ghost.dirty with
    | none => rfl
    | some q =>
        -- the ticket by which the data has been changed would be another one that holds the lock
        exfalso
        obtain ⟨hlt, hst, hprev⟩ := (hi.2 he).dirty q hd
        have hq : x.ghost.queue.Holds (x.ghost.queue.owner q) q := ⟨hlt, rfl, hst, fun r hr => .inl (hprev r hr)⟩
        have howner := holds_unique (hE he).collide (hi.2 he) hq hholds
        have hne : some q ≠ some pos.toNat := by
          rw [← hd]
          exact honly.clean he
        have hrank := honly.thread.released q hlt howner hne
        unfold Queue.rank at hrank
        rw [hst] at hrank
        exact absurd hrank (by decide)
  refine ⟨⟨hholds, honly.own.resources, honly.frame.2⟩, honly.thread, honly.frame.1, fun he => .inl (hdirty he), fun he => ?_⟩
  exact ⟨_, (hi.2 he).clean (hdirty he), rfl⟩

end Programs

end LockFreeSearchTree.MRLock
