import LockFreeSearchTree.Mrlock
import Mathlib.Data.Nat.ModEq

/-! # The queue of requests

What the ring buffer of `mrlock.h` stands for: a queue of tickets, numbered from zero on and each in
one of the stages of its life (`Queue`).  Before the 32-bit counters wrap, the cell of a ticket is what its stage
says (`content`), until the ticket of the next round takes the cell over.

* `Inv` relates the lock and the queue.  Its steps are the moves of one ticket to its next stage
  (`Inv.take`, `Inv.advance`, `Inv.dequeue`).
* `Spares u` says what a move of another thread leaves the thread `u`.
* A ticket `p` is the one of a thread that holds the lock if all earlier tickets it collides with have
  been released (`Holds`).  -/

namespace LockFreeSearchTree.MRLock

/-! ### Tickets -/

/-- The life of a ticket. -/
inductive Stage where
  /-- Not handed out yet. -/
  | free
  /-- Taken by the thread that has moved the tail. -/
  | taken
  /-- The resources are in the cell. -/
  | written
  /-- The sequence number is in the cell. -/
  | waiting
  /-- The resources have been cleared. -/
  | released
  /-- The head has been moved. -/
  | dequeued
  /-- The bits of the cell are all set again. -/
  | cleared
  /-- The cell is free for the next round. -/
  | recycled
deriving DecidableEq

def Stage.rank : Stage → ℕ
  | free => 0
  | taken => 1
  | written => 2
  | waiting => 3
  | released => 4
  | dequeued => 5
  | cleared => 6
  | recycled => 7

/-- Where a thread is in the loop of `Unlock`: outside, before it loads the head, or after it has found
the head at a ticket. -/
inductive Watch where
  | out
  | fresh
  | seen (p : ℕ)

structure Queue (w : ℕ) where
  head : ℕ
  tail : ℕ
  stage : ℕ → Stage
  owner : ℕ → ℕ
  resources : ℕ → BitVec w
  dequeuer : ℕ → ℕ
  watch : ℕ → Watch

variable {w : ℕ}

namespace Queue

def rank (g : Queue w) (p : ℕ) : ℕ := (g.stage p).rank

/-- The cell of a ticket, in a buffer of `n` cells. -/
def content (n : ℕ) (g : Queue w) (p : ℕ) : Cell w :=
  match g.stage p with
  | .free | .taken => ⟨BitVec.ofNat 32 p, BitVec.allOnes w⟩
  | .written => ⟨BitVec.ofNat 32 p, g.resources p⟩
  | .waiting => ⟨BitVec.ofNat 32 (p + 1), g.resources p⟩
  | .released | .dequeued => ⟨BitVec.ofNat 32 (p + 1), 0⟩
  | .cleared => ⟨BitVec.ofNat 32 (p + 1), BitVec.allOnes w⟩
  | .recycled => ⟨BitVec.ofNat 32 (p + n), BitVec.allOnes w⟩

/-- The next ticket, for the thread `t`. -/
def take (g : Queue w) (t : ℕ) (res : BitVec w) : Queue w :=
  { g with
    tail := g.tail + 1
    stage := Function.update g.stage g.tail .taken
    owner := Function.update g.owner g.tail t
    resources := Function.update g.resources g.tail res }

/-- The ticket `p` at the stage `s`. -/
def advance (g : Queue w) (p : ℕ) (s : Stage) : Queue w := { g with stage := Function.update g.stage p s }

/-- The ticket at the head, dequeued by the thread `t`. -/
def dequeue (g : Queue w) (t : ℕ) : Queue w :=
  { g with
    head := g.head + 1
    stage := Function.update g.stage g.head .dequeued
    dequeuer := Function.update g.dequeuer g.head t }

def look (g : Queue w) (t : ℕ) (x : Watch) : Queue w := { g with watch := Function.update g.watch t x }

/-- The thread will look at the ticket at the head. -/
def Watching (g : Queue w) (t : ℕ) : Prop := g.watch t = .fresh ∨ g.watch t = .seen g.head

/-- The ticket `p` does not have to wait for `q`. -/
def Passed (g : Queue w) (p q : ℕ) : Prop := 4 ≤ g.rank q ∨ g.resources q &&& g.resources p = 0

/-- The thread `t` holds the lock by the ticket `p`. -/
structure Holds (g : Queue w) (t p : ℕ) : Prop where
  lt : p < g.tail
  owner : g.owner p = t
  stage : g.stage p = .waiting
  passed : ∀ q < p, g.Passed p q

end Queue

/-- Two threads do not hold the lock at the same time if their requests collide. -/
theorem Queue.Holds.disjoint {g : Queue w} {t u p q : ℕ} (h : g.Holds t p) (h' : g.Holds u q) (hne : p ≠ q) :
    g.resources p &&& g.resources q = 0 := by
  have hrank : ∀ {r}, g.stage r = .waiting → ¬ 4 ≤ g.rank r := fun hr => by
    unfold Queue.rank
    rw [hr]
    decide
  rcases Nat.lt_or_gt_of_ne hne with hlt | hlt
  · exact (h'.passed p hlt).resolve_left (hrank h.stage)
  · rw [BitVec.and_comm]
    exact (h.passed q hlt).resolve_left (hrank h'.stage)

/-! ### The cells of the tickets -/

/-- The cell a ticket uses in a buffer of `2 ^ k` cells. -/
def slot (k p : ℕ) : BitVec 32 := BitVec.ofNat 32 (p % 2 ^ k)

/-- `m_bufferMask`. -/
def bufferMask (k : ℕ) : BitVec 32 := BitVec.ofNat 32 (2 ^ k - 1)

section Cells

variable {k : ℕ}

theorem toNat_ofNat {p : ℕ} (hp : p < 2 ^ 32) : (BitVec.ofNat 32 p).toNat = p := by
  rw [BitVec.toNat_ofNat]
  exact Nat.mod_eq_of_lt hp

theorem ofNat_self (pos : BitVec 32) : BitVec.ofNat 32 pos.toNat = pos := by simp

theorem ofNat_succ (pos : BitVec 32) : BitVec.ofNat 32 (pos.toNat + 1) = pos + 1 := by
  rw [BitVec.ofNat_add, ofNat_self]
  rfl

theorem ofNat_inj {p q : ℕ} (hp : p < 2 ^ 32) (hq : q < 2 ^ 32) (h : BitVec.ofNat 32 p = BitVec.ofNat 32 q) : p = q := by
  have := congrArg BitVec.toNat h
  rwa [toNat_ofNat hp, toNat_ofNat hq] at this

theorem size_lt (hk : k ≤ 31) : 2 ^ k < 2 ^ 32 := Nat.pow_lt_pow_right (by decide) (by omega)

theorem toNat_bufferMask (hk : k ≤ 31) : (bufferMask k).toNat = 2 ^ k - 1 :=
  toNat_ofNat ((Nat.sub_le _ _).trans_lt (size_lt hk))

theorem and_bufferMask (hk : k ≤ 31) (pos : BitVec 32) : pos &&& bufferMask k = slot k pos.toNat := by
  apply BitVec.eq_of_toNat_eq
  rw [BitVec.toNat_and, toNat_bufferMask hk, Nat.and_two_pow_sub_one_eq_mod, slot, toNat_ofNat]
  exact (Nat.mod_lt _ (Nat.two_pow_pos k)).trans (size_lt hk)

/-- The cell of a ticket whose number has wrapped. -/
theorem ofNat_and_bufferMask (hk : k ≤ 31) (p : ℕ) : BitVec.ofNat 32 p &&& bufferMask k = slot k p := by
  rw [and_bufferMask hk, BitVec.toNat_ofNat, slot, slot, Nat.mod_mod_of_dvd _ (Nat.pow_dvd_pow 2 (by omega))]

/-- The sequence number of a cell that has become free. -/
theorem ofNat_add_size (p : ℕ) : BitVec.ofNat 32 (p + 2 ^ k) = BitVec.ofNat 32 p + bufferMask k + 1 := by
  have hsplit : p + 2 ^ k = p + (2 ^ k - 1) + 1 := by
    have := Nat.two_pow_pos k
    omega
  rw [hsplit, BitVec.ofNat_add, BitVec.ofNat_add]
  rfl

theorem ofNat_round (pos : BitVec 32) : BitVec.ofNat 32 (pos.toNat + 2 ^ k) = pos + bufferMask k + 1 := by
  rw [ofNat_add_size, ofNat_self]

/-- The tickets of one cell are a number of rounds apart. -/
theorem slot_inj (hk : k ≤ 31) {p q : ℕ} (h : slot k p = slot k q) : p % 2 ^ k = q % 2 ^ k :=
  ofNat_inj ((Nat.mod_lt _ (Nat.two_pow_pos k)).trans (size_lt hk)) ((Nat.mod_lt _ (Nat.two_pow_pos k)).trans (size_lt hk)) h

/-- Two tickets of one cell are the same if they are less than a round apart. -/
theorem eq_of_slot_eq (hk : k ≤ 31) {p q : ℕ} (h : slot k p = slot k q) (hpq : p < q + 2 ^ k) (hqp : q < p + 2 ^ k) :
    p = q := by
  have hmod := slot_inj hk h
  rcases Nat.le_total p q with hle | hle
  · have := (Nat.modEq_iff_dvd' hle).mp hmod
    have := Nat.eq_zero_of_dvd_of_lt this (by omega)
    omega
  · have := (Nat.modEq_iff_dvd' hle).mp hmod.symm
    have := Nat.eq_zero_of_dvd_of_lt this (by omega)
    omega

theorem slot_add (p : ℕ) : slot k (p + 2 ^ k) = slot k p := by
  unfold slot
  rw [Nat.add_mod_right]

end Cells

/-! ### The invariant -/

/-- The lock is that of the queue, in a buffer of `2 ^ k` cells. -/
structure Inv (k : ℕ) (l : MRLock w) (g : Queue w) : Prop where
  size : 1 ≤ k ∧ k ≤ 31
  head : l.head = BitVec.ofNat 32 g.head
  tail : l.tail = BitVec.ofNat 32 g.tail
  order : g.head ≤ g.tail
  room : g.tail + 2 ^ k ≤ 2 ^ 32
  future : ∀ p, g.tail ≤ p → g.stage p = .free
  queued : ∀ p, g.head ≤ p → p < g.tail → 1 ≤ g.rank p ∧ g.rank p ≤ 4
  past : ∀ p < g.head, 5 ≤ g.rank p
  round : ∀ p, p + 2 ^ k < g.tail → g.stage p = .recycled
  cell : ∀ p < g.tail, g.tail ≤ p + 2 ^ k → l.buffer (slot k p) = g.content (2 ^ k) p
  unused : ∀ p < 2 ^ k, g.tail ≤ p → l.buffer (slot k p) = ⟨BitVec.ofNat 32 p, BitVec.allOnes w⟩
  asked : ∀ p < g.tail, g.resources p ≠ 0
  watched : g.head < g.tail → g.stage g.head = .released → ∃ t, g.Watching t

namespace Inv

variable {k : ℕ} {l : MRLock w} {g : Queue w} {p q : ℕ}

theorem two_le (h : Inv k l g) : 2 ≤ 2 ^ k := by
  have : 2 ^ 1 ≤ 2 ^ k := Nat.pow_le_pow_right (by decide) h.size.1
  exact this

theorem lt_of_rank (h : Inv k l g) (hp : 1 ≤ g.rank p) : p < g.tail := by
  by_contra hge
  unfold Queue.rank at hp
  rw [h.future p (not_lt.mp hge)] at hp
  exact absurd hp (by decide)

/-- The last tickets of their cells. -/
theorem last_of_rank (h : Inv k l g) (hp : g.rank p < 7) : g.tail ≤ p + 2 ^ k := by
  by_contra hlt
  unfold Queue.rank at hp
  rw [h.round p (not_le.mp hlt)] at hp
  exact absurd hp (by decide)

theorem tail_le (h : Inv k l g) : g.tail ≤ g.head + 2 ^ k := by
  by_contra hlt
  have hrank := (h.queued g.head le_rfl ((Nat.le_add_right _ _).trans_lt (not_le.mp hlt))).2
  exact hlt (h.last_of_rank (by omega))

theorem rank_pos (h : Inv k l g) (hp : p < g.tail) : 1 ≤ g.rank p := by
  rcases Nat.lt_or_ge p g.head with hlt | hge
  · have := h.past p hlt
    omega
  · exact (h.queued p hge hp).1

theorem tail_lt (h : Inv k l g) : g.tail + 1 < 2 ^ 32 := by
  have := h.room
  have := h.two_le
  omega

theorem toNat_tail (h : Inv k l g) : l.tail.toNat = g.tail := by
  have := h.tail_lt
  rw [h.tail, toNat_ofNat (by omega)]

theorem toNat_head (h : Inv k l g) : l.head.toNat = g.head := by
  have := h.tail_lt
  have := h.order
  rw [h.head, toNat_ofNat (by omega)]

end Inv

/-! ### Reading a cell -/

namespace Inv

variable {k : ℕ} {l : MRLock w} {g : Queue w} {p q : ℕ} (h : Inv k l g)

include h

/-- The cell of the next ticket is that of the ticket one round before. -/
theorem next_cell (hp : 2 ^ k ≤ g.tail) :
    g.tail - 2 ^ k < g.tail ∧ l.buffer (slot k g.tail) = g.content (2 ^ k) (g.tail - 2 ^ k) := by
  have hpos := Nat.two_pow_pos k
  have hlt : g.tail - 2 ^ k < g.tail := by omega
  have hcell := h.cell _ hlt (by omega)
  rw [← slot_add, Nat.sub_add_cancel hp] at hcell
  exact ⟨hlt, hcell⟩

/-- What the sequence number of the cell of a ticket says about the ticket one round before. -/
theorem ready (hp : p ≤ g.tail) (hseq : (l.buffer (slot k p)).sequence = BitVec.ofNat 32 p) :
    p < g.tail ∨ p < 2 ^ k ∨ g.stage (p - 2 ^ k) = .recycled := by
  rcases hp.lt_or_eq with hlt | rfl
  · exact .inl hlt
  by_cases hsmall : g.tail < 2 ^ k
  · exact .inr (.inl hsmall)
  obtain ⟨hlt, hcell⟩ := h.next_cell (not_lt.mp hsmall)
  have hroom := h.room
  have hsize := h.two_le
  rw [hcell] at hseq
  refine .inr (.inr ?_)
  have hrank := h.rank_pos hlt
  unfold Queue.content at hseq
  unfold Queue.rank at hrank
  generalize g.stage (g.tail - 2 ^ k) = s at *
  cases s with
  | free => exact absurd hrank (by decide)
  | recycled => rfl
  | taken | written =>
      have := ofNat_inj (by omega) (by omega) hseq
      omega
  | waiting | released | dequeued | cleared =>
      have := ofNat_inj (by omega) (by omega) hseq
      omega

/-- A cell with the sequence number of a request that waits. -/
theorem published (hp : p ≤ g.tail) (hseq : (l.buffer (slot k p)).sequence = BitVec.ofNat 32 (p + 1)) : 3 ≤ g.rank p := by
  have hroom := h.room
  have hsize := h.two_le
  rcases hp.lt_or_eq with hlt | rfl
  · by_cases hlast : g.tail ≤ p + 2 ^ k
    · have hrank := h.rank_pos hlt
      rw [h.cell p hlt hlast] at hseq
      unfold Queue.content at hseq
      unfold Queue.rank at *
      generalize g.stage p = s at *
      cases s with
      | free => exact absurd hrank (by decide)
      | taken | written =>
          have := ofNat_inj (by omega) (by omega) hseq
          omega
      | waiting | released | dequeued | cleared | recycled => decide
    · unfold Queue.rank
      rw [h.round p (not_le.mp hlast)]
      decide
  · -- the cell of the next ticket
    exfalso
    by_cases hsmall : g.tail < 2 ^ k
    · rw [h.unused _ hsmall le_rfl] at hseq
      have := ofNat_inj (by omega) (by omega) hseq
      omega
    · obtain ⟨hlt, hcell⟩ := h.next_cell (not_lt.mp hsmall)
      rw [hcell] at hseq
      unfold Queue.content at hseq
      generalize g.stage (g.tail - 2 ^ k) = s at *
      cases s with
      | free | taken | written =>
          have := ofNat_inj (by omega) (by omega) hseq
          omega
      | waiting | released | dequeued | cleared =>
          have := ofNat_inj (by omega) (by omega) hseq
          omega
      | recycled =>
          have := ofNat_inj (by omega) (by omega) hseq
          omega

/-- The cell of a request that has not been released. -/
theorem unreleased (hq : q < g.tail) (hr : g.rank q < 4) :
    ((l.buffer (slot k q)).sequence = BitVec.ofNat 32 q ∨ (l.buffer (slot k q)).sequence = BitVec.ofNat 32 (q + 1)) ∧
      ((l.buffer (slot k q)).bits = BitVec.allOnes w ∨ (l.buffer (slot k q)).bits = g.resources q) := by
  have hrank := h.rank_pos hq
  rw [h.cell q hq (h.last_of_rank (by omega))]
  unfold Queue.content
  unfold Queue.rank at *
  generalize g.stage q = s at *
  cases s with
  | free => exact absurd hrank (by decide)
  | taken => exact ⟨.inl rfl, .inl rfl⟩
  | written => exact ⟨.inl rfl, .inr rfl⟩
  | waiting => exact ⟨.inr rfl, .inr rfl⟩
  | released | dequeued | cleared | recycled => exact absurd hr (by decide)

/-- The test of the sequence number in `Lock` skips only requests that have been released. -/
theorem skip_sequence (hp : p < g.tail) (hqp : q < p) (hnear : p < q + 2 ^ k)
    (hskip : BitVec.ofNat 32 p - (l.buffer (slot k q)).sequence > bufferMask k) : 4 ≤ g.rank q := by
  by_contra hr
  have hroom := h.room
  have hsize := size_lt h.size.2
  have hlt : (bufferMask k).toNat < (BitVec.ofNat 32 p - (l.buffer (slot k q)).sequence).toNat := BitVec.lt_def.mp hskip
  rw [toNat_bufferMask h.size.2, BitVec.toNat_sub, toNat_ofNat (by omega)] at hlt
  rcases (h.unreleased (hqp.trans hp) (not_le.mp hr)).1 with hseq | hseq
  · rw [hseq, toNat_ofNat (by omega)] at hlt
    omega
  · rw [hseq, toNat_ofNat (by omega)] at hlt
    omega

/-- The test of the bits in `Lock` skips only requests the own one does not collide with. -/
theorem skip_bits (hp : p < g.tail) (hqp : q < p) (hskip : (l.buffer (slot k q)).bits &&& g.resources p = 0) : g.Passed p q := by
  by_cases hr : 4 ≤ g.rank q
  · exact .inl hr
  · rcases (h.unreleased (hqp.trans hp) (not_le.mp hr)).2 with hbits | hbits
    · rw [hbits, BitVec.allOnes_and] at hskip
      exact absurd hskip (h.asked p hp)
    · rw [hbits] at hskip
      exact .inr hskip

/-- A request that waits and has no bits has been released. -/
theorem released_of_bits (hp : p < g.tail) (hr : 3 ≤ g.rank p) (hhead : g.head ≤ p) (hbits : (l.buffer (slot k p)).bits = 0) :
    g.stage p = .released := by
  have hrank := (h.queued p hhead hp).2
  rw [h.cell p hp (h.last_of_rank (by omega))] at hbits
  unfold Queue.content at hbits
  unfold Queue.rank at *
  cases hs : g.stage p with
  | released => rfl
  | waiting =>
      rw [hs] at hbits
      exact absurd hbits (h.asked p hp)
  | free | taken | written =>
      rw [hs] at hr
      exact absurd hr (by decide)
  | dequeued | cleared | recycled =>
      rw [hs] at hrank
      exact absurd hrank (by decide)

theorem bits_of_released (hp : p < g.tail) (hs : g.stage p = .released) : (l.buffer (slot k p)).bits = 0 := by
  have hrank : g.rank p = 4 := by
    unfold Queue.rank
    rw [hs]
    rfl
  rw [h.cell p hp (h.last_of_rank (by omega))]
  unfold Queue.content
  rw [hs]

end Inv

/-! ### Moves -/

section Moves

variable {k : ℕ} {l l' : MRLock w} {g : Queue w} {p q t : ℕ} {s : Stage} {res : BitVec w} {x : Watch}

@[simp] theorem Queue.stage_advance_self : (g.advance p s).stage p = s := by simp [Queue.advance]

theorem Queue.stage_advance_ne (h : q ≠ p) : (g.advance p s).stage q = g.stage q := by simp [Queue.advance, h]

theorem Queue.content_congr {n : ℕ} {g g' : Queue w} (hs : g'.stage q = g.stage q) (hr : g'.resources q = g.resources q) :
    g'.content n q = g.content n q := by
  unfold Queue.content
  rw [hs, hr]

@[simp] theorem Queue.stage_take_self : (g.take t res).stage g.tail = .taken := by simp [Queue.take]

theorem Queue.stage_take_ne (h : q ≠ g.tail) : (g.take t res).stage q = g.stage q := by simp [Queue.take, h]

theorem Queue.owner_take_ne (h : q ≠ g.tail) : (g.take t res).owner q = g.owner q := by simp [Queue.take, h]

theorem Queue.resources_take_ne (h : q ≠ g.tail) : (g.take t res).resources q = g.resources q := by simp [Queue.take, h]

@[simp] theorem Queue.stage_dequeue_self : (g.dequeue t).stage g.head = .dequeued := by simp [Queue.dequeue]

theorem Queue.stage_dequeue_ne (h : q ≠ g.head) : (g.dequeue t).stage q = g.stage q := by simp [Queue.dequeue, h]

theorem Queue.rank_of_stage {g g' : Queue w} (h : g'.stage q = g.stage q) : g'.rank q = g.rank q := by
  unfold Queue.rank
  rw [h]

/-- The fields of the lock that belong to one cell. -/
structure Touches (l l' : MRLock w) (i : BitVec 32) (c : Cell w) : Prop where
  head : l'.head = l.head
  tail : l'.tail = l.tail
  buffer : l'.buffer = Function.update l.buffer i c

theorem touches_setBits (l : MRLock w) (i : BitVec 32) (bits : BitVec w) :
    Touches l (l.setBits i bits) i { l.buffer i with bits := bits } := ⟨rfl, rfl, rfl⟩

theorem touches_setSequence (l : MRLock w) (i seq : BitVec 32) :
    Touches l (l.setSequence i seq) i { l.buffer i with sequence := seq } := ⟨rfl, rfl, rfl⟩

namespace Inv

/-- The counter of the attempts says nothing about the queue. -/
theorem attempts (h : Inv k l g) (n : ℕ) : Inv k { l with attempts := n } g := by
  obtain ⟨hsize, hhead, htail, horder, hroom, hfuture, hqueued, hpast, hround, hcell, hunused, hasked, hwatched⟩ := h
  exact ⟨hsize, hhead, htail, horder, hroom, hfuture, hqueued, hpast, hround, hcell, hunused, hasked, hwatched⟩

/-- A ticket goes on to its next stage, and its cell with it. -/
theorem advance (h : Inv k l g) (hp : p < g.tail) (hlast : g.tail ≤ p + 2 ^ k)
    (hl : Touches l l' (slot k p) ((g.advance p s).content (2 ^ k) p)) (hqueued : g.head ≤ p → 1 ≤ s.rank ∧ s.rank ≤ 4)
    (hpast : p < g.head → 5 ≤ s.rank) (hw : p = g.head → s = .released → ∃ t, g.Watching t) : Inv k l' (g.advance p s) := by
  have hne : ∀ {q}, q ≠ p → (g.advance p s).rank q = g.rank q := fun hq => Queue.rank_of_stage (Queue.stage_advance_ne hq)
  have hself : (g.advance p s).rank p = s.rank := by simp [Queue.rank]
  refine ⟨h.size, hl.head.trans h.head, hl.tail.trans h.tail, h.order, h.room, fun q hq => ?_, fun q hq hlt => ?_, fun q hq => ?_,
    fun q hq => ?_, fun q hq hle => ?_, fun q hq hle => ?_, h.asked, fun hlt hs => ?_⟩
  · rw [Queue.stage_advance_ne (by rintro rfl; exact absurd hp (not_lt.mpr hq))]
    exact h.future q hq
  · by_cases hqp : q = p
    · subst hqp
      rw [hself]
      exact hqueued hq
    · rw [hne hqp]
      exact h.queued q hq hlt
  · by_cases hqp : q = p
    · subst hqp
      rw [hself]
      exact hpast hq
    · rw [hne hqp]
      exact h.past q hq
  · have hqp : q ≠ p := by
      rintro rfl
      exact absurd hq (not_lt.mpr hlast)
    rw [Queue.stage_advance_ne hqp]
    exact h.round q hq
  · rw [hl.buffer]
    by_cases hqp : q = p
    · rw [hqp, Function.update_self]
    · have hslot : slot k q ≠ slot k p := by
        intro he
        replace hq : q < g.tail := hq
        replace hle : g.tail ≤ q + 2 ^ k := hle
        exact hqp (eq_of_slot_eq h.size.2 he (by omega) (by omega))
      rw [Function.update_of_ne hslot, h.cell q hq hle]
      exact (Queue.content_congr (Queue.stage_advance_ne hqp) rfl).symm
  · have hslot : slot k q ≠ slot k p := by
      intro he
      replace hle : g.tail ≤ q := hle
      have := eq_of_slot_eq h.size.2 he (by omega) (by omega)
      omega
    rw [hl.buffer, Function.update_of_ne hslot]
    exact h.unused q hq hle
  · by_cases hqp : g.head = p
    · subst hqp
      exact hw rfl ((Queue.stage_advance_self (g := g)).symm.trans hs)
    · exact h.watched hlt ((Queue.stage_advance_ne hqp).symm.trans hs)

/-- A thread goes on in the loop of `Unlock`; it may stop only if the head has not been released. -/
theorem look (h : Inv k l g) (hx : g.head < g.tail → g.stage g.head = .released → g.Watching t → x = .fresh ∨ x = .seen g.head) :
    Inv k l (g.look t x) := by
  obtain ⟨hsize, hhead, htail, horder, hroom, hfuture, hqueued, hpast, hround, hcell, hunused, hasked, hwatched⟩ := h
  refine ⟨hsize, hhead, htail, horder, hroom, hfuture, hqueued, hpast, hround, hcell, hunused, hasked, fun hlt hs => ?_⟩
  obtain ⟨u, hu⟩ := hwatched hlt hs
  refine ⟨u, ?_⟩
  unfold Queue.Watching
  by_cases hut : u = t
  · subst hut
    have hself : (g.look u x).watch u = x := by simp [Queue.look]
    rw [hself]
    exact hx hlt hs hu
  · have hne : (g.look t x).watch u = g.watch u := by simp [Queue.look, hut]
    rw [hne]
    exact hu

/-- The next ticket is handed out. -/
theorem take (h : Inv k l g) (hready : g.tail < 2 ^ k ∨ g.stage (g.tail - 2 ^ k) = .recycled)
    (hroom : g.tail + 2 ^ k < 2 ^ 32) (hres : res ≠ 0) (n : ℕ) :
    Inv k { l with tail := BitVec.ofNat 32 (g.tail + 1), attempts := n } (g.take t res) := by
  have hpos := Nat.two_pow_pos k
  have hne : ∀ {q}, q ≠ g.tail → (g.take t res).rank q = g.rank q := fun hq => Queue.rank_of_stage (Queue.stage_take_ne hq)
  refine ⟨h.size, h.head, rfl, h.order.trans (Nat.le_succ _), by show g.tail + 1 + _ ≤ _; omega, fun q hq => ?_,
    fun q hq hlt => ?_, fun q hq => ?_, fun q hq => ?_, fun q hq hle => ?_, fun q hq hle => ?_, fun q hq => ?_, fun hlt hs => ?_⟩
  · replace hq : g.tail + 1 ≤ q := hq
    rw [Queue.stage_take_ne (by omega)]
    exact h.future q (by omega)
  · replace hlt : q < g.tail + 1 := hlt
    by_cases hqt : q = g.tail
    · unfold Queue.rank
      rw [hqt, Queue.stage_take_self]
      decide
    · rw [hne hqt]
      exact h.queued q hq (by omega)
  · have hlt : q < g.tail := lt_of_lt_of_le hq h.order
    rw [hne hlt.ne]
    exact h.past q hq
  · replace hq : q + 2 ^ k < g.tail + 1 := hq
    rw [Queue.stage_take_ne (by omega)]
    by_cases hlt : q + 2 ^ k < g.tail
    · exact h.round q hlt
    · have hq' : q = g.tail - 2 ^ k := by omega
      rw [hq']
      exact hready.resolve_left (by omega)
  · replace hq : q < g.tail + 1 := hq
    replace hle : g.tail + 1 ≤ q + 2 ^ k := hle
    by_cases hqt : q = g.tail
    · -- the cell has become free in the round before
      subst hqt
      have hnew : (g.take t res).content (2 ^ k) g.tail = ⟨BitVec.ofNat 32 g.tail, BitVec.allOnes w⟩ := by
        unfold Queue.content
        rw [Queue.stage_take_self]
      rw [hnew]
      by_cases hsmall : g.tail < 2 ^ k
      · exact h.unused _ hsmall le_rfl
      · obtain ⟨_, hcell⟩ := h.next_cell (not_lt.mp hsmall)
        refine hcell.trans ?_
        unfold Queue.content
        rw [hready.resolve_left hsmall]
        simp only [Nat.sub_add_cancel (not_lt.mp hsmall)]
    · exact (h.cell q (by omega) (by omega)).trans
        (Queue.content_congr (Queue.stage_take_ne hqt) (Queue.resources_take_ne hqt)).symm
  · replace hle : g.tail + 1 ≤ q := hle
    exact h.unused q hq (by omega)
  · replace hq : q < g.tail + 1 := hq
    by_cases hqt : q = g.tail
    · rw [hqt]
      simpa [Queue.take] using hres
    · rw [Queue.resources_take_ne hqt]
      exact h.asked q (by omega)
  · replace hs : (g.take t res).stage g.head = .released := hs
    by_cases hqt : g.head = g.tail
    · rw [hqt, Queue.stage_take_self] at hs
      cases hs
    · rw [Queue.stage_take_ne hqt] at hs
      exact h.watched (lt_of_le_of_ne h.order hqt) hs

/-- The ticket at the head leaves the queue. -/
theorem dequeue (h : Inv k l g) (hlt : g.head < g.tail) (hs : g.stage g.head = .released) (hw : g.watch t = .fresh) (n : ℕ) :
    Inv k { l with head := BitVec.ofNat 32 (g.head + 1), attempts := n } (g.dequeue t) := by
  have hne : ∀ {q}, q ≠ g.head → (g.dequeue t).rank q = g.rank q := fun hq => Queue.rank_of_stage (Queue.stage_dequeue_ne hq)
  have hlast : g.tail ≤ g.head + 2 ^ k := h.tail_le
  refine ⟨h.size, rfl, h.tail, hlt, h.room, fun q hq => ?_, fun q hq hlt' => ?_, fun q hq => ?_, fun q hq => ?_, fun q hq hle => ?_,
    h.unused, h.asked, fun _ _ => ⟨t, .inl hw⟩⟩
  · replace hq : g.tail ≤ q := hq
    rw [Queue.stage_dequeue_ne (by omega)]
    exact h.future q hq
  · replace hq : g.head + 1 ≤ q := hq
    rw [hne (by omega)]
    exact h.queued q (by omega) hlt'
  · replace hq : q < g.head + 1 := hq
    by_cases hqh : q = g.head
    · unfold Queue.rank
      rw [hqh, Queue.stage_dequeue_self]
      decide
    · rw [hne hqh]
      exact h.past q (by omega)
  · replace hq : q + 2 ^ k < g.tail := hq
    rw [Queue.stage_dequeue_ne (by omega)]
    exact h.round q hq
  · refine (h.cell q hq hle).trans ?_
    by_cases hqh : q = g.head
    · unfold Queue.content
      rw [hqh, Queue.stage_dequeue_self, hs]
    · exact (Queue.content_congr (Queue.stage_dequeue_ne hqh) rfl).symm

end Inv

end Moves

/-! ### What other threads leave -/

/-- What a move of another thread leaves the thread `u`. -/
structure Spares (u : ℕ) (g g' : Queue w) : Prop where
  head : g.head ≤ g'.head
  tail : g.tail ≤ g'.tail
  rank : ∀ p, g.rank p ≤ g'.rank p
  owner : ∀ p < g.tail, g'.owner p = g.owner p
  resources : ∀ p < g.tail, g'.resources p = g.resources p
  mine : ∀ p < g.tail, g.owner p = u → g.rank p < 4 → g'.stage p = g.stage p
  taken : ∀ p, g.tail ≤ p → p < g'.tail → g'.owner p ≠ u
  dequeuer : ∀ p, 5 ≤ g.rank p → g'.dequeuer p = g.dequeuer p
  recycling : ∀ p, 5 ≤ g.rank p → g.dequeuer p = u → g'.stage p = g.stage p
  dequeues : ∀ p, g.rank p < 5 → 5 ≤ g'.rank p → g'.dequeuer p ≠ u
  watch : g'.watch u = g.watch u

section Spares

variable {k : ℕ} {l : MRLock w} {g g' g'' : Queue w} {p t u : ℕ} {s : Stage} {res : BitVec w} {x : Watch}

theorem Spares.refl : Spares u g g :=
  ⟨le_rfl, le_rfl, fun _ => le_rfl, fun _ _ => rfl, fun _ _ => rfl, fun _ _ _ _ => rfl, fun _ hge hlt => absurd hlt (not_lt.mpr hge),
    fun _ _ => rfl, fun _ _ _ => rfl, fun _ hlt hge => absurd hlt (not_lt.mpr hge), rfl⟩

theorem Spares.trans (h : Spares u g g') (h' : Spares u g' g'') : Spares u g g'' where
  head := h.head.trans h'.head
  tail := h.tail.trans h'.tail
  rank p := (h.rank p).trans (h'.rank p)
  owner p hp := (h'.owner p (hp.trans_le h.tail)).trans (h.owner p hp)
  resources p hp := (h'.resources p (hp.trans_le h.tail)).trans (h.resources p hp)
  mine p hp ho hr := by
    have hs := h.mine p hp ho hr
    refine (h'.mine p (hp.trans_le h.tail) ((h.owner p hp).trans ho) ?_).trans hs
    rwa [Queue.rank_of_stage hs]
  taken p hge hlt := by
    by_cases hp : p < g'.tail
    · rw [h'.owner p hp]
      exact h.taken p hge hp
    · exact h'.taken p (not_lt.mp hp) hlt
  dequeuer p hp := (h'.dequeuer p (hp.trans (h.rank p))).trans (h.dequeuer p hp)
  recycling p hp hd := (h'.recycling p (hp.trans (h.rank p)) ((h.dequeuer p hp).trans hd)).trans (h.recycling p hp hd)
  dequeues p hlt hge := by
    by_cases hp : 5 ≤ g'.rank p
    · rw [h'.dequeuer p hp]
      exact h.dequeues p hlt hp
    · exact h'.dequeues p (not_le.mp hp) hge
  watch := h'.watch.trans h.watch

theorem Spares.take (h : Inv k l g) (hne : t ≠ u) : Spares u g (g.take t res) where
  head := le_rfl
  tail := Nat.le_succ _
  rank p := by
    by_cases hp : p = g.tail
    · have hfree : g.rank p = 0 := by
        unfold Queue.rank
        rw [h.future p hp.ge]
        rfl
      rw [hfree]
      exact Nat.zero_le _
    · exact (Queue.rank_of_stage (Queue.stage_take_ne hp)).ge
  owner p hp := Queue.owner_take_ne hp.ne
  resources p hp := Queue.resources_take_ne hp.ne
  mine p hp _ _ := Queue.stage_take_ne hp.ne
  taken p hge hlt := by
    have hp : p = g.tail := le_antisymm (Nat.lt_succ_iff.mp hlt) hge
    rw [hp]
    simpa [Queue.take] using hne
  dequeuer _ _ := rfl
  recycling p hp _ := Queue.stage_take_ne (h.lt_of_rank (by omega)).ne
  dequeues p hlt hge := by
    by_cases hp : p = g.tail
    · have hrank : (g.take t res).rank p = 1 := by
        unfold Queue.rank
        rw [hp, Queue.stage_take_self]
        rfl
      omega
    · rw [Queue.rank_of_stage (Queue.stage_take_ne hp)] at hge
      omega
  watch := rfl

/-- A ticket that `u` has nothing to do with goes on to its next stage. -/
theorem Spares.advance (hle : g.rank p ≤ s.rank) (hqueued : g.rank p < 5 → s.rank < 5) (howner : g.rank p < 4 → g.owner p ≠ u)
    (hdequeuer : 5 ≤ g.rank p → g.dequeuer p ≠ u) : Spares u g (g.advance p s) where
  head := le_rfl
  tail := le_rfl
  rank q := by
    by_cases hq : q = p
    · subst hq
      simpa [Queue.rank] using hle
    · exact (Queue.rank_of_stage (Queue.stage_advance_ne hq)).ge
  owner _ _ := rfl
  resources _ _ := rfl
  mine q _ ho hr := by
    refine Queue.stage_advance_ne fun hq => ?_
    subst hq
    exact howner hr ho
  taken _ hge hlt := absurd hlt (not_lt.mpr hge)
  dequeuer _ _ := rfl
  recycling q hr hd := by
    refine Queue.stage_advance_ne fun hq => ?_
    subst hq
    exact hdequeuer hr hd
  dequeues q hlt hge := by
    by_cases hq : q = p
    · subst hq
      have hrank : (g.advance q s).rank q = s.rank := by simp [Queue.rank]
      have := hqueued hlt
      omega
    · rw [Queue.rank_of_stage (Queue.stage_advance_ne hq)] at hge
      omega
  watch := rfl

theorem Spares.dequeue (hs : g.stage g.head = .released) (hne : t ≠ u) : Spares u g (g.dequeue t) where
  head := Nat.le_succ _
  tail := le_rfl
  rank q := by
    by_cases hq : q = g.head
    · unfold Queue.rank
      rw [hq, hs, Queue.stage_dequeue_self]
      decide
    · exact (Queue.rank_of_stage (Queue.stage_dequeue_ne hq)).ge
  owner _ _ := rfl
  resources _ _ := rfl
  mine q _ _ hr := by
    refine Queue.stage_dequeue_ne fun hq => ?_
    unfold Queue.rank at hr
    rw [hq, hs] at hr
    exact absurd hr (by decide)
  taken _ hge hlt := absurd hlt (not_lt.mpr hge)
  dequeuer q hr := by
    have hq : q ≠ g.head := by
      rintro rfl
      unfold Queue.rank at hr
      rw [hs] at hr
      exact absurd hr (by decide)
    simp [Queue.dequeue, hq]
  recycling q hr _ := by
    refine Queue.stage_dequeue_ne fun hq => ?_
    unfold Queue.rank at hr
    rw [hq, hs] at hr
    exact absurd hr (by decide)
  dequeues q hlt hge := by
    by_cases hq : q = g.head
    · rw [hq]
      simpa [Queue.dequeue] using hne
    · rw [Queue.rank_of_stage (Queue.stage_dequeue_ne hq)] at hge
      omega
  watch := rfl

theorem Spares.look (hne : t ≠ u) : Spares u g (g.look t x) :=
  ⟨le_rfl, le_rfl, fun _ => le_rfl, fun _ _ => rfl, fun _ _ => rfl, fun _ _ _ _ => rfl, fun _ hge hlt => absurd hlt (not_lt.mpr hge),
    fun _ _ => rfl, fun _ _ _ => rfl, fun _ hlt hge => absurd hlt (not_lt.mpr hge), by simp [Queue.look, hne.symm]⟩

end Spares

end LockFreeSearchTree.MRLock
