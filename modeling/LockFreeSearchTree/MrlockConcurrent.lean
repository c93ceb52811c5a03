import LockFreeSearchTree.MrlockCalls
import LockFreeSearchTree.MrlockRaces

/-! # The tree behind one lock, shared by threads

Any number of threads call the methods of `MrlockTree`.  Every access to the lock and to a node is one step,
and so is every operation of a treap.

* The constructor of the lock makes a buffer whose size is a power of two (`bufferSize_spec`).
* All calls ask for the same resource (`treeLock`).
* The calls are linearizable: they return what the calls of a multiset return that are made one at a time,
  except for those that end in an exception, which have had their effect on the multiset or none
  (`calls_linearizable`).  This rests on the conditions of the lock on the tickets and on the head (`Next`).
* Without either of them, two insertions change the tree at the same time, and one of them is lost.  In a run
  without removals, of two queries of the same range one has found all that the other has (`found_chain`), which
  is not so then (`lostTurns`).  -/

namespace LockFreeSearchTree

open Concurrent

/-! ### The size of the buffer -/

namespace MRLock

theorem toNat_two_pow {i : ℕ} (hi : i ≤ 31) : (BitVec.ofNat 32 (2 ^ i)).toNat = 2 ^ i :=
  toNat_ofNat (size_lt hi)

theorem two_pow_shiftLeft (i : ℕ) : BitVec.ofNat 32 (2 ^ i) <<< 1 = BitVec.ofNat 32 (2 ^ (i + 1)) := by
  apply BitVec.eq_of_toNat_eq
  rw [BitVec.toNat_shiftLeft, BitVec.toNat_ofNat, BitVec.toNat_ofNat, Nat.shiftLeft_eq, pow_one, Nat.mod_mul_mod, pow_succ 2 i]

/-- The loop finds the first power of two above `maxThreads`. -/
theorem bufferSizeLoop_spec {maxThreads : BitVec 32} (hm : maxThreads.toNat < 2 ^ 31) : ∀ (fuel : ℕ) {i : ℕ}, i ≤ 31 →
    32 ≤ fuel + i → ∃ k, i ≤ k ∧ k ≤ 31 ∧ bufferSizeLoop maxThreads fuel (BitVec.ofNat 32 (2 ^ i)) = .ok (BitVec.ofNat 32 (2 ^ k)) ∧
      maxThreads.toNat < 2 ^ k ∧ ∀ j, i ≤ j → j < k → 2 ^ j ≤ maxThreads.toNat
  | 0, i, hi, hfuel => by omega
  | fuel + 1, i, hi, hfuel => by
      unfold bufferSizeLoop
      by_cases hle : 2 ^ i ≤ maxThreads.toNat
      · have hlt : i < 31 := (Nat.pow_lt_pow_iff_right (by decide)).mp (hle.trans_lt hm)
        obtain ⟨k, hik, hk, hloop, hbig, hsmall⟩ := bufferSizeLoop_spec hm fuel (i := i + 1) hlt (by omega)
        rw [if_pos (by rw [BitVec.le_def, toNat_two_pow hi]; exact hle), two_pow_shiftLeft]
        refine ⟨k, by omega, hk, hloop, hbig, fun j hj hjk => ?_⟩
        cases Nat.eq_or_lt_of_le hj with
        | inl he => exact he ▸ hle
        | inr hj => exact hsmall j hj hjk
      · rw [if_neg (by rw [BitVec.le_def, toNat_two_pow hi]; exact hle)]
        exact ⟨i, le_rfl, hi, rfl, not_le.mp hle, fun j hj hji => absurd hji (not_lt.mpr hj)⟩

/-- With more threads than the largest power of two, the loop goes on for ever: the size becomes `0`. -/
theorem bufferSizeLoop_diverges {maxThreads : BitVec 32} (hm : 2 ^ 31 ≤ maxThreads.toNat) : ∀ (fuel i : ℕ),
    bufferSizeLoop maxThreads fuel (BitVec.ofNat 32 (2 ^ i)) = .error .outOfFuel
  | 0, _ => rfl
  | fuel + 1, i => by
      unfold bufferSizeLoop
      have hle : (BitVec.ofNat 32 (2 ^ i)).toNat ≤ 2 ^ 31 := by
        by_cases hi : i ≤ 31
        · rw [toNat_two_pow hi]
          exact Nat.pow_le_pow_right (by decide) hi
        · obtain ⟨d, rfl⟩ := Nat.exists_eq_add_of_le (not_le.mp hi)
          rw [BitVec.toNat_ofNat, pow_add, Nat.mul_mod_right]
          exact Nat.zero_le _
      rw [if_pos (by rw [BitVec.le_def]; exact hle.trans hm), two_pow_shiftLeft]
      exact bufferSizeLoop_diverges hm fuel (i + 1)

/-- The size of the buffer is the first power of two above the number of hardware threads, and at least two; it is
found if this number is less than `2 ^ 31`, and never otherwise. -/
theorem bufferSize_spec (maxThreads : BitVec 32) :
    (maxThreads.toNat < 2 ^ 31 → ∃ k, 1 ≤ k ∧ k ≤ 31 ∧ bufferSize maxThreads = .ok (BitVec.ofNat 32 (2 ^ k)) ∧
      BitVec.ofNat 32 (2 ^ k) - 1 = bufferMask k ∧ maxThreads.toNat < 2 ^ k ∧ ∀ j, 1 ≤ j → j < k → 2 ^ j ≤ maxThreads.toNat) ∧
    (2 ^ 31 ≤ maxThreads.toNat → ∀ fuel, bufferSizeLoop maxThreads fuel 2 = .error .outOfFuel) := by
  refine ⟨fun hm => ?_, fun hm fuel => bufferSizeLoop_diverges hm fuel 1⟩
  obtain ⟨k, h1, hk, hloop, hbig, hsmall⟩ := bufferSizeLoop_spec hm 32 (i := 1) (by decide) (by decide)
  refine ⟨k, h1, hk, hloop, ?_, hbig, hsmall⟩
  apply BitVec.eq_of_toNat_eq
  rw [BitVec.toNat_sub, toNat_two_pow hk, toNat_bufferMask hk]
  have hpos : 0 < 2 ^ k := Nat.two_pow_pos k
  have hlt := size_lt hk
  show (2 ^ 32 - 1 + 2 ^ k) % 2 ^ 32 = 2 ^ k - 1
  omega

end MRLock

/-! ### The lock of the tree -/

namespace MrlockHeap

/-- The field `treeLock`. -/
def treeLock : Bitset := (Bitset.Resize 1).Set 1

/-- Its only word. -/
def treeLockWord : BitVec 32 := treeLock.bits.headD 0

open MRLock (Locked Implements)

/-- The calls on the tree, each with the number of steps its loops may take. -/
def tree : Locked 32 Op.Ret Heap (ℕ × Call) Result where
  exec := exec
  resources _ := treeLockWord
  fuel c := c.1
  scope c := body c.1 c.2

/-- Whether a call updates the tree. -/
def isUpdate : Call → Bool
  | .insert _ | .remove _ => true
  | .lookup _ | .rangeQuery _ _ => false

/-- A call on the multiset; an update may end in an exception, before or after its effect. -/
def StoredOrThrown (values : Multiset ℤ) (c : ℕ × Call) (r : Except Fault Result) (values' : Multiset ℤ) : Prop :=
  match r with
  | .ok r => Stored values (c.2, r) values'
  | .error _ => isUpdate c.2 = true ∧ (values' = values ∨ values' = MrlockTree.updated c.2 values)

/-- The heap holds a tree with the values of the multiset. -/
def Represents (h : Heap) (values : Multiset ℤ) : Prop :=
  ∃ s ids lost, Holds h s ids lost ∧ s.head.Wf ∧ s.head.values = values

/-- Calls that do not update the tree do not throw. -/
theorem isUpdate_of_error {s : MrlockTree.State} (hwf : s.head.Wf) {c : Call} {e : Fault}
    (h : (MrlockTree.call s c).1 = .error e) : isUpdate c = true := by
  cases c with
  | insert | remove => rfl
  | lookup val =>
      obtain ⟨found, hf, _⟩ := MrlockTree.lookup_spec val hwf
      have hcall : (MrlockTree.lookup val s.head).map Result.bool = .error e := h
      rw [hf] at hcall
      cases hcall
  | rangeQuery low high =>
      obtain ⟨values, hv, _⟩ := MrlockTree.rangeQuery_spec low high hwf
      have hcall : (MrlockTree.rangeQuery low high s.head).map Result.vector = .error e := h
      rw [hv] at hcall
      cases hcall

theorem call_storedOrThrown {s : MrlockTree.State} (hwf : s.head.Wf) (c : ℕ × Call) :
    StoredOrThrown s.head.values c (MrlockTree.call s c.2).1 (MrlockTree.call s c.2).2.head.values := by
  unfold StoredOrThrown
  cases hr : (MrlockTree.call s c.2).1 with
  | ok r => exact (MrlockTree.returns_stored hwf (Prod.ext hr rfl)).1
  | error e =>
      have hfail := MrlockTree.call_error (c := c.2) (e := e) hwf (Prod.ext hr rfl)
      refine ⟨isUpdate_of_error hwf hr, ?_⟩
      by_cases hthrows : MrlockTree.CopyThrows s c.2
      · exact .inl (congrArg MrlockTree.Node.values (hfail.unchanged hthrows))
      · exact .inr (hfail.completed hthrows)

theorem tree_implements : Implements tree StoredOrThrown Represents where
  collide _ _ := (show treeLockWord &&& treeLockWord ≠ 0 by decide)
  meets c values h r h' hrep hout hr := by
    obtain ⟨s, ids, lost, hh, hwf, rfl⟩ := hrep
    have hspec := body_spec hh c.1 c.2
    have hbody : (body c.1 c.2).outcome exec h = (r, h') := hout
    rw [hbody] at hspec
    rcases hspec with ⟨_, hfail⟩ | ⟨g, ids', hcall, hh'⟩
    · exact absurd (Prod.mk.inj hfail).1 hr
    · obtain ⟨rfl, rfl⟩ := Prod.mk.inj hcall
      have hcalls : MrlockTree.Calls s (c.2, (MrlockTree.call s c.2).1) (MrlockTree.call s c.2).2 := rfl
      exact ⟨_, call_storedOrThrown hwf c, _, ids', _, hh', MrlockTree.calls_wf hwf hcalls, rfl⟩

/-! ### Runs without removals -/

/-- The call is no removal. -/
def Keeping (c : ℕ × Call) : Prop := ∀ val, c.2 ≠ .remove val

/-- Calls that are no removals only add values. -/
theorem StoredOrThrown.le {values values' : Multiset ℤ} {c : ℕ × Call} {r : Except Fault Result} (h : StoredOrThrown values c r values')
    (hc : Keeping c) : values ≤ values' := by
  obtain ⟨fuel, call⟩ := c
  cases r with
  | error e =>
      obtain ⟨_, rfl | rfl⟩ := h
      · exact le_rfl
      · cases call with
        | insert val => exact Multiset.le_cons_self _ _
        | remove val => exact absurd rfl (hc val)
        | lookup val => exact le_rfl
        | rangeQuery low high => exact le_rfl
  | ok r =>
      cases call with
      | insert val =>
          cases r with
          | void => exact (show values' = val ::ₘ values from h) ▸ Multiset.le_cons_self _ _
          | bool => exact h.elim
          | vector => exact h.elim
      | remove val => exact absurd rfl (hc val)
      | lookup val =>
          cases r with
          | bool found => exact h.2.ge
          | void => exact h.elim
          | vector => exact h.elim
      | rangeQuery low high =>
          cases r with
          | vector found => exact h.2.ge
          | void => exact h.elim
          | bool => exact h.elim

/-- The values a query of the range has returned in the calls `vs`, or is about to return. -/
def Found (low high : ℤ) (vs : List (Visible (ℕ × Call) (Except Fault Result)))
    (o : Atomic (Multiset ℤ) (ℕ × Call) (Except Fault Result)) (values : List ℤ) : Prop :=
  ∃ t fuel, .respond t (fuel, .rangeQuery low high) (.ok (.vector values)) ∈ vs ∨
    o.threads t = some (.done (fuel, .rangeQuery low high) (.ok (.vector values)))

/-- The values found are all there at the end, and each query has found all that an earlier one has. -/
structure Growing (low high : ℤ) (vs : List (Visible (ℕ × Call) (Except Fault Result)))
    (o : Atomic (Multiset ℤ) (ℕ × Call) (Except Fault Result)) : Prop where
  keeping : ∀ t c, o.call t = some c → Keeping c
  found : ∀ values, Found low high vs o values → (values : Multiset ℤ) ≤ o.state.filter fun v => low ≤ v ∧ v ≤ high
  chain : ∀ values values', Found low high vs o values → Found low high vs o values' →
    (values : Multiset ℤ) ≤ values' ∨ (values' : Multiset ℤ) ≤ values

section Growing

variable {low high : ℤ} {vs : List (Visible (ℕ × Call) (Except Fault Result))}
  {o : Atomic (Multiset ℤ) (ℕ × Call) (Except Fault Result)} {t : ℕ} {c : ℕ × Call} {r : Except Fault Result} {values : List ℤ}

theorem Found.of_invoke (h : Found low high (vs ++ [.invoke t c]) (o.set t (some (.pending c)) o.state) values) :
    Found low high vs o values := by
  obtain ⟨u, fuel, h | h⟩ := h
  · exact ⟨u, fuel, .inl (by simpa using h)⟩
  · by_cases hu : u = t
    · rw [hu, Atomic.threads_set_self] at h
      cases h
    · rw [Atomic.threads_set_ne _ _ _ hu] at h
      exact ⟨u, fuel, .inr h⟩

theorem Found.of_respond (hdone : o.threads t = some (.done c r)) (h : Found low high (vs ++ [.respond t c r]) (o.set t none o.state) values) :
    Found low high vs o values := by
  obtain ⟨u, fuel, h | h⟩ := h
  · cases List.mem_append.mp h with
    | inl h => exact ⟨u, fuel, .inl h⟩
    | inr h =>
        cases List.mem_singleton.mp h
        exact ⟨_, fuel, .inr hdone⟩
  · by_cases hu : u = t
    · rw [hu, Atomic.threads_set_self] at h
      cases h
    · rw [Atomic.threads_set_ne _ _ _ hu] at h
      exact ⟨u, fuel, .inr h⟩

/-- A query that takes effect finds what is there. -/
theorem Found.of_effect {state : Multiset ℤ} (hspec : StoredOrThrown o.state c r state)
    (h : Found low high vs (o.set t (some (.done c r)) state) values) :
    Found low high vs o values ∨ (values : Multiset ℤ) = o.state.filter fun v => low ≤ v ∧ v ≤ high := by
  obtain ⟨u, fuel, h | h⟩ := h
  · exact .inl ⟨u, fuel, .inl h⟩
  · by_cases hu : u = t
    · rw [hu, Atomic.threads_set_self] at h
      cases h
      exact .inr hspec.1
    · rw [Atomic.threads_set_ne _ _ _ hu] at h
      exact .inl ⟨u, fuel, .inr h⟩

theorem keeping_set {p : Option (Phase (ℕ × Call) (Except Fault Result))} {state : Multiset ℤ}
    (h : ∀ t c, o.call t = some c → Keeping c) (hp : ∀ c, p.map Phase.call = some c → Keeping c) :
    ∀ u c, (o.set t p state).call u = some c → Keeping c := by
  intro u c hu
  unfold Atomic.call at hu
  by_cases hut : u = t
  · rw [hut, Atomic.threads_set_self] at hu
    exact hp c hu
  · rw [Atomic.threads_set_ne _ _ _ hut] at hu
    exact h u c hu

theorem growing_of_run {ls : List (Event Unit (ℕ × Call) (Except Fault Result))}
    (hrun : Transition.Run (Atomic.Step StoredOrThrown) (.idle 0) ls o) (hkeep : ∀ t c, .invoke t c ∈ visible ls → Keeping c) :
    Growing low high (visible ls) o := by
  induction hrun with
  | nil =>
      have hnone : ∀ values, ¬ Found low high [] (.idle 0) values := by
        rintro values ⟨t, fuel, h | h⟩
        · cases h
        · cases h
      exact ⟨fun t c h => (by cases h), fun values h => absurd h (hnone values), fun values _ h => absurd h (hnone values)⟩
  | snoc _ hlast ih =>
      rw [visible_snoc] at hkeep ⊢
      have ih := ih fun t c h => hkeep t c (List.mem_append_left _ h)
      cases hlast with
      | @invoke t c hidle =>
          have hc : Keeping c := hkeep t c (by simp [Event.visible])
          refine ⟨keeping_set ih.keeping fun c' he => Option.some.inj he ▸ hc, fun values h => ?_, fun values values' h h' => ?_⟩
          · exact ih.found values h.of_invoke
          · exact ih.chain values values' h.of_invoke h'.of_invoke
      | @effect t c r state hpending hspec =>
          have hc : Keeping c := ih.keeping t c (by rw [Atomic.call, hpending]; rfl)
          have hle := hspec.le hc
          rw [show (Event.access t () : Event Unit (ℕ × Call) (Except Fault Result)).visible.toList = [] from rfl, List.append_nil]
          refine ⟨keeping_set ih.keeping fun c' he => Option.some.inj he ▸ hc, fun values h => ?_, fun values values' h h' => ?_⟩
          · refine le_trans ?_ (Multiset.filter_le_filter _ hle)
            rcases h.of_effect hspec with h | h
            · exact ih.found values h
            · exact h.le
          · rcases h.of_effect hspec with h | h <;> rcases h'.of_effect hspec with h' | h'
            · exact ih.chain values values' h h'
            · exact .inl (h' ▸ ih.found values h)
            · exact .inr (h ▸ ih.found values' h')
            · exact .inl (h.trans h'.symm).le
      | @respond t c r hdone =>
          refine ⟨keeping_set ih.keeping fun c' he => (by cases he), fun values h => ?_, fun values values' h h' => ?_⟩
          · exact ih.found values (h.of_respond hdone)
          · exact ih.chain values values' (h.of_respond hdone) (h'.of_respond hdone)

end Growing

/-- In a run without removals, of two queries of the same range one has found all that the other has. -/
theorem found_chain {low high : ℤ} {vs : List (Visible (ℕ × Call) (Except Fault Result))}
    {o : Atomic (Multiset ℤ) (ℕ × Call) (Except Fault Result)} (h : Linearizes StoredOrThrown 0 vs o)
    (hkeep : ∀ t c, .invoke t c ∈ vs → Keeping c) {t u fuel fuel' : ℕ} {values values' : List ℤ}
    (hv : .respond t (fuel, .rangeQuery low high) (.ok (.vector values)) ∈ vs)
    (hv' : .respond u (fuel', .rangeQuery low high) (.ok (.vector values')) ∈ vs) :
    (values : Multiset ℤ) ≤ values' ∨ (values' : Multiset ℤ) ≤ values := by
  obtain ⟨ls, hrun, rfl⟩ := h
  exact (growing_of_run hrun hkeep).chain _ _ ⟨_, _, .inl hv⟩ ⟨_, _, .inl hv'⟩

/-! ### The calls of many threads -/

abbrev TreeEvent := Event (MRLock.Op 32 Op) (ℕ × Call) (Except Fault Result)

abbrev TreeConfig := Config (MRLock.Op 32 Op) (MRLock.Op.Ret Op.Ret) Fault (MRLock.State 32 Heap) (ℕ × Call) (Except Fault Result)

/-- The steps that meet the conditions on the tickets and on the head. -/
def Next (k : ℕ) (cfg : TreeConfig) (e : TreeEvent) (cfg' : TreeConfig) : Prop :=
  Step (MRLock.exec tree.exec) (tree.body k) cfg e cfg' ∧ tree.Meets k .room e cfg.shared ∧ tree.Meets k .released e cfg.shared

/-- All calls ask for the resource of the tree. -/
theorem Next.protocol {k : ℕ} {cfg cfg' : TreeConfig} {e : TreeEvent} (h : Next k cfg e cfg') : tree.Next k cfg e cfg' := by
  refine ⟨h.1, fun x => ?_⟩
  cases x with
  | asks =>
      cases e with
      | invoke t c => exact (show treeLockWord ≠ 0 by decide)
      | access t o => trivial
      | respond t c r => trivial
  | room => exact h.2.1
  | released => exact h.2.2

/-- What the queries of a range have returned. -/
def answers (low high : ℤ) (vs : List (Visible (ℕ × Call) (Except Fault Result))) : List (List ℤ) :=
  vs.filterMap fun
    | .respond _ c (.ok (.vector values)) => if c.2 = .rangeQuery low high then some values else none
    | _ => none

theorem mem_of_answers {low high : ℤ} {vs : List (Visible (ℕ × Call) (Except Fault Result))} {values : List ℤ}
    (h : values ∈ answers low high vs) : ∃ t fuel, .respond t (fuel, .rangeQuery low high) (.ok (.vector values)) ∈ vs := by
  obtain ⟨v, hv, he⟩ := List.mem_filterMap.mp h
  split at he
  · rename_i t c _
    split_ifs at he with hc
    cases he
    exact ⟨t, c.1, hc ▸ hv⟩
  · cases he

/-- Where the schedules that break a condition start. -/
def treeOrigin : MRLock.Condition → TreeConfig
  | .asks | .released => .idle (MRLock.start (fun _ => false) newTree)
  | .room => tree.overtaken 2 (20, .lookup 0) newTree

/-- Two insertions at the same time; a query finds the value of one, and the next query that of the other.

* `room`: the thread that has been overtaken overwrites the request of the first insertion.
* `released`: a thread has found a cell without bits, which the first insertion takes, and moves the head past it. -/
def lostTurns : MRLock.Condition → List (Turn (ℕ × Call))
  | .asks => []
  | .room => [.call 0 (20, .insert 5), .go 0 10, .call 2 (20, .insert 7), .go 2 6, .call 3 (20, .rangeQuery 0 9), .go 3 6,
      .call 4 (20, .rangeQuery 0 9), .go 4 6, .go 1 3, .go 2 11, .go 3 10, .go 0 1, .go 4 12]
  | .released => [.call 0 (20, .lookup 0), .go 0 14, .call 1 (20, .lookup 0), .go 1 19, .call 1 (20, .lookup 0), .go 1 19,
      .call 1 (20, .lookup 0), .go 1 18, .go 0 5, .call 0 (20, .insert 5), .go 0 10, .go 1 7, .call 1 (20, .insert 7), .go 1 22,
      .call 2 (20, .rangeQuery 0 9), .go 2 19, .go 0 1, .call 2 (20, .rangeQuery 0 9), .go 2 19]

theorem keeping_of_turns {x : MRLock.Condition} {t : ℕ} {c : ℕ × Call} (h : .call t c ∈ lostTurns x) : Keeping c := by
  obtain ⟨fuel, call⟩ := c
  rintro val rfl
  cases x <;> simp [lostTurns] at h

theorem answers_of_turns {x : MRLock.Condition} (hx : x ≠ .asks) :
    ((tree.without 2 x (treeOrigin x) (lostTurns x)).map fun y => answers 0 9 (visible y.1)) = some [[7], [5]] := by
  cases x with
  | asks => exact absurd rfl hx
  | room => decide +kernel
  | released => decide +kernel

theorem shared_stalled_tree : ((tree.stalled 2 (20, .lookup 0) newTree).map fun x => x.2.shared) =
    some (MRLock.start (fun _ => false) newTree) := rfl

theorem reachable_treeOrigin (x : MRLock.Condition) :
    ∃ ls, Transition.Run (tree.NextBut 2 x) (.idle (MRLock.start (fun _ => false) newTree)) ls (treeOrigin x) ∧
      ∀ t c, .invoke t c ∈ ls → Keeping c := by
  cases x with
  | asks => exact ⟨[], .nil, fun t c h => absurd h List.not_mem_nil⟩
  | room =>
      obtain ⟨ls, hrun, hls⟩ := tree.overtaken_run shared_stalled_tree (by decide) (x := .bool false) (by decide) rfl rfl
      exact ⟨ls, hrun, fun t c h val => by rw [hls t c h]; nofun⟩
  | released => exact ⟨[], .nil, fun t c h => absurd h List.not_mem_nil⟩

/-- The calls of any number of threads on a new tree return what those of a multiset return that take effect at one
moment each; when no thread is in a call, the heap holds a tree with the values of the multiset.  This is so if all
steps have met the conditions on the tickets and on the head, neither of which can be left out. -/
theorem calls_linearizable {k : ℕ} (hk : 1 ≤ k ∧ k ≤ 31) {env env' : Env} {n : MrlockTree.Node}
    (hnew : MrlockTree.new env = (.ok (), n, env')) {h₀ : Heap} (hcreate : create.outcome exec (empty env) = (.ok (), h₀)) :
    (∀ {spurious : ℕ → Bool} {ls : List TreeEvent} {cfg : TreeConfig},
      Transition.Run (Next k) (.idle (MRLock.start spurious h₀)) ls cfg →
        ∃ o, Linearizes StoredOrThrown 0 (visible ls) o ∧ (cfg.Quiescent → Represents cfg.shared.data o.state)) ∧
    ∀ x : MRLock.Condition, x ≠ .asks → ∃ ls cfg,
      Transition.Run (tree.NextBut 2 x) (.idle (MRLock.start (fun _ => false) newTree)) ls cfg ∧
        ¬ ∃ o, Linearizes StoredOrThrown 0 (visible ls) o := by
  refine ⟨fun {spurious ls cfg} hrun => ?_, fun x hx => ?_⟩
  · obtain ⟨h, hout, hh⟩ := create_holds hnew
    rw [hcreate] at hout
    cases hout
    obtain ⟨hvalues, hwf, _⟩ := MrlockTree.new_spec hnew
    have hrun : Transition.Run (tree.Next k) (.idle (MRLock.start spurious h₀)) (ls.map id) cfg :=
      hrun.relabel fun _ _ _ hstep => hstep.protocol
    rw [List.map_id] at hrun
    exact MRLock.linearizable tree_implements hk ⟨_, _, _, hh, hwf, hvalues⟩ hrun
  · obtain ⟨ls, hrun, hls⟩ := reachable_treeOrigin x
    obtain ⟨⟨ls', cfg⟩, hturns, hanswers⟩ := Option.map_eq_some_iff.mp (answers_of_turns hx)
    refine ⟨ls ++ ls', cfg, hrun.trans (MRLock.Locked.run_of_without hturns), ?_⟩
    rintro ⟨o, hlin⟩
    have hkeep : ∀ t c, .invoke t c ∈ visible (ls ++ ls') → Keeping c := by
      intro t c h
      cases List.mem_append.mp (mem_visible_invoke.mp h) with
      | inl h => exact hls t c h
      | inr h => exact keeping_of_turns (Config.mem_of_checked hturns h)
    have hmem : ∀ values ∈ [[7], [5]], ∃ t fuel, .respond t (fuel, .rangeQuery 0 9) (.ok (.vector values)) ∈ visible (ls ++ ls') := by
      intro values h
      rw [← hanswers] at h
      obtain ⟨t, fuel, h⟩ := mem_of_answers h
      exact ⟨t, fuel, visible_append ls ls' ▸ List.mem_append_right _ h⟩
    obtain ⟨_, _, h₇⟩ := hmem [7] (by decide)
    obtain ⟨_, _, h₅⟩ := hmem [5] (by decide)
    exact absurd (found_chain hlin hkeep h₇ h₅) (by decide)

/-- Three threads, two of which wait for the third, and then two threads, one of which waits for the other. -/
def treeTurns : List (Turn (ℕ × Call)) :=
  [.call 0 (20, .insert 5), .go 0 9, .call 1 (20, .insert 7), .go 1 9, .call 2 (20, .rangeQuery 0 9), .go 2 9, .go 0 8, .go 1 12,
    .go 2 16, .go 0 5, .go 1 5, .call 1 (20, .remove 5), .go 1 9, .call 0 (20, .lookup 5), .go 0 9, .go 1 12, .go 0 15]

def treeCalls : Option (List TreeEvent × TreeConfig) :=
  Config.checked (MRLock.exec tree.exec) (tree.body 2) (fun e s => decide (tree.Meets 2 .room e s ∧ tree.Meets 2 .released e s)) treeTurns
    (.idle (MRLock.start (fun _ => false) newTree))

theorem calls_linearizable_threads : ∃ ls cfg o, Transition.Run (Next 2) (.idle (MRLock.start (fun _ => false) newTree)) ls cfg ∧
    answers 0 9 (visible ls) = [[5, 7]] ∧ cfg.Quiescent ∧ Linearizes StoredOrThrown 0 (visible ls) o ∧
      Represents cfg.shared.data o.state := by
  have h : (treeCalls.map fun x => decide ((∀ t : ℕ, t < 3 → (x.2.threads t).isNone = true) ∧
      answers 0 9 (visible x.1) = [[5, 7]])) = some true := by decide +kernel
  obtain ⟨ls, cfg, hrun, hq, hanswers⟩ :=
    Config.checked_ends (N := Next 2) (fun hstep hok => ⟨hstep, of_decide_eq_true hok⟩) (fun _ _ => rfl) (by decide) h
  obtain ⟨o, hlin, hrep⟩ :=
    (calls_linearizable (k := 2) (by decide) (show MrlockTree.new MrlockTree.plainEnv = (.ok (), _, _) from rfl) rfl).1 hrun
  exact ⟨ls, cfg, o, hrun, hanswers, hq, hlin, hrep hq⟩

end MrlockHeap

end LockFreeSearchTree
