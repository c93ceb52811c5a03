import LockFreeSearchTree.MrlockRuns

/-! # Calls of one thread

One thread calls a scope over and over, while all others are idle or wait.  Its tickets are recycled in the order in
which it takes them, also when the 32-bit counters wrap.

* `cleared k n` is the lock before the ticket `n`, all earlier ones having been recycled.
* A call takes the lock from one ticket to the next (`call_alone`), by steps that meet all conditions of the
  protocol but `room` (`roomyExec`).
* All tickets but the last `2 ^ k` before the counters wrap are taken while another thread is about to take the
  ticket `0` (`overtaken`).  -/

namespace LockFreeSearchTree.MRLock

open Concurrent

variable {w k n : ℕ} {D : Type} {DRet : D → Type} {δ C R : Type}

/-! ### The lock between two calls -/

/-- The cells when all tickets below `n` have been recycled. -/
def recycledBuffer (k : ℕ) : ℕ → BitVec 32 → Cell w
  | 0 => fun i => ⟨i, BitVec.allOnes w⟩
  | n + 1 => Function.update (recycledBuffer k n) (slot k n) (freeCell (n + 2 ^ k))

/-- The lock when all tickets below `n` have been recycled, after `a` attempts to exchange a value. -/
def cleared (k n a : ℕ) : MRLock w where
  buffer := recycledBuffer k n
  head := BitVec.ofNat 32 n
  tail := BitVec.ofNat 32 n
  spurious _ := false
  attempts := a

theorem recycledBuffer_slot (hk : k ≤ 31) {p : ℕ} (hge : n ≤ p) (hlt : p < n + 2 ^ k) :
    (recycledBuffer k n (slot k p) : Cell w) = freeCell p := by
  induction n with
  | zero =>
      have hp : slot k p = BitVec.ofNat 32 p := by rw [slot, Nat.mod_eq_of_lt (by omega)]
      rw [hp]
      rfl
  | succ n ih =>
      unfold recycledBuffer
      rcases Nat.lt_or_ge p (n + 2 ^ k) with hp | hp
      · have hne : slot k p ≠ slot k n := fun he => by
          have := eq_of_slot_eq hk he hp (by omega)
          omega
        rw [Function.update_of_ne hne]
        exact ih (by omega) hp
      · rw [show p = n + 2 ^ k by omega, slot_add, Function.update_self]

/-- The cells beyond the buffer are never used. -/
theorem recycledBuffer_of_le (hk : k ≤ 31) {i : BitVec 32} (hi : 2 ^ k ≤ i.toNat) :
    (recycledBuffer k n i : Cell w) = ⟨i, BitVec.allOnes w⟩ := by
  induction n with
  | zero => rfl
  | succ n ih =>
      have hne : i ≠ slot k n := by
        rintro rfl
        have hlt : n % 2 ^ k < 2 ^ k := Nat.mod_lt _ (Nat.two_pow_pos k)
        rw [slot, toNat_ofNat (hlt.trans (size_lt hk))] at hi
        omega
      unfold recycledBuffer
      rw [Function.update_of_ne hne, ih]

/-! ### Steps that meet all conditions but `room` -/

/-- The operations, an error being one that breaks another condition than `room`. -/
def Locked.roomyExec (L : Locked w DRet δ C R) (k : ℕ) (o : Op w D) (s : State w δ) : Except Fault (o.Ret DRet × State w δ) :=
  if L.AllowedBut k .room (.access 0 o) s then MRLock.exec L.exec o s else .error .undefinedBehaviour

section Alone

variable {L : Locked w DRet δ C R} {F : Fault → Prop} {l : MRLock w} {d : δ} {i b e : BitVec 32} {bits : BitVec w} {a : ℕ}

theorem meets_access {o : Op w D} {s s' : State w δ} {r : o.Ret DRet} {Q : o.Ret DRet → State w δ → Prop}
    (hmeets : L.Meets k .released (.access 0 o) s) (hexec : MRLock.exec L.exec o s = .ok (r, s')) :
    Prog.Meets (L.roomyExec k) F (perform o) s Q ↔ Q r s' := by
  refine Prog.meets_perform ?_
  unfold Locked.roomyExec
  rw [if_pos, hexec]
  intro y hy
  cases y with
  | asks => trivial
  | room => exact absurd rfl hy
  | released => exact hmeets

theorem meets_loadTail {Q : BitVec 32 → State w δ → Prop} :
    Prog.Meets (L.roomyExec k) F (perform .loadTail) ⟨l, d⟩ Q ↔ Q l.tail ⟨l, d⟩ := meets_access trivial rfl

theorem meets_loadHead {Q : BitVec 32 → State w δ → Prop} :
    Prog.Meets (L.roomyExec k) F (perform .loadHead) ⟨l, d⟩ Q ↔ Q l.head ⟨l, d⟩ := meets_access trivial rfl

theorem meets_loadSequence {Q : BitVec 32 → State w δ → Prop} :
    Prog.Meets (L.roomyExec k) F (perform (.loadSequence i)) ⟨l, d⟩ Q ↔ Q (l.buffer i).sequence ⟨l, d⟩ := meets_access trivial rfl

theorem meets_loadBits {Q : BitVec w → State w δ → Prop} :
    Prog.Meets (L.roomyExec k) F (perform (.loadBits i)) ⟨l, d⟩ Q ↔ Q (l.buffer i).bits ⟨l, d⟩ := meets_access trivial rfl

theorem meets_storeSequence {Q : Unit → State w δ → Prop} :
    Prog.Meets (L.roomyExec k) F (perform (.storeSequence i b)) ⟨l, d⟩ Q ↔ Q () ⟨l.setSequence i b, d⟩ := meets_access trivial rfl

theorem meets_storeBits {Q : Unit → State w δ → Prop} :
    Prog.Meets (L.roomyExec k) F (perform (.storeBits i bits)) ⟨l, d⟩ Q ↔ Q () ⟨l.setBits i bits, d⟩ := meets_access trivial rfl

theorem meets_casTail {Q : Bool → State w δ → Prop} (h : l.Succeeds l.tail e) :
    Prog.Meets (L.roomyExec k) F (perform (.casTail e b)) ⟨l, d⟩ Q ↔ Q true ⟨{ l with tail := b, attempts := l.attempts + 1 }, d⟩ :=
  meets_access trivial (by simp only [MRLock.exec, onLock, if_pos h])

theorem meets_casHead {Q : Bool → State w δ → Prop} (h : l.Succeeds l.head e) (hbits : (l.buffer (e &&& bufferMask k)).bits = 0) :
    Prog.Meets (L.roomyExec k) F (perform (.casHead e b)) ⟨l, d⟩ Q ↔ Q true ⟨{ l with head := b, attempts := l.attempts + 1 }, d⟩ :=
  meets_access (fun _ => hbits) (by simp only [MRLock.exec, onLock, if_pos h])

/-- The operations of a scope. -/
theorem meets_scope {p : Prog D DRet Fault R} {r : Except Fault R} {d' : δ} {Q : Except Fault R → State w δ → Prop}
    (hout : p.outcome L.exec d = (r, d')) :
    Prog.Meets (L.roomyExec k) F (onData p).attempt ⟨l, d⟩ Q ↔ Q r ⟨l, d'⟩ := by
  induction p generalizing d with
  | ret a =>
      cases hout
      exact Iff.rfl
  | raise e =>
      cases hout
      exact Iff.rfl
  | op o f ih =>
      have hop : Prog.Meets (L.roomyExec k) F (perform (.data o) >>= fun r => (onData (f r)).attempt) ⟨l, d⟩ Q ↔
          Prog.Meets (L.roomyExec k) F (onData (f (L.exec o d).1)).attempt ⟨l, (L.exec o d).2⟩ Q :=
        Prog.meets_bind.trans (meets_access trivial rfl)
      exact hop.trans (ih _ hout)

/-! ### A call -/

/-- The lock while the ticket `n` holds `r`. -/
def held (r : BitVec w) (k n a : ℕ) : MRLock w :=
  ({ cleared k n a with tail := BitVec.ofNat 32 n + 1, attempts := a + 1 }.setBits (BitVec.ofNat 32 n &&& bufferMask k) r).setSequence
    (BitVec.ofNat 32 n &&& bufferMask k) (BitVec.ofNat 32 n + 1)

/-- The lock when the ticket `n` has been released. -/
def freed (r : BitVec w) (k n a : ℕ) : MRLock w := (held r k n a).setBits (BitVec.ofNat 32 n &&& bufferMask k) 0

theorem cleared_self (hk : k ≤ 31) : ((cleared k n a : MRLock w).buffer (BitVec.ofNat 32 n &&& bufferMask k)) = freeCell n := by
  rw [ofNat_and_bufferMask hk]
  exact recycledBuffer_slot hk le_rfl (Nat.lt_add_of_pos_right (Nat.two_pow_pos k))

theorem freed_self (r : BitVec w) : (freed r k n a).buffer (BitVec.ofNat 32 n &&& bufferMask k) = ⟨BitVec.ofNat 32 n + 1, 0⟩ := by
  simp [freed, held, setBits, setSequence]

/-- The lock after the ticket `n` has been recycled. -/
theorem recycled_eq (hk : k ≤ 31) (r : BitVec w) :
    ({ freed r k n a with head := BitVec.ofNat 32 n + 1, attempts := a + 1 + 1 }.setBits (BitVec.ofNat 32 n &&& bufferMask k)
      (BitVec.allOnes w)).setSequence (BitVec.ofNat 32 n &&& bufferMask k) (BitVec.ofNat 32 n + bufferMask k + 1) =
        cleared k (n + 1) (a + 2) := by
  rw [← ofNat_add_size, ofNat_and_bufferMask hk]
  simp [freed, held, setBits, setSequence, cleared, recycledBuffer, freeCell, BitVec.ofNat_add, ofNat_and_bufferMask hk]

variable {fuel : ℕ} {r : BitVec w}

theorem enqueue_alone (hk : k ≤ 31) {Q : BitVec 32 → State w δ → Prop}
    (hQ : Q (BitVec.ofNat 32 n) ⟨{ cleared k n a with tail := BitVec.ofNat 32 n + 1, attempts := a + 1 }, d⟩) :
    Prog.Meets (L.roomyExec k) F (enqueue (bufferMask k) (fuel + 1)) ⟨cleared k n a, d⟩ Q := by
  unfold enqueue
  refine Prog.meets_bind.mpr (meets_loadTail.mpr (Prog.meets_bind.mpr (meets_loadSequence.mpr ?_)))
  have hseq : ((cleared k n a : MRLock w).buffer ((cleared k n a : MRLock w).tail &&& bufferMask k)).sequence = BitVec.ofNat 32 n :=
    congrArg Cell.sequence (cleared_self hk)
  rw [if_pos (by rw [hseq]; exact sub_self _), Prog.meets_bind]
  exact (meets_casTail ⟨rfl, rfl⟩).mpr hQ

theorem lock_alone (hk : k ≤ 31) {Q : BitVec 32 → State w δ → Prop} (hQ : Q (BitVec.ofNat 32 n) ⟨held r k n a, d⟩) :
    Prog.Meets (L.roomyExec k) F (lock (bufferMask k) (fuel + 1) r) ⟨cleared k n a, d⟩ Q := by
  refine Prog.meets_bind.mpr (enqueue_alone hk (Prog.meets_bind.mpr (meets_storeBits.mpr ?_)))
  refine Prog.meets_bind.mpr (meets_storeSequence.mpr (Prog.meets_bind.mpr (meets_loadHead.mpr ?_)))
  unfold spin
  rw [if_neg (fun h => h rfl)]
  exact hQ

theorem tryDequeue_alone (hk : k ≤ 31) {Q : Unit → State w δ → Prop} (hQ : Q () ⟨cleared k (n + 1) (a + 2), d⟩) :
    Prog.Meets (L.roomyExec k) F (tryDequeue (bufferMask k) (BitVec.ofNat 32 n)) ⟨freed r k n a, d⟩ Q := by
  refine Prog.meets_bind.mpr (meets_loadSequence.mpr ?_)
  rw [if_pos (by rw [freed_self]; exact sub_self _)]
  refine Prog.meets_bind.mpr ((meets_casHead ⟨rfl, rfl⟩ (congrArg Cell.bits (freed_self r))).mpr ?_)
  rw [if_pos rfl]
  refine Prog.meets_bind.mpr (meets_storeBits.mpr (meets_storeSequence.mpr ?_))
  rw [← recycled_eq hk r] at hQ
  exact hQ

theorem unlock_alone (hk : k ≤ 31) (hr : r ≠ 0) {Q : Unit → State w δ → Prop} (hQ : Q () ⟨cleared k (n + 1) (a + 2), d⟩) :
    Prog.Meets (L.roomyExec k) F (unlock (bufferMask k) (fuel + 2) (BitVec.ofNat 32 n)) ⟨held r k n a, d⟩ Q := by
  refine Prog.meets_bind.mpr (meets_storeBits.mpr (Prog.meets_bind.mpr (meets_loadHead.mpr ?_)))
  unfold dequeue
  refine Prog.meets_bind.mpr (meets_loadBits.mpr ?_)
  have hbits : ((freed r k n a).buffer ((freed r k n a).head &&& bufferMask k)).bits = 0 := congrArg Cell.bits (freed_self r)
  rw [← freed, if_pos hbits]
  refine Prog.meets_bind.mpr (tryDequeue_alone hk (Prog.meets_bind.mpr (meets_loadHead.mpr ?_)))
  -- the next cell has all its bits
  unfold dequeue
  refine Prog.meets_bind.mpr (meets_loadBits.mpr ?_)
  have hnext : ((cleared k (n + 1) (a + 2) : MRLock w).buffer ((cleared k (n + 1) (a + 2) : MRLock w).head &&& bufferMask k)).bits =
      BitVec.allOnes w := congrArg Cell.bits (cleared_self hk)
  have hones : BitVec.allOnes w ≠ 0 := by
    intro h
    apply hr
    rw [← BitVec.and_allOnes (x := r), h]
    exact BitVec.and_zero
  rw [if_neg (by rw [hnext]; exact hones)]
  exact hQ

/-- A call whose scope returns takes the lock from one ticket to the next. -/
theorem call_alone (hk : k ≤ 31) {c : C} {x : R} {d' : δ} (hres : L.resources c ≠ 0) (hfuel : L.fuel c = fuel + 2)
    (hout : (L.scope c).outcome L.exec d = (.ok x, d')) :
    (L.body k c).run (L.roomyExec k) ⟨cleared k n a, d⟩ = .ok (.ok x, ⟨cleared k (n + 1) (a + 2), d'⟩) := by
  have h : Prog.Meets (L.roomyExec k) (fun _ => False) (L.body k c) ⟨cleared k n a, d⟩
      (fun r s => r = .ok x ∧ s = ⟨cleared k (n + 1) (a + 2), d'⟩) := by
    unfold Locked.body
    rw [hfuel]
    refine Prog.meets_bind.mpr (lock_alone hk (Prog.meets_bind.mpr ((meets_scope hout).mpr ?_)))
    exact Prog.meets_bind.mpr (unlock_alone hk hres ⟨rfl, rfl⟩)
  obtain ⟨r, s, hrun, rfl, rfl⟩ := h.returns
  exact hrun

end Alone

/-! ### Any number of calls -/

section Calls

variable {L : Locked w DRet δ C R}

theorem roomy_access {cfg : Config (Op w D) (Op.Ret DRet) Fault (State w δ) C (Except Fault R)} {t : ℕ} {c : C} {o : Op w D}
    {f : o.Ret DRet → LockM w DRet (Except Fault R)} {r : o.Ret DRet} {s : State w δ} (ht : cfg.threads t = some (c, .op o f))
    (hexec : L.roomyExec k o cfg.shared = .ok (r, s)) : L.NextBut k .room cfg (.access t o) (cfg.set t (some (c, f r)) s) := by
  unfold Locked.roomyExec at hexec
  split_ifs at hexec with hok
  exact ⟨.access ht hexec, fun y hy => (L.meets_thread k cfg.shared y o t).mpr (hok y hy)⟩

theorem roomy_invoke {cfg cfg' : Config (Op w D) (Op.Ret DRet) Fault (State w δ) C (Except Fault R)} {t : ℕ} {c : C}
    (hres : L.resources c ≠ 0) (h : Step (MRLock.exec L.exec) (L.body k) cfg (.invoke t c) cfg') :
    L.NextBut k .room cfg (.invoke t c) cfg' := by
  refine ⟨h, fun y _ => ?_⟩
  cases y with
  | asks => exact hres
  | room => trivial
  | released => trivial

theorem roomy_respond {cfg : Config (Op w D) (Op.Ret DRet) Fault (State w δ) C (Except Fault R)} {t : ℕ} {c : C} {r : Except Fault R}
    (h : cfg.threads t = some (c, .ret r)) : L.NextBut k .room cfg (.respond t c r) (cfg.set t none cfg.shared) := by
  refine ⟨.respond h, fun y _ => ?_⟩
  cases y <;> trivial

/-- The thread `0` makes `n` calls that leave the data as it is. -/
theorem calls_run (hk : k ≤ 31) {c : C} {x : R} {d : δ} {fuel : ℕ} (hres : L.resources c ≠ 0) (hfuel : L.fuel c = fuel + 2)
    (hout : (L.scope c).outcome L.exec d = (.ok x, d)) {cfg : Config (Op w D) (Op.Ret DRet) Fault (State w δ) C (Except Fault R)}
    (hidle : cfg.threads 0 = none) (hstart : cfg.shared = start (fun _ => false) d) (n : ℕ) :
    ∃ ls, Transition.Run (L.NextBut k .room) cfg ls (cfg.set 0 none ⟨cleared k n (2 * n), d⟩) ∧ ∀ t c', .invoke t c' ∈ ls → c' = c := by
  induction n with
  | zero =>
      have hcfg : cfg.set 0 none ⟨cleared k 0 (2 * 0), d⟩ = cfg := by
        rw [show (⟨cleared k 0 (2 * 0), d⟩ : State w δ) = cfg.shared from hstart.symm, Config.set, ← hidle, Function.update_eq_self]
      rw [hcfg]
      exact ⟨[], .nil, fun _ _ h => absurd h List.not_mem_nil⟩
  | succ n ih =>
      obtain ⟨ls, hrun, hls⟩ := ih
      obtain ⟨os, hcall⟩ := Config.call_alone (L.body k) roomy_access (roomy_invoke hres (.invoke (cfg.threads_set_self 0 none _)))
        roomy_respond (call_alone hk hres hfuel hout)
      rw [Config.set_set] at hcall
      refine ⟨_, hrun.trans hcall, fun t c' h => ?_⟩
      simp only [List.mem_append, List.mem_cons, List.mem_map, Event.invoke.injEq, reduceCtorEq, and_false, exists_false,
        List.not_mem_nil, or_false] at h
      exact h.elim (hls t c') fun he => he.2

/-- The lock when all tickets but those of the last round before the counters wrap have been recycled. -/
def lastRound (k : ℕ) : MRLock w where
  buffer i := if i.toNat < 2 ^ k then ⟨BitVec.ofNat 32 (2 ^ 32 - 2 ^ k + i.toNat), BitVec.allOnes w⟩ else ⟨i, BitVec.allOnes w⟩
  head := BitVec.ofNat 32 (2 ^ 32 - 2 ^ k)
  tail := BitVec.ofNat 32 (2 ^ 32 - 2 ^ k)
  spurious _ := false
  attempts := 2 * (2 ^ 32 - 2 ^ k)

theorem cleared_lastRound (hk : k ≤ 31) :
    (cleared k (2 ^ 32 - 2 ^ k) (2 * (2 ^ 32 - 2 ^ k)) : MRLock w) = lastRound k := by
  have hbuffer : (recycledBuffer k (2 ^ 32 - 2 ^ k) : BitVec 32 → Cell w) = (lastRound k).buffer := by
    funext i
    unfold lastRound
    by_cases hi : i.toNat < 2 ^ k
    · have hdvd : 2 ^ k ∣ 2 ^ 32 - 2 ^ k := Nat.dvd_sub (Nat.pow_dvd_pow 2 (by omega)) dvd_rfl
      have hslot : i = slot k (2 ^ 32 - 2 ^ k + i.toNat) := by
        rw [slot, Nat.add_mod, Nat.mod_eq_zero_of_dvd hdvd, Nat.zero_add, Nat.mod_mod, Nat.mod_eq_of_lt hi, ofNat_self]
      simp only [if_pos hi]
      conv_lhs => rw [hslot]
      exact recycledBuffer_slot hk (by omega) (by omega)
    · simp only [if_neg hi]
      exact recycledBuffer_of_le hk (not_lt.mp hi)
  unfold cleared
  rw [hbuffer]
  rfl

/-! ### A thread that is overtaken -/

/-- Where a schedule leads if all its steps meet the conditions other than `x`, with these steps. -/
def Locked.without (L : Locked w DRet δ C R) (k : ℕ) (x : Condition)
    (cfg : Config (Op w D) (Op.Ret DRet) Fault (State w δ) C (Except Fault R)) (turns : List (Turn C)) :
    Option (List (Event (Op w D) C (Except Fault R)) × Config (Op w D) (Op.Ret DRet) Fault (State w δ) C (Except Fault R)) :=
  Config.checked (MRLock.exec L.exec) (L.body k) (fun e s => decide (L.AllowedBut k x e s)) turns cfg

theorem Locked.run_of_without {x : Condition} {turns : List (Turn C)} {ls : List (Event (Op w D) C (Except Fault R))}
    {cfg cfg' : Config (Op w D) (Op.Ret DRet) Fault (State w δ) C (Except Fault R)}
    (h : L.without k x cfg turns = some (ls, cfg')) : Transition.Run (L.NextBut k x) cfg ls cfg' :=
  Config.checked_run (fun hstep hok => ⟨hstep, of_decide_eq_true hok⟩) h

/-- The thread `1` has found the first cell free and is about to take its ticket. -/
def Locked.stalled (L : Locked w DRet δ C R) (k : ℕ) (c : C) (d : δ) :
    Option (List (Event (Op w D) C (Except Fault R)) × Config (Op w D) (Op.Ret DRet) Fault (State w δ) C (Except Fault R)) :=
  L.without k .room (.idle (start (fun _ => false) d)) [.call 1 c, .go 1 2]

/-- The same when the thread `0` has taken all tickets but the last `2 ^ k` before the counters wrap. -/
def Locked.overtaken (L : Locked w DRet δ C R) (k : ℕ) (c : C) (d : δ) :
    Config (Op w D) (Op.Ret DRet) Fault (State w δ) C (Except Fault R) :=
  (((L.stalled k c d).map Prod.snd).getD (.idle (start (fun _ => false) d))).set 0 none ⟨lastRound k, d⟩

section Overtaken

variable {c : C} {d : δ} (hstalled : ((L.stalled k c d).map fun x => x.2.shared) = some (start (fun _ => false) d))

include hstalled

theorem Locked.overtaken_run (hk : k ≤ 31) {x : R} {fuel : ℕ} (hres : L.resources c ≠ 0) (hfuel : L.fuel c = fuel + 2)
    (hout : (L.scope c).outcome L.exec d = (.ok x, d)) :
    ∃ ls, Transition.Run (L.NextBut k .room) (.idle (start (fun _ => false) d)) ls (L.overtaken k c d) ∧
      ∀ t c', .invoke t c' ∈ ls → c' = c := by
  obtain ⟨⟨ls, cfg⟩, hcfg, hshared⟩ := Option.map_eq_some_iff.mp hstalled
  have hidle : cfg.threads 0 = none := Config.checked_threads_ne (by simp [Turn.thread]) hcfg
  obtain ⟨ls', hrun, hls'⟩ := calls_run hk hres hfuel hout hidle hshared (2 ^ 32 - 2 ^ k)
  rw [cleared_lastRound hk] at hrun
  refine ⟨ls ++ ls', ?_, fun t c' h => ?_⟩
  · unfold Locked.overtaken
    rw [hcfg]
    exact (Locked.run_of_without hcfg).trans hrun
  · cases List.mem_append.mp h with
    | inl h =>
        have hturn : Turn.call t c' ∈ [.call 1 c, .go 1 2] := Config.mem_of_checked hcfg h
        simp only [List.mem_cons, Turn.call.injEq, reduceCtorEq, List.not_mem_nil, or_false] at hturn
        exact hturn.2
    | inr h => exact hls' t c' h

end Overtaken

end Calls

end LockFreeSearchTree.MRLock
