import LockFreeSearchTree.RelyGuarantee
import LockFreeSearchTree.Treap
import Mathlib.Data.List.Perm.Subperm

/-! # The pool of preallocated elements

`Preallocatable<T>` of `preallocatable.h`: an array of elements and an atomic counter, from which
any number of threads take elements.

* **State.** `Pool` holds the static variables.  The counter is a 32-bit `int` whose `fetch_add`
  wraps; an element is its index in the array.
* **Programs.** `New` is a program over the atomic accesses to these variables; a thread that calls it
  catches what it throws (`attempt`), so that it can call it again.
* **Numbered calls.** The proof numbers the calls by the order of their `fetch_add` (`Ghost`):
  the call with number `j` gets the index `index j` and ends with `outcome name n j`
  (`protocol_keeps`).
* **Result.** The calls of a run between `Preallocate` and `Deallocate` get elements of the array, each at
  most once, exactly as long as the counter has not wrapped (`distributes_iff`). -/

namespace LockFreeSearchTree.Preallocatable

open Concurrent Concurrent.Prog

/-! ### The code -/

/-- The static variables of the class. -/
structure Pool where
  isPreallocated : Bool := false
  numPreallocated : ℤ := 0
  currentElementIndex : BitVec 32 := 0

/-- `name` is what `typeid(T).name()` returns. -/
def Preallocate (name : String) (numElements : ℕ) (p : Pool) : Except Exn Pool :=
  if p.isPreallocated then
    .error (.logicError ("Cannot preallocate: Class " ++ name ++ " is already preallocated."))
  else .ok { isPreallocated := true, numPreallocated := numElements, currentElementIndex := 0 }

def Deallocate (p : Pool) : Pool := { p with isPreallocated := false }

/-- The accesses to the variables that threads share. -/
inductive Op where
  | isPreallocated
  | fetchAdd
  | numPreallocated

def Ret : Op → Type
  | .isPreallocated => Bool
  | .fetchAdd => BitVec 32
  | .numPreallocated => ℤ

def exec : (o : Op) → Pool → Except Exn (Ret o × Pool)
  | .isPreallocated, p => .ok (p.isPreallocated, p)
  | .fetchAdd, p => .ok (p.currentElementIndex, { p with currentElementIndex := p.currentElementIndex + 1 })
  | .numPreallocated, p => .ok (p.numPreallocated, p)

def notPreallocated (name : String) : Exn :=
  .logicError ("Cannot retrieve preallocated element of class " ++ name ++ ": No elements have been preallocated")

def maximumReached (name : String) (index num : ℤ) : Exn :=
  .outOfRange ("Cannot retrieve preallocated element " ++ toString index ++ " of class " ++ name ++
    ": The maximum of " ++ toString num ++ " elements has been reached.")

/-- The index of the element `New` returns. -/
def New (name : String) : Prog Op Ret Exn ℤ :=
  op .isPreallocated fun isPreallocated : Bool =>
    if isPreallocated then
      -- get an index, and verify that it is a valid one
      op .fetchAdd fun next : BitVec 32 =>
      op .numPreallocated fun numPreallocated : ℤ =>
        if next.toInt ≥ numPreallocated then
          op .numPreallocated fun numPreallocated : ℤ => raise (maximumReached name next.toInt numPreallocated)
        else ret next.toInt
    else raise (notPreallocated name)

/-! ### Runs -/

abbrev Event := Concurrent.Event Op Unit (Except Exn ℤ)

abbrev Config := Concurrent.Config Op Ret Exn Pool Unit (Except Exn ℤ)

/-- One step of one thread, all calls being calls of `New`. -/
abbrev Step (name : String) : Config → Event → Config → Prop := Concurrent.Step exec (fun _ => (New name).attempt)

/-- The outcomes of the calls that have ended, in order. -/
def outcomes (ls : List Event) : List (Except Exn ℤ) := (returned ls).map Prod.snd

/-- The elements the ended calls have returned. -/
def handedOut (outs : List (Except Exn ℤ)) : List ℤ :=
  outs.filterMap fun
    | .ok i => some i
    | .error _ => none

/-- Every call gets an element of the array that no earlier call got, or throws, and there are no more than
`n` elements. -/
def Distributes (n : ℕ) (outs : List (Except Exn ℤ)) : Prop :=
  (∀ i ∈ handedOut outs, 0 ≤ i ∧ i < n) ∧ (handedOut outs).Nodup ∧ (handedOut outs).length ≤ n

/-- The number of calls that have taken a number from the counter. -/
def calls (ls : List Event) : ℕ :=
  ls.countP fun
    | .access _ .fetchAdd => true
    | _ => false

/-! ### Numbered calls -/

/-- The index that the `j`-th call takes from the counter. -/
def index (j : ℕ) : ℤ := (BitVec.ofNat 32 j).toInt

theorem index_of_lt {j : ℕ} (h : j < 2 ^ 31) : index j = j := by
  rw [index, BitVec.toInt_ofNat', Int.bmod_eq_of_le] <;> omega

/-- The first index after the counter has wrapped. -/
theorem index_wrapped : index (2 ^ 31) = -2 ^ 31 := by decide

/-- How the `j`-th call ends. -/
def outcome (name : String) (n j : ℕ) : Except Exn ℤ :=
  if index j ≥ n then .error (maximumReached name (index j) n) else .ok (index j)

theorem mem_handedOut {outs : List (Except Exn ℤ)} {i : ℤ} : i ∈ handedOut outs ↔ .ok i ∈ outs := by
  unfold handedOut
  rw [List.mem_filterMap]
  constructor
  · rintro ⟨o, ho, hi⟩
    cases o with
    | ok a => cases hi; exact ho
    | error e => cases hi
  · exact fun h => ⟨.ok i, h, rfl⟩

theorem outcome_eq_ok {name : String} {n j : ℕ} {i : ℤ} : outcome name n j = .ok i ↔ index j < n ∧ i = index j := by
  unfold outcome
  split_ifs with h
  · refine iff_of_false (fun he => by cases he) fun he => ?_
    omega
  · simp only [Except.ok.injEq]
    exact ⟨fun he => ⟨by omega, he.symm⟩, fun he => he.2.symm⟩

/-- The elements handed out, by the numbers of the calls. -/
theorem handedOut_outcomes (name : String) (n : ℕ) (js : List ℕ) :
    handedOut (js.map (outcome name n)) = (js.filter fun j => index j < n).map index := by
  induction js with
  | nil => rfl
  | cons j js ih =>
      rw [List.map_cons, List.filter_cons]
      by_cases h : index j < n
      · have ho : outcome name n j = .ok (index j) := outcome_eq_ok.mpr ⟨h, rfl⟩
        simp only [ho, handedOut, List.filterMap_cons, h, decide_true, if_true, List.map_cons]
        exact congrArg _ ih
      · have ho : outcome name n j = .error (maximumReached name (index j) n) := if_pos (not_lt.mp h)
        simp only [ho, handedOut, List.filterMap_cons, h, decide_false]
        exact ih

/-- Before the counter has wrapped the indices are the numbers of the calls. -/
theorem distributes_of_lt {name : String} {n : ℕ} {js : List ℕ} (hnd : js.Nodup) (hlt : ∀ j ∈ js, j < 2 ^ 31) :
    Distributes n (js.map (outcome name n)) := by
  have hindex : (js.filter fun j => index j < n).map index = (js.filter fun j => index j < n).map (fun j : ℕ => (j : ℤ)) :=
    List.map_congr_left fun j hj => index_of_lt (hlt j (List.mem_filter.mp hj).1)
  have hmem : ∀ i ∈ (js.filter fun j => index j < n).map (fun j : ℕ => (j : ℤ)), 0 ≤ i ∧ i < n := by
    intro i hi
    obtain ⟨j, hj, rfl⟩ := List.mem_map.mp hi
    obtain ⟨hj, hjn⟩ := List.mem_filter.mp hj
    have h := of_decide_eq_true hjn
    rw [index_of_lt (hlt j hj)] at h
    exact ⟨Int.natCast_nonneg j, h⟩
  have hnodup : ((js.filter fun j => index j < n).map (fun j : ℕ => (j : ℤ))).Nodup :=
    (hnd.filter _).map fun a b h => Int.ofNat_inj.mp h
  unfold Distributes
  rw [handedOut_outcomes, hindex]
  refine ⟨hmem, hnodup, ?_⟩
  have hsub : ((js.filter fun j => index j < n).map (fun j : ℕ => (j : ℤ))).Subperm ((List.range n).map (fun j : ℕ => (j : ℤ))) := by
    apply List.Nodup.subperm hnodup
    intro i hi
    obtain ⟨h₀, h₁⟩ := hmem i hi
    exact List.mem_map.mpr ⟨i.toNat, List.mem_range.mpr (by omega), by omega⟩
  simpa using hsub.length_le

/-- The call after the first `2 ^ 31` gets an index outside the array. -/
theorem not_distributes_of_mem {name : String} {n : ℕ} {js : List ℕ} (h : 2 ^ 31 ∈ js) :
    ¬ Distributes n (js.map (outcome name n)) := by
  rintro ⟨hmem, -⟩
  have hout : Except.ok (index (2 ^ 31)) ∈ js.map (outcome name n) :=
    List.mem_map.mpr ⟨2 ^ 31, h, outcome_eq_ok.mpr ⟨by rw [index_wrapped]; omega, rfl⟩⟩
  have := (hmem _ (mem_handedOut.mpr hout)).1
  rw [index_wrapped] at this
  omega

/-! ### The protocol of the threads -/

structure Ghost where
  /-- The number of calls that have taken a number. -/
  taken : ℕ
  /-- The number of the call a thread is running. -/
  holds : ℕ → Option ℕ
  /-- The numbers of the calls that have ended, in order. -/
  ended : List ℕ

abbrev World := Concurrent.World Unit (Except Exn ℤ) Pool Ghost

variable (name : String) (n : ℕ)

/-- The counter counts the calls, which are numbered one by one. -/
structure Inv (x : World) : Prop where
  preallocated : x.shared.isPreallocated = true
  num : x.shared.numPreallocated = n
  counter : x.shared.currentElementIndex = BitVec.ofNat 32 x.ghost.taken
  history : x.history.map Prod.snd = x.ghost.ended.map (outcome name n)
  nodup : x.ghost.ended.Nodup
  /-- Every number taken is that of a call which has ended or which one thread is running. -/
  taken : ∀ j, j < x.ghost.taken ↔ j ∈ x.ghost.ended ∨ ∃ t, x.ghost.holds t = some j
  running : ∀ t j, x.ghost.holds t = some j → j ∉ x.ghost.ended ∧ ∀ u, x.ghost.holds u = some j → u = t

/-- A step only changes what its own thread holds, and only `fetchAdd` takes a number. -/
def Guar (e : Event) (x x' : World) : Prop :=
  (∀ u, u ≠ e.thread → x'.ghost.holds u = x.ghost.holds u) ∧ x'.ghost.taken = x.ghost.taken + calls [e]

def protocol : Protocol Op Unit (Except Exn ℤ) Pool Ghost where
  inv := Inv name n
  guar := Guar
  idle t x := x.ghost.holds t = none
  allowed _ _ := True

/-- What a call has returned is the outcome of its number. -/
def Ends (t : ℕ) (_ : Unit) (r : Except Exn ℤ) (x : World) : Prop :=
  ∃ j, x.ghost.holds t = some j ∧ r = outcome name n j

variable {name n}

theorem interfered_holds {t : ℕ} {x x' : World} (h : (protocol name n).Interfered t x x') :
    x'.ghost.holds t = x.ghost.holds t := by
  induction h with
  | refl => rfl
  | tail _ hstep ih =>
      obtain ⟨e, hne, hguar, -⟩ := hstep
      rw [hguar.1 t (Ne.symm hne), ih]

/-- Taking the next number. -/
theorem Inv.take {t : ℕ} {x : World} (h : Inv name n x) (hidle : x.ghost.holds t = none) :
    Inv name n ⟨x.history, { x.shared with currentElementIndex := x.shared.currentElementIndex + 1 },
      ⟨x.ghost.taken + 1, Function.update x.ghost.holds t (some x.ghost.taken), x.ghost.ended⟩⟩ := by
  have hfresh : ∀ u j, x.ghost.holds u = some j → j < x.ghost.taken := fun u j hu => (h.taken j).mpr (.inr ⟨u, hu⟩)
  have hended : ∀ j ∈ x.ghost.ended, j < x.ghost.taken := fun j hj => (h.taken j).mpr (.inl hj)
  constructor
  · exact h.preallocated
  · exact h.num
  · show x.shared.currentElementIndex + 1 = BitVec.ofNat 32 (x.ghost.taken + 1)
    rw [h.counter, BitVec.ofNat_add]
    rfl
  · exact h.history
  · exact h.nodup
  · intro j
    show j < x.ghost.taken + 1 ↔ j ∈ x.ghost.ended ∨ ∃ u, Function.update x.ghost.holds t (some x.ghost.taken) u = some j
    constructor
    · intro hj
      rcases Nat.lt_succ_iff_lt_or_eq.mp hj with hj | rfl
      · refine ((h.taken j).mp hj).imp_right fun ⟨u, hu⟩ => ⟨u, ?_⟩
        rw [Function.update_of_ne (fun he => by rw [he, hidle] at hu; cases hu)]
        exact hu
      · exact .inr ⟨t, Function.update_self ..⟩
    · rintro (hj | ⟨u, hu⟩)
      · have := hended j hj
        omega
      · by_cases hut : u = t
        · rw [hut, Function.update_self] at hu
          cases hu
          exact Nat.lt_succ_self _
        · rw [Function.update_of_ne hut] at hu
          have := hfresh u j hu
          omega
  · intro u j hu
    show j ∉ x.ghost.ended ∧ ∀ v, Function.update x.ghost.holds t (some x.ghost.taken) v = some j → v = u
    change Function.update x.ghost.holds t (some x.ghost.taken) u = some j at hu
    by_cases hut : u = t
    · rw [hut, Function.update_self] at hu
      cases hu
      refine ⟨fun hj => absurd (hended _ hj) (lt_irrefl _), fun v hv => ?_⟩
      by_contra hne
      rw [Function.update_of_ne (hut ▸ hne)] at hv
      exact absurd (hfresh v _ hv) (lt_irrefl _)
    · rw [Function.update_of_ne hut] at hu
      refine ⟨(h.running u j hu).1, fun v hv => ?_⟩
      by_cases hvt : v = t
      · rw [hvt, Function.update_self] at hv
        cases hv
        exact absurd (hfresh u _ hu) (lt_irrefl _)
      · rw [Function.update_of_ne hvt] at hv
        exact (h.running u j hu).2 v hv

/-- A call returns, and its thread holds its number no more. -/
theorem Inv.end {t j : ℕ} {x : World} (h : Inv name n x) (ht : x.ghost.holds t = some j) :
    Inv name n ⟨x.history ++ [((), outcome name n j)], x.shared,
      ⟨x.ghost.taken, Function.update x.ghost.holds t none, x.ghost.ended ++ [j]⟩⟩ := by
  obtain ⟨hj, honly⟩ := h.running t j ht
  constructor
  · exact h.preallocated
  · exact h.num
  · exact h.counter
  · simp [h.history]
  · exact List.nodup_append.mpr ⟨h.nodup, List.nodup_singleton j, fun a ha b hb => by
      rw [List.mem_singleton.mp hb]
      exact fun he => hj (he ▸ ha)⟩
  · intro i
    show i < x.ghost.taken ↔ i ∈ x.ghost.ended ++ [j] ∨ ∃ u, Function.update x.ghost.holds t none u = some i
    rw [h.taken, List.mem_append, List.mem_singleton]
    constructor
    · rintro (hi | ⟨u, hu⟩)
      · exact .inl (.inl hi)
      · by_cases hut : u = t
        · rw [hut, ht] at hu
          cases hu
          exact .inl (.inr rfl)
        · exact .inr ⟨u, by rw [Function.update_of_ne hut]; exact hu⟩
    · rintro ((hi | rfl) | ⟨u, hu⟩)
      · exact .inl hi
      · exact .inr ⟨t, ht⟩
      · by_cases hut : u = t
        · rw [hut, Function.update_self] at hu
          cases hu
        · rw [Function.update_of_ne hut] at hu
          exact .inr ⟨u, hu⟩
  · intro u i hu
    change Function.update x.ghost.holds t none u = some i at hu
    by_cases hut : u = t
    · rw [hut, Function.update_self] at hu
      cases hu
    · rw [Function.update_of_ne hut] at hu
      obtain ⟨hi, hi'⟩ := h.running u i hu
      have hij : i ≠ j := fun he => hut (honly u (he ▸ hu))
      refine ⟨by simp [hi, hij], fun v hv => ?_⟩
      change Function.update x.ghost.holds t none v = some i at hv
      by_cases hvt : v = t
      · rw [hvt, Function.update_self] at hv
        cases hv
      · rw [Function.update_of_ne hvt] at hv
        exact hi' v hv

theorem new_safe {t : ℕ} {x : World} (hinv : Inv name n x) (hidle : x.ghost.holds t = none) :
    Safe exec (protocol name n) t (New name).attempt (Ends name n t ()) x := by
  intro x₁ hx₁ _ b p hb
  have hinv₁ : Inv name n x₁ := Protocol.Interfered.inv hx₁ hinv
  have hidle₁ := (interfered_holds hx₁).trans hidle
  cases hb
  refine ⟨x₁.ghost, hinv₁, ⟨fun _ _ => rfl, rfl⟩, ?_⟩
  rw [hinv₁.preallocated]
  -- the call takes its number
  intro x₂ hx₂ _ next p hnext
  have hinv₂ : Inv name n x₂ := Protocol.Interfered.inv hx₂ hinv₁
  have hidle₂ := (interfered_holds hx₂).trans hidle₁
  cases hnext
  have htake := hinv₂.take hidle₂
  refine ⟨_, htake, ⟨fun u hu => Function.update_of_ne hu .., rfl⟩, ?_⟩
  have hindex : x₂.shared.currentElementIndex.toInt = index x₂.ghost.taken := by
    rw [hinv₂.counter]
    rfl
  -- it compares the index with the number of elements
  intro x₃ hx₃ _ num p hnum
  have hinv₃ : Inv name n x₃ := Protocol.Interfered.inv hx₃ htake
  have hholds₃ : x₃.ghost.holds t = some x₂.ghost.taken := (interfered_holds hx₃).trans (Function.update_self ..)
  cases hnum
  refine ⟨x₃.ghost, hinv₃, ⟨fun _ _ => rfl, rfl⟩, ?_⟩
  rw [hinv₃.num, hindex]
  beta_reduce
  by_cases hge : index x₂.ghost.taken ≥ n
  · rw [if_pos hge]
    intro x₄ hx₄ _ num p hnum
    have hinv₄ : Inv name n x₄ := Protocol.Interfered.inv hx₄ hinv₃
    cases hnum
    refine ⟨x₄.ghost, hinv₄, ⟨fun _ _ => rfl, rfl⟩, fun x₅ hx₅ => ⟨x₂.ghost.taken, ?_, ?_⟩⟩
    · rw [interfered_holds hx₅]
      exact (interfered_holds hx₄).trans hholds₃
    · rw [outcome, if_pos hge, hinv₄.num]
  · rw [if_neg hge]
    intro x₄ hx₄
    refine ⟨x₂.ghost.taken, (interfered_holds hx₄).trans hholds₃, ?_⟩
    rw [outcome, if_neg hge]

theorem protocol_keeps : (protocol name n).Keeps exec (fun _ => (New name).attempt) (Ends name n) where
  idle_stable := by
    rintro t x x' - hidle ⟨e, hne, hguar, -⟩
    exact (hguar.1 t (Ne.symm hne)).trans hidle
  invoke t c x hinv hidle _ := ⟨x.ghost, hinv, ⟨fun _ _ => rfl, rfl⟩, new_safe hinv hidle⟩
  respond t c r x hinv hends := by
    obtain ⟨j, ht, rfl⟩ := hends
    exact ⟨_, Inv.end hinv ht, ⟨fun u hu => Function.update_of_ne hu .., rfl⟩, Function.update_self ..⟩

/-! ### What the pool hands out -/

/-- The pool after `Preallocate`. -/
theorem inv_preallocate {p p' : Pool} (hp : Preallocate name n p = .ok p') :
    Inv name n ⟨[], p', ⟨0, fun _ => none, []⟩⟩ := by
  unfold Preallocate at hp
  split_ifs at hp
  cases hp
  constructor <;> simp

/-- The numbers taken count the calls. -/
theorem taken_calls {ls : List Event} {e : Event} {x x' : World} (h : (protocol name n).Guarantees exec e x x')
    (hx : x.ghost.taken = calls ls) : x'.ghost.taken = calls (ls ++ [e]) := by
  cases h with
  | inl hguar =>
      rw [hguar.2, hx]
      exact List.countP_append.symm
  | inr hfault =>
      obtain ⟨⟨t, o, f, -, hf⟩, -⟩ := hfault
      cases o <;> cases hf

/-- The calls of a run, numbered. -/
theorem run_numbers {p p' : Pool} (hp : Preallocate name n p = .ok p') {ls : List Event} {cfg : Config}
    (hrun : Transition.Run (Step name) (.idle p') ls cfg) :
    ∃ js : List ℕ, outcomes ls = js.map (outcome name n) ∧ js.Nodup ∧ (∀ j ∈ js, j < calls ls) ∧
      (cfg.Quiescent → ∀ j < calls ls, j ∈ js) := by
  have hholds : (protocol name n).Holds exec (Ends name n) [] (.idle p' : Config) ⟨0, fun _ => none, []⟩ :=
    ⟨inv_preallocate hp, fun _ => rfl⟩
  obtain ⟨g, hP, htaken⟩ := protocol_keeps.run_labels (J := fun ls x => x.ghost.taken = calls ls)
    (fun h => ⟨h, trivial⟩) (fun _ _ _ hguar hx => taken_calls hguar hx) hholds rfl hrun
  refine ⟨g.ended, hP.inv.history, hP.inv.nodup, fun j hj => ?_, fun hq j hj => ?_⟩
  · rw [← htaken]
    exact (hP.inv.taken j).mpr (.inl hj)
  · rw [← htaken] at hj
    refine ((hP.inv.taken j).mp hj).resolve_right fun ⟨t, ht⟩ => ?_
    have hidle := hP.threads t
    rw [hq t] at hidle
    cases ht.symm.trans hidle

/-- Where all calls have ended, all numbers taken are theirs. -/
theorem length_outcomes {p p' : Pool} (hp : Preallocate name n p = .ok p') {ls : List Event} {cfg : Config}
    (hrun : Transition.Run (Step name) (.idle p') ls cfg) (hq : cfg.Quiescent) : (outcomes ls).length = calls ls := by
  obtain ⟨js, hout, hnd, hlt, hall⟩ := run_numbers hp hrun
  have hperm : js.Perm (List.range (calls ls)) :=
    (List.perm_ext_iff_of_nodup hnd List.nodup_range).mpr fun j =>
      ⟨fun hj => List.mem_range.mpr (hlt j hj), fun hj => hall hq j (List.mem_range.mp hj)⟩
  rw [hout, List.length_map, hperm.length_eq, List.length_range]

/-- A call of one thread, all others being idle. -/
theorem exists_call (name : String) {cfg : Config} (hq : cfg.Quiescent) (hp : cfg.shared.isPreallocated = true) :
    ∃ ls cfg', Transition.Run (Step name) cfg ls cfg' ∧ cfg'.Quiescent ∧ cfg'.shared.isPreallocated = true ∧
      (outcomes ls).length = 1 := by
  obtain ⟨r, p', hrun, hp'⟩ : ∃ r p', (New name).attempt.run exec cfg.shared = .ok (r, p') ∧ p'.isPreallocated = true := by
    by_cases hge : cfg.shared.currentElementIndex.toInt ≥ cfg.shared.numPreallocated
    · simp [New, attempt, run, exec, hp, hge]
    · simp [New, attempt, run, exec, hp, hge]
  obtain ⟨os, hos⟩ : ∃ os : List Op, Transition.Run (Step name) cfg (.invoke 0 () :: os.map (.access 0) ++ [.respond 0 () r])
      (cfg.set 0 none p') :=
    Config.call_alone (fun _ => (New name).attempt) (fun ht hexec => .access ht hexec) (.invoke (hq 0)) (fun ht => .respond ht) hrun
  refine ⟨_, _, hos, fun t => ?_, hp', ?_⟩
  swap
  · rw [outcomes, returned_snoc_respond]
    show ((returned (os.map (.access 0)) ++ [((), r)]).map Prod.snd).length = 1
    rw [returned_access]
    rfl
  by_cases ht : t = 0
  · rw [ht, Config.threads_set_self]
  · rw [Config.threads_set_ne _ _ _ ht, hq t]

/-- Any number of calls of one thread. -/
theorem exists_calls (name : String) {p : Pool} (hp : p.isPreallocated = true) (k : ℕ) :
    ∃ ls cfg, Transition.Run (Step name) (.idle p) ls cfg ∧ cfg.Quiescent ∧ cfg.shared.isPreallocated = true ∧
      (outcomes ls).length = k := by
  induction k with
  | zero => exact ⟨[], _, .nil, fun _ => rfl, hp, rfl⟩
  | succ k ih =>
      obtain ⟨ls, cfg, hrun, hq, hpre, hlen⟩ := ih
      obtain ⟨ls', cfg', hrun', hq', hpre', hlen'⟩ := exists_call name hq hpre
      refine ⟨ls ++ ls', cfg', hrun.trans hrun', hq', hpre', ?_⟩
      rw [outcomes, returned_append, List.map_append, List.length_append]
      exact congrArg₂ (· + ·) hlen hlen'

/-- The calls of `New` get elements of the array, each at most once, and no more than there are, exactly as long
as at most `2 ^ 31` of them have taken a number: in every state of a run if they are no more, and in no
state in which all calls have ended if they are. -/
theorem distributes_iff {p p' : Pool} (hp : Preallocate name n p = .ok p') {ls : List Event} {cfg : Config}
    (hrun : Transition.Run (Step name) (.idle p') ls cfg) :
    (calls ls ≤ 2 ^ 31 → Distributes n (outcomes ls)) ∧
      (cfg.Quiescent → (Distributes n (outcomes ls) ↔ calls ls ≤ 2 ^ 31)) := by
  obtain ⟨js, hout, hnd, hlt, hall⟩ := run_numbers hp hrun
  have hle : calls ls ≤ 2 ^ 31 → Distributes n (outcomes ls) := by
    intro h
    rw [hout]
    exact distributes_of_lt hnd fun j hj => (hlt j hj).trans_le h
  refine ⟨hle, fun hq => ⟨fun hd => ?_, hle⟩⟩
  by_contra hmany
  rw [hout] at hd
  exact not_distributes_of_mem (hall hq _ (not_le.mp hmany)) hd

/-- Three calls on two elements: the first to take a number is the last to return. -/
def threeTurns : List (Turn Unit) := [.call 0 (), .go 0 2, .call 1 (), .go 1 4, .call 2 (), .go 2 5, .go 0 2]

def threeCalls : Option (List Event × Config) :=
  Concurrent.Config.checked exec (fun _ => (New "5Treap").attempt) (fun _ _ => true) threeTurns (.idle ⟨true, 2, 0⟩)

/-- The three calls after the pool has been used, deallocated and preallocated again. -/
theorem distributes_iff_threads : ∃ (p : Pool) (ls : List Event) (cfg : Config),
    Preallocate "5Treap" 2 (Deallocate ⟨true, 7, 9⟩) = .ok p ∧ Transition.Run (Step "5Treap") (.idle p) ls cfg ∧
      outcomes ls = [.ok 1, .error (maximumReached "5Treap" 2 2), .ok 0] ∧ cfg.Quiescent ∧
      (Distributes 2 (outcomes ls) ↔ calls ls ≤ 2 ^ 31) ∧ Distributes 2 (outcomes ls) := by
  have hp : Preallocate "5Treap" 2 (Deallocate ⟨true, 7, 9⟩) = .ok ⟨true, 2, 0⟩ := rfl
  have h : (threeCalls.map fun x => decide ((∀ t : ℕ, t < 3 → (x.2.threads t).isNone = true) ∧ calls x.1 = 3 ∧
      outcomes x.1 = [.ok 1, .error (maximumReached "5Treap" 2 2), .ok 0])) = some true := by decide +kernel
  obtain ⟨ls, cfg, hrun, hq, hcalls, hout⟩ :=
    Config.checked_ends (N := Step "5Treap") (fun hstep _ => hstep) (fun _ _ => rfl) (by decide) h
  have hall := distributes_iff hp hrun
  exact ⟨_, ls, cfg, hp, hrun, hout, hq, hall.2 hq, hall.1 (hcalls.le.trans (by decide))⟩

/-- With one element and `2 ^ 31 + 1` calls of one thread, some call gets the element with the index
`- 2 ^ 31`. -/
theorem distributes_fails_wrapped : ∃ (p : Pool) (ls : List Event) (cfg : Config),
    Preallocate "5Treap" 1 {} = .ok p ∧ Transition.Run (Step "5Treap") (.idle p) ls cfg ∧
    (outcomes ls).length = 2 ^ 31 + 1 ∧ .ok (-2 ^ 31) ∈ outcomes ls ∧ ¬ Distributes 1 (outcomes ls) := by
  have hp : Preallocate "5Treap" 1 {} = .ok ⟨true, 1, 0⟩ := rfl
  obtain ⟨ls, cfg, hrun, hq, -, hlen⟩ := exists_calls "5Treap" (p := ⟨true, 1, 0⟩) rfl (2 ^ 31 + 1)
  have hcalls := length_outcomes hp hrun hq
  obtain ⟨js, hout, -, -, hall⟩ := run_numbers hp hrun
  have hmem : 2 ^ 31 ∈ js := hall hq _ (by omega)
  refine ⟨_, ls, cfg, hp, hrun, hlen, ?_, by rw [hout]; exact not_distributes_of_mem hmem⟩
  rw [hout]
  exact List.mem_map.mpr ⟨2 ^ 31, hmem, outcome_eq_ok.mpr ⟨by rw [index_wrapped]; decide, index_wrapped.symm⟩⟩

end LockFreeSearchTree.Preallocatable
