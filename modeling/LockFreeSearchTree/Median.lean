import Mathlib.Algebra.Order.Group.Int
import Mathlib.Data.List.GetD
import Mathlib.Data.List.Sort
import Mathlib.Tactic.Ring

/-! # The split value

The arithmetic of `getMedianVal` on sorted values: half of the lower middle value is truncated
before the halves are added, and the sum is truncated again (`middle`).

* Two equal middle values have themselves as median if they are even, the value next to them
  towards zero if they are odd (`middle_self`).
* The median of two different middle values is one of them or between them (`middle_of_lt`); it
  is the higher one only below zero and next to the lower one.
* `SplitsBothWays` says when some values are not above and some are above the median. -/

namespace LockFreeSearchTree

/-- The values do not decrease. -/
abbrev Sorted (vs : List ℤ) : Prop := vs.Pairwise (· ≤ ·)

theorem tdiv_two (x : ℤ) : 0 ≤ x ∧ x.tdiv 2 = x / 2 ∨ x < 0 ∧ x.tdiv 2 = (x + 1) / 2 := by
  rcases le_or_gt 0 x with h | h
  · exact .inl ⟨h, Int.tdiv_eq_ediv_of_nonneg h⟩
  · refine .inr ⟨h, ?_⟩
    obtain ⟨y, rfl⟩ : ∃ y, x = -y := ⟨-x, by omega⟩
    rw [Int.neg_tdiv, Int.tdiv_eq_ediv_of_nonneg (by omega)]
    omega

/-- The median between the middle values `low` and `high`. -/
def middle (low high : ℤ) : ℤ := (2 * low.tdiv 2 + high).tdiv 2

theorem middle_self (a : ℤ) :
    a % 2 = 0 ∧ middle a a = a ∨ a % 2 = 1 ∧ 0 < a ∧ middle a a = a - 1 ∨ a % 2 = 1 ∧ a < 0 ∧ middle a a = a + 1 := by
  unfold middle
  rcases tdiv_two a with ⟨_, h⟩ | ⟨_, h⟩ <;> rw [h]
  · rw [Int.tdiv_eq_ediv_of_nonneg (by omega)]
    omega
  · rcases tdiv_two (2 * ((a + 1) / 2) + a) with ⟨_, h'⟩ | ⟨_, h'⟩ <;> rw [h'] <;> omega

theorem middle_of_lt {low high : ℤ} (h : low < high) :
    low ≤ middle low high ∧ middle low high ≤ high ∧
      (middle low high = high ↔ high ≤ 0 ∧ (low = high - 1 ∨ low = high - 2 ∧ high % 2 = 1)) := by
  unfold middle
  rcases tdiv_two low with ⟨_, h₁⟩ | ⟨_, h₁⟩ <;> rw [h₁]
  · rw [Int.tdiv_eq_ediv_of_nonneg (by omega)]
    omega
  · rcases tdiv_two (2 * ((low + 1) / 2) + high) with ⟨_, h₂⟩ | ⟨_, h₂⟩ <;> rw [h₂] <;> omega

/-- When truncating the half of the lower middle value first changes nothing: it is even, or the
half lost is lost again when the sum is truncated. -/
def KeepsAverage (low high : ℤ) : Prop :=
  low % 2 = 0 ∨ (0 < low ∧ high % 2 = 0) ∨
    (low < 0 ∧ ((high % 2 = 1 ∧ 0 ≤ low + high) ∨ (high % 2 = 0 ∧ low + high < 0)))

theorem middle_eq_average_iff {low high : ℤ} (h : low ≤ high) :
    middle low high = (low + high).tdiv 2 ↔ KeepsAverage low high := by
  unfold middle KeepsAverage
  rcases tdiv_two low with ⟨_, h₁⟩ | ⟨_, h₁⟩ <;> rw [h₁]
  · rw [Int.tdiv_eq_ediv_of_nonneg (by omega), Int.tdiv_eq_ediv_of_nonneg (by omega)]
    omega
  · rcases tdiv_two (2 * ((low + 1) / 2) + high) with ⟨_, h₂⟩ | ⟨_, h₂⟩ <;> rw [h₂] <;>
      rcases tdiv_two (low + high) with ⟨_, h₃⟩ | ⟨_, h₃⟩ <;> rw [h₃] <;> omega

/-- An average truncated towards zero lies between the two numbers. -/
theorem average_mem {low high : ℤ} (h : low ≤ high) : low ≤ (low + high).tdiv 2 ∧ (low + high).tdiv 2 ≤ high := by
  rcases tdiv_two (low + high) with ⟨_, h₁⟩ | ⟨_, h₁⟩ <;> rw [h₁] <;> omega

/-- The median of sorted values. -/
def medianOf (vs : List ℤ) : ℤ :=
  if vs.length % 2 = 0 then middle (vs.getD (vs.length / 2 - 1) 0) (vs.getD (vs.length / 2) 0)
  else vs.getD (vs.length / 2) 0

theorem getD_mem {vs : List ℤ} {i : ℕ} (h : i < vs.length) : vs.getD i 0 ∈ vs := by
  rw [List.getD_eq_getElem _ _ h]
  exact List.getElem_mem h

namespace Sorted

variable {vs : List ℤ}

theorem getD_le (ho : Sorted vs) {i j : ℕ} (hij : i ≤ j) (hj : j < vs.length) : vs.getD i 0 ≤ vs.getD j 0 := by
  rw [List.getD_eq_getElem _ _ (hij.trans_lt hj), List.getD_eq_getElem _ _ hj]
  obtain rfl | hlt := Nat.eq_or_lt_of_le hij
  · rfl
  · exact List.pairwise_iff_getElem.mp ho i j _ hj hlt

theorem first_le (ho : Sorted vs) {v : ℤ} (hv : v ∈ vs) : vs.getD 0 0 ≤ v := by
  obtain ⟨i, hi, rfl⟩ := List.getElem_of_mem hv
  rw [← List.getD_eq_getElem _ 0 hi]
  exact ho.getD_le (Nat.zero_le i) hi

theorem le_last (ho : Sorted vs) {v : ℤ} (hv : v ∈ vs) : v ≤ vs.getD (vs.length - 1) 0 := by
  obtain ⟨i, hi, rfl⟩ := List.getElem_of_mem hv
  rw [← List.getD_eq_getElem _ 0 hi]
  apply ho.getD_le <;> omega

/-- A value put after those not above it. -/
theorem insert {as bs : List ℤ} {v : ℤ} (ho : Sorted (as ++ bs)) (ha : ∀ x ∈ as, x ≤ v) (hb : ∀ x ∈ bs, v < x) :
    Sorted (as ++ v :: bs) := by
  obtain ⟨h₁, h₂, h₃⟩ := List.pairwise_append.mp ho
  refine List.pairwise_append.mpr ⟨h₁, List.pairwise_cons.mpr ⟨fun x hx => (hb x hx).le, h₂⟩, fun x hx y hy => ?_⟩
  rcases List.mem_cons.mp hy with rfl | hy
  · exact ha x hx
  · exact h₃ x hx y hy

theorem erase {as bs : List ℤ} {v : ℤ} (ho : Sorted (as ++ v :: bs)) : Sorted (as ++ bs) :=
  ho.sublist (List.Sublist.append_left (List.sublist_cons_self v bs) as)

end Sorted

/-- A bound below all values is not above their median. -/
theorem le_medianOf {vs : List ℤ} {k : ℤ} (ho : Sorted vs) (hlen : 2 ≤ vs.length) (hk : ∀ v ∈ vs, k < v) :
    k ≤ medianOf vs := by
  have h₁ := hk _ (getD_mem (show vs.length / 2 - 1 < vs.length by omega))
  have h₂ := hk _ (getD_mem (show vs.length / 2 < vs.length by omega))
  have h₃ := ho.getD_le (i := vs.length / 2 - 1) (j := vs.length / 2) (by omega) (by omega)
  unfold medianOf
  split_ifs
  · generalize vs.getD (vs.length / 2 - 1) 0 = low at *
    generalize vs.getD (vs.length / 2) 0 = high at *
    rcases h₃.eq_or_lt with rfl | hlt
    · rcases middle_self low with ⟨_, h⟩ | ⟨_, _, h⟩ | ⟨_, _, h⟩ <;> rw [h] <;> omega
    · have := middle_of_lt hlt
      omega
  · exact h₂.le

/-- The median is above a bound of the values only if both middle values are this bound, negative
and odd. -/
theorem medianOf_le {vs : List ℤ} {k : ℤ} (ho : Sorted vs) (hlen : 2 ≤ vs.length) (hk : ∀ v ∈ vs, v ≤ k)
    (hnot : ¬ (vs.length % 2 = 0 ∧ vs.getD (vs.length / 2 - 1) 0 = k ∧ vs.getD (vs.length / 2) 0 = k ∧ k < 0 ∧ k % 2 = 1)) :
    medianOf vs ≤ k := by
  have h₁ := hk _ (getD_mem (show vs.length / 2 - 1 < vs.length by omega))
  have h₂ := hk _ (getD_mem (show vs.length / 2 < vs.length by omega))
  have h₃ := ho.getD_le (i := vs.length / 2 - 1) (j := vs.length / 2) (by omega) (by omega)
  unfold medianOf
  split_ifs with heven
  · generalize vs.getD (vs.length / 2 - 1) 0 = low at *
    generalize vs.getD (vs.length / 2) 0 = high at *
    rcases h₃.eq_or_lt with rfl | hlt
    · rcases middle_self low with ⟨_, h⟩ | ⟨_, _, h⟩ | ⟨_, _, h⟩ <;> rw [h] <;> omega
    · have := middle_of_lt hlt
      omega
  · exact h₂

/-- The median cuts distinct values in the middle, or one value above it. -/
theorem length_le_medianOf {ls rs : List ℤ} (ho : Sorted (ls ++ rs)) (hnd : (ls ++ rs).Nodup) (hlen : 2 ≤ (ls ++ rs).length)
    (hl : ∀ v ∈ ls, v ≤ medianOf (ls ++ rs)) (hr : ∀ v ∈ rs, medianOf (ls ++ rs) < v) :
    ls.length = (ls ++ rs).length / 2 ∨ ls.length = (ls ++ rs).length / 2 + 1 := by
  have hle : ∀ i < ls.length, (ls ++ rs).getD i 0 ≤ medianOf (ls ++ rs) := by
    intro i hi
    apply hl
    rw [List.getD_append _ _ _ _ hi]
    exact getD_mem hi
  have hgt : ∀ i, ls.length ≤ i → i < (ls ++ rs).length → medianOf (ls ++ rs) < (ls ++ rs).getD i 0 := by
    intro i hi hin
    apply hr
    rw [List.length_append] at hin
    rw [List.getD_append_right _ _ _ _ hi]
    exact getD_mem (by omega)
  have hlt : ∀ i j, i < j → j < (ls ++ rs).length → (ls ++ rs).getD i 0 < (ls ++ rs).getD j 0 := by
    intro i j hij hj
    refine lt_of_le_of_ne (ho.getD_le hij.le hj) fun he => ?_
    rw [List.getD_eq_getElem _ _ hj, List.getD_eq_getElem _ _ (by omega)] at he
    have := (hnd.getElem_inj_iff).mp he
    omega
  have hk : ls.length ≤ (ls ++ rs).length := by simp
  generalize ls ++ rs = vs at *
  have hmid := hlt (vs.length / 2 - 1) (vs.length / 2) (by omega) (by omega)
  -- where the values of the left part end
  by_contra hne
  rw [not_or] at hne
  rcases Nat.lt_or_ge ls.length (vs.length / 2) with hshort | hlong
  · have h₁ := hgt (vs.length / 2 - 1) (by omega) (by omega)
    have h₂ := hgt (vs.length / 2) (by omega) (by omega)
    unfold medianOf at h₁ h₂
    split_ifs at h₁ h₂
    · have := (middle_of_lt hmid).1
      omega
    · omega
  · have h₁ := hle (vs.length / 2 + 1) (by omega)
    have h₂ := hlt (vs.length / 2) (vs.length / 2 + 1) (by omega) (by omega)
    unfold medianOf at h₁
    split_ifs at h₁
    · have := (middle_of_lt hmid).2.1
      omega
    · omega

/-- When the values not above the median and the values above it are both some of the sorted
values `vs`, an even number of them: read off the first, the last and the two middle values. -/
def SplitsBothWays (vs : List ℤ) : Prop :=
  let first := vs.getD 0 0
  let low := vs.getD (vs.length / 2 - 1) 0
  let high := vs.getD (vs.length / 2) 0
  let last := vs.getD (vs.length - 1) 0
  ¬ (first = high ∧ 0 < high ∧ high % 2 = 1) ∧
  ¬ (low = last ∧ last % 2 = 0) ∧
  ¬ (low = high ∧ high < 0 ∧ high % 2 = 1 ∧ last ≤ high + 1) ∧
  ¬ (low < high ∧ high = last ∧ last ≤ 0 ∧ (low = last - 1 ∨ low = last - 2 ∧ last % 2 = 1))

theorem splitsBothWays_iff {vs : List ℤ} (ho : Sorted vs) (hpos : 0 < vs.length) (heven : vs.length % 2 = 0) :
    SplitsBothWays vs ↔ (∃ v ∈ vs, v ≤ medianOf vs) ∧ ∃ v ∈ vs, medianOf vs < v := by
  have h₁ := ho.getD_le (i := 0) (j := vs.length / 2 - 1) (by omega) (by omega)
  have h₂ := ho.getD_le (i := vs.length / 2 - 1) (j := vs.length / 2) (by omega) (by omega)
  have h₃ := ho.getD_le (i := vs.length / 2) (j := vs.length - 1) (by omega) (by omega)
  have hfirst : (∃ v ∈ vs, v ≤ medianOf vs) ↔ vs.getD 0 0 ≤ medianOf vs :=
    ⟨fun ⟨v, hv, hle⟩ => (ho.first_le hv).trans hle, fun h => ⟨_, getD_mem hpos, h⟩⟩
  have hlast : (∃ v ∈ vs, medianOf vs < v) ↔ medianOf vs < vs.getD (vs.length - 1) 0 :=
    ⟨fun ⟨v, hv, hlt⟩ => hlt.trans_le (ho.le_last hv), fun h => ⟨_, getD_mem (by omega), h⟩⟩
  rw [hfirst, hlast]
  simp only [SplitsBothWays, medianOf, if_pos heven]
  generalize vs.getD 0 0 = first at *
  generalize vs.getD (vs.length / 2 - 1) 0 = low at *
  generalize vs.getD (vs.length / 2) 0 = high at *
  generalize vs.getD (vs.length - 1) 0 = last at *
  rcases h₂.eq_or_lt with rfl | hlt
  · rcases middle_self low with ⟨_, h⟩ | ⟨_, _, h⟩ | ⟨_, _, h⟩ <;> rw [h] <;> omega
  · have := middle_of_lt hlt
    omega

end LockFreeSearchTree
