import Mathlib.Data.List.Basic

/-! # Runs of labelled transition systems

Finite runs of a step relation with labels, an invariant rule and a simulation rule.  A run is
extended at its end, so that an invariant may speak about the labels so far. -/

namespace Transition

variable {S T L : Type} {step : S → L → S → Prop}

/-- Finite runs, with their labels in order. -/
inductive Run (step : S → L → S → Prop) (s : S) : List L → S → Prop where
  | nil : Run step s [] s
  | snoc {ls : List L} {s' s'' : S} {l : L} (run : Run step s ls s') (last : step s' l s'') :
      Run step s (ls ++ [l]) s''

namespace Run

theorem trans {s s' s'' : S} {ls ls' : List L} (h : Run step s ls s') (h' : Run step s' ls' s'') :
    Run step s (ls ++ ls') s'' := by
  induction h' with
  | nil => simpa using h
  | snoc _ hlast ih => simpa using ih.snoc hlast

theorem single {s s' : S} {l : L} (h : step s l s') : Run step s [l] s' := Run.nil.snoc h

theorem cons {s s' s'' : S} {l : L} {ls : List L} (h : step s l s') (h' : Run step s' ls s'') :
    Run step s (l :: ls) s'' := (single h).trans h'

/-- The same run of another step relation, with other labels. -/
theorem relabel {L' : Type} {step' : S → L' → S → Prop} {f : L → L'} {s s' : S} {ls : List L} (h : Run step s ls s')
    (hstep : ∀ s l s', step s l s' → step' s (f l) s') : Run step' s (ls.map f) s' := by
  induction h with
  | nil => exact .nil
  | snoc _ hlast ih =>
      rw [List.map_append]
      exact ih.snoc (hstep _ _ _ hlast)

/-- What holds initially and is kept by every step holds in every state of a run. -/
theorem invariant {I : S → Prop} (hstep : ∀ s l s', I s → step s l s' → I s') {s s' : S} {ls : List L}
    (h : Run step s ls s') (hs : I s) : I s' := by
  induction h with
  | nil => exact hs
  | snoc _ hlast ih => exact hstep _ _ _ ih hlast

/-- The labels of a run whose steps keep an invariant that speaks about them. -/
theorem labels {I : S → Prop} {P : L → Prop} (hstep : ∀ s l s', I s → step s l s' → I s' ∧ P l) {s s' : S} {ls : List L}
    (h : Run step s ls s') (hs : I s) : ∀ l ∈ ls, P l := by
  induction h with
  | nil => exact fun _ hl => absurd hl List.not_mem_nil
  | snoc hprev hlast ih =>
      intro l hl
      rcases List.mem_append.mp hl with hmem | hmem
      · exact ih l hmem
      · have hI := hprev.invariant (fun s l s' hI h => (hstep s l s' hI h).1) hs
        exact List.mem_singleton.mp hmem ▸ (hstep _ _ _ hI hlast).2

/-- A forward simulation takes runs to runs with the same labels. -/
theorem simulate {step' : T → L → T → Prop} {R : S → T → Prop}
    (hstep : ∀ s t l s', R s t → step s l s' → ∃ t', step' t l t' ∧ R s' t') {s s' : S} {t : T} {ls : List L}
    (h : Run step s ls s') (hs : R s t) : ∃ t', Run step' t ls t' ∧ R s' t' := by
  induction h with
  | nil => exact ⟨t, .nil, hs⟩
  | snoc _ hlast ih =>
      obtain ⟨t₁, hrun, hR⟩ := ih
      obtain ⟨t₂, hs, hR'⟩ := hstep _ _ _ _ hR hlast
      exact ⟨t₂, hrun.snoc hs, hR'⟩

end Run

/-- The states some run leads to. -/
def Reachable (step : S → L → S → Prop) (s s' : S) : Prop := ∃ ls, Run step s ls s'

end Transition
