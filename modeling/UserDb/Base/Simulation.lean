import Mathlib.Tactic.Basic

/-! Runs of labelled steps, and simulations of one step relation by another. -/
namespace UserDb.Base
universe u v w
variable {σ : Type u} {τ : Type v} {ι : Type w}

/-- A run with the labels of its steps. -/
inductive Run (step : ι → σ → σ → Prop) : List ι → σ → σ → Prop
  | nil (s : σ) : Run step [] s s
  | cons {i : ι} {is : List ι} {s t u : σ} (first : step i s t) (rest : Run step is t u) : Run step (i :: is) s u

/-- Each step of the first relation is matched by one of the second, between related states. -/
def Simulates (related : σ → τ → Prop) (step : ι → σ → σ → Prop) (step' : ι → τ → τ → Prop) : Prop :=
  ∀ i s s' t, related s t → step i s s' → ∃ t', step' i t t' ∧ related s' t'

variable {step : ι → σ → σ → Prop} {step' : ι → τ → τ → Prop} {related : σ → τ → Prop} {is : List ι} {s s' : σ} {t : τ}

theorem Run.preserves {P : σ → Prop} (h : Run step is s s') (hstep : ∀ {i s s'}, P s → step i s s' → P s') (hs : P s) : P s' := by
  induction h with
  | nil => exact hs
  | cons first _ ih => exact ih (hstep hs first)

theorem Simulates.run (h : Simulates related step step') (hrel : related s t) (hrun : Run step is s s') :
    ∃ t', Run step' is t t' ∧ related s' t' := by
  induction hrun generalizing t with
  | nil => exact ⟨t,.nil t,hrel⟩
  | cons first _ ih =>
    obtain ⟨t₁,hfirst,hrel⟩ := h _ _ _ _ hrel first
    obtain ⟨t',hrest,hrel⟩ := ih hrel
    exact ⟨t',.cons hfirst hrest,hrel⟩

end UserDb.Base
