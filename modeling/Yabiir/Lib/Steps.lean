/-
  Yabiir.Lib.Steps

  Sequences of labelled steps, and simulation: where each step of one relation has a
  step of another with the same label, a sequence has a sequence (`Steps.simulated`).
-/

import Mathlib.Data.List.Basic

namespace Yabiir

variable {σ τ ε : Type}

/-- Steps with the labels `es` lead from `s` to another state. -/
inductive Steps (R : σ → ε → σ → Prop) (s : σ) : List ε → σ → Prop where
  | nil : Steps R s [] s
  | snoc {es : List ε} {e : ε} {s' s'' : σ} (h : Steps R s es s') (hstep : R s' e s'') :
      Steps R s (es ++ [e]) s''

namespace Steps

variable {R : σ → ε → σ → Prop} {S : τ → ε → τ → Prop} {ok : σ → Prop} {s s' : σ} {es : List ε}

/-- What no step establishes that was not there before is there all along. -/
theorem before (hback : ∀ s e s', R s e s' → ok s' → ok s) (h : Steps R s es s') (hok : ok s') :
    ok s := by
  induction h with
  | nil => exact hok
  | snoc _ hstep ih => exact ih (hback _ _ _ hstep hok)

/-- Simulation, of the steps to states that are `ok` with labels that are `fit`. -/
theorem simulated {I : σ → τ → Prop} {fit : ε → Prop}
    (hback : ∀ s e s', R s e s' → ok s' → ok s)
    (hstep : ∀ s e s' t, I s t → R s e s' → fit e → ok s' → ∃ t', S t e t' ∧ I s' t')
    (h : Steps R s es s') (hfit : ∀ e ∈ es, fit e) (hok : ok s') {t : τ} (hInv : I s t) :
    ∃ t', Steps S t es t' ∧ I s' t' := by
  induction h with
  | nil => exact ⟨t, .nil, hInv⟩
  | snoc _ hR ih =>
    obtain ⟨t', hsteps, hInv'⟩ := ih (fun e he => hfit e (List.mem_append_left _ he))
      (hback _ _ _ hR hok)
    obtain ⟨t'', hS, hInv''⟩ := hstep _ _ _ _ hInv' hR (hfit _ (by simp)) hok
    exact ⟨t'', hsteps.snoc hS, hInv''⟩

end Steps

end Yabiir
