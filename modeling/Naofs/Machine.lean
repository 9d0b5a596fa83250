import Mathlib.Data.List.Basic

/-!
# Naofs.Machine

Runs of a machine that takes inputs and gives outputs.

A machine is a relation `step s i o s'`: in the state `s` the input `i` is answered by the
output `o`, and the state is `s'` then.  A `Run` has the inputs with their outputs.  What
every step keeps holds at the end of a run (`Run.invariant`), and a machine whose steps
another one can follow has no other runs than that one (`Run.simulates`).
-/

namespace Naofs

namespace Machine

universe u v w w'

variable {σ : Type u} {τ : Type v} {ι : Type w} {ο : Type w'}

/-- A sequence of steps. -/
inductive Run (step : σ → ι → ο → σ → Prop) : σ → List (ι × ο) → σ → Prop
  | nil (s : σ) : Run step s [] s
  | cons {s s' s'' : σ} {i : ι} {o : ο} {es : List (ι × ο)} : step s i o s' → Run step s' es s'' →
      Run step s ((i, o) :: es) s''

section Run

variable {step : σ → ι → ο → σ → Prop} {s s' : σ} {es : List (ι × ο)}

theorem Run.single {i : ι} {o : ο} (h : step s i o s') : Run step s [(i, o)] s' := .cons h (.nil s')

/-- **The invariant rule.** -/
theorem Run.invariant {p : σ → Prop} (hstep : ∀ ⦃s i o s'⦄, p s → step s i o s' → p s')
    (h : Run step s es s') (hs : p s) : p s' := by
  induction h with
  | nil _ => exact hs
  | cons hs' _ ih => exact ih (hstep hs hs')

end Run

/-- The steps of the first machine can be followed by the second one. -/
def Simulates (step : σ → ι → ο → σ → Prop) (spec : τ → ι → ο → τ → Prop) (r : σ → τ → Prop) : Prop :=
  ∀ ⦃s i o s' t⦄, r s t → step s i o s' → ∃ t', spec t i o t' ∧ r s' t'

/-- **The simulation rule**: the same inputs get the same outputs. -/
theorem Run.simulates {step : σ → ι → ο → σ → Prop} {spec : τ → ι → ο → τ → Prop} {r : σ → τ → Prop}
    {s s' : σ} {t : τ} {es : List (ι × ο)} (hsim : Simulates step spec r) (h : Run step s es s')
    (hs : r s t) : ∃ t', Run spec t es t' ∧ r s' t' := by
  induction h generalizing t with
  | nil _ => exact ⟨t, .nil t, hs⟩
  | cons hstep _ ih =>
      obtain ⟨t', hspec, hr⟩ := hsim hs hstep
      obtain ⟨t'', hrun, hr'⟩ := ih hr
      exact ⟨t'', .cons hspec hrun, hr'⟩

end Machine

end Naofs
