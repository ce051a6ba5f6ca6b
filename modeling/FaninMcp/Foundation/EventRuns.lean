import Mathlib.Data.List.Induction

/-!
# Machines that take events

A machine is a partial step function: an event it cannot take leads nowhere. What
holds at the start and is kept by every event that can be taken, of the events so
far and of the state they lead to, holds after every run.
-/

set_option autoImplicit false

namespace Foundation.EventRuns

variable {State Event : Type} (step : State → Event → Option State)

def exec (start : State) (events : List Event) : Option State := events.foldlM step start

variable {step} {start σ τ : State} {es later : List Event} {e : Event}

theorem exec_append : exec step start (es ++ later) = some τ ↔
    ∃ σ, exec step start es = some σ ∧ exec step σ later = some τ := by
  simp [exec, List.foldlM_append, Option.bind_eq_some_iff]

theorem exec_concat : exec step start (es ++ [e]) = some τ ↔
    ∃ σ, exec step start es = some σ ∧ step σ e = some τ := by
  rw [exec_append]
  simp [exec]

theorem exec_induction {J : List Event → State → Prop} (hstart : J [] start)
    (hstep : ∀ es σ e τ, exec step start es = some σ → J es σ → step σ e = some τ → J (es ++ [e]) τ)
    (h : exec step start es = some τ) : J es τ := by
  induction es using List.reverseRecOn generalizing τ with
  | nil =>
    cases h
    exact hstart
  | append_singleton es e ih =>
    obtain ⟨σ, hσ, hτ⟩ := exec_concat.mp h
    exact hstep es σ e τ hσ (ih hσ) hτ

end Foundation.EventRuns
