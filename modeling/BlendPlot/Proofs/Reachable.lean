import BlendPlot.Proofs.View

namespace BlendPlot.Session

variable {σ : Type} [Storage σ]

/-- A session that was started on some storage and went through any steps since. -/
inductive Reachable : Session σ → Prop where
  | start (storage : σ) (settings : Settings) : Reachable (start storage settings).value
  | step {s : Session σ} (h : Reachable s) (t : Step) : Reachable (s.step t).value

theorem Reachable.run {s : Session σ} (h : s.Reachable) (ts : List Step) :
    (s.run ts).value.Reachable := by
  induction ts generalizing s with
  | nil => exact h
  | cons t ts ih => exact ih (h.step t)

theorem Reachable.exists_refresh {s : Session σ} (h : s.Reachable) :
    ∃ before : Session σ, s = before.refresh.value := by
  cases h with
  | start storage settings => exact ⟨⟨(State.load storage).value, settings, storage, {}⟩, rfl⟩
  | @step s _ t =>
    obtain ⟨before, -, hstep⟩ := s.step_eq_refresh t
    exact ⟨before, hstep⟩

theorem Reachable.describes {s : Session σ} (h : s.Reachable) :
    s.view.Describes s.state s.settings := by
  obtain ⟨before, rfl⟩ := h.exists_refresh
  exact View.refresh_describes before.state before.settings before.view

end BlendPlot.Session
