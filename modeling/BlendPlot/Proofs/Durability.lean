import BlendPlot.Proofs.Reachable
import BlendPlot.Proofs.StateText
import BlendPlot.Proofs.StoredNumbers

namespace BlendPlot

namespace State

/-- What is left of a state when it is stored: values that are not finite are unset. -/
def finitePart (s : State) : State :=
  { s with env := s.env.filter fun e => e.2.isFinite }

theorem finitePart_eq {s : State} (h : Environment.AllFinite s.env) : s.finitePart = s := by
  rw [finitePart, h.filter_eq]

theorem load_of_ofJson {σ : Type} [Storage σ] {storage : σ} {text : String} {state : State}
    (hload : Storage.load storage = .ok (some text)) (hread : ofJson text = .ok state) :
    (load storage).value = state := by
  unfold load
  rw [hload]
  dsimp only
  rw [hread]

theorem load_save (s : State) (memory : Memory) :
    (load (s.save memory).2).value = s.finitePart := by
  have hread : ofJson s.toJson.write = .ok s.finitePart := by
    rw [ofJson, document_toJson]
    exact s.ofMembers_storedMembers
  exact load_of_ofJson rfl hread

end State

namespace Session

/-- A plot that is not an old one is the same after any history. -/
theorem Reachable.view_eq {σ τ : Type} [Storage σ] [Storage τ] {s : Session σ} {t : Session τ}
    (hs : s.Reachable) (ht : t.Reachable) (hstate : s.state = t.state)
    (hsettings : s.settings = t.settings) (hcurrent : s.view.isCurrent) (hfits : s.settings.Fits) :
    s.view = t.view := by
  obtain ⟨before, rfl⟩ := hs.exists_refresh
  obtain ⟨other, rfl⟩ := ht.exists_refresh
  change before.state = other.state at hstate
  change before.settings = other.settings at hsettings
  obtain ⟨herrors, hsettingsError⟩ := before.isCurrent_refresh_iff.mp hcurrent
  have hdraws : View.Draws before.state before.settings := ⟨herrors, hsettingsError, hfits⟩
  change _ = (View.refresh other.state other.settings other.view).value
  rw [← hstate, ← hsettings]
  obtain ⟨_, -, hview⟩ := View.refresh_of_draws hdraws
  exact (hview before.view).trans (hview other.view).symm

/-- Loading gives the present state, but for the values that cannot be stored. -/
def Durable (s : Session Memory) : Prop :=
  (State.load s.storage).value = s.state.finitePart

theorem start_durable (storage : Memory) (settings : Settings) :
    (start storage settings).value.Durable :=
  (State.finitePart_eq (State.load_allFinite storage)).symm

theorem step_durable {s : Session Memory} (h : s.Durable) (t : Step) :
    (s.step t).value.Durable := by
  -- Only an edit changes the state, and it stores what it has changed.
  cases t with
  | edit e =>
    rw [step, value_edit]
    exact (s.state.apply e).load_save s.storage
  | configure settings => exact h
  | refresh => exact h

theorem Reachable.durable {s : Session Memory} (h : s.Reachable) : s.Durable := by
  induction h with
  | start storage settings => exact start_durable storage settings
  | step _ t ih => exact step_durable ih t

/-- Loading gives the state without what cannot be stored, so a session goes on as it was left. -/
theorem resume_of_run (memory : Memory) (settings : Settings) (ts : List Step) :
    let s := ((start memory settings).value.run ts).value
    let resumed := (start s.storage s.settings).value
    (State.load s.storage).value =
        { s.state with env := s.state.env.filter fun e => e.2.isFinite } ∧
      ((∀ e ∈ s.state.env.entries, e.2.isFinite) →
        resumed.state = s.state ∧
          resumed.view.parameters = s.view.parameters ∧
          resumed.view.errors = s.view.errors ∧
          resumed.view.settingsError = s.view.settingsError ∧
          (s.view.isCurrent → s.settings.Fits → resumed.view = s.view)) := by
  intro s resumed
  have hs : s.Reachable := Reachable.run (.start memory settings) ts
  have hresumed : resumed.Reachable := .start s.storage s.settings
  refine ⟨hs.durable, fun hfinite => ?_⟩
  have hstate : resumed.state = s.state := hs.durable.trans (State.finitePart_eq hfinite)
  have hdescribes : resumed.view.Describes s.state s.settings := hstate ▸ hresumed.describes
  obtain ⟨hparameters, herrors, hsettingsError⟩ := hdescribes.congr hs.describes
  refine ⟨hstate, hparameters, herrors, hsettingsError, fun hcurrent hfits => ?_⟩
  exact (hs.view_eq hresumed hstate.symm rfl hcurrent hfits).symm

theorem resume_of_mended_text :
    let memory : Memory := ⟨some "\x7b\"env.k\": 3, \"env.m\": null, \"other\": []\x7d"⟩
    let s := ((start memory {}).value.run [.edit (.parameter "k" (1 / 0)),
      .edit (.text .first "k * ("), .edit (.parameter "k" 5), .configure { steps := 2 },
      .edit (.text .first "k * x")]).value
    s.view.isCurrent ∧ s.settings.Fits ∧ (∀ e ∈ s.state.env.entries, e.2.isFinite) ∧
      (start s.storage s.settings).value.view = s.view := by
  intro memory s
  have hcurrent : s.view.isCurrent := by decide +kernel
  have hfits : s.settings.Fits := by decide +kernel
  have hfinite : ∀ e ∈ s.state.env.entries, e.2.isFinite := by decide +kernel
  obtain ⟨-, -, -, -, hview⟩ := (resume_of_run ..).2 hfinite
  exact ⟨hcurrent, hfits, hfinite, hview hcurrent hfits⟩

end Session

end BlendPlot
