import BlendPlot.Proofs.Fields

namespace BlendPlot

/-- The same texts, and the same values of the parameters in them. -/
structure State.Agrees (new old : State) : Prop where
  sources : new.sources = old.sources
  values : ∀ name ∈ old.names, Environment.get new.env name = Environment.get old.env name

theorem State.Agrees.parameters {new old : State} (h : new.Agrees old) :
    Environment.parameters new.env old.names = Environment.parameters old.env old.names := by
  apply List.map_congr_left
  intro name hname
  rw [h.values name hname]

theorem State.Agrees.compile {new old : State} (h : new.Agrees old) :
    new.sources.compile old.names new.env = old.sources.compile old.names old.env := by
  unfold Sources.compile
  rw [h.parameters, h.sources]

namespace View

theorem refresh_congr {new old : State} (h : new.Agrees old) (settings : Settings) (view : View) :
    refresh new settings view = refresh old settings view := by
  have hnames : new.names = old.names := by rw [State.names, State.names, h.sources]
  have hundrawn : undrawn new settings view = undrawn old settings view := by
    rw [undrawn, undrawn, hnames, h.parameters, h.sources]
  rw [refresh, refresh, hundrawn, hnames, h.compile]

theorem eq_of_plot_eq {v w : View} {state : State} {settings : Settings}
    (hv : v.Describes state settings) (hw : w.Describes state settings) (h : v.plot = w.plot) :
    v = w := by
  obtain ⟨hparameters, herrors, hsettingsError⟩ := hv.congr hw
  obtain ⟨parameters, plot, errors, settingsError⟩ := v
  cases hparameters
  cases h
  cases herrors
  cases hsettingsError
  rfl

/-- A refresh with nothing new to say. -/
theorem refresh_refresh (state : State) (settings : Settings) (old : View) :
    (refresh state settings (refresh state settings old).value).value =
      (refresh state settings old).value := by
  by_cases hdraws : Draws state settings
  · obtain ⟨_, -, hview⟩ := refresh_of_draws hdraws
    rw [hview, hview]
  · apply eq_of_plot_eq (refresh_describes ..) (refresh_describes ..)
    exact refresh_plot_of_not_draws _ hdraws

end View

namespace Session

variable {σ : Type} [Storage σ]

theorem Reachable.refresh_view {s : Session σ} (h : s.Reachable) :
    (View.refresh s.state s.settings s.view).value = s.view := by
  obtain ⟨before, rfl⟩ := h.exists_refresh
  exact View.refresh_refresh before.state before.settings before.view

theorem view_step (s : Session σ) (t : Step) :
    (s.step t).value.view =
      (View.refresh (s.step t).value.state (s.step t).value.settings s.view).value := by
  cases t with
  | edit e =>
    rw [step, value_edit]
    rfl
  | configure settings => rfl
  | refresh => rfl

theorem Reachable.view_step {s : Session σ} (h : s.Reachable) {t : Step}
    (hstate : (s.step t).value.state.Agrees s.state)
    (hsettings : (s.step t).value.settings = s.settings) : (s.step t).value.view = s.view := by
  rw [Session.view_step, hsettings, View.refresh_congr hstate, h.refresh_view]

/-- A step that writes what is there already, or a parameter that no text has. -/
def Idle (s : Session σ) : Step → Prop
  | .edit (.text slot text) => text = s.state.sources.get slot
  | .edit (.parameter name value) =>
    isReserved name ∨ (∀ text ∈ s.state.sources.texts, name ∉ identifierRuns text) ∨
      value = Environment.get s.state.env name
  | .configure settings => settings = s.settings
  | .refresh => True

theorem agrees_of_idle {s : Session σ} {t : Step} (h : s.Idle t) :
    (s.step t).value.state.Agrees s.state := by
  rw [state_step]
  match t with
  | .edit (.text slot text) =>
    have hset : s.state.sources.set slot text = s.state.sources := by
      rw [show text = s.state.sources.get slot from h]
      cases slot <;> rfl
    exact ⟨hset, fun _ _ => rfl⟩
  | .edit (.parameter name value) =>
    refine ⟨rfl, fun other hother => ?_⟩
    show Environment.get (s.state.env.insert name value) other = _
    rw [Environment.get_insert]
    split
    next heq =>
      subst heq
      obtain ⟨hfree, text, htext, hrun⟩ := mem_parameterNames.mp hother
      rcases h with hreserved | hno | hvalue
      · simp [hreserved] at hfree
      · exact absurd hrun (hno text htext)
      · exact hvalue
    next => rfl
  | .configure settings => exact ⟨rfl, fun _ _ => rfl⟩
  | .refresh => exact ⟨rfl, fun _ _ => rfl⟩

theorem settings_of_idle {s : Session σ} {t : Step} (h : s.Idle t) :
    (s.step t).value.settings = s.settings := by
  cases t with
  | edit e => exact s.settings_edit e
  | configure settings => exact h
  | refresh => rfl

/-- A step that writes nothing that is read leaves the view as it is. -/
theorem view_step_of_idle {s : Session σ} (h : s.Reachable) (t : Step) :
    ((s.step t).value.state.sources = s.state.sources →
      (s.step t).value.settings = s.settings →
      (∀ name ∈ parameterNames s.state.sources.texts,
        Environment.get (s.step t).value.state.env name = Environment.get s.state.env name) →
      (s.step t).value.view = s.view) ∧
    (s.Idle t → (s.step t).value.view = s.view) := by
  constructor
  · intro hsources hsettings hvalues
    exact h.view_step ⟨hsources, hvalues⟩ hsettings
  · intro hidle
    exact h.view_step (agrees_of_idle hidle) (settings_of_idle hidle)

/-- Beside an old plot, zero for a parameter that was never set is no change. -/
theorem view_step_of_idle_beside_old_plot :
    let s := ((start (⟨none⟩ : Memory) { steps := 2 }).value.run [.edit (.parameter "k" 2),
      .edit (.text .first "k * x"), .edit (.text .second "(b")]).value
    let t : Step := .edit (.parameter "x" (1 / 0))
    s.view.errors ≠ [] ∧ s.view.points.length = 3 ∧
      (s.step t).value.state.sources = s.state.sources ∧ (s.step t).value.settings = s.settings ∧
      (∀ name ∈ parameterNames s.state.sources.texts,
        Environment.get (s.step t).value.state.env name = Environment.get s.state.env name) ∧
      s.Idle (.edit (.parameter "b" 0)) ∧ (s.step t).value.view = s.view ∧
      (s.step (.edit (.parameter "b" 0))).value.view = s.view := by
  intro s t
  have hs : s.Reachable := Reachable.run (.start _ _) _
  have hsources : (s.step t).value.state.sources = s.state.sources := by decide +kernel
  have hsettings : (s.step t).value.settings = s.settings := s.settings_edit _
  have hvalues : ∀ name ∈ parameterNames s.state.sources.texts,
      Environment.get (s.step t).value.state.env name = Environment.get s.state.env name := by
    decide +kernel
  have hidle : s.Idle (.edit (.parameter "b" 0)) :=
    Or.inr (Or.inr (by decide +kernel : (0 : Float) = Environment.get s.state.env "b"))
  refine ⟨by decide +kernel, by decide +kernel, hsources, hsettings, hvalues, hidle, ?_, ?_⟩
  · exact (view_step_of_idle hs t).1 hsources hsettings hvalues
  · exact (view_step_of_idle hs _).2 hidle

end Session

end BlendPlot
