import BlendPlot.Proofs.Capacity
import BlendPlot.Proofs.Compilation
import BlendPlot.Session

namespace BlendPlot

/-- The view says of the texts and the settings what there is to say now. -/
structure View.Describes (view : View) (state : State) (settings : Settings) : Prop where
  parameters : view.parameters = state.names.map fun name => ⟨name, Environment.get state.env name⟩
  errors : view.errors = state.sources.errors state.names
  settingsError : view.settingsError = settings.error?

theorem View.Describes.congr {v w : View} {state : State} {settings : Settings}
    (hv : v.Describes state settings) (hw : w.Describes state settings) :
    v.parameters = w.parameters ∧ v.errors = w.errors ∧ v.settingsError = w.settingsError :=
  ⟨hv.parameters.trans hw.parameters.symm, hv.errors.trans hw.errors.symm,
    hv.settingsError.trans hw.settingsError.symm⟩

/-- The plot is that of the curve that the texts of a state mean. -/
def Plot.Shows (plot : Plot) (state : State) (settings : Settings) : Prop :=
  ∃ curve samples, state.sources.compile state.names state.env = .ok curve ∧
    settings.sample curve.eval = .ok samples ∧
    plot = ⟨samples.filterMap Sample.point?, curve.listing⟩

namespace View

section

variable {settings : Settings}

theorem draw_of_error? {e : SettingsError} (h : settings.error? = some e) (v : View)
    (curve : Curve) :
    draw v settings curve = ⟨{ v with settingsError := some e }, [.samplingRefused e]⟩ := by
  rw [draw, Settings.sample_of_error? h]

theorem draw_of_fits (h : settings.error? = none) (hfits : settings.Fits) (v : View)
    (curve : Curve) :
    let count := settings.steps.toNat + 1
    let samples := (List.range count).map (settings.sampleAt curve.eval)
    let points := samples.filterMap Sample.point?
    draw v settings curve =
      ⟨{ v with plot := some ⟨points, curve.listing⟩, settingsError := none },
        samples.filterMap droppedSample? ++
          [.plotDrawn v.parameters.length points.length count]⟩ := by
  rw [draw, Settings.sample_of_fits h hfits]

theorem draw_of_not_fits (h : settings.error? = none) (hfits : ¬settings.Fits) (v : View)
    (curve : Curve) : draw v settings curve = ⟨v, []⟩ := by
  rw [draw, Settings.sample_of_not_fits h hfits, Settings.overflowFault]
  by_cases hmost : settings.steps = Settings.mostSteps
  · rw [if_pos hmost]
  · rw [if_neg hmost]

end

section

variable {state : State}

theorem refresh_of_errors_ne_nil (h : state.sources.errors state.names ≠ []) (settings : Settings)
    (old : View) :
    refresh state settings old =
      ⟨undrawn state settings old, (state.sources.errors state.names).map .plotKept⟩ := by
  have hempty : ¬(undrawn state settings old).errors.isEmpty := mt List.isEmpty_iff.mp h
  rw [refresh, if_neg hempty]
  rfl

theorem refresh_of_compile {curve : Curve}
    (h : state.sources.compile state.names state.env = .ok curve) (settings : Settings)
    (old : View) :
    refresh state settings old = draw (undrawn state settings old) settings curve := by
  have hnil := state.sources.errors_eq_nil_of_compile state.names state.env h
  have hempty : (undrawn state settings old).errors.isEmpty := List.isEmpty_iff.mpr hnil
  rw [refresh, if_pos hempty, h]

theorem refresh_of_errors_eq_nil (h : state.sources.errors state.names = [])
    (settings : Settings) (old : View) :
    ∃ curve, state.sources.compile state.names state.env = .ok curve ∧
      refresh state settings old = draw (undrawn state settings old) settings curve := by
  obtain ⟨curve, hcurve⟩ := state.sources.compile_of_errors_eq_nil state.names state.env h
  exact ⟨curve, hcurve, refresh_of_compile hcurve settings old⟩

end

theorem undrawn_describes (state : State) (settings : Settings) (old : View) :
    (undrawn state settings old).Describes state settings := ⟨rfl, rfl, rfl⟩

theorem Describes.draw {v : View} {state : State} {settings : Settings}
    (h : v.Describes state settings) (curve : Curve) :
    (v.draw settings curve).value.Describes state settings := by
  cases he : settings.error? with
  | some e =>
    rw [draw_of_error? he]
    exact ⟨h.parameters, h.errors, he.symm⟩
  | none =>
    by_cases hfits : settings.Fits
    · rw [draw_of_fits he hfits]
      exact ⟨h.parameters, h.errors, he.symm⟩
    · rw [draw_of_not_fits he hfits]
      exact h

theorem refresh_describes (state : State) (settings : Settings) (old : View) :
    (refresh state settings old).value.Describes state settings := by
  have hundrawn := undrawn_describes state settings old
  by_cases h : state.sources.errors state.names = []
  · obtain ⟨curve, -, hrefresh⟩ := refresh_of_errors_eq_nil h settings old
    rw [hrefresh]
    exact hundrawn.draw curve
  · rw [refresh_of_errors_ne_nil h]
    exact hundrawn

/-- Nothing keeps a refresh from drawing a plot. -/
def Draws (state : State) (settings : Settings) : Prop :=
  state.sources.errors state.names = [] ∧ settings.error? = none ∧ settings.Fits

/-- A refresh that draws leaves nothing of the view before. -/
theorem refresh_of_draws {state : State} {settings : Settings} (h : Draws state settings) :
    ∃ plot : Plot, plot.Shows state settings ∧ ∀ old, (refresh state settings old).value =
      ⟨Environment.parameters state.env state.names, some plot, [], none⟩ := by
  obtain ⟨herrors, hsettings, hfits⟩ := h
  obtain ⟨curve, hcurve⟩ := state.sources.compile_of_errors_eq_nil state.names state.env herrors
  refine ⟨_, ⟨curve, _, hcurve, Settings.sample_of_fits hsettings hfits curve.eval, rfl⟩, ?_⟩
  intro old
  rw [refresh_of_compile hcurve, draw_of_fits hsettings hfits, undrawn, herrors]

theorem refresh_plot_of_not_draws {state : State} {settings : Settings} (old : View)
    (h : ¬Draws state settings) : (refresh state settings old).value.plot = old.plot := by
  by_cases herrors : state.sources.errors state.names = []
  · obtain ⟨curve, -, hrefresh⟩ := refresh_of_errors_eq_nil herrors settings old
    rw [hrefresh]
    cases he : settings.error? with
    | some e =>
      rw [draw_of_error? he]
      rfl
    | none =>
      rw [draw_of_not_fits he fun hfits => h ⟨herrors, he, hfits⟩]
      rfl
  · rw [refresh_of_errors_ne_nil herrors]
    rfl

end View

namespace Session

variable {σ : Type}

theorem isCurrent_refresh_iff (s : Session σ) : s.refresh.value.view.isCurrent ↔
    s.state.sources.errors s.state.names = [] ∧ s.settings.error? = none := by
  have hd : s.refresh.value.view.Describes s.state s.settings :=
    View.refresh_describes s.state s.settings s.view
  rw [View.isCurrent, hd.errors, hd.settingsError, Bool.and_eq_true, List.isEmpty_iff,
    Option.isNone_iff_eq_none]

/-- A refresh does not return exactly if the texts have a curve and sampling it overflows. -/
theorem stopped_refresh_iff (s : Session σ) : s.refresh.value.stopped ↔
    ∃ curve, s.state.sources.compile s.state.names s.state.env = .ok curve ∧
      s.settings.sample curve.eval = .error s.settings.overflowFault := by
  rw [stopped, Bool.and_eq_true, isCurrent_refresh_iff, Bool.not_eq_true', decide_eq_false_iff_not,
    and_assoc]
  constructor
  · rintro ⟨herrors, hoverflow⟩
    obtain ⟨curve, hcurve⟩ :=
      s.state.sources.compile_of_errors_eq_nil s.state.names s.state.env herrors
    exact ⟨curve, hcurve, (Settings.sample_eq_overflow_iff curve.eval).mpr hoverflow⟩
  · rintro ⟨curve, hcurve, hsample⟩
    exact ⟨s.state.sources.errors_eq_nil_of_compile s.state.names s.state.env hcurve,
      (Settings.sample_eq_overflow_iff curve.eval).mp hsample⟩

/-- The last refresh drew the plot. -/
def Drawn (s : Session σ) : Prop :=
  s.view.errors = [] ∧ s.settings.error? = none ∧ s.settings.Fits

instance (s : Session σ) : Decidable s.Drawn :=
  inferInstanceAs (Decidable (_ ∧ _ ∧ _))

/-- The plot is that of the latest session in `past` that drew one; the latest comes first. -/
def PlotOf (past : List (Session σ)) (plot : Option Plot) : Prop :=
  match past.find? fun p => p.Drawn with
  | none => plot = none
  | some p => ∃ shown, plot = some shown ∧ shown.Shows p.state p.settings

structure UpToDate (s : Session σ) (past : List (Session σ)) : Prop where
  describes : s.view.Describes s.state s.settings
  plot : PlotOf past s.view.plot

theorem refresh_upToDate {s : Session σ} {past : List (Session σ)} (h : PlotOf past s.view.plot) :
    s.refresh.value.UpToDate (s.refresh.value :: past) := by
  have hd := View.refresh_describes s.state s.settings s.view
  refine ⟨hd, ?_⟩
  have hdrawn : s.refresh.value.Drawn ↔ View.Draws s.state s.settings := by
    rw [View.Draws, ← hd.errors]
    exact Iff.rfl
  by_cases hs : s.refresh.value.Drawn
  · rw [PlotOf, List.find?_cons_of_pos (by simpa using hs)]
    obtain ⟨plot, hshows, hview⟩ := View.refresh_of_draws (hdrawn.mp hs)
    exact ⟨plot, congrArg View.plot (hview s.view), hshows⟩
  · rw [PlotOf, List.find?_cons_of_neg (by simpa using hs)]
    have hkeep : s.refresh.value.view.plot = s.view.plot :=
      View.refresh_plot_of_not_draws s.view (mt hdrawn.mpr hs)
    rw [hkeep]
    exact h

variable [Storage σ]

/-- The sessions at the refreshes of a run, the latest first. -/
def trail (s : Session σ) : List Step → List (Session σ)
  | [] => [s]
  | t :: ts => trail (s.step t).value ts ++ [s]

theorem start_upToDate (storage : σ) (settings : Settings) :
    (start storage settings).value.UpToDate [(start storage settings).value] := by
  let loaded : Session σ := ⟨(State.load storage).value, settings, storage, {}⟩
  have hnone : PlotOf ([] : List (Session σ)) loaded.view.plot := rfl
  exact refresh_upToDate hnone

theorem value_edit (s : Session σ) (e : Edit) :
    (s.edit e).value =
      (refresh { s with
        state := s.state.apply e
        storage := ((s.state.apply e).save s.storage).2 }).value := by
  unfold edit
  dsimp only
  split <;> rfl

/-- Every step ends with a refresh of a session whose view has not changed before. -/
theorem step_eq_refresh (s : Session σ) (t : Step) :
    ∃ s' : Session σ, s'.view = s.view ∧ (s.step t).value = s'.refresh.value := by
  cases t with
  | edit e =>
    exact ⟨{ s with
      state := s.state.apply e
      storage := ((s.state.apply e).save s.storage).2 }, rfl, s.value_edit e⟩
  | configure settings => exact ⟨{ s with settings := settings }, rfl, rfl⟩
  | refresh => exact ⟨s, rfl, rfl⟩

theorem step_upToDate {s : Session σ} {past : List (Session σ)} (h : s.UpToDate past) (t : Step) :
    (s.step t).value.UpToDate ((s.step t).value :: past) := by
  obtain ⟨s', hview, hstep⟩ := s.step_eq_refresh t
  rw [hstep]
  exact refresh_upToDate (hview ▸ h.plot)

/-- What every step keeps of a session and the ones before it, a run keeps. -/
theorem run_preserves {P : Session σ → List (Session σ) → Prop}
    (hstep : ∀ {s past} (t : Step), P s (s :: past) →
      P (s.step t).value ((s.step t).value :: s :: past))
    {s : Session σ} {past : List (Session σ)} (h : P s (s :: past)) (ts : List Step) :
    P (s.run ts).value (s.trail ts ++ past) := by
  induction ts generalizing s past with
  | nil => exact h
  | cons t ts ih =>
    rw [trail, List.append_assoc]
    exact ih (hstep t h)

theorem run_upToDate {s : Session σ} {past : List (Session σ)} (h : s.UpToDate (s :: past))
    (ts : List Step) : (s.run ts).value.UpToDate (s.trail ts ++ past) :=
  run_preserves (P := UpToDate) (fun t hs => step_upToDate hs t) h ts

/-- Points and listing are those of the last refresh that drew, all else is of the present. -/
theorem view_of_run (storage : σ) (settings : Settings) (ts : List Step) :
    let opened := (start storage settings).value
    let s := (opened.run ts).value
    s.view.parameters =
        (parameterNames s.state.sources.texts).map
          (fun name => ⟨name, (s.state.env.find? name).getD 0⟩) ∧
      s.view.errors = s.state.sources.errors (parameterNames s.state.sources.texts) ∧
      s.view.settingsError = s.settings.error? ∧
      match (opened.trail ts).find? fun p =>
          p.view.errors = [] ∧ p.settings.error? = none ∧ p.settings.Fits with
      | none => s.view.points = [] ∧ s.view.listing = none
      | some p => ∃ curve samples,
          p.state.sources.compile (parameterNames p.state.sources.texts) p.state.env = .ok curve ∧
          p.settings.sample curve.eval = .ok samples ∧
          s.view.points = samples.filterMap Sample.point? ∧
          s.view.listing = some curve.listing := by
  intro opened s
  have h := run_upToDate (start_upToDate storage settings) ts
  rw [List.append_nil] at h
  obtain ⟨⟨hparameters, herrors, hsettings⟩, hplot⟩ := h
  refine ⟨hparameters, herrors, hsettings, ?_⟩
  change PlotOf (opened.trail ts) s.view.plot at hplot
  rw [PlotOf] at hplot
  change match (opened.trail ts).find? fun p => p.Drawn with
    | none => s.view.points = [] ∧ s.view.listing = none
    | some p => ∃ curve samples,
        p.state.sources.compile p.state.names p.state.env = .ok curve ∧
        p.settings.sample curve.eval = .ok samples ∧
        s.view.points = samples.filterMap Sample.point? ∧ s.view.listing = some curve.listing
  cases hfind : (opened.trail ts).find? fun p => p.Drawn with
  | none =>
    rw [hfind] at hplot
    simp [View.points, View.listing, hplot]
  | some p =>
    rw [hfind] at hplot
    obtain ⟨plot, hp, curve, samples, hc, hs, rfl⟩ := hplot
    exact ⟨curve, samples, hc, hs, by simp [View.points, hp], by simp [View.listing, hp]⟩

end Session

end BlendPlot
