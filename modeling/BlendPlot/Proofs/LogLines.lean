import BlendPlot.Proofs.Agreement
import BlendPlot.Proofs.Samples

namespace BlendPlot

namespace View

/-- Each sample is lost, and has a line of its own, or is a point. -/
theorem lines_of_draw {settings : Settings} (h : settings.error? = none) (hfits : settings.Fits)
    (v : View) (curve : Curve) :
    let drawn := draw v settings curve
    let count := settings.steps.toNat + 1
    let lost := (List.range count).filter fun k => !(curve.eval (settings.argument k)).isFinite
    lost.length + drawn.value.points.length = count ∧
      logLines .trace drawn.events = lost.map (settings.dropLine curve.eval) ++
        [Event.line
          (.plotDrawn drawn.value.parameters.length drawn.value.points.length count)] := by
  rw [draw_of_fits h hfits]
  refine ⟨?_, ?_⟩
  · change _ + (List.filterMap Sample.point? _).length = _
    rw [Settings.points_map_sampleAt, List.length_map, Nat.add_comm,
      ← List.length_eq_length_filter_add, List.length_range]
  · rw [← Settings.logLines_map_sampleAt, logLines_trace, logLines_trace, List.map_append]
    rfl

section

variable {m : Type → Type} [Monad m] [LawfulMonad m]

/-- After the points that are there already comes one for each sample that is kept. -/
theorem foldlM_sampleStepM (tell : Event → m Unit) (settings : Settings) (curve : Float → Float)
    (steps : List Nat) (points : List Point) :
    steps.foldlM (sampleStepM tell settings curve) points = (do
      forM ((steps.map (settings.sampleAt curve)).filterMap droppedSample?) tell
      return points ++ (steps.map (settings.sampleAt curve)).filterMap Sample.point?) := by
  induction steps generalizing points with
  | nil => simp
  | cons step steps ih =>
    rw [List.foldlM_cons, List.map_cons, sampleStepM]
    cases hsample : settings.sampleAt curve step with
    | kept point =>
      have hdropped : droppedSample? (.kept point) = none := rfl
      have hpoint : Sample.point? (.kept point) = some point := rfl
      rw [pure_bind, ih, List.filterMap_cons_none hdropped, List.filterMap_cons_some hpoint,
        List.append_assoc, List.singleton_append]
    | dropped x y =>
      have hdropped : droppedSample? (.dropped x y) = some (.sampleDropped x y) := rfl
      have hpoint : Sample.point? (.dropped x y) = none := rfl
      rw [List.filterMap_cons_some hdropped, List.filterMap_cons_none hpoint, List.forM_cons]
      simp only [bind_assoc, pure_bind, ih]

theorem drawM_eq (tell : Event → m Unit) (v : View) (settings : Settings) (curve : Curve) :
    drawM tell v settings curve = (do
      forM (draw v settings curve).events tell
      return (draw v settings curve).value) := by
  rw [drawM, draw, Settings.sample]
  cases settings.capacity with
  | error fault => cases fault <;> simp
  | ok count => simp [foldlM_sampleStepM, List.forM_append]

/-- Telling on the way comes to the same as telling of everything at the end. -/
theorem refreshM_eq (tell : Event → m Unit) (state : State) (settings : Settings) (old : View) :
    refreshM tell state settings old = (do
      forM (refresh state settings old).events tell
      return (refresh state settings old).value) := by
  rw [refreshM]
  by_cases h : state.sources.errors state.names = []
  · have hempty : (undrawn state settings old).errors.isEmpty := List.isEmpty_iff.mpr h
    obtain ⟨curve, hcurve, hrefresh⟩ := refresh_of_errors_eq_nil h settings old
    rw [if_pos hempty, hcurve, hrefresh]
    exact drawM_eq tell _ settings curve
  · have hempty : ¬(undrawn state settings old).errors.isEmpty := mt List.isEmpty_iff.mp h
    rw [if_neg hempty, refresh_of_errors_ne_nil h]
    rfl

end

end View

theorem linesHeard_sublist {less more : Severity → Bool}
    (h : ∀ severity, less severity → more severity) (events : List Event) :
    (linesHeard less events).Sublist (linesHeard more events) :=
  (List.monotone_filter_right events fun e => h e.severity).map Event.line

theorem run_forM_note (heard : Severity → Bool) (events : List Event) (log : List String) :
    (forM events (Event.note heard)).run log = ((), log ++ linesHeard heard events) := by
  induction events generalizing log with
  | nil =>
    rw [linesHeard, List.filter_nil, List.map_nil, List.append_nil]
    rfl
  | cons e events ih =>
    rw [List.forM_cons, Event.note]
    cases hheard : heard e.severity with
    | true =>
      have hlines : linesHeard heard (e :: events) = e.line :: linesHeard heard events := by
        simp [linesHeard, hheard]
      rw [hlines, List.append_cons, ← ih]
      rfl
    | false =>
      have hlines : linesHeard heard (e :: events) = linesHeard heard events := by
        simp [linesHeard, hheard]
      rw [hlines, ← ih]
      rfl

namespace Session

variable {σ : Type}

theorem events_refresh (s : Session σ) :
    s.refresh.events = (View.refresh s.state s.settings s.view).events :=
  List.append_nil _

theorem run_refreshM_note (heard : Severity → Bool) (s : Session σ) :
    (s.refreshM (Event.note heard)).run [] =
      (s.refresh.value, linesHeard heard s.refresh.events) := by
  rw [refreshM, View.refreshM_eq, StateT.run_bind, StateT.run_bind, run_forM_note, List.nil_append,
    events_refresh]
  rfl

/-- Each error, refused settings, or each lost sample and the count of all have a log line. -/
theorem refresh_lines (s : Session σ) :
    let view := s.refresh.value.view
    let lines := logLines .trace s.refresh.events
    (match view.errors, view.settingsError with
      | [], none =>
        if s.settings.Fits then
          ∃ curve, s.state.sources.compile s.state.names s.state.env = .ok curve ∧
            let count := s.settings.steps.toNat + 1
            let x := s.settings.argument
            let lost := (List.range count).filter fun k => !(curve.eval (x k)).isFinite
            lost.length + view.points.length = count ∧
            lines = (lost.map fun k => "TRACE dropping non-finite sample y=" ++
                Decimal.Layout.plain.text (curve.eval (x k)) ++ " at x=" ++
                Decimal.Layout.plain.text (x k)) ++
              ["DEBUG recomputed curve: " ++ toString view.parameters.length ++ " parameters, " ++
                toString view.points.length ++ " of " ++ toString count ++ " points"]
        else lines = []
      | [], some e => lines = ["WARN unable to sample curve: " ++ e.message]
      | errors, _ =>
        lines = errors.map (fun e => "DEBUG keeping previous curve: " ++ e.text) ∧
        (errors.map (·.slot)).Sublist [.first, .second, .blend]) ∧
    ∀ less more : Severity → Bool, (∀ severity, less severity → more severity) → ∃ few many,
      (s.refreshM (Event.note less)).run [] = (s.refresh.value, few) ∧
      (s.refreshM (Event.note more)).run [] = (s.refresh.value, many) ∧
      few.Sublist many ∧ many.Sublist lines := by
  intro view lines
  have hview : view = (View.refresh s.state s.settings s.view).value := rfl
  have hlines : lines = logLines .trace (View.refresh s.state s.settings s.view).events :=
    congrArg (logLines .trace) s.events_refresh
  refine ⟨?_, fun less more h => ⟨_, _, run_refreshM_note less s, run_refreshM_note more s,
    linesHeard_sublist h _, ?fewer⟩⟩
  case fewer =>
    rw [hlines, logLines_trace, events_refresh]
    exact List.filter_sublist.map _
  have hdescribes := View.refresh_describes s.state s.settings s.view
  rw [← hview] at hdescribes
  by_cases herrors : s.state.sources.errors s.state.names = []
  · obtain ⟨curve, hcurve, hrefresh⟩ := View.refresh_of_errors_eq_nil herrors s.settings s.view
    rw [hrefresh] at hlines hview
    rw [hdescribes.errors, herrors, hdescribes.settingsError]
    cases he : s.settings.error? with
    | some e =>
      rw [View.draw_of_error? he] at hlines
      exact hlines
    | none =>
      dsimp only
      split
      next hfits =>
        obtain ⟨hcount, hdrawn⟩ :=
          View.lines_of_draw he hfits (View.undrawn s.state s.settings s.view) curve
        rw [← hview] at hcount hdrawn
        exact ⟨curve, hcurve, hcount, hlines.trans hdrawn⟩
      next hfits =>
        rw [View.draw_of_not_fits he hfits] at hlines
        exact hlines
  · rw [View.refresh_of_errors_ne_nil herrors] at hlines
    have hslots := s.state.sources.slots_errors s.state.names
    obtain ⟨e, es, hcons⟩ := List.exists_cons_of_ne_nil herrors
    rw [hlines, hdescribes.errors, logLines_trace]
    rw [hcons] at hslots ⊢
    refine ⟨List.map_map, ?_⟩
    rw [hslots]
    exact List.filter_sublist

theorem refresh_lines_of_pole :
    let s : Session Unit := ⟨⟨⟨"1/x", "", ""⟩, Table.empty⟩, { steps := 2 }, (), {}⟩
    logLines .trace s.refresh.events =
        ["TRACE dropping non-finite sample y=inf at x=0",
          "DEBUG recomputed curve: 0 parameters, 2 of 3 points"] ∧
      ∃ few many,
        (s.refreshM (Event.note fun severity => severity = .warn)).run [] =
          (s.refresh.value, few) ∧
        (s.refreshM (Event.note fun severity => severity ≠ .trace)).run [] =
          (s.refresh.value, many) ∧
        few.Sublist many ∧ many.Sublist (logLines .trace s.refresh.events) := by
  intro s
  refine ⟨by decide +kernel, (refresh_lines s).2 _ _ fun severity => ?_⟩
  cases severity <;> decide

end Session

end BlendPlot
