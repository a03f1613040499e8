import BlendPlot.Proofs.View
import Mathlib.Data.List.Basic

namespace BlendPlot

theorem logLines_trace (events : List Event) : logLines .trace events = events.map Event.line := by
  rw [logLines, List.filter_eq_self.mpr fun e _ => by simp [Severity.rank]]

namespace Settings

/-- For a curve that only gives numbers these are the samples of that curve. -/
theorem sampleM_pure {m : Type → Type} [Monad m] [LawfulMonad m] (s : Settings)
    (curve : Float → Float) :
    s.sampleM (fun x => (pure (curve x) : m Float)) = pure (s.sample curve) := by
  rw [sampleM, sample]
  cases s.capacity with
  | error fault => rfl
  | ok count =>
    have hstep : s.sampleAtM (fun x => (pure (curve x) : m Float)) =
        fun step => pure (s.sampleAt curve step) := funext fun _ => pure_bind _ _
    dsimp only
    rw [hstep, List.mapM_pure, pure_bind]

/-- Where there is no room for the points the curve is not evaluated at all. -/
theorem sample_of_capacity {s : Settings} {fault : SamplingFault} (h : s.capacity = .error fault)
    (curve : Float → Float) :
    s.sample curve = .error fault ∧
      ∀ (m : Type → Type) [Monad m] (asked : Float → m Float),
        s.sampleM asked = pure (.error fault) := by
  refine ⟨?_, fun m _ asked => ?_⟩
  · rw [sample, h]
  · rw [sampleM, h]

theorem run_mapM_noting (s : Settings) (curve : Float → Float) (steps : List Nat)
    (noted : List Float) :
    (steps.mapM (s.sampleAtM (noting curve))).run noted =
      (steps.map (s.sampleAt curve), noted ++ steps.map s.argument) := by
  induction steps generalizing noted with
  | nil =>
    rw [List.mapM_nil, List.map_nil, List.map_nil, List.append_nil]
    rfl
  | cons step steps ih =>
    have hrest := ih (noted ++ [s.argument step])
    rw [List.append_assoc] at hrest
    have hrun : ((step :: steps).mapM (s.sampleAtM (noting curve))).run noted =
        let rest := (steps.mapM (s.sampleAtM (noting curve))).run (noted ++ [s.argument step])
        (s.sampleAt curve step :: rest.1, rest.2) := by
      rw [List.mapM_cons]
      rfl
    rw [hrun, hrest]
    rfl

theorem run_sampleM_noting {s : Settings} (h : s.error? = none) (hfits : s.Fits)
    (curve : Float → Float) :
    (s.sampleM (noting curve)).run [] =
      (s.sample curve, (List.range (s.steps.toNat + 1)).map s.argument) := by
  rw [sampleM, sample, capacity_of_fits h hfits]
  simp only [StateT.run_bind, run_mapM_noting]
  rfl

def pointAt (s : Settings) (curve : Float → Float) (step : Nat) : Point :=
  ⟨s.fraction step * s.width, (1 - curve (s.argument step)) * s.height⟩

def dropLine (s : Settings) (curve : Float → Float) (step : Nat) : String :=
  Event.line (.sampleDropped (s.argument step) (curve (s.argument step)))

theorem point?_sampleAt (s : Settings) (curve : Float → Float) (step : Nat) :
    (s.sampleAt curve step).point? =
      if (curve (s.argument step)).isFinite then some (s.pointAt curve step) else none := by
  rw [sampleAt]
  split <;> rfl

theorem droppedSample?_sampleAt (s : Settings) (curve : Float → Float) (step : Nat) :
    View.droppedSample? (s.sampleAt curve step) =
      if !(curve (s.argument step)).isFinite then
        some (.sampleDropped (s.argument step) (curve (s.argument step)))
      else none := by
  rw [sampleAt]
  cases (curve (s.argument step)).isFinite <;> rfl

theorem points_map_sampleAt (s : Settings) (curve : Float → Float) (steps : List Nat) :
    (steps.map (s.sampleAt curve)).filterMap Sample.point? =
      (steps.filter fun step => (curve (s.argument step)).isFinite).map (s.pointAt curve) := by
  rw [List.filterMap_map, ← List.filterMap_eq_map', List.filterMap_filter]
  exact congrArg (List.filterMap · steps) (funext (s.point?_sampleAt curve))

theorem logLines_map_sampleAt (s : Settings) (curve : Float → Float) (steps : List Nat) :
    logLines .trace ((steps.map (s.sampleAt curve)).filterMap View.droppedSample?) =
      (steps.filter fun step => !(curve (s.argument step)).isFinite).map (s.dropLine curve) := by
  rw [logLines_trace, List.filterMap_map, List.map_filterMap, ← List.filterMap_eq_map',
    List.filterMap_filter]
  refine congrArg (List.filterMap · steps) (funext fun step => ?_)
  rw [Function.comp_apply, droppedSample?_sampleAt]
  split <;> rfl

/-- A curve that is not finite at further steps loses their points and keeps the others. -/
theorem filter_map_pointAt_of_finite {s : Settings} {curve other : Float → Float}
    {steps : List Nat}
    (h : ∀ step ∈ steps, (other (s.argument step)).isFinite →
      other (s.argument step) = curve (s.argument step)) :
    (steps.filter fun step => (other (s.argument step)).isFinite).map (s.pointAt other) =
      ((steps.filter fun step => (curve (s.argument step)).isFinite).filter
        fun step => (other (s.argument step)).isFinite).map (s.pointAt curve) := by
  have hsteps : (steps.filter fun step => (other (s.argument step)).isFinite) =
      (steps.filter fun step => (curve (s.argument step)).isFinite).filter
        fun step => (other (s.argument step)).isFinite := by
    rw [List.filter_filter]
    refine List.filter_congr fun step hstep => ?_
    cases hfinite : (other (s.argument step)).isFinite with
    | false => rfl
    | true => rw [← h step hstep hfinite, hfinite]; rfl
  rw [← hsteps]
  refine List.map_congr_left fun step hstep => ?_
  obtain ⟨hmem, hfinite⟩ := List.mem_filter.mp hstep
  rw [pointAt, pointAt, h step hmem hfinite]

/-- Each step has a point or a log line, where there is room; otherwise no curve is evaluated. -/
theorem samples_step_by_step (s : Settings) (curve : Float → Float) :
    match s.error? with
    | some e =>
      s.sample curve = .error (.refused e) ∧
        ∀ (m : Type → Type) [Monad m] (asked : Float → m Float),
          s.sampleM asked = pure (.error (.refused e))
    | none =>
      if s.steps.toNat + 1 < 2 ^ 59 then ∃ samples,
        let p (k : Nat) := Float.ofNat k / s.steps.toFloat
        let x (k : Nat) := s.minX + (s.maxX - s.minX) * p k
        let point (k : Nat) : Point := ⟨p k * s.width, (1 - curve (x k)) * s.height⟩
        let line (k : Nat) := "TRACE dropping non-finite sample y=" ++
          Decimal.Layout.plain.text (curve (x k)) ++ " at x=" ++ Decimal.Layout.plain.text (x k)
        let steps := List.range (s.steps.toNat + 1)
        let kept := steps.filter fun k => (curve (x k)).isFinite
        let points := samples.filterMap Sample.point?
        let lines := logLines .trace (samples.filterMap View.droppedSample?)
        s.sample curve = .ok samples ∧
          (s.sampleM (noting curve)).run [] = (.ok samples, steps.map x) ∧
          points = kept.map point ∧
          lines = (steps.filter fun k => !(curve (x k)).isFinite).map line ∧
          points.length + lines.length = s.steps.toNat + 1 ∧
          ∀ other : Float → Float,
            (∀ k ∈ steps, (other (x k)).isFinite → other (x k) = curve (x k)) →
            ∃ samples', s.sample other = .ok samples' ∧
              samples'.filterMap Sample.point? =
                (kept.filter fun k => (other (x k)).isFinite).map point
      else
        let overflow : SamplingFault :=
          if s.steps = mostSteps then .countOverflow else .capacityOverflow
        s.sample curve = .error overflow ∧
          ∀ (m : Type → Type) [Monad m] (asked : Float → m Float),
            s.sampleM asked = pure (.error overflow) := by
  cases h : s.error? with
  | some e => exact sample_of_capacity (capacity_of_error? h) curve
  | none =>
    dsimp only
    split
    next hlt =>
      have hfits := s.fits_iff.mpr hlt
      have hsample := sample_of_fits h hfits
      refine ⟨_, hsample curve, ?noted, s.points_map_sampleAt curve _,
        s.logLines_map_sampleAt curve _, ?count, fun other hother => ?further⟩
      case noted =>
        rw [run_sampleM_noting h hfits, hsample]
        rfl
      case count =>
        rw [s.points_map_sampleAt, s.logLines_map_sampleAt, List.length_map, List.length_map,
          ← List.length_eq_length_filter_add, List.length_range]
      case further =>
        refine ⟨_, hsample other, ?_⟩
        rw [points_map_sampleAt]
        exact filter_map_pointAt_of_finite hother
    next hlt => exact sample_of_capacity (capacity_of_not_fits h (mt s.fits_iff.mp hlt)) curve

/-- Settings that are accepted and have fewer steps than 64 bits count, yet no curve is sampled. -/
theorem capacity_overflow_of_many_steps :
    let s : Settings := { steps := 576460752303423487 }
    s.error? = none ∧ s.steps.toNat < 2 ^ 64 - 1 ∧
      ∀ curve, s.sample curve = .error .capacityOverflow := by
  intro s
  have hcapacity : s.capacity = .error .capacityOverflow := by decide +kernel
  exact ⟨by decide +kernel, by decide +kernel, fun curve => (sample_of_capacity hcapacity curve).1⟩

end Settings

end BlendPlot
