import BlendPlot.Curve.Listing
import BlendPlot.Event
import BlendPlot.Polyline
import BlendPlot.State

namespace BlendPlot

/-- A drawn curve: its points and the listing of the curve they belong to. -/
structure Plot where
  points : List Point
  listing : String
  deriving DecidableEq

structure View where
  parameters : List Parameter := []
  plot : Option Plot := none
  /-- The errors of the texts, at most one for each slot. -/
  errors : List SlotError := []
  settingsError : Option SettingsError := none
  deriving DecidableEq

namespace View

def points (v : View) : List Point :=
  match v.plot with
  | some plot => plot.points
  | none => []

def listing (v : View) : Option String :=
  v.plot.map (·.listing)

def errorFor (v : View) (slot : Slot) : Option SlotError :=
  v.errors.find? fun e => e.slot = slot

/-- Whether the plot shows the current texts with the current settings. -/
def isCurrent (v : View) : Bool :=
  v.errors.isEmpty && v.settingsError.isNone

def droppedSample? : Sample → Option Event
  | .kept _ => none
  | .dropped x y => some (.sampleDropped x y)

/-- Where an overflow stops the program the view is left as it is. -/
def draw (v : View) (settings : Settings) (curve : Curve) : Logged View :=
  match settings.sample curve.eval with
  | .error (.refused e) => ⟨{ v with settingsError := some e }, [.samplingRefused e]⟩
  | .error _ => ⟨v, []⟩
  | .ok samples =>
    let points := samples.filterMap Sample.point?
    ⟨{ v with plot := some ⟨points, curve.listing⟩, settingsError := none },
      samples.filterMap droppedSample? ++
        [.plotDrawn v.parameters.length points.length (settings.steps.toNat + 1)]⟩

/-- The view of a state before anything is drawn. -/
def undrawn (state : State) (settings : Settings) (old : View) : View :=
  ⟨Environment.parameters state.env state.names, old.plot, state.sources.errors state.names,
    settings.error?⟩

def refresh (state : State) (settings : Settings) (old : View) : Logged View :=
  let view := undrawn state settings old
  if view.errors.isEmpty then
    match state.sources.compile state.names state.env with
    | .ok curve => view.draw settings curve
    | .error e => ⟨{ view with errors := [e] }, [.plotKept e]⟩
  else ⟨view, view.errors.map .plotKept⟩

section

variable {m : Type → Type} [Monad m]

/-- One step of sampling, which tells at once of a sample that is lost. -/
def sampleStepM (tell : Event → m Unit) (settings : Settings) (curve : Float → Float)
    (points : List Point) (step : Nat) : m (List Point) :=
  match settings.sampleAt curve step with
  | .kept point => pure (points ++ [point])
  | .dropped x y => do
    tell (.sampleDropped x y)
    return points

def drawM (tell : Event → m Unit) (v : View) (settings : Settings) (curve : Curve) : m View :=
  match settings.capacity with
  | .error (.refused e) => do
    tell (.samplingRefused e)
    return { v with settingsError := some e }
  | .error _ => return v
  | .ok count => do
    let points ← (List.range count).foldlM (sampleStepM tell settings curve.eval) []
    tell (.plotDrawn v.parameters.length points.length (settings.steps.toNat + 1))
    return { v with plot := some ⟨points, curve.listing⟩, settingsError := none }

/-- A refresh that tells of each event when it happens, in whatever way. -/
def refreshM (tell : Event → m Unit) (state : State) (settings : Settings) (old : View) :
    m View :=
  let view := undrawn state settings old
  if view.errors.isEmpty then
    match state.sources.compile state.names state.env with
    | .ok curve => view.drawM tell settings curve
    | .error e => do
      tell (.plotKept e)
      return { view with errors := [e] }
  else do
    forM (view.errors.map .plotKept) tell
    return view

end

end View

end BlendPlot
