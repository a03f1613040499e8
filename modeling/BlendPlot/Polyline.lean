import BlendPlot.Settings

namespace BlendPlot

structure Point where
  x : Float
  y : Float
  deriving DecidableEq

/-- Two coordinates of eight bytes. -/
def Point.size : Nat := 16

def Point.text (p : Point) : String :=
  Decimal.Layout.plain.text p.x ++ "," ++ Decimal.Layout.plain.text p.y

def polylineText (points : List Point) : String :=
  ",".intercalate (points.map Point.text)

inductive Sample where
  | kept (point : Point)
  /-- The value `y` at `x` is not finite. -/
  | dropped (x y : Float)
  deriving DecidableEq

namespace Sample

def point? : Sample → Option Point
  | kept point => some point
  | dropped _ _ => none

end Sample

/-- Why a curve is not sampled. The program stops at an overflow, before the curve is evaluated. -/
inductive SamplingFault where
  | refused (error : SettingsError)
  /-- The number of samples does not have 64 bits. -/
  | countOverflow
  /-- The points take more bytes than a buffer may have. -/
  | capacityOverflow
  deriving DecidableEq

namespace Settings

def fraction (s : Settings) (step : Nat) : Float :=
  Float.ofNat step / s.steps.toFloat

def argument (s : Settings) (step : Nat) : Float :=
  s.minX + (s.maxX - s.minX) * s.fraction step

def sampleAt (s : Settings) (curve : Float → Float) (step : Nat) : Sample :=
  let y := curve (s.argument step)
  if y.isFinite then .kept ⟨s.fraction step * s.width, (1 - y) * s.height⟩
  else .dropped (s.argument step) y

/-- The number of samples, if 64 bits can count them. -/
def count? (s : Settings) : Option UInt64 :=
  if s.steps.toNat + 1 < UInt64.size then some (s.steps + 1) else none

/-- The most bytes that a buffer may have: so many as a signed word of 64 bits counts. -/
def maxBytes : Nat := 0x7FFFFFFFFFFFFFFF

/-- A buffer has room for the points of all samples. -/
def Fits (s : Settings) : Prop :=
  (s.steps.toNat + 1) * Point.size ≤ maxBytes

instance (s : Settings) : Decidable s.Fits :=
  inferInstanceAs (Decidable (_ ≤ _))

/-- For how many points room is made before the first sample. -/
def capacity (s : Settings) : Except SamplingFault Nat :=
  match s.error? with
  | some e => .error (.refused e)
  | none =>
    match s.count? with
    | none => .error .countOverflow
    | some count =>
      if count.toNat * Point.size ≤ maxBytes then .ok count.toNat else .error .capacityOverflow

def sample (s : Settings) (curve : Float → Float) : Except SamplingFault (List Sample) :=
  match s.capacity with
  | .error fault => .error fault
  | .ok count => .ok ((List.range count).map (s.sampleAt curve))

section

variable {m : Type → Type} [Monad m]

/-- The sample of a step, for a curve whose evaluation may do more than give a number. -/
def sampleAtM (s : Settings) (curve : Float → m Float) (step : Nat) : m Sample := do
  let y ← curve (s.argument step)
  return s.sampleAt (fun _ => y) step

def sampleM (s : Settings) (curve : Float → m Float) :
    m (Except SamplingFault (List Sample)) :=
  match s.capacity with
  | .error fault => pure (.error fault)
  | .ok count => do
    let samples ← (List.range count).mapM (s.sampleAtM curve)
    return .ok samples

end

/-- A curve that notes where it is evaluated. -/
def noting (curve : Float → Float) (x : Float) : StateM (List Float) Float := do
  modify (· ++ [x])
  return curve x

end Settings

end BlendPlot
