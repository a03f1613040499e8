import BlendPlot.Decimal.Layout

namespace BlendPlot

structure Settings where
  minX : Float := 0
  maxX : Float := 1
  steps : UInt64 := 100
  width : Float := 800
  height : Float := 600
  deriving DecidableEq, Inhabited

inductive SettingsError where
  | noSteps
  | badViewport (width height : Float)
  | badDomain (minX maxX : Float)
  deriving DecidableEq

def isLength (x : Float) : Bool :=
  x.isFinite && x > 0

/-- Whether and why nothing can be plotted: steps first, then the size, then the domain. -/
def Settings.error? (s : Settings) : Option SettingsError :=
  if s.steps = 0 then some .noSteps
  else if !(isLength s.width && isLength s.height) then some (.badViewport s.width s.height)
  else if !(s.minX.isFinite && s.maxX.isFinite) then some (.badDomain s.minX s.maxX)
  else none

def SettingsError.message : SettingsError → String
  | noSteps => "Sample count must be at least 1"
  | badViewport width height =>
    "Invalid viewport " ++ Decimal.Layout.plain.text width ++ "x" ++
      Decimal.Layout.plain.text height
  | badDomain minX maxX =>
    "Invalid domain [" ++ Decimal.Layout.plain.text minX ++ ", " ++
      Decimal.Layout.plain.text maxX ++ "]"

end BlendPlot
