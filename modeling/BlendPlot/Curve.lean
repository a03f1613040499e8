import BlendPlot.Environment
import BlendPlot.Expr.Printer
import BlendPlot.Parameter
import BlendPlot.Sources
import BlendPlot.Weight

namespace BlendPlot

/-- The weight of the second side. -/
inductive Weight where
  | fixed (value : Float)
  | varying (part : Part)

/-- A curve over parameters with fixed values. -/
structure Curve where
  first : Option Part
  second : Option Part
  weight : Weight
  parameters : List Parameter

/-- The value of a quantity that is not there. -/
def absent : Float := 0 / 0

/-- The weight that a blend means; one that mentions nothing is evaluated at once. -/
def Weight.ofBlend (values : List Float) : Option Part → Weight
  | none => fixed 0
  | some part =>
    if part.formula.isConstant then fixed (clampWeight (part.formula.eval ⟨0, absent, values⟩))
    else varying part

def Environment.parameters (env : Environment) (names : List String) : List Parameter :=
  names.map fun name => ⟨name, Environment.get env name⟩

/-- The curve of three texts, or the error of the first that has one. -/
def Sources.compile (s : Sources) (names : List String) (env : Environment) :
    Except SlotError Curve := do
  let first ← Slot.first.check names s.first
  let second ← Slot.second.check names s.second
  let blend ← Slot.blend.check names s.blend
  let parameters := Environment.parameters env names
  return ⟨first, second, .ofBlend (parameters.map (·.value)) blend, parameters⟩

namespace Curve

def values (c : Curve) : List Float :=
  c.parameters.map (·.value)

def weightAt (c : Curve) (x : Float) : Float :=
  match c.weight with
  | .fixed value => value
  | .varying part => clampWeight (part.formula.eval ⟨x, absent, c.values⟩)

def eval (c : Curve) (x : Float) : Float :=
  let w := c.weightAt x
  let v : Valuation := ⟨x, w, c.values⟩
  match c.first, c.second with
  | some f, some g => f.formula.eval v * (1 - w) + g.formula.eval v * w
  | some f, none => f.formula.eval v
  | none, some g => g.formula.eval v
  | none, none => 0

end Curve

end BlendPlot
