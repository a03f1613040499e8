import BlendPlot.Curve

namespace BlendPlot.Curve

def definition (name value : String) : String :=
  "  " ++ name ++ " = " ++ value ++ "\n"

def sideDefinition (name : String) (side : Option Part) : String :=
  match side with
  | some part => definition name part.expr.text
  | none => ""

def weightText : Weight → String
  | .fixed value => Decimal.Layout.plain.text value
  | .varying part => "min(1, max(0, " ++ part.expr.text ++ "))"

def resultText (c : Curve) : String :=
  match c.first, c.second with
  | some _, some _ => "f1 * (1 - alpha) + f2 * alpha"
  | some _, none => "f1"
  | none, some _ => "f2"
  | none, none => "0"

def parameterText (p : Parameter) : String :=
  ", " ++ p.name ++ " = " ++ Decimal.Layout.plain.text p.value

def listing (c : Curve) : String :=
  "(x" ++ String.join (c.parameters.map parameterText) ++ ") => \x7b\n" ++
    sideDefinition "f1" c.first ++ sideDefinition "f2" c.second ++
    definition "alpha" (weightText c.weight) ++ "  return " ++ c.resultText ++ "\n\x7d"

end BlendPlot.Curve
