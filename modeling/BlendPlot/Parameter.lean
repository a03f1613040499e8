import BlendPlot.Symbol
import BlendPlot.Table
import BlendPlot.Text.Identifier

namespace BlendPlot

structure Parameter where
  name : String
  value : Float
  deriving DecidableEq

/-- The names in several texts that are not reserved, in order and each once. -/
def parameterNames (texts : List String) : List String :=
  let names := (texts.flatMap identifierRuns).filter fun name => !isReserved name
  (Table.ofList (names.map fun name => (name, ()))).names

end BlendPlot
