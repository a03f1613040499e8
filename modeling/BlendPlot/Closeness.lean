import BlendPlot.Decimal.Layout

namespace BlendPlot

/-- The tolerance where none is given. -/
def defaultTolerance : Float := 1e-10

def isClose (tolerance left right : Float) : Bool :=
  left.isNaN && right.isNaN || left.isInf && right.isInf && left == right ||
    (left - right).abs < tolerance

def mismatchText (tolerance left right : Float) (note : String) : String :=
  let text := Decimal.Layout.plain.text
  "assertion failed: `(left ≈ right)` (left: `" ++ text left ++ "`, right: `" ++ text right ++
    "`, epsilon: `" ++ text tolerance ++ "`): " ++ note

end BlendPlot
