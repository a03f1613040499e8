import BlendPlot.Json.Writer
import BlendPlot.Polyline

namespace BlendPlot

def Point.toJson (p : Point) : Json :=
  .object [("x", .real p.x), ("y", .real p.y)]

def pointsJson (points : List Point) : Json :=
  .array (points.map Point.toJson)

end BlendPlot
