namespace BlendPlot

/-- The greater of two numbers; the second if they do not compare. -/
def greater (a b : Float) : Float :=
  if a > b then a else b

/-- The lesser of two numbers; the second if they do not compare. -/
def lesser (a b : Float) : Float :=
  if a < b then a else b

/-- The nearest weight; what is not a number stays so and takes no side. -/
def clampWeight (v : Float) : Float :=
  if v.isNaN then v else lesser 1 (greater 0 v)

end BlendPlot
