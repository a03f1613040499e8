namespace BlendPlot

inductive Function where
  | sine
  | cosine
  | squareRoot
  deriving DecidableEq

namespace Function

def name : Function → String
  | sine => "sin"
  | cosine => "cos"
  | squareRoot => "sqrt"

/-- The value of the function; the root of a negative number is not a number. -/
def apply (f : Function) (a : Float) : Float :=
  match f with
  | sine => a.sin
  | cosine => a.cos
  | squareRoot => a.sqrt

end Function

inductive Symbol where
  | argument
  | weight
  | constant (value : Float)
  | function (f : Function)
  deriving DecidableEq

def pi : Float := 3.141592653589793

namespace Symbol

def table : List (String × Symbol) :=
  [("x", argument), ("alpha", weight), ("cos", function .cosine), ("sin", function .sine),
   ("sqrt", function .squareRoot), ("pi", constant pi)]

/-- The meaning of a reserved name. Case counts: `PI` is not reserved. -/
def find? (name : String) : Option Symbol :=
  table.lookup name

end Symbol

def isReserved (name : String) : Bool :=
  (Symbol.find? name).isSome

end BlendPlot
