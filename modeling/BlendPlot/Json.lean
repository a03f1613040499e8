namespace BlendPlot

/-- A JSON value; the members of an object as they are written, in order and with repetitions. -/
inductive Json where
  | null
  | bool (value : Bool)
  | integer (value : Int)
  | real (value : Float)
  | string (value : String)
  | array (items : List Json)
  | object (members : List (String × Json))

def Json.toFloat? : Json → Option Float
  | integer value => some (Float.ofInt value)
  | real value => some value
  | _ => none

end BlendPlot
