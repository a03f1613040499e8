import BlendPlot.Decimal.Layout
import BlendPlot.Json
import BlendPlot.Json.Quoted

namespace BlendPlot.Json

mutual

def write : Json → String
  | null => "null"
  | bool value => if value then "true" else "false"
  | integer value => toString value
  | real value => if value.isFinite then Decimal.Layout.data.text value else "null"
  | string value => quote value
  | array items => "[" ++ ",".intercalate (writeAll items) ++ "]"
  | object members => "\x7b" ++ ",".intercalate (writeMembers members) ++ "\x7d"

def writeAll : List Json → List String
  | [] => []
  | v :: vs => v.write :: writeAll vs

def writeMembers : List (String × Json) → List String
  | [] => []
  | (key, v) :: ms => (quote key ++ ":" ++ v.write) :: writeMembers ms

end

end BlendPlot.Json
