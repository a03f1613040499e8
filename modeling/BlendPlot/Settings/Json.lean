import BlendPlot.Json.Skip
import BlendPlot.Json.Writer
import BlendPlot.Settings

namespace BlendPlot

namespace Settings

inductive Field where
  | minX
  | maxX
  | steps
  | width
  | height
  deriving DecidableEq

namespace Field

def all : List Field := [minX, maxX, steps, width, height]

def key : Field → String
  | minX => "min_x"
  | maxX => "max_x"
  | steps => "steps"
  | width => "width"
  | height => "height"

def ofKey? (key : String) : Option Field :=
  all.find? fun field => field.key = key

end Field

def get (s : Settings) : Field → Json
  | .minX => .real s.minX
  | .maxX => .real s.maxX
  | .steps => .integer s.steps.toNat
  | .width => .real s.width
  | .height => .real s.height

/-- The settings with another value of a field; the steps are a whole number of 64 bits. -/
def set? (s : Settings) (field : Field) (value : Json) : Option Settings :=
  match field with
  | .minX => value.toFloat?.map ({ s with minX := · })
  | .maxX => value.toFloat?.map ({ s with maxX := · })
  | .steps =>
    match value with
    | .integer (.ofNat n) => if n < UInt64.size then some { s with steps := .ofNat n } else none
    | _ => none
  | .width => value.toFloat?.map ({ s with width := · })
  | .height => value.toFloat?.map ({ s with height := · })

def ofFields? (fields : List (Field × Json)) : Option Settings :=
  fields.foldlM (fun s f => s.set? f.1 f.2) {}

def toJson (s : Settings) : Json :=
  .object (Field.all.map fun field => (field.key, s.get field))

/-- Reads the value of a known field and passes over any other. -/
def fieldReader (key : String) : Json.Reader (Option (Field × Json)) :=
  match Field.ofKey? key with
  | some field => Json.scalar.filterMap fun value => some (some (field, value))
  | none => Json.skip.filterMap fun _ => some none

/-- The settings that an object says; no known field may come twice. -/
def ofObject? (members : List (String × Option (Field × Json))) : Option Settings :=
  let fields := members.filterMap (·.2)
  if (fields.map (·.1)).Nodup then ofFields? fields else none

def ofArray? (items : List Json) : Option Settings :=
  if items.length ≤ Field.all.length then ofFields? (Field.all.zip items) else none

def ofJson? (text : String) : Option Settings :=
  match Json.document (Json.objectOf fieldReader) text with
  | some members => ofObject? members
  | none => Json.document (Json.arrayOf Json.scalar) text >>= ofArray?

end Settings

end BlendPlot
