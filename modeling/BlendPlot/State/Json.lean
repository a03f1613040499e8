import BlendPlot.Json.Reader
import BlendPlot.Json.Writer
import BlendPlot.State
import BlendPlot.Storage

namespace BlendPlot

def Slot.key : Slot → String
  | first => "func1.func"
  | second => "func2.func"
  | blend => "blendFunc.func"

def parameterKey (name : String) : String :=
  "env." ++ name

def parameterOfKey? (key : String) : Option String :=
  match key.toList with
  | 'e' :: 'n' :: 'v' :: '.' :: name => some (String.ofList name)
  | _ => none

@[simp] theorem parameterOfKey?_parameterKey (name : String) :
    parameterOfKey? (parameterKey name) = some name := by
  simp [parameterOfKey?, parameterKey, String.toList_append]

def Environment.toJson (env : Environment) : Json :=
  .object (env.entries.map fun e => (e.1, .real e.2))

def Environment.ofJson? (text : String) : Option Environment := do
  let members ← Json.document (Json.objectOf fun _ => Json.scalar) text
  let entries ← members.mapM fun m => m.2.toFloat?.map fun value => (m.1, value)
  return Table.ofList entries

namespace State

def members (s : State) : Table Json :=
  let texts := Slot.all.map fun slot => (slot.key, Json.string (s.sources.get slot))
  let values := s.env.entries.map fun e => (parameterKey e.1, Json.real e.2)
  Table.ofList (texts ++ values)

def toJson (s : State) : Json :=
  .object s.members.entries

/-- The sources with the text that the stored form has for a slot. -/
def readText (members : Table Json) (sources : Sources) (slot : Slot) :
    Except StorageError Sources :=
  match members.find? slot.key with
  | none => .ok sources
  | some (.string text) => .ok (sources.set slot text)
  | some _ => .error (.invalidValue slot.key)

/-- The environment with the value that a member has for its parameter; `null` is no value. -/
def readValue (env : Environment) (member : String × Json) : Except StorageError Environment :=
  match parameterOfKey? member.1 with
  | none => .ok env
  | some name =>
    match member.2 with
    | .null => .ok env
    | .integer value => .ok (env.insert name (Float.ofInt value))
    | .real value => .ok (env.insert name value)
    | _ => .error (.invalidValue member.1)

/-- The state that members say: first the texts, then the values, in the order of the keys. -/
def ofMembers (members : Table Json) : Except StorageError State := do
  let default : State := {}
  let sources ← Slot.all.foldlM (readText members) default.sources
  let env ← members.entries.foldlM readValue default.env
  return ⟨sources, env⟩

def maxNesting : Nat := 127

/-- The state that a stored text says; of members with the same key the last counts. -/
def ofJson (text : String) : Except StorageError State :=
  match Json.document (Json.value maxNesting) text with
  | none => .error .malformed
  | some (.object members) => ofMembers (Table.ofList members)
  | some _ => .error .notAnObject

end State

end BlendPlot
