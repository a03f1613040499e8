namespace BlendPlot

inductive StorageError where
  | malformed
  | notAnObject
  /-- The value of a known key has another type than it should. -/
  | invalidValue (key : String)
  | inaccessible
  deriving DecidableEq

/-- The message without what the JSON reader or the operating system says about the cause. -/
def StorageError.message : StorageError → String
  | malformed => "Invalid state JSON:"
  | notAnObject => "State must be a JSON object"
  | invalidValue key => "Invalid value for '" ++ key ++ "'"
  | inaccessible => "State storage error:"

/-- Loading finds nothing where nothing was saved; a save leaves the place as it then is. -/
class Storage (σ : Type) where
  load : σ → Except StorageError (Option String)
  save : String → σ → Except StorageError Unit × σ

structure Memory where
  payload : Option String := none
  deriving DecidableEq

instance : Storage Memory where
  load m := .ok m.payload
  save text _ := (.ok (), ⟨some text⟩)

inductive PathEntry where
  | missing
  | file (bytes : ByteArray)
  | directory

/-- A file holds UTF-8; a directory can be neither read nor written. -/
instance : Storage PathEntry where
  load
    | .missing => .ok none
    | .file bytes =>
      match String.fromUTF8? bytes with
      | some text => .ok (some text)
      | none => .error .inaccessible
    | .directory => .error .inaccessible
  save text
    | .directory => (.error .inaccessible, .directory)
    | _ => (.ok (), .file text.toUTF8)

end BlendPlot
