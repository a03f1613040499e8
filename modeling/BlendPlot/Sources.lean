import BlendPlot.Expr.Parser
import BlendPlot.Formula.Binding
import BlendPlot.Text.Blank

namespace BlendPlot

/-- One of the three texts: the two sides of the blend and its weight. -/
inductive Slot where
  | first
  | second
  | blend
  deriving DecidableEq

namespace Slot

def all : List Slot := [first, second, blend]

def label : Slot → String
  | first => "f1"
  | second => "f2"
  | blend => "blend"

end Slot

structure Sources where
  first : String
  second : String
  blend : String
  deriving DecidableEq

namespace Sources

def get (s : Sources) : Slot → String
  | .first => s.first
  | .second => s.second
  | .blend => s.blend

def set (s : Sources) (slot : Slot) (text : String) : Sources :=
  match slot with
  | .first => { s with first := text }
  | .second => { s with second := text }
  | .blend => { s with blend := text }

def texts (s : Sources) : List String :=
  Slot.all.map s.get

@[simp] theorem get_set (s : Sources) (slot other : Slot) (text : String) :
    (s.set slot text).get other = if other = slot then text else s.get other := by
  cases slot <;> cases other <;> rfl

end Sources

structure SlotError where
  slot : Slot
  cause : SourceError
  deriving DecidableEq

def SlotError.message (e : SlotError) : String :=
  e.cause.message

def SlotError.text (e : SlotError) : String :=
  e.slot.label ++ ": " ++ e.message

/-- A text that was understood: as it was read and with the meanings of its names. -/
structure Part where
  expr : Expr
  formula : Formula

/-- A blank text has no part; the weight has no value in the text that defines it. -/
def Slot.check (slot : Slot) (parameters : List String) (text : String) :
    Except SlotError (Option Part) :=
  if isBlank text then .ok none
  else
    match Expr.parse text with
    | .error e => .error ⟨slot, .parse e⟩
    | .ok expr =>
      match expr.bind ⟨parameters, slot != .blend⟩ with
      | .error e => .error ⟨slot, .bind e⟩
      | .ok formula => .ok (some ⟨expr, formula⟩)

def Sources.errors (s : Sources) (parameters : List String) : List SlotError :=
  Slot.all.filterMap fun slot =>
    match slot.check parameters (s.get slot) with
    | .error e => some e
    | .ok _ => none

end BlendPlot
