import BlendPlot.Settings
import BlendPlot.Sources
import BlendPlot.Storage

namespace BlendPlot

inductive Severity where
  | trace
  | debug
  | warn
  deriving DecidableEq

namespace Severity

def label : Severity → String
  | trace => "TRACE"
  | debug => "DEBUG"
  | warn => "WARN"

def rank : Severity → Nat
  | trace => 0
  | debug => 1
  | warn => 2

end Severity

inductive Event where
  | nothingStored
  | loadFailed (error : StorageError)
  | payloadRefused (error : StorageError)
  | saveFailed (error : StorageError)
  /-- The plot stays as it was because a text has an error. -/
  | plotKept (error : SlotError)
  | plotDrawn (parameters points samples : Nat)
  | samplingRefused (error : SettingsError)
  | sampleDropped (x y : Float)
  deriving DecidableEq

namespace Event

def severity : Event → Severity
  | nothingStored | plotKept _ | plotDrawn .. => .debug
  | loadFailed _ | payloadRefused _ | saveFailed _ | samplingRefused _ => .warn
  | sampleDropped .. => .trace

def message : Event → String
  | nothingStored => "no stored state, using defaults"
  | loadFailed error => "unable to read stored state, using defaults: " ++ error.message
  | payloadRefused error => "unable to parse stored state, using defaults: " ++ error.message
  | saveFailed error => "failed to persist state: " ++ error.message
  | plotKept error => "keeping previous curve: " ++ error.text
  | plotDrawn parameters points samples =>
    "recomputed curve: " ++ toString parameters ++ " parameters, " ++ toString points ++ " of " ++
      toString samples ++ " points"
  | samplingRefused error => "unable to sample curve: " ++ error.message
  | sampleDropped x y =>
    "dropping non-finite sample y=" ++ Decimal.Layout.plain.text y ++ " at x=" ++
      Decimal.Layout.plain.text x

def line (e : Event) : String :=
  e.severity.label ++ " " ++ e.message

end Event

def logLines (least : Severity) (events : List Event) : List String :=
  (events.filter fun e => least.rank ≤ e.severity.rank).map Event.line

/-- The lines of the events that somebody listens to. -/
def linesHeard (heard : Severity → Bool) (events : List Event) : List String :=
  (events.filter fun e => heard e.severity).map Event.line

/-- Writes the line of an event at the end of a log, if somebody listens. -/
def Event.note (heard : Severity → Bool) (e : Event) : StateM (List String) Unit :=
  if heard e.severity then modify (· ++ [e.line]) else pure ()

/-- A value and the events on the way to it, in order. -/
structure Logged (α : Type) where
  value : α
  events : List Event := []

namespace Logged

def andThen {α β : Type} (m : Logged α) (f : α → Logged β) : Logged β :=
  ⟨(f m.value).value, m.events ++ (f m.value).events⟩

instance : Monad Logged where
  pure a := ⟨a, []⟩
  bind := andThen

def tell (e : Event) : Logged Unit := ⟨(), [e]⟩

@[simp] theorem value_pure {α : Type} (a : α) : (pure a : Logged α).value = a := rfl

@[simp] theorem events_pure {α : Type} (a : α) : (pure a : Logged α).events = [] := rfl

@[simp] theorem value_bind {α β : Type} (m : Logged α) (f : α → Logged β) :
    (m >>= f).value = (f m.value).value := rfl

@[simp] theorem events_bind {α β : Type} (m : Logged α) (f : α → Logged β) :
    (m >>= f).events = m.events ++ (f m.value).events := rfl

end Logged

end BlendPlot
