import BlendPlot.Environment
import BlendPlot.Parameter
import BlendPlot.Sources

namespace BlendPlot

structure State where
  sources : Sources := ⟨"x", "1 - x", "x"⟩
  env : Environment := Table.empty
  deriving DecidableEq

inductive Edit where
  | text (slot : Slot) (text : String)
  | parameter (name : String) (value : Float)
  deriving DecidableEq

def State.names (s : State) : List String :=
  parameterNames s.sources.texts

def State.apply (s : State) : Edit → State
  | .text slot text => { s with sources := s.sources.set slot text }
  | .parameter name value => { s with env := s.env.insert name value }

def Environment.matches (a b : Environment) : Bool :=
  a.entries == b.entries

/-- What is not a number differs from itself. -/
def State.matches (a b : State) : Bool :=
  a.sources = b.sources && Environment.matches a.env b.env

end BlendPlot
