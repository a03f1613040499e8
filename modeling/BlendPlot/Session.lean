import BlendPlot.State.Json
import BlendPlot.View

namespace BlendPlot

section

variable {σ : Type} [Storage σ]

/-- The state that is stored, or the default where there is none that can be read. -/
def State.load (storage : σ) : Logged State :=
  match Storage.load storage with
  | .error e => ⟨{}, [.loadFailed e]⟩
  | .ok none => ⟨{}, [.nothingStored]⟩
  | .ok (some text) =>
    match State.ofJson text with
    | .ok state => ⟨state, []⟩
    | .error e => ⟨{}, [.payloadRefused e]⟩

def State.save (state : State) (storage : σ) : Except StorageError Unit × σ :=
  Storage.save state.toJson.write storage

end

structure Session (σ : Type) where
  state : State
  settings : Settings
  storage : σ
  view : View

namespace Session

variable {σ : Type} [Storage σ]

def refresh (s : Session σ) : Logged (Session σ) := do
  let view ← View.refresh s.state s.settings s.view
  return { s with view := view }

def refreshM {m : Type → Type} [Monad m] (tell : Event → m Unit) (s : Session σ) :
    m (Session σ) := do
  let view ← View.refreshM tell s.state s.settings s.view
  return { s with view := view }

/-- The last refresh did not return: an overflow has stopped the program. -/
def stopped (s : Session σ) : Bool :=
  s.view.isCurrent && !decide s.settings.Fits

def start (storage : σ) (settings : Settings) : Logged (Session σ) := do
  let state ← State.load storage
  refresh ⟨state, settings, storage, {}⟩

def edit (s : Session σ) (e : Edit) : Logged (Session σ) := do
  let state := s.state.apply e
  let (saved, storage) := state.save s.storage
  match saved with
  | .error error => Logged.tell (.saveFailed error)
  | .ok () => pure ()
  refresh { s with state := state, storage := storage }

def configure (s : Session σ) (settings : Settings) : Logged (Session σ) :=
  refresh { s with settings := settings }

inductive Step where
  | edit (e : Edit)
  | configure (settings : Settings)
  | refresh

def step (s : Session σ) : Step → Logged (Session σ)
  | .edit e => s.edit e
  | .configure settings => s.configure settings
  | .refresh => s.refresh

def run (s : Session σ) : List Step → Logged (Session σ)
  | [] => pure s
  | t :: ts => do
    let s ← s.step t
    s.run ts

end Session

end BlendPlot
