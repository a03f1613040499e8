import BlendPlot.Proofs.View

namespace BlendPlot

/-- A session without a storage: all that the user can see of one. -/
structure Shown where
  state : State
  settings : Settings
  view : View

def Session.shown {σ : Type} (s : Session σ) : Shown :=
  ⟨s.state, s.settings, s.view⟩

namespace Shown

open Session (Step)

def refresh (p : Shown) : Shown :=
  { p with view := (View.refresh p.state p.settings p.view).value }

def step (p : Shown) : Step → Shown
  | .edit e => refresh { p with state := p.state.apply e }
  | .configure settings => refresh { p with settings := settings }
  | .refresh => p.refresh

def trail (p : Shown) : List Step → List Shown
  | [] => [p]
  | t :: ts => trail (p.step t) ts ++ [p]

end Shown

namespace Session

variable {σ τ : Type}

theorem shown_refresh (s : Session σ) : s.refresh.value.shown = s.shown.refresh := rfl

variable [Storage σ] [Storage τ]

theorem shown_start (storage : σ) (settings : Settings) :
    (start storage settings).value.shown =
      Shown.refresh ⟨(State.load storage).value, settings, {}⟩ := rfl

/-- A step shows the same with any storage, also where the storage fails to save. -/
theorem shown_step (s : Session σ) (t : Step) : (s.step t).value.shown = s.shown.step t := by
  cases t with
  | edit e =>
    rw [step, value_edit, shown_refresh]
    rfl
  | configure settings => rfl
  | refresh => rfl

theorem shown_trail (s : Session σ) (ts : List Step) :
    (s.trail ts).map shown = s.shown.trail ts := by
  induction ts generalizing s with
  | nil => rfl
  | cons t ts ih =>
    have hrest := ih (s.step t).value
    rw [shown_step] at hrest
    rw [trail, List.map_append, hrest]
    rfl

/-- Sessions that load the same state show the same, whichever saves fail. -/
theorem shown_trail_eq_of_load_eq (a : σ) (b : τ) (settings : Settings)
    (h : (State.load a).value = (State.load b).value) (ts : List Step) :
    ((start a settings).value.trail ts).map (fun s => (s.state, s.settings, s.view)) =
      ((start b settings).value.trail ts).map (fun s => (s.state, s.settings, s.view)) := by
  have hshown : ((start a settings).value.trail ts).map shown =
      ((start b settings).value.trail ts).map shown := by
    rw [shown_trail, shown_trail, shown_start, shown_start, h]
  have hparts := congrArg (List.map fun p : Shown => (p.state, p.settings, p.view)) hshown
  rw [List.map_map, List.map_map] at hparts
  exact hparts

end Session

/-- A place that loses some of the texts that are saved to it, each time with an error. -/
structure Unreliable where
  payload : Option String
  failures : List Bool

instance : Storage Unreliable where
  load u := .ok u.payload
  save text u :=
    if u.failures.headD false then (.error .inaccessible, { u with failures := u.failures.tail })
    else (.ok (), ⟨some text, u.failures.tail⟩)

namespace Session

/-- A directory, and a place at which the first and the third save fail. -/
theorem shown_trail_eq_of_broken_payload :
    let broken : Unreliable := ⟨some "not JSON", [true, false, true]⟩
    let ts : List Step := [.edit (.text .first "k * x"), .edit (.parameter "k" 2),
      .edit (.text .second "("), .configure { steps := 0 }, .edit (.text .second "1"), .refresh]
    (State.load PathEntry.directory).value = (State.load broken).value ∧
      ((start PathEntry.directory {}).value.trail ts).map (fun s => (s.state, s.settings, s.view)) =
        ((start broken {}).value.trail ts).map (fun s => (s.state, s.settings, s.view)) := by
  intro broken ts
  have hload : (State.load PathEntry.directory).value = (State.load broken).value := by
    decide +kernel
  exact ⟨hload, shown_trail_eq_of_load_eq PathEntry.directory broken {} hload ts⟩

end Session

end BlendPlot
