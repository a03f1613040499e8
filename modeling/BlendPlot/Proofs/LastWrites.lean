import BlendPlot.Proofs.Durability
import BlendPlot.Proofs.Fields

namespace BlendPlot

namespace Edit

def textFor? (slot : Slot) : Edit → Option String
  | text other written => if slot = other then some written else none
  | parameter _ _ => none

def valueFor? (name : String) : Edit → Option Float
  | text _ _ => none
  | parameter other value => if name = other then some value else none

/-- The text that was written last to a slot, if any was. -/
def lastText? (slot : Slot) (es : List Edit) : Option String :=
  (es.filterMap (textFor? slot)).getLast?

/-- The value that was written last to a parameter, if any was. -/
def lastValue? (name : String) (es : List Edit) : Option Float :=
  (es.filterMap (valueFor? name)).getLast?

theorem eq_nil_of_last_writes {es : List Edit} (htext : ∀ slot, lastText? slot es = none)
    (hvalue : ∀ name, lastValue? name es = none) : es = [] := by
  cases es with
  | nil => rfl
  | cons e es =>
    cases e with
    | text slot text =>
      have h := htext slot
      simp [lastText?, textFor?, List.getLast?_cons] at h
    | parameter name value =>
      have h := hvalue name
      simp [lastValue?, valueFor?, List.getLast?_cons] at h

theorem eq_nil_iff_of_last_writes {es ds : List Edit}
    (htext : ∀ slot, lastText? slot es = lastText? slot ds)
    (hvalue : ∀ name, lastValue? name es = lastValue? name ds) : es = [] ↔ ds = [] := by
  constructor
  · rintro rfl
    exact eq_nil_of_last_writes (fun slot => (htext slot).symm) fun name => (hvalue name).symm
  · rintro rfl
    exact eq_nil_of_last_writes htext hvalue

end Edit

namespace State

theorem get_apply (s : State) (e : Edit) (slot : Slot) :
    (s.apply e).sources.get slot = (e.textFor? slot).getD (s.sources.get slot) := by
  cases e with
  | text other text =>
    rw [apply, Sources.get_set, Edit.textFor?]
    split <;> rfl
  | parameter name value => rfl

theorem find?_apply (s : State) (e : Edit) (name : String) :
    (s.apply e).env.find? name = (e.valueFor? name).or (s.env.find? name) := by
  cases e with
  | text slot text => rfl
  | parameter other value =>
    rw [apply, Table.find?_insert, Edit.valueFor?]
    split <;> rfl

theorem get_foldl_apply (s : State) (es : List Edit) (slot : Slot) :
    (es.foldl apply s).sources.get slot = (Edit.lastText? slot es).getD (s.sources.get slot) := by
  induction es generalizing s with
  | nil => rfl
  | cons e es ih =>
    rw [List.foldl_cons, ih, get_apply, Edit.lastText?, Edit.lastText?]
    cases h : e.textFor? slot with
    | none => rw [List.filterMap_cons_none h]; rfl
    | some text => rw [List.filterMap_cons_some h, List.getLast?_cons]; rfl

theorem find?_foldl_apply (s : State) (es : List Edit) (name : String) :
    (es.foldl apply s).env.find? name = (Edit.lastValue? name es).or (s.env.find? name) := by
  induction es generalizing s with
  | nil => rfl
  | cons e es ih =>
    rw [List.foldl_cons, ih, find?_apply, Edit.lastValue?, Edit.lastValue?]
    cases h : e.valueFor? name with
    | none => rw [List.filterMap_cons_none h]; rfl
    | some value =>
      rw [List.filterMap_cons_some h, List.getLast?_cons]
      cases (es.filterMap (Edit.valueFor? name)).getLast? <;> rfl

theorem foldl_apply_congr (s : State) {es ds : List Edit}
    (htext : ∀ slot, Edit.lastText? slot es = Edit.lastText? slot ds)
    (hvalue : ∀ name, Edit.lastValue? name es = Edit.lastValue? name ds) :
    es.foldl apply s = ds.foldl apply s := by
  apply ext_get_find?
  · intro slot
    rw [get_foldl_apply, get_foldl_apply, htext]
  · intro name
    rw [find?_foldl_apply, find?_foldl_apply, hvalue]

end State

namespace Session

variable {σ : Type} [Storage σ]

theorem settings_run_edits (s : Session σ) (es : List Edit) :
    (s.run (es.map .edit)).value.settings = s.settings := by
  induction es generalizing s with
  | nil => rfl
  | cons e es ih => exact (ih (s.step (.edit e)).value).trans (s.settings_edit e)

theorem state_run_edits (s : Session σ) (es : List Edit) :
    (s.run (es.map .edit)).value.state = es.foldl State.apply s.state := by
  induction es generalizing s with
  | nil => rfl
  | cons e es ih =>
    have hrest := ih (s.step (.edit e)).value
    rw [state_step] at hrest
    exact hrest

theorem storage_edit (s : Session Memory) (e : Edit) :
    (s.step (.edit e)).value.storage = ⟨some (s.step (.edit e)).value.state.toJson.write⟩ := by
  rw [step, value_edit]
  rfl

theorem storage_run_edits (s : Session Memory) {es : List Edit} (hne : es ≠ []) :
    (s.run (es.map .edit)).value.storage =
      ⟨some (s.run (es.map .edit)).value.state.toJson.write⟩ := by
  induction es generalizing s with
  | nil => exact absurd rfl hne
  | cons e es ih =>
    cases es with
    | nil => exact s.storage_edit e
    | cons d ds => exact ih (s.step (.edit e)).value (List.cons_ne_nil d ds)

theorem storage_run_congr (s : Session Memory) {es ds : List Edit} (hnil : es = [] ↔ ds = [])
    (hstate : (s.run (es.map .edit)).value.state = (s.run (ds.map .edit)).value.state) :
    (s.run (es.map .edit)).value.storage = (s.run (ds.map .edit)).value.storage := by
  by_cases h : es = []
  · rw [h, hnil.mp h]
  · rw [s.storage_run_edits h, s.storage_run_edits (mt hnil.mpr h), hstate]

/-- Where the points have no room, no edit changes the plot. -/
theorem plot_run_edits_of_not_fits (s : Session σ) (h : ¬s.settings.Fits) (es : List Edit) :
    (s.run (es.map .edit)).value.view.plot = s.view.plot := by
  induction es generalizing s with
  | nil => rfl
  | cons e es ih =>
    have hsettings := s.settings_edit e
    refine (ih (s.step (.edit e)).value (hsettings ▸ h)).trans ?_
    rw [step, value_edit]
    exact View.refresh_plot_of_not_draws s.view fun hdraws => h hdraws.2.2

/-- Only the last text of a slot and the last value of a parameter count, and these are left. -/
theorem run_eq_of_last_writes (memory : Memory) (settings : Settings) {es ds : List Edit}
    (htext : ∀ slot, Edit.lastText? slot es = Edit.lastText? slot ds)
    (hvalue : ∀ name, Edit.lastValue? name es = Edit.lastValue? name ds) :
    let opened := (start memory settings).value
    let s := (opened.run (es.map .edit)).value
    let t := (opened.run (ds.map .edit)).value
    (∀ slot, s.state.sources.get slot =
        (Edit.lastText? slot es).getD (opened.state.sources.get slot)) ∧
      (∀ name, s.state.env.find? name =
        (Edit.lastValue? name es).or (opened.state.env.find? name)) ∧
      s.state = t.state ∧ s.storage.payload = t.storage.payload ∧
      s.view.parameters = t.view.parameters ∧ s.view.errors = t.view.errors ∧
      s.view.settingsError = t.view.settingsError ∧
      ((∃ curve, s.state.sources.compile (parameterNames s.state.sources.texts) s.state.env =
          .ok curve) → settings.error? = none →
        s.view.points = t.view.points ∧ s.view.listing = t.view.listing) := by
  intro opened s t
  have hs : s.Reachable := Reachable.run (.start memory settings) _
  have ht : t.Reachable := Reachable.run (.start memory settings) _
  have hleft : s.state = es.foldl State.apply opened.state := state_run_edits opened es
  have hstate : s.state = t.state := by
    rw [hleft, State.foldl_apply_congr _ htext hvalue]
    exact (state_run_edits opened ds).symm
  have hstorage : s.storage = t.storage :=
    storage_run_congr _ (Edit.eq_nil_iff_of_last_writes htext hvalue) hstate
  have hsettings : s.settings = settings := settings_run_edits opened es
  have hsame : s.settings = t.settings := hsettings.trans (settings_run_edits opened ds).symm
  have hdescribes : t.view.Describes s.state s.settings := by
    rw [hstate, hsame]
    exact ht.describes
  obtain ⟨hparameters, herrors, hsettingsError⟩ := hs.describes.congr hdescribes
  refine ⟨fun slot => ?texts, fun name => ?values, hstate, congrArg Memory.payload hstorage,
    hparameters, herrors, hsettingsError, ?plots⟩
  case texts => rw [hleft, State.get_foldl_apply]
  case values => rw [hleft, State.find?_foldl_apply]
  rintro ⟨curve, hcompile⟩ hvalid
  by_cases hfits : settings.Fits
  · have hcurrent : s.view.isCurrent := by
      have hnil := s.state.sources.errors_eq_nil_of_compile s.state.names s.state.env hcompile
      rw [View.isCurrent, hs.describes.errors, hs.describes.settingsError, hnil, hsettings, hvalid]
      rfl
    have hview := hs.view_eq ht hstate hsame hcurrent (hsettings ▸ hfits)
    rw [hview]
    exact ⟨rfl, rfl⟩
  · have hplot : s.view.plot = t.view.plot :=
      (opened.plot_run_edits_of_not_fits hfits es).trans
        (opened.plot_run_edits_of_not_fits hfits ds).symm
    rw [View.points, View.points, View.listing, View.listing, hplot]
    exact ⟨rfl, rfl⟩

/-- One session goes a long way round, the other writes at once what is left in the end. -/
theorem run_eq_of_last_writes_of_detour :
    let es : List Edit := [.parameter "k" (1 / 0), .text .first "k * (", .text .second "y +",
      .parameter "k" 5, .text .first "k * x", .text .second ""]
    let ds : List Edit := [.text .second "", .parameter "k" 5, .text .first "k * x"]
    let s := ((start (⟨some "broken"⟩ : Memory) {}).value.run (es.map .edit)).value
    let t := ((start (⟨some "broken"⟩ : Memory) {}).value.run (ds.map .edit)).value
    (∀ slot, Edit.lastText? slot es = Edit.lastText? slot ds) ∧
      (∀ name, Edit.lastValue? name es = Edit.lastValue? name ds) ∧
      s.state.sources = ⟨"k * x", "", "x"⟩ ∧ s.state.env.find? "k" = some 5 ∧
      (∃ curve, s.state.sources.compile (parameterNames s.state.sources.texts) s.state.env =
        .ok curve) ∧
      Settings.error? {} = none ∧ s.state = t.state ∧ s.storage.payload = t.storage.payload ∧
      s.view.points = t.view.points ∧ s.view.listing = t.view.listing := by
  intro es ds s t
  have htext (slot : Slot) : Edit.lastText? slot es = Edit.lastText? slot ds := by
    cases slot <;> decide
  have hvalue (name : String) : Edit.lastValue? name es = Edit.lastValue? name ds := by
    by_cases h : name = "k" <;>
      simp [Edit.lastValue?, List.filterMap_cons, Edit.valueFor?, es, ds, h]
  obtain ⟨htexts, hvalues, hstate, hpayload, -, -, -, hplot⟩ :=
    run_eq_of_last_writes ⟨some "broken"⟩ {} htext hvalue
  have hleft : s.state.sources = ⟨"k * x", "", "x"⟩ :=
    Sources.ext_get fun slot => (htexts slot).trans (by cases slot <;> decide +kernel)
  have hcompile := s.state.sources.compile_of_errors_eq_nil
    (parameterNames s.state.sources.texts) s.state.env (by rw [hleft]; decide +kernel)
  have hvalid : Settings.error? {} = none := by decide +kernel
  obtain ⟨hpoints, hlisting⟩ := hplot hcompile hvalid
  exact ⟨htext, hvalue, hleft, (hvalues "k").trans (by decide +kernel), hcompile, hvalid, hstate,
    hpayload, hpoints, hlisting⟩

end Session

end BlendPlot
