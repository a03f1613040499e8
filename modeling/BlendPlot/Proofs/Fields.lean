import BlendPlot.Proofs.Names
import BlendPlot.Proofs.Reachable

namespace BlendPlot

theorem errorOf_check_congr (slot : Slot) {names others : List String} {text : String}
    (h : ∀ name ∈ parameterNames [text], (name ∈ names ↔ name ∈ others)) :
    errorOf (slot.check names text) = errorOf (slot.check others text) := by
  rw [errorOf_check, errorOf_check]
  cases hp : Expr.parse text with
  | error e => rfl
  | ok tree =>
    have hknown : tree.Every (fun _ => True)
        (Expr.SameKnown ⟨names, slot != .blend⟩ ⟨others, slot != .blend⟩) := by
      refine (names_of_parse hp).weaken (fun _ _ => trivial) fun id hrun hfree => ?_
      exact h id (mem_parameterNames.mpr ⟨hfree, text, List.mem_singleton_self text, hrun⟩)
    have herrors : tree.errors ⟨names, slot != .blend⟩ = tree.errors ⟨others, slot != .blend⟩ :=
      Expr.errors_congr hknown rfl
    simp only [herrors]

/-- What is wrong with a text for itself. -/
def Slot.ownError? (slot : Slot) (text : String) : Option SlotError :=
  errorOf (slot.check (parameterNames [text]) text)

theorem errorOf_check_of_subset (slot : Slot) {names : List String} {text : String}
    (h : parameterNames [text] ⊆ names) :
    errorOf (slot.check names text) = slot.ownError? text :=
  errorOf_check_congr slot fun _ hname => iff_of_true (h hname) hname

theorem find?_filterMap_slot {found : Slot → Option SlotError}
    (h : ∀ slot e, found slot = some e → e.slot = slot) (slots : List Slot) (slot : Slot) :
    (slots.filterMap found).find? (fun e => e.slot = slot) =
      if slot ∈ slots then found slot else none := by
  induction slots with
  | nil => rfl
  | cons other others ih =>
    cases hf : found other with
    | none =>
      rw [List.filterMap_cons_none hf, ih]
      by_cases heq : slot = other
      · simp [heq, hf]
      · simp [heq]
    | some e =>
      have hslot := h other e hf
      rw [List.filterMap_cons_some hf]
      by_cases heq : slot = other
      · simp [heq, hslot, hf]
      · rw [List.find?_cons_of_neg (by simpa [hslot] using Ne.symm heq), ih]
        simp [heq]

theorem Sources.find?_errors (s : Sources) {names : List String}
    (h : parameterNames s.texts ⊆ names) (slot : Slot) :
    (s.errors names).find? (fun e => e.slot = slot) = slot.ownError? (s.get slot) := by
  have hslots (slot : Slot) (e : SlotError)
      (he : errorOf (slot.check names (s.get slot)) = some e) : e.slot = slot :=
    Slot.slot_of_check (errorOf_eq_some_iff.mp he)
  have hall : slot ∈ Slot.all := by cases slot <;> decide
  have hown : parameterNames [s.get slot] ⊆ names :=
    List.Subset.trans (parameterNames_subset (s.get_mem_texts slot)) h
  rw [errors_eq, find?_filterMap_slot hslots, if_pos hall, errorOf_check_of_subset slot hown]

namespace Session

variable {σ : Type} [Storage σ]

theorem Reachable.errorFor {s : Session σ} (h : s.Reachable) (slot : Slot) :
    s.view.errorFor slot = slot.ownError? (s.state.sources.get slot) := by
  rw [View.errorFor, h.describes.errors]
  exact s.state.sources.find?_errors (List.Subset.refl _) slot

theorem state_step (s : Session σ) (t : Step) :
    (s.step t).value.state =
      match t with
      | .edit e => s.state.apply e
      | _ => s.state := by
  cases t with
  | edit e => exact congrArg Session.state (s.value_edit e)
  | configure settings => rfl
  | refresh => rfl

theorem settings_edit (s : Session σ) (e : Edit) :
    (s.step (.edit e)).value.settings = s.settings := by
  rw [step, value_edit]
  rfl

theorem text_step (s : Session σ) {t : Step} {slot : Slot}
    (h : ∀ text, t ≠ .edit (.text slot text)) :
    (s.step t).value.state.sources.get slot = s.state.sources.get slot := by
  rw [state_step]
  match t with
  | .edit (.text other text) =>
    have hne : slot ≠ other := fun heq => h text (heq ▸ rfl)
    exact (Sources.get_set ..).trans (if_neg hne)
  | .edit (.parameter name value) => rfl
  | .configure settings => rfl
  | .refresh => rfl

/-- The error that is shown for a slot depends on its text alone. -/
theorem errorFor_eq_of_text_eq {σ τ : Type} [Storage σ] [Storage τ] {s : Session σ} {t : Session τ}
    (hs : s.Reachable) (ht : t.Reachable) (slot : Slot) :
    (s.state.sources.get slot = t.state.sources.get slot →
      s.view.errorFor slot = t.view.errorFor slot) ∧
    ∀ u : Step, (∀ text, u ≠ .edit (.text slot text)) →
      (s.step u).value.view.errorFor slot = s.view.errorFor slot := by
  constructor
  · intro h
    rw [hs.errorFor, ht.errorFor, h]
  · intro u hu
    rw [(hs.step u).errorFor, hs.errorFor, text_step s hu]

theorem errorFor_eq_of_unknown_function :
    let text := "k + tan(x)"
    let s := ((start (⟨some "not JSON"⟩ : Memory) {}).value.run
      [.edit (.text .second "(b"), .edit (.text .first text)]).value
    let t := ((start PathEntry.directory { steps := 0 }).value.run
      [.edit (.text .first text), .edit (.parameter "k" (0 / 0))]).value
    s.state.sources.get .first = t.state.sources.get .first ∧
      s.view.errorFor .first = t.view.errorFor .first ∧
      s.view.errorFor .first = some ⟨.first, .bind (.unknownFunction "tan")⟩ ∧
      (s.step (.edit (.text .second "b"))).value.view.errorFor .first = s.view.errorFor .first := by
  intro text s t
  have hs : s.Reachable := Reachable.run (.start _ _) _
  have ht : t.Reachable := Reachable.run (.start _ _) _
  have htext : s.state.sources.get .first = t.state.sources.get .first := by decide +kernel
  have hboth := errorFor_eq_of_text_eq hs ht .first
  have herror : s.view.errorFor .first = some ⟨.first, .bind (.unknownFunction "tan")⟩ := by
    decide +kernel
  exact ⟨htext, hboth.1 htext, herror, hboth.2 (.edit (.text .second "b")) nofun⟩

end Session

end BlendPlot
