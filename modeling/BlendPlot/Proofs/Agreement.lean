import BlendPlot.Proofs.View

namespace BlendPlot

theorem slots_filterMap {found : Slot → Option SlotError}
    (h : ∀ slot e, found slot = some e → e.slot = slot) (slots : List Slot) :
    (slots.filterMap found).map (·.slot) = slots.filter fun slot => (found slot).isSome := by
  induction slots with
  | nil => rfl
  | cons slot slots ih =>
    cases hf : found slot with
    | none =>
      rw [List.filterMap_cons_none hf, List.filter_cons_of_neg (by simp [hf]), ih]
    | some e =>
      have hslot := h slot e hf
      rw [List.filterMap_cons_some hf, List.filter_cons_of_pos (by simp [hf]), List.map_cons, ih,
        hslot]

namespace Sources

variable {s : Sources} {names : List String} {env : Environment}

theorem slots_errors (s : Sources) (names : List String) :
    (s.errors names).map (·.slot) =
      Slot.all.filter fun slot => (errorOf (slot.check names (s.get slot))).isSome := by
  have hslots (slot : Slot) (e : SlotError)
      (he : errorOf (slot.check names (s.get slot)) = some e) : e.slot = slot :=
    Slot.slot_of_check (errorOf_eq_some_iff.mp he)
  rw [errors_eq, slots_filterMap hslots]

theorem mem_errors_iff {e : SlotError} :
    e ∈ s.errors names ↔ e.slot.check names (s.get e.slot) = .error e := by
  constructor
  · intro h
    obtain ⟨slot, hcheck⟩ := exists_check_of_mem_errors h
    obtain rfl := Slot.slot_of_check hcheck
    exact hcheck
  · intro h
    have hall : e.slot ∈ Slot.all := by cases e.slot <;> decide
    rw [errors_eq]
    exact List.mem_filterMap.mpr ⟨e.slot, hall, errorOf_eq_some_iff.mpr h⟩

theorem compile_eq_error_iff {e : SlotError} :
    s.compile names env = .error e ↔ (s.errors names).head? = some e := by
  rw [head?_errors s names env]
  cases s.compile names env <;> simp

theorem exists_compile_iff : (∃ curve, s.compile names env = .ok curve) ↔ s.errors names = [] := by
  constructor
  · rintro ⟨curve, h⟩
    exact errors_eq_nil_of_compile s names env h
  · intro h
    exact compile_of_errors_eq_nil s names env h

/-- Compiling agrees with checking: it fails with the first error that checking finds, if any. -/
theorem compile_agrees_with_errors (s : Sources) (names : List String) (env : Environment) :
    ((s.errors names).map (·.slot)).Sublist [.first, .second, .blend] ∧
      (∀ e, e ∈ s.errors names ↔ e.slot.check names (s.get e.slot) = .error e) ∧
      ((∃ curve, s.compile names env = .ok curve) ↔ s.errors names = []) ∧
      (∀ e, s.compile names env = .error e ↔ (s.errors names).head? = some e) ∧
      ∀ (settings : Settings) (old : View), s.errors (parameterNames s.texts) = [] →
        ∃ curve, s.compile (parameterNames s.texts) env = .ok curve ∧
          View.refresh ⟨s, env⟩ settings old =
            View.draw ⟨Environment.parameters env (parameterNames s.texts), old.plot, [],
              settings.error?⟩ settings curve := by
  refine ⟨?_, fun e => mem_errors_iff, exists_compile_iff, fun e => compile_eq_error_iff, ?_⟩
  · rw [slots_errors]
    exact List.filter_sublist
  · intro settings old h
    let state : State := ⟨s, env⟩
    have herrors : state.sources.errors state.names = [] := h
    obtain ⟨curve, hcompile, hrefresh⟩ := View.refresh_of_errors_eq_nil herrors settings old
    rw [View.undrawn, herrors] at hrefresh
    exact ⟨curve, hcompile, hrefresh⟩

/-- Over a list that has lost the name `k` two slots fail. -/
theorem compile_agrees_with_errors_of_stale_names :
    let s : Sources := ⟨"k * x", " ", "k"⟩
    let unknown (slot : Slot) : SlotError := ⟨slot, .bind (.unknownName "k")⟩
    s.errors ["m"] = [unknown .first, unknown .blend] ∧
      s.compile ["m"] Table.empty = .error (unknown .first) ∧
      s.errors (parameterNames s.texts) = [] ∧
      ∃ curve, s.compile (parameterNames s.texts) Table.empty = .ok curve ∧
        View.refresh ⟨s, Table.empty⟩ {} {} =
          View.draw ⟨[⟨"k", 0⟩], none, [], none⟩ {} curve := by
  intro s unknown
  have hstale : s.errors ["m"] = [unknown .first, unknown .blend] := by decide +kernel
  have hnil : s.errors (parameterNames s.texts) = [] := by decide +kernel
  have hfirst := (compile_agrees_with_errors s ["m"] Table.empty).2.2.2.1 (unknown .first)
  have hview := (compile_agrees_with_errors s ["m"] Table.empty).2.2.2.2 {} {} hnil
  have hnames : parameterNames s.texts = ["k"] := by decide +kernel
  have hsettings : Settings.error? {} = none := by decide +kernel
  refine ⟨hstale, hfirst.mpr (by rw [hstale]; rfl), hnil, ?_⟩
  rw [hnames, hsettings] at hview
  rw [hnames]
  exact hview

end Sources

end BlendPlot
