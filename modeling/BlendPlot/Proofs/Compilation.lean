import BlendPlot.Curve

namespace BlendPlot

namespace Slot

variable {slot : Slot} {names : List String} {text : String}

theorem isBlank_of_check (h : slot.check names text = .ok none) : isBlank text = true := by
  unfold check at h
  split at h
  next hblank => exact hblank
  next =>
    split at h
    next => cases h
    next => split at h <;> cases h

theorem exists_part_of_check {part? : Option Part} (h : slot.check names text = .ok part?)
    (htext : isBlank text = false) : ∃ part, part? = some part := by
  cases part? with
  | none => exact absurd (isBlank_of_check h) (by simp [htext])
  | some part => exact ⟨part, rfl⟩

theorem parse_of_check {part : Part} (h : slot.check names text = .ok (some part)) :
    isBlank text = false ∧ Expr.parse text = .ok part.expr ∧
      part.expr.bind ⟨names, slot != .blend⟩ = .ok part.formula := by
  unfold check at h
  split at h
  next => cases h
  next hblank =>
    split at h
    next => cases h
    next tree hparse =>
      split at h
      next => cases h
      next formula hbind =>
        cases h
        exact ⟨by simpa using hblank, hparse, hbind⟩

theorem slot_of_check {e : SlotError} (h : slot.check names text = .error e) : e.slot = slot := by
  unfold check at h
  split at h
  next => cases h
  next =>
    split at h
    next => cases h; rfl
    next =>
      split at h
      next => cases h; rfl
      next => cases h

end Slot

theorem Environment.values_parameters (env : Environment) (names : List String) :
    (Environment.parameters env names).map (·.value) = names.map (Environment.get env) := by
  rw [Environment.parameters, List.map_map]
  rfl

namespace Sources

variable (s : Sources) (names : List String) (env : Environment)

/-- Compiling fails with the first error of the texts, and only then. -/
theorem head?_errors :
    (s.errors names).head? =
      match s.compile names env with
      | .error e => some e
      | .ok _ => none := by
  unfold errors compile Slot.all
  cases hf : Slot.first.check names s.first with
  | error e => simp [get, hf, bind, Except.bind]
  | ok first =>
    cases hs : Slot.second.check names s.second with
    | error e => simp [get, hf, hs, bind, Except.bind]
    | ok second =>
      cases hb : Slot.blend.check names s.blend with
      | error e => simp [get, hf, hs, hb, bind, Except.bind]
      | ok blend => simp [get, hf, hs, hb, bind, Except.bind, pure, Except.pure]

theorem compile_of_errors_eq_nil (h : s.errors names = []) :
    ∃ curve, s.compile names env = .ok curve := by
  have hh := s.head?_errors names env
  rw [h] at hh
  cases hc : s.compile names env with
  | ok curve => exact ⟨curve, rfl⟩
  | error e => rw [hc] at hh; cases hh

theorem errors_eq_nil_of_compile {curve : Curve} (h : s.compile names env = .ok curve) :
    s.errors names = [] := by
  have hh := s.head?_errors names env
  rw [h] at hh
  exact List.head?_eq_none_iff.mp hh

theorem get_mem_texts (slot : Slot) : s.get slot ∈ s.texts :=
  List.mem_map_of_mem (by cases slot <;> decide)

theorem errors_eq :
    s.errors names = Slot.all.filterMap fun slot => errorOf (slot.check names (s.get slot)) := by
  unfold errors
  congr 1
  funext slot
  cases slot.check names (s.get slot) <;> rfl

variable {s names env}

theorem exists_check_of_mem_errors {e : SlotError} (h : e ∈ s.errors names) :
    ∃ slot : Slot, slot.check names (s.get slot) = .error e := by
  rw [errors_eq] at h
  obtain ⟨slot, -, he⟩ := List.mem_filterMap.mp h
  exact ⟨slot, errorOf_eq_some_iff.mp he⟩

theorem mem_errors_of_compile {e : SlotError} (h : s.compile names env = .error e) :
    e ∈ s.errors names := by
  have hhead := s.head?_errors names env
  rw [h] at hhead
  exact List.mem_of_head? hhead

theorem compile_eq_ok {curve : Curve} (h : s.compile names env = .ok curve) :
    ∃ blend, Slot.first.check names s.first = .ok curve.first ∧
      Slot.second.check names s.second = .ok curve.second ∧
      Slot.blend.check names s.blend = .ok blend ∧
      curve.weight = .ofBlend curve.values blend ∧
      curve.values = names.map (Environment.get env) := by
  obtain ⟨first, hfirst, h⟩ := bind_eq_ok.mp h
  obtain ⟨second, hsecond, h⟩ := bind_eq_ok.mp h
  obtain ⟨blend, hblend, h⟩ := bind_eq_ok.mp h
  cases h
  exact ⟨blend, hfirst, hsecond, hblend, rfl, Environment.values_parameters env names⟩

end Sources

end BlendPlot
