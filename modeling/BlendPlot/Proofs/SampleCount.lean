import BlendPlot.Proofs.LogLines
import BlendPlot.Proofs.SettingsText

namespace BlendPlot

namespace Settings

theorem error?_steps {s : Settings} (h : s.error? = none) {steps : UInt64} (hsteps : steps ≠ 0) :
    { s with steps := steps }.error? = none := by
  obtain ⟨-, hrest⟩ := s.error?_eq_none_iff.mp h
  exact (error?_eq_none_iff _).mpr ⟨hsteps, hrest⟩

theorem allFinite_of_error? {s : Settings} (h : s.error? = none) : s.AllFinite := by
  obtain ⟨-, ⟨hwidth, hheight⟩, hminX, hmaxX⟩ := s.error?_eq_none_iff.mp h
  exact ⟨hminX, hmaxX, ((isLength_iff _).mp hwidth).1, ((isLength_iff _).mp hheight).1⟩

end Settings

namespace View

theorem samples_of_plotDrawn {state : State} {settings : Settings} {old : View}
    {parameters points samples : Nat}
    (h : .plotDrawn parameters points samples ∈ (refresh state settings old).events) :
    samples = settings.steps.toNat + 1 := by
  by_cases herrors : state.sources.errors state.names = []
  · obtain ⟨curve, -, hrefresh⟩ := refresh_of_errors_eq_nil herrors settings old
    rw [hrefresh] at h
    cases he : settings.error? with
    | some e =>
      rw [draw_of_error? he] at h
      cases List.mem_singleton.mp h
    | none =>
      by_cases hfits : settings.Fits
      · rw [draw_of_fits he hfits] at h
        rcases List.mem_append.mp h with hlost | hdrawn
        · obtain ⟨sample, -, hsample⟩ := List.mem_filterMap.mp hlost
          cases sample <;> cases hsample
        · cases List.mem_singleton.mp hdrawn
          rfl
      · rw [draw_of_not_fits he hfits] at h
        cases h
  · rw [refresh_of_errors_ne_nil herrors] at h
    obtain ⟨e, -, he⟩ := List.mem_map.mp h
    cases he

end View

namespace Settings

/-- Accepted settings have a number of samples with 64 bits, unless they have the most steps. -/
theorem count_of_valid (s : Settings) (h : s.error? = none) :
    (s.count? = none ↔ s.steps = mostSteps) ∧
    (∀ count, s.count? = some count →
      (s.Fits → ∀ curve, ∃ samples,
        s.sample curve = .ok samples ∧ samples.length = count.toNat) ∧
      ∀ state old parameters points samples,
        .plotDrawn parameters points samples ∈ (View.refresh state s old).events →
        samples = count.toNat) ∧
    let most := { s with steps := mostSteps }
    ofJson? most.toJson.write = some most ∧ most.error? = none ∧ most.count? = none := by
  have hmost := error?_steps h (show mostSteps ≠ 0 by decide)
  refine ⟨s.count?_eq_none_iff, fun count hcount => ⟨fun hfits curve => ?_, ?_⟩, ?_, hmost, ?_⟩
  · refine ⟨_, sample_of_fits h hfits curve, ?_⟩
    rw [List.length_map, List.length_range, toNat_of_count? hcount]
  · intro state old parameters points samples hdrawn
    rw [toNat_of_count? hcount, View.samples_of_plotDrawn hdrawn]
  · rw [ofJson?_write_toJson, if_pos (allFinite_of_error? hmost)]
  · exact (count?_eq_none_iff _).mpr rfl

theorem count_of_valid_of_full_buffer :
    let s : Settings := { steps := 576460752303423486 }
    s.error? = none ∧ s.count? = some 576460752303423487 ∧ s.Fits ∧
      ∀ curve, ∃ samples, s.sample curve = .ok samples ∧ samples.length = 576460752303423487 := by
  intro s
  have hvalid : s.error? = none := by decide +kernel
  have hcount : s.count? = some 576460752303423487 := by decide +kernel
  have hfits : s.Fits := by decide +kernel
  exact ⟨hvalid, hcount, hfits, ((count_of_valid s hvalid).2.1 _ hcount).1 hfits⟩

theorem uncounted_samples_of_most_steps :
    ∃ s, ofJson? "\x7b\"steps\":18446744073709551615\x7d" = some s ∧ s.error? = none ∧
      s.count? = none :=
  ⟨{ steps := mostSteps }, by decide +kernel, by decide +kernel, by decide +kernel⟩

end Settings

end BlendPlot
