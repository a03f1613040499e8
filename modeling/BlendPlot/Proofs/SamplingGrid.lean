import BlendPlot.Proofs.NotFinite
import BlendPlot.Proofs.Samples

namespace BlendPlot

open Double

theorem isLength_iff (x : Float) : isLength x ↔ x.isFinite ∧ 0 < value x := by
  rw [isLength, Bool.and_eq_true, decide_eq_true_iff]
  refine and_congr_right fun hx => ?_
  rw [GT.gt, lt_iff isFinite_zero hx, value_zero]

namespace Settings

variable {s : Settings}

theorem error?_eq_none_iff (s : Settings) : s.error? = none ↔
    s.steps ≠ 0 ∧ (isLength s.width ∧ isLength s.height) ∧ s.minX.isFinite ∧ s.maxX.isFinite := by
  rw [error?]
  grind

theorem natCast_lt_overflow {n : Nat} (h : n < 2 ^ 64) : |(n : ℚ)| < overflow := by
  have hn : (n : ℚ) < 2 ^ (64 : Int) := by exact_mod_cast h
  have hpow : (2 : ℚ) ^ (64 : Int) ≤ 2 ^ (971 : Int) := zpow_le_zpow_right₀ one_le_two (by decide)
  rw [abs_of_nonneg (Nat.cast_nonneg n)]
  calc (n : ℚ) < 1 * 2 ^ (971 : Int) := by rw [one_mul]; exact hn.trans_le hpow
    _ ≤ overflow := mul_le_mul_of_nonneg_right (by norm_num) (by positivity)

theorem fraction_parts {step : Nat} (h : s.steps ≠ 0) (hle : step ≤ s.steps.toNat) :
    (Float.ofNat step).isFinite ∧ s.steps.toFloat.isFinite ∧ 0 ≤ value (Float.ofNat step) ∧
      value (Float.ofNat step) ≤ value s.steps.toFloat ∧ 0 < value s.steps.toFloat := by
  have hlt := s.steps.toNat_lt
  have hpos : s.steps.toNat ≠ 0 := by
    rw [← UInt64.toNat_zero]
    exact UInt64.toNat_inj.not.mpr h
  have hstep := rounds_ofNat step
  have hsteps := rounds_toFloat s.steps
  have hf := hstep.isFinite_iff.mpr (natCast_lt_overflow (by omega))
  have hg := hsteps.isFinite_iff.mpr (natCast_lt_overflow hlt)
  have hone : (1 : ℚ) ≤ s.steps.toNat := by exact_mod_cast Nat.one_le_iff_ne_zero.mpr hpos
  have hless : value 0 ≤ value (Float.ofNat step) :=
    (rounds_value isFinite_zero).mono hstep isFinite_zero hf (by simp [value_zero])
  have hmore : value 1 ≤ value s.steps.toFloat :=
    (rounds_value isFinite_one).mono hsteps isFinite_one hg (by rwa [value_one])
  rw [value_zero] at hless
  rw [value_one] at hmore
  exact ⟨hf, hg, hless, hstep.mono hsteps hf hg (by exact_mod_cast hle), one_pos.trans_le hmore⟩

theorem fraction_between {step : Nat} (h : s.steps ≠ 0) (hle : step ≤ s.steps.toNat) :
    (s.fraction step).isFinite ∧ 0 ≤ value (s.fraction step) ∧ value (s.fraction step) ≤ 1 := by
  obtain ⟨hf, hg, hnonneg, hless, hpos⟩ := fraction_parts h hle
  have hbetween := (rounds_div hf hg hpos.ne').between isFinite_zero isFinite_one
  rw [value_zero, value_one] at hbetween
  exact hbetween (div_nonneg hnonneg hpos.le) ((div_le_one hpos).mpr hless)

theorem fraction_last (h : s.steps ≠ 0) :
    (s.fraction s.steps.toNat).isFinite ∧ value (s.fraction s.steps.toNat) = 1 := by
  obtain ⟨hf, hg, -, hless, hpos⟩ := fraction_parts h le_rfl
  have hsame : value (Float.ofNat s.steps.toNat) = value s.steps.toFloat :=
    le_antisymm hless ((rounds_toFloat s.steps).mono (rounds_ofNat _) hg hf le_rfl)
  have hquot := rounds_div hf hg hpos.ne'
  rw [hsame, div_self hpos.ne', ← value_one] at hquot
  obtain ⟨hfinite, hvalue⟩ := hquot.value_eq isFinite_one
  exact ⟨hfinite, hvalue.trans value_one⟩

theorem isFinite_argument (h : s.error? = none)
    (hlast : (s.minX + (s.maxX - s.minX)).isFinite) {step : Nat} (hle : step ≤ s.steps.toNat) :
    (s.argument step).isFinite ∧ value (s.argument step) ∈
      Set.uIcc (value s.minX) (value (s.minX + (s.maxX - s.minX))) := by
  obtain ⟨hsteps, -, hmin, -⟩ := s.error?_eq_none_iff.mp h
  obtain ⟨-, hd⟩ := isFinite_of_add hlast
  obtain ⟨hp, hnonneg, hone⟩ := fraction_between hsteps hle
  obtain ⟨hscaled, hmem⟩ := (rounds_mul hd hp).scaled hd hnonneg hone
  have hend := rounds_add hmin hd
  have hsum := rounds_add hmin hscaled
  have hfirst := rounds_value hmin
  rcases le_total 0 (value (s.maxX - s.minX)) with hd' | hd'
  · rw [Set.uIcc_of_le hd'] at hmem
    have hbetween := hsum.squeeze hfirst hend hmin hlast (by linarith [hmem.1])
      (by linarith [hmem.2])
    exact ⟨hbetween.1, Set.Icc_subset_uIcc hbetween.2⟩
  · rw [Set.uIcc_of_ge hd'] at hmem
    have hbetween := hsum.squeeze hend hfirst hlast hmin (by linarith [hmem.1])
      (by linarith [hmem.2])
    exact ⟨hbetween.1, Set.Icc_subset_uIcc' hbetween.2⟩

theorem isFinite_last (h : s.error? = none) :
    (s.argument s.steps.toNat).isFinite ↔ (s.minX + (s.maxX - s.minX)).isFinite := by
  obtain ⟨hsteps, -, hmin, -⟩ := s.error?_eq_none_iff.mp h
  refine ⟨fun hlast => ?_, fun hlast => (isFinite_argument h hlast le_rfl).1⟩
  obtain ⟨-, hscaled⟩ := isFinite_of_add hlast
  obtain ⟨hd, hp⟩ := isFinite_of_mul hscaled
  have hmul := rounds_mul hd hp
  rw [(fraction_last hsteps).2, mul_one] at hmul
  have hsum := rounds_add hmin hscaled
  rw [(hmul.value_eq hd).2] at hsum
  exact (rounds_add hmin hd).isFinite_iff.mpr (hsum.isFinite_iff.mp hlast)

theorem isFinite_last_of_bounds (h : s.error? = none)
    (hbounds : |value s.minX| + |value s.maxX| < overflow) :
    (s.minX + (s.maxX - s.minX)).isFinite := by
  obtain ⟨-, -, hmin, hmax⟩ := s.error?_eq_none_iff.mp h
  have hsub := rounds_sub hmax hmin
  have habs : |value s.maxX - value s.minX| ≤ |value s.maxX| + |value s.minX| := abs_sub _ _
  have hd : (s.maxX - s.minX).isFinite := hsub.isFinite_iff.mpr (by linarith)
  have hwidth := abs_lt.mp (abs_value_lt hd)
  obtain ⟨hminLe, hleMin⟩ := abs_le.mp (le_refl |value s.minX|)
  obtain ⟨hmaxLe, hleMax⟩ := abs_le.mp (le_refl |value s.maxX|)
  refine (rounds_add hmin hd).isFinite_iff.mpr (abs_lt.mpr ?_)
  -- The rounded width is at most the last bound if the first one has no sign, else at least that.
  rcases le_total 0 (value s.minX) with hpos | hneg
  · have hle := hsub.mono (rounds_value hmax) hd hmax (by linarith)
    constructor <;> linarith
  · have hge := (rounds_value hmax).mono hsub hmax hd (by linarith)
    constructor <;> linarith

theorem length_points_eq_iff (curve : Float → Float) (last : Nat) :
    (((List.range (last + 1)).map (s.sampleAt curve)).filterMap Sample.point?).length = last + 1 ↔
      ∀ step ≤ last, (curve (s.argument step)).isFinite := by
  rw [points_map_sampleAt, List.length_map]
  have hall := List.length_filter_eq_length_iff (l := List.range (last + 1))
    (p := fun step => (curve (s.argument step)).isFinite)
  rw [List.length_range] at hall
  rw [hall]
  simp only [List.mem_range, Nat.lt_succ_iff]

/-- All arguments are finite exactly if the last one is, as it is computed from the domain. -/
theorem arguments_of_valid (h : s.error? = none) :
    let last := s.minX + (s.maxX - s.minX)
    ((∀ step ≤ s.steps.toNat, (s.argument step).isFinite) ↔ last.isFinite) ∧
      (s.Fits → ((∀ curve : Float → Float, (∀ x : Float, x.isFinite → (curve x).isFinite) →
        ∃ samples, s.sample curve = .ok samples ∧
          (samples.filterMap Sample.point?).length = s.steps.toNat + 1) ↔ last.isFinite)) ∧
      (last.isFinite → ∀ step ≤ s.steps.toNat,
        value (s.argument step) ∈ Set.uIcc (value s.minX) (value last)) ∧
      (|value s.minX| + |value s.maxX| < overflow → last.isFinite) := by
  intro last
  have hlast := isFinite_last h
  refine ⟨⟨fun hall => hlast.mp (hall _ le_rfl), fun hfinite step hle => ?arguments⟩,
    fun hfits => ⟨fun hcurve => ?last, fun hfinite curve hc => ?kept⟩,
    fun hfinite step hle => ?between, isFinite_last_of_bounds h⟩
  case arguments => exact (isFinite_argument h hfinite hle).1
  case between => exact (isFinite_argument h hfinite hle).2
  case last =>
    -- the curve that gives back its argument is finite just where the arguments are
    obtain ⟨samples, hsample, hlength⟩ := hcurve id fun _ hx => hx
    obtain rfl := Except.ok.inj ((sample_of_fits h hfits id).symm.trans hsample)
    exact hlast.mp ((length_points_eq_iff id _).mp hlength _ le_rfl)
  case kept =>
    refine ⟨_, sample_of_fits h hfits curve, (length_points_eq_iff curve _).mpr fun step hle => ?_⟩
    exact hc _ (isFinite_argument h hfinite hle).1

/-- The bounds may come in any order, and there may be as many steps as have room. -/
theorem arguments_of_valid_of_descending_domain :
    let s : Settings := { minX := 1e308, maxX := -5e307, steps := 576460752303423486 }
    s.error? = none ∧ s.Fits ∧ (∀ step ≤ s.steps.toNat, (s.argument step).isFinite) ∧
      ∀ curve : Float → Float, (∀ x : Float, x.isFinite → (curve x).isFinite) →
        ∃ samples, s.sample curve = .ok samples ∧
          (samples.filterMap Sample.point?).length = s.steps.toNat + 1 := by
  intro s
  have h : s.error? = none := by decide +kernel
  have hfits : s.Fits := by decide +kernel
  have hlast : (s.minX + (s.maxX - s.minX)).isFinite := by decide +kernel
  obtain ⟨hall, hkept, -⟩ := arguments_of_valid h
  exact ⟨h, hfits, hall.mpr hlast, (hkept hfits).mpr hlast⟩

/-- The width of a domain with finite bounds may be infinite, and no argument is finite then. -/
theorem infinite_arguments_of_far_bounds :
    let s : Settings := { minX := -1e308, maxX := 1e308, steps := 2 }
    s.error? = none ∧ (∀ step ≤ s.steps.toNat, ¬(s.argument step).isFinite) ∧
      (s.sample fun x => 0 * x + 1).toOption.map (·.filterMap Sample.point?) = some [] := by
  decide +kernel

end Settings

end BlendPlot
