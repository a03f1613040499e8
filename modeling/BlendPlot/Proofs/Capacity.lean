import BlendPlot.Polyline
import Mathlib.Algebra.Group.Nat.Defs

namespace BlendPlot.Settings

def mostSteps : UInt64 := 18446744073709551615

theorem toNat_mostSteps : mostSteps.toNat + 1 = UInt64.size := by decide

theorem count?_eq_none_iff (s : Settings) : s.count? = none ↔ s.steps = mostSteps := by
  have hlt : s.steps.toNat < UInt64.size := s.steps.toNat_lt
  have hmost := toNat_mostSteps
  rw [count?, ← UInt64.toNat_inj]
  split
  next h => exact ⟨nofun, fun heq => by omega⟩
  next h => exact ⟨fun _ => by omega, fun _ => rfl⟩

theorem toNat_of_count? {s : Settings} {count : UInt64} (h : s.count? = some count) :
    count.toNat = s.steps.toNat + 1 := by
  unfold count? at h
  split at h
  next hlt =>
    cases h
    rw [UInt64.toNat_add]
    exact Nat.mod_eq_of_lt hlt
  next => cases h

theorem fits_iff (s : Settings) : s.Fits ↔ s.steps.toNat + 1 < 2 ^ 59 := by
  rw [Fits, Point.size, maxBytes]
  omega

theorem Fits.exists_count {s : Settings} (h : s.Fits) : ∃ count, s.count? = some count := by
  have hsize : 2 ^ 59 < UInt64.size := by decide
  exact ⟨_, if_pos (Nat.lt_trans (s.fits_iff.mp h) hsize)⟩

/-- The overflow at which the program stops. -/
def overflowFault (s : Settings) : SamplingFault :=
  if s.steps = mostSteps then .countOverflow else .capacityOverflow

section

variable {s : Settings}

theorem capacity_of_error? {e : SettingsError} (h : s.error? = some e) :
    s.capacity = .error (.refused e) := by
  rw [capacity, h]

theorem capacity_of_fits (h : s.error? = none) (hfits : s.Fits) :
    s.capacity = .ok (s.steps.toNat + 1) := by
  obtain ⟨count, hcount⟩ := hfits.exists_count
  have htoNat := toNat_of_count? hcount
  rw [capacity, h, hcount]
  dsimp only
  rw [htoNat]
  exact if_pos hfits

theorem capacity_of_not_fits (h : s.error? = none) (hfits : ¬s.Fits) :
    s.capacity = .error s.overflowFault := by
  rw [capacity, h, overflowFault]
  cases hcount : s.count? with
  | none =>
    have hmost := s.count?_eq_none_iff.mp hcount
    rw [if_pos hmost]
  | some count =>
    have hmost : s.steps ≠ mostSteps := fun hmost => by
      rw [s.count?_eq_none_iff.mpr hmost] at hcount
      cases hcount
    dsimp only
    rw [toNat_of_count? hcount, if_neg hmost]
    exact if_neg hfits

theorem sample_of_error? {e : SettingsError} (h : s.error? = some e) (curve : Float → Float) :
    s.sample curve = .error (.refused e) := by
  rw [sample, capacity_of_error? h]

theorem sample_of_fits (h : s.error? = none) (hfits : s.Fits) (curve : Float → Float) :
    s.sample curve = .ok ((List.range (s.steps.toNat + 1)).map (s.sampleAt curve)) := by
  rw [sample, capacity_of_fits h hfits]

theorem sample_of_not_fits (h : s.error? = none) (hfits : ¬s.Fits) (curve : Float → Float) :
    s.sample curve = .error s.overflowFault := by
  rw [sample, capacity_of_not_fits h hfits]

theorem sample_eq_overflow_iff (curve : Float → Float) :
    s.sample curve = .error s.overflowFault ↔ s.error? = none ∧ ¬s.Fits := by
  constructor
  · intro hsample
    cases h : s.error? with
    | some e =>
      rw [sample_of_error? h, overflowFault] at hsample
      split at hsample <;> cases hsample
    | none =>
      refine ⟨rfl, fun hfits => ?_⟩
      rw [sample_of_fits h hfits] at hsample
      cases hsample
  · rintro ⟨h, hfits⟩
    exact sample_of_not_fits h hfits curve

end

end BlendPlot.Settings
