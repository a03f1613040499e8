import BlendPlot.Proofs.Meaning
import BlendPlot.Proofs.NotFinite

namespace BlendPlot

open Double

/-- What is required of a weight that is made of `raw`. -/
structure IsWeightOf (raw w : Float) : Prop where
  undefined : w.isNaN ↔ raw.isNaN
  between : ¬raw.isNaN → 0 ≤ w ∧ w ≤ 1
  within : 0 ≤ raw → raw ≤ 1 → w = raw
  below : raw < 0 → w = 0
  above : 1 < raw → w = 1

theorem not_isNaN_zero : ¬(0 : Float).isNaN := by decide

theorem not_isNaN_one : ¬(1 : Float).isNaN := by decide

theorem extended_zero_le_one : extended 0 ≤ extended 1 :=
  (le_iff_extended not_isNaN_zero not_isNaN_one).mp (by decide)

theorem extended_greater {a b : Float} (ha : ¬a.isNaN) (hb : ¬b.isNaN) :
    ¬(greater a b).isNaN ∧ extended (greater a b) = max (extended a) (extended b) := by
  rw [greater]
  split
  next h => exact ⟨ha, (max_eq_left ((lt_iff_extended hb ha).mp h).le).symm⟩
  next h =>
    have hle := not_lt.mp fun hlt => h ((lt_iff_extended hb ha).mpr hlt)
    exact ⟨hb, (max_eq_right hle).symm⟩

theorem extended_lesser {a b : Float} (ha : ¬a.isNaN) (hb : ¬b.isNaN) :
    ¬(lesser a b).isNaN ∧ extended (lesser a b) = min (extended a) (extended b) := by
  rw [lesser]
  split
  next h => exact ⟨ha, (min_eq_left ((lt_iff_extended ha hb).mp h).le).symm⟩
  next h =>
    have hle := not_lt.mp fun hlt => h ((lt_iff_extended ha hb).mpr hlt)
    exact ⟨hb, (min_eq_right hle).symm⟩

theorem extended_clampWeight {v : Float} (h : ¬v.isNaN) :
    ¬(clampWeight v).isNaN ∧
      extended (clampWeight v) = min (extended 1) (max (extended 0) (extended v)) := by
  obtain ⟨hgreater, heq⟩ := extended_greater not_isNaN_zero h
  rw [clampWeight, if_neg h, ← heq]
  exact extended_lesser not_isNaN_one hgreater

theorem isWeightOf_clampWeight (v : Float) : IsWeightOf v (clampWeight v) where
  undefined := by
    refine ⟨fun h => by_contra fun hv => (extended_clampWeight hv).1 h, fun h => ?_⟩
    rwa [clampWeight, if_pos h]
  between hv := by
    obtain ⟨hw, heq⟩ := extended_clampWeight hv
    rw [le_iff_extended not_isNaN_zero hw, le_iff_extended hw not_isNaN_one, heq]
    exact ⟨le_min extended_zero_le_one (le_max_left _ _), min_le_left _ _⟩
  within hzero hone := by
    rw [clampWeight, if_neg (not_isNaN_of_le hone).1, greater, if_neg (not_lt_of_le hzero), lesser,
      if_neg (not_lt_of_le hone)]
  below h := by
    rw [clampWeight, if_neg (not_isNaN_of_lt h).1, greater, if_pos h, lesser, if_neg (by decide)]
  above h := by
    obtain ⟨hone, hv⟩ := not_isNaN_of_lt h
    have hzero : ¬v < 0 := by
      rw [lt_iff_extended hv not_isNaN_zero, not_lt]
      exact extended_zero_le_one.trans ((lt_iff_extended hone hv).mp h).le
    rw [clampWeight, if_neg hv, greater, if_neg hzero, lesser, if_pos h]

theorem clampWeight_mono {v w : Float} (h : v ≤ w) : clampWeight v ≤ clampWeight w := by
  obtain ⟨hv, hw⟩ := not_isNaN_of_le h
  obtain ⟨hcv, heqv⟩ := extended_clampWeight hv
  obtain ⟨hcw, heqw⟩ := extended_clampWeight hw
  rw [le_iff_extended hcv hcw, heqv, heqw]
  exact min_le_min_left _ (max_le_max_left _ ((le_iff_extended hv hw).mp h))

namespace Sources

variable {s : Sources} {names : List String} {env : Environment} {curve : Curve}

/-- The value of the blend before it is made a weight; a blank blend means zero. -/
def rawWeight? (s : Sources) (env : Environment) (x : Float) : Option Float :=
  if isBlank s.blend then some 0 else Place.read? ⟨x, none, env⟩ s.blend

theorem weight?_eq_map (s : Sources) (env : Environment) (x : Float) :
    s.weight? env x = (s.rawWeight? env x).map clampWeight := by
  rw [weight?, rawWeight?]
  split <;> rfl

theorem weightAt_eq_clampWeight (h : s.compile names env = .ok curve) (x : Float) :
    ∃ raw, s.rawWeight? env x = some raw ∧ curve.weightAt x = clampWeight raw := by
  have hweight := weight?_of_compile h x
  rw [weight?_eq_map] at hweight
  obtain ⟨raw, hraw, heq⟩ := Option.map_eq_some_iff.mp hweight
  exact ⟨raw, hraw, heq.symm⟩

/-- The weight is the blend clamped between zero and one, and grows with it. -/
theorem weightAt_in_range (h : s.compile names env = .ok curve) (x : Float) :
    ∃ raw, s.rawWeight? env x = some raw ∧ IsWeightOf raw (curve.weightAt x) ∧
      ∀ {t others elsewhere other}, Sources.compile t others elsewhere = .ok other →
        ∀ y larger, t.rawWeight? elsewhere y = some larger → raw ≤ larger →
          curve.weightAt x ≤ other.weightAt y := by
  obtain ⟨raw, hraw, heq⟩ := weightAt_eq_clampWeight h x
  refine ⟨raw, hraw, heq ▸ isWeightOf_clampWeight raw, ?_⟩
  intro t others elsewhere other hother y larger hlarger hle
  obtain ⟨_, hraw', heq'⟩ := weightAt_eq_clampWeight hother y
  obtain rfl := Option.some.inj (hraw'.symm.trans hlarger)
  rw [heq, heq']
  exact clampWeight_mono hle

theorem weightAt_of_infinite_slope :
    let s : Sources := ⟨"", "x", "k * x"⟩
    let env : Environment := Table.empty.insert "k" (1 / 0)
    ∃ curve, s.compile ["k"] env = .ok curve ∧ curve.weightAt (-2) = 0 ∧ curve.weightAt 2 = 1 ∧
      (curve.weightAt 0).isNaN ∧ curve.weightAt (-2) ≤ curve.weightAt 2 := by
  intro s env
  obtain ⟨curve, hc⟩ := s.compile_of_errors_eq_nil ["k"] env (by decide +kernel)
  obtain ⟨left, hleft, hatleft, hmono⟩ := weightAt_in_range hc (-2)
  obtain ⟨right, hright, hatright, -⟩ := weightAt_in_range hc 2
  obtain ⟨middle, hmiddle, hatmiddle, -⟩ := weightAt_in_range hc 0
  have hends : s.rawWeight? env (-2) = some (-1 / 0) ∧ s.rawWeight? env 2 = some (1 / 0) ∧
      s.rawWeight? env 0 = some (0 / 0) := by decide +kernel
  obtain rfl := Option.some.inj (hleft.symm.trans hends.1)
  obtain rfl := Option.some.inj (hright.symm.trans hends.2.1)
  obtain rfl := Option.some.inj (hmiddle.symm.trans hends.2.2)
  exact ⟨curve, hc, hatleft.below (by decide), hatright.above (by decide),
    hatmiddle.undefined.mpr (by decide), hmono hc 2 _ hright (by decide)⟩

end Sources

end BlendPlot
