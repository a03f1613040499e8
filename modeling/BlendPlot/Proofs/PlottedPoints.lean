import BlendPlot.Polyline.Json
import BlendPlot.Proofs.Injectivity
import BlendPlot.Proofs.SamplingGrid

namespace BlendPlot

open Double

theorem isFinite_one_sub {y : Float} (hy : y.isFinite) : (1 - y).isFinite := by
  have hsub := rounds_sub isFinite_one hy
  rw [value_one] at hsub
  have hle := abs_value_le hy
  have hpow : (2 : ℚ) ^ (2 : Int) ≤ 2 ^ (971 : Int) := zpow_le_zpow_right₀ one_le_two (by decide)
  have habs : |1 - value y| ≤ |1| + |value y| := abs_sub _ _
  rw [abs_one] at habs
  refine hsub.isFinite_iff.mpr (habs.trans_lt ?_)
  rw [overflow]
  generalize (2 : ℚ) ^ (971 : Int) = unit at hle hpow ⊢
  linarith

namespace Settings

variable {s : Settings}

theorem x_pointAt (h : s.error? = none) (curve : Float → Float) {step : Nat}
    (hle : step ≤ s.steps.toNat) :
    (s.pointAt curve step).x.isFinite ∧ 0 ≤ (s.pointAt curve step).x ∧
      (s.pointAt curve step).x ≤ s.width := by
  obtain ⟨hsteps, ⟨hwidth, -⟩, -⟩ := s.error?_eq_none_iff.mp h
  obtain ⟨hw, hpos⟩ := (isLength_iff s.width).mp hwidth
  obtain ⟨hp, hnonneg, hone⟩ := fraction_between hsteps hle
  have hmul := rounds_mul hp hw
  rw [mul_comm] at hmul
  obtain ⟨hx, hmem⟩ := hmul.scaled hw hnonneg hone
  rw [Set.uIcc_of_le hpos.le] at hmem
  refine ⟨hx, (le_iff isFinite_zero hx).mpr ?_, (le_iff hx hw).mpr hmem.2⟩
  rw [value_zero]
  exact hmem.1

/-- The height of a point is a number, and it is finite unless it is too large for a double. -/
theorem y_pointAt (h : s.error? = none) {curve : Float → Float} {step : Nat}
    (hy : (curve (s.argument step)).isFinite) :
    ¬(s.pointAt curve step).y.isNaN ∧ ((s.pointAt curve step).y.isFinite ↔
      |value (1 - curve (s.argument step))| * value s.height < overflow) := by
  obtain ⟨-, ⟨-, hheight⟩, -⟩ := s.error?_eq_none_iff.mp h
  obtain ⟨hfinite, hpos⟩ := (isLength_iff s.height).mp hheight
  have hmul := rounds_mul (isFinite_one_sub hy) hfinite
  rw [← abs_of_pos hpos, ← abs_mul]
  exact ⟨hmul.not_isNaN, hmul.isFinite_iff⟩

theorem mem_points_iff (curve : Float → Float) (p : Point) :
    p ∈ ((List.range (s.steps.toNat + 1)).map (s.sampleAt curve)).filterMap Sample.point? ↔
      ∃ step ≤ s.steps.toNat, (curve (s.argument step)).isFinite ∧ s.pointAt curve step = p := by
  rw [points_map_sampleAt]
  simp only [List.mem_map, List.mem_filter, List.mem_range, Nat.lt_succ_iff, and_assoc]

end Settings

theorem mem_text_point {p : Point} (hx : p.x.isFinite) (hy : p.y.isFinite) {c : Char}
    (h : c ∈ p.text.toList) : c.isDigit ∨ c = '.' ∨ c = '-' ∨ c = ',' := by
  have number {x : Float} (hf : x.isFinite) (hc : c ∈ (Decimal.Layout.plain.text x).toList) :
      c.isDigit ∨ c = '.' ∨ c = '-' ∨ c = ',' :=
    (mem_plain_text hf hc).imp_right (Or.imp_right Or.inl)
  rw [Point.text, String.toList_append, String.toList_append, List.mem_append,
    List.mem_append] at h
  rcases h with (h | h) | h
  · exact number hx h
  · exact Or.inr (Or.inr (Or.inr (by simpa using h)))
  · exact number hy h

/-- The text of a polyline has no letters exactly if no point is infinitely high or low. -/
theorem isFinite_iff_polylineText {points : List Point}
    (h : ∀ p ∈ points, p.x.isFinite ∧ ¬p.y.isNaN) :
    (∀ p ∈ points, p.y.isFinite) ↔
      ∀ c ∈ (polylineText points).toList, c.isDigit ∨ c = '.' ∨ c = '-' ∨ c = ',' := by
  constructor
  · intro hfinite c hc
    rcases mem_intercalate hc with hc | ⟨part, hpart, hc⟩
    · exact Or.inr (Or.inr (Or.inr (by simpa using hc)))
    · obtain ⟨p, hp, rfl⟩ := List.mem_map.mp hpart
      exact mem_text_point (h p hp).1 (hfinite p hp) hc
  · intro htext p hp
    by_contra hy
    obtain ⟨s, hs⟩ := (not_finite_cases hy).resolve_left (h p hp).2
    have hletter : 'n' ∈ p.text.toList := by
      rw [Point.text, String.toList_append, List.mem_append, Decimal.text_of_infinity .plain hs]
      right
      cases s <;> decide
    have hwithin := infix_intercalate "," (List.mem_map_of_mem (f := Point.text) hp)
    exact absurd (htext 'n' (hwithin.subset hletter)) (by decide)

theorem write_toJson (p : Point) :
    p.toJson.write = "\x7b\"x\":" ++ (Json.real p.x).write ++ ",\"y\":" ++ (Json.real p.y).write ++
      "\x7d" := by
  have hmembers : p.toJson.write = "\x7b" ++ ",".intercalate [
      Json.quote "x" ++ ":" ++ (Json.real p.x).write,
      Json.quote "y" ++ ":" ++ (Json.real p.y).write] ++ "\x7d" := by
    rw [Point.toJson, Json.write]
    rfl
  have hx : Json.quote "x" = "\"x\"" := by decide
  have hy : Json.quote "y" = "\"y\"" := by decide
  rw [hmembers, String.intercalate_cons_cons, String.intercalate_singleton, hx, hy,
    ← String.toList_inj]
  simp

theorem n_not_mem_real {x : Float} (hx : x.isFinite) : 'n' ∉ (Json.real x).write.toList := by
  intro hc
  rw [Json.write, if_pos hx] at hc
  rcases mem_text_of_isFinite .data hx hc with h | h | h | ⟨-, h | h⟩ <;>
    exact absurd h (by decide)

theorem Json.writeAll_eq_map (items : List Json) : writeAll items = items.map write := by
  induction items with
  | nil => rfl
  | cons item items ih => rw [writeAll, ih, List.map_cons]

theorem write_pointsJson (points : List Point) : (pointsJson points).write =
    "[" ++ ",".intercalate (points.map fun p => p.toJson.write) ++ "]" := by
  rw [pointsJson, Json.write, Json.writeAll_eq_map, List.map_map]
  rfl

theorem isFinite_iff_write_pointsJson {points : List Point} (h : ∀ p ∈ points, p.x.isFinite) :
    (∀ p ∈ points, p.y.isFinite) ↔ ¬"null".toList <:+: (pointsJson points).write.toList := by
  rw [write_pointsJson]
  constructor
  · intro hfinite hnull
    have hletter : 'n' ∈ ("[" ++ ",".intercalate (points.map fun p => p.toJson.write) ++
        "]").toList := hnull.subset (by decide)
    simp only [String.toList_append, List.mem_append] at hletter
    rcases hletter with (hc | hc) | hc
    · exact absurd hc (by decide)
    · rcases mem_intercalate hc with hc | ⟨part, hpart, hc⟩
      · exact absurd hc (by decide)
      · obtain ⟨p, hp, rfl⟩ := List.mem_map.mp hpart
        rw [write_toJson] at hc
        simp only [String.toList_append, List.mem_append] at hc
        rcases hc with (((hc | hc) | hc) | hc) | hc
        · exact absurd hc (by decide)
        · exact n_not_mem_real (h p hp) hc
        · exact absurd hc (by decide)
        · exact n_not_mem_real (hfinite p hp) hc
        · exact absurd hc (by decide)
    · exact absurd hc (by decide)
  · intro hnull p hp
    by_contra hy
    refine hnull ?_
    have hreal : (Json.real p.y).write = "null" := by rw [Json.write, if_neg hy]
    have hpoint : "null".toList <:+: p.toJson.write.toList := by
      rw [write_toJson, hreal, String.toList_append, String.toList_append]
      exact ((List.suffix_append _ _).isInfix).trans (List.prefix_append _ _).isInfix
    have hwithin := infix_intercalate "," (List.mem_map_of_mem (f := fun p => p.toJson.write) hp)
    rw [String.toList_append, String.toList_append]
    refine (hpoint.trans hwithin).trans ?_
    exact ((List.suffix_append _ _).isInfix).trans (List.prefix_append _ _).isInfix

/-- Points lie in the width; their heights are finite unless one is too large for a double. -/
theorem Settings.points_of_valid {s : Settings} (h : s.error? = none) (hfits : s.Fits)
    (curve : Float → Float) :
    ∃ samples, s.sample curve = .ok samples ∧
      let points := samples.filterMap Sample.point?
      (∀ p ∈ points, p.x.isFinite ∧ 0 ≤ p.x ∧ p.x ≤ s.width ∧ ¬p.y.isNaN) ∧
        ((∀ p ∈ points, p.y.isFinite) ↔
          ∀ step ≤ s.steps.toNat, (curve (s.argument step)).isFinite →
            |value (1 - curve (s.argument step))| * value s.height < overflow) ∧
        ((∀ p ∈ points, p.y.isFinite) ↔
          ∀ c ∈ (polylineText points).toList, c.isDigit ∨ c = '.' ∨ c = '-' ∨ c = ',') ∧
        ((∀ p ∈ points, p.y.isFinite) ↔
          ¬"null".toList <:+: (pointsJson points).write.toList) := by
  refine ⟨_, sample_of_fits h hfits curve, ?_⟩
  dsimp only
  have hplace : ∀ p ∈ ((List.range (s.steps.toNat + 1)).map (s.sampleAt curve)).filterMap
      Sample.point?, p.x.isFinite ∧ 0 ≤ p.x ∧ p.x ≤ s.width ∧ ¬p.y.isNaN := by
    intro p hp
    obtain ⟨step, hle, hy, rfl⟩ := (mem_points_iff curve p).mp hp
    obtain ⟨hx, hleft, hright⟩ := x_pointAt h curve hle
    exact ⟨hx, hleft, hright, (y_pointAt h hy).1⟩
  refine ⟨hplace, ?heights, isFinite_iff_polylineText fun p hp => ?_,
    isFinite_iff_write_pointsJson fun p hp => (hplace p hp).1⟩
  case heights =>
    constructor
    · intro hfinite step hle hy
      have hmem := (mem_points_iff curve (s.pointAt curve step)).mpr ⟨step, hle, hy, rfl⟩
      exact (y_pointAt h hy).2.mp (hfinite (s.pointAt curve step) hmem)
    · intro hsmall p hp
      obtain ⟨step, hle, hy, rfl⟩ := (mem_points_iff curve p).mp hp
      exact (y_pointAt h hy).2.mpr (hsmall step hle hy)
  · obtain ⟨hx, -, -, hnumber⟩ := hplace p hp
    exact ⟨hx, hnumber⟩

theorem Settings.points_of_valid_of_parabola :
    let s : Settings := { steps := 2 }
    let curve : Float → Float := fun x => x * x
    s.error? = none ∧ s.Fits ∧ ∃ samples, s.sample curve = .ok samples ∧
      ∀ p ∈ samples.filterMap Sample.point?, p.x.isFinite ∧ p.y.isFinite := by
  intro s curve
  have h : s.error? = none := by decide +kernel
  have hfits : s.Fits := by decide +kernel
  obtain ⟨samples, hsample, hplace, -, htext, -⟩ := Settings.points_of_valid h hfits curve
  have hlisted : (s.sample curve).toOption.map
      (fun samples => polylineText (samples.filterMap Sample.point?)) =
        some "0,600,400,450,800,0" := by decide +kernel
  rw [hsample] at hlisted
  have hchars : ∀ c ∈ "0,600,400,450,800,0".toList,
      c.isDigit ∨ c = '.' ∨ c = '-' ∨ c = ',' := by simp
  rw [← Option.some.inj hlisted] at hchars
  exact ⟨h, hfits, samples, hsample, fun p hp => ⟨(hplace p hp).1, htext.mpr hchars p hp⟩⟩

/-- A curve that is finite, but too low for the picture, has points that are not. -/
theorem Settings.infinite_heights_of_low_curve :
    let s : Settings := { steps := 1 }
    let curve : Float → Float := fun x => 0 * x + -1e307
    s.error? = none ∧ (∀ step ≤ 1, (curve (s.argument step)).isFinite) ∧
      ((s.sample curve).toOption.map (·.filterMap Sample.point?)).map
        (fun points => (points.map (·.y.isFinite), polylineText points, (pointsJson points).write)) =
        some ([false, false], "0,inf,800,inf",
          "[\x7b\"x\":0.0,\"y\":null\x7d,\x7b\"x\":800.0,\"y\":null\x7d]") := by
  decide +kernel

end BlendPlot
