import BlendPlot.Proofs.Meaning
import BlendPlot.Proofs.NotFinite

namespace BlendPlot

open Double
open Float.Model.UnpackedFloat

/-- Equal as numbers, or both not a number. -/
def SameNumber (x y : Float) : Prop :=
  x == y ∨ x.isNaN ∧ y.isNaN

instance (x y : Float) : Decidable (SameNumber x y) :=
  inferInstanceAs (Decidable (_ ∨ _))

theorem sameNumber_mul_one_add_zero (y : Float) {z : Float} {s : Sign}
    (hz : z.toModel.unpack = .zero s) : SameNumber (y * 1 + z) y ∧ SameNumber (z + y * 1) y := by
  by_cases hy : y.isFinite
  · have hz' := isFinite_of_zero hz
    have hproduct := rounds_mul hy isFinite_one
    rw [value_one, mul_one] at hproduct
    obtain ⟨hfinite, hvalue⟩ := hproduct.value_eq hy
    have hleft := rounds_add hfinite hz'
    have hright := rounds_add hz' hfinite
    rw [hvalue, value_of_zero hz, add_zero] at hleft
    rw [hvalue, value_of_zero hz, zero_add] at hright
    obtain ⟨hleft, hsame⟩ := hleft.value_eq hy
    obtain ⟨hright, hsame'⟩ := hright.value_eq hy
    exact ⟨Or.inl ((beq_iff hleft hy).mpr hsame), Or.inl ((beq_iff hright hy).mpr hsame')⟩
  · rcases not_finite_cases hy with hnan | ⟨t, ht⟩
    · have hproduct := isNaN_mul_left hnan 1
      exact ⟨Or.inr ⟨isNaN_add_left hproduct z, hnan⟩, Or.inr ⟨isNaN_add_right z hproduct, hnan⟩⟩
    · obtain ⟨hleft, hright⟩ := infinity_add_zero ht hz
      rw [infinity_mul_one ht, hleft, hright]
      exact ⟨Or.inl (infinity_beq_self ht), Or.inl (infinity_beq_self ht)⟩

theorem mix_of_weight_zero (y₁ y₂ : Float) {w : Float} (hw : w == 0) :
    if y₂.isFinite then SameNumber (y₁ * (1 - w) + y₂ * w) y₁
    else (y₁ * (1 - w) + y₂ * w).isNaN := by
  obtain ⟨s, hzero⟩ := unpack_of_beq_zero hw
  rw [one_sub_zero hzero]
  split
  next hfinite =>
    obtain ⟨t, hproduct⟩ := unpack_mul_zero hfinite hzero
    exact (sameNumber_mul_one_add_zero y₁ hproduct).1
  next hfinite => exact isNaN_add_right _ (isNaN_mul_zero hfinite hzero)

theorem mix_of_weight_one (y₁ y₂ : Float) {w : Float} (hw : w == 1) :
    if y₁.isFinite then SameNumber (y₁ * (1 - w) + y₂ * w) y₂
    else (y₁ * (1 - w) + y₂ * w).isNaN := by
  obtain rfl := eq_one_of_beq hw
  have hzero : ((1 : Float) - 1).toModel.unpack = .zero .positive := rfl
  split
  next hfinite =>
    obtain ⟨t, hproduct⟩ := unpack_mul_zero hfinite hzero
    exact (sameNumber_mul_one_add_zero y₂ hproduct).2
  next hfinite => exact isNaN_add_left (isNaN_mul_zero hfinite hzero) _

namespace Sources

variable {s : Sources} {names : List String} {env : Environment} {curve : Curve}

/-- Both sides have a value everywhere, and the curve mixes them by its weight. -/
theorem sides_of_compile (h : s.compile names env = .ok curve) (hfirst : isBlank s.first = false)
    (hsecond : isBlank s.second = false) (x : Float) :
    let p : Place := ⟨x, some (curve.weightAt x), env⟩
    ∃ y₁ y₂, p.read? s.first = some y₁ ∧ p.read? s.second = some y₂ ∧
      curve.eval x = y₁ * (1 - curve.weightAt x) + y₂ * curve.weightAt x := by
  intro p
  obtain ⟨-, hcheck₁, hcheck₂, -, -, hvalues⟩ := compile_eq_ok h
  obtain ⟨f, hf⟩ := Slot.exists_part_of_check hcheck₁ hfirst
  obtain ⟨g, hg⟩ := Slot.exists_part_of_check hcheck₂ hsecond
  rw [hf] at hcheck₁
  rw [hg] at hcheck₂
  obtain ⟨-, hread₁⟩ := read?_side (by decide) hcheck₁ hvalues x (curve.weightAt x)
  obtain ⟨-, hread₂⟩ := read?_side (by decide) hcheck₂ hvalues x (curve.weightAt x)
  refine ⟨_, _, hread₁, hread₂, ?_⟩
  rw [Curve.eval, hf, hg]

/-- Where the weight is zero or one the curve is one side, as long as the other side is finite. -/
theorem eval_of_weight_at_end (h : s.compile names env = .ok curve)
    (hfirst : isBlank s.first = false) (hsecond : isBlank s.second = false) (x : Float) :
    let w := curve.weightAt x
    let p : Place := ⟨x, some w, env⟩
    ∃ y₁ y₂, p.read? s.first = some y₁ ∧ p.read? s.second = some y₂ ∧
      (w == 0 → if y₂.isFinite then SameNumber (curve.eval x) y₁ else (curve.eval x).isNaN) ∧
      (w == 1 → if y₁.isFinite then SameNumber (curve.eval x) y₂ else (curve.eval x).isNaN) ∧
      (isBlank s.blend → w = 0) := by
  intro w p
  obtain ⟨y₁, y₂, hread₁, hread₂, heval⟩ := sides_of_compile h hfirst hsecond x
  rw [heval]
  refine ⟨y₁, y₂, hread₁, hread₂, mix_of_weight_zero y₁ y₂, mix_of_weight_one y₁ y₂,
    fun hblank => ?_⟩
  have hweight := weight?_of_compile h x
  rw [weight?, if_pos hblank] at hweight
  exact (Option.some.inj hweight).symm

theorem eval_of_weight_at_end_of_growing_blend :
    let s : Sources := ⟨"k * alpha", "x * x", "x"⟩
    let names := ["k"]
    let env : Environment := Table.empty.insert "k" 3
    ∃ curve, s.compile names env = .ok curve ∧ curve.weightAt 2 = 1 ∧
      SameNumber (curve.eval 2) 4 := by
  intro s names env
  obtain ⟨curve, hc⟩ := s.compile_of_errors_eq_nil names env (by decide +kernel)
  obtain ⟨y₁, y₂, hread₁, hread₂, -, hone, -⟩ :=
    eval_of_weight_at_end hc (by decide) (by decide) 2
  have hweight : (s.compile names env).toOption.map (·.weightAt 2) = some 1 := by decide +kernel
  rw [hc] at hweight
  replace hweight : curve.weightAt 2 = 1 := Option.some.inj hweight
  rw [hweight] at hread₁ hread₂ hone
  have hvalue₁ : Place.read? ⟨2, some 1, env⟩ s.first = some 3 := by decide +kernel
  have hvalue₂ : Place.read? ⟨2, some 1, env⟩ s.second = some 4 := by decide +kernel
  obtain rfl := Option.some.inj (hread₁.symm.trans hvalue₁)
  obtain rfl := Option.some.inj (hread₂.symm.trans hvalue₂)
  exact ⟨curve, hc, hweight, hone rfl⟩

/-- A pole of a side that is not used at all makes the curve not a number. -/
theorem eval_at_unused_pole :
    let s : Sources := ⟨"1", "1 / x", ""⟩
    ∃ curve, s.compile [] {} = .ok curve ∧ curve.weightAt 0 = 0 ∧
      Place.read? ⟨0, some (curve.weightAt 0), {}⟩ s.first = some 1 ∧
      ¬SameNumber (curve.eval 0) 1 := by
  intro s
  obtain ⟨curve, hc⟩ := s.compile_of_errors_eq_nil [] {} (by decide +kernel)
  have hcurve : (s.compile [] {}).toOption.map
      (fun c => (c.weightAt 0, decide (SameNumber (c.eval 0) 1))) = some (0, false) := by
    decide +kernel
  rw [hc] at hcurve
  obtain ⟨hweight, hvalue⟩ := Prod.mk.inj (Option.some.inj hcurve)
  refine ⟨curve, hc, hweight, ?_, of_decide_eq_false hvalue⟩
  rw [hweight]
  decide +kernel

end Sources

end BlendPlot
