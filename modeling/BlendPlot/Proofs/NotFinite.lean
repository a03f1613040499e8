import BlendPlot.Proofs.Arithmetic

namespace BlendPlot.Double

open Float.Model (Format UnpackedFloat)
open Float.Model.UnpackedFloat

theorem toModel_add (x y : Float) :
    (x + y).toModel = .pack (add Format.binary64 x.toModel.unpack y.toModel.unpack) := rfl

theorem toModel_sub (x y : Float) :
    (x - y).toModel = .pack (sub Format.binary64 x.toModel.unpack y.toModel.unpack) := rfl

theorem toModel_mul (x y : Float) :
    (x * y).toModel = .pack (mul Format.binary64 x.toModel.unpack y.toModel.unpack) := rfl

theorem isFinite_of_pack {u : UnpackedFloat} (h : (Float.ofModel (.pack u)).isFinite) :
    u.isFinite := by
  cases u with
  | zero | finite => rfl
  | infinity s =>
    exact absurd h (Bool.eq_false_iff.mp (isFinite_of_infinity (unpack_pack_infinity s)))
  | notANumber => cases h

theorem isFinite_of_add {x y : Float} (h : (x + y).isFinite) : x.isFinite ∧ y.isFinite := by
  have hfinite : (add Format.binary64 x.toModel.unpack y.toModel.unpack).isFinite :=
    isFinite_of_pack h
  change x.toModel.unpack.isFinite ∧ y.toModel.unpack.isFinite
  revert hfinite
  cases x.toModel.unpack <;> cases y.toModel.unpack <;> intro hfinite
  case infinity.infinity =>
    rw [add] at hfinite
    split at hfinite <;> cases hfinite
  all_goals first | exact ⟨rfl, rfl⟩ | cases hfinite

theorem isFinite_of_mul {x y : Float} (h : (x * y).isFinite) : x.isFinite ∧ y.isFinite := by
  have hfinite : (mul Format.binary64 x.toModel.unpack y.toModel.unpack).isFinite :=
    isFinite_of_pack h
  change x.toModel.unpack.isFinite ∧ y.toModel.unpack.isFinite
  revert hfinite
  cases x.toModel.unpack <;> cases y.toModel.unpack <;> intro hfinite <;>
    first | exact ⟨rfl, rfl⟩ | cases hfinite

theorem isNaN_of_pack {x : Float} {u : UnpackedFloat} (hx : x.toModel = .pack u)
    (hu : u = .notANumber) : x.isNaN := by
  change x.toModel.unpack.isNaN
  rw [hx, hu]
  rfl

theorem isNaN_add_left {x : Float} (h : x.isNaN) (y : Float) : (x + y).isNaN := by
  refine isNaN_of_pack (toModel_add x y) ?_
  rw [unpack_of_isNaN h]
  rfl

theorem isNaN_add_right (x : Float) {y : Float} (h : y.isNaN) : (x + y).isNaN := by
  refine isNaN_of_pack (toModel_add x y) ?_
  rw [unpack_of_isNaN h]
  cases x.toModel.unpack <;> rfl

theorem isNaN_mul_left {x : Float} (h : x.isNaN) (y : Float) : (x * y).isNaN := by
  refine isNaN_of_pack (toModel_mul x y) ?_
  rw [unpack_of_isNaN h]
  rfl

/-- What is not finite times zero is not a number. -/
theorem isNaN_mul_zero {x z : Float} {s : Sign} (hx : ¬x.isFinite)
    (hz : z.toModel.unpack = .zero s) : (x * z).isNaN := by
  rcases not_finite_cases hx with hnan | ⟨t, h⟩
  · exact isNaN_mul_left hnan z
  · refine isNaN_of_pack (toModel_mul x z) ?_
    rw [h, hz]
    rfl

theorem isFinite_of_beq {x y : Float} (h : x == y) (hy : y.isFinite) : x.isFinite := by
  by_contra hx
  have hcompare : (x.toModel.unpack.compare y.toModel.unpack == some .eq) = true := h
  rcases not_finite_cases hx with hnan | ⟨s, hs⟩
  · rw [unpack_of_isNaN hnan] at hcompare
    cases hcompare
  · rw [hs] at hcompare
    rcases finite_cases hy with ⟨t, ht⟩ | ⟨t, m, e, hm, ht⟩ <;> rw [ht] at hcompare <;>
      cases s <;> cases hcompare

theorem infinity_mul_one {x : Float} {s : Sign} (h : x.toModel.unpack = .infinity s) :
    x * 1 = x := by
  refine eq_of_unpack_infinity ?_ h
  rw [toModel_mul, h, unpack_one]
  cases s <;> rfl

theorem infinity_add_zero {x z : Float} {s t : Sign} (h : x.toModel.unpack = .infinity s)
    (hz : z.toModel.unpack = .zero t) : x + z = x ∧ z + x = x := by
  constructor <;> refine eq_of_unpack_infinity ?_ h
  · rw [toModel_add, h, hz]
    exact unpack_pack_infinity s
  · rw [toModel_add, h, hz]
    exact unpack_pack_infinity s

theorem infinity_beq_self {x : Float} {s : Sign} (h : x.toModel.unpack = .infinity s) : x == x := by
  change (x.toModel.unpack.compare x.toModel.unpack == some .eq) = true
  rw [h]
  cases s <;> rfl

theorem value_eq_zero_iff {x : Float} (hx : x.isFinite) :
    value x = 0 ↔ ∃ s, x.toModel.unpack = .zero s := by
  refine ⟨fun h => ?_, fun ⟨s, h⟩ => value_of_zero h⟩
  rcases finite_cases hx with hzero | ⟨s, m, e, hm, hunpack⟩
  · exact hzero
  · have hpos : (0 : ℚ) < m * 2 ^ e := by positivity
    rw [value_of_finite hunpack] at h
    cases s <;> simp only [signed] at h <;> linarith

theorem unpack_of_beq_zero {x : Float} (h : x == 0) : ∃ s, x.toModel.unpack = .zero s := by
  have hx := isFinite_of_beq h isFinite_zero
  rw [beq_iff hx isFinite_zero, value_zero] at h
  exact (value_eq_zero_iff hx).mp h

theorem eq_one_of_beq {x : Float} (h : x == 1) : x = 1 := by
  have hx := isFinite_of_beq h isFinite_one
  rw [beq_iff hx isFinite_one] at h
  exact eq_of_value_eq hx isFinite_one h (by simp [value_one])

theorem one_sub_zero {z : Float} {s : Sign} (h : z.toModel.unpack = .zero s) : 1 - z = 1 := by
  refine toModel_inj ?_
  rw [toModel_sub, h, unpack_one]
  exact pack_unpack unpack_one

theorem unpack_mul_zero {x z : Float} {s : Sign} (hx : x.isFinite)
    (hz : z.toModel.unpack = .zero s) : ∃ t, (x * z).toModel.unpack = .zero t := by
  have hmul := rounds_mul hx (isFinite_of_zero hz)
  rw [value_of_zero hz, mul_zero, ← value_zero] at hmul
  obtain ⟨hproduct, hvalue⟩ := hmul.value_eq isFinite_zero
  exact (value_eq_zero_iff hproduct).mp (hvalue.trans value_zero)

def embed (v : ℚ) : WithBot (WithTop ℚ) :=
  ((v : WithTop ℚ) : WithBot (WithTop ℚ))

def infinite : Sign → WithBot (WithTop ℚ)
  | .positive => ⊤
  | .negative => ⊥

/-- What a double stands for, unless it is not a number. -/
def extended (x : Float) : WithBot (WithTop ℚ) :=
  match x.toModel.unpack with
  | .infinity s => infinite s
  | _ => embed (value x)

theorem extended_of_infinity {x : Float} {s : Sign} (h : x.toModel.unpack = .infinity s) :
    extended x = infinite s := by
  rw [extended, h]

theorem extended_of_finite {x : Float} (h : x.isFinite) : extended x = embed (value x) := by
  rcases finite_cases h with ⟨s, hs⟩ | ⟨s, m, e, hm, hs⟩ <;> rw [extended, hs]

theorem number_cases {x : Float} (h : ¬x.isNaN) :
    x.isFinite ∨ ∃ s, x.toModel.unpack = .infinity s := by
  by_cases hx : x.isFinite
  · exact Or.inl hx
  · exact Or.inr ((not_finite_cases hx).resolve_left h)

theorem infinite_lt_infinite : infinite .negative < infinite .positive :=
  bot_lt_top

theorem embed_lt_embed {v w : ℚ} (h : v < w) : embed v < embed w :=
  WithBot.coe_lt_coe.mpr (WithTop.coe_lt_coe.mpr h)

theorem embed_lt_infinite (v : ℚ) : embed v < infinite .positive :=
  WithBot.coe_lt_coe.mpr (WithTop.coe_lt_top v)

theorem infinite_lt_embed (v : ℚ) : infinite .negative < embed v :=
  WithBot.bot_lt_coe _

theorem compare_infinities (s t : Sign) :
    (UnpackedFloat.infinity s).compare (.infinity t) = some (compare (infinite s) (infinite t)) := by
  cases s <;> cases t
  case positive.positive | negative.negative => rw [compare_eq_iff_eq.mpr rfl]; rfl
  case positive.negative => rw [compare_gt_iff_gt.mpr infinite_lt_infinite]; rfl
  case negative.positive => rw [compare_lt_iff_lt.mpr infinite_lt_infinite]; rfl

theorem compare_finite_infinity {u : UnpackedFloat} (hu : u.isFinite) (s : Sign) (v : ℚ) :
    u.compare (.infinity s) = some (compare (embed v) (infinite s)) := by
  cases s with
  | positive =>
    rw [compare_lt_iff_lt.mpr (embed_lt_infinite v)]
    cases u <;> first | rfl | cases hu
  | negative =>
    rw [compare_gt_iff_gt.mpr (infinite_lt_embed v)]
    cases u <;> first | rfl | cases hu

theorem compare_infinity_finite {u : UnpackedFloat} (hu : u.isFinite) (s : Sign) (v : ℚ) :
    (UnpackedFloat.infinity s).compare u = some (compare (infinite s) (embed v)) := by
  cases s with
  | positive =>
    rw [compare_gt_iff_gt.mpr (embed_lt_infinite v)]
    cases u <;> first | rfl | cases hu
  | negative =>
    rw [compare_lt_iff_lt.mpr (infinite_lt_embed v)]
    cases u <;> first | rfl | cases hu

theorem compare_embed (v w : ℚ) : compare v w = compare (embed v) (embed w) := by
  rcases lt_trichotomy v w with h | rfl | h
  · rw [compare_lt_iff_lt.mpr h, compare_lt_iff_lt.mpr (embed_lt_embed h)]
  · rw [compare_eq_iff_eq.mpr rfl, compare_eq_iff_eq.mpr rfl]
  · rw [compare_gt_iff_gt.mpr h, compare_gt_iff_gt.mpr (embed_lt_embed h)]

/-- Doubles that are numbers compare like what they stand for. -/
theorem compare_eq_extended {x y : Float} (hx : ¬x.isNaN) (hy : ¬y.isNaN) :
    x.toModel.compare y.toModel = some (compare (extended x) (extended y)) := by
  rcases number_cases hx with hx | ⟨s, hs⟩ <;> rcases number_cases hy with hy | ⟨t, ht⟩
  · rw [compare_eq hx hy, extended_of_finite hx, extended_of_finite hy, compare_embed]
  · rw [extended_of_finite hx, extended_of_infinity ht, Float.Model.compare, ht]
    exact compare_finite_infinity hx t _
  · rw [extended_of_infinity hs, extended_of_finite hy, Float.Model.compare, hs]
    exact compare_infinity_finite hy s _
  · rw [extended_of_infinity hs, extended_of_infinity ht, Float.Model.compare, hs, ht]
    exact compare_infinities s t

theorem le_iff_extended {x y : Float} (hx : ¬x.isNaN) (hy : ¬y.isNaN) :
    x ≤ y ↔ extended x ≤ extended y := by
  have hmodel : x ≤ y ↔ (x.toModel.compare y.toModel).any (·.isLE) = true := decide_eq_true_iff
  rw [hmodel, compare_eq_extended hx hy, Option.any_some, Ordering.isLE_iff_ne_gt]
  exact compare_le_iff_le

theorem lt_iff_extended {x y : Float} (hx : ¬x.isNaN) (hy : ¬y.isNaN) :
    x < y ↔ extended x < extended y := by
  have hmodel : x < y ↔ (x.toModel.compare y.toModel == some .lt) = true := decide_eq_true_iff
  rw [hmodel, compare_eq_extended hx hy, beq_iff_eq, Option.some_inj]
  exact compare_lt_iff_lt

theorem compare_of_isNaN {x y : Float} (h : x.isNaN ∨ y.isNaN) :
    x.toModel.compare y.toModel = none := by
  rw [Float.Model.compare]
  rcases h with h | h <;> rw [unpack_of_isNaN h]
  · rfl
  · cases x.toModel.unpack <;> rfl

theorem not_isNaN_of_le {x y : Float} (h : x ≤ y) : ¬x.isNaN ∧ ¬y.isNaN := by
  have hmodel : (x.toModel.compare y.toModel).any (·.isLE) = true := of_decide_eq_true h
  rw [← not_or]
  intro hnan
  rw [compare_of_isNaN hnan] at hmodel
  cases hmodel

theorem not_isNaN_of_lt {x y : Float} (h : x < y) : ¬x.isNaN ∧ ¬y.isNaN := by
  have hmodel : (x.toModel.compare y.toModel == some .lt) = true := of_decide_eq_true h
  rw [← not_or]
  intro hnan
  rw [compare_of_isNaN hnan] at hmodel
  cases hmodel

theorem not_lt_of_le {x y : Float} (h : y ≤ x) : ¬x < y := by
  obtain ⟨hy, hx⟩ := not_isNaN_of_le h
  rw [lt_iff_extended hx hy]
  exact ((le_iff_extended hy hx).mp h).not_gt

end BlendPlot.Double
