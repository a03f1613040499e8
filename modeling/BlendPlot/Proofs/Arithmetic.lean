import BlendPlot.Proofs.Magnitude

namespace BlendPlot.Double

open Float.Model (Format UnpackedFloat)
open Float.Model.UnpackedFloat

theorem rounds_roundWithAccuracy (s : Sign) {M : Nat} {e : Int} {acc : Accuracy} {v : ℚ}
    (hv : 0 ≤ v) (hk : Keeps (ExtendedMantissa.ofMantissaAndAccuracy M acc) (v / 2 ^ e))
    (henough : e ≤ -1074 ∨ 2 ^ 52 ≤ M) :
    Rounds (signed s v) (.ofModel (.pack (roundWithAccuracy Format.binary64 s M e acc))) := by
  obtain ⟨n, t, hto, heq⟩ := exists_roundsTo hk henough
  have habs := abs_signed s hv
  rw [heq s]
  exact ⟨s, n, t, habs.symm ▸ hto, congrArg (signed s) habs.symm, rfl⟩

theorem round_eq (s : Sign) (M : Nat) (e : Int) :
    UnpackedFloat.round Format.binary64 s M e =
      roundWithAccuracy Format.binary64 s
        (M * 2 ^ (e - max (M.log2 + 1 + e - 53) (-1074)).toNat)
        (e - (e - max (M.log2 + 1 + e - 53) (-1074)).toNat) .exact := by
  rw [← Nat.shiftLeft_eq]
  rfl

theorem rounds_round (s : Sign) {M : Nat} (e : Int) (hM : 0 < M) :
    Rounds (signed s (M * 2 ^ e)) (.ofModel (.pack (UnpackedFloat.round Format.binary64 s M e))) := by
  rw [round_eq]
  generalize hk : (e - max ((M.log2 : Int) + 1 + e - 53) (-1074)).toNat = k
  have hvalue : ((M * 2 ^ k : Nat) : ℚ) * 2 ^ (e - k) = M * 2 ^ e := by
    rw [zpow_sub₀ two_ne_zero, zpow_natCast]
    push_cast
    field_simp
  rw [← hvalue]
  refine rounds_roundWithAccuracy s (by positivity) ?_ ?_
  · rw [mul_div_assoc, div_self (by positivity), mul_one]
    exact keeps_exact _
  · by_cases hleast : e - k ≤ -1074
    · exact Or.inl hleast
    · right
      have hlog : 52 ≤ M.log2 + k := by omega
      calc 2 ^ 52 ≤ 2 ^ (M.log2 + k) := Nat.pow_le_pow_right (by decide) hlog
        _ = 2 ^ M.log2 * 2 ^ k := Nat.pow_add 2 _ _
        _ ≤ M * 2 ^ k := Nat.mul_le_mul_right _ (Nat.log2_self_le hM.ne')

theorem rounds_normalize (M e : Int) :
    Rounds (M * 2 ^ e)
      (.ofModel (.pack (UnpackedFloat.normalize Format.binary64 M e .positive))) := by
  rw [UnpackedFloat.normalize]
  split
  next h =>
    have hneg := Int.compare_eq_lt.mp h
    have hvalue : (M : ℚ) * 2 ^ e = signed .negative ((-M).toNat * 2 ^ e) := by
      have hcast : (((-M).toNat : Int) : ℚ) = -M := by
        rw [Int.toNat_of_nonneg (by omega)]
        push_cast
        rfl
      rw [Int.cast_natCast] at hcast
      rw [signed, hcast]
      ring
    rw [hvalue]
    exact rounds_round .negative e (by omega)
  next h =>
    rw [Int.compare_eq_eq.mp h, Int.cast_zero, zero_mul]
    exact rounds_zero .positive
  next h =>
    have hpos := Int.compare_eq_gt.mp h
    have hvalue : (M : ℚ) * 2 ^ e = signed .positive (M.toNat * 2 ^ e) := by
      have hcast : ((M.toNat : Int) : ℚ) = M := by rw [Int.toNat_of_nonneg (by omega)]
      rw [Int.cast_natCast] at hcast
      rw [signed, hcast]
    rw [hvalue]
    exact rounds_round .positive e (by omega)

theorem apply_shift (s : Sign) (m : Nat) {d e : Int} (hle : d ≤ e) :
    ((s.apply (m <<< (e - d).toNat : Nat) : Int) : ℚ) * 2 ^ d = signed s (m * 2 ^ e) := by
  have hpow : (2 : ℚ) ^ (e - d).toNat * 2 ^ d = 2 ^ e := by
    rw [← zpow_natCast, ← zpow_add₀ two_ne_zero]
    congr 1
    omega
  rw [Nat.shiftLeft_eq]
  cases s with
  | positive =>
    simp only [Sign.apply, signed]
    push_cast
    rw [mul_assoc, hpow]
  | negative =>
    simp only [Sign.apply, signed]
    push_cast
    rw [neg_mul, mul_assoc, hpow]

theorem rounds_add {x y : Float} (hx : x.isFinite) (hy : y.isFinite) :
    Rounds (value x + value y) (x + y) := by
  change Rounds _ (.ofModel (.pack (add Format.binary64 x.toModel.unpack y.toModel.unpack)))
  rcases finite_cases hx with ⟨s, h⟩ | ⟨s, m, e, hm, h⟩
  · rcases finite_cases hy with ⟨t, k⟩ | ⟨t, n, d, hn, k⟩
    · rw [value_of_zero h, value_of_zero k, h, k, add_zero, add]
      split <;> exact rounds_zero _
    · rw [value_of_zero h, zero_add, h, k, value_of_finite k]
      exact rounds_finite t (unpack_eq_finite k).1
  · rcases finite_cases hy with ⟨t, k⟩ | ⟨t, n, d, hn, k⟩
    · rw [value_of_zero k, add_zero, h, k, value_of_finite h]
      exact rounds_finite s (unpack_eq_finite h).1
    · rw [value_of_finite h, value_of_finite k, h, k,
        ← apply_shift s m (min_le_left e d), ← apply_shift t n (min_le_right e d), ← add_mul,
        ← Int.cast_add]
      exact rounds_normalize _ _

theorem rounds_sub {x y : Float} (hx : x.isFinite) (hy : y.isFinite) :
    Rounds (value x - value y) (x - y) := by
  change Rounds _ (.ofModel (.pack (sub Format.binary64 x.toModel.unpack y.toModel.unpack)))
  rcases finite_cases hx with ⟨s, h⟩ | ⟨s, m, e, hm, h⟩
  · rcases finite_cases hy with ⟨t, k⟩ | ⟨t, n, d, hn, k⟩
    · rw [value_of_zero h, value_of_zero k, h, k, sub_zero, sub]
      split <;> exact rounds_zero _
    · have hneg : -signed t ((n : ℚ) * 2 ^ d) = signed (-t) (n * 2 ^ d) := by
        cases t with
        | positive => rfl
        | negative => exact neg_neg _
      rw [value_of_zero h, zero_sub, h, k, value_of_finite k, hneg]
      exact rounds_finite (-t) (unpack_eq_finite k).1
  · rcases finite_cases hy with ⟨t, k⟩ | ⟨t, n, d, hn, k⟩
    · rw [value_of_zero k, sub_zero, h, k, value_of_finite h]
      exact rounds_finite s (unpack_eq_finite h).1
    · rw [value_of_finite h, value_of_finite k, h, k,
        ← apply_shift s m (min_le_left e d), ← apply_shift t n (min_le_right e d), ← sub_mul,
        ← Int.cast_sub]
      exact rounds_normalize _ _

theorem signed_mul (s t : Sign) (v w : ℚ) : signed s v * signed t w = signed (s * t) (v * w) := by
  cases s <;> cases t
  case positive.positive => rfl
  case positive.negative => exact mul_neg v w
  case negative.positive => exact neg_mul v w
  case negative.negative => exact neg_mul_neg v w

theorem signed_div (s t : Sign) (v w : ℚ) : signed s v / signed t w = signed (s / t) (v / w) := by
  cases s <;> cases t
  case positive.positive => rfl
  case positive.negative => exact div_neg v
  case negative.positive => exact neg_div w v
  case negative.negative => exact neg_div_neg_eq v w

theorem rounds_mul {x y : Float} (hx : x.isFinite) (hy : y.isFinite) :
    Rounds (value x * value y) (x * y) := by
  change Rounds _ (.ofModel (.pack (mul Format.binary64 x.toModel.unpack y.toModel.unpack)))
  rcases finite_cases hx with ⟨s, h⟩ | ⟨s, m, e, hm, h⟩
  · rw [value_of_zero h, zero_mul, h]
    rcases finite_cases hy with ⟨t, k⟩ | ⟨t, n, d, hn, k⟩ <;> rw [k] <;> exact rounds_zero _
  · rcases finite_cases hy with ⟨t, k⟩ | ⟨t, n, d, hn, k⟩
    · rw [value_of_zero k, mul_zero, h, k]
      exact rounds_zero _
    · have hexact : (m * 2 ^ e * (n * 2 ^ d) : ℚ) / 2 ^ (e + d) = (m * n : Nat) := by
        rw [zpow_add₀ two_ne_zero]
        push_cast
        field_simp
      rw [value_of_finite h, value_of_finite k, h, k, signed_mul]
      refine rounds_roundWithAccuracy (s * t) (by positivity) (hexact ▸ keeps_exact (m * n)) ?_
      obtain ⟨hc, -⟩ := unpack_eq_finite h
      obtain ⟨hd, -⟩ := unpack_eq_finite k
      have hlow := hc.low
      have hlow' := hd.low
      rcases hc.full with hfull | hleast
      · exact Or.inr (hfull.trans (Nat.le_mul_of_pos_right m hn))
      · rcases hd.full with hfull | hleast'
        · exact Or.inr (hfull.trans (Nat.le_mul_of_pos_left n hm))
        · exact Or.inl (by omega)

theorem rounds_div {x y : Float} (hx : x.isFinite) (hy : y.isFinite) (hne : value y ≠ 0) :
    Rounds (value x / value y) (x / y) := by
  change Rounds _ (.ofModel (.pack (div Format.binary64 x.toModel.unpack y.toModel.unpack)))
  rcases finite_cases hy with ⟨t, k⟩ | ⟨t, n, d, hn, k⟩
  · exact absurd (value_of_zero k) hne
  · rcases finite_cases hx with ⟨s, h⟩ | ⟨s, m, e, hm, h⟩
    · rw [value_of_zero h, zero_div, h, k]
      exact rounds_zero _
    · obtain ⟨M, e₀, acc, hcore, hkeeps, henough⟩ := divCore_keeps e d hm hn
      rw [value_of_finite h, value_of_finite k, h, k, signed_div, div]
      simp only [hcore]
      exact rounds_roundWithAccuracy (s / t) (by positivity) hkeeps henough

theorem rounds_toFloat (n : UInt64) : Rounds n.toNat n.toFloat := by
  have h := rounds_normalize n.toNat 0
  rw [zpow_zero, mul_one, Int.cast_natCast] at h
  exact h

theorem value_of_exactly {x : Float} {v : ℚ} (h : Exactly x.toModel v) :
    x.isFinite ∧ value x = v := by
  obtain ⟨m, e, hm, hx, -, hv⟩ := h
  exact ⟨isFinite_of_finite hx, (value_of_finite hx).trans hv⟩

theorem rounds_ofNat (n : Nat) : Rounds n (Float.ofNat n) := by
  change Rounds n (Float.ofScientific n false 0)
  rw [Float.ofScientific]
  split
  next h =>
    obtain ⟨hone, hvalue⟩ := value_of_exactly (exactly_powerOfTen (k := 0) (by decide))
    have hn : n.toUInt64.toFloat.isFinite ∧ value n.toUInt64.toFloat = n := by
      rcases n.eq_zero_or_pos with rfl | hpos
      · have hzero : (0 : Nat).toUInt64.toFloat.toModel.unpack = .zero .positive :=
          unpack_pack_zero .positive
        exact ⟨isFinite_of_zero hzero, (value_of_zero hzero).trans Nat.cast_zero.symm⟩
      · exact value_of_exactly (exactly_ofNat hpos h.1)
    have hmul := rounds_mul hn.1 hone
    rw [hn.2, hvalue, pow_zero, mul_one] at hmul
    exact hmul
  next h =>
    have hpos : 0 < n := by omega
    have hround : UnpackedFloat.ofScientific Format.binary64 n 0 =
        roundWithAccuracy Format.binary64 .positive (n <<< 53 * 10 ^ 0) (-53 + 0) .exact := by
      have hlog : ¬(0 : Int) < -(2 ^ Format.binary64.exponentBits + n.log2) := by
        change ¬(0 : Int) < -(2 ^ 11 + n.log2)
        omega
      rw [UnpackedFloat.ofScientific, dif_neg hpos.ne', if_neg (by decide), if_neg hlog,
        if_pos (by decide)]
      rfl
    change Rounds n (.ofModel (.pack (UnpackedFloat.ofScientific Format.binary64 n 0)))
    rw [hround, pow_zero, mul_one, Nat.shiftLeft_eq]
    have hexact : (n : ℚ) / 2 ^ (-53 + 0 : Int) = (n * 2 ^ 53 : Nat) := by
      rw [add_zero, zpow_neg, div_inv_eq_mul]
      push_cast
      norm_cast
    refine rounds_roundWithAccuracy .positive (Nat.cast_nonneg n) (hexact ▸ keeps_exact _) ?_
    exact Or.inr (by omega)

theorem Canonical.lt_of_exponent_lt {m n : Nat} {e d : Int} (hm : Canonical m e)
    (hn : Canonical n d) (hlt : e < d) : (m : ℚ) * 2 ^ e < n * 2 ^ d := by
  have hlow := hm.low
  have hless : (m : ℚ) < 2 ^ 53 := by exact_mod_cast hm.lt
  have hfull : (2 ^ 52 : ℚ) ≤ n := by exact_mod_cast hn.full.resolve_right (by omega)
  have hpow : (2 : ℚ) ^ (e + 1) ≤ 2 ^ d := zpow_le_zpow_right₀ one_le_two (by omega)
  calc (m : ℚ) * 2 ^ e < 2 ^ 53 * 2 ^ e := mul_lt_mul_of_pos_right hless (by positivity)
    _ = 2 ^ 52 * 2 ^ (e + 1) := by
      rw [zpow_add_one₀ two_ne_zero]
      ring
    _ ≤ n * 2 ^ d := mul_le_mul hfull hpow (by positivity) (by positivity)

theorem compare_significands {m n : Nat} {e d : Int} (hm : Canonical m e) (hn : Canonical n d) :
    (compare e d).then (compare m n) = compare ((m : ℚ) * 2 ^ e) (n * 2 ^ d) := by
  rcases lt_trichotomy e d with hlt | rfl | hgt
  · rw [compare_lt_iff_lt.mpr hlt, compare_lt_iff_lt.mpr (hm.lt_of_exponent_lt hn hlt)]
    rfl
  · have hpos : (0 : ℚ) < 2 ^ e := by positivity
    rw [compare_eq_iff_eq.mpr rfl]
    change compare m n = _
    rcases lt_trichotomy m n with hlt | rfl | hgt
    · have hless : (m : ℚ) * 2 ^ e < n * 2 ^ e :=
        mul_lt_mul_of_pos_right (Nat.cast_lt.mpr hlt) hpos
      rw [compare_lt_iff_lt.mpr hlt, compare_lt_iff_lt.mpr hless]
    · rw [compare_eq_iff_eq.mpr rfl, compare_eq_iff_eq.mpr rfl]
    · have hmore : (n : ℚ) * 2 ^ e < m * 2 ^ e :=
        mul_lt_mul_of_pos_right (Nat.cast_lt.mpr hgt) hpos
      rw [compare_gt_iff_gt.mpr hgt, compare_gt_iff_gt.mpr hmore]
  · rw [compare_gt_iff_gt.mpr hgt, compare_gt_iff_gt.mpr (hn.lt_of_exponent_lt hm hgt)]
    rfl

theorem compare_neg_neg (v w : ℚ) : compare (-v) (-w) = compare w v := by
  rcases lt_trichotomy w v with hlt | rfl | hgt
  · rw [compare_lt_iff_lt.mpr hlt, compare_lt_iff_lt.mpr (neg_lt_neg hlt)]
  · rw [compare_eq_iff_eq.mpr rfl, compare_eq_iff_eq.mpr rfl]
  · rw [compare_gt_iff_gt.mpr hgt, compare_gt_iff_gt.mpr (neg_lt_neg hgt)]

/-- Finite doubles compare like the numbers that they stand for. -/
theorem compare_eq {x y : Float} (hx : x.isFinite) (hy : y.isFinite) :
    x.toModel.compare y.toModel = some (compare (value x) (value y)) := by
  change x.toModel.unpack.compare y.toModel.unpack = _
  rcases finite_cases hx with ⟨s, h⟩ | ⟨s, m, e, hm, h⟩
  · rcases finite_cases hy with ⟨t, k⟩ | ⟨t, n, d, hn, k⟩
    · rw [value_of_zero h, value_of_zero k, h, k, compare_eq_iff_eq.mpr rfl]
      rfl
    · have hpos : (0 : ℚ) < n * 2 ^ d := by positivity
      rw [value_of_zero h, value_of_finite k, h, k]
      cases t with
      | positive => rw [signed, compare_lt_iff_lt.mpr hpos]; rfl
      | negative => rw [signed, compare_gt_iff_gt.mpr (neg_neg_of_pos hpos)]; rfl
  · have hpos : (0 : ℚ) < m * 2 ^ e := by positivity
    rcases finite_cases hy with ⟨t, k⟩ | ⟨t, n, d, hn, k⟩
    · rw [value_of_finite h, value_of_zero k, h, k]
      cases s with
      | positive => rw [signed, compare_gt_iff_gt.mpr hpos]; rfl
      | negative => rw [signed, compare_lt_iff_lt.mpr (neg_neg_of_pos hpos)]; rfl
    · have hpos' : (0 : ℚ) < n * 2 ^ d := by positivity
      have hcompare := compare_significands (unpack_eq_finite h).1 (unpack_eq_finite k).1
      rw [value_of_finite h, value_of_finite k, h, k]
      cases s <;> cases t <;> simp only [signed]
      case positive.positive => rw [← hcompare]; rfl
      case positive.negative => rw [compare_gt_iff_gt.mpr (by linarith)]; rfl
      case negative.positive => rw [compare_lt_iff_lt.mpr (by linarith)]; rfl
      case negative.negative =>
        rw [compare_neg_neg, Std.OrientedOrd.eq_swap, ← hcompare]
        rfl

theorem le_iff {x y : Float} (hx : x.isFinite) (hy : y.isFinite) : x ≤ y ↔ value x ≤ value y := by
  have hmodel : x ≤ y ↔ (x.toModel.compare y.toModel).any (·.isLE) = true := decide_eq_true_iff
  rw [hmodel, compare_eq hx hy, Option.any_some, Ordering.isLE_iff_ne_gt]
  exact compare_le_iff_le

theorem lt_iff {x y : Float} (hx : x.isFinite) (hy : y.isFinite) : x < y ↔ value x < value y := by
  have hmodel : x < y ↔ (x.toModel.compare y.toModel == some .lt) = true := decide_eq_true_iff
  rw [hmodel, compare_eq hx hy, beq_iff_eq, Option.some_inj]
  exact compare_lt_iff_lt

theorem beq_iff {x y : Float} (hx : x.isFinite) (hy : y.isFinite) : x == y ↔ value x = value y := by
  change (x.toModel.compare y.toModel == some .eq) = true ↔ _
  rw [compare_eq hx hy, beq_iff_eq, Option.some_inj]
  exact compare_eq_iff_eq
/-- Numbers other than zero are doubles in one way only. -/
theorem eq_of_value_eq {x y : Float} (hx : x.isFinite) (hy : y.isFinite)
    (h : value x = value y) (hne : value y ≠ 0) : x = y := by
  rcases finite_cases hx with ⟨s, hs⟩ | ⟨s, m, e, hm, hs⟩
  · exact absurd (h.symm.trans (value_of_zero hs)) hne
  · rcases finite_cases hy with ⟨t, ht⟩ | ⟨t, n, d, hn, ht⟩
    · exact absurd (value_of_zero ht) hne
    · have hpos : (0 : ℚ) < m * 2 ^ e := by positivity
      have hpos' : (0 : ℚ) < n * 2 ^ d := by positivity
      rw [value_of_finite hs, value_of_finite ht] at h
      obtain ⟨rfl, hsame⟩ : s = t ∧ (m : ℚ) * 2 ^ e = n * 2 ^ d := by
        cases s <;> cases t <;> simp only [signed] at h
        case positive.positive => exact ⟨rfl, h⟩
        case negative.negative => exact ⟨rfl, neg_inj.mp h⟩
        all_goals linarith
      have hcompare := compare_significands (unpack_eq_finite hs).1 (unpack_eq_finite ht).1
      rw [hsame, compare_eq_iff_eq.mpr rfl, Ordering.then_eq_eq] at hcompare
      obtain rfl := compare_eq_iff_eq.mp hcompare.1
      obtain rfl := compare_eq_iff_eq.mp hcompare.2
      exact eq_of_unpack_finite hs ht

end BlendPlot.Double
