import BlendPlot.Proofs.Rounding

namespace BlendPlot

namespace Double

open Decimal.Rounding (around)
open Float.Model (Format UnpackedFloat)
open Float.Model.UnpackedFloat

theorem mul_eq {m₁ m₂ m : Nat} {e₁ e₂ e : Int} (h₁ : 0 < m₁) (h₂ : 0 < m₂)
    (hfull : 2 ^ 52 ≤ m₁ * m₂) (hc : Canonical m e)
    (hv : (around m e).Contains (m₁ * 2 ^ e₁ * (m₂ * 2 ^ e₂))) :
    mul Format.binary64 (.finite .positive m₁ e₁ h₁) (.finite .positive m₂ e₂ h₂) =
      .finite .positive m e hc.pos := by
  have hexact : (m₁ * 2 ^ e₁ * (m₂ * 2 ^ e₂) : ℚ) / 2 ^ (e₁ + e₂) = (m₁ * m₂ : Nat) := by
    rw [zpow_add₀ two_ne_zero]
    push_cast
    field_simp
  refine roundWithAccuracy_eq .positive hc hv ?_ (Or.inr hfull)
  rw [hexact]
  exact keeps_exact (m₁ * m₂)

theorem divCore_eq (m₁ : Nat) (e₁ : Int) (m₂ : Nat) (e₂ : Int) :
    divCore Format.binary64 m₁ e₁ m₂ e₂ =
      let e₀ := min (e₁ - e₂) (max (m₁.log2 + 1 + e₁ - (m₂.log2 + 1 + e₂) - 53) (-1074))
      (m₁ * 2 ^ (e₁ - e₂ - e₀).toNat / m₂, e₀,
        accuracyOfFraction (m₁ * 2 ^ (e₁ - e₂ - e₀).toNat % m₂) m₂) := by
  simp only [← Nat.shiftLeft_eq]
  rfl

theorem full_of_log2 {m₁ m₂ k : Nat} (h₁ : 0 < m₁) (h₂ : 0 < m₂)
    (hk : m₂.log2 + 53 ≤ m₁.log2 + k) : 2 ^ 52 ≤ m₁ * 2 ^ k / m₂ := by
  rw [Nat.le_div_iff_mul_le h₂]
  calc 2 ^ 52 * m₂ ≤ 2 ^ 52 * 2 ^ (m₂.log2 + 1) :=
        Nat.mul_le_mul_left _ (Nat.le_of_lt Nat.lt_log2_self)
    _ = 2 ^ (m₂.log2 + 53) := by rw [← Nat.pow_add]; congr 1; omega
    _ ≤ 2 ^ (m₁.log2 + k) := Nat.pow_le_pow_right (by decide) hk
    _ = 2 ^ m₁.log2 * 2 ^ k := Nat.pow_add 2 _ _
    _ ≤ m₁ * 2 ^ k := Nat.mul_le_mul_right _ (Nat.log2_self_le h₁.ne')

/-- A quotient is known up to its accuracy, with enough bits of it to be rounded. -/
theorem divCore_keeps {m₁ m₂ : Nat} (e₁ e₂ : Int) (h₁ : 0 < m₁) (h₂ : 0 < m₂) :
    ∃ M e₀ acc, divCore Format.binary64 m₁ e₁ m₂ e₂ = (M, e₀, acc) ∧
      Keeps (ExtendedMantissa.ofMantissaAndAccuracy M acc)
        (m₁ * 2 ^ e₁ / (m₂ * 2 ^ e₂) / 2 ^ e₀) ∧
      (e₀ ≤ -1074 ∨ 2 ^ 52 ≤ M) := by
  have hcore := divCore_eq m₁ e₁ m₂ e₂
  dsimp only at hcore
  generalize he₀ : min (e₁ - e₂) (max ((m₁.log2 : Int) + 1 + e₁ - (m₂.log2 + 1 + e₂) - 53)
    (-1074)) = e₀ at hcore
  have hle : e₀ ≤ e₁ - e₂ := by omega
  have hexact : (m₁ * 2 ^ e₁ / (m₂ * 2 ^ e₂) : ℚ) / 2 ^ e₀ =
      (m₁ * 2 ^ (e₁ - e₂ - e₀).toNat : Nat) / m₂ := by
    have hexp : (2 : ℚ) ^ (e₁ - e₂ - e₀).toNat = 2 ^ e₁ / 2 ^ e₂ / 2 ^ e₀ := by
      rw [← zpow_natCast, Int.toNat_of_nonneg (by omega), zpow_sub₀ two_ne_zero,
        zpow_sub₀ two_ne_zero]
    push_cast
    rw [hexp]
    field_simp
  refine ⟨_, _, _, hcore, ?_, ?_⟩
  · rw [hexact]
    exact keeps_quotient _ h₂
  · by_cases hsmall : e₀ ≤ -1074
    · exact Or.inl hsmall
    · exact Or.inr (full_of_log2 h₁ h₂ (by omega))

theorem div_eq {m₁ m₂ m : Nat} {e₁ e₂ e : Int} (h₁ : 0 < m₁) (h₂ : 0 < m₂)
    (hc : Canonical m e) (hv : (around m e).Contains (m₁ * 2 ^ e₁ / (m₂ * 2 ^ e₂))) :
    div Format.binary64 (.finite .positive m₁ e₁ h₁) (.finite .positive m₂ e₂ h₂) =
      .finite .positive m e hc.pos := by
  obtain ⟨M, e₀, acc, hcore, hkeeps, henough⟩ := divCore_keeps e₁ e₂ h₁ h₂
  rw [div]
  simp only [hcore]
  exact roundWithAccuracy_eq .positive hc hv hkeeps henough

/-- A double with a full significand that is exactly a given number. -/
def Exactly (f : Float.Model) (v : ℚ) : Prop :=
  ∃ m e hm, f.unpack = .finite .positive m e hm ∧ 2 ^ 52 ≤ m ∧ (m : ℚ) * 2 ^ e = v

theorem contains_self {m : Nat} (e : Int) (hm : 0 < m) : (around m e).Contains (m * 2 ^ e) := by
  have hscale : (m * 2 ^ e : ℚ) / 2 ^ (around m e).exponent = (4 * m : Nat) := by
    have hne : (2 : ℚ) ^ e ≠ 0 := by positivity
    rw [show (around m e).exponent = e - 2 from rfl, div_exponent, mul_div_assoc, div_self hne]
    push_cast
    ring
  have hlow : (around m e).low < 4 * m := by
    simp only [around]
    split <;> omega
  have hhigh : 4 * m < (around m e).high := by
    simp only [around]
    omega
  constructor
  · rw [hscale]
    exact_mod_cast hlow.le
  · rw [hscale]
    exact_mod_cast hhigh.le
  · rw [hscale]
    exact fun _ => ⟨by exact_mod_cast hlow, by exact_mod_cast hhigh⟩

theorem ofNat_eq {n : Nat} (hpos : 0 < n) (hlog : n.log2 ≤ 52) :
    UnpackedFloat.ofNat Format.binary64 n =
      roundWithAccuracy Format.binary64 .positive (n * 2 ^ (52 - n.log2)) ((n.log2 : Int) - 52)
        .exact := by
  have hgt : compare (n : Int) 0 = .gt := Int.compare_eq_gt.mpr (by omega)
  have hshift : (0 - max ((n.log2 : Int) + 1 + 0 - 53) (-1074)).toNat = 52 - n.log2 := by omega
  have hexp : (0 : Int) - ((52 - n.log2 : Nat) : Int) = (n.log2 : Int) - 52 := by omega
  rw [UnpackedFloat.ofNat, UnpackedFloat.ofInt, UnpackedFloat.normalize, hgt]
  change roundWithAccuracy Format.binary64 .positive
    (n <<< (0 - max ((n.log2 : Int) + 1 + 0 - 53) (-1074)).toNat)
    (0 - ((0 - max ((n.log2 : Int) + 1 + 0 - 53) (-1074)).toNat : Int)) .exact = _
  rw [hshift, hexp, Nat.shiftLeft_eq]

theorem exactly_ofNat {n : Nat} (hpos : 0 < n) (hlt : n < 2 ^ 53) :
    Exactly n.toUInt64.toFloat.toModel n := by
  have hlog : n.log2 ≤ 52 := by
    have h := (Nat.log2_lt hpos.ne').mpr hlt
    omega
  have hlow := Nat.log2_self_le hpos.ne'
  have hhigh : n < 2 ^ (n.log2 + 1) := Nat.lt_log2_self
  have hfull : 2 ^ 52 ≤ n * 2 ^ (52 - n.log2) :=
    calc 2 ^ 52 = 2 ^ n.log2 * 2 ^ (52 - n.log2) := by rw [← Nat.pow_add]; congr 1; omega
      _ ≤ n * 2 ^ (52 - n.log2) := Nat.mul_le_mul_right _ hlow
  have hfit : n * 2 ^ (52 - n.log2) < 2 ^ 53 :=
    calc n * 2 ^ (52 - n.log2) < 2 ^ (n.log2 + 1) * 2 ^ (52 - n.log2) :=
          Nat.mul_lt_mul_of_pos_right hhigh (Nat.two_pow_pos _)
      _ = 2 ^ 53 := by rw [← Nat.pow_add]; congr 1; omega
  have hc : Canonical (n * 2 ^ (52 - n.log2)) ((n.log2 : Int) - 52) :=
    ⟨by omega, hfit, by omega, by omega, Or.inl hfull⟩
  have hvalue : ((n * 2 ^ (52 - n.log2) : Nat) : ℚ) * 2 ^ ((n.log2 : Int) - 52) = n := by
    have hexp : (2 : ℚ) ^ ((n.log2 : Int) - 52) = (2 ^ (52 - n.log2))⁻¹ := by
      rw [← zpow_natCast, ← zpow_neg]
      congr 1
      omega
    have hne : (2 : ℚ) ^ (52 - n.log2) ≠ 0 := by positivity
    push_cast
    rw [hexp, mul_assoc, mul_inv_cancel₀ hne, mul_one]
  have hkeeps := keeps_exact (n * 2 ^ (52 - n.log2))
  have hmod : n.toUInt64.toNat = n := by
    rw [Nat.toUInt64_eq, UInt64.toNat_ofNat']
    exact Nat.mod_eq_of_lt (by omega)
  have hround : UnpackedFloat.ofUInt64 Format.binary64 n.toUInt64 =
      .finite .positive _ ((n.log2 : Int) - 52) hc.pos := by
    rw [UnpackedFloat.ofUInt64, hmod, ofNat_eq hpos hlog]
    refine roundWithAccuracy_eq .positive hc (contains_self _ hc.pos) ?_ (Or.inr hfull)
    rw [mul_div_assoc, div_self (by positivity), mul_one]
    exact hkeeps
  refine ⟨_, _, hc.pos, ?_, hfull, hvalue⟩
  change (Float.Model.pack (UnpackedFloat.ofUInt64 Format.binary64 n.toUInt64)).unpack = _
  rw [hround]
  exact unpack_pack .positive hc

def powerSignificand (k : Nat) : Nat :=
  10 ^ k * 2 ^ 52 / 2 ^ (10 ^ k).log2

theorem powersOfTen_table : ∀ k : Fin Float.exactlyRepresentablePowersOfTen.size,
    powerSignificand k * 2 ^ (10 ^ k.val).log2 = 10 ^ k.val * 2 ^ 52 ∧
      2 ^ 52 ≤ powerSignificand k ∧ powerSignificand k < 2 ^ 53 ∧ (10 ^ k.val).log2 ≤ 73 ∧
      Float.exactlyRepresentablePowersOfTen[k].toModel.toBits.toNat =
        ((10 ^ k.val).log2 + 1022) * 2 ^ 52 + powerSignificand k := by
  decide +kernel

theorem exactly_powerOfTen {k : Nat} (hk : k < Float.exactlyRepresentablePowersOfTen.size) :
    Exactly Float.exactlyRepresentablePowersOfTen[k].toModel (10 ^ k) := by
  obtain ⟨hm, hfull, hfit, hlog, hbits⟩ := powersOfTen_table ⟨k, hk⟩
  dsimp only at hm hfull hfit hlog hbits
  have hc : Canonical (powerSignificand k) (((10 ^ k).log2 : Int) - 52) :=
    ⟨by omega, hfit, by omega, by omega, Or.inl hfull⟩
  refine ⟨_, _, hc.pos, unpack_of_bits hc ?_, hfull, ?_⟩
  · change Float.exactlyRepresentablePowersOfTen[k].toModel.toBits.toNat = _ at hbits
    rw [signBit]
    omega
  · have hq : (powerSignificand k : ℚ) * 2 ^ (10 ^ k).log2 = 10 ^ k * 2 ^ 52 := by exact_mod_cast hm
    rw [zpow_sub₀ two_ne_zero, ← mul_div_assoc, zpow_natCast, hq]
    field_simp

theorem mul_of_exactly {f g : Float.Model} {v w : ℚ} {m : Nat} {e : Int} (hf : Exactly f v)
    (hg : Exactly g w) (hc : Canonical m e) (hv : (around m e).Contains (v * w)) :
    f * g = Float.Model.pack (.finite .positive m e hc.pos) := by
  obtain ⟨m₁, e₁, h₁, hf, hfull₁, rfl⟩ := hf
  obtain ⟨m₂, e₂, h₂, hg, hfull₂, rfl⟩ := hg
  have hfull : 2 ^ 52 ≤ m₁ * m₂ := hfull₁.trans (Nat.le_mul_of_pos_right m₁ h₂)
  change Float.Model.pack (mul Format.binary64 f.unpack g.unpack) = _
  rw [hf, hg, mul_eq h₁ h₂ hfull hc hv]

theorem div_of_exactly {f g : Float.Model} {v w : ℚ} {m : Nat} {e : Int} (hf : Exactly f v)
    (hg : Exactly g w) (hc : Canonical m e) (hv : (around m e).Contains (v / w)) :
    f / g = Float.Model.pack (.finite .positive m e hc.pos) := by
  obtain ⟨m₁, e₁, h₁, hf, -, rfl⟩ := hf
  obtain ⟨m₂, e₂, h₂, hg, -, rfl⟩ := hg
  change Float.Model.pack (div Format.binary64 f.unpack g.unpack) = _
  rw [hf, hg, div_eq h₁ h₂ hc hv]

section Bounds

variable {m n : Nat} {e k : Int}

theorem exponent_le (hn : 0 < n) (hc : Canonical m e) (hv : (around m e).Contains (n * 10 ^ k)) :
    k ≤ 2048 := by
  refine Int.not_lt.mp fun hk => ?_
  have hn' : (1 : ℚ) ≤ n := by exact_mod_cast hn
  have hlt := (lt_two_zpow_iff _ e 53).mp (lt_of_contains hv hc.pos hc.lt)
  have hpow : (2 : ℚ) ^ k ≤ 10 ^ k := zpow_le_zpow_left₀ (by omega) (by norm_num) (by norm_num)
  have hle : (2 : ℚ) ^ k ≤ n * 10 ^ k := by
    nlinarith [zpow_pos (show (0 : ℚ) < 10 by norm_num) k]
  have h := (zpow_lt_zpow_iff_right₀ (one_lt_two (α := ℚ))).mp (hle.trans_lt hlt)
  have hhigh := hc.high
  push_cast at h
  omega

theorem le_exponent (hc : Canonical m e) (hv : (around m e).Contains (n * 10 ^ k)) :
    -(2048 + n.log2) ≤ k := by
  refine Int.not_lt.mp fun hk => ?_
  have hm : (1 : ℚ) ≤ m := by exact_mod_cast hc.pos
  have hle : (2 : ℚ) ^ (e - 1) ≤ n * 10 ^ k := by
    have h := (nearest_of_contains hv hc.pos).le
    have hhalf : (2 : ℚ) ^ (e - 1) = 1 / 2 * 2 ^ e := by
      rw [zpow_sub₀ two_ne_zero, zpow_one]
      ring
    rw [hhalf, ← le_div_iff₀ (by positivity)]
    linarith
  have hn' : (n : ℚ) < 2 ^ (n.log2 + 1) := by exact_mod_cast Nat.lt_log2_self
  have hpow : (10 : ℚ) ^ k ≤ 2 ^ k := by
    have h : (2 : ℚ) ^ (-k) ≤ 10 ^ (-k) :=
      zpow_le_zpow_left₀ (by omega) (by norm_num) (by norm_num)
    rw [zpow_neg, zpow_neg] at h
    exact (inv_le_inv₀ (by positivity) (by positivity)).mp h
  have hlt : (n * 10 ^ k : ℚ) < 2 ^ ((n.log2 + 1 : Nat) + k : Int) :=
    calc (n * 10 ^ k : ℚ) < 2 ^ (n.log2 + 1) * 10 ^ k := by
          exact mul_lt_mul_of_pos_right hn' (by positivity)
      _ ≤ 2 ^ (n.log2 + 1) * 2 ^ k := mul_le_mul_of_nonneg_left hpow (by positivity)
      _ = 2 ^ ((n.log2 + 1 : Nat) + k : Int) := by rw [zpow_add₀ two_ne_zero, zpow_natCast]
  have h := (zpow_lt_zpow_iff_right₀ (one_lt_two (α := ℚ))).mp (hle.trans_lt hlt)
  have hlow := hc.low
  push_cast at h
  omega

end Bounds

theorem ofScientific_eq {m n : Nat} {e k : Int} (hn : 0 < n) (hc : Canonical m e)
    (hv : (around m e).Contains (n * 10 ^ k)) :
    UnpackedFloat.ofScientific Format.binary64 n k = .finite .positive m e hc.pos := by
  have hle := exponent_le hn hc hv
  have hge := le_exponent hc hv
  have hnotLarge : ¬k > 2 ^ Format.binary64.exponentBits := Int.not_lt.mpr hle
  have hnotSmall : ¬k < -(2 ^ Format.binary64.exponentBits + (n.log2 : Int)) := Int.not_lt.mpr hge
  rw [UnpackedFloat.ofScientific, dif_neg hn.ne', if_neg hnotLarge, if_neg hnotSmall]
  split
  next hk =>
    have hvalue : (n * 10 ^ k : ℚ) =
        (n <<< 53 : Nat) * 2 ^ (-53 : Int) * ((10 ^ k.toNat : Nat) * 2 ^ (0 : Int)) := by
      have hpow : (10 : ℚ) ^ k = 10 ^ k.toNat := by
        rw [← zpow_natCast, Int.toNat_of_nonneg hk]
      rw [Nat.shiftLeft_eq, hpow, zpow_neg]
      push_cast
      field_simp
    have hfull : 2 ^ 52 ≤ n <<< 53 * 10 ^ k.toNat := by
      rw [Nat.shiftLeft_eq]
      have hten : 0 < 10 ^ k.toNat := Nat.pow_pos (by decide)
      have h := Nat.le_mul_of_pos_right (n * 2 ^ 53) hten
      omega
    rw [hvalue] at hv
    exact mul_eq _ _ hfull hc hv
  next hk =>
    have hvalue : (n * 10 ^ k : ℚ) =
        (n : Nat) * 2 ^ (0 : Int) / ((10 ^ (-k).toNat : Nat) * 2 ^ (0 : Int)) := by
      have hpow : (10 : ℚ) ^ k = (10 ^ (-k).toNat)⁻¹ := by
        rw [← zpow_natCast, Int.toNat_of_nonneg (by omega), zpow_neg, inv_inv]
      rw [hpow]
      push_cast
      rw [mul_one, mul_one, div_eq_mul_inv]
    rw [hvalue] at hv
    exact div_eq _ _ hc hv

end Double

namespace Decimal

open Decimal.Rounding (around)
open Double (Canonical)
open Float.Model (Format)

/-- The number as a rational one. -/
def value (d : Decimal) : ℚ :=
  d.digits * 10 ^ d.exponent

theorem toFloat_of_not_exact {d : Decimal} (h : ¬(d.digits < 2 ^ 53 ∧ d.exponent.natAbs ≤ 22)) :
    d.toFloat = .ofModel (.pack (.ofScientific Format.binary64 d.digits d.exponent)) := by
  have hexp : (if decide (d.exponent < 0) then Int.negOfNat d.exponent.natAbs
      else Int.ofNat d.exponent.natAbs) = d.exponent := by
    split
    next hneg =>
      rw [decide_eq_true_eq] at hneg
      rw [Int.negOfNat_eq, Int.ofNat_eq_natCast]
      omega
    next hneg =>
      rw [decide_eq_true_eq] at hneg
      rw [Int.ofNat_eq_natCast]
      omega
  rw [toFloat, Float.ofScientific, dif_neg h]
  simp only [hexp]
  rfl

/-- A decimal number in the interval of a double is read as this double. -/
theorem toModel_toFloat {d : Decimal} {m : Nat} {e : Int} (hc : Canonical m e)
    (hv : (around m e).Contains d.value) :
    d.toFloat.toModel = .pack (.finite .positive m e hc.pos) := by
  have hpos : 0 < d.digits := by
    refine Nat.pos_of_ne_zero fun hzero => ?_
    have hvpos := Double.pos_of_contains hv hc.pos
    simp [value, hzero] at hvpos
  by_cases h : d.digits < 2 ^ 53 ∧ d.exponent.natAbs ≤ 22
  · have hdigits := Double.exactly_ofNat hpos h.1
    have hpower := Double.exactly_powerOfTen (k := d.exponent.natAbs) (Nat.lt_succ_of_le h.2)
    rw [toFloat, Float.ofScientific, dif_pos h]
    dsimp only
    split
    next hneg =>
      rw [decide_eq_true_eq] at hneg
      refine Double.div_of_exactly hdigits hpower hc ?_
      have hexp : (10 : ℚ) ^ d.exponent = (10 ^ d.exponent.natAbs)⁻¹ := by
        rw [← zpow_natCast, ← zpow_neg]
        congr 1
        omega
      rw [div_eq_mul_inv, ← hexp]
      exact hv
    next hneg =>
      rw [decide_eq_true_eq] at hneg
      refine Double.mul_of_exactly hdigits hpower hc ?_
      have hexp : (10 : ℚ) ^ d.exponent = 10 ^ d.exponent.natAbs := by
        rw [← zpow_natCast]
        congr 1
        omega
      rw [← hexp]
      exact hv
  · rw [toFloat_of_not_exact h, Double.ofScientific_eq hpos hc hv]

end Decimal

end BlendPlot
