import BlendPlot.Proofs.Nearest

namespace BlendPlot.Double

open Float.Model (Format UnpackedFloat)
open Float.Model.UnpackedFloat

theorem nearest_self (n : Nat) : Nearest (n : ℚ) n :=
  ⟨by linarith, by linarith, fun _ => ⟨by linarith, by linarith⟩⟩

theorem roundsTo_zero : RoundsTo 0 0 (-1074) := by
  refine ⟨?_, le_refl _, by simp, Or.inr rfl⟩
  simpa using nearest_self 0

theorem Canonical.roundsTo {m : Nat} {e : Int} (h : Canonical m e) :
    RoundsTo (m * 2 ^ e) m e := by
  have hquot : (m : ℚ) * 2 ^ e / 2 ^ e = m := by
    rw [mul_div_assoc, div_self (by positivity), mul_one]
  refine ⟨?_, h.low, ?_, h.full.imp_left fun hfull => ?_⟩ <;> rw [hquot]
  · exact nearest_self m
  · exact_mod_cast h.lt
  · exact_mod_cast hfull

def signed : Sign → ℚ → ℚ
  | .positive, v => v
  | .negative, v => -v

def unpackedValue : UnpackedFloat → ℚ
  | .finite s m e _ => signed s (m * 2 ^ e)
  | .zero _ | .infinity _ | .notANumber => 0

/-- The number that a double stands for; zero where it is not finite. -/
def value (x : Float) : ℚ :=
  unpackedValue x.toModel.unpack

theorem unpack_pack_infinity (s : Sign) :
    (Float.Model.pack (.infinity s)).unpack = .infinity s := by
  cases s <;> rfl

theorem unpackedValue_carried (s : Sign) {n : Nat} {e : Int} (h : n ≤ 2 ^ 53) :
    unpackedValue (carried s n e) = signed s (n * 2 ^ e) := by
  rw [carried]
  split
  next hzero => cases s <;> simp [hzero, unpackedValue, signed]
  next =>
    split
    next => rfl
    next hfit =>
      obtain rfl : n = 2 ^ 53 := by omega
      have hpow : ((2 ^ 52 : Nat) : ℚ) * 2 ^ (e + 1) = (2 ^ 53 : Nat) * 2 ^ e := by
        rw [zpow_add_one₀ two_ne_zero]
        push_cast
        ring
      rw [unpackedValue, hpow]

/-- Half a unit past the largest double, which is `(2 ^ 53 - 1) * 2 ^ 971`. -/
def overflow : ℚ :=
  (2 ^ 53 - 1 / 2) * 2 ^ (971 : Int)

namespace RoundsTo

variable {v w : ℚ} {m n : Nat} {d e : Int}

theorem lt_two_pow_iff (h : RoundsTo v n e) :
    (n : ℚ) * 2 ^ e < 2 ^ 53 * 2 ^ (971 : Int) ↔ e ≤ 970 ∨ e = 971 ∧ n < 2 ^ 53 := by
  rcases lt_trichotomy e 971 with he | rfl | he
  · refine iff_of_true ?_ (Or.inl (by omega))
    have hn : (n : ℚ) ≤ 2 ^ 53 := by exact_mod_cast h.le_two_pow
    have hpow : (2 : ℚ) ^ e < 2 ^ (971 : Int) := zpow_lt_zpow_right₀ one_lt_two he
    calc (n : ℚ) * 2 ^ e ≤ 2 ^ 53 * 2 ^ e := mul_le_mul_of_nonneg_right hn (by positivity)
      _ < 2 ^ 53 * 2 ^ (971 : Int) := mul_lt_mul_of_pos_left hpow (by positivity)
  · rw [mul_lt_mul_iff_left₀ (by positivity)]
    have hcast : (n : ℚ) < 2 ^ 53 ↔ n < 2 ^ 53 := by exact_mod_cast Iff.rfl
    rw [hcast]
    omega
  · refine iff_of_false (not_lt.mpr ?_) (by omega)
    have hn : (2 ^ 52 : ℚ) ≤ n := by exact_mod_cast h.two_pow_le (by omega)
    have hpow : (2 : ℚ) ^ (971 + 1 : Int) ≤ 2 ^ e := zpow_le_zpow_right₀ one_le_two (by omega)
    calc (2 : ℚ) ^ 53 * 2 ^ (971 : Int) = 2 ^ 52 * 2 ^ (971 + 1 : Int) := by
          rw [zpow_add_one₀ two_ne_zero]
          ring
      _ ≤ (n : ℚ) * 2 ^ e := mul_le_mul hn hpow (by positivity) (by positivity)

theorem lt_overflow_iff (h : RoundsTo v n e) :
    (n : ℚ) * 2 ^ e < 2 ^ 53 * 2 ^ (971 : Int) ↔ v < overflow := by
  rw [h.lt_two_pow_iff, overflow, ← div_lt_iff₀ (by positivity)]
  rcases lt_trichotomy e 971 with he | rfl | he
  · refine iff_of_true (Or.inl (by omega)) ?_
    have hv := (lt_two_zpow_iff v e 53).mp h.fits
    have hpow : (2 : ℚ) ^ ((53 : Nat) + e : Int) ≤ 2 ^ ((52 : Nat) + 971 : Int) :=
      zpow_le_zpow_right₀ one_le_two (by push_cast; omega)
    have hless := (lt_two_zpow_iff v 971 52).mpr (hv.trans_le hpow)
    linarith
  · have hnearest := h.nearest
    constructor
    · intro hfit
      have hlt : n < 2 ^ 53 := by omega
      rcases (Nat.le_sub_one_of_lt hlt).eq_or_lt with heq | hless
      · have hodd := (hnearest.odd (by omega)).2
        have hn : (n : ℚ) = 2 ^ 53 - 1 := by
          rw [heq]
          norm_num
        linarith
      · have hn : ((n + 2 : Nat) : ℚ) ≤ (2 ^ 53 : Nat) := by
          norm_cast
          omega
        push_cast at hn
        linarith [hnearest.ge]
    · intro hlt
      have hn : (n : ℚ) < (2 ^ 53 : Nat) := by
        push_cast
        linarith [hnearest.le]
      exact Or.inr ⟨rfl, by exact_mod_cast hn⟩
  · refine iff_of_false (by omega) (not_lt.mpr ?_)
    have hv := (two_zpow_le_iff v e 52).mp (h.full.resolve_right (by omega))
    have hpow : (2 : ℚ) ^ ((53 : Nat) + 971 : Int) ≤ 2 ^ ((52 : Nat) + e : Int) :=
      zpow_le_zpow_right₀ one_le_two (by push_cast; omega)
    have hmore := (two_zpow_le_iff v 971 53).mpr (hpow.trans hv)
    linarith

theorem unpack_pack_carried (h : RoundsTo v n e) (s : Sign) (hv : v < overflow) :
    (Float.Model.pack (carried s n e)).unpack = carried s n e := by
  have hlow := h.low
  have hle := h.le_two_pow
  have hfull := h.two_pow_le
  have hhigh := h.lt_two_pow_iff.mp (h.lt_overflow_iff.mpr hv)
  rw [carried]
  split
  next => exact unpack_pack_zero s
  next hzero =>
    split
    next hfit => exact unpack_pack s ⟨by omega, hfit, hlow, by omega, by omega⟩
    next => exact unpack_pack s ⟨by omega, by omega, by omega, by omega, by omega⟩

theorem unpack_pack_carried_of_le (h : RoundsTo v n e) (s : Sign) (hv : overflow ≤ v) :
    (Float.Model.pack (carried s n e)).unpack = .infinity s := by
  have hlarge : ¬(e ≤ 970 ∨ e = 971 ∧ n < 2 ^ 53) := by
    rw [← h.lt_two_pow_iff, h.lt_overflow_iff]
    exact not_lt.mpr hv
  have hmax := h.le_two_pow
  have hfull := h.two_pow_le
  have hpack {m : Nat} {t : Int} (hm : 0 < m) (ht : 971 < t) :
      (Float.Model.pack (.finite s m t hm)).unpack = .infinity s := by
    rw [← unpack_pack_infinity]
    refine congrArg Float.Model.unpack (toBits_inj ?_)
    change (UnpackedFloat.pack Format.binary64 _).toNat = _
    rw [pack_finite, if_pos (by omega)]
    rfl
  rw [carried, dif_neg (by omega)]
  split
  next => exact hpack _ (by omega)
  next => exact hpack _ (by omega)

end RoundsTo

theorem abs_signed (s : Sign) {v : ℚ} (hv : 0 ≤ v) : |signed s v| = v := by
  cases s with
  | positive => exact abs_of_nonneg hv
  | negative => rw [signed, abs_neg, abs_of_nonneg hv]

/-- The number is rounded to another one, as if no number were too large. -/
def RoundsToValue (q r : ℚ) : Prop :=
  ∃ s n e, RoundsTo |q| n e ∧ q = signed s |q| ∧ r = signed s (n * 2 ^ e)

theorem RoundsToValue.mono {q q' r r' : ℚ} (h : RoundsToValue q r) (h' : RoundsToValue q' r')
    (hle : q ≤ q') : r ≤ r' := by
  obtain ⟨s, n, e, hn, hq, rfl⟩ := h
  obtain ⟨s', n', e', hn', hq', rfl⟩ := h'
  have hpos : (0 : ℚ) ≤ n * 2 ^ e := by positivity
  have hpos' : (0 : ℚ) ≤ n' * 2 ^ e' := by positivity
  have habs := abs_nonneg q
  have habs' := abs_nonneg q'
  cases s <;> cases s' <;> simp only [signed] at hq hq' ⊢
  case positive.positive => exact hn.mono hn' (by linarith)
  case negative.negative =>
    have h := hn'.mono hn (by linarith)
    linarith
  case negative.positive => linarith
  case positive.negative =>
    -- both numbers are zero
    have hzero : |q| = 0 := by linarith
    have hzero' : |q'| = 0 := by linarith
    rw [hzero] at hn
    rw [hzero'] at hn'
    simp [hn.eq_zero, hn'.eq_zero]

/-- The double is what the number is rounded to; it is infinite if that is too large. -/
def Rounds (q : ℚ) (x : Float) : Prop :=
  ∃ s n e, RoundsTo |q| n e ∧ q = signed s |q| ∧ x.toModel = .pack (carried s n e)

namespace Rounds

variable {q q' : ℚ} {x x' : Float}

theorem unpack_cases (h : Rounds q x) :
    (|q| < overflow ∧ x.isFinite ∧ RoundsToValue q (value x)) ∨
      overflow ≤ |q| ∧ ∃ s, x.toModel.unpack = .infinity s := by
  obtain ⟨s, n, e, hn, hq, hx⟩ := h
  rcases lt_or_ge |q| overflow with hlt | hge
  · have hunpack := hn.unpack_pack_carried s hlt
    rw [← hx] at hunpack
    refine Or.inl ⟨hlt, ?_, s, n, e, hn, hq, ?_⟩
    · change x.toModel.unpack.isFinite
      rw [hunpack, carried]
      split
      · rfl
      · split <;> rfl
    · rw [value, hunpack, unpackedValue_carried s hn.le_two_pow]
  · have hunpack := hn.unpack_pack_carried_of_le s hge
    rw [← hx] at hunpack
    exact Or.inr ⟨hge, s, hunpack⟩

theorem isFinite_iff (h : Rounds q x) : x.isFinite ↔ |q| < overflow := by
  rcases h.unpack_cases with ⟨hlt, hx, -⟩ | ⟨hge, s, hx⟩
  · exact iff_of_true hx hlt
  · exact iff_of_false (Bool.eq_false_iff.mp (isFinite_of_infinity hx)) (not_lt.mpr hge)

theorem not_isNaN (h : Rounds q x) : ¬x.isNaN := by
  rcases h.unpack_cases with ⟨-, hx, -⟩ | ⟨-, s, hx⟩
  · simpa using not_isNaN_of_isFinite hx
  · exact Bool.eq_false_iff.mp (isNaN_of_infinity hx)

theorem roundsToValue (h : Rounds q x) (hx : x.isFinite) : RoundsToValue q (value x) := by
  rcases h.unpack_cases with ⟨-, -, hvalue⟩ | ⟨hge, -⟩
  · exact hvalue
  · exact absurd (h.isFinite_iff.mp hx) (not_lt.mpr hge)

theorem mono (h : Rounds q x) (h' : Rounds q' x') (hx : x.isFinite) (hx' : x'.isFinite)
    (hle : q ≤ q') : value x ≤ value x' :=
  (h.roundsToValue hx).mono (h'.roundsToValue hx') hle

end Rounds

theorem value_of_zero {x : Float} {s : Sign} (h : x.toModel.unpack = .zero s) : value x = 0 := by
  rw [value, h, unpackedValue]

theorem value_of_finite {x : Float} {s : Sign} {m : Nat} {e : Int} {hm : 0 < m}
    (h : x.toModel.unpack = .finite s m e hm) : value x = signed s (m * 2 ^ e) := by
  rw [value, h, unpackedValue]

theorem unpack_zero : (0 : Float).toModel.unpack = .zero .positive := rfl

theorem unpack_one : (1 : Float).toModel.unpack = .finite .positive (2 ^ 52) (-52) (by decide) := rfl

theorem isFinite_zero : (0 : Float).isFinite := rfl

theorem isFinite_one : (1 : Float).isFinite := rfl

theorem value_zero : value 0 = 0 := value_of_zero unpack_zero

theorem value_one : value 1 = 1 := by
  rw [value_of_finite unpack_one, signed]
  norm_num

theorem rounds_zero (s : Sign) : Rounds 0 (.ofModel (.pack (.zero s))) := by
  refine ⟨s, 0, -1074, ?_, ?_, rfl⟩
  · rw [abs_zero]
    exact roundsTo_zero
  · cases s <;> simp [signed]

theorem rounds_finite (s : Sign) {m : Nat} {e : Int} (h : Canonical m e) :
    Rounds (signed s (m * 2 ^ e)) (.ofModel (.pack (.finite s m e h.pos))) := by
  have habs : |signed s ((m : ℚ) * 2 ^ e)| = m * 2 ^ e := abs_signed s (by positivity)
  refine ⟨s, m, e, ?_, ?_, ?_⟩
  · rw [habs]
    exact h.roundsTo
  · rw [habs]
  · rw [carried, dif_neg h.pos.ne', if_pos h.lt]

theorem rounds_value {x : Float} (hx : x.isFinite) : Rounds (value x) x := by
  rcases finite_cases hx with ⟨s, h⟩ | ⟨s, m, e, hm, h⟩
  · have hself : x = .ofModel (.pack (.zero s)) := toModel_inj (pack_unpack_zero h).symm
    rw [value_of_zero h, hself]
    exact rounds_zero s
  · have hself : x = .ofModel (.pack (.finite s m e hm)) := toModel_inj (pack_unpack h).symm
    rw [value_of_finite h, hself]
    exact rounds_finite s (unpack_eq_finite h).1

theorem abs_value_le {x : Float} (hx : x.isFinite) : |value x| ≤ (2 ^ 53 - 1) * 2 ^ (971 : Int) := by
  rcases finite_cases hx with ⟨s, h⟩ | ⟨s, m, e, hm, h⟩
  · rw [value_of_zero h, abs_zero]
    exact mul_nonneg (by norm_num) (by positivity)
  · obtain ⟨hc, -⟩ := unpack_eq_finite h
    have hlt : ((m + 1 : Nat) : ℚ) ≤ (2 ^ 53 : Nat) := Nat.cast_le.mpr hc.lt
    have hpow : (2 : ℚ) ^ e ≤ 2 ^ (971 : Int) := zpow_le_zpow_right₀ one_le_two hc.high
    push_cast at hlt
    rw [value_of_finite h, abs_signed s (by positivity)]
    exact mul_le_mul (by linarith) hpow (by positivity) (by norm_num)

theorem abs_value_lt {x : Float} (hx : x.isFinite) : |value x| < overflow :=
  (rounds_value hx).isFinite_iff.mp hx

namespace Rounds

variable {q : ℚ} {x lo hi : Float}

/-- What lies between two numbers that are rounded to finite doubles is rounded between them. -/
theorem squeeze {q₁ q₂ : ℚ} (h : Rounds q x) (h₁ : Rounds q₁ lo) (h₂ : Rounds q₂ hi)
    (hlo : lo.isFinite) (hhi : hi.isFinite) (hle : q₁ ≤ q) (hge : q ≤ q₂) :
    x.isFinite ∧ value lo ≤ value x ∧ value x ≤ value hi := by
  have hx : x.isFinite := by
    refine h.isFinite_iff.mpr (abs_lt.mpr ⟨?_, ?_⟩)
    · exact (neg_lt_of_abs_lt (h₁.isFinite_iff.mp hlo)).trans_le hle
    · exact hge.trans_lt (lt_of_abs_lt (h₂.isFinite_iff.mp hhi))
  exact ⟨hx, h₁.mono h hlo hx hle, h.mono h₂ hx hhi hge⟩

theorem between (h : Rounds q x) (hlo : lo.isFinite) (hhi : hi.isFinite) (hle : value lo ≤ q)
    (hge : q ≤ value hi) : x.isFinite ∧ value lo ≤ value x ∧ value x ≤ value hi :=
  h.squeeze (rounds_value hlo) (rounds_value hhi) hlo hhi hle hge

theorem value_eq {y : Float} (h : Rounds (value y) x) (hy : y.isFinite) :
    x.isFinite ∧ value x = value y := by
  obtain ⟨hx, hle, hge⟩ := h.between hy hy le_rfl le_rfl
  exact ⟨hx, le_antisymm hge hle⟩

/-- A part of a finite double lies between zero and that double. -/
theorem scaled {d : Float} {r : ℚ} (h : Rounds (value d * r) x) (hd : d.isFinite) (hnonneg : 0 ≤ r)
    (hle : r ≤ 1) : x.isFinite ∧ value x ∈ Set.uIcc 0 (value d) := by
  rcases le_total 0 (value d) with hd' | hd'
  · have hbetween := h.between isFinite_zero hd
    rw [value_zero] at hbetween
    rw [Set.uIcc_of_le hd']
    exact hbetween (mul_nonneg hd' hnonneg) (mul_le_of_le_one_right hd' hle)
  · have hbetween := h.between hd isFinite_zero
    rw [value_zero] at hbetween
    rw [Set.uIcc_of_ge hd']
    refine hbetween ?_ (mul_nonpos_of_nonpos_of_nonneg hd' hnonneg)
    calc value d = value d * 1 := (mul_one _).symm
      _ ≤ value d * r := mul_le_mul_of_nonpos_left hle hd'

end Rounds

end BlendPlot.Double
