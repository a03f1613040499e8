import BlendPlot.Proofs.Signs

namespace BlendPlot.Decimal

open Decimal.Rounding (around)
open Double (Canonical signBit)
open Float.Model.UnpackedFloat

namespace Rounding

theorem ofBits_eq {f : Float.Model} {s : Sign} {m : Nat} {e : Int} {hm : 0 < m}
    (h : f.unpack = .finite s m e hm) : ofBits f.toBits.toNat = around m e := by
  obtain ⟨hc, hbits⟩ := Double.unpack_eq_finite h
  have hlt := hc.lt
  have hlow := hc.low
  have hhigh := hc.high
  by_cases hfull : 2 ^ 52 ≤ m
  · have hfraction : f.toBits.toNat % 2 ^ 52 = m - 2 ^ 52 := by omega
    have hbinade : f.toBits.toNat / 2 ^ 52 % 2 ^ 11 = (e + 1075).toNat := by omega
    have hzero : (e + 1075).toNat ≠ 0 := by omega
    have hsignificand : 2 ^ 52 + (m - 2 ^ 52) = m := by omega
    have hnear : (m - 2 ^ 52 = 0 ∧ 1 < (e + 1075).toNat) ↔ (m = 2 ^ 52 ∧ -1074 < e) := by omega
    have hexponent : ((max (e + 1075).toNat 1 : Nat) : Int) - 1077 = e - 2 := by omega
    simp only [ofBits, Nat.pow_eq, around, hfraction, hbinade, if_neg hzero, hsignificand, hnear,
      hexponent]
  · have he : e = -1074 := hc.full.resolve_left hfull
    have hfraction : f.toBits.toNat % 2 ^ 52 = m := by omega
    have hbinade : f.toBits.toNat / 2 ^ 52 % 2 ^ 11 = 0 := by omega
    have hnear : (m = 0 ∧ 1 < 0) ↔ (m = 2 ^ 52 ∧ -1074 < e) := by omega
    have hexponent : ((max 0 1 : Nat) : Int) - 1077 = e - 2 := by omega
    simp only [ofBits, Nat.pow_eq, around, hfraction, hbinade, if_true, hnear, hexponent]

/-- The factor by which scale and step both exceed what they stand for. -/
def factor (r : Rounding) (p : Int) : ℚ :=
  10 ^ (-p).toNat * 2 ^ (-r.exponent).toNat

theorem factor_pos (r : Rounding) (p : Int) : 0 < r.factor p := by
  unfold factor
  positivity

theorem zpow_toNat {b : ℚ} (hb : b ≠ 0) (a : Int) : b ^ a.toNat = b ^ a * b ^ (-a).toNat := by
  rw [← zpow_natCast, ← zpow_natCast, ← zpow_add₀ hb]
  congr 1
  omega

theorem scale_def (r : Rounding) (p : Int) :
    r.scale p = 2 ^ r.exponent.toNat * 10 ^ (-p).toNat := rfl

theorem step_def (r : Rounding) (p : Int) :
    r.step p = 10 ^ p.toNat * 2 ^ (-r.exponent).toNat := rfl

theorem scale_eq (r : Rounding) (p : Int) : (r.scale p : ℚ) = 2 ^ r.exponent * r.factor p := by
  rw [scale_def, factor]
  push_cast
  rw [zpow_toNat two_ne_zero]
  ring

theorem step_eq (r : Rounding) (p : Int) : (r.step p : ℚ) = 10 ^ p * r.factor p := by
  rw [step_def, factor]
  push_cast
  rw [zpow_toNat (by norm_num : (10 : ℚ) ≠ 0)]
  ring

theorem le_on_grid (r : Rounding) (p : Int) (a n : Nat) :
    a * r.scale p ≤ n * r.step p ↔ (a : ℚ) ≤ n * 10 ^ p / 2 ^ r.exponent := by
  have hf := r.factor_pos p
  rw [← Nat.cast_le (α := ℚ), le_div_iff₀ (by positivity)]
  push_cast
  rw [scale_eq, step_eq, ← mul_assoc, ← mul_assoc, mul_le_mul_iff_left₀ hf]

theorem ge_on_grid (r : Rounding) (p : Int) (a n : Nat) :
    n * r.step p ≤ a * r.scale p ↔ n * 10 ^ p / 2 ^ r.exponent ≤ (a : ℚ) := by
  have hf := r.factor_pos p
  rw [← Nat.cast_le (α := ℚ), div_le_iff₀ (by positivity)]
  push_cast
  rw [scale_eq, step_eq, ← mul_assoc, ← mul_assoc, mul_le_mul_iff_left₀ hf]

/-- The test of the search is the interval. -/
theorem contains_of_holds {r : Rounding} {p : Int} {n : Nat} (h : r.holds p n) :
    r.Contains (n * 10 ^ p) := by
  unfold holds at h
  dsimp only at h
  split at h
  next hclosed =>
    rw [Bool.and_eq_true, decide_eq_true_eq, decide_eq_true_eq, le_on_grid, ge_on_grid] at h
    exact ⟨h.1, h.2, fun hopen => by rw [hclosed] at hopen; cases hopen⟩
  next hopen =>
    rw [Bool.and_eq_true, decide_eq_true_eq, decide_eq_true_eq, ← Nat.not_le, ← Nat.not_le,
      ge_on_grid, le_on_grid, not_le, not_le] at h
    exact ⟨h.1.le, h.2.le, fun _ => h⟩

theorem holds_of_onGrid {tie : Tie} {r : Rounding} {p : Int} {n : Nat}
    (h : r.onGrid tie p = some n) : r.holds p n := by
  unfold onGrid at h
  dsimp only at h
  split at h
  next => cases h
  next hbelow _ => cases h; exact hbelow
  next _ habove => cases h; exact habove
  next hbelow habove =>
    split at h
    · cases h; exact hbelow
    · split at h
      · cases h; exact habove
      · split at h
        · cases h; exact habove
        · cases h
          split
          · exact hbelow
          · exact habove

theorem value_finest (r : Rounding) :
    ((r.middle * r.scale r.finest / r.step r.finest : Nat) : ℚ) * 10 ^ r.finest =
      r.middle * 2 ^ r.exponent := by
  have hdvd : r.step r.finest ∣ r.scale r.finest := by
    rcases Int.le_total 0 r.exponent with h | h
    · have hstep : r.step r.finest = 1 := by
        rw [step_def, finest, Int.min_eq_right h, Int.toNat_eq_zero.mpr (by omega),
          Int.toNat_eq_zero.mpr (by omega), pow_zero, pow_zero, one_mul]
      rw [hstep]
      exact one_dvd _
    · have hfine : r.finest = r.exponent := Int.min_eq_left h
      rw [hfine, step_def, scale_def, Int.toNat_eq_zero.mpr h, pow_zero, pow_zero, one_mul, one_mul]
      exact pow_dvd_pow_of_dvd (by norm_num) _
  obtain ⟨c, hc⟩ := hdvd
  have hpos : 0 < r.step r.finest := by
    rw [step_def]
    positivity
  have hquot : r.middle * r.scale r.finest / r.step r.finest = r.middle * c := by
    rw [hc, Nat.mul_left_comm, Nat.mul_div_cancel_left _ hpos]
  have hscale : (r.scale r.finest : ℚ) = r.step r.finest * c := by exact_mod_cast hc
  rw [scale_eq, step_eq] at hscale
  have hf := r.factor_pos r.finest
  have hexact : (2 : ℚ) ^ r.exponent = 10 ^ r.finest * c := by
    refine mul_right_cancel₀ hf.ne' ?_
    rw [hscale]
    ring
  rw [hquot, hexact]
  push_cast
  ring

theorem contains_search {m : Nat} {e : Int} (hm : 0 < m) (tie : Tie) (k : Nat) :
    (around m e).Contains ((around m e).search tie k).value := by
  induction k with
  | zero =>
    have hvalue : ((around m e).search tie 0).value = m * 2 ^ e := by
      have hquarter :
          (((around m e).middle : Nat) : ℚ) * 2 ^ (around m e).exponent = m * 2 ^ e := by
        simp only [around]
        rw [zpow_sub₀ two_ne_zero]
        push_cast
        field_simp
      exact (value_finest (around m e)).trans hquarter
    rw [hvalue]
    exact Double.contains_self e hm
  | succ k ih =>
    rw [search]
    split
    next n hn => exact contains_of_holds (holds_of_onGrid hn)
    next => exact ih

end Rounding

theorem beq_zero_of_zero {x : Float} {s : Sign} (h : x.toModel.unpack = .zero s) :
    (x == 0) = true := by
  have hzero : (0 : Float).toModel.unpack = .zero .positive := Double.unpack_pack_zero .positive
  change x.toModel.unpack.beq (0 : Float).toModel.unpack = true
  rw [h, hzero]
  rfl

theorem beq_zero_of_finite {x : Float} {s : Sign} {m : Nat} {e : Int} {hm : 0 < m}
    (h : x.toModel.unpack = .finite s m e hm) : (x == 0) = false := by
  have hzero : (0 : Float).toModel.unpack = .zero .positive := Double.unpack_pack_zero .positive
  change x.toModel.unpack.beq (0 : Float).toModel.unpack = false
  rw [h, hzero]
  cases s <;> rfl

theorem contains_shortest {x : Float} {s : Sign} {m : Nat} {e : Int} {hm : 0 < m}
    (h : x.toModel.unpack = .finite s m e hm) (tie : Tie) :
    Canonical m e ∧ (around m e).Contains (shortest tie x).value := by
  have hbits : Rounding.ofBits x.abs.toBits.toNat = around m e :=
    Rounding.ofBits_eq (Double.abs_of_finite h)
  refine ⟨(Double.unpack_eq_finite h).1, ?_⟩
  rw [shortest, beq_zero_of_finite h]
  simp only [Bool.false_eq_true, if_false, hbits]
  exact Rounding.contains_search hm tie _

theorem shortest_digits_pos {x : Float} (hf : x.isFinite) (tie : Tie) :
    0 < (shortest tie x).digits ∨ (shortest tie x).exponent = 0 := by
  rcases Double.finite_cases hf with ⟨s, hx⟩ | ⟨s, m, e, hm, hx⟩
  · rw [shortest, beq_zero_of_zero hx, if_pos rfl]
    exact Or.inr rfl
  · refine Or.inl (Nat.pos_of_ne_zero fun hzero => ?_)
    obtain ⟨-, hv⟩ := contains_shortest hx tie
    have hpos := Double.pos_of_contains hv hm
    simp [value, hzero] at hpos

/-- A number equal to the shortest decimal of a double is read as the magnitude of the double. -/
theorem toFloat_of_value_eq_shortest {x : Float} (hf : x.isFinite) {tie : Tie} {d : Decimal}
    (hd : d.value = (shortest tie x).value) : d.toFloat = x.abs := by
  rcases Double.finite_cases hf with ⟨s, hx⟩ | ⟨s, m, e, hm, hx⟩
  · rw [shortest, beq_zero_of_zero hx, if_pos rfl] at hd
    have hdigits : d.digits = 0 := by
      simpa [value, zpow_ne_zero] using hd
    exact Double.eq_of_unpack_zero (unpack_toFloat_of_zero hdigits) (Double.abs_of_zero hx)
  · obtain ⟨hc, hv⟩ := contains_shortest hx tie
    rw [← hd] at hv
    refine Double.eq_of_unpack_finite ?_ (Double.abs_of_finite hx)
    rw [toModel_toFloat hc hv]
    exact Double.unpack_pack .positive hc

end BlendPlot.Decimal
