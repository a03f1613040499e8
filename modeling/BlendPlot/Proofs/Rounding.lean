import BlendPlot.Proofs.Doubles

namespace BlendPlot

namespace Decimal.Rounding

/-- The numbers that round to `m * 2 ^ e`. -/
def around (m : Nat) (e : Int) : Rounding where
  low := if m = 2 ^ 52 ∧ -1074 < e then 4 * m - 1 else 4 * m - 2
  middle := 4 * m
  high := 4 * m + 2
  exponent := e - 2
  closed := m % 2 = 0

structure Contains (r : Rounding) (v : ℚ) : Prop where
  low : r.low ≤ v / 2 ^ r.exponent
  high : v / 2 ^ r.exponent ≤ r.high
  inside : r.closed = false → r.low < v / 2 ^ r.exponent ∧ v / 2 ^ r.exponent < r.high

end Decimal.Rounding

namespace Double

open Decimal.Rounding (around)
open Float.Model (Format UnpackedFloat totalExponent)
open Float.Model.UnpackedFloat

/-- The worth of a round bit. -/
def half (roundBit : Bool) : ℚ :=
  if roundBit then 1 / 2 else 0

/-- The part `rest` of the number lies beyond the round bit; the sticky bit tells of it. -/
def Keeps (em : ExtendedMantissa) (v : ℚ) : Prop :=
  ∃ rest : ℚ, v = em.mantissa + half em.roundBit + rest ∧ 0 ≤ rest ∧ rest < 1 / 2 ∧
    (em.stickyBit ↔ 0 < rest)

/-- The whole number nearest to a rational number, of two the even one. -/
structure Nearest (v : ℚ) (m : Nat) : Prop where
  le : m - 1 / 2 ≤ v
  ge : v ≤ m + 1 / 2
  odd : m % 2 = 1 → m - 1 / 2 < v ∧ v < m + 1 / 2

theorem Nearest.unique {v : ℚ} {m n : Nat} (hm : Nearest v m) (hn : Nearest v n) : m = n := by
  have no_gap {m n : Nat} (hm : Nearest v m) (hn : Nearest v n) : ¬m < n := by
    intro hlt
    have hle : ((m : ℚ) + 1) ≤ n := by exact_mod_cast hlt
    have hge := hm.ge
    have hle' := hn.le
    have hnext : n = m + 1 := by
      have hq : (n : ℚ) ≤ m + 1 := by linarith
      have hn' : n ≤ m + 1 := by exact_mod_cast hq
      omega
    rcases Nat.mod_two_eq_zero_or_one m with heven | hodd
    · have hodd' := hn.odd (by omega)
      linarith [hodd'.1]
    · have hodd' := hm.odd hodd
      linarith [hodd'.2]
  have h1 := no_gap hm hn
  have h2 := no_gap hn hm
  omega

theorem Nearest.mono {v w : ℚ} {m n : Nat} (hm : Nearest v m) (hn : Nearest w n) (hle : v ≤ w) :
    m ≤ n := by
  by_contra hlt
  have hq : ((n + 1 : Nat) : ℚ) ≤ m := by exact_mod_cast Nat.lt_of_not_le hlt
  push_cast at hq
  have hsame : v = w := by linarith [hm.le, hn.ge]
  subst hsame
  exact hlt (hm.unique hn).le

theorem half_eq_zero_or (roundBit : Bool) :
    (roundBit = false ∧ half roundBit = 0) ∨ (roundBit = true ∧ half roundBit = 1 / 2) := by
  cases roundBit <;> simp [half]

theorem half_mod_two (m : Nat) : half (m % 2 != 0) = (m % 2 : Nat) / 2 := by
  rcases Nat.mod_two_eq_zero_or_one m with h | h <;> simp [half, h]

theorem Keeps.shiftRightOne {em : ExtendedMantissa} {v : ℚ} (h : Keeps em v) :
    Keeps em.shiftRightOne (v / 2) := by
  obtain ⟨rest, hv, hpos, hlt, hsticky⟩ := h
  have hsplit : (em.mantissa : ℚ) = 2 * (em.mantissa / 2 : Nat) + (em.mantissa % 2 : Nat) := by
    exact_mod_cast (Nat.div_add_mod em.mantissa 2).symm
  refine ⟨half em.roundBit / 2 + rest / 2, ?_, ?_, ?_, ?_⟩
  · simp only [ExtendedMantissa.shiftRightOne]
    rw [half_mod_two, hv]
    linarith
  · rcases half_eq_zero_or em.roundBit with ⟨-, hh⟩ | ⟨-, hh⟩ <;> rw [hh] <;> linarith
  · rcases half_eq_zero_or em.roundBit with ⟨-, hh⟩ | ⟨-, hh⟩ <;> rw [hh] <;> linarith
  · simp only [ExtendedMantissa.shiftRightOne, Bool.or_eq_true, hsticky]
    rcases half_eq_zero_or em.roundBit with ⟨hr, hh⟩ | ⟨hr, hh⟩ <;> rw [hh, hr]
    · simp
    · simp only [true_or, true_iff]
      linarith

theorem Keeps.shiftRight {em : ExtendedMantissa} {v : ℚ} (h : Keeps em v) (n : Nat) :
    Keeps (em >>> n) (v / 2 ^ n) := by
  change Keeps (n.repeat ExtendedMantissa.shiftRightOne em) _
  induction n with
  | zero => simpa [Nat.repeat] using h
  | succ n ih =>
    have hstep := ih.shiftRightOne
    rw [div_div, ← pow_succ] at hstep
    exact hstep

/-- Rounding to even delivers the nearest whole number. -/
theorem Keeps.nearest {em : ExtendedMantissa} {v : ℚ} (h : Keeps em v) :
    Nearest v em.roundedMantissa := by
  obtain ⟨rest, hv, hpos, hlt, hsticky⟩ := h
  obtain ⟨m, roundBit, stickyBit⟩ := em
  dsimp only at hv hsticky
  cases roundBit <;> cases stickyBit <;>
    simp only [half, Bool.false_eq_true, if_true, if_false, true_iff, false_iff,
      not_lt] at hv hsticky
  · change Nearest v m
    exact ⟨by linarith, by linarith, fun _ => ⟨by linarith, by linarith⟩⟩
  · change Nearest v m
    exact ⟨by linarith, by linarith, fun _ => ⟨by linarith, by linarith⟩⟩
  · change Nearest v (m + m % 2)
    rcases Nat.mod_two_eq_zero_or_one m with hm | hm <;> rw [hm]
    · exact ⟨by push_cast; linarith, by push_cast; linarith, by omega⟩
    · exact ⟨by push_cast; linarith, by push_cast; linarith, by omega⟩
  · change Nearest v (m + 1)
    exact ⟨by push_cast; linarith, by push_cast; linarith,
      fun _ => ⟨by push_cast; linarith, by push_cast; linarith⟩⟩

theorem keeps_exact (m : Nat) : Keeps (ExtendedMantissa.ofMantissaAndAccuracy m .exact) m :=
  ⟨0, by simp [ExtendedMantissa.ofMantissaAndAccuracy, half], le_refl 0, by norm_num, by
    simp [ExtendedMantissa.ofMantissaAndAccuracy]⟩

theorem keeps_quotient (m : Nat) {d : Nat} (hd : 0 < d) :
    Keeps (ExtendedMantissa.ofMantissaAndAccuracy (m / d) (accuracyOfFraction (m % d) d))
      (m / d : ℚ) := by
  have hdq : (0 : ℚ) < d := by exact_mod_cast hd
  have hsplit : (m : ℚ) / d = (m / d : Nat) + (m % d : Nat) / d := by
    have h : (m : ℚ) = d * (m / d : Nat) + (m % d : Nat) := by
      exact_mod_cast (Nat.div_add_mod m d).symm
    field_simp
    linarith
  have hmod : ((m % d : Nat) : ℚ) < d := by exact_mod_cast Nat.mod_lt m hd
  rw [hsplit, accuracyOfFraction]
  split
  next hz =>
    rw [hz]
    simpa using keeps_exact (m / d)
  next hz =>
    have hpos : (0 : ℚ) < (m % d : Nat) := by exact_mod_cast Nat.pos_of_ne_zero hz
    have hfrac : (0 : ℚ) < (m % d : Nat) / d := by positivity
    cases hc : compare (2 * (m % d)) d with
    | lt =>
      have hlt : (2 * (m % d : Nat) : ℚ) < d := by exact_mod_cast Nat.compare_eq_lt.mp hc
      refine ⟨(m % d : Nat) / d, ?_, hfrac.le, ?_, ?_⟩
      · simp [ExtendedMantissa.ofMantissaAndAccuracy, half]
      · rw [div_lt_iff₀ hdq]
        linarith
      · simpa [ExtendedMantissa.ofMantissaAndAccuracy] using hfrac
    | eq =>
      have heq : (2 * (m % d : Nat) : ℚ) = d := by exact_mod_cast Nat.compare_eq_eq.mp hc
      refine ⟨0, ?_, le_refl 0, by norm_num, ?_⟩
      · simp only [ExtendedMantissa.ofMantissaAndAccuracy, half, if_true, add_zero]
        rw [add_right_inj, div_eq_div_iff hdq.ne' two_ne_zero]
        linarith
      · simp [ExtendedMantissa.ofMantissaAndAccuracy]
    | gt =>
      have hgt : (d : ℚ) < 2 * (m % d : Nat) := by exact_mod_cast Nat.compare_eq_gt.mp hc
      have hhalf : (1 / 2 : ℚ) < (m % d : Nat) / d := by
        rw [lt_div_iff₀ hdq]
        linarith
      refine ⟨(m % d : Nat) / d - 1 / 2, ?_, by linarith, ?_, ?_⟩
      · simp only [ExtendedMantissa.ofMantissaAndAccuracy, half, if_true]
        ring
      · rw [sub_lt_iff_lt_add, div_lt_iff₀ hdq]
        linarith
      · simp only [ExtendedMantissa.ofMantissaAndAccuracy, true_iff]
        linarith

theorem shiftToTargetExponent_eq (m : Nat) (e : Int) (acc : Accuracy) :
    shiftToTargetExponent Format.binary64 m e acc =
      (ExtendedMantissa.ofMantissaAndAccuracy m acc >>>
          (max (m.log2 + 1 + e - 53) (-1074) - e).toNat,
        e + (max (m.log2 + 1 + e - 53) (-1074) - e).toNat) :=
  rfl

theorem mantissa_ofMantissaAndAccuracy (m : Nat) (acc : Accuracy) :
    (ExtendedMantissa.ofMantissaAndAccuracy m acc).mantissa = m := by
  unfold ExtendedMantissa.ofMantissaAndAccuracy
  split <;> rfl

theorem Keeps.mantissa_le {em : ExtendedMantissa} {v : ℚ} (h : Keeps em v) :
    (em.mantissa : ℚ) ≤ v ∧ v < em.mantissa + 1 := by
  obtain ⟨rest, rfl, hpos, hlt, -⟩ := h
  rcases half_eq_zero_or em.roundBit with ⟨-, hh⟩ | ⟨-, hh⟩ <;> rw [hh] <;>
    constructor <;> linarith

theorem lt_two_zpow_iff (v : ℚ) (e : Int) (n : Nat) : v / 2 ^ e < 2 ^ n ↔ v < 2 ^ (n + e) := by
  rw [div_lt_iff₀ (by positivity), zpow_add₀ two_ne_zero, zpow_natCast]

theorem two_zpow_le_iff (v : ℚ) (e : Int) (n : Nat) : 2 ^ n ≤ v / 2 ^ e ↔ 2 ^ (n + e) ≤ v := by
  rw [le_div_iff₀ (by positivity), zpow_add₀ two_ne_zero, zpow_natCast]

/-- The nearest multiple of a power of two that leaves 53 bits, or of the least one. -/
structure RoundsTo (v : ℚ) (n : Nat) (e : Int) : Prop where
  nearest : Nearest (v / 2 ^ e) n
  low : -1074 ≤ e
  fits : v / 2 ^ e < 2 ^ 53
  full : 2 ^ 52 ≤ v / 2 ^ e ∨ e = -1074

namespace RoundsTo

variable {v w : ℚ} {m n : Nat} {d e : Int}

theorem le_two_pow (h : RoundsTo v n e) : n ≤ 2 ^ 53 := by
  have hlt : (n : ℚ) < (2 ^ 53 + 1 : Nat) := by
    push_cast
    linarith [h.nearest.le, h.fits]
  have hlt' : n < 2 ^ 53 + 1 := by exact_mod_cast hlt
  omega

theorem two_pow_le (h : RoundsTo v n e) (he : -1074 < e) : 2 ^ 52 ≤ n := by
  have hfull := h.full.resolve_right he.ne'
  have hlt : ((2 ^ 52 : Nat) : ℚ) < (n + 1 : Nat) := by
    push_cast
    linarith [h.nearest.ge]
  have hlt' : 2 ^ 52 < n + 1 := by exact_mod_cast hlt
  omega

theorem exponent_mono (hv : RoundsTo v m d) (hw : RoundsTo w n e) (hle : v ≤ w) : d ≤ e := by
  by_contra hlt
  have hd : -1074 < d := by
    have hlow := hw.low
    omega
  have hv' := (two_zpow_le_iff v d 52).mp (hv.full.resolve_right hd.ne')
  have hw' := (lt_two_zpow_iff w e 53).mp hw.fits
  have hpow : (2 : ℚ) ^ ((52 : Nat) + d : Int) < 2 ^ ((53 : Nat) + e : Int) := by linarith
  have h := (zpow_lt_zpow_iff_right₀ (one_lt_two (α := ℚ))).mp hpow
  push_cast at h
  omega

theorem mono (hv : RoundsTo v m d) (hw : RoundsTo w n e) (hle : v ≤ w) :
    (m : ℚ) * 2 ^ d ≤ n * 2 ^ e := by
  rcases (hv.exponent_mono hw hle).eq_or_lt with rfl | hlt
  · have hmn : (m : ℚ) ≤ n := by
      exact_mod_cast hv.nearest.mono hw.nearest (div_le_div_of_nonneg_right hle (by positivity))
    exact mul_le_mul_of_nonneg_right hmn (by positivity)
  · have hm : (m : ℚ) ≤ 2 ^ 53 := by exact_mod_cast hv.le_two_pow
    have hn : (2 ^ 52 : ℚ) ≤ n := by exact_mod_cast hw.two_pow_le (hv.low.trans_lt hlt)
    calc (m : ℚ) * 2 ^ d ≤ 2 ^ 53 * 2 ^ d := mul_le_mul_of_nonneg_right hm (by positivity)
      _ = 2 ^ 52 * 2 ^ (d + 1) := by rw [zpow_add_one₀ two_ne_zero]; ring
      _ ≤ 2 ^ 52 * 2 ^ e :=
          mul_le_mul_of_nonneg_left (zpow_le_zpow_right₀ one_le_two hlt) (by positivity)
      _ ≤ n * 2 ^ e := mul_le_mul_of_nonneg_right hn (by positivity)

theorem unique (hm : RoundsTo v m d) (hn : RoundsTo v n e) : m = n ∧ d = e := by
  obtain rfl := (hm.exponent_mono hn le_rfl).antisymm (hn.exponent_mono hm le_rfl)
  exact ⟨hm.nearest.unique hn.nearest, rfl⟩

theorem eq_zero (h : RoundsTo 0 n e) : n = 0 := by
  have hlt : (n : ℚ) < (1 : Nat) := by
    have hle := h.nearest.le
    rw [zero_div] at hle
    push_cast
    linarith
  have hlt' : n < 1 := by exact_mod_cast hlt
  omega

end RoundsTo

/-- A significand with one bit more than fits carries over. -/
def carried (s : Sign) (n : Nat) (e : Int) : UnpackedFloat :=
  if h : n = 0 then .zero s
  else if n < 2 ^ 53 then .finite s n e (Nat.pos_of_ne_zero h)
  else .finite s (2 ^ 52) (e + 1) (by decide)

theorem roundWithAccuracy_eq_carried (s : Sign) {M : Nat} {e e₀ : Int} {acc : Accuracy}
    {em : ExtendedMantissa} (hshift : shiftToTargetExponent Format.binary64 M e₀ acc = (em, e))
    (hle : em.roundedMantissa ≤ 2 ^ 53) (hlow : -1074 ≤ e) :
    roundWithAccuracy Format.binary64 s M e₀ acc = carried s em.roundedMantissa e := by
  have hsecond := shiftToTargetExponent_eq em.roundedMantissa e .exact
  rw [roundWithAccuracy]
  generalize hn : em.roundedMantissa = n at hle hsecond
  by_cases hfit : n < 2 ^ 53
  · have hstay : (max ((n.log2 : Int) + 1 + e - 53) (-1074) - e).toNat = 0 := by
      rcases n.eq_zero_or_pos with rfl | hpos
      · have hlog : Nat.log2 0 = 0 := by decide
        omega
      · have hlog := (Nat.log2_lt hpos.ne').mpr hfit
        omega
    rw [hstay, Int.natCast_zero, Int.add_zero] at hsecond
    simp only [hshift, hn, hsecond, carried, hfit, if_true]
    rfl
  · obtain rfl : n = 2 ^ 53 := by omega
    have hone : (max (((2 ^ 53 : Nat).log2 : Int) + 1 + e - 53) (-1074) - e).toNat = 1 := by
      rw [Nat.log2_two_pow]
      omega
    rw [hone] at hsecond
    simp only [hshift, hn, hsecond]
    rfl

/-- Rounding delivers what the number is rounded to, if enough bits of it are known. -/
theorem exists_roundsTo {M : Nat} {e₀ : Int} {acc : Accuracy} {v : ℚ}
    (hk : Keeps (ExtendedMantissa.ofMantissaAndAccuracy M acc) (v / 2 ^ e₀))
    (henough : e₀ ≤ -1074 ∨ 2 ^ 52 ≤ M) :
    ∃ n e, RoundsTo v n e ∧ ∀ s, roundWithAccuracy Format.binary64 s M e₀ acc = carried s n e := by
  obtain ⟨hle, hlt⟩ := hk.mantissa_le
  rw [mantissa_ofMantissaAndAccuracy] at hle hlt
  have hlog : 2 ^ 52 ≤ M → 52 ≤ M.log2 := fun h => (Nat.le_log2 (by omega)).mpr h
  have hfit : e₀ ≤ max (M.log2 + 1 + e₀ - 53) (-1074) := by omega
  have hshift := shiftToTargetExponent_eq M e₀ acc
  generalize ht : max ((M.log2 : Int) + 1 + e₀ - 53) (-1074) = t at hfit hshift
  have hexp : e₀ + ((t - e₀).toNat : Int) = t := by omega
  have hcut : v / 2 ^ e₀ / 2 ^ (t - e₀).toNat = v / 2 ^ t := by
    rw [div_div, ← zpow_natCast, ← zpow_add₀ two_ne_zero, hexp]
  have hround := (hk.shiftRight (t - e₀).toNat).nearest
  rw [hcut] at hround
  rw [hexp] at hshift
  have hto : RoundsTo v
      (ExtendedMantissa.ofMantissaAndAccuracy M acc >>> (t - e₀).toNat).roundedMantissa t := by
    refine ⟨hround, by omega, ?_, ?_⟩
    · have hM : ((M + 1 : Nat) : ℚ) ≤ (2 ^ (M.log2 + 1) : Nat) := by
        exact_mod_cast Nat.lt_log2_self
      push_cast at hM
      have hv := (lt_two_zpow_iff v e₀ (M.log2 + 1)).mp (hlt.trans_le hM)
      refine (lt_two_zpow_iff v t 53).mpr (hv.trans_le (zpow_le_zpow_right₀ one_le_two ?_))
      push_cast
      omega
    · by_cases hleast : t = -1074
      · exact Or.inr hleast
      · have hpos : 0 < M := by
          refine Nat.pos_of_ne_zero ?_
          rintro rfl
          have hzero : Nat.log2 0 = 0 := by decide
          omega
        have hM : ((2 ^ M.log2 : Nat) : ℚ) ≤ M := by exact_mod_cast Nat.log2_self_le hpos.ne'
        push_cast at hM
        have hv := (two_zpow_le_iff v e₀ M.log2).mp (hM.trans hle)
        refine Or.inl ((two_zpow_le_iff v t 52).mpr (le_trans (zpow_le_zpow_right₀ one_le_two ?_) hv))
        push_cast
        omega
  exact ⟨_, t, hto, fun s => roundWithAccuracy_eq_carried s hshift hto.le_two_pow hto.low⟩

section Around

variable {m : Nat} {e : Int} {v : ℚ} (hv : (around m e).Contains v)

theorem div_exponent (e : Int) (v : ℚ) : v / 2 ^ (e - 2) = 4 * (v / 2 ^ e) := by
  rw [zpow_sub₀ two_ne_zero]
  field_simp
  norm_num

theorem around_low_le (m : Nat) (e : Int) : 4 * m - 2 ≤ (around m e).low := by
  simp only [around]
  split <;> omega

include hv

theorem nearest_of_contains (hm : 0 < m) : Nearest (v / 2 ^ e) m := by
  have hscale : v / 2 ^ (around m e).exponent = 4 * (v / 2 ^ e) := div_exponent e v
  have hlow : ((4 * m - 2 : Nat) : ℚ) ≤ (around m e).low := by exact_mod_cast around_low_le m e
  have hsub : ((4 * m - 2 : Nat) : ℚ) = 4 * m - 2 := by
    rw [Nat.cast_sub (by omega)]
    push_cast
    ring
  have hhigh : (((around m e).high : Nat) : ℚ) = 4 * m + 2 := by simp [around]
  have hl := hv.low
  have hh := hv.high
  refine ⟨by linarith, by linarith, fun hodd => ?_⟩
  have hclosed : (around m e).closed = false := by simp [around, hodd]
  obtain ⟨hl', hh'⟩ := hv.inside hclosed
  constructor <;> linarith

/-- Below the least significand of a binade the grid is twice as fine. -/
theorem nearest_of_contains_below (hm : m = 2 ^ 52) (he : -1074 < e) (hlt : v / 2 ^ e < m) :
    Nearest (v / 2 ^ (e - 1)) (2 ^ 53) := by
  have hscale : v / 2 ^ (around m e).exponent = 4 * (v / 2 ^ e) := div_exponent e v
  have htwice : v / 2 ^ (e - 1) = 2 * (v / 2 ^ e) := by
    rw [zpow_sub₀ two_ne_zero]
    field_simp
  have hlow : (((around m e).low : Nat) : ℚ) = 2 ^ 54 - 1 := by
    simp only [around]
    rw [if_pos ⟨hm, he⟩, hm]
    norm_num
  have hl := hv.low
  have hm' : (m : ℚ) = 2 ^ 52 := by exact_mod_cast hm
  refine ⟨?_, ?_, by norm_num⟩ <;> push_cast <;> linarith

theorem pos_of_contains (hm : 0 < m) : 0 < v := by
  have hle := (nearest_of_contains hv hm).le
  have hm' : (1 : ℚ) ≤ m := by exact_mod_cast hm
  have hquot : 0 < v / 2 ^ e := by linarith
  exact (div_pos_iff_of_pos_right (by positivity)).mp hquot

theorem lt_of_contains (hm : 0 < m) (hlt : m < 2 ^ 53) : v / 2 ^ e < 2 ^ 53 := by
  have hle := (nearest_of_contains hv hm).ge
  have hm' : ((m + 1 : Nat) : ℚ) ≤ (2 ^ 53 : Nat) := by exact_mod_cast hlt
  push_cast at hm'
  linarith

end Around

/-- Below the binade of the double a number may be rounded to the bound of the finer grid. -/
theorem roundsTo_of_contains {m : Nat} {e : Int} {v : ℚ} (hc : Canonical m e)
    (hv : (around m e).Contains v) :
    RoundsTo v m e ∨ (m = 2 ^ 52 ∧ RoundsTo v (2 ^ 53) (e - 1)) := by
  have hnearest := nearest_of_contains hv hc.pos
  by_cases hfull : 2 ^ 52 ≤ v / 2 ^ e ∨ e = -1074
  · exact Or.inl ⟨hnearest, hc.low, lt_of_contains hv hc.pos hc.lt, hfull⟩
  · rw [not_or, not_le] at hfull
    have he : -1074 < e := by
      have hlow := hc.low
      omega
    have hm : m = 2 ^ 52 := by
      have hmin := hc.full.resolve_right hfull.2
      have hq : (m : ℚ) < (2 ^ 52 + 1 : Nat) := by
        push_cast
        linarith [hnearest.le]
      have hmax : m < 2 ^ 52 + 1 := by exact_mod_cast hq
      omega
    have hbelow : v / 2 ^ e < m := by
      rw [hm]
      push_cast
      exact hfull.1
    have htwice : v / 2 ^ (e - 1) = 2 * (v / 2 ^ e) := by
      rw [zpow_sub₀ two_ne_zero]
      field_simp
    have hmin : (2 ^ 52 : ℚ) - 1 / 2 ≤ v / 2 ^ e := by
      have hle := hnearest.le
      rw [hm] at hle
      exact_mod_cast hle
    refine Or.inr ⟨hm, nearest_of_contains_below hv hm he hbelow, by omega, ?_, Or.inl ?_⟩
    · linarith [hfull.1]
    · linarith

theorem roundWithAccuracy_eq (s : Sign) {m M : Nat} {e e₀ : Int} {acc : Accuracy} {v : ℚ}
    (hc : Canonical m e) (hv : (around m e).Contains v)
    (hk : Keeps (ExtendedMantissa.ofMantissaAndAccuracy M acc) (v / 2 ^ e₀))
    (henough : e₀ ≤ -1074 ∨ 2 ^ 52 ≤ M) :
    roundWithAccuracy Format.binary64 s M e₀ acc = .finite s m e hc.pos := by
  obtain ⟨n, t, hto, heq⟩ := exists_roundsTo hk henough
  rw [heq]
  rcases roundsTo_of_contains hc hv with hsame | ⟨rfl, hfine⟩
  · obtain ⟨rfl, rfl⟩ := hto.unique hsame
    rw [carried, dif_neg hc.pos.ne', if_pos hc.lt]
  · obtain ⟨rfl, rfl⟩ := hto.unique hfine
    have hexp : e - 1 + 1 = e := by omega
    simp only [carried, hexp]
    rfl

end Double

end BlendPlot
