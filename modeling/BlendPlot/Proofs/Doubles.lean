import BlendPlot.Decimal.Shortest
import Mathlib

namespace BlendPlot.Double

open Float.Model (Format UnpackedFloat)
open Float.Model.UnpackedFloat

/-- The significands and exponents of the finite doubles other than zero. -/
structure Canonical (m : Nat) (e : Int) : Prop where
  pos : 0 < m
  lt : m < 2 ^ 53
  low : -1074 ≤ e
  high : e ≤ 971
  full : 2 ^ 52 ≤ m ∨ e = -1074

def signBit : Sign → Nat
  | .positive => 0
  | .negative => 1

def signOf (bits : Nat) : Sign :=
  if bits / 2 ^ 63 % 2 = 0 then .positive else .negative

theorem unpackMantissa_toNat (b : BitVec 64) :
    (@unpackMantissa Format.binary64 b).toNat = b.toNat % 2 ^ 52 := by
  simp [unpackMantissa, BitVec.extractLsb_toNat]

theorem unpackExponent_toNat (b : BitVec 64) :
    (@unpackExponent Format.binary64 b).toNat = b.toNat / 2 ^ 52 % 2 ^ 11 := by
  simp [unpackExponent, BitVec.extractLsb_toNat, Nat.shiftRight_eq_div_pow]

theorem unpackSign_toNat (b : BitVec 64) :
    (@unpackSign Format.binary64 b).toNat = b.toNat / 2 ^ 63 % 2 := by
  simp [unpackSign, BitVec.extractLsb_toNat, Nat.shiftRight_eq_div_pow]

theorem ofBitVec_unpackSign (b : BitVec 64) :
    Sign.ofBitVec (@unpackSign Format.binary64 b) = signOf b.toNat := by
  have h := unpackSign_toNat b
  have hz : @unpackSign Format.binary64 b = 0#1 ↔ b.toNat / 2 ^ 63 % 2 = 0 := by
    rw [← h, ← BitVec.toNat_inj]
    rfl
  simp only [Sign.ofBitVec, signOf, hz]

theorem signBit_signOf (bits : Nat) : signBit (signOf bits) = bits / 2 ^ 63 % 2 := by
  rw [signOf]
  split
  next hs => rw [hs]; rfl
  next hs =>
    have hone : bits / 2 ^ 63 % 2 = 1 := by omega
    rw [hone]
    rfl

theorem signBit_eq (s : Sign) : s.toBitVec.toNat = signBit s := by
  cases s <;> rfl

theorem append_toNat {w v : Nat} (a : BitVec w) (b : BitVec v) :
    (a ++ b).toNat = a.toNat * 2 ^ v + b.toNat := by
  rw [BitVec.toNat_append, ← Nat.shiftLeft_add_eq_or_of_lt b.isLt, Nat.shiftLeft_eq]

theorem packComponents_toNat (s : Sign) (exponent : BitVec 11) (mantissa : BitVec 52) :
    (packComponents Format.binary64 s exponent mantissa).toNat =
      signBit s * 2 ^ 63 + exponent.toNat * 2 ^ 52 + mantissa.toNat := by
  change ((s.toBitVec ++ exponent) ++ mantissa).toNat = _
  rw [append_toNat, append_toNat, signBit_eq]
  omega

theorem pack_finite (s : Sign) {m : Nat} (e : Int) (hm : 0 < m) :
    UnpackedFloat.pack Format.binary64 (.finite s m e hm) =
      if 2 ^ 11 ≤ (e + 1075).toNat + 1 then packedInfinity Format.binary64 s
      else if m.log2 + 1 = 53 then
        packComponents Format.binary64 s (BitVec.ofNat 11 (e + 1075).toNat) (BitVec.ofNat 52 m)
      else packComponents Format.binary64 s 0#11 (BitVec.ofNat 52 m) := by
  have hbias : e + (1023 : Nat) + (52 : Nat) = e + 1075 := by omega
  rw [← hbias]
  rfl

theorem log2_eq_of_full {m : Nat} (hlt : m < 2 ^ 53) (hfull : 2 ^ 52 ≤ m) : m.log2 = 52 := by
  have h1 := (Nat.le_log2 (by omega)).mpr hfull
  have h2 := (Nat.log2_lt (by omega)).mpr hlt
  omega

theorem pack_toNat (s : Sign) {m : Nat} {e : Int} (h : Canonical m e) :
    (Float.Model.pack (.finite s m e h.pos)).toBits.toNat =
      signBit s * 2 ^ 63 + (e + 1074).toNat * 2 ^ 52 + m := by
  have hpos := h.pos
  have hlt := h.lt
  have hhigh := h.high
  have hlow := h.low
  change (UnpackedFloat.pack Format.binary64 (.finite s m e h.pos)).toNat = _
  rw [pack_finite, if_neg (by omega)]
  split
  next hlog =>
    have hfull : 2 ^ 52 ≤ m := (Nat.le_log2 (by omega)).mp (by omega)
    rw [packComponents_toNat, BitVec.toNat_ofNat, BitVec.toNat_ofNat]
    omega
  next hlog =>
    have hsub : m < 2 ^ 52 := by
      refine Nat.lt_of_not_le fun hfull => hlog ?_
      rw [log2_eq_of_full hlt hfull]
    have he : e = -1074 := h.full.resolve_left (Nat.not_le_of_lt hsub)
    rw [packComponents_toNat, BitVec.toNat_ofNat, he]
    simp
    omega

theorem unpack_eq (f : Float.Model) :
    f.unpack =
      let bits := f.toBits.toNat
      let fraction := bits % 2 ^ 52
      let binade := bits / 2 ^ 52 % 2 ^ 11
      if binade = 2 ^ 11 - 1 then
        if fraction = 0 then .infinity (signOf bits) else .notANumber
      else if binade = 0 then
        if h : fraction = 0 then .zero (signOf bits)
        else .finite (signOf bits) fraction (-1074) (Nat.pos_of_ne_zero h)
      else .finite (signOf bits) (2 ^ 52 + fraction) ((binade : Nat) - 1075) (by omega) := by
  have hfraction := unpackMantissa_toNat f.toBits.toBitVec
  have hbinade := unpackExponent_toNat f.toBits.toBitVec
  have hsign := ofBitVec_unpackSign f.toBits.toBitVec
  change _ = f.toBits.toNat % 2 ^ 52 at hfraction
  change _ = f.toBits.toNat / 2 ^ 52 % 2 ^ 11 at hbinade
  change _ = signOf f.toBits.toNat at hsign
  rw [Float.Model.unpack, UnpackedFloat.unpack]
  have hzero : @unpackMantissa Format.binary64 f.toBits.toBitVec = 0#52 ↔
      (@unpackMantissa Format.binary64 f.toBits.toBitVec).toNat = 0 := by
    rw [← BitVec.toNat_inj]
    rfl
  have hall : @unpackExponent Format.binary64 f.toBits.toBitVec = -1#11 ↔
      (@unpackExponent Format.binary64 f.toBits.toBitVec).toNat = 2 ^ 11 - 1 := by
    rw [← BitVec.toNat_inj]
    rfl
  have hnone : @unpackExponent Format.binary64 f.toBits.toBitVec = 0#11 ↔
      (@unpackExponent Format.binary64 f.toBits.toBitVec).toNat = 0 := by
    rw [← BitVec.toNat_inj]
    rfl
  simp only [hsign, ← hfraction, ← hbinade]
  split
  next he =>
    rw [if_pos (hall.mp he)]
    split
    next hm => rw [if_pos (hzero.mp hm)]
    next hm => rw [if_neg (mt hzero.mpr hm)]
  next he =>
    rw [if_neg (mt hall.mpr he)]
    split
    next he' =>
      rw [if_pos (hnone.mp he')]
      split
      next hm => rw [dif_pos (hzero.mp hm)]
      next hm =>
        rw [dif_neg (mt hzero.mpr hm)]
        have hexp : ((@unpackExponent Format.binary64 f.toBits.toBitVec).toNat : Int) -
            ((1023 : Nat) + (52 : Nat)) + 1 = -1074 := by
          rw [hnone.mp he']
          rfl
        congr 1
    next he' =>
      rw [if_neg (mt hnone.mpr he')]
      have hm := append_toNat 1#1 (@unpackMantissa Format.binary64 f.toBits.toBitVec)
      have hexp : ((@unpackExponent Format.binary64 f.toBits.toBitVec).toNat : Int) -
          ((1023 : Nat) + (52 : Nat)) =
          ((@unpackExponent Format.binary64 f.toBits.toBitVec).toNat : Int) - 1075 := by
        omega
      congr 1

theorem unpack_of_bits {f : Float.Model} {s : Sign} {m : Nat} {e : Int} (h : Canonical m e)
    (hbits : f.toBits.toNat = signBit s * 2 ^ 63 + (e + 1074).toNat * 2 ^ 52 + m) :
    f.unpack = .finite s m e h.pos := by
  have hlt := h.lt
  have hpos := h.pos
  have hlow := h.low
  have hhigh := h.high
  have hs : signOf f.toBits.toNat = s := by
    rw [hbits, signOf]
    cases s with
    | positive => rw [if_pos (by simp only [signBit]; omega)]
    | negative => rw [if_neg (by simp only [signBit]; omega)]
  have hsbit : signBit s ≤ 1 := by cases s <;> decide
  rw [unpack_eq]
  simp only [hs]
  rw [if_neg (by omega)]
  rcases h.full with hfull | he
  · rw [if_neg (by omega)]
    congr 1 <;> omega
  · subst he
    by_cases hfull : 2 ^ 52 ≤ m
    · rw [if_neg (by omega)]
      congr 1 <;> omega
    · rw [if_pos (by omega), dif_neg (by omega)]
      congr 1
      omega

theorem unpack_pack (s : Sign) {m : Nat} {e : Int} (h : Canonical m e) :
    (Float.Model.pack (.finite s m e h.pos)).unpack = .finite s m e h.pos :=
  unpack_of_bits h (pack_toNat s h)

theorem unpack_eq_finite {f : Float.Model} {s : Sign} {m : Nat} {e : Int} {hm : 0 < m}
    (h : f.unpack = .finite s m e hm) :
    Canonical m e ∧
      f.toBits.toNat = signBit s * 2 ^ 63 + (e + 1074).toNat * 2 ^ 52 + m := by
  have hbits : f.toBits.toNat < 2 ^ 64 := f.toBits.toNat_lt
  have hsign := signBit_signOf f.toBits.toNat
  rw [unpack_eq] at h
  dsimp only at h
  split at h
  · split at h <;> cases h
  · split at h
    · split at h
      · cases h
      · next hb hz =>
        obtain ⟨rfl, rfl, rfl⟩ := UnpackedFloat.finite.inj h
        refine ⟨⟨hm, by omega, by decide, by decide, Or.inr rfl⟩, ?_⟩
        rw [hsign]
        omega
    · next hb hz =>
      obtain ⟨rfl, rfl, rfl⟩ := UnpackedFloat.finite.inj h
      refine ⟨⟨hm, by omega, by omega, by omega, Or.inl (by omega)⟩, ?_⟩
      rw [hsign]
      omega

theorem toBits_inj {f g : Float.Model} (h : f.toBits.toNat = g.toBits.toNat) : f = g := by
  cases f
  cases g
  congr
  exact UInt64.toNat_inj.mp h

theorem pack_unpack {f : Float.Model} {s : Sign} {m : Nat} {e : Int} {hm : 0 < m}
    (h : f.unpack = .finite s m e hm) : Float.Model.pack (.finite s m e hm) = f := by
  obtain ⟨hc, hbits⟩ := unpack_eq_finite h
  exact toBits_inj ((pack_toNat s hc).trans hbits.symm)

theorem pack_zero_toNat (s : Sign) :
    (Float.Model.pack (.zero s)).toBits.toNat = signBit s * 2 ^ 63 := by
  change (packComponents Format.binary64 s 0#11 0#52).toNat = _
  rw [packComponents_toNat, BitVec.toNat_zero, BitVec.toNat_zero]
  omega

theorem unpack_eq_zero {f : Float.Model} {s : Sign} (h : f.unpack = .zero s) :
    f.toBits.toNat = signBit s * 2 ^ 63 := by
  have hbits : f.toBits.toNat < 2 ^ 64 := f.toBits.toNat_lt
  rw [unpack_eq] at h
  dsimp only at h
  split at h
  · split at h <;> cases h
  · split at h
    · split at h
      · next hb hz =>
        obtain rfl := UnpackedFloat.zero.inj h
        rw [signBit_signOf]
        omega
      · cases h
    · cases h

theorem pack_unpack_zero {f : Float.Model} {s : Sign} (h : f.unpack = .zero s) :
    Float.Model.pack (.zero s) = f :=
  toBits_inj ((pack_zero_toNat s).trans (unpack_eq_zero h).symm)

theorem unpack_pack_zero (s : Sign) : (Float.Model.pack (.zero s)).unpack = .zero s := by
  have hbits := pack_zero_toNat s
  have hs : signOf (signBit s * 2 ^ 63) = s := by cases s <;> rfl
  rw [unpack_eq]
  simp only [hbits, hs]
  rw [if_neg (by omega), if_pos (by omega), dif_pos (by omega)]

theorem unpack_eq_infinity {f : Float.Model} {s : Sign} (h : f.unpack = .infinity s) :
    f.toBits.toNat = signBit s * 2 ^ 63 + (2 ^ 11 - 1) * 2 ^ 52 := by
  have hbits : f.toBits.toNat < 2 ^ 64 := f.toBits.toNat_lt
  rw [unpack_eq] at h
  dsimp only at h
  split at h
  · split at h
    · next hb hz =>
      obtain rfl := UnpackedFloat.infinity.inj h
      rw [signBit_signOf]
      omega
    · cases h
  · split at h
    · split at h <;> cases h
    · cases h

theorem unpack_eq_notANumber {f : Float.Model} (h : f.unpack = .notANumber) :
    f.toBits.toBitVec = packedNaN Format.binary64 := by
  rw [Float.Model.unpack, UnpackedFloat.unpack] at h
  split at h
  next he =>
    split at h
    next => cases h
    next hm => exact f.valid.eq_packedNaN he hm
  next =>
    split at h
    · split at h <;> cases h
    · cases h

theorem isFinite_of_zero {x : Float} {s : Sign} (h : x.toModel.unpack = .zero s) : x.isFinite := by
  change x.toModel.unpack.isFinite
  rw [h]
  rfl

theorem isFinite_of_finite {x : Float} {s : Sign} {m : Nat} {e : Int} {hm : 0 < m}
    (h : x.toModel.unpack = .finite s m e hm) : x.isFinite := by
  change x.toModel.unpack.isFinite
  rw [h]
  rfl

theorem isFinite_of_infinity {x : Float} {s : Sign} (h : x.toModel.unpack = .infinity s) :
    x.isFinite = false := by
  change x.toModel.unpack.isFinite = false
  rw [h]
  rfl

theorem isNaN_of_infinity {x : Float} {s : Sign} (h : x.toModel.unpack = .infinity s) :
    x.isNaN = false := by
  change x.toModel.unpack.isNaN = false
  rw [h]
  rfl

theorem unpack_of_isNaN {x : Float} (h : x.isNaN) : x.toModel.unpack = .notANumber := by
  have hu : x.toModel.unpack.isNaN := h
  cases hx : x.toModel.unpack with
  | notANumber => rfl
  | infinity | zero | finite => rw [hx] at hu; cases hu

theorem finite_cases {x : Float} (h : x.isFinite) :
    (∃ s, x.toModel.unpack = .zero s) ∨ ∃ s m e hm, x.toModel.unpack = .finite s m e hm := by
  have hu : x.toModel.unpack.isFinite := h
  cases hx : x.toModel.unpack with
  | infinity s => rw [hx] at hu; cases hu
  | notANumber => rw [hx] at hu; cases hu
  | zero s => exact Or.inl ⟨s, rfl⟩
  | finite s m e hm => exact Or.inr ⟨s, m, e, hm, rfl⟩

theorem not_finite_cases {x : Float} (h : ¬x.isFinite) :
    x.isNaN ∨ ∃ s, x.toModel.unpack = .infinity s := by
  have hu : ¬x.toModel.unpack.isFinite := h
  cases hx : x.toModel.unpack with
  | infinity s => exact Or.inr ⟨s, rfl⟩
  | notANumber =>
    left
    change x.toModel.unpack.isNaN
    rw [hx]
    rfl
  | zero | finite =>
    rw [hx] at hu
    exact absurd rfl hu

end BlendPlot.Double

namespace BlendPlot

open Float.Model.UnpackedFloat

/-- Doubles without a sign. Negative zero has one. -/
def Unsigned (x : Float) : Prop :=
  x.toBits < 0x8000000000000000

theorem unsigned_iff (x : Float) : Unsigned x ↔ x.toModel.toBits.toNat < 2 ^ 63 :=
  UInt64.lt_iff_toNat_lt

theorem toModel_inj {x y : Float} (h : x.toModel = y.toModel) : x = y := by
  cases x
  cases y
  exact congrArg Float.ofModel h

namespace Double

theorem unsigned_iff_of_zero {x : Float} {s : Sign} (h : x.toModel.unpack = .zero s) :
    Unsigned x ↔ s = .positive := by
  rw [unsigned_iff, unpack_eq_zero h]
  cases s <;> simp [signBit]

theorem unsigned_iff_of_finite {x : Float} {s : Sign} {m : Nat} {e : Int} {hm : 0 < m}
    (h : x.toModel.unpack = .finite s m e hm) : Unsigned x ↔ s = .positive := by
  obtain ⟨hc, hbits⟩ := unpack_eq_finite h
  have hlt := hc.lt
  have hhigh := hc.high
  have hlow := hc.low
  rw [unsigned_iff, hbits]
  cases s with
  | positive =>
    refine iff_of_true ?_ rfl
    simp only [signBit]
    omega
  | negative =>
    refine iff_of_false ?_ nofun
    simp only [signBit]
    omega

theorem abs_of_zero {x : Float} {s : Sign} (h : x.toModel.unpack = .zero s) :
    x.abs.toModel.unpack = .zero .positive := by
  change (Float.Model.pack x.toModel.unpack.abs).unpack = _
  rw [h]
  exact unpack_pack_zero .positive

theorem abs_of_finite {x : Float} {s : Sign} {m : Nat} {e : Int} {hm : 0 < m}
    (h : x.toModel.unpack = .finite s m e hm) :
    x.abs.toModel.unpack = .finite .positive m e hm := by
  change (Float.Model.pack x.toModel.unpack.abs).unpack = _
  rw [h]
  exact unpack_pack .positive (unpack_eq_finite h).1

theorem eq_of_unpack_zero {x y : Float} {s : Sign} (hx : x.toModel.unpack = .zero s)
    (hy : y.toModel.unpack = .zero s) : x = y :=
  toModel_inj ((pack_unpack_zero hx).symm.trans (pack_unpack_zero hy))

theorem eq_of_unpack_finite {x y : Float} {s : Sign} {m : Nat} {e : Int} {hm : 0 < m}
    (hx : x.toModel.unpack = .finite s m e hm) (hy : y.toModel.unpack = .finite s m e hm) :
    x = y :=
  toModel_inj ((pack_unpack hx).symm.trans (pack_unpack hy))

theorem eq_of_unpack_infinity {x y : Float} {s : Sign} (hx : x.toModel.unpack = .infinity s)
    (hy : y.toModel.unpack = .infinity s) : x = y := by
  have hbits := (unpack_eq_infinity hx).trans (unpack_eq_infinity hy).symm
  exact toModel_inj (toBits_inj hbits)

end Double

theorem not_isNaN_of_isFinite {x : Float} (hf : x.isFinite) : x.isNaN = false := by
  change x.toModel.unpack.isNaN = false
  rcases Double.finite_cases hf with ⟨s, hx⟩ | ⟨s, m, e, hm, hx⟩ <;> rw [hx] <;> rfl

theorem eq_of_isNaN {x y : Float} (hx : x.isNaN) (hy : y.isNaN) : x = y := by
  have hbits := (Double.unpack_eq_notANumber (Double.unpack_of_isNaN hx)).trans
    (Double.unpack_eq_notANumber (Double.unpack_of_isNaN hy)).symm
  exact toModel_inj (Double.toBits_inj (congrArg BitVec.toNat hbits))

theorem abs_of_unsigned {x : Float} (hf : x.isFinite) (hs : Unsigned x) : x.abs = x := by
  rcases Double.finite_cases hf with ⟨s, hx⟩ | ⟨s, m, e, hm, hx⟩
  · obtain rfl := (Double.unsigned_iff_of_zero hx).mp hs
    exact Double.eq_of_unpack_zero (Double.abs_of_zero hx) hx
  · obtain rfl := (Double.unsigned_iff_of_finite hx).mp hs
    exact Double.eq_of_unpack_finite (Double.abs_of_finite hx) hx

theorem neg_abs_of_not_unsigned {x : Float} (hf : x.isFinite) (hs : ¬Unsigned x) :
    -x.abs = x := by
  rcases Double.finite_cases hf with ⟨s, hx⟩ | ⟨s, m, e, hm, hx⟩
  · cases s with
    | positive => exact absurd ((Double.unsigned_iff_of_zero hx).mpr rfl) hs
    | negative =>
      refine Double.eq_of_unpack_zero ?_ hx
      change (Float.Model.pack x.abs.toModel.unpack.neg).unpack = _
      rw [Double.abs_of_zero hx]
      exact Double.unpack_pack_zero .negative
  · cases s with
    | positive => exact absurd ((Double.unsigned_iff_of_finite hx).mpr rfl) hs
    | negative =>
      refine Double.eq_of_unpack_finite ?_ hx
      change (Float.Model.pack x.abs.toModel.unpack.neg).unpack = _
      rw [Double.abs_of_finite hx]
      exact Double.unpack_pack .negative (Double.unpack_eq_finite hx).1

end BlendPlot
