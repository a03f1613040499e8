import BlendPlot.Proofs.Nearest

namespace BlendPlot

namespace Double

open Float.Model (Format UnpackedFloat)
open Float.Model.UnpackedFloat

def Positive : UnpackedFloat → Prop
  | .infinity s => s = .positive
  | .notANumber => True
  | .zero s => s = .positive
  | .finite s _ _ _ => s = .positive

theorem positive_roundWithAccuracy (m : Nat) (e : Int) (acc : Accuracy) :
    Positive (roundWithAccuracy Format.binary64 .positive m e acc) := by
  rw [roundWithAccuracy]
  dsimp only
  split <;> rfl

theorem positive_mul {a b : UnpackedFloat} (ha : Positive a) (hb : Positive b) :
    Positive (mul Format.binary64 a b) := by
  cases a <;> cases b <;> simp only [Positive] at ha hb <;> subst_vars <;>
    first
    | exact trivial
    | exact positive_roundWithAccuracy _ _ _
    | rfl

theorem positive_div {a b : UnpackedFloat} (ha : Positive a) (hb : Positive b) :
    Positive (div Format.binary64 a b) := by
  cases a <;> cases b <;> simp only [Positive] at ha hb <;> subst_vars <;>
    first
    | exact trivial
    | exact positive_roundWithAccuracy _ _ _
    | rfl

theorem positive_ofNat (n : Nat) : Positive (UnpackedFloat.ofNat Format.binary64 n) := by
  rw [UnpackedFloat.ofNat, UnpackedFloat.ofInt, UnpackedFloat.normalize]
  split
  next h => exact absurd (Int.compare_eq_lt.mp h) (by omega)
  next => rfl
  next => exact positive_roundWithAccuracy _ _ _

theorem positive_ofScientific (n : Nat) (k : Int) :
    Positive (UnpackedFloat.ofScientific Format.binary64 n k) := by
  rw [UnpackedFloat.ofScientific]
  split
  · rfl
  · split
    · rfl
    · split
      · rfl
      · split
        · exact positive_mul rfl rfl
        · exact positive_div rfl rfl

theorem packComponents_lt (exponent : BitVec 11) (mantissa : BitVec 52) :
    (packComponents Format.binary64 .positive exponent mantissa).toNat < 2 ^ 63 := by
  have he := exponent.isLt
  have hm := mantissa.isLt
  rw [packComponents_toNat, signBit]
  omega

theorem pack_lt {u : UnpackedFloat} (h : Positive u) :
    (Float.Model.pack u).toBits.toNat < 2 ^ 63 := by
  change (UnpackedFloat.pack Format.binary64 u).toNat < 2 ^ 63
  cases u with
  | notANumber => exact packComponents_lt _ _
  | infinity s =>
    subst h
    exact packComponents_lt _ _
  | zero s =>
    subst h
    exact packComponents_lt _ _
  | finite s m e hm =>
    subst h
    rw [pack_finite]
    split
    · exact packComponents_lt _ _
    · split <;> exact packComponents_lt _ _

theorem positive_unpack {f : Float.Model} (h : f.toBits.toNat < 2 ^ 63) : Positive f.unpack := by
  have hs : signOf f.toBits.toNat = .positive := by
    rw [signOf, if_pos (by omega)]
  rw [unpack_eq]
  simp only [hs]
  split
  · split
    · rfl
    · trivial
  · split
    · split <;> rfl
    · rfl

theorem unpack_zero_mul {f g : Float.Model} {m : Nat} {e : Int} {hm : 0 < m}
    (hf : f.unpack = .zero .positive) (hg : g.unpack = .finite .positive m e hm) :
    (f * g).unpack = .zero .positive := by
  change (Float.Model.pack (mul Format.binary64 f.unpack g.unpack)).unpack = _
  rw [hf, hg]
  exact unpack_pack_zero .positive

theorem unpack_zero_div {f g : Float.Model} {m : Nat} {e : Int} {hm : 0 < m}
    (hf : f.unpack = .zero .positive) (hg : g.unpack = .finite .positive m e hm) :
    (f / g).unpack = .zero .positive := by
  change (Float.Model.pack (div Format.binary64 f.unpack g.unpack)).unpack = _
  rw [hf, hg]
  exact unpack_pack_zero .positive

end Double

open Float.Model (Format)
open Float.Model.UnpackedFloat

theorem unsigned_pack {u : Float.Model.UnpackedFloat} (h : Double.Positive u) :
    Unsigned (.ofModel (.pack u)) :=
  (unsigned_iff _).mpr (Double.pack_lt h)

theorem positive_of_unsigned {x : Float} (h : Unsigned x) : Double.Positive x.toModel.unpack :=
  Double.positive_unpack ((unsigned_iff x).mp h)

theorem unsigned_toFloat (d : Decimal) : Unsigned d.toFloat := by
  by_cases h : d.digits < 2 ^ 53 ∧ d.exponent.natAbs ≤ 22
  · have hdigits : Double.Positive d.digits.toUInt64.toFloat.toModel.unpack :=
      positive_of_unsigned (unsigned_pack (Double.positive_ofNat _))
    have hpower : ∀ k : Fin Float.exactlyRepresentablePowersOfTen.size,
        Double.Positive Float.exactlyRepresentablePowersOfTen[k].toModel.unpack := by
      intro k
      obtain ⟨m, e, hm, hunpack, -⟩ := Double.exactly_powerOfTen k.isLt
      rw [Fin.getElem_fin, hunpack]
      rfl
    have hk : d.exponent.natAbs < Float.exactlyRepresentablePowersOfTen.size :=
      Nat.lt_succ_of_le h.2
    rw [Decimal.toFloat, Float.ofScientific, dif_pos h]
    dsimp only
    split
    · exact unsigned_pack (Double.positive_div hdigits (hpower ⟨_, hk⟩))
    · exact unsigned_pack (Double.positive_mul hdigits (hpower ⟨_, hk⟩))
  · rw [Decimal.toFloat_of_not_exact h]
    exact unsigned_pack (Double.positive_ofScientific _ _)

theorem unpack_toFloat_of_zero {d : Decimal} (hd : d.digits = 0) :
    d.toFloat.toModel.unpack = .zero .positive := by
  have hzero : (0 : Nat).toUInt64.toFloat.toModel.unpack = .zero .positive :=
    Double.unpack_pack_zero .positive
  by_cases h : d.digits < 2 ^ 53 ∧ d.exponent.natAbs ≤ 22
  · obtain ⟨m, e, hm, hpower, -⟩ := Double.exactly_powerOfTen (Nat.lt_succ_of_le h.2)
    rw [Decimal.toFloat, Float.ofScientific, dif_pos h]
    dsimp only
    rw [← hd] at hzero
    split
    · exact Double.unpack_zero_div hzero hpower
    · exact Double.unpack_zero_mul hzero hpower
  · rw [Decimal.toFloat_of_not_exact h, hd]
    exact Double.unpack_pack_zero .positive

end BlendPlot
