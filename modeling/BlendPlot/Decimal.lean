namespace BlendPlot

/-- The number `digits * 10 ^ exponent`. -/
structure Decimal where
  digits : Nat
  exponent : Int
  deriving DecidableEq

namespace Decimal

/-- The number that a run of decimal digits writes; no digits write zero. -/
def digitsValue (cs : List Char) : Nat :=
  cs.foldl (fun n c => 10 * n + (c.toNat - '0'.toNat)) 0

theorem digitsValue_concat (cs : List Char) (c : Char) :
    digitsValue (cs ++ [c]) = 10 * digitsValue cs + (c.toNat - '0'.toNat) := by
  simp [digitsValue]

theorem digitChar_value {d : Nat} (h : d < 10) : d.digitChar.toNat - '0'.toNat = d := by
  revert d
  decide

theorem digitsValue_toDigits (n : Nat) : digitsValue (Nat.toDigits 10 n) = n := by
  induction n using Nat.strongRecOn with
  | ind n ih =>
    by_cases h : n < 10
    · rw [Nat.toDigits_of_lt_base h]
      simpa [digitsValue] using digitChar_value h
    · rw [Nat.toDigits_of_base_le (by decide) (Nat.le_of_not_lt h), digitsValue_concat,
        ih (n / 10) (by omega), digitChar_value (Nat.mod_lt n (by decide))]
      omega

def ofPoint (whole fraction : List Char) : Decimal :=
  ⟨digitsValue (whole ++ fraction), -fraction.length⟩

/-- The nearest double, of two the even one; infinite past the largest. -/
def toFloat (d : Decimal) : Float :=
  Float.ofScientific d.digits (d.exponent < 0) d.exponent.natAbs

end Decimal

end BlendPlot
