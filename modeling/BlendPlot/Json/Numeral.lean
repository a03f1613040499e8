import BlendPlot.Decimal
import BlendPlot.Json

namespace BlendPlot.Json

structure Numeral where
  negative : Bool
  whole : List Char
  fraction : Option (List Char)
  exponent : Option Int

def digits (cs : List Char) : Option (List Char × List Char) :=
  if (cs.takeWhile Char.isDigit).isEmpty then none
  else some (cs.takeWhile Char.isDigit, cs.dropWhile Char.isDigit)

/-- Reads the digits before the point; a zero stands alone. -/
def whole : List Char → Option (List Char × List Char)
  | '0' :: cs => some (['0'], cs)
  | cs => digits cs

def fraction : List Char → Option (Option (List Char) × List Char)
  | '.' :: cs => do
    let (ds, rest) ← digits cs
    return (some ds, rest)
  | cs => some (none, cs)

def signedDigits : List Char → Option (Int × List Char)
  | '+' :: cs => do
    let (ds, rest) ← digits cs
    return (↑(Decimal.digitsValue ds), rest)
  | '-' :: cs => do
    let (ds, rest) ← digits cs
    return (-↑(Decimal.digitsValue ds), rest)
  | cs => do
    let (ds, rest) ← digits cs
    return (↑(Decimal.digitsValue ds), rest)

def exponent (cs : List Char) : Option (Option Int × List Char) :=
  match cs with
  | 'e' :: cs | 'E' :: cs => do
    let (e, rest) ← signedDigits cs
    return (some e, rest)
  | cs => some (none, cs)

def unsigned (negative : Bool) (cs : List Char) : Option (Numeral × List Char) := do
  let (w, rest) ← whole cs
  let (f, rest) ← fraction rest
  let (e, rest) ← exponent rest
  return (⟨negative, w, f, e⟩, rest)

def numeral : List Char → Option (Numeral × List Char)
  | '-' :: cs => unsigned true cs
  | cs => unsigned false cs

namespace Numeral

def magnitude (n : Numeral) : Decimal :=
  let d := Decimal.ofPoint n.whole (n.fraction.getD [])
  ⟨d.digits, d.exponent + n.exponent.getD 0⟩

def toFloat (n : Numeral) : Float :=
  if n.negative then -n.magnitude.toFloat else n.magnitude.toFloat

/-- A whole number has neither a point nor an exponent; negative zero is none. -/
def toJson? (n : Numeral) : Option Json :=
  if !n.toFloat.isFinite then none
  else if n.fraction.isNone && n.exponent.isNone && !(n.negative && n.magnitude.digits = 0) then
    some (.integer (if n.negative then -↑n.magnitude.digits else ↑n.magnitude.digits))
  else some (.real n.toFloat)

end Numeral

theorem digits_shorter {cs ds rest : List Char} (h : digits cs = some (ds, rest)) :
    rest.length < cs.length := by
  unfold digits at h
  split at h
  · cases h
  · next hd =>
    cases h
    cases cs with
    | nil => simp at hd
    | cons c cs =>
      by_cases hc : c.isDigit
      · rw [List.dropWhile_cons_of_pos hc]
        exact Nat.lt_succ_of_le (List.dropWhile_suffix _).length_le
      · simp [hc] at hd

theorem whole_shorter {cs ds rest : List Char} (h : whole cs = some (ds, rest)) :
    rest.length < cs.length := by
  unfold whole at h
  split at h
  · cases h
    exact Nat.lt_succ_self _
  · exact digits_shorter h

theorem fraction_no_longer {cs rest : List Char} {ds : Option (List Char)}
    (h : fraction cs = some (ds, rest)) : rest.length ≤ cs.length := by
  unfold fraction at h
  split at h
  · obtain ⟨_, hd, h⟩ := Option.bind_eq_some_iff.mp h
    cases h
    exact Nat.le_of_lt (Nat.lt_succ_of_lt (digits_shorter hd))
  · cases h
    exact Nat.le_refl _

theorem signedDigits_shorter {cs rest : List Char} {e : Int}
    (h : signedDigits cs = some (e, rest)) : rest.length < cs.length := by
  unfold signedDigits at h
  split at h <;> obtain ⟨_, hd, h⟩ := Option.bind_eq_some_iff.mp h <;> cases h
  · exact Nat.lt_succ_of_lt (digits_shorter hd)
  · exact Nat.lt_succ_of_lt (digits_shorter hd)
  · exact digits_shorter hd

theorem exponent_no_longer {cs rest : List Char} {e : Option Int}
    (h : exponent cs = some (e, rest)) : rest.length ≤ cs.length := by
  unfold exponent at h
  split at h
  · obtain ⟨_, hs, h⟩ := Option.bind_eq_some_iff.mp h
    cases h
    exact Nat.le_of_lt (Nat.lt_succ_of_lt (signedDigits_shorter hs))
  · obtain ⟨_, hs, h⟩ := Option.bind_eq_some_iff.mp h
    cases h
    exact Nat.le_of_lt (Nat.lt_succ_of_lt (signedDigits_shorter hs))
  · cases h
    exact Nat.le_refl _

theorem unsigned_shorter {negative : Bool} {cs rest : List Char} {n : Numeral}
    (h : unsigned negative cs = some (n, rest)) : rest.length < cs.length := by
  obtain ⟨_, hw, h⟩ := Option.bind_eq_some_iff.mp h
  obtain ⟨_, hf, h⟩ := Option.bind_eq_some_iff.mp h
  obtain ⟨_, he, h⟩ := Option.bind_eq_some_iff.mp h
  cases h
  exact Nat.lt_of_le_of_lt (Nat.le_trans (exponent_no_longer he) (fraction_no_longer hf))
    (whole_shorter hw)

theorem numeral_shorter {cs rest : List Char} {n : Numeral} (h : numeral cs = some (n, rest)) :
    rest.length < cs.length := by
  unfold numeral at h
  split at h
  · exact Nat.lt_succ_of_lt (unsigned_shorter h)
  · exact unsigned_shorter h

end BlendPlot.Json
