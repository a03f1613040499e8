import BlendPlot.Decimal

namespace BlendPlot.Decimal

/-- Which of two neighbours stands for a number half way between them. -/
inductive Tie where
  | up
  | even
  deriving DecidableEq

/-- The numbers that round to `middle`: between `low` and `high`, times `2 ^ exponent`. -/
structure Rounding where
  low : Nat
  middle : Nat
  high : Nat
  exponent : Int
  closed : Bool

namespace Rounding

/-- At the least significand of a binade the double below is only half as far away. -/
def ofBits (bits : Nat) : Rounding :=
  let fraction := bits % Nat.pow 2 52
  let binade := bits / Nat.pow 2 52 % Nat.pow 2 11
  let significand := if binade = 0 then fraction else Nat.pow 2 52 + fraction
  let nearBelow := fraction = 0 ∧ 1 < binade
  { low := if nearBelow then 4 * significand - 1 else 4 * significand - 2
    middle := 4 * significand
    high := 4 * significand + 2
    exponent := (max binade 1 : Nat) - 1077
    closed := significand % 2 = 0 }

/-- On the scale where the grid `10 ^ p` has step `r.step p` the interval is multiplied by this. -/
def scale (r : Rounding) (p : Int) : Nat :=
  Nat.pow 2 r.exponent.toNat * Nat.pow 10 (-p).toNat

@[inherit_doc scale]
def step (r : Rounding) (p : Int) : Nat :=
  Nat.pow 10 p.toNat * Nat.pow 2 (-r.exponent).toNat

/-- Whether `digits * 10 ^ p` rounds to the double. -/
def holds (r : Rounding) (p : Int) (digits : Nat) : Bool :=
  let number := digits * r.step p
  if r.closed then r.low * r.scale p ≤ number && number ≤ r.high * r.scale p
  else r.low * r.scale p < number && number < r.high * r.scale p

/-- The neighbour of the double on the grid `10 ^ p` that rounds to it, the nearer of two. -/
def onGrid (tie : Tie) (r : Rounding) (p : Int) : Option Nat :=
  let below := r.middle * r.scale p / r.step p
  let above := below + 1
  match r.holds p below, r.holds p above with
  | false, false => none
  | true, false => some below
  | false, true => some above
  | true, true =>
    let excess := 2 * (r.middle * r.scale p % r.step p)
    if excess < r.step p then some below
    else if r.step p < excess then some above
    else match tie with
      | .up => some above
      | .even => some (if below % 2 = 0 then below else above)

/-- The finest grid that is ever needed: the double is a point of it. -/
def finest (r : Rounding) : Int :=
  min r.exponent 0

def coarsest (r : Rounding) : Int :=
  (r.middle.log2 + 1 + r.exponent) * 30103 / 100000 + 1

/-- The first hit on the grids from `10 ^ (r.finest + k)` down to the finest. -/
def search (tie : Tie) (r : Rounding) : Nat → Decimal
  | 0 => ⟨r.middle * r.scale r.finest / r.step r.finest, r.finest⟩
  | k + 1 =>
    match r.onGrid tie (r.finest + ↑(k + 1)) with
    | some digits => ⟨digits, r.finest + ↑(k + 1)⟩
    | none => r.search tie k

end Rounding

/-- The shortest decimal that reads back as the magnitude of a double, of these the nearest. -/
def shortest (tie : Tie) (x : Float) : Decimal :=
  if x == 0 then ⟨0, 0⟩
  else
    let r := Rounding.ofBits x.abs.toBits.toNat
    r.search tie (r.coarsest - r.finest).toNat

end BlendPlot.Decimal
