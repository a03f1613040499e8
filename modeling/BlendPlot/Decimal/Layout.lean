import BlendPlot.Decimal.Shortest

namespace BlendPlot.Decimal

/-- How numbers are written; `positional e` says whether `d.ddd * 10 ^ e` has no power of ten. -/
structure Layout where
  tie : Tie
  positional : Int → Bool
  pointed : Bool

/-- Running text: always positional, whole numbers without a point. -/
def Layout.plain : Layout where
  tie := .up
  positional := fun _ => true
  pointed := false

/-- Data text: positional from `1e-5` to below `1e16`, and never without a point or a power. -/
def Layout.data : Layout where
  tie := .even
  positional := fun e => -5 ≤ e && e ≤ 15
  pointed := true

def zeros (count : Nat) : List Char :=
  List.replicate count '0'

def Layout.positionalText (l : Layout) (ds : List Char) (p : Int) : List Char :=
  if 0 ≤ p then ds ++ zeros p.toNat ++ (if l.pointed then ['.', '0'] else [])
  else
    let places := (-p).toNat
    if places < ds.length then
      ds.take (ds.length - places) ++ '.' :: ds.drop (ds.length - places)
    else '0' :: '.' :: zeros (places - ds.length) ++ ds

def scientificText (ds : List Char) (e : Int) : List Char :=
  let significand :=
    match ds with
    | d :: d' :: rest => d :: '.' :: d' :: rest
    | ds => ds
  significand ++ 'e' :: (if e < 0 then '-' else '+') :: Nat.toDigits 10 e.natAbs

def Layout.decimalText (l : Layout) (d : Decimal) : List Char :=
  let ds := Nat.toDigits 10 d.digits
  let e := d.exponent + ds.length - 1
  if l.positional e then l.positionalText ds d.exponent else scientificText ds e

/-- The text of a double. Negative zero keeps its sign, a NaN has none. -/
def Layout.text (l : Layout) (x : Float) : String :=
  if x.isNaN then "NaN"
  else
    let negative := x.toBits ≥ 0x8000000000000000
    let magnitude :=
      if x.isFinite then l.decimalText (shortest l.tie x) else ['i', 'n', 'f']
    String.ofList (if negative then '-' :: magnitude else magnitude)

example : Layout.plain.text 0.1 = "0.1" ∧ Layout.data.text 0.1 = "0.1" := by decide +kernel
example : Layout.plain.text 1e16 = "10000000000000000" ∧ Layout.data.text 1e16 = "1e+16" := by
  decide +kernel
example : Layout.plain.text (-0.0) = "-0" ∧ Layout.data.text (-0.0) = "-0.0" := by
  decide +kernel
example : Layout.plain.text 1.5e-7 = "0.00000015" ∧ Layout.data.text 1.5e-7 = "1.5e-7" := by
  decide +kernel
example : Layout.plain.text (1 / 0) = "inf" ∧ Layout.plain.text (0 / 0) = "NaN" := by
  decide +kernel

/-- Two to the power of minus 25 lies half way between two decimals of the least length. -/
example : Layout.plain.text 2.98023223876953125e-8 = "0.000000029802322387695313" ∧
    Layout.data.text 2.98023223876953125e-8 = "2.9802322387695312e-8" := by decide +kernel

end BlendPlot.Decimal
