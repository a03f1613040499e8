import BlendPlot.Decimal
import BlendPlot.Operator

namespace BlendPlot

inductive Lexeme where
  /-- A numeral: the digits before its point and, if it has a point, those after. -/
  | number (whole : List Char) (fraction : Option (List Char))
  | name (letters : String)
  | sign (op : Operator)
  | opening
  | closing
  | comma
  | unknown (c : Char)
  deriving DecidableEq

namespace Lexeme

def spelling : Lexeme → String
  | number whole none => String.ofList whole
  | number whole (some fraction) => String.ofList (whole ++ '.' :: fraction)
  | name letters => letters
  | sign op => op.symbol.toString
  | opening => "("
  | closing => ")"
  | comma => ","
  | unknown c => c.toString

def value? : Lexeme → Option Float
  | number whole fraction => some (Decimal.ofPoint whole (fraction.getD [])).toFloat
  | _ => none

end Lexeme

/-- A lexeme and the number of bytes before it. -/
structure Token where
  lexeme : Lexeme
  position : Nat
  deriving DecidableEq

end BlendPlot
