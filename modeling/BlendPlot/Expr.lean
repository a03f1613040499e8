import BlendPlot.Operator

namespace BlendPlot

inductive Expr where
  | number (value : Float)
  | name (id : String)
  | negate (operand : Expr)
  | binary (op : Operator) (left right : Expr)
  | call (function : String) (arguments : List Expr)

namespace Expr

mutual

/-- The number of levels of the tree; a call without arguments has one. -/
def height : Expr → Nat
  | number _ => 1
  | name _ => 1
  | negate operand => operand.height + 1
  | binary _ left right => max left.height right.height + 1
  | call _ arguments => maxHeight arguments + 1

def maxHeight : List Expr → Nat
  | [] => 0
  | e :: es => max e.height (maxHeight es)

end

def level : Expr → Nat
  | negate _ => signLevel
  | binary op _ _ => op.level
  | _ => atomLevel

end Expr

end BlendPlot
