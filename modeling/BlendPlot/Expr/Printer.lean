import BlendPlot.Decimal.Layout
import BlendPlot.Expr

namespace BlendPlot.Expr

/-- A text in parentheses unless it binds as tightly as `least`. -/
def guarded (least level : Nat) (text : String) : String :=
  if level < least then "(" ++ text ++ ")" else text

def infixText (op : Operator) : String :=
  if op = .power then op.symbol.toString else " " ++ op.symbol.toString ++ " "

mutual

def text : Expr → String
  | number value => Decimal.Layout.plain.text value
  | name id => id
  | negate operand => "-" ++ guarded signLevel operand.level operand.text
  | binary op left right =>
    guarded op.leftLevel left.level left.text ++ infixText op ++
      guarded op.rightLevel right.level right.text
  | call function arguments => function ++ "(" ++ ", ".intercalate (texts arguments) ++ ")"

def texts : List Expr → List String
  | [] => []
  | e :: es => e.text :: texts es

end

end BlendPlot.Expr
