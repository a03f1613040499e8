import BlendPlot.Operator
import BlendPlot.Symbol

namespace BlendPlot

/-- An expression over the argument, the weight and the parameters by their places. -/
inductive Formula where
  | constant (value : Float)
  | argument
  | weight
  | parameter (index : Nat)
  | negate (operand : Formula)
  | binary (op : Operator) (left right : Formula)
  | call (f : Function) (operand : Formula)
  deriving DecidableEq

structure Valuation where
  argument : Float
  weight : Float
  parameters : List Float

namespace Formula

/-- The value of a formula. A parameter without a value is zero. -/
def eval (v : Valuation) : Formula → Float
  | constant value => value
  | argument => v.argument
  | weight => v.weight
  | parameter index => v.parameters.getD index 0
  | negate operand => -operand.eval v
  | binary op left right => op.apply (left.eval v) (right.eval v)
  | call f operand => f.apply (operand.eval v)

def isConstant : Formula → Bool
  | constant _ => true
  | argument | weight | parameter _ => false
  | negate operand => operand.isConstant
  | binary _ left right => left.isConstant && right.isConstant
  | call _ operand => operand.isConstant

def height : Formula → Nat
  | negate operand => operand.height + 1
  | binary _ left right => max left.height right.height + 1
  | call _ operand => operand.height + 1
  | _ => 1

theorem eval_eq_of_isConstant {f : Formula} (h : f.isConstant) (v w : Valuation) :
    f.eval v = f.eval w := by
  induction f with
  | constant value => rfl
  | argument => cases h
  | weight => cases h
  | parameter index => cases h
  | negate operand ih => simp only [eval, ih h]
  | binary op left right ihl ihr =>
    simp only [isConstant, Bool.and_eq_true] at h
    simp only [eval, ihl h.1, ihr h.2]
  | call f operand ih => simp only [eval, ih h]

end Formula

end BlendPlot
