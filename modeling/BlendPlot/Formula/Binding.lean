import BlendPlot.Expr
import BlendPlot.Expr.Error
import BlendPlot.Formula

namespace BlendPlot

structure Scope where
  parameters : List String
  /-- Whether the weight has a value. -/
  weight : Bool := true

def Scope.find (s : Scope) (name : String) : Except BindError Formula :=
  match Symbol.find? name with
  | some .argument => .ok .argument
  | some .weight => if s.weight then .ok .weight else .error (.unavailable name)
  | some (.constant value) => .ok (.constant value)
  | some (.function _) => .error (.uncalledFunction name)
  | none =>
    match s.parameters.idxOf? name with
    | some index => .ok (.parameter index)
    | none => .error (.unknownName name)

def Expr.bind (s : Scope) : Expr → Except BindError Formula
  | number value => .ok (.constant value)
  | name id => s.find id
  | negate operand => return .negate (← operand.bind s)
  | binary op left right => return .binary op (← left.bind s) (← right.bind s)
  | call function arguments =>
    match Symbol.find? function with
    | some (.function f) =>
      match arguments with
      | [argument] => return .call f (← argument.bind s)
      | arguments => .error (.wrongArity function arguments.length)
    | _ => .error (.unknownFunction function)

end BlendPlot
