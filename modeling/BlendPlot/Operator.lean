namespace BlendPlot

/-- A binary arithmetic operator. Plus and minus also stand as signs before an operand. -/
inductive Operator where
  | plus
  | minus
  | times
  | divide
  | power
  deriving DecidableEq

def signLevel : Nat := 3

/-- The level of what stands alone: numbers, names, calls and groups. -/
def atomLevel : Nat := 5

namespace Operator

def symbol : Operator → Char
  | plus => '+'
  | minus => '-'
  | times => '*'
  | divide => '/'
  | power => '^'

def ofSymbol? : Char → Option Operator
  | '+' => some plus
  | '-' => some minus
  | '*' => some times
  | '/' => some divide
  | '^' => some power
  | _ => none

/-- How tightly the operator binds. -/
def level : Operator → Nat
  | plus | minus => 1
  | times | divide => 2
  | power => 4

/-- The least level of a left operand without parentheses: powers group to the right. -/
def leftLevel (op : Operator) : Nat :=
  if op = power then op.level + 1 else op.level

/-- The least level of a right operand without parentheses: all but powers group to the left. -/
def rightLevel (op : Operator) : Nat :=
  if op = power then op.level else op.level + 1

/-- The value of the operator. Undefined arithmetic is infinite or not a number. -/
def apply (op : Operator) (a b : Float) : Float :=
  match op with
  | plus => a + b
  | minus => a - b
  | times => a * b
  | divide => a / b
  | power => Float.pow a b

@[simp] theorem ofSymbol?_symbol (op : Operator) : ofSymbol? op.symbol = some op := by
  cases op <;> rfl

theorem symbol_of_ofSymbol? {c : Char} {op : Operator} (h : ofSymbol? c = some op) :
    op.symbol = c := by
  unfold ofSymbol? at h
  split at h <;> cases h <;> rfl

end Operator

end BlendPlot
